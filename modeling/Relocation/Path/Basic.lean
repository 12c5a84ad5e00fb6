/-!
# Paths

A path is kept as it was written and read as a list of components: `a//b`, `a/./b` and `a/b/` have
the components of `a/b`, while a leading `.` is a component of its own. Order and equality of paths
go by component; `join`, `parent?` and the others keep the spelling of what they are given.

Names are text. A file name of other bytes, which a disk may well hold, has no path here: it could
not be spelt in a specifier, a configuration or a record either.
-/

namespace Relocation

inductive Component where
  | root
  | current
  | parent
  | normal (name : String)
  deriving DecidableEq, Repr

namespace Component

/-- Components sort by kind, ordinary names by code point. -/
def key : Component → Nat × String
  | .root => (0, "")
  | .current => (1, "")
  | .parent => (2, "")
  | .normal name => (3, name)

theorem key_injective {a b : Component} (h : a.key = b.key) : a = b := by
  cases a <;> cases b <;> simp_all [key]

instance : Ord Component := ⟨compareLex (compareOn fun c => c.key.1) (compareOn fun c => c.key.2)⟩

instance : Std.TransOrd Component :=
  inferInstanceAs
    (Std.TransCmp (compareLex (compareOn fun c : Component => c.key.1) (compareOn fun c => c.key.2)))

instance : Std.LawfulEqOrd Component where
  eq_of_compare {a b} h := by
    apply key_injective
    have h' : (compare a.key.1 b.key.1).then (compare a.key.2 b.key.2) = .eq := h
    rw [Ordering.then_eq_eq] at h'
    exact Prod.ext (Std.LawfulEqOrd.eq_of_compare h'.1) (Std.LawfulEqOrd.eq_of_compare h'.2)

def text : Component → String
  | .root => "/"
  | .current => "."
  | .parent => ".."
  | .normal name => name

def isNormal : Component → Bool
  | .normal _ => true
  | _ => false

end Component

structure Path where
  text : String
  deriving DecidableEq, Repr

namespace Path

instance : Inhabited Path := ⟨⟨""⟩⟩

/-- What one stretch between slashes stands for; nothing, if it is empty or a dot. -/
def segment? (s : List Char) : Option Component :=
  if s = [] ∨ s = ['.'] then none
  else if s = ['.', '.'] then some .parent
  else some (.normal (String.ofList s))

def isAbsoluteText (cs : List Char) : Bool := cs.head? = some '/'

/-- Components of a text, each with the number of characters up to its end. -/
def placed (cs : List Char) : List (Component × Nat) :=
  let segments := cs.splitOn '/'
  let first :=
    if isAbsoluteText cs then [(Component.root, 1)]
    else if segments.head? = some ['.'] then [(Component.current, 1)]
    else []
  first ++ go 0 segments
where
  go (offset : Nat) : List (List Char) → List (Component × Nat)
    | [] => []
    | s :: rest =>
      let stop := offset + s.length
      ((segment? s).map (·, stop)).toList ++ go (stop + 1) rest

def components (p : Path) : List Component := (placed p.text.toList).map (·.1)

instance : Ord Path := ⟨compareOn components⟩

instance : Std.TransOrd Path := inferInstanceAs (Std.TransCmp (compareOn components))

/-- Both paths have the same components. -/
def same (p q : Path) : Bool := p.components = q.components

def isAbsolute (p : Path) : Bool := isAbsoluteText p.text.toList

/-- `q` seen from `p`. An absolute `q` stands for itself. -/
def join (p q : Path) : Path :=
  if q.isAbsolute then q
  else
    match p.text.toList.getLast? with
    | none => q
    | some '/' => ⟨p.text ++ q.text⟩
    | some _ => ⟨p.text ++ "/" ++ q.text⟩

instance : Div Path := ⟨join⟩

def ofComponents (cs : List Component) : Path := cs.foldl (fun p c => p.join ⟨c.text⟩) ⟨""⟩

/-- Everything but the last component; none for the empty path and for the root. -/
def parent? (p : Path) : Option Path :=
  match (placed p.text.toList).reverse with
  | [] => none
  | (.root, _) :: _ => none
  | [_] => some ⟨""⟩
  | _ :: (_, stop) :: _ => some ⟨String.ofList (p.text.toList.take stop)⟩

/-- The directory that holds `p`, the empty path if there is none. -/
def directory (p : Path) : Path := p.parent?.getD ⟨""⟩

def fileName? (p : Path) : Option String :=
  match p.components.getLast? with
  | some (.normal name) => some name
  | _ => none

/-- Splits a file name at its last dot, unless that dot comes first. -/
def splitName (name : List Char) : List Char × Option (List Char) :=
  let tail := name.reverse.takeWhile (· ≠ '.')
  let head := (name.reverse.dropWhile (· ≠ '.')).reverse
  match head.dropLast with
  | [] => (name, none)
  | stem => (stem, some tail.reverse)

def stem? (p : Path) : Option String :=
  p.fileName?.map fun name => String.ofList (splitName name.toList).1

def extension? (p : Path) : Option String :=
  p.fileName?.bind fun name => (splitName name.toList).2.map String.ofList

/-- The path cut off behind the stem of its file name. -/
def withoutExtension (p : Path) : Path :=
  match p.fileName?, (placed p.text.toList).getLast? with
  | some name, some (_, stop) =>
    let dropped := name.toList.length - (splitName name.toList).1.length
    ⟨String.ofList (p.text.toList.take (stop - dropped))⟩
  | _, _ => p

def startsWith (p base : Path) : Bool := base.components.isPrefixOf p.components

/-- The components of `p` below `base`. -/
def below? (p base : Path) : Option (List Component) :=
  if p.startsWith base then some (p.components.drop base.components.length) else none

/-- What is left of `p` below `base`, as it is spelt. -/
def relativeTo? (p base : Path) : Option Path :=
  if p.startsWith base then
    let rest := (placed p.text.toList).drop base.components.length
    match rest, rest.getLast? with
    | (c, stop) :: _, some (_, last) =>
      let start := stop - c.text.length
      some ⟨String.ofList ((p.text.toList.take last).drop start)⟩
    | _, _ => some ⟨""⟩
  else none

/-- The path and the directories above it, innermost first. -/
def ancestors (p : Path) : List Path := go (p.components.length + 1) p
where
  go : Nat → Path → List Path
    | 0, _ => []
    | n + 1, p =>
      p :: match p.parent? with
        | some q => go n q
        | none => []

/-- Names and `..` steps, joined by slashes. -/
def slashed (cs : List Component) : String :=
  "/".intercalate (cs.filterMap fun
    | .normal name => some name
    | .parent => some ".."
    | _ => none)

def slash (p : Path) : String := slashed p.components

/-- Adds one component to a cleaned list that is kept last first. -/
def cleanStep (done : List Component) : Component → List Component
  | .current => done
  | .parent =>
    match done with
    | .root :: _ => done
    | .normal _ :: above => above
    | _ => .parent :: done
  | c => c :: done

/-- Components with `.` dropped and every `name/..` cancelled. -/
def cleanComponents (cs : List Component) : List Component := (cs.foldl cleanStep []).reverse

/-- Lexical cleaning; a path with nothing left is `.`. -/
def clean (p : Path) : Path :=
  match cleanComponents p.components with
  | [] => ⟨"."⟩
  | cs => ofComponents cs

/-- The path is relative and does not start by climbing. -/
def staysInside (p : Path) : Bool :=
  match p.components with
  | .root :: _ => false
  | .parent :: _ => false
  | _ => true

/-- File name without extension; a file called `index` goes by the name of its directory. -/
def moduleName? (p : Path) : Option String :=
  match p.stem? with
  | none => none
  | some "index" => p.parent?.bind fileName?
  | some stem => some stem

end Path

end Relocation
