import Relocation.Plan
import Relocation.Specifier
import Relocation.Text.Slice

/-!
# Replacement rules

Moving modules changes what specifiers have to say. A rule replaces one whole specifier. Alias
specifiers mean the same in every module, so their rules are shared; relative ones hold for a single
referrer, which is named by its path before the move.
-/

namespace Relocation

inductive RuleScope where
  | shared
  | referrer (path : Path)
  deriving DecidableEq, Repr

structure Rule where
  old : String
  new : String
  scope : RuleScope
  deriving DecidableEq, Repr

inductive RuleFault where
  | conflict (token first second : String) (referrer : Option Path)
  /-- A token is both replaced and produced. -/
  | chained (token : String) (referrer : Option Path)
  deriving DecidableEq, Repr

namespace RuleFault

def scopeName : Option Path → String
  | none => "global scope"
  | some p => p.text

def message : RuleFault → String
  | .conflict token first second referrer =>
    "conflicting rules for '" ++ token ++ "' in " ++ scopeName referrer ++ ": '" ++ first ++
      "' vs '" ++ second ++ "'"
  | .chained token referrer =>
    "token collision in " ++ scopeName referrer ++ ": '" ++ token ++
      "' is both replaced and produced"

end RuleFault

structure Rules where
  shared : Table String String := ∅
  byReferrer : Table Path (Table String String) := ∅
  deriving DecidableEq, Repr

namespace Rules

def isEmpty (r : Rules) : Bool := r.shared.entries.isEmpty && r.byReferrer.entries.isEmpty

def size (r : Rules) : Nat :=
  r.byReferrer.values.foldr (fun rules n => rules.entries.length + n) r.shared.entries.length

/-- Shared rules first, then by referrer. -/
def toList (r : Rules) : List Rule :=
  r.shared.entries.map (fun (old, new) => ⟨old, new, .shared⟩) ++
    r.byReferrer.entries.flatMap fun (p, t) => t.entries.map fun (old, new) => ⟨old, new, .referrer p⟩

/-- What replaces `token` in a module; its own rules come before the shared ones. -/
def lookup (r : Rules) (referrer : Path) (token : String) : Option String :=
  (((r.byReferrer.find? referrer).getD ∅).find? token).or (r.shared.find? token)

/-- Adds a rule to a table. A rule that changes nothing is left out. -/
def addTo (referrer : Option Path) (t : Table String String) (old new : String) :
    Except RuleFault (Table String String) :=
  if old = new then .ok t
  else
    match t.find? old with
    | some first => if first = new then .ok t else .error (.conflict old first new referrer)
    | none => .ok (t.insert old new)

def addShared (r : Rules) (old new : String) : Except RuleFault Rules := do
  let shared ← addTo none r.shared old new
  pure { r with shared }

def addScoped (r : Rules) (referrer : Path) (old new : String) : Except RuleFault Rules := do
  let t ← addTo (some referrer) ((r.byReferrer.find? referrer).getD ∅) old new
  pure { r with byReferrer := r.byReferrer.insert referrer t }

/-- All that the rules in force for a referrer produce: its own first. -/
def produced (shared own : Table String String) : List String :=
  own.values ++ (shared.filter fun (old, _) => !own.contains old).values

/-- A token that is produced and replaced in the scope of one referrer. -/
def chainedIn? (shared own : Table String String) : Option String :=
  (produced shared own).find? fun token => own.contains token || shared.contains token

/-- The first token that is both replaced and produced. -/
def chained? (r : Rules) : Option RuleFault :=
  match chainedIn? r.shared ∅ with
  | some token => some (.chained token none)
  | none => r.byReferrer.entries.findSome? fun (p, own) => (chainedIn? r.shared own).map (.chained · (some p))

/-- The shared rule for a moved module by its alias and without extension, if that token names this
module and no other. -/
def canonical? (aliases : List Alias) (resolver : Resolver) (m : Move) : Option (String × String) :=
  match aliasSpecifier? aliases m.source.withoutExtension,
      aliasSpecifier? aliases m.target.withoutExtension with
  | some old, some new =>
    match (resolver.resolvePath m.source old).target? with
    | some p => if p.same m.source then some (old, new) else none
    | none => none
  | _, _ => none

def addCanonical (aliases : List Alias) (resolver : Resolver) (r : Rules) (m : Move) :
    Except RuleFault Rules :=
  match canonical? aliases resolver m with
  | some (old, new) => r.addShared old new
  | none => .ok r

/-- Adds the rule for a reference whose target or referrer moves. -/
def addObserved (plan : MovePlan) (g : Graph) (referrer : Path) (r : Rules)
    (found : ResolvedReference) : Except RuleFault Rules :=
  let token := found.reference.specifier
  if !found.reference.kind.hasPath || found.reference.computed then .ok r
  else
    match found.target?, g.resolver.basePath? referrer token with
    | some target, some base =>
      if !plan.isMoved target && !plan.isMoved referrer then .ok r
      else
        match SpecifierStyle.detect? base target g.extensions with
        | none => .ok r
        | some style =>
          let base' := style.render (plan.finalPath target)
          let relative := relativeSpecifier (plan.finalPath referrer).directory base'
          match g.resolver.form token with
          | .relative => r.addScoped referrer token relative
          | .alias =>
            if plan.isMoved target then
              match aliasSpecifier? g.aliases base' with
              | some new => r.addShared token new
              | none => r.addScoped referrer token relative
            else .ok r
          | .bare => .ok r
    | _, _ => .ok r

def addModule (plan : MovePlan) (g : Graph) (r : Rules) (n : Node) : Except RuleFault Rules :=
  (g.referencesFrom n.path).foldlM (addObserved plan g n.path) r

def derive (plan : MovePlan) (g : Graph) : Except RuleFault Rules := do
  let r ← plan.moves.foldlM (addCanonical g.aliases g.resolver) {}
  let r ← g.nodes.foldlM (addModule plan g) r
  match r.chained? with
  | some fault => .error fault
  | none => .ok r

def touches (r : Rules) (referrer : Path) (ref : Reference) : Bool :=
  ref.kind.hasPath && !ref.computed && (r.lookup referrer ref.specifier).isSome

/-- Modules with a reference that has a rule, in path order. -/
def affected (r : Rules) (g : Graph) : List Path :=
  (g.nodes.filter fun n =>
    (g.referencesFrom n.path).any fun found => r.touches n.path found.reference).map (·.path)

end Rules

structure Edit where
  span : Span
  new : String
  deriving DecidableEq, Repr

namespace Edit

/-- The edits of `es`, last one first, that do not reach over the start of one already chosen. -/
def choose (limit : Option Nat) : List Edit → List Edit
  | [] => []
  | e :: rest =>
    if limit.any (· < e.span.stop) then choose limit rest
    else e :: choose (some e.span.start) rest

def laterFirst (a b : Edit) : Bool := b.span.start ≤ a.span.start

/-- The text with the edit made. It has no place in a text that ends before its span, nor where the
span is turned round or starts or ends inside a character. -/
def make? (text : List Char) (e : Edit) : Option (List Char) :=
  (Text.splitBytes? e.span.stop text).bind fun (front, back) =>
    (Text.splitBytes? e.span.start front).map fun (kept, _) => kept ++ e.new.toList ++ back

end Edit

/-- How editing a text ends. -/
inductive Edited where
  | done (content : String) (replacements : Nat)
  /-- An edit had no place in the text, and the program went no further. -/
  | aborted
  deriving DecidableEq, Repr

namespace Edited

def content : Edited → String
  | .done content _ => content
  | .aborted => ""

def replacements : Edited → Nat
  | .done _ replacements => replacements
  | .aborted => 0

end Edited

namespace Rules

def editsOf (r : Rules) (referrer : Path) (refs : List Reference) : List Edit :=
  refs.filterMap fun ref =>
    if ref.kind.hasPath && !ref.computed then
      (r.lookup referrer ref.specifier).map fun new => ⟨ref.span, new⟩
    else none

/-- Replaces every specifier of a text that has a rule. `referrer` is the path of the module before
the move, `language` the one that tells how to read it. Spans that do not fit the text are no error to
report: the first of them that is to be replaced ends the program. -/
def apply (extract : Path → String → Extraction) (r : Rules) (referrer language : Path)
    (content : String) : Edited :=
  let edits := r.editsOf referrer (extract language content).references
  let chosen := Edit.choose none (edits.mergeSort Edit.laterFirst)
  match chosen.foldlM Edit.make? content.toList with
  | some text => .done (String.ofList text) chosen.length
  | none => .aborted

end Rules

end Relocation
