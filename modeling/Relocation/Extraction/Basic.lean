import Relocation.Path.Basic
import Relocation.Table

/-!
# References and exports

What reading one module yields: the references it makes to others, in text order, the names it
exports, and the number of places that could not be read.
-/

namespace Relocation

inductive ReferenceKind where
  /-- `import X from "spec"`, side-effect imports, `export … from "spec"`. -/
  | static
  /-- `import("spec")`. -/
  | lazy
  /-- `<Name />`; the specifier is the bare identifier. -/
  | structural
  deriving DecidableEq, Repr

namespace ReferenceKind

def rank : ReferenceKind → Nat
  | .static => 0
  | .lazy => 1
  | .structural => 2

def name : ReferenceKind → String
  | .static => "static"
  | .lazy => "lazy"
  | .structural => "structural"

/-- The specifier is a path, which a move can change. -/
def hasPath : ReferenceKind → Bool
  | .structural => false
  | _ => true

end ReferenceKind

/-- Byte range of a specifier inside its module, quotes excluded. -/
structure Span where
  start : Nat
  stop : Nat
  deriving DecidableEq, Repr

structure Reference where
  source : Path
  specifier : String
  kind : ReferenceKind
  span : Span
  /-- Line of the specifier, counted from one. -/
  line : Nat
  /-- The target is an expression rather than a literal. -/
  computed : Bool
  deriving DecidableEq, Repr

namespace Reference

/-- Position in the order of references: by span, then by kind. -/
def position (r : Reference) : Nat × Nat × Nat := (r.span.start, r.span.stop, r.kind.rank)

def atOrBefore (a b : Reference) : Bool :=
  let (s, e, k) := a.position
  let (s', e', k') := b.position
  s < s' || (s == s' && (e < e' || (e == e' && k ≤ k')))

/-- Of neighbours at one position, the first. -/
def dropRepeats : List Reference → List Reference
  | [] => []
  | r :: rest =>
    match dropRepeats rest with
    | [] => [r]
    | r' :: rest' => if r.position = r'.position then r :: rest' else r :: r' :: rest'

/-- References in order, one per position. Of several at one position the first stays. -/
def arrange (rs : List Reference) : List Reference := dropRepeats (rs.mergeSort atOrBefore)

end Reference

structure ExportSet where
  names : Keys String := ∅
  hasDefault : Bool := false
  /-- Some `export * from` passes on everything. -/
  reexportsAll : Bool := false
  deriving DecidableEq, Repr

namespace ExportSet

def isEmpty (e : ExportSet) : Bool := e.names.toList.isEmpty && !e.hasDefault && !e.reexportsAll

def addName (e : ExportSet) (name : String) : ExportSet := { e with names := e.names.insert name }

/-- The name under which a clause exports; `default` is no ordinary name, and no name is none. -/
def addExported (e : ExportSet) (name : String) : ExportSet :=
  if name = "default" then { e with hasDefault := true }
  else if name = "" then e
  else e.addName name

end ExportSet

structure Extraction where
  path : Path
  references : List Reference
  exports : ExportSet
  unparsable : Nat
  deriving DecidableEq, Repr

/-- One more than the number of line ends in the first `pos` bytes of a text. -/
def lineAt (text : List Char) (pos : Nat) : Nat := 1 + go text pos
where
  go : List Char → Nat → Nat
    | [], _ => 0
    | c :: rest, pos =>
      if pos = 0 then 0 else (if c = '\n' then 1 else 0) + go rest (pos - c.utf8Size)

def lineStarts (text : List Char) : List Nat := 0 :: go 0 text
where
  go (pos : Nat) : List Char → List Nat
    | [] => []
    | c :: rest =>
      let next := pos + c.utf8Size
      if c = '\n' then next :: go next rest else go next rest

/-- The line of a byte offset, searched for by halves among the places where lines start. -/
def lineOf (starts : List Nat) (pos : Nat) : Nat :=
  match narrow (fun entry => compare entry.1 pos) starts.length starts.zipIdx with
  | [] => 0
  | (start, i) :: _ => if start ≤ pos then i + 1 else i

end Relocation
