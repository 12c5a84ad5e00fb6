import Relocation.Extraction.Lexical
import Relocation.Proofs.Text.Matching

/-!
# Import programs

Texts of one statement a line: imports and exports that name a module, and declarations of
constants. What reading such a text should give is said here line by line, without patterns and
without a grammar.
-/

namespace Relocation

open Text

/-- The ways in which a line names a module. -/
inductive Form where
  /-- `import X from 'S';` -/
  | plain (name : String)
  /-- `import { X } from "S";` -/
  | braced (name : String)
  /-- `import 'S';` -/
  | bare
  /-- `export * from "S";` -/
  | star
  /-- `const X = import('S');` -/
  | lazy (name : String)
  deriving DecidableEq

namespace Form

def kind : Form → ReferenceKind
  | .lazy _ => .lazy
  | _ => .static

def quote : Form → Char
  | .braced _ | .star => '"'
  | _ => '\''

/-- What stands before the opening quote. -/
def opening : Form → List Char
  | .plain x => "import ".toList ++ x.toList ++ " from ".toList
  | .braced x => "import \x7b ".toList ++ x.toList ++ " \x7d from ".toList
  | .bare => "import ".toList
  | .star => "export * from ".toList
  | .lazy x => "const ".toList ++ x.toList ++ " = import(".toList

def closing : Form → List Char
  | .lazy _ => ");".toList
  | _ => ";".toList

def name? : Form → Option String
  | .plain x | .braced x | .lazy x => some x
  | .bare | .star => none

-- Unfolding `opening` by its equations evaluates the literals, so its cases are stated here.
section
variable (x : String)

@[simp] theorem opening_plain :
    (plain x).opening = "import ".toList ++ x.toList ++ " from ".toList := rfl

@[simp] theorem opening_braced :
    (braced x).opening = "import \x7b ".toList ++ x.toList ++ " \x7d from ".toList := rfl

@[simp] theorem opening_bare : bare.opening = "import ".toList := rfl

@[simp] theorem opening_star : star.opening = "export * from ".toList := rfl

@[simp] theorem opening_lazy :
    (Form.lazy x).opening = "const ".toList ++ x.toList ++ " = import(".toList := rfl

end

end Form

structure Statement where
  form : Form
  specifier : String
  deriving DecidableEq

def Statement.body (s : Statement) : List Char :=
  s.form.opening ++ s.form.quote :: s.specifier.toList ++ s.form.quote :: s.form.closing

/-- A line that names a module, or `export const X = 1;`. -/
inductive Line where
  | refers (s : Statement)
  | declares (name : String)
  deriving DecidableEq

namespace Line

def body : Line → List Char
  | .refers s => s.body
  | .declares x => "export const ".toList ++ x.toList ++ " = 1;".toList

@[simp] theorem body_refers (s : Statement) : (refers s).body = s.body := rfl

@[simp] theorem body_declares (x : String) :
    (declares x).body = "export const ".toList ++ x.toList ++ " = 1;".toList := rfl

def text (l : Line) : List Char := l.body ++ ['\n']

def name? : Line → Option String
  | .refers s => s.form.name?
  | .declares x => some x

def statement? : Line → Option Statement
  | .refers s => some s
  | .declares _ => none

end Line

def programText (lines : List Line) : List Char := lines.flatMap Line.text

/-! ### Well-formed lines -/

def isSpecifierChar (c : Char) : Bool := isWord c || ['@', '~', '.', '/', '-'].contains c

def IsSpecifier (s : String) : Prop := ∀ c ∈ s.toList, isSpecifierChar c = true

def IsIdentifier (x : String) : Prop :=
  (∃ c ∈ x.toList.head?, Lexical.isIdentStart c = true) ∧ ∀ c ∈ x.toList, Lexical.isIdentPart c = true

structure Line.Valid (l : Line) : Prop where
  specifier : ∀ s ∈ l.statement?, IsSpecifier s.specifier
  name : ∀ x ∈ l.name?, IsIdentifier x

instance (s : String) :
    Decidable (IsSpecifier s) :=
  inferInstanceAs (Decidable (∀ c ∈ s.toList, isSpecifierChar c = true))

instance (x : String) : Decidable (IsIdentifier x) := inferInstanceAs (Decidable
  ((∃ c ∈ x.toList.head?, Lexical.isIdentStart c = true) ∧
    ∀ c ∈ x.toList, Lexical.isIdentPart c = true))

instance (l : Line) : Decidable l.Valid :=
  decidable_of_iff ((∀ s ∈ l.statement?, IsSpecifier s.specifier) ∧ ∀ x ∈ l.name?, IsIdentifier x)
    ⟨fun both => ⟨both.1, both.2⟩, fun valid => ⟨valid.specifier, valid.name⟩⟩

def IsPlainName (x : String) : Prop :=
  x.toList.head? = some 'x' ∧ ∀ c ∈ x.toList, (c.isLower || c.isDigit) = true

structure Line.Plain (l : Line) : Prop where
  specifier : ∀ s ∈ l.statement?, IsSpecifier s.specifier
  name : ∀ x ∈ l.name?, IsPlainName x

instance (x : String) : Decidable (IsPlainName x) := inferInstanceAs (Decidable
  (x.toList.head? = some 'x' ∧ ∀ c ∈ x.toList, (c.isLower || c.isDigit) = true))

instance (l : Line) : Decidable l.Plain :=
  decidable_of_iff ((∀ s ∈ l.statement?, IsSpecifier s.specifier) ∧ ∀ x ∈ l.name?, IsPlainName x)
    ⟨fun both => ⟨both.1, both.2⟩, fun plain => ⟨plain.specifier, plain.name⟩⟩

theorem plain_small {c : Char} (plain : (c.isLower || c.isDigit) = true) : c.toNat < 128 := by
  have known : (decide (c.val ≥ 'a'.val) && decide (c.val ≤ 'z'.val) ||
    decide (c.val ≥ '0'.val) && decide (c.val ≤ '9'.val)) = true := plain
  simp only [Bool.or_eq_true, Bool.and_eq_true, decide_eq_true_eq, UInt32.le_iff_toNat_le] at known
  rcases known with lower | digit
  · exact Nat.lt_of_le_of_lt lower.2 (by decide)
  · exact Nat.lt_of_le_of_lt digit.2 (by decide)

/-! ### What a program says -/

/-- Where the specifier of a statement stands that starts at a byte offset. -/
def Statement.span (pos : Nat) (s : Statement) : Span :=
  let start := pos + byteLength s.form.opening + 1
  ⟨start, start + byteLength s.specifier.toList⟩

def Statement.reference (path : Path) (pos line : Nat) (s : Statement) : Reference :=
  { source := path, specifier := s.specifier, kind := s.form.kind, span := s.span pos, line,
    computed := false }

/-- The reference of a line, if it has one of a form that `keep` selects. -/
def Line.references (keep : Form → Bool) (path : Path) (pos line : Nat) (l : Line) : List Reference :=
  ((l.statement?.filter (keep ·.form)).map (·.reference path pos line)).toList

def programReferences (keep : Form → Bool) (path : Path) (pos line : Nat) : List Line → List Reference
  | [] => []
  | l :: rest =>
    l.references keep path pos line ++ programReferences keep path (pos + byteLength l.text)
      (line + 1) rest

def Line.exports (e : ExportSet) : Line → ExportSet
  | .declares x => e.addName x
  | .refers ⟨.star, _⟩ => { e with reexportsAll := true }
  | .refers _ => e

/-- What reading a program should give. -/
def programExtraction (path : Path) (lines : List Line) : Extraction where
  path
  references := programReferences (fun _ => true) path 0 1 lines
  exports := lines.foldl Line.exports {}
  unparsable := 0

end Relocation
