import Relocation.Extraction.Grammar
import Relocation.Extraction.Walk

/-!
# Extraction backends
-/

namespace Relocation

inductive Backend where
  | grammar
  | lexical
  deriving DecidableEq, Repr

namespace Backend

def name : Backend → String
  | .grammar => "syntax"
  | .lexical => "pattern"

def ofName? : String → Option Backend
  | "syntax" => some .grammar
  | "pattern" => some .lexical
  | _ => none

def extract : Backend → Path → String → Extraction
  | .grammar => Grammar.parser.extract
  | .lexical => Lexical.extract

end Backend

end Relocation
