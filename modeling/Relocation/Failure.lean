import Relocation.Disk.Basic
import Relocation.Rules

/-!
# Failures
-/

namespace Relocation

inductive Failure where
  | notFound (path : Path)
  | config (path : Path)
  | pattern (fault : Glob.Invalid)
  | plan (fault : PlanFault)
  | rules (fault : RuleFault)
  | move (source target : Path) (message : String)
  /-- The edits of a module could not be written. -/
  | edit (path : Path) (message : String)
  | verification (reason output : String)
  /-- Some paths could not be restored from a snapshot. -/
  | corruption (paths : List Path) (snapshot : Option Path) (guidance : String)
  /-- A step was asked for in the wrong state. -/
  | transition (state action : String)
  | cancelled
  | io (fault : IoFault)
  /-- A snapshot file is malformed. -/
  | encoding
  deriving DecidableEq, Repr

namespace Failure

/-- Characters of a text in quotes, with quotes, backslashes and control characters escaped. -/
def quotedChar (c : Char) : List Char :=
  if c = '\x22' then ['\\', '\x22']
  else if c = '\\' then ['\\', '\\']
  else if c = '\n' then ['\\', 'n']
  else if c = '\r' then ['\\', 'r']
  else if c = '\t' then ['\\', 't']
  else if c.toNat = 0 then ['\\', '0']
  else if c.toNat < 32 ∨ c.toNat = 127 then
    '\\' :: 'u' :: '\x7b' :: Nat.toDigits 16 c.toNat ++ ['\x7d']
  else [c]

def quoted (s : String) : String :=
  String.ofList ('\x22' :: s.toList.flatMap quotedChar ++ ['\x22'])

def quotedPaths (paths : List Path) : String :=
  "[" ++ ", ".intercalate (paths.map fun p => quoted p.text) ++ "]"

def message : Failure → String
  | .notFound path => "Root not found: " ++ path.text
  | .config path => "Invalid config " ++ path.text ++ ": malformed settings"
  | .pattern fault => "Invalid pattern '" ++ fault.pattern ++ "': " ++ fault.message
  | .plan fault => fault.message
  | .rules fault => fault.message
  | .move source target message =>
    "Move failed: " ++ source.text ++ " -> " ++ target.text ++ ": " ++ message
  | .edit path message => "Partial rewrite: " ++ path.text ++ ": " ++ message
  | .verification reason _ => "Verification failed: " ++ reason
  | .corruption paths _ guidance =>
    "Snapshot corruption: could not restore " ++ quotedPaths paths ++ ". " ++ guidance
  | .transition state action => "Cannot " ++ action ++ " while " ++ state
  | .cancelled => "Migration cancelled"
  | .io fault => "IO error: " ++ fault.message
  | .encoding => "Snapshot encoding error: malformed snapshot"

/-- The failure arises before anything is written. -/
def isEarly : Failure → Bool
  | .notFound _ | .config _ | .pattern _ | .plan _ | .rules _ => true
  | _ => false

end Failure

end Relocation
