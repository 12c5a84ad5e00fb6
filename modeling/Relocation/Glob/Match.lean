import Relocation.Glob.Basic
import Relocation.Text.Utf8

/-!
# Matching globs

Globs match byte by byte: `?` and a class take one byte, a star any run of bytes without a slash.
`Token.rests` lists what may be left of a text behind a token; a text matches when nothing can be
left of it.
-/

namespace Relocation.Glob

open Text

def slashByte : UInt8 := 47

/-- All texts left behind a run of bytes of a class, the shortest run first. -/
def runRests (p : UInt8 → Bool) : Bytes → List Bytes
  | [] => [[]]
  | b :: rest => (b :: rest) :: if p b then runRests p rest else []

/-- What follows each slash. -/
def slashRests : Bytes → List Bytes
  | [] => []
  | b :: rest => if b = slashByte then rest :: slashRests rest else slashRests rest

/-- Byte ranges of a range of characters: the bytes of both ends, and the bytes between the last
one of the lower end and the first one of the upper end. -/
def byteRanges (low high : Char) : List (UInt8 × UInt8) :=
  let lows := String.utf8EncodeChar low
  if low = high then lows.map fun b => (b, b)
  else
    let highs := String.utf8EncodeChar high
    lows.dropLast.map (fun b => (b, b)) ++
      [(lows.getLast?.getD 0, highs.head?.getD 0)] ++ highs.tail.map fun b => (b, b)

def inClass (ranges : List (Char × Char)) (b : UInt8) : Bool :=
  ranges.any fun (low, high) => (byteRanges low high).any fun (lo, hi) => lo ≤ b && b ≤ hi

/-- Texts without repetition. All are ends of one text, so their lengths tell them apart. -/
def distinct : List Bytes → List Bytes
  | [] => []
  | s :: rest => s :: (distinct rest).filter fun t => t.length != s.length

mutual

/-- The token stands for the empty text only: a group all of whose branches do. -/
def isVoid : Token → Bool
  | .oneOf branches => allVoid branches
  | _ => false

def voidBranch : List Token → Bool
  | [] => true
  | t :: rest => isVoid t && voidBranch rest

def allVoid : List (List Token) → Bool
  | [] => true
  | b :: rest => voidBranch b && allVoid rest

end

mutual

def rests : Token → Bytes → List Bytes
  | .literal c, s =>
    let bytes := String.utf8EncodeChar c
    if bytes.isPrefixOf s then [s.drop bytes.length] else []
  | .one, s =>
    match s with
    | [] => []
    | b :: rest => if b = slashByte then [] else [rest]
  | .star, s => runRests (· != slashByte) s
  | .deepFront, s => s :: slashRests s
  | .deepBack, s =>
    match s with
    | [] => []
    | b :: rest => if b = slashByte then runRests (fun _ => true) rest else []
  | .deepBetween, s =>
    match s with
    | [] => []
    | b :: rest => if b = slashByte then rest :: slashRests rest else []
  | .charClass negated ranges, s =>
    match s with
    | [] => []
    | b :: rest => if inClass ranges b != negated then [rest] else []
  | .oneOf branches, s => if allVoid branches then [s] else branchRests branches s

/-- What is left behind any branch; branches that stand for the empty text are left out. -/
def branchRests : List (List Token) → Bytes → List Bytes
  | [], _ => []
  | b :: rest, s => (if voidBranch b then [] else restsAll b [s]) ++ branchRests rest s

def restsAll : List Token → List Bytes → List Bytes
  | [], ss => ss
  | t :: rest, ss => restsAll rest (distinct (ss.flatMap (rests t)))

end

/-- `**` alone matches everything. -/
def matchesBytes (g : Glob) (s : Bytes) : Bool :=
  match g.tokens with
  | [.deepFront] => true
  | tokens => (restsAll tokens [s]).any List.isEmpty

def matchesText (g : Glob) (s : String) : Bool := g.matchesBytes (encode s)

end Relocation.Glob
