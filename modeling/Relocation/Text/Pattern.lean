import Relocation.Text.Class
import Relocation.Text.Cursor

/-!
# Text patterns

Patterns with ordered choice. `hits` lists every way in which a pattern matches at a cursor, the
preferred way first: a greedy run prefers to be long, a reluctant one to be short, and the left
side of a choice comes before the right. `scan` walks over a text and takes the preferred hit at
the leftmost place, then goes on behind it.
-/

namespace Relocation.Text

inductive Pattern where
  /-- One character of a class. -/
  | one (p : Char → Bool)
  /-- A run of a class, the longer the better. -/
  | greedy (p : Char → Bool)
  /-- A run of a class, the shorter the better. -/
  | reluctant (p : Char → Bool)
  | word (cs : List Char)
  | seq (a b : Pattern)
  | alt (a b : Pattern)
  | group (a : Pattern)
  | empty
  /-- The very start of the text. -/
  | textStart
  /-- The start of a line. -/
  | lineStart
  /-- A place with a word character on exactly one side. -/
  | edge

/-- A match that ends at `stop`, with the groups that took part, in order. -/
structure Hit where
  stop : Cursor
  groups : List Piece

namespace Pattern

/-- The pattern or nothing, better the pattern. -/
def opt (a : Pattern) : Pattern := .alt a .empty

def greedy1 (p : Char → Bool) : Pattern := .seq (.one p) (.greedy p)

def lit (s : String) : Pattern := .word s.toList

def all : List Pattern → Pattern
  | [] => .empty
  | [a] => a
  | a :: rest => .seq a (all rest)

def any : List Pattern → Pattern
  | [] => .one fun _ => false
  | [a] => a
  | a :: rest => .alt a (any rest)

def atEdge (c : Cursor) : Bool :=
  (c.prev.map isWord).getD false != (c.next?.map isWord).getD false

def atLineStart (c : Cursor) : Bool :=
  match c.prev with
  | none => true
  | some x => x == '\n'

def hits : Pattern → Cursor → List Hit
  | .one p, c =>
    match c.rest with
    | [] => []
    | x :: _ => if p x then [⟨c.step, []⟩] else []
  | .greedy p, c => (Cursor.extents p c.prev c.pos c.rest).reverse.map (⟨·, []⟩)
  | .reluctant p, c => (Cursor.extents p c.prev c.pos c.rest).map (⟨·, []⟩)
  | .word cs, c => (c.take? cs).toList.map (⟨·, []⟩)
  | .seq a b, c =>
    (hits a c).flatMap fun h => (hits b h.stop).map fun k => ⟨k.stop, h.groups ++ k.groups⟩
  | .alt a b, c => hits a c ++ hits b c
  | .group a, c => (hits a c).map fun h => ⟨h.stop, ⟨c, h.stop⟩ :: h.groups⟩
  | .empty, c => [⟨c, []⟩]
  | .textStart, c => if c.prev.isNone then [⟨c, []⟩] else []
  | .lineStart, c => if atLineStart c then [⟨c, []⟩] else []
  | .edge, c => if atEdge c then [⟨c, []⟩] else []

structure Found where
  start : Cursor
  stop : Cursor
  groups : List Piece

/-- The hits of `p` from `c` on, left to right and without overlap. Each round moves on by at
least one character, so `fuel` of one more than the characters left is enough. -/
def scanFrom (p : Pattern) : Nat → Cursor → List Found
  | 0, _ => []
  | fuel + 1, c =>
    match (hits p c).head? with
    | some h =>
      let next := if h.stop.pos = c.pos then c.step else h.stop
      ⟨c, h.stop, h.groups⟩ :: (if c.rest.isEmpty then [] else scanFrom p fuel next)
    | none => if c.rest.isEmpty then [] else scanFrom p fuel c.step

def scan (p : Pattern) (text : List Char) : List Found :=
  scanFrom p (text.length + 1) (Cursor.ofList text)

end Pattern

end Relocation.Text
