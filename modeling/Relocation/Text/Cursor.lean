import Relocation.Text.Utf8

/-!
# Cursors

A place in a text: the characters still to come, the character just before, and the byte offset.
-/

namespace Relocation.Text

structure Cursor where
  prev : Option Char
  rest : List Char
  pos : Nat
  deriving DecidableEq, Repr

namespace Cursor

def ofList (text : List Char) : Cursor := { prev := none, rest := text, pos := 0 }

def next? (c : Cursor) : Option Char := c.rest.head?

/-- One character on; a cursor at the end stays. -/
def step (c : Cursor) : Cursor :=
  match c.rest with
  | [] => c
  | x :: rest => { prev := some x, rest, pos := c.pos + x.utf8Size }

def skip (c : Cursor) : Nat → Cursor
  | 0 => c
  | n + 1 => c.step.skip n

/-- The cursor past `word`, if `word` comes next. -/
def take? (c : Cursor) : List Char → Option Cursor
  | [] => some c
  | x :: word => if c.next? = some x then c.step.take? word else none

/-- Cursors after 0, 1, 2, … characters of a class, as long as they last. -/
def extents (p : Char → Bool) (prev : Option Char) (pos : Nat) : List Char → List Cursor
  | [] => [{ prev, rest := [], pos }]
  | x :: rest =>
    { prev, rest := x :: rest, pos } ::
      if p x then extents p (some x) (pos + x.utf8Size) rest else []

/-- The cursor past the longest run of a class. -/
def dropWhile (p : Char → Bool) (c : Cursor) : Cursor := go c.prev c.pos c.rest
where
  go (prev : Option Char) (pos : Nat) : List Char → Cursor
    | [] => { prev, rest := [], pos }
    | x :: rest =>
      if p x then go (some x) (pos + x.utf8Size) rest else { prev, rest := x :: rest, pos }

/-- The first characters of a run that together take `n` bytes. -/
def takeBytes : Nat → List Char → List Char
  | _, [] => []
  | n, x :: rest => if n < x.utf8Size then [] else x :: takeBytes (n - x.utf8Size) rest

/-- The characters between `c` and a later cursor of the same text. -/
def upTo (c d : Cursor) : List Char := takeBytes (d.pos - c.pos) c.rest

theorem takeBytes_append (a b : List Char) : takeBytes (byteLength a) (a ++ b) = a := by
  induction a with
  | nil =>
    cases b with
    | nil => rfl
    | cons x b => simp [takeBytes, Char.utf8Size_pos]
  | cons x a ih => simp [takeBytes, Nat.not_lt.mpr (Nat.le_add_right _ _), ih]

end Cursor

structure Piece where
  start : Cursor
  stop : Cursor
  deriving DecidableEq, Repr

def Piece.text (p : Piece) : List Char := p.start.upTo p.stop

end Relocation.Text
