/-!
# Sizes in KiB

A byte count is taken to the nearest double, divided by 1024 and written with one decimal; a half
goes to the even neighbour both times.
-/

namespace Relocation.Decimal

/-- `n / d` rounded to the nearest integer, a half to the even one. -/
def roundHalfEven (n d : Nat) : Nat :=
  let q := n / d
  let r := n % d
  if 2 * r < d then q
  else if d < 2 * r then q + 1
  else if q % 2 = 0 then q else q + 1

/-- The closest integer with at most 53 significant bits. -/
def nearestDouble (n : Nat) : Nat :=
  if n < Nat.pow 2 53 then n
  else
    let unit := Nat.pow 2 (Nat.log2 n - 52)
    roundHalfEven n unit * unit

def kibibytes (bytes : Nat) : String :=
  let tenths := roundHalfEven (nearestDouble bytes * 10) 1024
  toString (tenths / 10) ++ "." ++ toString (tenths % 10)

end Relocation.Decimal
