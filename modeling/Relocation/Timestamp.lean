import Relocation.Text.Class

/-!
# Timestamps

A moment in universal time by its civil date and time of day, down to nanoseconds; there is none outside
the calendar. `toText` writes it
with as few groups of three fraction digits as it needs; `parse?` reads that form and looser ones: blanks
before numbers and separators, numbers without leading zeros, signed years, other offsets.
-/

namespace Relocation

structure Date where
  year : Int
  month : Nat
  day : Nat
  deriving DecidableEq, Repr

namespace Date

def isLeap (year : Int) : Bool := year % 4 = 0 && (year % 100 != 0 || year % 400 = 0)

def daysIn (year : Int) : Nat → Nat
  | 2 => if isLeap year then 29 else 28
  | 4 | 6 | 9 | 11 => 30
  | _ => 31

/-- The calendar covers these years. -/
def isCovered (year : Int) : Bool := -262143 ≤ year && year ≤ 262142

def isValid (d : Date) : Bool :=
  isCovered d.year && 1 ≤ d.month && d.month ≤ 12 && 1 ≤ d.day && d.day ≤ daysIn d.year d.month

def next (d : Date) : Date :=
  if d.day < daysIn d.year d.month then { d with day := d.day + 1 }
  else if d.month < 12 then ⟨d.year, d.month + 1, 1⟩
  else ⟨d.year + 1, 1, 1⟩

def previous (d : Date) : Date :=
  if 1 < d.day then { d with day := d.day - 1 }
  else if 1 < d.month then ⟨d.year, d.month - 1, daysIn d.year (d.month - 1)⟩
  else ⟨d.year - 1, 12, 31⟩

/-- The date a number of days after 1 January 1970. Years are counted from March, so that a leap day
comes last, in cycles of 400 years. -/
def ofDays (days : Int) : Date :=
  let z := days + 719468
  let cycle := z.fdiv 146097
  let inCycle := (z - cycle * 146097).toNat
  let year := (inCycle - inCycle / 1460 + inCycle / 36524 - inCycle / 146096) / 365
  let inYear := inCycle - (365 * year + year / 4 - year / 100)
  let shifted := (5 * inYear + 2) / 153
  let month := if shifted < 10 then shifted + 3 else shifted - 9
  { year := year + cycle * 400 + (if month ≤ 2 then 1 else 0), month
    day := inYear - (153 * shifted + 2) / 5 + 1 }

end Date

/-- A leap second is 60. -/
def Timestamp.inRange (date : Date) (hour minute second nano : Nat) : Bool :=
  date.isValid && hour ≤ 23 && minute ≤ 59 && second ≤ 60 && nano < Nat.pow 10 9

structure Timestamp where
  date : Date
  hour : Nat
  minute : Nat
  second : Nat
  nano : Nat
  valid : Timestamp.inRange date hour minute second nano = true := by decide
  deriving DecidableEq, Repr

namespace Timestamp

def epoch : Timestamp := { date := ⟨1970, 1, 1⟩, hour := 0, minute := 0, second := 0, nano := 0 }

def make? (date : Date) (hour minute second nano : Nat) : Option Timestamp :=
  if valid : inRange date hour minute second nano = true then
    some { date, hour, minute, second, nano, valid }
  else none

/-- The moment a number of seconds after the epoch. -/
def ofSeconds? (seconds : Int) (nano : Nat) : Option Timestamp :=
  let day := seconds.fdiv 86400
  let inDay := (seconds - day * 86400).toNat
  make? (Date.ofDays day) (inDay / 3600) (inDay / 60 % 60) (inDay % 60) nano

def padded (width n : Nat) : List Char :=
  let ds := Nat.toDigits 10 n
  List.replicate (width - ds.length) '0' ++ ds

/-- Four digits, or a sign and at least four for years outside 0 to 9999. -/
def yearText (y : Int) : List Char :=
  if 0 ≤ y ∧ y ≤ 9999 then padded 4 y.toNat
  else (if y < 0 then '-' else '+') :: padded 4 y.natAbs

/-- No digits, or three, six or nine. -/
def fractionText (nano : Nat) : List Char :=
  if nano = 0 then []
  else if nano % 1000000 = 0 then '.' :: padded 3 (nano / 1000000)
  else if nano % 1000 = 0 then '.' :: padded 6 (nano / 1000)
  else '.' :: padded 9 nano

def toText (t : Timestamp) : String :=
  String.ofList (yearText t.date.year ++ '-' :: padded 2 t.date.month ++ '-' :: padded 2 t.date.day ++
    'T' :: padded 2 t.hour ++ ':' :: padded 2 t.minute ++ ':' :: padded 2 t.second ++
    fractionText t.nano ++ ['Z'])

def digitsValue (ds : List Char) : Nat := ds.foldl (fun n d => n * 10 + (d.toNat - '0'.toNat)) 0

/-- Between one and `most` digits, or as many as there are. -/
def digits? (most : Option Nat) (s : List Char) : Option (Nat × List Char) :=
  let run := s.takeWhile Char.isDigit
  let ds := match most with
    | some n => run.take n
    | none => run
  if ds.isEmpty then none else some (digitsValue ds, s.drop ds.length)

/-- A number of up to two digits behind blanks. -/
def part? (s : List Char) : Option (Nat × List Char) := digits? (some 2) (Text.trimStart s)

/-- Only a signed year has more than four digits. -/
def year? (s : List Char) : Option (Int × List Char) :=
  match Text.trimStart s with
  | '-' :: rest => (digits? none rest).map fun (n, rest) => (-n, rest)
  | '+' :: rest => (digits? none rest).map fun (n, rest) => (n, rest)
  | s => (digits? (some 4) s).map fun (n, rest) => (n, rest)

/-- The rest behind blanks and `c`. -/
def mark? (c : Char) (s : List Char) : Option (List Char) :=
  match Text.trimStart s with
  | d :: rest => if c = d then some rest else none
  | [] => none

/-- Digits behind a point; those behind the ninth are dropped. -/
def fraction? (s : List Char) : Option (Nat × List Char) :=
  match s with
  | '.' :: rest =>
    let run := rest.takeWhile Char.isDigit
    if run.isEmpty then none
    else
      let ds := run.take 9
      some (digitsValue ds * Nat.pow 10 (9 - ds.length), rest.drop run.length)
  | s => some (0, s)

/-- Minutes of an offset given as hours and minutes; the hours are below 24. -/
def hoursAndMinutes? (s : List Char) : Option (Nat × List Char) :=
  let digit (c : Char) : Nat := c.toNat - '0'.toNat
  match s with
  | a :: b :: rest =>
    if a.isDigit && b.isDigit then
      match rest.dropWhile fun c => c == ':' || Text.isBlank c with
      | c :: d :: rest =>
        let hours := digit a * 10 + digit b
        if c.isDigit && d.isDigit && digit c < 6 && hours < 24 then
          some (hours * 60 + digit c * 10 + digit d, rest)
        else none
      | _ => none
    else none
  | _ => none

/-- Minutes by which local time is ahead. -/
def offset? (s : List Char) : Option (Int × List Char) :=
  match s with
  | u :: t :: c :: rest =>
    if [u, t, c].map Char.toUpper = ['U', 'T', 'C'] then some (0, rest) else go s
  | s => go s
where
  go : List Char → Option (Int × List Char)
    | 'Z' :: rest => some (0, rest)
    | 'z' :: rest => some (0, rest)
    | '+' :: rest => (hoursAndMinutes? rest).map fun (n, rest) => (n, rest)
    | '-' :: rest => (hoursAndMinutes? rest).map fun (n, rest) => (-n, rest)
    | '−' :: rest => (hoursAndMinutes? rest).map fun (n, rest) => (-n, rest)
    | _ => none

/-- The same moment given in a local time that is ahead by less than a day. -/
def ofLocal? (t : Timestamp) (ahead : Int) : Option Timestamp :=
  let minutes : Int := t.hour * 60 + t.minute - ahead
  let (date, minutes) :=
    if minutes < 0 then (t.date.previous, minutes + 24 * 60)
    else if 24 * 60 ≤ minutes then (t.date.next, minutes - 24 * 60)
    else (t.date, minutes)
  make? date (minutes.toNat / 60) (minutes.toNat % 60) t.second t.nano

def parse? (text : String) : Option Timestamp := do
  let (year, s) ← year? text.toList
  let s ← mark? '-' s
  let (month, s) ← part? s
  let s ← mark? '-' s
  let (day, s) ← part? s
  let s ← match s with
    | 'T' :: rest | 't' :: rest | ' ' :: rest => some rest
    | _ => none
  let (hour, s) ← part? s
  let s ← mark? ':' s
  let (minute, s) ← part? s
  let s ← mark? ':' s
  let (second, s) ← part? s
  let (nano, s) ← fraction? s
  let (ahead, s) ← offset? (Text.trimStart s)
  let t ← make? { year, month, day } hour minute second nano
  let utc ← t.ofLocal? ahead
  if (Text.trimStart s).isEmpty then some utc else none

end Timestamp

end Relocation
