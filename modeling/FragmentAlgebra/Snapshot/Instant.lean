import FragmentAlgebra.Powers

/-! # Instants

An `Instant` is a moment in UTC with nanoseconds, given by its calendar date and its time of day. A
leap second is the second 60 of its minute.

* `Instant.chars` writes RFC 3339 text in UTC, with 0, 3, 6 or 9 digits behind the second, the
  fewest that lose nothing. Years outside 0 to 9999 carry a sign.
* `Instant.ofChars?` reads a relaxed form of RFC 3339: blanks may stand between the parts, leading
  zeros may be left out, and the offset may come without its colon. Digits behind the ninth of a
  fraction are dropped.
-/

namespace FragmentAlgebra

/-! ## The calendar -/

/-- Every fourth year has a leap day, of the full centuries only every fourth. -/
def isLeapYear (year : Int) : Bool := year % 4 = 0 && (year % 100 ≠ 0 || year % 400 = 0)

/-- The number of days of a month. -/
def daysInMonth (year : Int) (month : Nat) : Nat :=
  match month with
  | 2 => if isLeapYear year then 29 else 28
  | 4 | 6 | 9 | 11 => 30
  | _ => 31

/-- A day, whether or not the calendar has it. -/
structure Date where
  year : Int
  month : Nat
  day : Nat
deriving DecidableEq

namespace Date

/-- The calendar has this day. -/
def Exists (date : Date) : Prop :=
  1 ≤ date.month ∧ date.month ≤ 12 ∧ 1 ≤ date.day ∧ date.day ≤ daysInMonth date.year date.month

instance (date : Date) : Decidable date.Exists := by
  unfold Exists; infer_instance

/-- The day after. -/
def next (date : Date) : Date :=
  if date.day < daysInMonth date.year date.month then { date with day := date.day + 1 }
  else if date.month < 12 then ⟨date.year, date.month + 1, 1⟩
  else ⟨date.year + 1, 1, 1⟩

/-- The day before. -/
def previous (date : Date) : Date :=
  if 1 < date.day then { date with day := date.day - 1 }
  else if 1 < date.month then
    ⟨date.year, date.month - 1, daysInMonth date.year (date.month - 1)⟩
  else ⟨date.year - 1, 12, 31⟩

end Date

/-- A moment in UTC. The second 60 of a minute is a leap second. -/
structure Instant where
  date : Date
  hour : Nat
  minute : Nat
  second : Nat
  nanosecond : Nat
  valid : date.Exists ∧ hour < 24 ∧ minute < 60 ∧ second ≤ 60 ∧ nanosecond < 10 ^ 9
deriving DecidableEq

namespace Instant

/-- The start of 1970. -/
def epoch : Instant := ⟨⟨1970, 1, 1⟩, 0, 0, 0, 0, by decide⟩

/-! ## Writing -/

/-- `n` in decimal, filled up with zeros to `width` digits. -/
def padded (width n : Nat) : List Char := (Nat.toDigits 10 n).leftpad width '0'

/-- A year: four digits, with a sign outside 0 to 9999. -/
def yearChars (year : Int) : List Char :=
  if year < 0 then '-' :: padded 4 year.natAbs
  else if year ≤ 9999 then padded 4 year.natAbs
  else '+' :: padded 4 year.natAbs

/-- The digits behind the second, in groups of three. -/
def fractionChars (nanosecond : Nat) : List Char :=
  if nanosecond = 0 then []
  else if nanosecond % 1000000 = 0 then '.' :: padded 3 (nanosecond / 1000000)
  else if nanosecond % 1000 = 0 then '.' :: padded 6 (nanosecond / 1000)
  else '.' :: padded 9 nanosecond

/-- The year is written in four digits, without a sign. -/
def FourDigitYear (i : Instant) : Prop := 0 ≤ i.date.year ∧ i.date.year ≤ 9999

instance (i : Instant) : Decidable i.FourDigitYear := by
  unfold FourDigitYear; infer_instance

/-- The text that an instant is written as: `2024-02-29T23:59:60.5Z`. -/
def chars (i : Instant) : List Char :=
  yearChars i.date.year ++ '-' :: padded 2 i.date.month ++ '-' :: padded 2 i.date.day ++
    'T' :: padded 2 i.hour ++ ':' :: padded 2 i.minute ++ ':' :: padded 2 i.second ++
    fractionChars i.nanosecond ++ ['Z']

/-! ## Reading -/

/-- White space of any script. -/
def isBlank (c : Char) : Bool :=
  let code := c.toNat
  (9 ≤ code && code ≤ 13) || code = 0x20 || code = 0x85 || code = 0xA0 || code = 0x1680 ||
    (0x2000 ≤ code && code ≤ 0x200A) || code = 0x2028 || code = 0x2029 || code = 0x202F ||
    code = 0x205F || code = 0x3000

def skipBlanks (s : List Char) : List Char := s.dropWhile isBlank

/-- The number spelled by at least one digit, if all are digits. -/
def number? (digits : List Char) : Option Nat :=
  if !digits.isEmpty && digits.all Char.isDigit then some (Nat.ofDigitChars 10 digits 0) else none

/-- The number spelled by the first `width` characters, and the rest. -/
def takeNumber? (width : Nat) (s : List Char) : Option (Nat × List Char) :=
  if width ≤ s.length then (number? (s.take width)).map fun n => (n, s.drop width) else none

/-- The number spelled by the digits at the front, of which `limit` are taken at most. -/
def takeDigits? (limit : Nat) (s : List Char) : Option (Nat × List Char) :=
  takeNumber? ((s.take limit).takeWhile Char.isDigit).length s

/-- Pass over one of the allowed characters. -/
def takeMark? (allowed : List Char) : List Char → Option (List Char)
  | [] => none
  | c :: s => if c ∈ allowed then some s else none

/-- A year of four digits at most, or a sign and a year. -/
def takeYear? : List Char → Option (Int × List Char)
  | '-' :: s => (takeDigits? s.length s).map fun (n, s) => (-(n : Int), s)
  | '+' :: s => (takeDigits? s.length s).map fun (n, s) => ((n : Int), s)
  | s => (takeDigits? 4 s).map fun (n, s) => ((n : Int), s)

/-- The nanoseconds behind a point; none without a point. -/
def takeFraction? : List Char → Option (Nat × List Char)
  | '.' :: s =>
    let digits := s.takeWhile Char.isDigit
    (number? (digits.take 9)).map fun n => (n * 10 ^ (9 - digits.length), s.drop digits.length)
  | s => some (0, s)

/-- The sign of negative numbers that is longer than a hyphen. -/
def minusSign : Char := Char.ofNat 0x2212

/-- What may stand between the hours and the minutes of an offset. -/
def isSeparator (c : Char) : Bool := c = ':' || isBlank c

/-- The hours and minutes behind the sign of an offset, in minutes. Less than a day is allowed. -/
def takeHoursMinutes? (s : List Char) : Option (Int × List Char) := do
  let (hours, s) ← takeNumber? 2 s
  let (minutes, s) ← takeNumber? 2 (s.dropWhile isSeparator)
  if 23 < hours || 59 < minutes then none else some (60 * hours + minutes, s)

/-- Pass over the name of UTC, one letter or three, in either case. -/
def takeUtc? (s : List Char) : Option (List Char) :=
  (takeMark? ['Z', 'z'] s).or do
    let s ← takeMark? ['U', 'u'] s
    let s ← takeMark? ['T', 't'] s
    takeMark? ['C', 'c'] s

/-- The minutes by which a clock is ahead of UTC, and the rest. -/
def takeOffset? (s : List Char) : Option (Int × List Char) :=
  match takeUtc? s, takeMark? ['+'] s, takeMark? ['-', minusSign] s with
  | some s, _, _ => some (0, s)
  | none, some s, _ => takeHoursMinutes? s
  | none, none, some s => (takeHoursMinutes? s).map fun (offset, s) => (-offset, s)
  | none, none, none => none

/-- The moment at which a clock shows the date and the time, `offset` minutes ahead of UTC. -/
def ofLocal? (date : Date) (hour minute second nanosecond : Nat) (offset : Int) :
    Option Instant :=
  if date.Exists ∧ hour < 24 ∧ minute < 60 then
    let total : Int := 60 * hour + minute - offset
    let utc := total % 1440
    let date := if total < 0 then date.previous else if total < 1440 then date else date.next
    let hour := utc.toNat / 60
    let minute := utc.toNat % 60
    if valid : date.Exists ∧ hour < 24 ∧ minute < 60 ∧ second ≤ 60 ∧ nanosecond < 10 ^ 9 then
      some ⟨date, hour, minute, second, nanosecond, valid⟩
    else none
  else none

/-- The years that a text may name, and those of the moments that are read. -/
def yearInReach (year : Int) : Bool := -262143 ≤ year && year ≤ 262142

/-- The moment that a text names, if it is in the relaxed form. -/
def ofChars? (s : List Char) : Option Instant := do
  let (year, s) ← takeYear? (skipBlanks s)
  let s ← takeMark? ['-'] (skipBlanks s)
  let (month, s) ← takeDigits? 2 (skipBlanks s)
  let s ← takeMark? ['-'] (skipBlanks s)
  let (day, s) ← takeDigits? 2 (skipBlanks s)
  let s ← takeMark? ['T', 't', ' '] s
  let (hour, s) ← takeDigits? 2 (skipBlanks s)
  let s ← takeMark? [':'] (skipBlanks s)
  let (minute, s) ← takeDigits? 2 (skipBlanks s)
  let s ← takeMark? [':'] (skipBlanks s)
  let (second, s) ← takeDigits? 2 (skipBlanks s)
  let (nanosecond, s) ← takeFraction? s
  let (offset, s) ← takeOffset? (skipBlanks s)
  let i ← ofLocal? ⟨year, month, day⟩ hour minute second nanosecond offset
  if skipBlanks s = [] ∧ yearInReach year ∧ yearInReach i.date.year then some i else none

end Instant

end FragmentAlgebra
