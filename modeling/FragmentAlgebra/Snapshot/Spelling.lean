import FragmentAlgebra.Snapshot.Instant

/-! # Spellings of an instant

Two grammars that do not say how a text is read. A `LocalTime` is a date, a time of day and the
offset from UTC at which they are shown; `LocalTime.Names` is the moment that it names.

`Instant.Spells` is RFC 3339: four digits of a year and two of every other part, `T` and `Z` in
either case or a blank between the date and the time of day, any number of digits behind the second,
of which the first nine count.

`Instant.LooselySpells` is the relaxed form of it:

* blanks in front of every part, save the mark behind the date and the point behind the second;
* fewer digits where zeros are left out, and more of them in a year with a sign;
* an offset whose hours and minutes have no colon between them or several, with a longer minus sign,
  or the name `UTC`.
-/

namespace FragmentAlgebra

/-! ## Numerals -/

/-- Some digits that make `n` in decimal, zeros in front allowed. -/
structure Numeral (n : Nat) (digits : List Char) : Prop where
  nonempty : digits ≠ []
  isDigit : ∀ c ∈ digits, c.isDigit = true
  value : Nat.ofDigitChars 10 digits 0 = n

/-- A numeral of `width` digits. -/
structure FixedNumeral (width n : Nat) (digits : List Char) : Prop extends Numeral n digits where
  length : digits.length = width

/-- A numeral of at most `limit` digits. -/
structure ShortNumeral (limit n : Nat) (digits : List Char) : Prop extends Numeral n digits where
  length_le : digits.length ≤ limit

/-! ## Local times -/

/-- What a clock and a calendar show. -/
structure LocalTime where
  date : Date
  hour : Nat
  minute : Nat
  second : Nat
  nanosecond : Nat
  /-- The minutes by which the clock is ahead of UTC. -/
  offset : Int

namespace LocalTime

open Instant

/-! ## RFC 3339 -/

/-- Nanoseconds as digits behind a point; none without a point. -/
inductive FractionText : Nat → List Char → Prop
  | none : FractionText 0 []
  | digits {n : Nat} {digits : List Char} (isDigit : ∀ c ∈ digits, c.isDigit = true)
      (counted : Numeral n (digits.take 9)) :
      FractionText (n * 10 ^ (9 - digits.length)) ('.' :: digits)

/-- An offset as a letter or as signed hours and minutes. -/
inductive OffsetText : Int → List Char → Prop
  | utc {letter : Char} (mem : letter ∈ ['Z', 'z']) : OffsetText 0 [letter]
  | ahead {hours minutes : Nat} {hh mm : List Char} (hour : FixedNumeral 2 hours hh)
      (minute : FixedNumeral 2 minutes mm) (hours_le : hours ≤ 23) (minutes_le : minutes ≤ 59) :
      OffsetText (60 * hours + minutes) ('+' :: (hh ++ ':' :: mm))
  | behind {hours minutes : Nat} {hh mm : List Char} (hour : FixedNumeral 2 hours hh)
      (minute : FixedNumeral 2 minutes mm) (hours_le : hours ≤ 23) (minutes_le : minutes ≤ 59) :
      OffsetText (-(60 * hours + minutes)) ('-' :: (hh ++ ':' :: mm))

/-- The fields in their order: `2024-02-29T23:59:60.5+01:00`. -/
inductive Text (t : LocalTime) : List Char → Prop
  | fields {yyyy mo dd hh mi ss fraction offset : List Char} {mark : Char}
      (year_nonneg : 0 ≤ t.date.year) (year : FixedNumeral 4 t.date.year.toNat yyyy)
      (month : FixedNumeral 2 t.date.month mo) (day : FixedNumeral 2 t.date.day dd)
      (between : mark ∈ ['T', 't', ' ']) (hour : FixedNumeral 2 t.hour hh)
      (minute : FixedNumeral 2 t.minute mi) (second : FixedNumeral 2 t.second ss)
      (nanosecond : FractionText t.nanosecond fraction) (ahead : OffsetText t.offset offset) :
      Text t (yyyy ++ '-' :: (mo ++ '-' :: (dd ++ mark :: (hh ++ ':' :: (mi ++ ':' :: (ss ++
        (fraction ++ offset)))))))

/-! ## The relaxed form -/

/-- Nothing but blanks, or nothing at all. -/
def Blanks (text : List Char) : Prop := ∀ c ∈ text, isBlank c = true

/-- A part with any number of blanks in front of it. -/
inductive BehindBlanks (Part : List Char → Prop) : List Char → Prop
  | blanks {gap text : List Char} (blank : Blanks gap) (part : Part text) :
      BehindBlanks Part (gap ++ text)

/-- A year of up to four digits, or with a sign and any number of them. -/
inductive LooseYear : Int → List Char → Prop
  | plain {n : Nat} {digits : List Char} (numeral : ShortNumeral 4 n digits) : LooseYear n digits
  | plus {n : Nat} {digits : List Char} (numeral : Numeral n digits) : LooseYear n ('+' :: digits)
  | minus {n : Nat} {digits : List Char} (numeral : Numeral n digits) :
      LooseYear (-n) ('-' :: digits)

/-- Hours and minutes, two digits each, with colons and blanks between them. -/
inductive HoursMinutes : Int → List Char → Prop
  | fields {hours minutes : Nat} {hh gap mm : List Char} (hour : FixedNumeral 2 hours hh)
      (separators : ∀ c ∈ gap, isSeparator c = true) (minute : FixedNumeral 2 minutes mm)
      (hours_le : hours ≤ 23) (minutes_le : minutes ≤ 59) :
      HoursMinutes (60 * hours + minutes) (hh ++ (gap ++ mm))

/-- The name of UTC, in letters of either case. -/
inductive UtcName : List Char → Prop
  | letter {z : Char} (mem : z ∈ ['Z', 'z']) : UtcName [z]
  | letters {u t c : Char} (first : u ∈ ['U', 'u']) (second : t ∈ ['T', 't'])
      (third : c ∈ ['C', 'c']) : UtcName [u, t, c]

/-- An offset as a name of UTC or as hours and minutes behind a sign. -/
inductive LooseOffset : Int → List Char → Prop
  | utc {text : List Char} (name : UtcName text) : LooseOffset 0 text
  | ahead {offset : Int} {text : List Char} (behindSign : HoursMinutes offset text) :
      LooseOffset offset ('+' :: text)
  | behind {offset : Int} {text : List Char} {sign : Char} (mem : sign ∈ ['-', minusSign])
      (behindSign : HoursMinutes offset text) : LooseOffset (-offset) (sign :: text)

/-- The parts in their order, each behind some blanks: ` 2024- 2-29T23 :59:60.5 UTC `. -/
inductive LooseText (t : LocalTime) : List Char → Prop
  | fields {yyyy hyphen mo hyphen' dd hh colon mi colon' ss fraction offset gap : List Char}
      {mark : Char} (year : BehindBlanks (LooseYear t.date.year) yyyy)
      (year_end : BehindBlanks (· = ['-']) hyphen)
      (month : BehindBlanks (ShortNumeral 2 t.date.month) mo)
      (month_end : BehindBlanks (· = ['-']) hyphen')
      (day : BehindBlanks (ShortNumeral 2 t.date.day) dd) (between : mark ∈ ['T', 't', ' '])
      (hour : BehindBlanks (ShortNumeral 2 t.hour) hh) (hour_end : BehindBlanks (· = [':']) colon)
      (minute : BehindBlanks (ShortNumeral 2 t.minute) mi)
      (minute_end : BehindBlanks (· = [':']) colon')
      (second : BehindBlanks (ShortNumeral 2 t.second) ss)
      (nanosecond : FractionText t.nanosecond fraction)
      (ahead : BehindBlanks (LooseOffset t.offset) offset) (blank : Blanks gap) :
      LooseText t (yyyy ++ (hyphen ++ (mo ++ (hyphen' ++ (dd ++ mark :: (hh ++ (colon ++ (mi ++
        (colon' ++ (ss ++ (fraction ++ (offset ++ gap))))))))))))

/-! ## The moment -/

/-- The day and the minute of `i`, which may be on the day before or the day after the local one. -/
inductive SameMinute (t : LocalTime) (i : Instant) : Prop
  | same (date : i.date = t.date)
      (minutes : (60 * t.hour + t.minute : Int) - t.offset = 60 * i.hour + i.minute)
  | before (date : i.date = t.date.previous)
      (minutes : (60 * t.hour + t.minute : Int) - t.offset = 60 * i.hour + i.minute - 1440)
  | after (date : i.date = t.date.next)
      (minutes : (60 * t.hour + t.minute : Int) - t.offset = 60 * i.hour + i.minute + 1440)

/-- The local time exists and is `i` in UTC. -/
structure Names (t : LocalTime) (i : Instant) : Prop where
  exists_date : t.date.Exists
  hour_lt : t.hour < 24
  minute_lt : t.minute < 60
  minute : t.SameMinute i
  second : i.second = t.second
  nanosecond : i.nanosecond = t.nanosecond

end LocalTime

namespace Instant

/-- The RFC 3339 text of a local time that names `i`. -/
def Spells (i : Instant) (text : List Char) : Prop := ∃ t : LocalTime, t.Text text ∧ t.Names i

/-- A text in the relaxed form of a local time that names `i`, both in a year within reach. -/
def LooselySpells (i : Instant) (text : List Char) : Prop :=
  ∃ t : LocalTime, t.LooseText text ∧ yearInReach t.date.year = true ∧
    yearInReach i.date.year = true ∧ t.Names i

end Instant

end FragmentAlgebra
