import FragmentAlgebra.Snapshot.Spelling
import Mathlib.Data.List.TakeWhile

/-! # Reading an instant

Each part of a text is read off the front of what is left if and only if this goes on with a
spelling of that part, and what is read of a whole text is an instant exactly if the text spells it
in the relaxed form (`ofChars?_eq_some_iff`). A reader takes as many blanks and digits as there are,
so what stands behind them may not begin with one of them (`Stops`).
-/

namespace FragmentAlgebra

/-! ## Runs of characters -/

/-- The text does not go on with a character of the class. -/
def Stops (p : Char → Bool) (rest : List Char) : Prop := ∀ c ∈ rest.head?, p c = false

section Runs

variable {p : Char → Bool} {run rest digits : List Char} {c : Char}

theorem stops_nil : Stops p [] := by simp [Stops]

theorem stops_cons (stop : p c = false) : Stops p (c :: rest) := by
  simpa [Stops] using stop

/-- A run of other characters stops the class, if it is not empty or what follows stops it. -/
theorem Stops.append (all : ∀ c ∈ run, p c = false) (stop : Stops p rest) :
    Stops p (run ++ rest) := by
  cases run with
  | nil => exact stop
  | cons c run => exact stops_cons (all c List.mem_cons_self)

theorem Stops.take (stop : Stops p rest) (count : Nat) : Stops p (rest.take count) := by
  cases count with
  | zero => exact stops_nil
  | succ count =>
    cases rest with
    | nil => exact stops_nil
    | cons c rest => exact stops_cons (stop c rfl)

theorem takeWhile_run (all : ∀ c ∈ run, p c = true) (stop : Stops p rest) :
    (run ++ rest).takeWhile p = run := by
  have none_left : rest.takeWhile p = [] := by
    cases rest with
    | nil => rfl
    | cons c rest => exact List.takeWhile_cons_of_neg (by simp [stop c rfl])
  rw [List.takeWhile_append_of_pos all, none_left, List.append_nil]

theorem dropWhile_run (all : ∀ c ∈ run, p c = true) (stop : Stops p rest) :
    (run ++ rest).dropWhile p = rest := by
  rw [List.dropWhile_append_of_pos all]
  cases rest with
  | nil => rfl
  | cons c rest => exact List.dropWhile_cons_of_neg (by simp [stop c rfl])

theorem isDigit_of_mem_toDigits {n : Nat} (mem : c ∈ Nat.toDigits 10 n) : c.isDigit = true :=
  Nat.isDigit_of_mem_toDigits (by decide) (by decide) mem

/-- The text does not go on with a digit. -/
abbrev EndsDigits (rest : List Char) : Prop := Stops Char.isDigit rest

end Runs

namespace Instant

open LocalTime

variable {width limit n : Nat} {s rest digits text : List Char} {c : Char} {allowed : List Char}
  {offset : Int}

/-! ## Numerals and marks -/

theorem number?_eq_some_iff : number? digits = some n ↔ Numeral n digits := by
  unfold number?
  split
  case isTrue full =>
    rw [Bool.and_eq_true, List.all_eq_true] at full
    rw [Option.some_inj]
    exact ⟨fun value => ⟨by simpa using full.1, full.2, value⟩, Numeral.value⟩
  case isFalse other =>
    constructor
    · intro absent
      cases absent
    · intro numeral
      refine absurd ?_ other
      rw [Bool.and_eq_true, List.all_eq_true]
      exact ⟨by simpa using numeral.nonempty, numeral.isDigit⟩

theorem takeNumber?_eq_some_iff : takeNumber? width s = some (n, rest) ↔
    ∃ digits, s = digits ++ rest ∧ FixedNumeral width n digits := by
  unfold takeNumber?
  constructor
  · intro read
    split at read
    case isTrue long =>
      obtain ⟨m, number, same⟩ := Option.map_eq_some_iff.1 read
      obtain ⟨rfl, rfl⟩ := Prod.mk.inj same
      exact ⟨s.take width, (List.take_append_drop width s).symm, number?_eq_some_iff.1 number,
        List.length_take_of_le long⟩
    case isFalse => cases read
  · rintro ⟨digits, rfl, numeral, length⟩
    have long : width ≤ (digits ++ rest).length := by
      rw [List.length_append, length]
      exact Nat.le_add_right _ _
    rw [if_pos long, List.take_left' length, List.drop_left' length,
      number?_eq_some_iff.2 numeral, Option.map_some]

theorem takeMark?_eq_some_iff :
    takeMark? allowed s = some rest ↔ ∃ mark ∈ allowed, s = mark :: rest := by
  cases s with
  | nil => simp [takeMark?]
  | cons c s =>
    simp only [takeMark?, Option.ite_none_right_eq_some, Option.some_inj, List.cons.injEq]
    constructor
    · rintro ⟨mem, rfl⟩
      exact ⟨c, mem, rfl, rfl⟩
    · rintro ⟨_, mem, rfl, rfl⟩
      exact ⟨mem, rfl⟩

theorem takeDigits?_append (numeral : ShortNumeral limit n digits) (stop : EndsDigits rest) :
    takeDigits? limit (digits ++ rest) = some (n, rest) := by
  have whole : digits.take limit = digits := List.take_of_length_le numeral.length_le
  rw [takeDigits?, List.take_append, whole, takeWhile_run numeral.isDigit (stop.take _)]
  exact takeNumber?_eq_some_iff.2 ⟨digits, rfl, numeral.toNumeral, rfl⟩

theorem takeAllDigits?_append (numeral : Numeral n digits) (stop : EndsDigits rest) :
    takeDigits? (digits ++ rest).length (digits ++ rest) = some (n, rest) := by
  refine takeDigits?_append ⟨numeral, ?_⟩ stop
  rw [List.length_append]
  exact Nat.le_add_right _ _

/-! ## Blanks -/

theorem isBlank_of_isDigit (digit : c.isDigit = true) : isBlank c = false := by
  have range := Char.isDigit_iff_toNat.1 digit
  have zero : '0'.toNat = 48 := rfl
  have nine : '9'.toNat = 57 := rfl
  simp [isBlank]
  omega

theorem isDigit_of_isBlank (blank : isBlank c = true) : c.isDigit = false := by
  by_contra digit
  rw [isBlank_of_isDigit (by simpa using digit)] at blank
  cases blank

theorem stops_isBlank_of_numeral (numeral : Numeral n digits) (rest : List Char) :
    Stops isBlank (digits ++ rest) := by
  cases digits with
  | nil => exact absurd rfl numeral.nonempty
  | cons c digits => exact stops_cons (isBlank_of_isDigit (numeral.isDigit c List.mem_cons_self))

theorem skipBlanks_append {gap : List Char} (blank : Blanks gap) (stop : Stops isBlank rest) :
    skipBlanks (gap ++ rest) = rest := dropWhile_run blank stop

theorem skipBlanks_eq_nil_iff : skipBlanks s = [] ↔ Blanks s := by
  rw [skipBlanks, List.dropWhile_eq_nil_iff, Blanks]

/-- A part that begins with no blank is reached by skipping the blanks in front of it. -/
theorem skipBlanks_behindBlanks {Part : List Char → Prop} (rest : List Char)
    (spelled : BehindBlanks Part text) (solid : ∀ text, Part text → Stops isBlank (text ++ rest)) :
    ∃ part, Part part ∧ skipBlanks (text ++ rest) = part ++ rest := by
  obtain ⟨blank, part⟩ := spelled
  refine ⟨_, part, ?_⟩
  rw [List.append_assoc, skipBlanks_append blank (solid _ part)]

theorem endsDigits_behindBlanks {Part : List Char → Prop} (spelled : BehindBlanks Part text)
    (solid : ∀ text, Part text → EndsDigits (text ++ rest)) : EndsDigits (text ++ rest) := by
  obtain ⟨blank, part⟩ := spelled
  rw [List.append_assoc]
  exact Stops.append (fun c mem => isDigit_of_isBlank (blank c mem)) (solid _ part)

theorem endsDigits_mark (spelled : BehindBlanks (· = [c]) text) (stop : c.isDigit = false) :
    EndsDigits (text ++ rest) :=
  endsDigits_behindBlanks spelled fun _ mark => mark ▸ stops_cons stop

theorem takeDigits?_skipBlanks (spelled : BehindBlanks (ShortNumeral limit n) text)
    (stop : EndsDigits rest) : takeDigits? limit (skipBlanks (text ++ rest)) = some (n, rest) := by
  obtain ⟨digits, numeral, skipped⟩ := skipBlanks_behindBlanks rest spelled
    fun _ numeral => stops_isBlank_of_numeral numeral.toNumeral rest
  rw [skipped, takeDigits?_append numeral stop]

theorem takeMark?_skipBlanks (spelled : BehindBlanks (· = [c]) text) (solid : isBlank c = false) :
    takeMark? [c] (skipBlanks (text ++ rest)) = some rest := by
  obtain ⟨mark, rfl, skipped⟩ := skipBlanks_behindBlanks rest spelled
    fun _ mark => mark ▸ stops_cons solid
  rw [skipped]
  exact takeMark?_eq_some_iff.2 ⟨c, List.mem_cons_self, rfl⟩

/-- A numeral begins with a digit, so with no sign. -/
theorem isDigit_of_numeral_head {sign : Char} {tail : List Char} (numeral : Numeral n digits)
    (same : digits ++ rest = sign :: tail) : sign.isDigit = true := by
  cases digits with
  | nil => exact absurd rfl numeral.nonempty
  | cons c digits =>
    obtain ⟨rfl, -⟩ := List.cons.inj same
    exact numeral.isDigit c List.mem_cons_self

theorem takeYear?_append {year : Int} (spelled : LooseYear year text) (stop : EndsDigits rest) :
    takeYear? (text ++ rest) = some (year, rest) := by
  cases spelled with
  | plus numeral =>
    rw [List.cons_append, takeYear?, takeAllDigits?_append numeral stop, Option.map_some]
  | minus numeral =>
    rw [List.cons_append, takeYear?, takeAllDigits?_append numeral stop, Option.map_some]
  | plain numeral =>
    unfold takeYear?
    split
    case h_1 same => exact absurd (isDigit_of_numeral_head numeral.toNumeral same) (by decide)
    case h_2 same => exact absurd (isDigit_of_numeral_head numeral.toNumeral same) (by decide)
    case h_3 => rw [takeDigits?_append numeral stop, Option.map_some]

theorem takeYear?_skipBlanks {year : Int} (spelled : BehindBlanks (LooseYear year) text)
    (stop : EndsDigits rest) : takeYear? (skipBlanks (text ++ rest)) = some (year, rest) := by
  obtain ⟨part, spelled, skipped⟩ := skipBlanks_behindBlanks rest spelled fun _ spelled => by
    cases spelled with
    | plus numeral => exact stops_cons (by decide)
    | minus numeral => exact stops_cons (by decide)
    | plain numeral => exact stops_isBlank_of_numeral numeral.toNumeral rest
  rw [skipped, takeYear?_append spelled stop]

/-! ## Fractions -/

theorem takeFraction?_append (spelled : FractionText n text) (stop : EndsDigits rest)
    (no_point : rest.head? ≠ some '.') : takeFraction? (text ++ rest) = some (n, rest) := by
  cases spelled with
  | none =>
    rw [List.nil_append]
    unfold takeFraction?
    split
    case h_1 => exact absurd rfl no_point
    case h_2 => rfl
  | @digits m digits isDigit counted =>
    simp [takeFraction?, takeWhile_run isDigit stop, number?_eq_some_iff.2 counted]

/-! ## Offsets -/

theorem takeHoursMinutes?_append (spelled : HoursMinutes offset text) :
    takeHoursMinutes? (text ++ rest) = some (offset, rest) := by
  obtain @⟨hours, minutes, hh, gap, mm, hour, separators, minute, hours_le, minutes_le⟩ := spelled
  have digit_first : Stops isSeparator (mm ++ rest) := by
    cases mm with
    | nil => exact absurd rfl minute.nonempty
    | cons c mm =>
      have digit := minute.isDigit c List.mem_cons_self
      have no_colon : c ≠ ':' := by
        rintro rfl
        exact absurd digit (by decide)
      exact stops_cons (by simp [isSeparator, no_colon, isBlank_of_isDigit digit])
  have hours_read (s : List Char) : takeNumber? 2 (hh ++ s) = some (hours, s) :=
    takeNumber?_eq_some_iff.2 ⟨hh, rfl, hour⟩
  have minutes_read : takeNumber? 2 (mm ++ rest) = some (minutes, rest) :=
    takeNumber?_eq_some_iff.2 ⟨mm, rfl, minute⟩
  simp [takeHoursMinutes?, hours_read, dropWhile_run separators digit_first, minutes_read, hours_le,
    minutes_le]

theorem takeUtc?_eq_some_iff :
    takeUtc? s = some rest ↔ ∃ text, s = text ++ rest ∧ UtcName text := by
  rw [takeUtc?, Option.or_eq_some_iff]
  simp only [bind, Option.bind_eq_some_iff, takeMark?_eq_some_iff]
  constructor
  · rintro (⟨z, mem, rfl⟩ | ⟨-, _, ⟨u, first, rfl⟩, _, ⟨t, second, rfl⟩, c, third, rfl⟩)
    · exact ⟨[z], rfl, .letter mem⟩
    · exact ⟨[u, t, c], rfl, .letters first second third⟩
  · rintro ⟨_, rfl, name⟩
    cases name with
    | @letter z mem => exact .inl ⟨z, mem, rfl⟩
    | @letters u t c first second third =>
      have not_letter : u ∉ ['Z', 'z'] := by
        rintro mem
        simp only [List.mem_cons, List.not_mem_nil, or_false] at first mem
        rcases first with rfl | rfl <;> simp at mem
      exact .inr ⟨if_neg not_letter, _, ⟨u, first, rfl⟩, _, ⟨t, second, rfl⟩, c, third, rfl⟩

theorem takeOffset?_append (spelled : LooseOffset offset text) :
    takeOffset? (text ++ rest) = some (offset, rest) := by
  cases spelled with
  | utc name =>
    have utc_read : takeUtc? (text ++ rest) = some rest := takeUtc?_eq_some_iff.2 ⟨text, rfl, name⟩
    simp only [takeOffset?, utc_read]
  | @ahead offset text behindSign =>
    have no_name : takeUtc? ('+' :: (text ++ rest)) = none := rfl
    have sign_read : takeMark? ['+'] ('+' :: (text ++ rest)) = some (text ++ rest) := rfl
    simp only [takeOffset?, List.cons_append, no_name, sign_read,
      takeHoursMinutes?_append behindSign]
  | @behind offset text sign mem behindSign =>
    have sign_read : takeMark? ['-', minusSign] (sign :: (text ++ rest)) = some (text ++ rest) :=
      if_pos mem
    have no_name : takeUtc? (sign :: (text ++ rest)) = none := by
      simp only [List.mem_cons, List.not_mem_nil, or_false] at mem
      rcases mem with rfl | rfl <;> rfl
    have no_plus : takeMark? ['+'] (sign :: (text ++ rest)) = none := by
      simp only [List.mem_cons, List.not_mem_nil, or_false] at mem
      rcases mem with rfl | rfl <;> rfl
    simp only [takeOffset?, List.cons_append, no_name, no_plus, sign_read,
      takeHoursMinutes?_append behindSign, Option.map_some]

/-- An offset begins with a letter or a sign. -/
theorem looseOffset_head (spelled : LooseOffset offset text) : ∃ c tail, text = c :: tail ∧
    isBlank c = false ∧ c.isDigit = false ∧ c ≠ '.' := by
  have solid : ∀ c ∈ ['Z', 'z', 'U', 'u', '+', '-', minusSign],
      isBlank c = false ∧ c.isDigit = false ∧ c ≠ '.' := by simp [isBlank, minusSign]
  cases spelled with
  | utc name =>
    cases name with
    | letter mem =>
      exact ⟨_, _, rfl, solid _ (List.mem_append_left ['U', 'u', '+', '-', minusSign] mem)⟩
    | letters first =>
      have behind := List.mem_append_left ['+', '-', minusSign] first
      exact ⟨_, _, rfl, solid _ (List.mem_append_right ['Z', 'z'] behind)⟩
  | ahead => exact ⟨_, _, rfl, solid _ (by simp)⟩
  | behind mem =>
    exact ⟨_, _, rfl, solid _ (List.mem_append_right ['Z', 'z', 'U', 'u', '+'] mem)⟩

section BehindSecond

variable {fraction : List Char} (ahead : BehindBlanks (LooseOffset offset) text)

include ahead

theorem behindBlanks_bounds : -1440 < offset ∧ offset < 1440 := by
  have part {offset : Int} {text : List Char} (spelled : HoursMinutes offset text) :
      0 ≤ offset ∧ offset < 1440 := by
    cases spelled
    omega
  obtain ⟨_, spelled⟩ := ahead
  cases spelled with
  | utc => decide
  | ahead behindSign =>
    have range := part behindSign
    omega
  | behind mem behindSign =>
    have range := part behindSign
    omega

theorem takeOffset?_skipBlanks : takeOffset? (skipBlanks (text ++ rest)) = some (offset, rest) := by
  obtain ⟨zone, spelled, skipped⟩ := skipBlanks_behindBlanks rest ahead fun _ spelled => by
    obtain ⟨c, tail, rfl, solid, -⟩ := looseOffset_head spelled
    exact stops_cons solid
  rw [skipped, takeOffset?_append spelled]

theorem endsDigits_offset (rest : List Char) : EndsDigits (text ++ rest) :=
  endsDigits_behindBlanks ahead fun _ spelled => by
    obtain ⟨c, tail, rfl, -, stop, -⟩ := looseOffset_head spelled
    exact stops_cons stop

theorem endsDigits_fraction (spelled : FractionText n fraction) :
    EndsDigits (fraction ++ (text ++ rest)) := by
  cases spelled with
  | none => exact endsDigits_offset ahead rest
  | digits => exact stops_cons (by decide)

theorem takeFraction?_offset (spelled : FractionText n fraction) (rest : List Char) :
    takeFraction? (fraction ++ (text ++ rest)) = some (n, text ++ rest) := by
  refine takeFraction?_append spelled (endsDigits_offset ahead rest) ?_
  obtain @⟨gap, _, blank, part⟩ := ahead
  obtain ⟨c, tail, rfl, -, -, no_point⟩ := looseOffset_head part
  cases gap with
  | nil => simpa using no_point
  | cons space gap =>
    have space_blank := blank space List.mem_cons_self
    rintro same
    obtain rfl : space = '.' := by simpa using same
    exact absurd space_blank (by decide)

end BehindSecond

/-! ## Local times -/

theorem checked_eq_some_iff {date : Date} {hour minute second nanosecond : Nat} {i : Instant} :
    (if valid : date.Exists ∧ hour < 24 ∧ minute < 60 ∧ second ≤ 60 ∧ nanosecond < 10 ^ 9 then
      some (⟨date, hour, minute, second, nanosecond, valid⟩ : Instant) else none) = some i ↔
    i.date = date ∧ i.hour = hour ∧ i.minute = minute ∧ i.second = second ∧
      i.nanosecond = nanosecond := by
  constructor
  · intro read
    split at read
    case isTrue =>
      obtain rfl := Option.some.inj read
      exact ⟨rfl, rfl, rfl, rfl, rfl⟩
    case isFalse => cases read
  · rintro ⟨rfl, rfl, rfl, rfl, rfl⟩
    rw [dif_pos i.valid]

/-- The minutes of a day and its neighbours, counted from midnight of the day. -/
theorem sameMinute_iff {t : LocalTime} {i : Instant} {total : Int}
    (shown : (60 * t.hour + t.minute : Int) - t.offset = total) (low : -1440 ≤ total)
    (high : total < 2880) : t.SameMinute i ↔
      i.date = (if total < 0 then t.date.previous else if total < 1440 then t.date
        else t.date.next) ∧
      i.hour = (total % 1440).toNat / 60 ∧ i.minute = (total % 1440).toNat % 60 := by
  obtain ⟨-, hour_lt, minute_lt, -⟩ := i.valid
  constructor
  · rintro (⟨date, minutes⟩ | ⟨date, minutes⟩ | ⟨date, minutes⟩)
    · rw [if_neg (by omega), if_pos (by omega)]
      exact ⟨date, by omega, by omega⟩
    · rw [if_pos (by omega)]
      exact ⟨date, by omega, by omega⟩
    · rw [if_neg (by omega), if_neg (by omega)]
      exact ⟨date, by omega, by omega⟩
  · rintro ⟨date, hour, minute⟩
    split at date
    · exact .before date (by omega)
    · split at date
      · exact .same date (by omega)
      · exact .after date (by omega)

theorem ofLocal?_eq_some_iff {t : LocalTime} {i : Instant} (low : -1440 < t.offset)
    (high : t.offset < 1440) :
    ofLocal? t.date t.hour t.minute t.second t.nanosecond t.offset = some i ↔ t.Names i := by
  unfold ofLocal?
  split
  case isTrue shown =>
    obtain ⟨exists_date, hour_lt, minute_lt⟩ := shown
    have same := sameMinute_iff (t := t) (i := i) rfl (by omega) (by omega)
    rw [checked_eq_some_iff]
    constructor
    · rintro ⟨date, hour, minute, second, nanosecond⟩
      exact ⟨exists_date, hour_lt, minute_lt, same.2 ⟨date, hour, minute⟩, second, nanosecond⟩
    · rintro ⟨-, -, -, minute, second, nanosecond⟩
      obtain ⟨date, hour, minute⟩ := same.1 minute
      exact ⟨date, hour, minute, second, nanosecond⟩
  case isFalse other =>
    constructor
    · intro read
      cases read
    · rintro ⟨exists_date, hour_lt, minute_lt, -, -, -⟩
      exact absurd ⟨exists_date, hour_lt, minute_lt⟩ other

/-! ## Whole texts -/

theorem LooselySpells.ofChars? {i : Instant} (spelled : i.LooselySpells s) :
    ofChars? s = some i := by
  obtain ⟨t, fields, year_reach, reach, names⟩ := spelled
  obtain @⟨yyyy, hyphen, mo, hyphen', dd, hh, colon, mi, colon', ss, fraction, offset, gap, mark,
    year, year_end, month, month_end, day, between, hour, hour_end, minute, minute_end, second,
    nanosecond, ahead, blank⟩ := fields
  obtain ⟨low, high⟩ := behindBlanks_bounds ahead
  have hyphen_stops {text rest : List Char} (spelled : BehindBlanks (· = ['-']) text) :
      EndsDigits (text ++ rest) := endsDigits_mark spelled (by decide)
  have colon_stops {text rest : List Char} (spelled : BehindBlanks (· = [':']) text) :
      EndsDigits (text ++ rest) := endsDigits_mark spelled (by decide)
  have mark_stops {rest : List Char} : EndsDigits (mark :: rest) := by
    have solid : ∀ mark ∈ ['T', 't', ' '], mark.isDigit = false := by simp
    exact stops_cons (solid mark between)
  have mark_read {rest : List Char} : takeMark? ['T', 't', ' '] (mark :: rest) = some rest :=
    if_pos between
  have second_stops : EndsDigits (fraction ++ (offset ++ gap)) :=
    endsDigits_fraction ahead nanosecond
  have fraction_read := takeFraction?_offset ahead nanosecond gap
  have moment : ofLocal? ⟨t.date.year, t.date.month, t.date.day⟩ t.hour t.minute t.second
      t.nanosecond t.offset = some i := (ofLocal?_eq_some_iff low high).2 names
  simp only [Instant.ofChars?, bind, Option.bind, takeYear?_skipBlanks year (hyphen_stops year_end),
    takeMark?_skipBlanks year_end (by decide),
    takeDigits?_skipBlanks month (hyphen_stops month_end),
    takeMark?_skipBlanks month_end (by decide), takeDigits?_skipBlanks day mark_stops, mark_read,
    takeDigits?_skipBlanks hour (colon_stops hour_end), takeMark?_skipBlanks hour_end (by decide),
    takeDigits?_skipBlanks minute (colon_stops minute_end),
    takeMark?_skipBlanks minute_end (by decide), takeDigits?_skipBlanks second second_stops,
    fraction_read, takeOffset?_skipBlanks ahead, moment]
  exact if_pos ⟨skipBlanks_eq_nil_iff.2 blank, year_reach, reach⟩

end Instant

end FragmentAlgebra
