import FragmentAlgebra.Proofs.Spellings

/-! # Instants and their texts

Every RFC 3339 spelling is one in the relaxed form (`Spells.loosely`), so the instant is read from
it. An instant is written as a numeral of fixed width for each field, with the fewest digits behind
the second that lose nothing, and if its year has four digits this is RFC 3339 at an offset of zero,
where neither the day nor the time of day moves (`spells_chars`). So the instant is read from the
text that it is written as (`ofChars?_chars`).
-/

namespace FragmentAlgebra

/-! ## Dates -/

theorem daysInMonth_le (year : Int) (month : Nat) : daysInMonth year month ≤ 31 := by
  unfold daysInMonth
  split
  · split <;> decide
  all_goals decide

theorem Date.Exists.month_lt {date : Date} (h : date.Exists) : date.month < 100 := by
  obtain ⟨_, high, _⟩ := h
  omega

theorem Date.Exists.day_lt {date : Date} (h : date.Exists) : date.day < 100 := by
  obtain ⟨_, _, _, high⟩ := h
  have le := daysInMonth_le date.year date.month
  omega

theorem Date.year_previous (date : Date) :
    date.year - 1 ≤ date.previous.year ∧ date.previous.year ≤ date.year := by
  unfold previous
  split
  · exact ⟨by dsimp only; omega, Int.le_refl _⟩
  · split
    · exact ⟨by dsimp only; omega, Int.le_refl _⟩
    · exact ⟨Int.le_refl _, by dsimp only; omega⟩

theorem Date.year_next (date : Date) :
    date.year ≤ date.next.year ∧ date.next.year ≤ date.year + 1 := by
  unfold next
  split
  · exact ⟨Int.le_refl _, by dsimp only; omega⟩
  · split
    · exact ⟨Int.le_refl _, by dsimp only; omega⟩
    · exact ⟨by dsimp only; omega, Int.le_refl _⟩

/-! ## RFC 3339 texts in the relaxed form -/

section Numerals

variable {width n : Nat} {digits : List Char}

theorem ofDigitChars_lt (all : ∀ c ∈ digits, c.isDigit = true) (start : Nat) :
    Nat.ofDigitChars 10 digits start < (start + 1) * 10 ^ digits.length := by
  induction digits generalizing start with
  | nil => simp
  | cons c digits ih =>
    rw [List.forall_mem_cons] at all
    have range := Char.isDigit_iff_toNat.1 all.1
    have zero : '0'.toNat = 48 := rfl
    have nine : '9'.toNat = 57 := rfl
    calc Nat.ofDigitChars 10 (c :: digits) start
        = Nat.ofDigitChars 10 digits (10 * start + (c.toNat - '0'.toNat)) := Nat.ofDigitChars_cons
      _ < (10 * start + (c.toNat - '0'.toNat) + 1) * 10 ^ digits.length := ih all.2 _
      _ ≤ ((start + 1) * 10) * 10 ^ digits.length := Nat.mul_le_mul_right _ (by omega)
      _ = (start + 1) * 10 ^ (c :: digits).length := by
        rw [List.length_cons, Nat.pow_succ', Nat.mul_assoc]

theorem FixedNumeral.lt (numeral : FixedNumeral width n digits) : n < 10 ^ width := by
  have lt := ofDigitChars_lt numeral.isDigit 0
  rwa [numeral.value, numeral.length, Nat.one_mul] at lt

theorem FixedNumeral.short (numeral : FixedNumeral width n digits) : ShortNumeral width n digits :=
  ⟨numeral.toNumeral, Nat.le_of_eq numeral.length⟩

end Numerals

namespace LocalTime

open Instant

theorem BehindBlanks.of {Part : List Char → Prop} {text : List Char} (part : Part text) :
    BehindBlanks Part text := by
  have no_gap : Blanks [] := by simp [Blanks]
  exact .blanks no_gap part

theorem OffsetText.loose {offset : Int} {text : List Char} (spelled : OffsetText offset text) :
    LooseOffset offset text := by
  have colon : ∀ c ∈ [':'], isSeparator c = true := by simp [isSeparator]
  cases spelled with
  | utc mem => exact .utc (.letter mem)
  | ahead hour minute hours_le minutes_le =>
    exact .ahead (.fields hour colon minute hours_le minutes_le)
  | behind hour minute hours_le minutes_le =>
    exact .behind List.mem_cons_self (.fields hour colon minute hours_le minutes_le)

theorem Text.loose {t : LocalTime} {text : List Char} (spelled : t.Text text) :
    t.LooseText text := by
  obtain @⟨yyyy, mo, dd, hh, mi, ss, fraction, offset, mark, year_nonneg, year, month, day, between,
    hour, minute, second, nanosecond, ahead⟩ := spelled
  have plain : LooseYear t.date.year yyyy := by
    rw [← Int.toNat_of_nonneg year_nonneg]
    exact .plain year.short
  have no_gap : offset = offset ++ [] := (List.append_nil offset).symm
  rw [no_gap]
  exact .fields (.of plain) (.of rfl) (.of month.short) (.of rfl) (.of day.short) between
    (.of hour.short) (.of rfl) (.of minute.short) (.of rfl) (.of second.short) nanosecond
    (.of ahead.loose) (by simp [Blanks])

/-- In UTC it is the year that the local time shows, or a year next to it. -/
theorem SameMinute.year_range {t : LocalTime} {i : Instant} (same : t.SameMinute i) :
    t.date.year - 1 ≤ i.date.year ∧ i.date.year ≤ t.date.year + 1 := by
  cases same with
  | same date =>
    rw [date]
    omega
  | before date =>
    have range := t.date.year_previous
    rw [date]
    omega
  | after date =>
    have range := t.date.year_next
    rw [date]
    omega

end LocalTime

/-- Every RFC 3339 spelling is one in the relaxed form. -/
theorem Instant.Spells.loosely {i : Instant} {text : List Char} (spelled : i.Spells text) :
    i.LooselySpells text := by
  obtain ⟨t, fields, names⟩ := spelled
  have range := names.minute.year_range
  have year_range : 0 ≤ t.date.year ∧ t.date.year < 10000 := by
    obtain ⟨nonneg, year⟩ := fields
    have lt := year.lt
    omega
  refine ⟨t, fields.loose, ?_, ?_, names⟩
  all_goals
    simp only [yearInReach, Bool.and_eq_true, decide_eq_true_eq]
    omega

namespace Instant

open LocalTime

variable {width n : Nat} {text : List Char} {c : Char} {i : Instant}

/-! ## Numerals of a fixed width -/

theorem isDigit_of_mem_padded (mem : c ∈ padded width n) : c.isDigit = true := by
  rw [padded, List.leftpad, List.mem_append] at mem
  rcases mem with zero | digit
  · rw [List.eq_of_mem_replicate zero]
    rfl
  · exact isDigit_of_mem_toDigits digit

theorem length_padded (pos : 0 < width) (lt : n < 10 ^ width) :
    (padded width n).length = width := by
  have le : (Nat.toDigits 10 n).length ≤ width := (Nat.length_toDigits_le_iff (by decide) pos).2 lt
  rw [padded, List.length_leftpad, Nat.max_eq_left le]

theorem numeral_padded (pos : 0 < width) (n : Nat) : Numeral n (padded width n) where
  nonempty := by
    refine List.ne_nil_of_length_pos ?_
    rw [padded, List.length_leftpad]
    exact Nat.lt_of_lt_of_le pos (Nat.le_max_left _ _)
  isDigit _ := isDigit_of_mem_padded
  value := by simp [padded, List.leftpad, Nat.ofDigitChars_append]

theorem fixedNumeral_padded (pos : 0 < width) (lt : n < 10 ^ width) :
    FixedNumeral width n (padded width n) :=
  ⟨numeral_padded pos n, length_padded pos lt⟩

theorem fixedNumeral_two (lt : n < 100) : FixedNumeral 2 n (padded 2 n) :=
  fixedNumeral_padded (by decide) lt

/-! ## The written text -/

theorem FourDigitYear.yearChars (h : i.FourDigitYear) :
    yearChars i.date.year = padded 4 i.date.year.toNat := by
  obtain ⟨low, high⟩ := h
  have same : i.date.year.natAbs = i.date.year.toNat := by omega
  rw [Instant.yearChars, if_neg (Int.not_lt.2 low), if_pos high, same]

theorem fractionText_padded {nanosecond : Nat} (pos : 0 < width) (short : width ≤ 9)
    (lt : n < 10 ^ width) (value : n * 10 ^ (9 - width) = nanosecond) :
    FractionText nanosecond ('.' :: padded width n) := by
  have length := length_padded pos lt
  have whole : (padded width n).take 9 = padded width n :=
    List.take_of_length_le (by rw [length]; exact short)
  have spelled : FractionText (n * 10 ^ (9 - (padded width n).length)) ('.' :: padded width n) :=
    .digits (fun _ => isDigit_of_mem_padded) (by rw [whole]; exact numeral_padded pos n)
  rwa [length, value] at spelled

theorem fractionText_fractionChars {nanosecond : Nat} (lt : nanosecond < 10 ^ 9) :
    FractionText nanosecond (fractionChars nanosecond) := by
  unfold fractionChars
  split
  case isTrue zero =>
    subst zero
    exact .none
  case isFalse =>
    split
    case isTrue millis => exact fractionText_padded (by decide) (by decide) (by omega) (by omega)
    case isFalse =>
      split
      case isTrue micros =>
        exact fractionText_padded (by decide) (by decide) (by omega) (by omega)
      case isFalse => exact fractionText_padded (by decide) (by decide) lt (by omega)

/-- The text of an instant is RFC 3339, if its year has four digits. -/
theorem spells_chars (h : i.FourDigitYear) : i.Spells i.chars := by
  obtain ⟨day, hours, minutes, seconds, nanoseconds⟩ := i.valid
  let t : LocalTime := ⟨i.date, i.hour, i.minute, i.second, i.nanosecond, 0⟩
  have same : t.SameMinute i := .same rfl (Int.sub_zero _)
  refine ⟨t, ?_, ⟨day, hours, minutes, same, rfl, rfl⟩⟩
  simp only [chars, h.yearChars, List.append_assoc, List.cons_append]
  obtain ⟨low, high⟩ := h
  have year : FixedNumeral 4 i.date.year.toNat (padded 4 i.date.year.toNat) :=
    fixedNumeral_padded (by decide) (by omega)
  have hour : FixedNumeral 2 i.hour (padded 2 i.hour) := fixedNumeral_two (by omega)
  have minute : FixedNumeral 2 i.minute (padded 2 i.minute) := fixedNumeral_two (by omega)
  have second : FixedNumeral 2 i.second (padded 2 i.second) := fixedNumeral_two (by omega)
  exact .fields low year (fixedNumeral_two day.month_lt) (fixedNumeral_two day.day_lt)
    List.mem_cons_self hour minute second (fractionText_fractionChars nanoseconds)
    (.utc List.mem_cons_self)

theorem ofChars?_chars (h : i.FourDigitYear) : ofChars? i.chars = some i :=
  (spells_chars h).loosely.ofChars?

/-! ## The length of the written text -/

theorem length_fractionChars_le {nanosecond : Nat} (lt : nanosecond < 10 ^ 9) :
    (fractionChars nanosecond).length ≤ 10 := by
  have behind_point {width n : Nat} (pos : 0 < width) (short : width ≤ 9) (lt : n < 10 ^ width) :
      ('.' :: padded width n).length ≤ 10 := by
    rw [List.length_cons, length_padded pos lt]
    exact Nat.succ_le_succ short
  unfold fractionChars
  split
  · exact Nat.zero_le _
  · split
    · exact behind_point (by decide) (by decide) (by omega)
    · split
      · exact behind_point (by decide) (by decide) (by omega)
      · exact behind_point (by decide) (by decide) lt

theorem length_chars_le {i : Instant} (h : i.FourDigitYear) : i.chars.length ≤ 30 := by
  obtain ⟨day, hours, minutes, seconds, nanoseconds⟩ := i.valid
  have year : (Instant.yearChars i.date.year).length = 4 := by
    rw [h.yearChars]
    obtain ⟨low, high⟩ := h
    exact length_padded (by decide) (by omega)
  have two {n : Nat} (lt : n < 100) : (padded 2 n).length = 2 := length_padded (by decide) lt
  have fraction := length_fractionChars_le nanoseconds
  have month := two day.month_lt
  have dayOf := two day.day_lt
  have hour := two (show i.hour < 100 by omega)
  have minute := two (show i.minute < 100 by omega)
  have second := two (show i.second < 100 by omega)
  simp only [chars, List.length_append, List.length_cons, List.length_nil]
  omega

end Instant

end FragmentAlgebra
