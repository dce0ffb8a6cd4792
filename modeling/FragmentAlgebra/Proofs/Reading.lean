import FragmentAlgebra.Json.Fields
import FragmentAlgebra.Json.Render
import FragmentAlgebra.Proofs.Instants

/-! # JSON values read back from their text

`Reads read value a` says that the reader takes `a` from the text of `value` and stops behind it,
provided that the text ends there or goes on with a comma or a closing bracket. Numbers, flags and
strings are read (`Reads.nat`, `Reads.bool`, `Reads.text`), and lists of what is read
(`Reads.list`). An object is read member by member, in the order in which they are written: `Folds`
is the chain of states through which its members lead.

A string is read back whatever characters it has, since each round of the reader undoes one escape
(`readStringFrom_escapeChar`). An integer below `2 ^ 64` has no leading zero and is read as that
integer, never as a double (`readNumber_toDigits`).
-/

namespace FragmentAlgebra

namespace Json

variable {α β σ : Type} {s rest : List Char} {c : Char}

/-! ## Between the values -/

/-- The text ends, or goes on with what stands behind a value. -/
def Delimited (rest : List Char) : Prop := ∀ c ∈ rest.head?, c ∈ [',', ']', '}']

theorem delimited_nil : Delimited [] := by simp [Delimited]

theorem delimited_cons (mem : c ∈ [',', ']', '}']) : Delimited (c :: rest) := by
  simpa [Delimited] using mem

theorem Delimited.endsDigits (stop : Delimited rest) : EndsDigits rest := by
  intro c mem
  have marks : ∀ c ∈ [',', ']', '}'], c.isDigit = false := by simp
  exact marks c (stop c mem)

theorem skipBlanks_cons (solid : isBlank c = false) : skipBlanks (c :: s) = c :: s :=
  List.dropWhile_cons_of_neg (by simp [solid])

theorem skipMark_cons (solid : isBlank c = false) : skipMark c (c :: s) = .ok s := by
  rw [skipMark, skipBlanks_cons solid]
  simp [skipWord]

theorem joinCommas_cons (text : List Char) (texts : List (List Char)) :
    joinCommas (text :: texts) = text ++ texts.flatMap (',' :: ·) := by
  induction texts generalizing text with
  | nil => simp [joinCommas]
  | cons next texts ih => simp [joinCommas, ih]

theorem itemChars_eq_map (items : List Json) : itemChars items = items.map chars := by
  induction items with
  | nil => rfl
  | cons item items ih => rw [itemChars, ih, List.map_cons]

/-- A run of texts, none of them empty, has at least one character for each. -/
theorem length_le_length_flatMap {f : α → List β} (items : List α) (some_left : ∀ a, f a ≠ []) :
    items.length ≤ (items.flatMap f).length := by
  induction items with
  | nil => exact Nat.zero_le _
  | cons a items ih =>
    have one := List.length_pos_iff.2 (some_left a)
    rw [List.flatMap_cons, List.length_append, List.length_cons]
    omega

/-! ## Strings -/

theorem readQuad_control (lt : c.toNat < 32) :
    readQuad ('0' :: '0' :: Nat.digitChar (c.toNat / 16) :: Nat.digitChar (c.toNat % 16) :: s) =
      .ok (c.toNat, s) := by
  have zero : Hexadecimal.digit? '0' = some 0 := rfl
  have high := Hexadecimal.digit?_digitChar (show c.toNat / 16 < 16 by omega)
  have low := Hexadecimal.digit?_digitChar (show c.toNat % 16 < 16 by omega)
  simp only [readQuad, zero, high, low]
  congr 2
  omega

theorem readEscape_control (lt : c.toNat < 32) :
    readEscape
        ('u' :: '0' :: '0' :: Nat.digitChar (c.toNat / 16) :: Nat.digitChar (c.toNat % 16) :: s) =
      .ok (c, s) := by
  have no_low : isLowSurrogate c.toNat = false := by
    simp [isLowSurrogate]; omega
  have no_high : isHighSurrogate c.toNat = false := by
    simp [isHighSurrogate]; omega
  simp [readEscape, readUnicode, readQuad_control lt, no_low, no_high, bind, Except.bind]

/-- One round of the reader undoes one escape. -/
theorem readStringFrom_escapeChar (fuel : Nat) (front : List Char) (c : Char) (s : List Char) :
    readStringFrom (fuel + 1) front (escapeChar c ++ s) = readStringFrom fuel (c :: front) s := by
  by_cases quote : c = '"'
  · subst quote; rfl
  by_cases backslash : c = '\\'
  · subst backslash; rfl
  by_cases printable : ' ' ≤ c
  · have no_control : ¬ c < ' ' := Char.not_lt.2 printable
    simp [escapeChar, quote, backslash, printable, readStringFrom, no_control]
  by_cases named : c ∈ ['\x08', '\x0c', '\n', '\r', '\t']
  · simp only [List.mem_cons, List.not_mem_nil, or_false] at named
    rcases named with rfl | rfl | rfl | rfl | rfl <;> rfl
  · simp only [List.mem_cons, List.not_mem_nil, or_false, not_or] at named
    have control : c.toNat < 32 := Nat.not_le.1 printable
    have escaped : escapeChar c =
        ['\\', 'u', '0', '0', Nat.digitChar (c.toNat / 16), Nat.digitChar (c.toNat % 16)] := by
      simp [escapeChar, quote, backslash, printable, named]
    simp [escaped, readStringFrom, readEscape_control control]

theorem readStringFrom_flatMap {fuel : Nat} {text : List Char} (front : List Char)
    (enough : text.length < fuel) :
    readStringFrom fuel front (text.flatMap escapeChar ++ '"' :: rest) =
      .ok (front.reverse ++ text, rest) := by
  induction text generalizing fuel front with
  | nil =>
    obtain ⟨fuel, rfl⟩ := Nat.exists_eq_add_one_of_ne_zero (Nat.ne_zero_of_lt enough)
    simp [readStringFrom]
  | cons c text ih =>
    rw [List.length_cons] at enough
    obtain ⟨fuel, rfl⟩ := Nat.exists_eq_add_one_of_ne_zero (Nat.ne_zero_of_lt enough)
    rw [List.flatMap_cons, List.append_assoc, readStringFrom_escapeChar, ih (c :: front) (by omega),
      List.reverse_cons, List.append_assoc]
    rfl

theorem escapeChar_ne_nil (c : Char) : escapeChar c ≠ [] := by
  unfold escapeChar
  repeat' split
  all_goals exact List.cons_ne_nil _ _

theorem readString_escaped (text : String) :
    readString (text.toList.flatMap escapeChar ++ '"' :: rest) = .ok (text, rest) := by
  have enough : text.toList.length <
      (text.toList.flatMap escapeChar ++ '"' :: rest).length + 1 := by
    have le := length_le_length_flatMap text.toList escapeChar_ne_nil
    rw [List.length_append]
    omega
  rw [readString, readStringFrom_flatMap [] enough]
  simp [bind, Except.bind]

theorem stringChars_append (text : String) :
    stringChars text ++ rest = '"' :: (text.toList.flatMap escapeChar ++ '"' :: rest) := by
  simp [stringChars]

/-! ## Integers -/

theorem toDigits_ne_zero_cons {n : Nat} (pos : 0 < n) : Nat.toDigits 10 n ≠ '0' :: s := by
  induction n using Nat.strongRecOn generalizing s with
  | _ n ih =>
    intro zero
    by_cases small : n < 10
    · rw [Nat.toDigits_of_lt_base small] at zero
      have none_left := (Nat.digitChar_eq_zero (n := n)).1 (List.cons.inj zero).1
      omega
    · rw [Nat.toDigits_of_base_le (by decide) (by omega)] at zero
      obtain ⟨c, t, digits⟩ :=
        List.exists_cons_of_ne_nil (Nat.toDigits_ne_nil (n := n / 10) (b := 10))
      rw [digits, List.cons_append] at zero
      obtain ⟨rfl, _⟩ := List.cons.inj zero
      exact ih (n / 10) (by omega) (by omega) digits

theorem exists_digit_cons (n : Nat) :
    ∃ c s, Nat.toDigits 10 n = c :: s ∧ c.isDigit = true := by
  obtain ⟨c, s, digits⟩ := List.exists_cons_of_ne_nil (Nat.toDigits_ne_nil (n := n) (b := 10))
  have mem : c ∈ Nat.toDigits 10 n := by
    rw [digits]
    exact List.mem_cons_self
  exact ⟨c, s, digits, isDigit_of_mem_toDigits mem⟩

theorem readDigits_toDigits (n : Nat) (stop : EndsDigits rest) :
    readDigits (Nat.toDigits 10 n ++ rest) = .ok (Nat.toDigits 10 n, rest) := by
  have all : ∀ c ∈ Nat.toDigits 10 n, c.isDigit = true := fun _ => isDigit_of_mem_toDigits
  have run := takeWhile_run all stop
  have behind := dropWhile_run all stop
  have some_left : Nat.toDigits 10 n ≠ [] := Nat.toDigits_ne_nil
  unfold readDigits
  split
  case h_1 none_left => simp at none_left
  case h_2 =>
    rw [run, behind]
    split
    case h_1 none_left => exact absurd none_left some_left
    case h_2 => rfl

/-- The digits of a number are not refused for a zero in front: of several, the first is none. -/
theorem readWhole_toDigits (n : Nat) (stop : EndsDigits rest) :
    readWhole (Nat.toDigits 10 n ++ rest) = .ok (Nat.toDigits 10 n, rest) := by
  rw [readWhole, readDigits_toDigits n stop]
  simp only [bind, Except.bind]
  split
  case h_1 second behind digits =>
    rcases Nat.eq_zero_or_pos n with rfl | pos
    · simp at digits
    · exact absurd digits (toDigits_ne_zero_cons pos)
  case h_2 => rfl

theorem readNumeral_toDigits (n : Nat) (stop : Delimited rest) :
    readNumeral (Nat.toDigits 10 n ++ rest) = .ok (⟨false, n, 0, true⟩, rest) := by
  have whole := readWhole_toDigits n stop.endsDigits
  have no_sign : ∀ s, Nat.toDigits 10 n ++ rest = '-' :: s → False := by
    intro s sign
    obtain ⟨c, t, digits, digit⟩ := exists_digit_cons n
    rw [digits, List.cons_append] at sign
    obtain ⟨rfl, _⟩ := List.cons.inj sign
    exact absurd digit (by decide)
  have no_fraction : readFraction rest = .ok (none, rest) := by
    unfold readFraction
    split
    case h_1 => exact absurd (stop '.' rfl) (by decide)
    case h_2 => rfl
  have no_exponent : readExponent rest = .ok (none, rest) := by
    unfold readExponent
    split
    case h_1 c s =>
      have no_mark : ¬ (c = 'e' ∨ c = 'E') := by
        rintro (rfl | rfl)
        · exact absurd (stop 'e' rfl) (by decide)
        · exact absurd (stop 'E' rfl) (by decide)
      simp [no_mark]
    case h_2 => rfl
  rw [readNumeral]
  case x => exact no_sign
  simp [whole, no_fraction, no_exponent, bind, Except.bind, Nat.ofDigitChars_ten_toDigits]

/-- An integer of eight bytes is read as an integer. -/
theorem readNumber_toDigits {n : Nat} (lt : n < 2 ^ 64) (stop : Delimited rest) :
    readNumber (Nat.toDigits 10 n ++ rest) = .ok (.unsigned n, rest) := by
  rw [readNumber, readNumeral_toDigits n stop]
  simp [Numeral.toNumber, lt, bind, Except.bind]

/-! ## Values -/

/-- The reader takes `a` from the text of `value`, which starts like the text of a value. -/
structure Reads (read : Reader α) (value : Json) (a : α) : Prop where
  append : ∀ rest, Delimited rest → read (value.chars ++ rest) = .ok (a, rest)
  starts : ∃ c s, value.chars = c :: s ∧ isBlank c = false ∧ c ≠ ']'

namespace Reads

theorem nat {bound n : Nat} (lt : n < bound) (word : bound ≤ 2 ^ 64) :
    Reads (readUnsigned bound) (.nat n) n := by
  have text : (Json.nat n).chars = Nat.toDigits 10 n := by simp [Json.nat, chars, Number.chars]
  obtain ⟨c, s, digits, digit⟩ := exists_digit_cons n
  have solid : isBlank c = false := by
    have blanks : ∀ c ∈ [' ', '\t', '\n', '\r'], c.isDigit = false := by simp
    rw [← Bool.not_eq_true]
    intro blank
    have listed : c ∈ [' ', '\t', '\n', '\r'] := by simpa [isBlank, or_assoc] using blank
    rw [blanks c listed] at digit
    contradiction
  constructor
  case append =>
    intro rest stop
    have number := readNumber_toDigits (Nat.lt_of_lt_of_le lt word) stop
    rw [text]
    rw [digits, List.cons_append] at number ⊢
    rw [readUnsigned, readNumberField, skipBlanks_cons solid]
    simp [digit, number, unsignedBelow?, lt, bind, Except.bind]
  case starts =>
    refine ⟨c, s, text.trans digits, solid, ?_⟩
    rintro rfl
    exact absurd digit (by decide)

theorem bool (b : Bool) : Reads readBool (.bool b) b := by
  cases b with
  | false => exact ⟨fun _ _ => rfl, 'f', _, by rw [chars], by decide, by decide⟩
  | true => exact ⟨fun _ _ => rfl, 't', _, by rw [chars], by decide, by decide⟩

theorem text {accept : List Char → Option α} {text : String} {a : α}
    (accepted : accept text.toList = some a) :
    Reads (readTextField accept) (.string text) a where
  append rest _ := by
    rw [chars, stringChars_append, readTextField, skipBlanks_cons rfl]
    simp [readString_escaped, accepted, bind, Except.bind]
  starts := ⟨'"', _, by rw [chars, stringChars, List.cons_append], by decide, by decide⟩

/-! ## Lists -/

variable {item : Reader α} {value : Json} {a : α}

theorem nextItem_first (read : Reads item value a) :
    nextItem true (value.chars ++ rest) = .ok (some (value.chars ++ rest)) := by
  obtain ⟨c, s, text, solid, no_bracket⟩ := read.starts
  rw [text, List.cons_append, nextItem, skipBlanks_cons solid]
  simp

theorem nextItem_next (read : Reads item value a) :
    nextItem false (',' :: (value.chars ++ rest)) = .ok (some (value.chars ++ rest)) := by
  obtain ⟨c, s, text, solid, no_bracket⟩ := read.starts
  rw [text, List.cons_append, nextItem, skipBlanks_cons (by decide)]
  simp [skipBlanks_cons solid, no_bracket]

theorem readItem_first (read : Reads item value a) (stop : Delimited rest) :
    readItem true item (value.chars ++ rest) = .ok (a, rest) := by
  rw [readItem, read.nextItem_first]
  exact read.append rest stop

theorem readItem_next (read : Reads item value a) (stop : Delimited rest) :
    readItem false item (',' :: (value.chars ++ rest)) = .ok (a, rest) := by
  rw [readItem, read.nextItem_next]
  exact read.append rest stop

end Reads

/-! ## Arrays -/

/-- Behind a value stand the commas of the others, and then the closing bracket. -/
theorem delimited_flatMap (f : α → List Char) (items : List α) (mem : c ∈ [',', ']', '}']) :
    Delimited (items.flatMap (fun a => ',' :: f a) ++ c :: rest) := by
  cases items with
  | nil => exact delimited_cons mem
  | cons a items => exact delimited_cons (by decide)

theorem nextItem_closing (first : Bool) : nextItem first (']' :: s) = .ok none := by
  rw [nextItem, skipBlanks_cons (by decide)]
  rfl

section Arrays

variable {item : Reader α} {encode : α → Json} {items : List α}

theorem readItemsFrom_closing (fuel : Nat) (first : Bool) (front : List α) :
    readItemsFrom item (fuel + 1) first front (']' :: rest) = .ok (front.reverse, rest) := by
  rw [readItemsFrom, nextItem_closing]
  simp [skipMark_cons (by decide : isBlank ']' = false)]

theorem readItemsFrom_flatMap {fuel : Nat} (front : List α)
    (each : ∀ a ∈ items, Reads item (encode a) a) (enough : items.length < fuel) :
    readItemsFrom item fuel false front
        (items.flatMap (fun a => ',' :: (encode a).chars) ++ ']' :: rest) =
      .ok (front.reverse ++ items, rest) := by
  induction items generalizing fuel front with
  | nil =>
    obtain ⟨fuel, rfl⟩ := Nat.exists_eq_add_one_of_ne_zero (Nat.ne_zero_of_lt enough)
    rw [List.append_nil]
    exact readItemsFrom_closing fuel false front
  | cons a items ih =>
    rw [List.length_cons] at enough
    rw [List.forall_mem_cons] at each
    obtain ⟨fuel, rfl⟩ := Nat.exists_eq_add_one_of_ne_zero (Nat.ne_zero_of_lt enough)
    have stop : Delimited (items.flatMap (fun a => ',' :: (encode a).chars) ++ ']' :: rest) :=
      delimited_flatMap _ items (by decide)
    rw [List.flatMap_cons, List.append_assoc, List.cons_append, readItemsFrom,
      each.1.nextItem_next]
    simp only [each.1.append _ stop]
    rw [ih (a :: front) each.2 (by omega), List.reverse_cons, List.append_assoc]
    rfl

theorem array_chars_append (values : List Json) :
    (array values).chars ++ rest = '[' :: (joinCommas (values.map chars) ++ ']' :: rest) := by
  simp [chars, itemChars_eq_map]

theorem readItems_joinCommas (each : ∀ a ∈ items, Reads item (encode a) a) :
    readItems item (joinCommas (items.map fun a => (encode a).chars) ++ ']' :: rest) =
      .ok (items, rest) := by
  cases items with
  | nil => exact readItemsFrom_closing _ true []
  | cons a items =>
    rw [List.forall_mem_cons] at each
    have stop : Delimited (items.flatMap (fun a => ',' :: (encode a).chars) ++ ']' :: rest) :=
      delimited_flatMap _ items (by decide)
    have enough : items.length ≤ (items.flatMap fun a => ',' :: (encode a).chars).length :=
      length_le_length_flatMap items fun _ => List.cons_ne_nil _ _
    rw [List.map_cons, joinCommas_cons, List.flatMap_map, List.append_assoc, readItems,
      readItemsFrom, each.1.nextItem_first]
    simp only [each.1.append _ stop]
    refine (readItemsFrom_flatMap [a] each.2 ?_).trans rfl
    simp only [List.length_append, List.length_cons]
    omega

theorem Reads.list (each : ∀ a ∈ items, Reads item (encode a) a) :
    Reads (readList item) (.array (items.map encode)) items where
  append rest _ := by
    rw [array_chars_append, readList, skipBlanks_cons (by decide), List.map_map]
    exact readItems_joinCommas each
  starts := ⟨'[', _, by rw [chars, List.cons_append], by decide, by decide⟩

end Arrays

/-! ## Objects -/

/-- The members, read one after another, lead from one state to another. -/
inductive Folds (step : σ → String → Reader σ) : σ → List (String × Json) → σ → Prop
  | nil (state : σ) : Folds step state [] state
  | cons {state next last : σ} {key : String} {value : Json} {members : List (String × Json)}
    (member : ∀ rest, Delimited rest →
      step state key (':' :: (value.chars ++ rest)) = .ok (next, rest))
    (others : Folds step next members last) :
    Folds step state ((key, value) :: members) last

section Objects

variable {step : σ → String → Reader σ} {state last : σ} {key : String} {value : Json}
  {members : List (String × Json)}

/-- A member whose value is read into one field. -/
theorem Folds.field {read : Reader α} {a : α} {f : Option α → σ} (value_read : Reads read value a)
    (sequence : step state key = fun s => do
      let (field, s) ← readField none read s
      .ok (f field, s))
    (others : Folds step (f (some a)) members last) :
    Folds step state ((key, value) :: members) last := by
  refine .cons (fun rest stop => ?_) others
  rw [sequence]
  simp only [readField, skipMark_cons (by decide : isBlank ':' = false), bind, Except.bind,
    value_read.append rest stop]

/-- A member behind its opening quote. -/
def memberTail (member : String × Json) : List Char :=
  member.1.toList.flatMap escapeChar ++ '"' :: ':' :: member.2.chars

theorem memberChars_eq_map (members : List (String × Json)) :
    memberChars members = members.map fun member => '"' :: memberTail member := by
  induction members with
  | nil => rfl
  | cons member members ih => simp [memberChars, ih, memberTail, stringChars]

theorem nextKey_closing (first : Bool) : nextKey first ('}' :: s) = .ok none := by
  rw [nextKey, skipBlanks_cons (by decide)]
  rfl

theorem nextKey_first : nextKey true ('"' :: s) = .ok (some s) := by
  rw [nextKey, skipBlanks_cons (by decide)]
  rfl

theorem nextKey_next : nextKey false (',' :: '"' :: s) = .ok (some s) := by
  rw [nextKey, skipBlanks_cons (by decide)]
  simp [skipBlanks_cons (by decide : isBlank '"' = false)]

theorem foldMembersFrom_closing (fuel : Nat) (first : Bool) :
    foldMembersFrom step (fuel + 1) first state ('}' :: rest) = .ok (state, rest) := by
  rw [foldMembersFrom, nextKey_closing]
  simp [skipMark_cons (by decide : isBlank '}' = false)]

theorem readString_memberTail (key : String) (value : Json) :
    readString (memberTail (key, value) ++ rest) = .ok (key, ':' :: (value.chars ++ rest)) := by
  rw [memberTail, List.append_assoc]
  exact readString_escaped key

theorem foldMembersFrom_of_folds {fuel : Nat} (folds : Folds step state members last)
    (enough : members.length < fuel) :
    foldMembersFrom step fuel false state
        (members.flatMap (fun member => ',' :: '"' :: memberTail member) ++ '}' :: rest) =
      .ok (last, rest) := by
  induction folds generalizing fuel with
  | nil state =>
    obtain ⟨fuel, rfl⟩ := Nat.exists_eq_add_one_of_ne_zero (Nat.ne_zero_of_lt enough)
    exact foldMembersFrom_closing fuel false
  | @cons state next last key value members member others ih =>
    rw [List.length_cons] at enough
    obtain ⟨fuel, rfl⟩ := Nat.exists_eq_add_one_of_ne_zero (Nat.ne_zero_of_lt enough)
    have stop : Delimited
        (members.flatMap (fun member => ',' :: '"' :: memberTail member) ++ '}' :: rest) :=
      delimited_flatMap _ members (by decide)
    rw [List.flatMap_cons, List.append_assoc, List.cons_append, List.cons_append, foldMembersFrom,
      nextKey_next]
    simp only [readString_memberTail, member _ stop]
    exact ih (by omega)

theorem foldMembers_of_folds (folds : Folds step state members last) :
    foldMembers step state (joinCommas (memberChars members) ++ '}' :: rest) =
      .ok (last, rest) := by
  rw [memberChars_eq_map]
  cases folds with
  | nil state => exact foldMembersFrom_closing _ true
  | @cons state next last key value members member others =>
    have stop : Delimited
        (members.flatMap (fun member => ',' :: '"' :: memberTail member) ++ '}' :: rest) :=
      delimited_flatMap _ members (by decide)
    have enough :
        members.length ≤ (members.flatMap fun member => ',' :: '"' :: memberTail member).length :=
      length_le_length_flatMap members fun _ => List.cons_ne_nil _ _
    rw [List.map_cons, joinCommas_cons, List.flatMap_map, List.append_assoc, List.cons_append,
      foldMembers, foldMembersFrom, nextKey_first]
    simp only [readString_memberTail, member _ stop]
    refine foldMembersFrom_of_folds others ?_
    simp only [List.length_append, List.length_cons]
    omega

theorem object_chars_append (members : List (String × Json)) :
    (object members).chars ++ rest = '{' :: (joinCommas (memberChars members) ++ '}' :: rest) := by
  simp [chars]

/-- An object whose members lead to a state from which the value is complete. -/
theorem Reads.object {read : Reader α} {a : α} (close : σ → Reader α)
    (opens : ∀ s, read ('{' :: s) = do
      let (last, s) ← foldMembers step state s
      close last s)
    (folds : Folds step state members last) (closed : ∀ s, close last s = .ok (a, s)) :
    Reads read (.object members) a where
  append rest _ := by
    rw [object_chars_append, opens, foldMembers_of_folds folds]
    exact closed rest
  starts := ⟨'{', _, by rw [chars, List.cons_append], by decide, by decide⟩

end Objects

/-! ## Whole texts -/

theorem Reads.parseAs_render {read : Reader α} {value : Json} {a : α}
    (value_read : Reads read value a) : parseAs read value.render = .ok a := by
  have whole := value_read.append [] delimited_nil
  rw [List.append_nil] at whole
  rw [parseAs, render, String.toList_ofList, whole]
  rfl

end Json

end FragmentAlgebra
