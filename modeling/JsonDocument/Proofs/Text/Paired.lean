import JsonDocument.Proofs.Text.Utf8

/-!
# Proofs — Text — surrogates

A text is any sequence of code units.  Its high surrogates are *paired* if each is followed at once
by a low one; a low surrogate may stand anywhere.  It is *well-formed* if every surrogate is half of
a pair, and then its bytes spell it.

* `Text.HighsPaired`: the high surrogates of a text are paired.
* `Text.WellFormed`: all its surrogates are; `Utf8.decode_encode`: such a text is read back.
* `encode_ascii`, `encode_unit`, `encode_pair`: the bytes of a text, from its front.
-/

namespace JsonDocument

/-! ### Halves of pairs -/

namespace CodeUnit

theorem isHigh_iff {u : CodeUnit} : u.isHigh ↔ 0xD800 ≤ u.toNat ∧ u.toNat ≤ 0xDBFF := by
  simp only [isHigh, Surrogate.isHigh, decide_eq_true_eq]; omega

theorem isLow_iff {u : CodeUnit} : u.isLow ↔ 0xDC00 ≤ u.toNat ∧ u.toNat ≤ 0xDFFF := by
  simp only [isLow, Surrogate.isLow, decide_eq_true_eq]; omega

theorem not_isHigh_of_isLow {u : CodeUnit} (h : u.isLow) : ¬ u.isHigh := by
  rw [isLow_iff] at h
  rw [isHigh_iff]
  omega

/-- A surrogate is none of the units below the surrogates. -/
theorem ne_of_surrogate {u c : CodeUnit} (hu : u.isHigh ∨ u.isLow) (hc : c.toNat < 0xD800) :
    u ≠ c := by
  rintro rfl
  rw [isHigh_iff, isLow_iff] at hu
  omega

/-- The code point of a pair lies above the basic plane. -/
theorem pair_bounds {u v : CodeUnit} (hu : u.isHigh) (hv : v.isLow) :
    0x10000 ≤ u.pair v ∧ u.pair v ≤ 0x10FFFF := by
  have hc := Surrogate.combine_of_isHigh v.toNat hu
  rw [isHigh_iff] at hu
  rw [isLow_iff] at hv
  simp only [pair, hc]
  omega

end CodeUnit

/-! ### Paired texts -/

namespace Text

/-- Every high surrogate is followed at once by a low one. -/
def HighsPaired : Text → Prop
  | [] => True
  | u :: t => (u.isHigh → ∃ v ∈ t.head?, v.isLow) ∧ HighsPaired t

theorem highsPaired_cons {u : CodeUnit} {t : Text} (hu : ¬ u.isHigh) :
    HighsPaired (u :: t) ↔ HighsPaired t :=
  ⟨And.right, fun h => ⟨fun hu' => absurd hu' hu, h⟩⟩

theorem highsPaired_pair {u v : CodeUnit} {t : Text} (hv : v.isLow) :
    HighsPaired (u :: v :: t) ↔ HighsPaired t := by
  have : (u.isHigh → ∃ w ∈ (v :: t).head?, w.isLow) := fun _ => ⟨v, rfl, hv⟩
  rw [HighsPaired, and_iff_right this, highsPaired_cons (CodeUnit.not_isHigh_of_isLow hv)]

theorem not_highsPaired {u : CodeUnit} {t : Text} (hu : u.isHigh)
    (ht : ∀ v ∈ t.head?, ¬ v.isLow) : ¬ HighsPaired (u :: t) :=
  fun h => let ⟨v, hv, hl⟩ := h.1 hu
    ht v hv hl

end Text

/-! ### Well-formed texts -/

namespace Text

/-- Every surrogate is half of a pair. -/
inductive WellFormed : Text → Prop where
  | nil : WellFormed []
  | unit {u : CodeUnit} {t : Text} (hh : ¬ u.isHigh) (hl : ¬ u.isLow) (h : WellFormed t) :
      WellFormed (u :: t)
  | pair {u v : CodeUnit} {t : Text} (hu : u.isHigh) (hv : v.isLow) (h : WellFormed t) :
      WellFormed (u :: v :: t)

theorem WellFormed.append {s t : Text} (hs : WellFormed s) (ht : WellFormed t) :
    WellFormed (s ++ t) := by
  induction hs with
  | nil => exact ht
  | unit hh hl _ ih => exact .unit hh hl ih
  | pair hu hv _ ih => exact .pair hu hv ih

theorem WellFormed.of_forall {t : Text} (h : ∀ u ∈ t, ¬ u.isHigh ∧ ¬ u.isLow) : WellFormed t := by
  induction t with
  | nil => exact .nil
  | cons u t ih =>
      obtain ⟨⟨hh, hl⟩, ht⟩ := List.forall_mem_cons.mp h
      exact .unit hh hl (ih ht)

theorem ofCodePoint_toNat (u : CodeUnit) : ofCodePoint u.toNat = [u] := by
  rw [ofCodePoint, if_pos u.toNat_lt, UInt16.ofNat_toNat]

end Text

theorem isScalarValue_toNat {u : CodeUnit} (hh : ¬ u.isHigh) (hl : ¬ u.isLow) :
    IsScalarValue u.toNat := by
  have hu := u.toNat_lt
  rw [CodeUnit.isHigh_iff] at hh
  rw [CodeUnit.isLow_iff] at hl
  unfold IsScalarValue
  omega

theorem isScalarValue_pair {u v : CodeUnit} (hu : u.isHigh) (hv : v.isLow) :
    IsScalarValue (u.pair v) := by
  have := CodeUnit.pair_bounds hu hv
  exact .inr (by omega)

/-! ### The bytes of a text -/

namespace Utf8

theorem encode_pair {u v : CodeUnit} (hu : u.isHigh) (hv : v.isLow) (t : Text) :
    encode (u :: v :: t) = encodePoint (u.pair v) ++ encode t := by
  simp only [encode, hu, hv, Bool.and_self, if_true]

theorem encode_cons {u : CodeUnit} (hu : ¬ u.isHigh) (t : Text) :
    encode (u :: t) = encodeUnit u ++ encode t := by
  cases t with
  | nil => simp only [encode, List.append_nil]
  | cons v t => simp only [encode, hu, Bool.false_and, Bool.false_eq_true, if_false]

/-- A unit that is no surrogate is written as its code point. -/
theorem encode_unit {u : CodeUnit} (hu : ¬ u.isHigh) (hu' : ¬ u.isLow) (t : Text) :
    encode (u :: t) = encodePoint u.toNat ++ encode t := by
  rw [encode_cons hu, encodeUnit, if_neg (by simp [hu, hu'])]

theorem encode_ascii {u : CodeUnit} (hu : u.toNat < 0x80) (t : Text) :
    encode (u :: t) = UInt8.ofNat u.toNat :: encode t := by
  have hh : ¬ u.isHigh := by rw [CodeUnit.isHigh_iff]; omega
  have hl : ¬ u.isLow := by rw [CodeUnit.isLow_iff]; omega
  rw [encode_unit hh hl, encodePoint, if_pos hu, List.singleton_append]

/-- A unit that is an ASCII byte is written as that byte. -/
theorem encode_byte (b : UInt8) {u : CodeUnit} (hu : u.toNat = b.toNat) (hb : b.toNat < 0x80)
    (t : Text) : encode (u :: t) = b :: encode t := by
  rw [encode_ascii (by omega), hu, UInt8.ofNat_toNat]

/-- ASCII bytes are written as they are. -/
theorem encode_map_toUInt16 {s : Bytes} (hs : ∀ b ∈ s, b.toNat < 0x80) (t : Text) :
    encode (s.map UInt8.toUInt16 ++ t) = s ++ encode t := by
  induction s with
  | nil => rfl
  | cons b s ih =>
      obtain ⟨hb, hs⟩ := List.forall_mem_cons.mp hs
      rw [List.map_cons, List.cons_append, encode_ascii (by simpa using hb), ih hs]
      simp

/-- Well-formed texts are read back from their bytes. -/
theorem decode_encode {t : Text} (h : t.WellFormed) : decode (encode t) = some t := by
  induction h with
  | nil => rfl
  | @unit u _ hh hl _ ih =>
      rw [encode_unit hh hl, decode_encodePoint (isScalarValue_toNat hh hl), ih,
        Text.ofCodePoint_toNat]
      rfl
  | pair hu hv _ ih =>
      rw [encode_pair hu hv, decode_encodePoint (isScalarValue_pair hu hv), ih,
        Text.ofCodePoint_pair hu hv]
      rfl

end Utf8

end JsonDocument
