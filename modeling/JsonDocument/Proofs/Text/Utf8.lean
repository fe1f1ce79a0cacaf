import JsonDocument.Text.Utf8

/-!
# Proofs — Text — UTF-8

A code point that is no surrogate is a *scalar value*, and the well-formed byte sequences are those
that spell scalar values one after the other in the form that `Utf8.encodePoint` gives each.

* `decode_encodePoint`: a scalar value in front of a sequence is read off it.
* `exists_of_decode`: what is read off the front of a sequence is a scalar value in its one form.
-/

namespace JsonDocument

/-- A code point that is no surrogate. -/
def IsScalarValue (c : Nat) : Prop := c < 0xD800 ∨ 0xE000 ≤ c ∧ c ≤ 0x10FFFF

namespace Utf8

/-! ### Bytes as numbers -/

theorem toNat_ofNat {n : Nat} (h : n < 0x100) : (UInt8.ofNat n).toNat = n := by
  rw [UInt8.toNat_ofNat']; omega

theorem ofNat_eq {n : Nat} {b : UInt8} (h : n = b.toNat) : UInt8.ofNat n = b := by
  rw [h, UInt8.ofNat_toNat]

theorem within_iff {lo hi : Nat} {b : UInt8} :
    within lo hi b = true ↔ lo ≤ b.toNat ∧ b.toNat ≤ hi := by
  simp only [within, decide_eq_true_eq]

theorem eq_iff_toNat {a b : UInt8} : a = b ↔ a.toNat = b.toNat := UInt8.toNat_inj.symm

/-! ### Bytes that spell a scalar value -/

/-- Two bytes that are read as one character spell a scalar value. -/
theorem encodePoint_of_two? {a b : UInt8} {c : Nat} (h : two? a b = some c) :
    IsScalarValue c ∧ encodePoint c = [a, b] := by
  unfold two? at h
  split at h
  · next hw =>
      simp only [Bool.and_eq_true, isTail, within_iff] at hw
      simp only [Option.some.injEq] at h
      refine ⟨.inl (by omega), ?_⟩
      rw [encodePoint, if_neg (by omega), if_pos (by omega), ofNat_eq (b := a) (by omega),
        ofNat_eq (b := b) (by omega)]
  · cases h

/-- Three bytes that are read as one character spell a scalar value. -/
theorem encodePoint_of_three? {a b d : UInt8} {c : Nat} (h : three? a b d = some c) :
    IsScalarValue c ∧ encodePoint c = [a, b, d] := by
  unfold three? at h
  split at h
  · next hw =>
      simp only [Bool.and_eq_true, Bool.or_eq_true, isTail, within_iff, decide_eq_true_eq,
        eq_iff_toNat, UInt8.reduceToNat] at hw
      simp only [Option.some.injEq] at h
      refine ⟨by unfold IsScalarValue; omega, ?_⟩
      rw [encodePoint, if_neg (by omega), if_neg (by omega), if_pos (by omega),
        ofNat_eq (b := a) (by omega), ofNat_eq (b := b) (by omega), ofNat_eq (b := d) (by omega)]
  · cases h

/-- Four bytes that are read as one character spell a scalar value. -/
theorem encodePoint_of_four? {a b d e : UInt8} {c : Nat} (h : four? a b d e = some c) :
    IsScalarValue c ∧ encodePoint c = [a, b, d, e] := by
  unfold four? at h
  split at h
  · next hw =>
      simp only [Bool.and_eq_true, Bool.or_eq_true, isTail, within_iff, decide_eq_true_eq,
        eq_iff_toNat, UInt8.reduceToNat] at hw
      simp only [Option.some.injEq] at h
      refine ⟨.inr (by omega), ?_⟩
      rw [encodePoint, if_neg (by omega), if_neg (by omega), if_neg (by omega),
        ofNat_eq (b := a) (by omega), ofNat_eq (b := b) (by omega), ofNat_eq (b := d) (by omega),
        ofNat_eq (b := e) (by omega)]
  · cases h

/-! ### Reading them -/

theorem two?_of_lt {c : Nat} (h₁ : 0x80 ≤ c) (h₂ : c < 0x800) :
    two? (UInt8.ofNat (0xC0 + c / 0x40)) (UInt8.ofNat (0x80 + c % 0x40)) = some c := by
  have ha := toNat_ofNat (n := 0xC0 + c / 0x40) (by omega)
  have hb := toNat_ofNat (n := 0x80 + c % 0x40) (by omega)
  rw [two?, if_pos (by simp only [Bool.and_eq_true, isTail, within_iff, ha, hb]; omega), ha, hb,
    Option.some.injEq]
  omega

theorem two?_eq_none {a b : UInt8} (h : 0xE0 ≤ a.toNat) : two? a b = none := by
  rw [two?, if_neg]
  simp only [Bool.and_eq_true, within_iff]
  omega

theorem three?_of_isScalarValue {c : Nat} (h₁ : 0x800 ≤ c) (h₂ : c < 0x10000)
    (hc : IsScalarValue c) :
    three? (UInt8.ofNat (0xE0 + c / 0x1000)) (UInt8.ofNat (0x80 + c / 0x40 % 0x40))
      (UInt8.ofNat (0x80 + c % 0x40)) = some c := by
  have ha := toNat_ofNat (n := 0xE0 + c / 0x1000) (by omega)
  have hb := toNat_ofNat (n := 0x80 + c / 0x40 % 0x40) (by omega)
  have hd := toNat_ofNat (n := 0x80 + c % 0x40) (by omega)
  unfold IsScalarValue at hc
  rw [three?, if_pos, ha, hb, hd, Option.some.injEq]
  · omega
  · simp only [Bool.and_eq_true, Bool.or_eq_true, isTail, within_iff, decide_eq_true_eq,
      eq_iff_toNat, UInt8.reduceToNat, ha, hb, hd]
    omega

theorem three?_eq_none {a b d : UInt8} (h : 0xF0 ≤ a.toNat) : three? a b d = none := by
  rw [three?, if_neg]
  simp only [Bool.and_eq_true, Bool.or_eq_true, isTail, within_iff, decide_eq_true_eq,
    eq_iff_toNat, UInt8.reduceToNat]
  omega

theorem four?_of_le {c : Nat} (h₁ : 0x10000 ≤ c) (h₂ : c ≤ 0x10FFFF) :
    four? (UInt8.ofNat (0xF0 + c / 0x40000)) (UInt8.ofNat (0x80 + c / 0x1000 % 0x40))
      (UInt8.ofNat (0x80 + c / 0x40 % 0x40)) (UInt8.ofNat (0x80 + c % 0x40)) = some c := by
  have ha := toNat_ofNat (n := 0xF0 + c / 0x40000) (by omega)
  have hb := toNat_ofNat (n := 0x80 + c / 0x1000 % 0x40) (by omega)
  have hd := toNat_ofNat (n := 0x80 + c / 0x40 % 0x40) (by omega)
  have he := toNat_ofNat (n := 0x80 + c % 0x40) (by omega)
  rw [four?, if_pos, ha, hb, hd, he, Option.some.injEq]
  · omega
  · simp only [Bool.and_eq_true, Bool.or_eq_true, isTail, within_iff, decide_eq_true_eq,
      eq_iff_toNat, UInt8.reduceToNat, ha, hb, hd, he]
    omega

/-- A scalar value in front of a sequence is read off it. -/
theorem decode_encodePoint {c : Nat} (hc : IsScalarValue c) (s : Bytes) :
    decode (encodePoint c ++ s) = (decode s).map (Text.ofCodePoint c ++ ·) := by
  by_cases h₁ : c < 0x80
  · have ha := toNat_ofNat (n := c) (by omega)
    rw [encodePoint, if_pos h₁, Text.ofCodePoint, if_pos (by omega), List.singleton_append,
      decode.eq_def]
    simp only [ha, if_pos h₁]
    rfl
  by_cases h₂ : c < 0x800
  · have ha := toNat_ofNat (n := 0xC0 + c / 0x40) (by omega)
    have hn : ¬ (UInt8.ofNat (0xC0 + c / 0x40)).toNat < 0x80 := by omega
    rw [encodePoint, if_neg h₁, if_pos h₂, List.cons_append, List.singleton_append, decode.eq_def]
    simp only [if_neg hn, two?_of_lt (by omega) h₂]
  by_cases h₃ : c < 0x10000
  · have ha := toNat_ofNat (n := 0xE0 + c / 0x1000) (by omega)
    have hn : ¬ (UInt8.ofNat (0xE0 + c / 0x1000)).toNat < 0x80 := by omega
    have hw : 0xE0 ≤ (UInt8.ofNat (0xE0 + c / 0x1000)).toNat := by omega
    rw [encodePoint, if_neg h₁, if_neg h₂, if_pos h₃, List.cons_append, List.cons_append,
      List.singleton_append, decode.eq_def]
    simp only [if_neg hn, two?_eq_none hw, three?_of_isScalarValue (by omega) h₃ hc]
  · have h₄ : c ≤ 0x10FFFF := by unfold IsScalarValue at hc; omega
    have ha := toNat_ofNat (n := 0xF0 + c / 0x40000) (by omega)
    have hn : ¬ (UInt8.ofNat (0xF0 + c / 0x40000)).toNat < 0x80 := by omega
    have hw : 0xE0 ≤ (UInt8.ofNat (0xF0 + c / 0x40000)).toNat := by omega
    have hv : 0xF0 ≤ (UInt8.ofNat (0xF0 + c / 0x40000)).toNat := by omega
    rw [encodePoint, if_neg h₁, if_neg h₂, if_neg h₃, List.cons_append, List.cons_append,
      List.cons_append, List.singleton_append, decode.eq_def]
    simp only [if_neg hn, two?_eq_none hw, three?_eq_none hv, four?_of_le (by omega) h₄]

/-- What is read off the front of a sequence is a scalar value in its one form. -/
theorem exists_of_decode {a : UInt8} {s : Bytes} {t : Text} (h : decode (a :: s) = some t) :
    ∃ c s' t', IsScalarValue c ∧ a :: s = encodePoint c ++ s' ∧ decode s' = some t' ∧
      t = Text.ofCodePoint c ++ t' := by
  rw [decode.eq_def] at h
  simp only at h
  split at h
  · next ha =>
      obtain ⟨t', ht, rfl⟩ := Option.map_eq_some_iff.mp h
      refine ⟨a.toNat, s, t', .inl (by omega), ?_, ht, ?_⟩
      · rw [encodePoint, if_pos ha, UInt8.ofNat_toNat]; rfl
      · rw [Text.ofCodePoint, if_pos (by omega)]; rfl
  split at h
  · cases h
  split at h
  · next hp =>
      obtain ⟨t', ht, rfl⟩ := Option.map_eq_some_iff.mp h
      obtain ⟨hc, he⟩ := encodePoint_of_two? hp
      exact ⟨_, _, t', hc, by rw [he]; rfl, ht, rfl⟩
  split at h
  · cases h
  split at h
  · next hp =>
      obtain ⟨t', ht, rfl⟩ := Option.map_eq_some_iff.mp h
      obtain ⟨hc, he⟩ := encodePoint_of_three? hp
      exact ⟨_, _, t', hc, by rw [he]; rfl, ht, rfl⟩
  split at h
  · cases h
  split at h
  · next hp =>
      obtain ⟨t', ht, rfl⟩ := Option.map_eq_some_iff.mp h
      obtain ⟨hc, he⟩ := encodePoint_of_four? hp
      exact ⟨_, _, t', hc, by rw [he]; rfl, ht, rfl⟩
  · cases h

end Utf8

end JsonDocument
