import JsonDocument.Proofs.Number.Conversion
import JsonDocument.Proofs.Number.Reading
import JsonDocument.Proofs.Store.Cells

/-!
# Proofs — Number — literals as integers

An integer literal is read twice, exactly and as a double.  The exact value is bounded by 64 bits
only, and there the double is the nearest one; up to `2 ^ 53` every integer is a double itself
(`Binary64.exists_integer`), so both are the same number.

* `Binary64.toInt?_eq_some_iff`: which doubles are integers.
* `Literal.toInt64_iff`: which texts have a value as integers.
* `Integral.nearest`: the double of an integer literal.
* `integral_ofInt`, `ofInt_eq_toString`: the literal of an integer.
* `Literal.toInt64_toDouble`: the two values of a text.
-/

namespace JsonDocument

open Decimal

variable {t : Text} {k n : ℤ}

namespace Binary64

/-! ### Integers that are doubles -/

/-- Far enough to the left a number of 53 bits or fewer fills all 53, or is `2 ^ 53`. -/
theorem exists_shift {c : ℕ} (hpos : 0 < c) (hc : c ≤ 2 ^ 53) :
    ∃ j ≤ 52, 2 ^ 52 ≤ c * 2 ^ j ∧ c * 2 ^ j ≤ 2 ^ 53 := by
  have hlow := Nat.log2_self_le hpos.ne'
  have hhigh := Nat.lt_log2_self (n := c)
  rcases Nat.le_total c.log2 52 with hle | hle
  · refine ⟨52 - c.log2, Nat.sub_le _ _, ?_, ?_⟩
    · calc 2 ^ 52 = 2 ^ c.log2 * 2 ^ (52 - c.log2) := by rw [← pow_add, Nat.add_sub_cancel' hle]
        _ ≤ c * 2 ^ (52 - c.log2) := Nat.mul_le_mul_right _ hlow
    · calc c * 2 ^ (52 - c.log2) ≤ 2 ^ (c.log2 + 1) * 2 ^ (52 - c.log2) :=
            Nat.mul_le_mul_right _ hhigh.le
        _ = 2 ^ 53 := by rw [← pow_add]; congr 1; omega
  · refine ⟨0, Nat.zero_le _, ?_, by rwa [pow_zero, mul_one]⟩
    rw [pow_zero, mul_one]
    exact (Nat.pow_le_pow_right two_pos hle).trans hlow

/-- A number of 53 bits is so many ones. -/
theorem exists_unitsOf_eq {c : ℕ} (hc : c ≤ 2 ^ 53) : ∃ m < infinity, unitsOf m = c * one := by
  have hinf := infinity_eq
  rcases Nat.eq_zero_or_pos c with rfl | hpos
  · exact ⟨0, by omega, by rw [zero_mul]; exact unitsOf_eq_zero_iff.mpr rfl⟩
  obtain ⟨j, hj, hlow, hhigh⟩ := exists_shift hpos hc
  refine ⟨(1074 - j) * 2 ^ 52 + c * 2 ^ j, by omega, ?_⟩
  rw [unitsOf_eq hhigh (.inr hlow), one_eq, mul_assoc, ← pow_add, Nat.add_sub_cancel' (by omega)]

/-- Every integer up to `2 ^ 53` is the value of a double. -/
theorem exists_integer (hn : |n| ≤ 2 ^ 53) : ∃ x : Binary64, x.isFinite ∧ x.value = n := by
  have hc : n.natAbs ≤ 2 ^ 53 := by
    rw [Int.abs_eq_natAbs] at hn
    exact_mod_cast hn
  obtain ⟨m, hm, hunits⟩ := exists_unitsOf_eq hc
  obtain ⟨hmagnitude, hnegative⟩ := ofMagnitude_spec (decide ((n : ℚ) < 0)) hm
  refine ⟨_, isFinite_ofMagnitude (decide ((n : ℚ) < 0)) hm, ?_⟩
  rw [value, hnegative, absolute, units, hmagnitude, hunits, Nat.cast_mul,
    mul_div_cancel_right₀ _ one_pos.ne', Nat.cast_natAbs, Int.cast_abs, signed_abs]

/-- The double nearest to such an integer is the integer. -/
theorem Nearest.value_eq {x : Binary64} (hx : x.Nearest n) (hn : |n| ≤ 2 ^ 53) : x.value = n := by
  obtain ⟨y, hy, hvalue⟩ := exists_integer hn
  have hle := hx.le y hy
  rw [hvalue, sub_self, abs_zero] at hle
  exact sub_eq_zero.mp (abs_nonpos_iff.mp hle)

/-! ### Doubles that are integers -/

theorem value_of_units {x : Binary64} {c : ℕ} (h : x.units = c * one) :
    x.value = ((if x.negative then -c else c : ℤ) : ℚ) := by
  rw [value, absolute, h, Nat.cast_mul, mul_div_cancel_right₀ _ one_pos.ne', signed]
  split <;> push_cast <;> rfl

theorem units_of_value {x : Binary64} (h : x.value = n) : x.units = n.natAbs * one := by
  have habs : |x.value| = x.absolute := by
    rw [value, signed]
    split
    · rw [abs_neg, abs_of_nonneg x.absolute_nonneg]
    · rw [abs_of_nonneg x.absolute_nonneg]
  have hunits : (x.units : ℚ) = (n.natAbs * one : ℕ) := by
    rw [← absolute_mul_one, ← habs, h, Nat.cast_mul, Nat.cast_natAbs, Int.cast_abs]
  exact_mod_cast hunits

/-- The whole number that a double is, is its value. -/
theorem toInt?_eq_some_iff {x : Binary64} : x.toInt? = some n ↔ x.isFinite ∧ x.value = n := by
  constructor
  · intro h
    simp only [toInt?, Option.ite_none_right_eq_some, Option.some.injEq] at h
    obtain ⟨⟨hf, hmod⟩, rfl⟩ := h
    exact ⟨hf, value_of_units (Nat.div_mul_cancel (Nat.dvd_of_mod_eq_zero hmod)).symm⟩
  · rintro ⟨hf, hvalue⟩
    have hunits := units_of_value hvalue
    have hone : 0 < one := by exact_mod_cast one_pos
    have hsign : (if x.negative then -n.natAbs else n.natAbs : ℤ) = n := by
      rw [value_of_units hunits] at hvalue
      exact_mod_cast hvalue
    rw [toInt?, hunits, if_pos ⟨hf, Nat.mul_mod_left ..⟩, Nat.mul_div_cancel _ hone, hsign]

end Binary64

/-! ### Integer literals -/

theorem Integral.signed_abs (h : Integral t n) :
    signed (decide (t.head? = some 0x2D)) |(n : ℚ)| = n := by
  cases h with
  | plain h =>
      have hu : t.head? ≠ some 0x2D := fun hu => (h.head_ne_sign _ hu).1 rfl
      rw [decide_eq_false hu, Int.cast_natCast, Nat.abs_cast]
      rfl
  | minus h =>
      rw [Int.cast_neg, Int.cast_natCast, abs_neg, Nat.abs_cast]
      rfl

/-- Within 64 bits the double of an integer literal is the nearest one to its value. -/
theorem Integral.nearest (h : Integral t n) (hlow : -2 ^ 63 ≤ n) (hhigh : n ≤ 2 ^ 63 - 1) :
    ∃ x, (∀ fallback, Literal.toDouble fallback t = x) ∧
      x.negative = decide (t.head? = some 0x2D) ∧ x.Nearest n := by
  have hsmall : |(n : ℚ)| < 2 ^ 1024 - 2 ^ 970 := by
    have hn : |n| ≤ 2 ^ 63 := abs_le.mpr ⟨hlow, by omega⟩
    refine lt_of_le_of_lt (b := 2 ^ 63) (by exact_mod_cast hn) ?_
    rw [lt_sub_iff_add_lt']
    exact_mod_cast (by decide +kernel : 2 ^ 970 + 2 ^ 63 < 2 ^ 1024)
  obtain ⟨x, hx, hsign, hnearest⟩ := Literal.exists_nearest_toDouble h.floating hsmall
  rw [h.signed_abs] at hnearest
  exact ⟨x, hx, hsign, hnearest⟩

theorem integral_ofInt (n : ℤ) : Integral (ofInt n) n := by
  have hdigits : Numeral (digits n.natAbs) := ⟨digits_ne_nil _, allDigits_digits _⟩
  have hvalue : (digitsValue (digits n.natAbs) : ℤ) = |n| := by
    rw [← ofDigits_eq, ofDigits_digits, Int.natCast_natAbs]
  rw [ofInt]
  split
  · next h =>
      have := Integral.minus hdigits
      rwa [hvalue, abs_of_neg h, neg_neg] at this
  · next h =>
      have := Integral.plain hdigits
      rwa [hvalue, abs_of_nonneg (not_lt.mp h)] at this

/-- An integer is written in decimal. -/
theorem ofInt_eq_toString (n : ℤ) : ofInt n = Text.ofString (toString n) := by
  cases n with
  | ofNat k =>
      have htext : (toString (Int.ofNat k)).toList = Nat.toDigits 10 k := Nat.toList_repr
      have hpos : ¬ Int.ofNat k < 0 := (Int.natCast_nonneg k).not_gt
      rw [ofInt, if_neg hpos, Text.ofString, htext]
      rfl
  | negSucc k =>
      have htext : (toString (Int.negSucc k)).toList = '-' :: Nat.toDigits 10 (k + 1) := by
        rw [← Nat.toList_repr, ← List.singleton_append]
        exact String.toList_append
      rw [ofInt, if_pos (Int.negSucc_lt_zero k), Text.ofString, htext]
      rfl

namespace Literal

/-! ### The two values of a text -/

theorem isIntegral_iff : isIntegral t ↔ ∃ n, Integral t n := by
  simp only [isIntegral, Option.isSome_iff_exists, integral_iff]

theorem toInt64_of_integral (h : Integral t n) (fallback : ℤ) :
    toInt64 fallback t = if -2 ^ 63 ≤ n ∧ n ≤ 2 ^ 63 - 1 then n else fallback := by
  have hrange : (-0x8000000000000000 ≤ n ∧ n < 0x8000000000000000) ↔
      (-2 ^ 63 ≤ n ∧ n ≤ 2 ^ 63 - 1) := by omega
  rw [toInt64, integral_iff.mp h]
  simp only [hrange]

theorem toInt64_of_not_isIntegral (h : ¬ isIntegral t) (fallback : ℤ) :
    toInt64 fallback t = fallback := by
  rw [isIntegral, Option.not_isSome_iff_eq_none] at h
  rw [toInt64, h]

/-- A text has a value as an integer if it is an integer literal within 64 bits. -/
theorem toInt64_iff : (∀ fallback, toInt64 fallback t = k) ↔
    isIntegral t ∧ Integral t k ∧ -2 ^ 63 ≤ k ∧ k ≤ 2 ^ 63 - 1 := by
  constructor
  · intro h
    have hconstant : toInt64 (k + 1) t ≠ k + 1 := by
      rw [h]
      omega
    have hintegral : isIntegral t := by
      by_contra hnot
      exact hconstant (toInt64_of_not_isIntegral hnot _)
    obtain ⟨n, hn⟩ := isIntegral_iff.mp hintegral
    have hvalue := h (k + 1)
    rw [toInt64_of_integral hn] at hvalue hconstant
    split at hvalue
    · next hrange => exact ⟨hintegral, hvalue ▸ hn, hvalue ▸ hrange⟩
    · next hrange => exact absurd (if_neg hrange) hconstant
  · rintro ⟨-, hk, hrange⟩ fallback
    rw [toInt64_of_integral hk, if_pos hrange]

/-- **Both values of a text agree.**  The value as an integer is there just for integer literals
within 64 bits, however many zeros they start with, and it is exact.  Where it is there, the double
is there too and is the nearest one to it, and no other number up to `2 ^ 53`.  The number that is
made of an integer has its decimal text and is integral, and has the integer for its value just
within 64 bits. -/
theorem toInt64_toDouble :
    (∀ t, isIntegral t ↔ ∃ n, Integral t n) ∧
    (∀ t k, (∀ fallback, toInt64 fallback t = k) ↔
      isIntegral t ∧ Integral t k ∧ -2 ^ 63 ≤ k ∧ k ≤ 2 ^ 63 - 1) ∧
    (∀ t, (¬ ∃ k, ∀ fallback, toInt64 fallback t = k) →
      ∀ fallback, toInt64 fallback t = fallback) ∧
    (∀ t k, (∀ fallback, toInt64 fallback t = k) →
      ∃ x, (∀ fallback, toDouble fallback t = x) ∧ x.negative = decide (t.head? = some 0x2D) ∧
        x.Nearest k ∧ (|k| ≤ 2 ^ 53 → x.value = k)) ∧
    ∀ (n : ℤ) (s : Store), ∃ v t, (Plain.integer n).toJson = .ok v ∧
      (s.grow v).1.numberOf (s.grow v).2 = .ok t ∧ t = Text.ofString (toString n) ∧
      isIntegral t ∧ Integral t n ∧
      ((∀ fallback, toInt64 fallback t = n) ↔ -2 ^ 63 ≤ n ∧ n ≤ 2 ^ 63 - 1) := by
  refine ⟨fun t => isIntegral_iff, fun t k => toInt64_iff, fun t h fallback => ?_, fun t k h => ?_,
    fun n s => ⟨_, ofInt n, rfl, ?_, ofInt_eq_toString n, ?_, integral_ofInt n, ?_⟩⟩
  · by_cases hintegral : isIntegral t
    · obtain ⟨n, hn⟩ := isIntegral_iff.mp hintegral
      rw [toInt64_of_integral hn, if_neg]
      exact fun hrange => h ⟨n, toInt64_iff.mpr ⟨hintegral, hn, hrange⟩⟩
    · exact toInt64_of_not_isIntegral hintegral fallback
  · obtain ⟨-, hk, hlow, hhigh⟩ := toInt64_iff.mp h
    obtain ⟨x, hx, hsign, hnearest⟩ := hk.nearest hlow hhigh
    exact ⟨x, hx, hsign, hnearest, hnearest.value_eq⟩
  · rw [Store.grow, Store.growContent, Store.numberOf, Store.content_addNode_self]
  · exact isIntegral_iff.mpr ⟨n, integral_ofInt n⟩
  · rw [toInt64_iff]
    exact ⟨fun h => h.2.2, fun h => ⟨isIntegral_iff.mpr ⟨n, integral_ofInt n⟩, integral_ofInt n, h⟩⟩

/-- The lowest integer of 64 bits, with zeros in front. -/
theorem toInt64_toDouble_lowest :
    (∀ fallback, toInt64 fallback (Text.ofString "-009223372036854775808") = -2 ^ 63) ∧
      ∃ x : Binary64,
        (∀ fallback, toDouble fallback (Text.ofString "-009223372036854775808") = x) ∧
          x.negative ∧ x.Nearest ((-2 ^ 63 : ℤ) : ℚ) := by
  obtain ⟨-, hexact, -, hdouble, -⟩ := toInt64_toDouble
  have hread : readInteger? (Text.ofString "-009223372036854775808") = some (-2 ^ 63) := by
    decide +kernel
  have hvalue := (hexact _ _).mpr
    ⟨isIntegral_iff.mpr ⟨_, integral_iff.mpr hread⟩, integral_iff.mpr hread, by decide, by decide⟩
  obtain ⟨x, hx, hsign, hnearest, -⟩ := hdouble _ _ hvalue
  exact ⟨hvalue, x, hx, hsign.trans (by decide +kernel), hnearest⟩

end Literal

end JsonDocument
