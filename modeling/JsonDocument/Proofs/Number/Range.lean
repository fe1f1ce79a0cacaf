import JsonDocument.Proofs.Number.Shortest

/-!
# Proofs — Number — the range of doubles

How well a decimal is read depends on where it lies.  From `2 ^ -1022` up it is read with 53 bits;
below that it is read to the nearest unit of `2 ^ -1074`; and from the middle between the largest
double and `2 ^ 1024` on it is not read at all, since infinity is the even one of the two.

* `abs_read_sub_le`, `abs_read_sub_le_unit`: how far off a decimal is read.
* `nearest_lt_infinity_iff`: where overflow begins.
* `Decimal.toBinary64?_eq_none_iff`: so it does for decimals, however large their exponent is.
-/

namespace JsonDocument.Binary64

variable {n d : ℕ} {r : ℚ}

/-! ### Precision -/

/-- A fraction of `2 ^ 52` units or more is rounded by a `2 ^ 53`rd part of it at most. -/
theorem abs_nearest_sub_le (hd : 0 < d) (hr : (n : ℚ) = r * d) (hlow : 2 ^ 52 ≤ r * one) :
    2 ^ 53 * |(unitsOf (nearest n d) : ℚ) - r * one| ≤ r * one := by
  obtain ⟨s, k, -, hvalue, hfirst, -, hhalf⟩ := exists_step hd hr
  rw [hvalue, Nat.cast_mul, Nat.cast_pow, Nat.cast_ofNat]
  have hstep : (2 ^ 52 * 2 ^ s : ℚ) ≤ r * one := by
    rcases hfirst with rfl | hfirst
    · rwa [pow_zero, mul_one]
    · exact hfirst
  linarith

/-- A fraction of less than `2 ^ 53` units is rounded to a whole one. -/
theorem abs_nearest_sub_le_half (hd : 0 < d) (hr : (n : ℚ) = r * d) (hhigh : r * one < 2 ^ 53) :
    |(unitsOf (nearest n d) : ℚ) - r * one| ≤ 1 / 2 := by
  obtain ⟨s, k, -, hvalue, hfirst, -, hhalf⟩ := exists_step hd hr
  rcases hfirst with rfl | hfirst
  · rw [hvalue, Nat.cast_mul, Nat.cast_pow, Nat.cast_ofNat]
    rwa [pow_zero] at hhalf ⊢
  · -- a step of two units or more would go into the fraction too seldom
    rcases Nat.eq_zero_or_pos s with rfl | hs
    · rw [hvalue, Nat.cast_mul, Nat.cast_pow, Nat.cast_ofNat]
      rwa [pow_zero] at hhalf ⊢
    · have htwo : (2 : ℚ) ^ 1 ≤ 2 ^ s := pow_le_pow_right₀ one_le_two hs
      linarith

/-! ### Overflow -/

/-- The largest finite magnitude, and the step from it to infinity. -/
theorem unitsOf_largest : unitsOf (infinity - 1) + 2 * (2 ^ 970 * one) = 2 ^ 1024 * one := by
  have hsplit : infinity - 1 = 2045 * 2 ^ 52 + (2 ^ 53 - 1) := by
    rw [infinity_eq]
    norm_num
  have hstep : 2 * (2 ^ 970 * one) = 2 ^ 2045 := by
    rw [one_eq, ← pow_add, ← pow_succ']
  have hinf : 2 ^ 1024 * one = 2 ^ 53 * 2 ^ 2045 := by
    rw [one_eq, ← pow_add, ← pow_add]
  rw [hsplit, unitsOf_eq (by norm_num) (.inr (by norm_num)), hstep, hinf]
  generalize 2 ^ 2045 = w
  omega

/-- Overflow begins in the middle between the largest finite magnitude and infinity. -/
theorem nearest_lt_infinity_iff (hd : 0 < d) (hr : (n : ℚ) = r * d) :
    nearest n d < infinity ↔ r < 2 ^ 1024 - 2 ^ 970 := by
  have hinf : (unitsOf infinity : ℚ) = 2 ^ 1024 * one := by
    rw [unitsOf_infinity, Nat.cast_mul, Nat.cast_pow, Nat.cast_ofNat]
  have hlast : (unitsOf (infinity - 1) : ℚ) + 2 * (2 ^ 970 * one) = unitsOf infinity := by
    rw [unitsOf_infinity, ← unitsOf_largest, Nat.cast_add, Nat.cast_mul, Nat.cast_mul, Nat.cast_pow,
      Nat.cast_ofNat]
  have hstep : (0 : ℚ) < 2 ^ 970 * one := mul_pos (by positivity) one_pos
  rw [← mul_lt_mul_iff_left₀ one_pos, sub_mul, ← hinf]
  generalize (2 : ℚ) ^ 970 * one = h at hlast hstep ⊢
  constructor
  · intro hlt
    by_contra hge
    rw [not_lt] at hge
    have hmono : (unitsOf (nearest n d) : ℚ) ≤ unitsOf (infinity - 1) := by
      exact_mod_cast unitsOf_strictMono.monotone (Nat.le_sub_one_of_lt hlt)
    have hfar : |(unitsOf infinity : ℚ) - r * one| ≤ r * one - unitsOf (infinity - 1) := by
      rw [abs_le]
      constructor <;> linarith
    have hnear := nearest_isNearest hd hr hlt.ne'
    rw [abs_of_nonpos (by linarith : (unitsOf (nearest n d) : ℚ) - r * one ≤ 0)] at hnear
    rcases hnear with hnear | ⟨htie, heven⟩
    · linarith
    · -- in the middle itself the largest finite magnitude is the odd one of the two
      have heq : unitsOf (nearest n d) = unitsOf (infinity - 1) := by
        have hle : (unitsOf (infinity - 1) : ℚ) ≤ unitsOf (nearest n d) := by linarith
        exact_mod_cast le_antisymm hmono hle
      rw [unitsOf_strictMono.injective heq] at heven
      exact absurd heven (by decide +kernel)
  · intro hlt
    by_contra hge
    rw [not_lt] at hge
    have hmono : (unitsOf infinity : ℚ) ≤ unitsOf (nearest n d) := by
      exact_mod_cast unitsOf_strictMono.monotone hge
    have hle := nearest_le hd hr (infinity - 1)
    rw [abs_of_pos (by linarith)] at hle
    rcases abs_cases ((unitsOf (infinity - 1) : ℚ) - r * one) with ⟨habs, -⟩ | ⟨habs, -⟩ <;>
      rw [habs] at hle <;> linarith

end JsonDocument.Binary64

namespace JsonDocument
open Binary64

/-! ### Decimals -/

theorem one_lt_overflow : (1 : ℚ) < 2 ^ 1024 - 2 ^ 970 := by
  rw [lt_sub_iff_add_lt']
  exact_mod_cast (by decide +kernel : 2 ^ 970 + 1 < 2 ^ 1024)

/-- The middle between the largest double and infinity lies in the range in which decimals are
rounded at all. -/
theorem overflow_range :
    (10 : ℚ) ^ (-324 : ℤ) < 2 ^ 1024 - 2 ^ 970 ∧ (2 : ℚ) ^ 1024 - 2 ^ 970 < 10 ^ (309 : ℤ) := by
  have hhigh : (2 : ℚ) ^ 1024 < 10 ^ 309 := by
    exact_mod_cast (by decide +kernel : 2 ^ 1024 < 10 ^ 309)
  have hpos : (0 : ℚ) < 2 ^ 970 := by positivity
  refine ⟨(zpow_lt_one_of_neg₀ (by norm_num) (by norm_num)).trans one_lt_overflow, ?_⟩
  exact (sub_lt_self _ hpos).trans (by exact_mod_cast hhigh)

/-- The magnitude that a decimal is read as is finite exactly below the middle. -/
theorem Decimal.nearestMagnitude_lt_infinity_iff (t : Decimal) :
    t.nearestMagnitude < infinity ↔ t.absolute < 2 ^ 1024 - 2 ^ 970 := by
  obtain ⟨hlow, hhigh⟩ := overflow_range
  rcases t.nearestMagnitude_cases with ⟨h, hm⟩ | ⟨h, hm⟩ | hm <;> rw [hm]
  · have hinf : 0 < infinity := by
      rw [infinity_eq]
      positivity
    exact iff_of_true hinf (h.trans hlow)
  · exact iff_of_false (lt_irrefl _) (hhigh.trans_le h).not_gt
  · exact nearest_lt_infinity_iff t.fraction_pos t.fraction_ratio

variable {t : Decimal}

theorem Decimal.toBinary64?_eq_none_iff :
    t.toBinary64? = none ↔ 2 ^ 1024 - 2 ^ 970 ≤ t.absolute := by
  rw [← not_lt, ← nearestMagnitude_lt_infinity_iff, toBinary64?]
  split
  · next h => exact iff_of_false (Option.some_ne_none _) (not_not_intro h)
  · next h => exact iff_of_true rfl h

/-- Below the middle a decimal is a finite double, with its sign and the nearest magnitude. -/
theorem Decimal.exists_toBinary64? (h : t.absolute < 2 ^ 1024 - 2 ^ 970) :
    ∃ x, t.toBinary64? = some x ∧ x.isFinite ∧ x.negative = t.negative ∧
      x.magnitude = t.nearestMagnitude := by
  rw [← nearestMagnitude_lt_infinity_iff] at h
  obtain ⟨hmagnitude, hnegative⟩ := ofMagnitude_spec t.negative h
  exact ⟨_, if_pos h, isFinite_ofMagnitude _ h, hnegative, hmagnitude⟩

end JsonDocument

namespace JsonDocument.Binary64

/-! ### How far off a decimal is read -/

variable {x : Binary64} {t : Decimal}

/-- Within the range of doubles the units of what is read are those of the nearest magnitude. -/
theorem units_of_read (hx : x.magnitude = t.nearestMagnitude)
    (hlow : (10 : ℚ) ^ (-324 : ℤ) < t.absolute) (hhigh : t.absolute < 2 ^ 1024 - 2 ^ 970) :
    x.units = unitsOf (nearest t.fraction.1 t.fraction.2) := by
  rw [units, hx, Decimal.nearestMagnitude_eq_nearest hlow (hhigh.trans overflow_range.2)]

/-- A decimal of `2 ^ 52` units or more is read with 53 bits. -/
theorem abs_read_sub_le (hx : x.magnitude = t.nearestMagnitude)
    (hlow : 2 ^ 52 ≤ t.absolute * one) (hhigh : t.absolute < 2 ^ 1024 - 2 ^ 970) :
    2 ^ 53 * |x.absolute - t.absolute| ≤ t.absolute := by
  have hsmall : (10 : ℚ) ^ (-324 : ℤ) < t.absolute := by
    have hten := ten_zpow_mul_one_lt
    rw [← mul_assoc] at hten
    refine lt_of_mul_lt_mul_right ?_ one_pos.le
    linarith
  have herror := abs_nearest_sub_le t.fraction_pos t.fraction_ratio hlow
  rwa [← units_of_read hx hsmall hhigh, ← absolute_mul_one, ← sub_mul, abs_mul, abs_of_pos one_pos,
    ← mul_assoc, mul_le_mul_iff_left₀ one_pos] at herror

/-- A smaller one is read to the nearest unit. -/
theorem abs_read_sub_le_half (hx : x.magnitude = t.nearestMagnitude)
    (hlow : (10 : ℚ) ^ (-324 : ℤ) < t.absolute) (hhigh : t.absolute < 2 ^ 1024 - 2 ^ 970)
    (hsmall : t.absolute * one < 2 ^ 52) : |x.units - t.absolute * one| ≤ 1 / 2 := by
  rw [units_of_read hx hlow hhigh]
  exact abs_nearest_sub_le_half t.fraction_pos t.fraction_ratio (hsmall.trans (by norm_num))

end JsonDocument.Binary64
