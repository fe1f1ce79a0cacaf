import JsonDocument.Proofs.Number.General
import JsonDocument.Proofs.Number.Range

/-!
# Proofs — Number — fifteen digits read back

A decimal of fifteen digits is coarser than the doubles around it, so the double that it is read as
leads back to it: it is nearer to the decimal than half of its own fifteenth place, on whichever
side of a power of ten it lies (`significant_of_near`).  Among the subnormal doubles this fails
where the fifteenth place is less than a unit, but there the decimal of a double is read as the
double itself (`magnitude_of_fine`).  The two regions meet at `10 ^ -309`, where it matters that the
power of ten is nearer to the double above it (`units_at_tie`).

* `Decimal.write_congr`: decimals of the same value are written alike.
* `significant_of_read`, `significant_of_reread`: the decimal of what a decimal is read as.
* `overflow_significant_iff`: the doubles whose decimal is too large to be read.
* `Literal.general_toDouble`: literals of fifteen digits keep their value.
* `Literal.toDouble_general`: reading the text of a double and writing it again changes nothing.
-/

namespace JsonDocument

namespace Decimal

/-! ### Decimals of the same value -/

/-- The value of a decimal, with its sign. -/
def value (t : Decimal) : ℚ := if t.negative then -t.absolute else t.absolute

variable {t t' : Decimal}

theorem abs_value (t : Decimal) : |t.value| = t.absolute := by
  rw [value]
  split
  · rw [abs_neg, abs_of_nonneg t.absolute_nonneg]
  · rw [abs_of_nonneg t.absolute_nonneg]

/-- Above zero the value tells the sign. -/
theorem eq_of_value_eq (hpos : 0 < t.absolute) (h : t'.value = t.value) :
    t'.negative = t.negative ∧ t'.absolute = t.absolute := by
  have habs : t'.absolute = t.absolute := by rw [← abs_value, h, abs_value]
  refine ⟨?_, habs⟩
  rw [value, value, habs] at h
  -- with another sign the value would be its own opposite
  cases hneg : t.negative <;> cases hneg' : t'.negative <;>
    simp only [hneg, hneg', if_true, Bool.false_eq_true, if_false] at h ⊢ <;> linarith

theorem digits_mul_ten {n : ℕ} (h : n ≠ 0) : digits (n * 10) = digits n ++ [0x30] := by
  rw [digits_eq_map, digits_eq_map, Nat.toDigits_of_base_le (by decide) (by omega),
    Nat.mul_div_cancel _ (by decide), Nat.mul_mod_left, List.map_append]
  rfl

theorem trimRight_append_zero (ds : Text) : trimRight (ds ++ [0x30]) = trimRight ds := by
  simp [trimRight]

/-- Zeros at the end of a coefficient are left off. -/
theorem trimRight_digits_mul {n : ℕ} (h : n ≠ 0) (k : ℕ) :
    trimRight (digits (n * 10 ^ k)) = trimRight (digits n) := by
  induction k with
  | zero => rw [pow_zero, mul_one]
  | succ k ih =>
      rw [pow_succ, ← mul_assoc, digits_mul_ten (by positivity), trimRight_append_zero, ih]

/-- The first place is told from the value. -/
theorem firstPlace_congr (h : t.coefficient ≠ 0) (h' : t'.coefficient ≠ 0)
    (habs : t.absolute = t'.absolute) : t.firstPlace = t'.firstPlace := by
  obtain ⟨hlow, hhigh⟩ := firstPlace_spec h
  obtain ⟨hlow', hhigh'⟩ := firstPlace_spec h'
  rw [habs] at hlow hhigh
  have := ten_zpow_lt_iff.mp (hlow.trans_lt hhigh')
  have := ten_zpow_lt_iff.mp (hlow'.trans_lt hhigh)
  omega

/-- The digits that are written are told from the value. -/
theorem trimRight_congr (hc : t'.coefficient ≠ 0) (habs : t.absolute = t'.absolute)
    (hle : t.exponent ≤ t'.exponent) :
    trimRight (digits t.coefficient) = trimRight (digits t'.coefficient) := by
  obtain ⟨k, hk⟩ := Int.eq_ofNat_of_zero_le (sub_nonneg.mpr hle)
  have hcoefficient : (t.coefficient : ℚ) = t'.coefficient * 10 ^ k := by
    rw [absolute, absolute, ← sub_add_cancel t'.exponent t.exponent, hk, zpow_add₀ (by norm_num),
      ← mul_assoc] at habs
    exact mul_right_cancel₀ (ten_zpow_pos t.exponent).ne' habs
  rw [show t.coefficient = t'.coefficient * 10 ^ k by exact_mod_cast hcoefficient,
    trimRight_digits_mul hc]

/-- A decimal is written by its sign and its value, however its coefficient is chosen. -/
theorem write_congr (hsign : t.negative = t'.negative) (habs : t.absolute = t'.absolute)
    (l : Layout) : t.write l = t'.write l := by
  have hzero : t.coefficient = 0 ↔ t'.coefficient = 0 := by
    rw [coefficient_eq_zero_iff, coefficient_eq_zero_iff, habs]
  by_cases hc : t.coefficient = 0
  · simp only [write, if_pos hc, if_pos (hzero.mp hc), hsign]
  · have hc' : t'.coefficient ≠ 0 := mt hzero.mpr hc
    have hdigits : trimRight (digits t.coefficient) = trimRight (digits t'.coefficient) := by
      rcases le_total t.exponent t'.exponent with hle | hle
      · exact trimRight_congr hc' habs hle
      · exact (trimRight_congr hc habs.symm hle).symm
    rw [write_of_ne_zero hc, write_of_ne_zero hc', hsign, firstPlace_congr hc hc' habs, hdigits]

end Decimal

namespace Binary64

variable {x y : Binary64} {t : Decimal} {p c : ℕ} {e : ℤ}

/-! ### Digits that are found again -/

/-- A decimal of `p` digits is found again from a double if it is nearer to it than half of the
double's last place, and than one of its own last place. -/
theorem significant_of_near (hp : 2 ≤ p) (hz : x.units ≠ 0) (hc : c < 10 ^ p)
    (hnear : 2 * |c * 10 ^ e - x.absolute| < 10 ^ x.lastPlace p)
    (hcoarse : |c * 10 ^ e - x.absolute| < 10 ^ e) :
    (x.significant p).absolute = c * 10 ^ e := by
  -- the last place of the double is no higher than that of the decimal
  have hplace : x.lastPlace p ≤ e := by
    by_contra hlt
    rw [not_le] at hlt
    have hdecade : (10 : ℚ) ^ (e + p) ≤ x.absolute := by
      refine le_trans (zpow_le_zpow_right₀ (by norm_num) ?_) (decade_spec hz).1
      rw [lastPlace] at hlt
      omega
    have hc' : (c + 1 : ℚ) ≤ 10 ^ p := by exact_mod_cast hc
    have hle := mul_le_mul_of_nonneg_right hc' (ten_zpow_pos e).le
    rw [zpow_add₀ (by norm_num), zpow_natCast, mul_comm] at hdecade
    have := (abs_lt.mp hcoarse).1
    linarith
  obtain ⟨k, hk⟩ := Int.eq_ofNat_of_zero_le (sub_nonneg.mpr hplace)
  have hmultiple : (c : ℚ) * 10 ^ e = ((c * 10 ^ k : ℕ) : ℤ) * 10 ^ x.lastPlace p := by
    rw [← sub_add_cancel e (x.lastPlace p), hk, zpow_add₀ (by norm_num)]
    push_cast
    rw [zpow_natCast, mul_assoc]
  rw [hmultiple] at hnear
  have hrounded := (nearestMultiple_rounded p x).eq_of_near hnear
  rw [(significant_spec hp hz).2, hmultiple, hrounded, Int.cast_natCast]

/-- The decimal of a double has no more digits than were asked for. -/
theorem exists_digits_of_significant (hp : 2 ≤ p) (hz : x.units ≠ 0) :
    ∃ (c : ℕ) (e : ℤ), c < 10 ^ p ∧ x.lastPlace p ≤ e ∧
      (x.significant p).absolute = c * 10 ^ e := by
  have hvalue := (significant_spec hp hz).2
  rcases Nat.lt_or_eq_of_le (rounded_bounds (p := p) (by omega) hz).2 with hlt | hcarry
  · exact ⟨x.rounded p, x.lastPlace p, hlt, le_rfl, hvalue⟩
  · refine ⟨1, x.lastPlace p + p, Nat.one_lt_pow (by omega) (by norm_num), by omega, ?_⟩
    rw [hvalue, hcarry, zpow_add₀ (by norm_num), zpow_natCast]
    push_cast
    ring

/-- A decimal of fifteen digits that is read with 53 bits is found again. -/
theorem significant_of_read (hx : x.magnitude = t.nearestMagnitude) (hc : c < 10 ^ 15)
    (hvalue : t.absolute = c * 10 ^ e) (hlow : 2 ^ 52 ≤ t.absolute * one)
    (hhigh : t.absolute < 2 ^ 1024 - 2 ^ 970) : (x.significant 15).absolute = t.absolute := by
  have herror := abs_read_sub_le hx hlow hhigh
  have hpos : 0 < t.absolute := by
    refine pos_of_mul_pos_left ?_ one_pos.le
    exact lt_of_lt_of_le (by norm_num) hlow
  have hge : t.absolute - x.absolute ≤ |x.absolute - t.absolute| := by
    rw [abs_sub_comm]
    exact le_abs_self _
  have hz : x.units ≠ 0 := (absolute_pos (by linarith)).ne'
  have hdecade : x.absolute < 10 ^ 15 * 10 ^ x.lastPlace 15 := by
    have := (decade_spec hz).2
    rwa [(decade_eq (p := 15) (by decide) x).2, Nat.cast_pow, Nat.cast_ofNat] at this
  have hdigits : t.absolute < 10 ^ 15 * 10 ^ e := by
    rw [hvalue]
    exact mul_lt_mul_of_pos_right (by exact_mod_cast hc) (ten_zpow_pos e)
  rw [abs_sub_comm] at herror hge
  rw [hvalue] at herror hdigits hge ⊢
  exact significant_of_near (by decide) hz hc (by linarith) (by linarith)

/-! ### Subnormal doubles -/

/-- A double nearer to a decimal than half a unit is what the decimal is read as. -/
theorem magnitude_of_near_unit (hlow : (10 : ℚ) ^ (-324 : ℤ) < t.absolute)
    (hhigh : t.absolute < 2 ^ 1024 - 2 ^ 970) (h : |x.units - t.absolute * one| < 1 / 2) :
    t.nearestMagnitude = x.magnitude := by
  have hle := nearest_le t.fraction_pos t.fraction_ratio x.magnitude
  rw [← Decimal.nearestMagnitude_eq_nearest hlow (hhigh.trans overflow_range.2)] at hle
  refine unitsOf_strictMono.injective (Nat.cast_injective (R := ℤ) ?_)
  rw [units] at h
  have htri := abs_sub_le (unitsOf t.nearestMagnitude : ℚ) (t.absolute * one) (unitsOf x.magnitude)
  rw [abs_sub_comm (t.absolute * one)] at htri
  have hlt : |(unitsOf t.nearestMagnitude : ℚ) - unitsOf x.magnitude| < 1 := by linarith
  have hzero : |(unitsOf t.nearestMagnitude : ℤ) - unitsOf x.magnitude| < 1 := by exact_mod_cast hlt
  exact sub_eq_zero.mp (Int.abs_lt_one_iff.mp hzero)

/-- The first double from `10 ^ -309` up has `202402253307311` units, and `10 ^ -309` is nearer to
it than to the double below. -/
theorem units_at_tie : (2 * 202402253307310 + 1 : ℚ) < 2 * (10 ^ (-309 : ℤ) * one) ∧
    10 ^ (-309 : ℤ) * one ≤ (202402253307310 + 1 : ℚ) := by
  have hone : (10 : ℚ) ^ (-309 : ℤ) * one = 2 ^ 1074 / 10 ^ 309 := by
    rw [one_eq, Nat.cast_pow, Nat.cast_ofNat, zpow_neg, mul_comm, ← div_eq_mul_inv]
    rfl
  have hlow : ((2 * 202402253307310 + 1) * 10 ^ 309 : ℚ) < 2 * 2 ^ 1074 := by
    exact_mod_cast (by decide +kernel : (2 * 202402253307310 + 1) * 10 ^ 309 < 2 * 2 ^ 1074)
  have hhigh : (2 ^ 1074 : ℚ) ≤ (202402253307310 + 1) * 10 ^ 309 := by
    exact_mod_cast (by decide +kernel : 2 ^ 1074 ≤ (202402253307310 + 1) * 10 ^ 309)
  rw [hone, ← mul_div_assoc, lt_div_iff₀ (by positivity), div_le_iff₀ (by positivity)]
  exact ⟨hlow, hhigh⟩

/-- A unit lies between two powers of ten. -/
theorem one_lt_ten_zpow_mul_one : 1 < (10 : ℚ) ^ (-323 : ℤ) * one := by
  have hlarge : (10 : ℚ) ^ 323 < 2 ^ 1074 := by
    exact_mod_cast (by decide +kernel : 10 ^ 323 < 2 ^ 1074)
  rw [one_eq, Nat.cast_pow, Nat.cast_ofNat, zpow_neg, lt_inv_mul_iff₀ (ten_zpow_pos _), mul_one]
  exact hlarge

/-- Within half of its last place the decimal of a double is the double. -/
theorem abs_significant_sub_le (hp : 2 ≤ p) (hz : x.units ≠ 0) :
    |(x.significant p).absolute - x.absolute| ≤ 10 ^ x.lastPlace p / 2 := by
  rw [(significant_spec hp hz).2]
  exact abs_roundDiv_onGrid_le x (x.lastPlace p)

/-- The decimal of a double does not leave its decade downwards. -/
theorem zpow_decade_le_significant (hp : 2 ≤ p) (hz : x.units ≠ 0) :
    (10 : ℚ) ^ decade x.units one ≤ (x.significant p).absolute := by
  rw [(significant_spec hp hz).2, (decade_eq (p := p) (by omega) x).1]
  exact mul_le_mul_of_nonneg_right (by exact_mod_cast (rounded_bounds (by omega) hz).1)
    (ten_zpow_pos _).le

/-- The decimal of a double lies in the range in which decimals are rounded at all. -/
theorem lt_significant (hf : x.isFinite) (hz : x.units ≠ 0) :
    (10 : ℚ) ^ (-324 : ℤ) < (x.significant 15).absolute := by
  have hle := (abs_le.mp (abs_significant_sub_le (p := 15) (by decide) hz)).1
  have hstart := (decade_spec hz).1
  rw [(decade_eq (p := 15) (by decide) x).1] at hstart
  have hpos := ten_zpow_pos (x.lastPlace 15)
  have hlow := (absolute_range hf hz).1
  push_cast at hstart
  linarith

/-- Where the last place is less than a unit, the decimal is read as the double itself. -/
theorem magnitude_of_fine (hf : x.isFinite) (hz : x.units ≠ 0)
    (hhigh : (x.significant 15).absolute < 2 ^ 1024 - 2 ^ 970) (hfine : x.lastPlace 15 ≤ -324) :
    (x.significant 15).nearestMagnitude = x.magnitude := by
  refine magnitude_of_near_unit (lt_significant hf hz) hhigh ?_
  have hle := abs_significant_sub_le (p := 15) (by decide) hz
  have hplace : (10 : ℚ) ^ x.lastPlace 15 ≤ 10 ^ (-324 : ℤ) :=
    zpow_le_zpow_right₀ (by norm_num) hfine
  have hunit := ten_zpow_mul_one_lt
  rw [← absolute_mul_one, ← sub_mul, abs_mul, abs_of_pos one_pos, abs_sub_comm]
  have hhalf := hle.trans (div_le_div_of_nonneg_right hplace two_pos.le)
  have hscaled := mul_le_mul_of_nonneg_right hhalf one_pos.le
  linarith

/-- Where it is more than a unit, the decimal is found again from what it is read as.  At
`10 ^ -309` the last place falls below a unit, so a decimal there must not be read as the double
below it. -/
theorem significant_of_coarse (hf : x.isFinite) (hz : x.units ≠ 0)
    (hhigh : (x.significant 15).absolute < 2 ^ 1024 - 2 ^ 970)
    (hsmall : (x.significant 15).absolute * one < 2 ^ 52) (hcoarse : -323 ≤ x.lastPlace 15)
    (hy : y.magnitude = (x.significant 15).nearestMagnitude) :
    (y.significant 15).absolute = (x.significant 15).absolute := by
  have herror := abs_read_sub_le_half hy (lt_significant hf hz) hhigh hsmall
  have hdecade := zpow_decade_le_significant (p := 15) (by decide) hz
  obtain ⟨c, e, hc, he, hvalue⟩ := exists_digits_of_significant (p := 15) (by decide) hz
  rw [hvalue] at herror hdecade ⊢
  have hplace {g : ℤ} (hg : -323 ≤ g) : (10 : ℚ) ^ (-323 : ℤ) ≤ 10 ^ g :=
    zpow_le_zpow_right₀ (by norm_num) hg
  -- the decimal is `10 ^ -309` or more, so it is read as the double above that or a larger one
  obtain ⟨htie, hfirst⟩ := units_at_tie
  have hstart : (10 : ℚ) ^ (-309 : ℤ) * one ≤ c * 10 ^ e * one := by
    refine mul_le_mul_of_nonneg_right (le_trans ?_ hdecade) one_pos.le
    refine zpow_le_zpow_right₀ (by norm_num) ?_
    rw [lastPlace] at hcoarse
    omega
  have hunits : 202402253307310 + 1 ≤ y.units := by
    have hlt : (202402253307310 : ℚ) < y.units := by linarith [(abs_le.mp herror).1]
    exact_mod_cast hlt
  have hunits' : (202402253307310 + 1 : ℚ) ≤ y.units := by exact_mod_cast hunits
  have hz' : y.units ≠ 0 := by omega
  have hplace' : -323 ≤ y.lastPlace 15 := by
    have hlow : (10 : ℚ) ^ (-309 : ℤ) ≤ y.absolute := by
      rw [absolute, le_div_iff₀ one_pos]
      exact hfirst.trans hunits'
    have := ten_zpow_lt_iff.mp (hlow.trans_lt (decade_spec hz').2)
    rw [lastPlace]
    omega
  have hnear : 2 * |c * 10 ^ e - y.absolute| < 10 ^ (-323 : ℤ) := by
    rw [← absolute_mul_one, ← sub_mul, abs_mul, abs_of_pos one_pos, abs_sub_comm] at herror
    have hunit := one_lt_ten_zpow_mul_one
    refine lt_of_mul_lt_mul_right (a := (one : ℚ)) ?_ one_pos.le
    linarith
  have hnear' : |c * 10 ^ e - y.absolute| < 10 ^ (-323 : ℤ) := by
    linarith [abs_nonneg (c * 10 ^ e - y.absolute)]
  exact significant_of_near (by decide) hz' hc (hnear.trans_le (hplace hplace'))
    (hnear'.trans_le (hplace (hcoarse.trans he)))

theorem significant_of_zero (hz : x.units = 0) (p : ℕ) : x.significant p = ⟨x.negative, 0, 0⟩ := by
  rw [significant, if_pos hz]

theorem negative_significant (hp : 2 ≤ p) (x : Binary64) :
    (x.significant p).negative = x.negative := by
  by_cases hz : x.units = 0
  · rw [significant_of_zero hz]
  · exact (significant_spec hp hz).1

theorem eq_of_magnitude_eq (hsign : y.negative = x.negative) (h : y.magnitude = x.magnitude) :
    y = x := by
  rw [← y.ofMagnitude_magnitude, hsign, h, x.ofMagnitude_magnitude]

/-- What the decimal of a double is read as has the same decimal. -/
theorem significant_of_reread (hf : x.isFinite)
    (hhigh : (x.significant 15).absolute < 2 ^ 1024 - 2 ^ 970) (hsign : y.negative = x.negative)
    (hy : y.magnitude = (x.significant 15).nearestMagnitude) :
    (y.significant 15).absolute = (x.significant 15).absolute := by
  by_cases hz : x.units = 0
  · rw [significant_of_zero hz] at hy
    rw [eq_of_magnitude_eq hsign (hy.trans (unitsOf_eq_zero_iff.mp hz).symm)]
  rcases le_or_gt (2 ^ 52) ((x.significant 15).absolute * one) with hnormal | hsmall
  · obtain ⟨c, e, hc, -, hvalue⟩ := exists_digits_of_significant (p := 15) (by decide) hz
    exact significant_of_read hy hc hvalue hnormal hhigh
  rcases lt_or_ge (x.lastPlace 15) (-323) with hfine | hcoarse
  · have hread := magnitude_of_fine hf hz hhigh (by omega)
    rw [eq_of_magnitude_eq hsign (hy.trans hread)]
  · exact significant_of_coarse hf hz hhigh hsmall hcoarse hy

/-! ### The top of the range -/

/-- The middle between two decimals of fifteen digits is no double. -/
theorem absolute_ne_tie (x : Binary64) : x.absolute ≠ 1797693134862315 * 10 ^ 293 := by
  intro h
  have hunits : 1797693134862315 * 10 ^ 293 * one = unitsOf x.magnitude := by
    refine Nat.cast_injective (R := ℚ) ?_
    rw [Nat.cast_mul, Nat.cast_mul, Nat.cast_pow, Nat.cast_ofNat, Nat.cast_ofNat, ← h]
    exact x.absolute_mul_one
  have hbelow : unitsOf 0x7FEFFFFFFFFFFFFB < unitsOf x.magnitude :=
    lt_of_lt_of_eq (by decide +kernel) hunits
  have habove : unitsOf x.magnitude < unitsOf (0x7FEFFFFFFFFFFFFB + 1) :=
    lt_of_eq_of_lt hunits.symm (by decide +kernel)
  rw [unitsOf_strictMono.lt_iff_lt] at hbelow habove
  omega

/-- Overflow begins between the two decimals around that middle. -/
theorem overflow_between : (179769313486231 * 10 ^ 294 : ℚ) < 2 ^ 1024 - 2 ^ 970 ∧
    (2 ^ 1024 - 2 ^ 970 : ℚ) ≤ (179769313486231 + 1) * 10 ^ 294 := by
  rw [lt_sub_iff_add_lt, sub_le_iff_le_add]
  constructor
  · exact_mod_cast (by decide +kernel : 179769313486231 * 10 ^ 294 + 2 ^ 970 < 2 ^ 1024)
  · exact_mod_cast (by decide +kernel : 2 ^ 1024 ≤ (179769313486231 + 1) * 10 ^ 294 + 2 ^ 970)

/-- Below the highest decade of doubles, the doubles and their decimals stay below it. -/
theorem significant_le_top (h : x.units = 0 ∨ decade x.units one < 308) :
    x.absolute ≤ 10 ^ 14 * 10 ^ 294 ∧ (x.significant 15).absolute ≤ 10 ^ 14 * 10 ^ 294 := by
  by_cases hz : x.units = 0
  · rw [absolute, significant_of_zero hz, Decimal.absolute, hz, Nat.cast_zero, zero_div, zero_mul,
      and_self]
    positivity
  · have hend : (10 : ℚ) ^ (decade x.units one + 1) ≤ 10 ^ 14 * 10 ^ 294 := by
      rw [← pow_add, ← zpow_natCast]
      exact zpow_le_zpow_right₀ (by norm_num) (h.resolve_left hz)
    refine ⟨(decade_spec hz).2.le.trans hend, le_trans ?_ hend⟩
    rw [(significant_spec (p := 15) (by decide) hz).2, (decade_eq (p := 15) (by decide) x).2]
    exact mul_le_mul_of_nonneg_right (by exact_mod_cast (rounded_bounds (by decide) hz).2)
      (ten_zpow_pos _).le

/-- In the highest decade the last of fifteen places is that of `10 ^ 294`. -/
theorem lastPlace_top (hf : x.isFinite) (hz : x.units ≠ 0) (h : 308 ≤ decade x.units one) :
    x.lastPlace 15 = (294 : ℕ) := by
  have hstart := (decade_spec hz).1
  have hpos := (ten_zpow_pos _).trans_le hstart
  have hx := (lt_two_mul_self hpos).trans (absolute_range hf hz).2
  have := ten_zpow_lt_iff.mp (hstart.trans_lt hx)
  rw [lastPlace]
  omega

/-- Only the doubles above that middle have a decimal that overflows. -/
theorem overflow_significant_iff (hf : x.isFinite) :
    2 ^ 1024 - 2 ^ 970 ≤ (x.significant 15).absolute ↔
      1797693134862315 * 10 ^ 293 < x.absolute := by
  obtain ⟨hlow, hhigh⟩ := overflow_between
  have hne := x.absolute_ne_tie
  have htie : (1797693134862315 * 10 ^ 293 : ℚ) = (179769313486231 + 1 / 2) * 10 ^ 294 := by
    rw [pow_succ (10 : ℚ) 293]
    generalize (10 : ℚ) ^ 293 = g
    ring
  have hten : (0 : ℚ) < 10 ^ 294 := by positivity
  rw [htie] at hne ⊢
  clear htie
  generalize (2 : ℚ) ^ 1024 - 2 ^ 970 = overflow at *
  by_cases hlower : x.units = 0 ∨ decade x.units one < 308
  · obtain ⟨hx, ht⟩ := significant_le_top hlower
    generalize (10 : ℚ) ^ 294 = h at *
    exact iff_of_false (by linarith) (by linarith)
  · rw [not_or, not_lt] at hlower
    obtain ⟨hz, hdecade⟩ := hlower
    have hle := abs_le.mp (abs_significant_sub_le (p := 15) (by decide) hz)
    rw [(significant_spec (p := 15) (by decide) hz).2, lastPlace_top hf hz hdecade, zpow_natCast]
      at hle ⊢
    generalize (10 : ℚ) ^ 294 = h at *
    -- a decimal above the lower one of the two is the higher one, or lies above that
    have hnext (hlt : 179769313486231 * h < x.rounded 15 * h) :
        (179769313486231 + 1) * h ≤ x.rounded 15 * h := by
      have hk : 179769313486231 < x.rounded 15 := by
        exact_mod_cast lt_of_mul_lt_mul_right hlt hten.le
      exact mul_le_mul_of_nonneg_right (by exact_mod_cast hk) hten.le
    constructor
    · intro hover
      have := hnext (hlow.trans_le hover)
      exact lt_of_le_of_ne (by linarith) hne.symm
    · intro hover
      exact hhigh.trans (hnext (by linarith))

end Binary64

/-! ### Texts -/

namespace Decimal

theorem toBinary64?_congr {t t' : Decimal} (hsign : t.negative = t'.negative)
    (habs : t.absolute = t'.absolute) : t.toBinary64? = t'.toBinary64? := by
  simp only [toBinary64?, hsign, nearestMagnitude_congr habs]

end Decimal

namespace Literal
open Decimal

variable {t : Text} {d : Decimal} {x : Binary64}

theorem toDouble_of_read? (h : read? t = some d) (fallback : Binary64) :
    toDouble fallback t = d.toBinary64?.getD fallback := by
  rw [toDouble, h]

/-- A literal that is read falls back just where it is too large. -/
theorem toDouble_fallback_iff (h : read? t = some d) :
    (∀ fallback, toDouble fallback t = fallback) ↔ 2 ^ 1024 - 2 ^ 970 ≤ d.absolute := by
  rw [← toBinary64?_eq_none_iff]
  simp only [toDouble_of_read? h]
  constructor
  · intro h
    by_contra hsome
    obtain ⟨y, hy⟩ := Option.ne_none_iff_exists'.mp hsome
    simp only [hy, Option.getD_some] at h
    exact absurd ((h ⟨0⟩).symm.trans (h ⟨1⟩)) (by decide)
  · intro h fallback
    rw [h, Option.getD_none]

/-- Otherwise it is a finite double, with its sign and the nearest magnitude. -/
theorem exists_toDouble (h : read? t = some d) (hd : d.absolute < 2 ^ 1024 - 2 ^ 970) :
    ∃ x, (∀ fallback, toDouble fallback t = x) ∧ x.isFinite ∧ x.negative = d.negative ∧
      x.magnitude = d.nearestMagnitude := by
  obtain ⟨x, hx, hspec⟩ := exists_toBinary64? hd
  exact ⟨x, fun fallback => by rw [toDouble_of_read? h, hx, Option.getD_some], hspec⟩

theorem ofDouble_of_isFinite (hf : x.isFinite) : Json.ofDouble x = .ok (.number (general x)) :=
  if_pos hf

theorem readsAs_general (x : Binary64) :
    ReadsAs (general x) x.negative (x.significant 15).absolute := by
  have h := readsAs_write generalLayout (x.significant 15)
  rwa [Binary64.negative_significant (by decide)] at h

/-- **Fifteen digits survive.**  A literal that has no more than fifteen digits and lies in the
range of the normal doubles is read as a double whose text has the very value of the literal; all
literals of that value are read so, and get the same text. -/
theorem general_toDouble {c : ℕ} {e : ℤ} (hread : read? t = some d) (hdigits : c < 10 ^ 15)
    (hvalue : |d.value| = c * 10 ^ e) (hlow : 2 ^ (-1022 : ℤ) ≤ |d.value|)
    (hhigh : |d.value| < 2 ^ 1024 - 2 ^ 970) (fallback : Binary64) :
    ∃ s d', Json.ofDouble (toDouble fallback t) = .ok (.number s) ∧
      read? s = some d' ∧ d'.value = d.value ∧
      ∀ t' d'' fallback', read? t' = some d'' → d''.value = d.value →
        Json.ofDouble (toDouble fallback' t') = .ok (.number s) := by
  rw [abs_value] at hvalue hlow hhigh
  obtain ⟨x, hx, hf, hsign, hmagnitude⟩ := exists_toBinary64? hhigh
  have hunits : 2 ^ 52 ≤ d.absolute * Binary64.one := by
    have := mul_le_mul_of_nonneg_right hlow Binary64.one_pos.le
    rwa [Binary64.one_eq_zpow, ← zpow_add₀ two_ne_zero, ← Binary64.one_eq_zpow] at this
  have habs := Binary64.significant_of_read hmagnitude hdigits hvalue hunits hhigh
  obtain ⟨d', hread', hsign', habs'⟩ := readsAs_general x
  rw [toDouble_of_read? hread, hx, Option.getD_some]
  refine ⟨general x, d', ofDouble_of_isFinite hf, hread', ?_, ?_⟩
  · rw [value, value, hsign', habs', habs, hsign]
  · intro t' d'' fallback' hread'' hvalue''
    have hpos : 0 < d.absolute := (zpow_pos two_pos _).trans_le hlow
    obtain ⟨hsign'', habs''⟩ := eq_of_value_eq hpos hvalue''
    rw [toDouble_of_read? hread'', toBinary64?_congr hsign'' habs'', hx]
    exact ofDouble_of_isFinite hf

/-- The double nearest to `10 ^ 23` lies in the decade below. -/
theorem general_toDouble_power :
    read? (Text.ofString "1e23") = some ⟨false, 1, 23⟩ ∧
      (toDouble .zero (Text.ofString "1e23")).absolute < 10 ^ 23 ∧
      ∃ s d', Json.ofDouble (toDouble .zero (Text.ofString "1e23")) = .ok (.number s) ∧
        read? s = some d' ∧ d'.value = (⟨false, 1, 23⟩ : Decimal).value ∧
        Json.ofDouble (toDouble .zero (Text.ofString "+1000E20")) = .ok (.number s) := by
  have hread : read? (Text.ofString "1e23") = some ⟨false, 1, 23⟩ := by decide +kernel
  have hread' : read? (Text.ofString "+1000E20") = some ⟨false, 1000, 20⟩ := by decide +kernel
  have hvalue : |(⟨false, 1, 23⟩ : Decimal).value| = (1 : ℕ) * 10 ^ (23 : ℤ) := by
    rw [abs_value]
    rfl
  have hone : (1 : ℚ) ≤ (1 : ℕ) * 10 ^ (23 : ℤ) := by norm_num
  have hlow : (2 : ℚ) ^ (-1022 : ℤ) ≤ |(⟨false, 1, 23⟩ : Decimal).value| := by
    rw [hvalue]
    exact (zpow_lt_one_of_neg₀ (by norm_num) (by norm_num)).le.trans hone
  have hhigh : |(⟨false, 1, 23⟩ : Decimal).value| < 2 ^ 1024 - 2 ^ 970 := by
    rw [hvalue, lt_sub_iff_add_lt]
    exact_mod_cast (by decide +kernel : 1 * 10 ^ 23 + 2 ^ 970 < 2 ^ 1024)
  have hbelow : (toDouble .zero (Text.ofString "1e23")).absolute < 10 ^ 23 := by
    rw [Binary64.absolute, div_lt_iff₀ Binary64.one_pos]
    exact_mod_cast (by decide +kernel :
      (toDouble .zero (Text.ofString "1e23")).units < 10 ^ 23 * Binary64.one)
  obtain ⟨s, d', hnumber, hs, hd', hsame⟩ :=
    general_toDouble hread (by decide) hvalue hlow hhigh .zero
  refine ⟨hread, hbelow, s, d', hnumber, hs, hd', hsame _ _ .zero hread' ?_⟩
  simp only [value, absolute]
  norm_num

/-- **One rounding settles the text.**  The text of a finite double is a literal.  Reading it gives
the fallback exactly if its value lies no lower than the middle between the largest double and
`2 ^ 1024`, which is so only for doubles above `1.797693134862315e308`; every other text is read as
a double that is written in the same way, that of either zero too. -/
theorem toDouble_general (hf : x.isFinite) :
    ∃ s d, Json.ofDouble x = .ok (.number s) ∧ read? s = some d ∧
      ((∀ fallback, toDouble fallback s = fallback) ↔ 2 ^ 1024 - 2 ^ 970 ≤ |d.value|) ∧
      (2 ^ 1024 - 2 ^ 970 ≤ |d.value| ↔ 1797693134862315 * 10 ^ 293 < x.absolute) ∧
      (|d.value| < 2 ^ 1024 - 2 ^ 970 →
        ∃ y, (∀ fallback, toDouble fallback s = y) ∧ Json.ofDouble y = .ok (.number s)) := by
  obtain ⟨d, hread, hsign, habs⟩ := readsAs_general x
  refine ⟨general x, d, ofDouble_of_isFinite hf, hread, ?_, ?_, ?_⟩
  · rw [abs_value]
    exact toDouble_fallback_iff hread
  · rw [abs_value, habs]
    exact Binary64.overflow_significant_iff hf
  · intro hhigh
    rw [abs_value] at hhigh
    obtain ⟨y, hy, hf', hsign', hmagnitude⟩ := exists_toDouble hread hhigh
    refine ⟨y, hy, ?_⟩
    rw [habs] at hhigh
    rw [nearestMagnitude_congr habs] at hmagnitude
    have hnegative := hsign'.trans hsign
    have hsame : general y = general x := by
      refine write_congr ?_
        (Binary64.significant_of_reread hf hhigh hnegative hmagnitude) generalLayout
      rw [Binary64.negative_significant (by decide), Binary64.negative_significant (by decide),
        hnegative]
    rw [← hsame]
    exact ofDouble_of_isFinite hf'

/-- The first double from `10 ^ -309` up, and the largest one. -/
theorem toDouble_general_ends :
    (⟨202402253307311⟩ : Binary64).isFinite ∧ (⟨0x7FEFFFFFFFFFFFFF⟩ : Binary64).isFinite ∧
      Json.ofDouble ⟨202402253307311⟩ = .ok (.number (Text.ofString "1e-309")) ∧
      (∃ y, (∀ fallback, toDouble fallback (Text.ofString "1e-309") = y) ∧
        Json.ofDouble y = .ok (.number (Text.ofString "1e-309"))) ∧
      Json.ofDouble ⟨0x7FEFFFFFFFFFFFFF⟩ =
        .ok (.number (Text.ofString "1.79769313486232e+308")) ∧
      ∀ fallback, toDouble fallback (Text.ofString "1.79769313486232e+308") = fallback := by
  have hf : (⟨202402253307311⟩ : Binary64).isFinite := by decide +kernel
  have hf' : (⟨0x7FEFFFFFFFFFFFFF⟩ : Binary64).isFinite := by decide +kernel
  have htext : general ⟨202402253307311⟩ = Text.ofString "1e-309" := by decide +kernel
  have htext' : general ⟨0x7FEFFFFFFFFFFFFF⟩ = Text.ofString "1.79769313486232e+308" := by
    decide +kernel
  obtain ⟨s, d, hs, hread, -, -, hback⟩ := toDouble_general hf
  obtain ⟨s', d', hs', hread', hover, -, -⟩ := toDouble_general hf'
  obtain rfl := Json.number.inj (Except.ok.inj ((ofDouble_of_isFinite hf).symm.trans hs))
  obtain rfl := Json.number.inj (Except.ok.inj ((ofDouble_of_isFinite hf').symm.trans hs'))
  rw [htext] at hs hread hback
  rw [htext'] at hs' hread' hover
  have hd : read? (Text.ofString "1e-309") = some ⟨false, 1, -309⟩ := by decide +kernel
  have hd' : read? (Text.ofString "1.79769313486232e+308") =
      some ⟨false, 179769313486232, 294⟩ := by decide +kernel
  obtain rfl := Option.some.inj (hread.symm.trans hd)
  obtain rfl := Option.some.inj (hread'.symm.trans hd')
  refine ⟨hf, hf', hs, hback ?_, hs', hover.mpr ?_⟩
  · rw [abs_value, absolute, Nat.cast_one, one_mul]
    exact (zpow_lt_one_of_neg₀ (by norm_num) (by norm_num)).trans one_lt_overflow
  · have hsucc : ((179769313486232 : ℕ) : ℚ) = 179769313486231 + 1 := by norm_num
    rw [abs_value, absolute, hsucc]
    exact Binary64.overflow_between.2.trans_eq (by rw [← zpow_natCast]; rfl)

end Literal

end JsonDocument
