import Mathlib.Algebra.Order.Field.Power
import Mathlib.Algebra.Order.Field.Rat
import Mathlib.Data.Nat.Cast.Order.Field
import Mathlib.Tactic.FieldSimp
import Mathlib.Tactic.Linarith
import Mathlib.Tactic.Positivity
import Mathlib.Tactic.Ring
import JsonDocument.Number.Binary64

/-!
# Proofs — Number — exact values

What a decimal and a double are worth, as rational numbers, and between which powers of ten they
lie.

* `Decimal.absolute`, `Binary64.absolute`: absolute values.
* `zpow_decade_le`, `lt_zpow_decade`: the decade of a fraction.
* `Decimal.zpow_le_absolute`, `Decimal.absolute_lt_zpow`: the decade of a decimal from its digits.
* `onGrid_ratio`, `Decimal.fraction_ratio`: fractions that stand for scaled values.
* `onGrid_le_iff`, `le_onGrid_iff`: comparisons on a grid, as whole numbers.
-/

namespace JsonDocument

variable {n d : ℕ}

/-- The absolute value of a decimal. -/
def Decimal.absolute (t : Decimal) : ℚ := t.coefficient * 10 ^ t.exponent

/-- The absolute value of a finite double. -/
def Binary64.absolute (x : Binary64) : ℚ := x.units / Binary64.one

/-! ### Powers of two and ten -/

theorem one_shiftLeft_eq (k : ℕ) : 1 <<< k = 2 ^ k := Nat.one_shiftLeft k

theorem Binary64.one_eq : one = 2 ^ 1074 := one_shiftLeft_eq 1074

theorem Binary64.infinity_eq : infinity = 2047 * 2 ^ 52 := by rw [infinity, Nat.shiftLeft_eq]

theorem ten_zpow_pos (e : ℤ) : (0 : ℚ) < 10 ^ e := zpow_pos (by norm_num) e

theorem cast_natPow (b k : ℕ) : ((Nat.pow b k : ℕ) : ℚ) = (b : ℚ) ^ k := by
  rw [Nat.pow_eq, Nat.cast_pow]

/-- A power as a quotient of powers with natural exponents. -/
theorem zpow_mul_toNat {b : ℚ} (hb : b ≠ 0) (e : ℤ) : b ^ e * b ^ (-e).toNat = b ^ e.toNat := by
  rw [← zpow_natCast, ← zpow_natCast, ← zpow_add₀ hb]
  congr 1
  omega

theorem ten_zpow_mul (e : ℤ) : (10 : ℚ) ^ e * 10 ^ (-e).toNat = 10 ^ e.toNat :=
  zpow_mul_toNat (by norm_num) e

theorem ten_zpow_lt_iff {a b : ℤ} : (10 : ℚ) ^ a < 10 ^ b ↔ a < b :=
  zpow_lt_zpow_iff_right₀ (by norm_num)

/-! ### Numbers of digits -/

theorem digitCount_le_iff {k : ℕ} (hk : 0 < k) : Decimal.digitCount n ≤ k ↔ n < 10 ^ k :=
  Nat.length_toDigits_le_iff (by norm_num) hk

theorem digitCount_pos (n : ℕ) : 0 < Decimal.digitCount n := Nat.length_toDigits_pos

theorem lt_pow_digitCount (n : ℕ) : n < 10 ^ Decimal.digitCount n :=
  (digitCount_le_iff (digitCount_pos n)).mp le_rfl

theorem pow_digitCount_le (hn : n ≠ 0) : 10 ^ (Decimal.digitCount n - 1) ≤ n := by
  have hpos := digitCount_pos n
  rcases Nat.eq_zero_or_pos (Decimal.digitCount n - 1) with h | h
  · rw [h, pow_zero]
    exact Nat.one_le_iff_ne_zero.mpr hn
  · refine Nat.le_of_not_lt fun hlt => ?_
    have := (digitCount_le_iff h).mpr hlt
    omega

theorem zpow_digitCount_le (hn : n ≠ 0) : (10 : ℚ) ^ ((Decimal.digitCount n : ℤ) - 1) ≤ n := by
  have hpos := digitCount_pos n
  rw [← Nat.cast_one, ← Nat.cast_sub hpos, zpow_natCast]
  exact_mod_cast pow_digitCount_le hn

theorem lt_zpow_digitCount (n : ℕ) : (n : ℚ) < 10 ^ (Decimal.digitCount n : ℤ) := by
  rw [zpow_natCast]
  exact_mod_cast lt_pow_digitCount n

/-! ### Decades -/

theorem zpow_decade_le (hn : 0 < n) (hd : 0 < d) : (10 : ℚ) ^ Binary64.decade n d ≤ n / d := by
  have hn' : (0 : ℚ) < n := by exact_mod_cast hn
  have hd' : (0 : ℚ) < d := by exact_mod_cast hd
  unfold Binary64.decade
  split
  · next h =>
      have hne : n / d ≠ 0 := (Nat.div_pos h hd).ne'
      exact (zpow_digitCount_le hne).trans Nat.cast_div_le
  · next h =>
      have hceil : d ≤ ((d - 1) / n + 1) * n := by
        have := Nat.lt_div_mul_add (a := d - 1) hn
        rw [Nat.succ_mul]
        omega
      have hle : (d - 1) / n + 1 ≤ 10 ^ Decimal.digitCount ((d - 1) / n) := lt_pow_digitCount _
      rw [zpow_neg, zpow_natCast, inv_eq_one_div, div_le_div_iff₀ (by positivity) hd', one_mul]
      calc (d : ℚ) ≤ ((d - 1) / n + 1 : ℕ) * n := by exact_mod_cast hceil
        _ ≤ (10 ^ Decimal.digitCount ((d - 1) / n) : ℕ) * n := by gcongr
        _ = n * 10 ^ Decimal.digitCount ((d - 1) / n) := by push_cast; ring

theorem lt_zpow_decade (hn : 0 < n) (hd : 0 < d) :
    (n : ℚ) / d < 10 ^ (Binary64.decade n d + 1) := by
  have hn' : (0 : ℚ) < n := by exact_mod_cast hn
  have hd' : (0 : ℚ) < d := by exact_mod_cast hd
  unfold Binary64.decade
  split
  · have hfloor : n < (n / d + 1) * d := by
      rw [Nat.succ_mul]
      exact Nat.lt_div_mul_add hd
    have hle : n / d + 1 ≤ 10 ^ Decimal.digitCount (n / d) := lt_pow_digitCount _
    rw [sub_add_cancel, zpow_natCast, div_lt_iff₀ hd']
    calc (n : ℚ) < (n / d + 1 : ℕ) * d := by exact_mod_cast hfloor
      _ ≤ (10 ^ Decimal.digitCount (n / d) : ℕ) * d := by gcongr
      _ = 10 ^ Decimal.digitCount (n / d) * d := by push_cast; rfl
  · next h =>
      have hne : (d - 1) / n ≠ 0 := (Nat.div_pos (by omega) hn).ne'
      have hfloor : (d - 1) / n * n < d := by
        have := Nat.div_mul_le_self (d - 1) n
        omega
      have hlow := zpow_digitCount_le hne
      rw [show -(Decimal.digitCount ((d - 1) / n) : ℤ) + 1
          = -((Decimal.digitCount ((d - 1) / n) : ℤ) - 1) by ring, zpow_neg, inv_eq_one_div,
        div_lt_div_iff₀ hd' (ten_zpow_pos _), one_mul, mul_comm]
      calc (10 : ℚ) ^ ((Decimal.digitCount ((d - 1) / n) : ℤ) - 1) * n
          ≤ ((d - 1) / n : ℕ) * n := by gcongr
        _ < d := by exact_mod_cast hfloor

namespace Decimal

theorem absolute_nonneg (t : Decimal) : 0 ≤ t.absolute :=
  mul_nonneg (Nat.cast_nonneg _) (ten_zpow_pos _).le

theorem coefficient_eq_zero_iff {t : Decimal} : t.coefficient = 0 ↔ t.absolute = 0 := by
  rw [absolute, mul_eq_zero, or_iff_left (ten_zpow_pos _).ne', Nat.cast_eq_zero]

theorem zpow_le_absolute {t : Decimal} (h : t.coefficient ≠ 0) :
    (10 : ℚ) ^ (t.exponent + digitCount t.coefficient - 1) ≤ t.absolute := by
  rw [absolute, add_sub_assoc, zpow_add₀ (by norm_num), mul_comm]
  exact mul_le_mul_of_nonneg_right (zpow_digitCount_le h) (ten_zpow_pos _).le

theorem absolute_lt_zpow (t : Decimal) :
    t.absolute < 10 ^ (t.exponent + digitCount t.coefficient) := by
  rw [absolute, zpow_add₀ (by norm_num), mul_comm]
  exact mul_lt_mul_of_pos_left (lt_zpow_digitCount _) (ten_zpow_pos _)

end Decimal

/-! ### Fractions -/

theorem onGrid_pos (g : ℤ) (hd : 0 < d) : 0 < (Binary64.onGrid g n d).2 :=
  Nat.mul_pos hd (Nat.pow_pos (by norm_num))

/-- How often `10 ^ g` goes into a fraction. -/
theorem onGrid_ratio (g : ℤ) (hd : 0 < d) :
    ((Binary64.onGrid g n d).1 : ℚ) * 10 ^ g = n / d * (Binary64.onGrid g n d).2 := by
  have hd' : (d : ℚ) ≠ 0 := by exact_mod_cast hd.ne'
  simp only [Binary64.onGrid, Nat.cast_mul, cast_natPow, Nat.cast_ofNat]
  rw [mul_assoc, mul_comm ((10 : ℚ) ^ _) (10 ^ g), ten_zpow_mul]
  field_simp

/-- Multiples of a fraction and of `10 ^ g`, as whole numbers on the grid. -/
theorem cast_mul_onGrid (g : ℤ) (hd : 0 < d) (a b : ℕ) :
    ((b * (Binary64.onGrid g n d).1 : ℕ) : ℚ) * 10 ^ g =
        b * (n / d) * (Binary64.onGrid g n d).2 ∧
      ((a * (Binary64.onGrid g n d).2 : ℕ) : ℚ) * 10 ^ g =
        a * 10 ^ g * (Binary64.onGrid g n d).2 := by
  constructor
  · rw [Nat.cast_mul, mul_assoc, onGrid_ratio g hd, mul_assoc]
  · rw [Nat.cast_mul, mul_right_comm]

theorem onGrid_le_iff (g : ℤ) (hd : 0 < d) (a b : ℕ) :
    b * (Binary64.onGrid g n d).1 ≤ a * (Binary64.onGrid g n d).2 ↔
      (b : ℚ) * (n / d) ≤ a * 10 ^ g := by
  have hden : (0 : ℚ) < (Binary64.onGrid g n d).2 := by exact_mod_cast onGrid_pos g hd
  obtain ⟨hn, hten⟩ := cast_mul_onGrid (n := n) g hd a b
  rw [← mul_le_mul_iff_left₀ hden, ← hn, ← hten, mul_le_mul_iff_left₀ (ten_zpow_pos g),
    Nat.cast_le]

theorem le_onGrid_iff (g : ℤ) (hd : 0 < d) (a b : ℕ) :
    a * (Binary64.onGrid g n d).2 ≤ b * (Binary64.onGrid g n d).1 ↔
      (a : ℚ) * 10 ^ g ≤ b * (n / d) := by
  have hden : (0 : ℚ) < (Binary64.onGrid g n d).2 := by exact_mod_cast onGrid_pos g hd
  obtain ⟨hn, hten⟩ := cast_mul_onGrid (n := n) g hd a b
  rw [← mul_le_mul_iff_left₀ hden, ← hn, ← hten, mul_le_mul_iff_left₀ (ten_zpow_pos g),
    Nat.cast_le]

theorem onGrid_eq_iff (g : ℤ) (hd : 0 < d) (a b : ℕ) :
    b * (Binary64.onGrid g n d).1 = a * (Binary64.onGrid g n d).2 ↔
      (b : ℚ) * (n / d) = a * 10 ^ g := by
  rw [le_antisymm_iff, le_antisymm_iff, onGrid_le_iff g hd, le_onGrid_iff g hd]

theorem Decimal.fraction_pos (t : Decimal) : 0 < t.fraction.2 := Nat.pow_pos (by norm_num)

theorem Decimal.fraction_ratio (t : Decimal) :
    (t.fraction.1 : ℚ) = t.absolute * t.fraction.2 := by
  simp only [fraction, absolute, Nat.cast_mul, cast_natPow, Nat.cast_ofNat]
  rw [mul_assoc, ten_zpow_mul]

end JsonDocument
