import Mathlib.Algebra.Order.Field.Rat
import Mathlib.Algebra.Order.Ring.Abs
import Mathlib.Tactic.FieldSimp
import Mathlib.Tactic.Linarith
import Mathlib.Tactic.Ring
import JsonDocument.Number.Binary64

/-!
# Proofs — Number — rounded quotients

A quotient is rounded to the nearest whole number, and half a number to the even neighbour or to the
larger one.  On a grid of multiples of `s` the same is said by `NearestMultiple`, which compares
with every multiple and says nothing of how the quotient was formed.

* `roundDiv_bounds`, `even_roundDiv`: no more than a half away, and even at a half.
* `nearestMultiple_roundDiv`: the multiple nearest to a number.
* `roundDiv_eq_of_up`: the tie to the even number, got from the tie to the larger one.
-/

namespace JsonDocument

variable {n d : ℕ}

/-! ### Ties to the even number -/

/-- The whole part, as the rest is less than a half; or one more, as it is greater; or at a half the
even one of the two. -/
theorem roundDiv_cases (n d : ℕ) :
    (2 * (n % d) < d ∧ roundDiv n d = n / d) ∨ (d < 2 * (n % d) ∧ roundDiv n d = n / d + 1) ∨
      (2 * (n % d) = d ∧ Even (roundDiv n d) ∧
        (roundDiv n d = n / d ∨ roundDiv n d = n / d + 1)) := by
  simp only [roundDiv, Nat.even_iff]
  split
  · next h => exact .inl ⟨h, rfl⟩
  · split
    · next h => exact .inr (.inl ⟨h, rfl⟩)
    · exact .inr (.inr (by omega))

theorem roundDiv_eq_or (n d : ℕ) : roundDiv n d = n / d ∨ roundDiv n d = n / d + 1 := by
  rcases roundDiv_cases n d with ⟨-, h⟩ | ⟨-, h⟩ | ⟨-, -, h⟩
  · exact .inl h
  · exact .inr h
  · exact h

/-- No more than a half is lost or gained. -/
theorem roundDiv_bounds (hd : 0 < d) :
    2 * n ≤ 2 * (roundDiv n d * d) + d ∧ 2 * (roundDiv n d * d) ≤ 2 * n + d := by
  have hn := Nat.div_add_mod' n d
  have hr := Nat.mod_lt n hd
  have hsucc : (n / d + 1) * d = n / d * d + d := Nat.succ_mul ..
  rcases roundDiv_cases n d with ⟨h, hk⟩ | ⟨h, hk⟩ | ⟨h, -, hk | hk⟩ <;> rw [hk] <;> omega

/-- At a half the result is even. -/
theorem even_roundDiv (hd : 0 < d)
    (h : 2 * n = 2 * (roundDiv n d * d) + d ∨ 2 * (roundDiv n d * d) = 2 * n + d) :
    Even (roundDiv n d) := by
  have hn := Nat.div_add_mod' n d
  have hr := Nat.mod_lt n hd
  have hsucc : (n / d + 1) * d = n / d * d + d := Nat.succ_mul ..
  rcases roundDiv_cases n d with ⟨h', hk⟩ | ⟨h', hk⟩ | ⟨-, heven, -⟩
  · rw [hk] at h
    omega
  · rw [hk] at h
    omega
  · exact heven

theorem le_roundDiv (hd : 0 < d) {a : ℕ} (h : a * d ≤ n) : a ≤ roundDiv n d := by
  have hle : a ≤ n / d := (Nat.le_div_iff_mul_le hd).mpr h
  rcases roundDiv_eq_or n d with hk | hk <;> omega

theorem roundDiv_le (hd : 0 < d) {a : ℕ} (h : n ≤ a * d) : roundDiv n d ≤ a := by
  have hhigh := (roundDiv_bounds (n := n) hd).2
  refine Nat.le_of_lt_succ (Nat.lt_of_mul_lt_mul_right (a := d) ?_)
  rw [Nat.succ_mul]
  omega

/-- Only the ratio counts. -/
theorem roundDiv_mul_right {k : ℕ} (hk : 0 < k) (n d : ℕ) :
    roundDiv (n * k) (d * k) = roundDiv n d := by
  have h₁ : 2 * (n % d * k) < d * k ↔ 2 * (n % d) < d := by
    rw [← mul_assoc, Nat.mul_lt_mul_right hk]
  have h₂ : d * k < 2 * (n % d * k) ↔ d < 2 * (n % d) := by
    rw [← mul_assoc, Nat.mul_lt_mul_right hk]
  simp only [roundDiv, Nat.mul_div_mul_right _ _ hk, Nat.mul_mod_mul_right, h₁, h₂]

/-! ### Multiples on a grid -/

/-- Of the multiples of `s` the one by `k` is nearest to `q`; where another one is as near, `k` is
even. -/
def NearestMultiple (s q : ℚ) (k : ℕ) : Prop :=
  ∀ j : ℤ, j ≠ k → |k * s - q| < |j * s - q| ∨ (|k * s - q| = |j * s - q| ∧ Even k)

/-- No multiple is nearer. -/
theorem NearestMultiple.le {s q : ℚ} {k : ℕ} (h : NearestMultiple s q k) (j : ℤ) :
    |k * s - q| ≤ |j * s - q| := by
  rcases eq_or_ne j k with rfl | hj
  · rw [Int.cast_natCast]
  · exact (h j hj).elim le_of_lt fun h => h.1.le

/-- What lies below a multiple that is no larger than `q` is further from it. -/
theorem NearestMultiple.lt_of_lt {s q v : ℚ} {k : ℕ} (h : NearestMultiple s q k) {j : ℤ}
    (hv : v < j * s) (hj : j * s ≤ q) : |k * s - q| < |v - q| := by
  refine (h.le j).trans_lt ?_
  rw [abs_of_nonpos (by linarith), abs_of_neg (by linarith)]
  linarith

/-- A multiple less than half of `s` away is the nearest one. -/
theorem NearestMultiple.eq_of_near {s q : ℚ} {k : ℕ} (h : NearestMultiple s q k) {j : ℤ}
    (hj : 2 * |j * s - q| < s) : j = k := by
  by_contra hne
  have hs : 0 < s := (by positivity : 0 ≤ 2 * |j * s - q|).trans_lt hj
  have hgap : s ≤ |j * s - k * s| := by
    rw [← sub_mul, abs_mul, abs_of_pos hs]
    exact le_mul_of_one_le_left hs.le (by exact_mod_cast Int.one_le_abs (sub_ne_zero.mpr hne))
  have htri := abs_sub_le (j * s) q (k * s)
  rw [abs_sub_comm q] at htri
  linarith [h.le j]

/-- A rounded quotient is nearer to the quotient than any other whole number, or even. -/
theorem nearest_roundDiv (hd : 0 < d) {j : ℤ} (hj : j ≠ roundDiv n d) :
    |(roundDiv n d : ℤ) * d - n| < |j * d - n| ∨
      (|(roundDiv n d : ℤ) * d - n| = |j * d - n| ∧ Even (roundDiv n d)) := by
  obtain ⟨hlow, hhigh⟩ := roundDiv_bounds (n := n) hd
  have heven := even_roundDiv (n := n) hd
  generalize roundDiv n d = k at *
  zify at hlow hhigh heven
  have hk : 2 * |(k : ℤ) * d - n| ≤ d := by
    rw [← abs_two, ← abs_mul, abs_le]
    constructor <;> linarith
  -- another whole number is a whole denominator away from this one
  have hgap : (d : ℤ) ≤ |j * d - k * d| := by
    rw [← sub_mul, abs_mul, Nat.abs_cast]
    exact le_mul_of_one_le_left (Int.natCast_nonneg d) (Int.one_le_abs (sub_ne_zero.mpr hj))
  have htri : |j * d - k * d| ≤ |j * d - n| + |(k : ℤ) * d - n| := by
    have := abs_sub_le (j * d) (n : ℤ) (k * d)
    rwa [abs_sub_comm (n : ℤ)] at this
  rcases lt_or_eq_of_le (show |(k : ℤ) * d - n| ≤ |j * d - n| by linarith) with h | h
  · exact .inl h
  · refine .inr ⟨h, ?_⟩
    have hhalf : 2 * |(k : ℤ) * d - n| = d := by linarith
    rcases abs_cases ((k : ℤ) * d - n) with ⟨habs, -⟩ | ⟨habs, -⟩ <;> rw [habs] at hhalf
    · exact heven (.inr (by linarith))
    · exact heven (.inl (by linarith))

/-- The multiple nearest to `q`, if the quotient is how often `s` goes into `q`. -/
theorem nearestMultiple_roundDiv (hd : 0 < d) {s q : ℚ} (hs : 0 < s) (hq : (n : ℚ) * s = q * d) :
    NearestMultiple s q (roundDiv n d) := by
  intro j hj
  have hd' : (0 : ℚ) < d := by exact_mod_cast hd
  have hscale : ∀ i : ℤ, |(i : ℚ) * s - q| = (|i * d - n| : ℤ) * (s / d) := by
    intro i
    have hi : (i : ℚ) * s - q = (i * d - n : ℤ) * (s / d) := by
      push_cast
      field_simp
      linarith
    rw [hi, abs_mul, abs_of_pos (div_pos hs hd'), Int.cast_abs]
  have hk := hscale (roundDiv n d)
  rw [Int.cast_natCast] at hk
  rw [hk, hscale j]
  have hpos : 0 < s / d := div_pos hs hd'
  rcases nearest_roundDiv hd hj with h | ⟨h, heven⟩
  · exact .inl ((mul_lt_mul_iff_left₀ hpos).mpr (by exact_mod_cast h))
  · exact .inr ⟨by rw [h], heven⟩

/-- The nearest multiple is no more than half of `s` away. -/
theorem abs_roundDiv_sub_le (hd : 0 < d) {s q : ℚ} (hs : 0 < s) (hq : (n : ℚ) * s = q * d) :
    |roundDiv n d * s - q| ≤ s / 2 := by
  obtain ⟨hlow, hhigh⟩ := roundDiv_bounds (n := n) hd
  have hd' : (0 : ℚ) < d := by exact_mod_cast hd
  have hlow' : 2 * (n : ℚ) ≤ 2 * (roundDiv n d * d) + d := by exact_mod_cast hlow
  have hhigh' : 2 * (roundDiv n d * d : ℚ) ≤ 2 * n + d := by exact_mod_cast hhigh
  rw [abs_le]
  constructor
  · have := mul_le_mul_of_nonneg_right hlow' hs.le
    nlinarith
  · have := mul_le_mul_of_nonneg_right hhigh' hs.le
    nlinarith

/-! ### Ties to the larger number -/

theorem roundDivUp_eq (hd : 0 < d) :
    roundDivUp n d = if 2 * (n % d) < d then n / d else n / d + 1 := by
  have hn := Nat.div_add_mod' n d
  have hr := Nat.mod_lt n hd
  have hsucc : (n / d + 1) * d = n / d * d + d := Nat.succ_mul ..
  have hsucc' : (n / d + 1 + 1) * d = (n / d + 1) * d + d := Nat.succ_mul ..
  rw [roundDivUp]
  split
  · refine Nat.div_eq_of_lt_le ?_ ?_ <;> rw [Nat.mul_left_comm] <;> omega
  · refine Nat.div_eq_of_lt_le ?_ ?_ <;> rw [Nat.mul_left_comm] <;> omega

/-- The tie to the even number is the tie to the larger one, less one where that is odd and the
quotient lies halfway below it. -/
theorem roundDiv_eq_of_up (hd : 0 < d) :
    roundDiv n d =
      if roundDivUp n d % 2 = 1 ∧ 2 * n = (2 * roundDivUp n d - 1) * d then roundDivUp n d - 1
      else roundDivUp n d := by
  have hn := Nat.div_add_mod' n d
  rw [roundDivUp_eq hd]
  simp only [roundDiv]
  generalize n / d = q at *
  split
  · next h =>
      -- a tie below the quotient would leave more than half a number
      refine (if_neg fun ⟨hodd, htie⟩ => ?_).symm
      have hle : d ≤ q * d := Nat.le_mul_of_pos_left d (by omega)
      rw [Nat.sub_one_mul, mul_assoc] at htie
      omega
  · next h =>
      have hsucc : (q + 1) * d = q * d + d := Nat.succ_mul ..
      have htie : 2 * n = (2 * (q + 1) - 1) * d ↔ 2 * (n % d) = d := by
        rw [Nat.sub_one_mul, mul_assoc, hsucc]
        omega
      simp only [htie]
      split <;> split <;> omega

end JsonDocument
