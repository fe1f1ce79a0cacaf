import Mathlib.Algebra.Ring.Parity
import JsonDocument.Proofs.Number.Rounding
import JsonDocument.Proofs.Number.Value

/-!
# Proofs — Number — the nearest double

Magnitudes are numbered in the order of their values.  A magnitude is `s · 2 ^ 52 + k`, where `k`
has 53 bits, or fewer if `s` is zero, and its value is `k · 2 ^ s` units (`unitsOf_eq`).

* `unitsOf_gap`: two values are apart by a `2 ^ 53`rd part of the larger one, or more.
* `nearest_isNearest`: no other magnitude is as near to a fraction, unless the one chosen is even.
* `Decimal.nearestMagnitude_cases`: so decimals are read, but for those out of range.
* `Decimal.nearestMagnitude_congr`: a decimal is read by its value, however it is written.
-/

namespace JsonDocument.Binary64

variable {m m' n d s k : ℕ}

/-! ### The values of magnitudes -/

theorem unitsOf_eq_ite (m : ℕ) :
    unitsOf m = if m / 2 ^ 52 = 0 then m else (2 ^ 52 + m % 2 ^ 52) * 2 ^ (m / 2 ^ 52 - 1) := by
  simp only [unitsOf, Nat.shiftLeft_eq, one_mul]

theorem unitsOf_eq (hk : k ≤ 2 ^ 53) (hs : s = 0 ∨ 2 ^ 52 ≤ k) :
    unitsOf (s * 2 ^ 52 + k) = k * 2 ^ s := by
  rw [unitsOf_eq_ite]
  rcases Nat.lt_or_ge k (2 ^ 52) with hlt | hge
  · obtain rfl : s = 0 := by omega
    rw [if_pos (by omega), pow_zero, mul_one, zero_mul, zero_add]
  · rw [if_neg (by omega)]
    rcases Nat.lt_or_eq_of_le hk with hlt | rfl
    · rw [show (s * 2 ^ 52 + k) / 2 ^ 52 - 1 = s by omega,
        show 2 ^ 52 + (s * 2 ^ 52 + k) % 2 ^ 52 = k by omega]
    · -- the first magnitude of the next binade
      rw [show (s * 2 ^ 52 + 2 ^ 53) / 2 ^ 52 - 1 = s + 1 by omega,
        show 2 ^ 52 + (s * 2 ^ 52 + 2 ^ 53) % 2 ^ 52 = 2 ^ 52 by omega]
      ring

/-- Every magnitude is of this form. -/
theorem exists_binade (m : ℕ) :
    ∃ s k, m = s * 2 ^ 52 + k ∧ k < 2 ^ 53 ∧ (s = 0 ∨ 2 ^ 52 ≤ k) := by
  rcases Nat.lt_or_ge m (2 ^ 52) with h | h
  · exact ⟨0, m, by omega, by omega, .inl rfl⟩
  · exact ⟨m / 2 ^ 52 - 1, m % 2 ^ 52 + 2 ^ 52, by omega, by omega, .inr (by omega)⟩

/-- Between two values lies a `2 ^ 53`rd part of the larger one at least. -/
theorem unitsOf_gap (h : m < m') : unitsOf m' + 2 ^ 53 * unitsOf m ≤ 2 ^ 53 * unitsOf m' := by
  obtain ⟨s, k, rfl, hk, hs⟩ := exists_binade m
  obtain ⟨s', k', rfl, hk', hs'⟩ := exists_binade m'
  rw [unitsOf_eq hk.le hs, unitsOf_eq hk'.le hs']
  rcases Nat.lt_trichotomy s s' with hlt | rfl | hgt
  · -- the larger value is in a higher binade
    obtain ⟨t, rfl⟩ := Nat.exists_eq_add_of_lt hlt
    have hk₂ : 2 ^ 52 ≤ k' := by omega
    have hbinade : 2 ^ 53 * 2 ^ s ≤ k' * 2 ^ (s + t + 1) := by
      calc 2 ^ 53 * 2 ^ s = 2 ^ 52 * 2 ^ (s + 1) := by ring
        _ ≤ k' * 2 ^ (s + t + 1) :=
            Nat.mul_le_mul hk₂ (Nat.pow_le_pow_right two_pos (by omega))
    have hlast : k * 2 ^ s ≤ (2 ^ 53 - 1) * 2 ^ s := Nat.mul_le_mul_right _ (by omega)
    rw [Nat.sub_one_mul] at hlast
    omega
  · have hkk : k + 1 ≤ k' := by omega
    calc k' * 2 ^ s + 2 ^ 53 * (k * 2 ^ s) = (k' + 2 ^ 53 * k) * 2 ^ s := by ring
      _ ≤ 2 ^ 53 * k' * 2 ^ s := Nat.mul_le_mul_right _ (by omega)
      _ = 2 ^ 53 * (k' * 2 ^ s) := by ring
  · omega

theorem unitsOf_eq_zero_iff : unitsOf m = 0 ↔ m = 0 := by
  obtain ⟨s, k, rfl, hk, hs⟩ := exists_binade m
  rw [unitsOf_eq hk.le hs, Nat.mul_eq_zero, or_iff_left (by positivity)]
  omega

/-- Magnitudes are in the order of their values. -/
theorem unitsOf_strictMono : StrictMono unitsOf := by
  intro m m' h
  have hgap := unitsOf_gap h
  have hne : unitsOf m' ≠ 0 := by
    rw [Ne, unitsOf_eq_zero_iff]
    omega
  omega

/-- Magnitudes with values that are nearer than that are the same. -/
theorem eq_of_unitsOf_near (h : 2 ^ 53 * |(unitsOf m : ℚ) - unitsOf m'| < unitsOf m') : m = m' := by
  rcases Nat.lt_trichotomy m m' with hlt | heq | hgt
  · have hgap : (unitsOf m' : ℚ) + 2 ^ 53 * unitsOf m ≤ 2 ^ 53 * unitsOf m' := by
      exact_mod_cast unitsOf_gap hlt
    have hbelow := neg_abs_le ((unitsOf m : ℚ) - unitsOf m')
    linarith
  · exact heq
  · have hgap : (unitsOf m : ℚ) + 2 ^ 53 * unitsOf m' ≤ 2 ^ 53 * unitsOf m := by
      exact_mod_cast unitsOf_gap hgt
    have hmono : (unitsOf m' : ℚ) < unitsOf m := by exact_mod_cast unitsOf_strictMono hgt
    have habove := le_abs_self ((unitsOf m : ℚ) - unitsOf m')
    linarith

/-! ### The nearest magnitude -/

/-- The quotient leaves 53 bits, or fewer if nothing is taken off. -/
theorem roundDiv_bits (n : ℕ) (hd : 0 < d) :
    let s := (n / d).log2 - 52
    roundDiv n (d * 2 ^ s) ≤ 2 ^ 53 ∧ (s = 0 ∨ 2 ^ 52 * (d * 2 ^ s) ≤ n) := by
  intro s
  have hpos : 0 < d * 2 ^ s := by positivity
  have hfloor : n < (n / d + 1) * d := by
    rw [Nat.succ_mul]
    exact Nat.lt_div_mul_add hd
  constructor
  · refine roundDiv_le hpos ?_
    have hlog : n / d + 1 ≤ 2 ^ 53 * 2 ^ s := by
      rw [← pow_add]
      exact Nat.lt_log2_self.trans_le (Nat.pow_le_pow_right two_pos (by omega))
    calc n ≤ (n / d + 1) * d := hfloor.le
      _ ≤ 2 ^ 53 * 2 ^ s * d := Nat.mul_le_mul_right d hlog
      _ = 2 ^ 53 * (d * 2 ^ s) := by ring
  · rcases Nat.eq_zero_or_pos s with h | h
    · exact .inl h
    · have hne : n / d ≠ 0 := by
        intro hzero
        simp [s, hzero] at h
      have hlog : 2 ^ 52 * 2 ^ s ≤ n / d := by
        rw [← pow_add]
        exact (Nat.pow_le_pow_right two_pos (by omega)).trans (Nat.log2_self_le hne)
      refine .inr ?_
      calc 2 ^ 52 * (d * 2 ^ s) = 2 ^ 52 * 2 ^ s * d := by ring
        _ ≤ n / d * d := Nat.mul_le_mul_right d hlog
        _ ≤ n := Nat.div_mul_le_self n d

theorem nearest_eq (n d : ℕ) :
    nearest n d = ((n * one / d).log2 - 52) * 2 ^ 52 +
      roundDiv (n * one) (d * 2 ^ ((n * one / d).log2 - 52)) := by
  simp only [nearest, Nat.shiftLeft_eq]

/-- Values of a lower binade lie below the first value of this one. -/
theorem binade_lt {s' : ℕ} (hk : k < 2 ^ 53) (hs : s' < s) : k * 2 ^ s' < 2 ^ 52 * 2 ^ s := by
  calc k * 2 ^ s' < 2 ^ 53 * 2 ^ s' := Nat.mul_lt_mul_of_pos_right hk (by positivity)
    _ = 2 ^ 52 * 2 ^ (s' + 1) := by ring
    _ ≤ 2 ^ 52 * 2 ^ s := Nat.mul_le_mul_left _ (Nat.pow_le_pow_right two_pos hs)

/-- The nearest magnitude is worth the nearest multiple of a step of `2 ^ s` units.  The step is one
unit, or it goes into the fraction `2 ^ 52` times at least. -/
theorem exists_step (hd : 0 < d) {r : ℚ} (hr : (n : ℚ) = r * d) :
    ∃ s k, nearest n d = s * 2 ^ 52 + k ∧ unitsOf (nearest n d) = k * 2 ^ s ∧
      (s = 0 ∨ (2 ^ 52 * 2 ^ s : ℚ) ≤ r * one) ∧ NearestMultiple (2 ^ s) (r * one) k ∧
      |(k : ℚ) * 2 ^ s - r * one| ≤ 2 ^ s / 2 := by
  have hunits := nearest_eq n d
  obtain ⟨hbits, hfull⟩ := roundDiv_bits (n * one) hd
  generalize (n * one / d).log2 - 52 = s at hunits hbits hfull
  have hpos : 0 < d * 2 ^ s := by positivity
  have hratio : ((n * one : ℕ) : ℚ) * 2 ^ s = r * one * (d * 2 ^ s : ℕ) := by
    push_cast
    rw [hr]
    ring
  refine ⟨s, _, hunits, ?_, hfull.imp_right fun hle => ?_,
    nearestMultiple_roundDiv hpos (by positivity) hratio,
    abs_roundDiv_sub_le hpos (by positivity) hratio⟩
  · rw [hunits]
    exact unitsOf_eq hbits (hfull.imp_right (le_roundDiv hpos))
  · have hle : (2 ^ 52 * (d * 2 ^ s) : ℚ) ≤ n * one := by exact_mod_cast hle
    have hd' : (0 : ℚ) < d := by exact_mod_cast hd
    rw [hr] at hle
    refine le_of_mul_le_mul_right ?_ hd'
    linarith

/-- No other magnitude is as near to a fraction, unless the nearest one is even. -/
theorem nearest_isNearest (hd : 0 < d) {r : ℚ} (hr : (n : ℚ) = r * d) (hm : m ≠ nearest n d) :
    |(unitsOf (nearest n d) : ℚ) - r * one| < |(unitsOf m : ℚ) - r * one| ∨
      (|(unitsOf (nearest n d) : ℚ) - r * one| = |(unitsOf m : ℚ) - r * one| ∧
        Even (nearest n d)) := by
  obtain ⟨s, k₀, hunits, hvalue, hfirst, hgrid, -⟩ := exists_step hd hr
  have heven : Even k₀ → Even (nearest n d) := by
    intro h
    rw [hunits]
    exact (Even.mul_left (by decide) s).add h
  have hne : unitsOf m ≠ unitsOf (nearest n d) := unitsOf_strictMono.injective.ne hm
  obtain ⟨s', k, rfl, hk, hs'⟩ := exists_binade m
  rw [hvalue, unitsOf_eq hk.le hs'] at hne ⊢
  rw [Nat.cast_mul, Nat.cast_pow, Nat.cast_ofNat]
  rcases Nat.lt_or_ge s' s with hlt | hge
  · -- a value of a lower binade lies behind the first one of this binade
    have hbelow : ((k * 2 ^ s' : ℕ) : ℚ) < 2 ^ 52 * 2 ^ s := by exact_mod_cast binade_lt hk hlt
    have hfirst := hfirst.resolve_left (by omega)
    exact .inl (hgrid.lt_of_lt (j := 2 ^ 52) (by exact_mod_cast hbelow) (by exact_mod_cast hfirst))
  · -- a value on the grid
    obtain ⟨t, rfl⟩ := Nat.exists_eq_add_of_le hge
    have hj : ((k * 2 ^ t : ℕ) : ℤ) ≠ k₀ := by
      intro h
      rw [Nat.cast_inj] at h
      exact hne (by rw [← h]; ring)
    have hval : ((k * 2 ^ (s + t) : ℕ) : ℚ) = ((k * 2 ^ t : ℕ) : ℤ) * 2 ^ s := by
      push_cast
      ring
    rw [hval]
    exact (hgrid _ hj).imp_right fun ⟨h, hk⟩ => ⟨h, heven hk⟩

/-- No magnitude is nearer to a fraction. -/
theorem nearest_le (hd : 0 < d) {r : ℚ} (hr : (n : ℚ) = r * d) (m : ℕ) :
    |(unitsOf (nearest n d) : ℚ) - r * one| ≤ |(unitsOf m : ℚ) - r * one| := by
  rcases eq_or_ne m (nearest n d) with rfl | hm
  · exact le_rfl
  · exact (nearest_isNearest hd hr hm).elim le_of_lt fun h => h.1.le

/-- Only the ratio counts. -/
theorem nearest_congr {n' d' : ℕ} (hd : 0 < d) (hd' : 0 < d') (h : n * d' = n' * d) :
    nearest n d = nearest n' d' := by
  have hscale : ∀ {a b c : ℕ}, 0 < c → nearest (a * c) (b * c) = nearest a b := by
    intro a b c hc
    simp only [nearest_eq, Nat.mul_right_comm _ c, Nat.mul_div_mul_right _ _ hc,
      roundDiv_mul_right hc]
  rw [← hscale hd', h, Nat.mul_comm d, hscale hd]

/-! ### Finite doubles -/

/-- Infinity stands where the first magnitude of another binade would. -/
theorem unitsOf_infinity : unitsOf infinity = 2 ^ 1024 * one := by
  have hsplit : infinity = 2046 * 2 ^ 52 + 2 ^ 52 := infinity_eq
  rw [hsplit, unitsOf_eq (by norm_num) (.inr le_rfl), one_eq, ← pow_add, ← pow_add]

/-- A finite double has less than `2 ^ 1024` ones. -/
theorem units_lt {x : Binary64} (h : x.isFinite) : x.units < 2 ^ 1024 * one := by
  rw [← unitsOf_infinity]
  exact unitsOf_strictMono (of_decide_eq_true h)

end JsonDocument.Binary64

namespace JsonDocument.Decimal

/-- A decimal is read as the nearest magnitude, but for one below the range of doubles, which is
zero, and one above it, which is infinite. -/
theorem nearestMagnitude_cases (t : Decimal) :
    (t.absolute < 10 ^ (-324 : ℤ) ∧ t.nearestMagnitude = 0) ∨
      (10 ^ (309 : ℤ) ≤ t.absolute ∧ t.nearestMagnitude = Binary64.infinity) ∨
        t.nearestMagnitude = Binary64.nearest t.fraction.1 t.fraction.2 := by
  rw [nearestMagnitude]
  by_cases hc : t.coefficient = 0
  · rw [if_pos hc, coefficient_eq_zero_iff.mp hc]
    exact .inl ⟨ten_zpow_pos _, rfl⟩
  rw [if_neg hc]
  simp only
  split
  · refine .inr (.inl ⟨?_, rfl⟩)
    exact (zpow_le_zpow_right₀ (by norm_num) (by omega)).trans (zpow_le_absolute hc)
  split
  · refine .inl ⟨?_, rfl⟩
    exact t.absolute_lt_zpow.trans_le (zpow_le_zpow_right₀ (by norm_num) (by omega))
  · exact .inr (.inr rfl)

/-- Within the range of doubles a decimal is read as the nearest magnitude. -/
theorem nearestMagnitude_eq_nearest {t : Decimal} (hlow : (10 : ℚ) ^ (-324 : ℤ) < t.absolute)
    (hhigh : t.absolute < 10 ^ (309 : ℤ)) :
    t.nearestMagnitude = Binary64.nearest t.fraction.1 t.fraction.2 := by
  rcases t.nearestMagnitude_cases with ⟨h, -⟩ | ⟨h, -⟩ | h
  · exact absurd h hlow.not_gt
  · exact absurd h hhigh.not_ge
  · exact h

/-- A decimal is read by its value, however it is written. -/
theorem nearestMagnitude_congr {t t' : Decimal} (h : t.absolute = t'.absolute) :
    t.nearestMagnitude = t'.nearestMagnitude := by
  have hzero : t.coefficient = 0 ↔ t'.coefficient = 0 := by
    rw [coefficient_eq_zero_iff, coefficient_eq_zero_iff, h]
  by_cases hc : t.coefficient = 0
  · simp only [nearestMagnitude, if_pos hc, if_pos (hzero.mp hc)]
  · have hc' : t'.coefficient ≠ 0 := mt hzero.mpr hc
    -- the highest place is told from the value
    have htop :
        t.exponent + digitCount t.coefficient = t'.exponent + digitCount t'.coefficient := by
      have h₁ := (zpow_le_absolute hc).trans_lt (h ▸ absolute_lt_zpow t')
      have h₂ := (zpow_le_absolute hc').trans_lt (h ▸ absolute_lt_zpow t)
      rw [ten_zpow_lt_iff] at h₁ h₂
      omega
    have hnear : Binary64.nearest t.fraction.1 t.fraction.2 =
        Binary64.nearest t'.fraction.1 t'.fraction.2 := by
      refine Binary64.nearest_congr t.fraction_pos t'.fraction_pos ?_
      have hcross : (t.fraction.1 : ℚ) * t'.fraction.2 = t'.fraction.1 * t.fraction.2 := by
        rw [fraction_ratio, fraction_ratio, h]
        ring
      exact_mod_cast hcross
    simp only [nearestMagnitude, if_neg hc, if_neg hc', htop, hnear]

end JsonDocument.Decimal
