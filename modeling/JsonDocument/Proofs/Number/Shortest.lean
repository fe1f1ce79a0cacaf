import JsonDocument.Number.Literal
import JsonDocument.Proofs.Number.Nearest
import JsonDocument.Proofs.Number.Reading

/-!
# Proofs — Number — doubles read back

Doubles are apart by a `2 ^ 53`rd part of their size at least, and decimals of seventeen digits by
no more than a `10 ^ 16`th part.  So the decimal of seventeen digits that is nearest to a double is
nearer to it than to any other, and is read as the double; a shorter one is written only if it is
read so too.

* `nearestMagnitude_of_near`: what is near enough to a double is read as the double.
* `nearestMagnitude_shortest`: the decimal that is written for a double is.
* `Literal.toDouble_shortest`: a finite double is read back bit for bit, the sign of zero too.
-/

namespace JsonDocument.Binary64

variable {x : Binary64} {t : Decimal}

/-! ### Near enough -/

theorem absolute_pos (h : 0 < x.absolute) : 0 < x.units := by
  refine Nat.pos_of_ne_zero fun hzero => ?_
  rw [absolute, hzero, Nat.cast_zero, zero_div] at h
  exact lt_irrefl _ h

theorem one_pos : (0 : ℚ) < one := by
  rw [one_eq]
  positivity

/-- The absolute value in units. -/
theorem absolute_mul_one (x : Binary64) : x.absolute * one = x.units :=
  div_mul_cancel₀ _ one_pos.ne'

/-- Where decimals cease to be rounded lies below the middle between zero and the first unit. -/
theorem ten_zpow_mul_one_lt : (10 : ℚ) ^ (-324 : ℤ) * (one * 2) < 1 := by
  have hsmall : (one : ℚ) * 2 < 10 ^ 324 := by
    rw [one_eq]
    exact_mod_cast (by decide +kernel : 2 ^ 1074 * 2 < 10 ^ 324)
  rw [zpow_neg, inv_mul_lt_iff₀ (ten_zpow_pos _), mul_one]
  exact hsmall

/-- A finite double lies in the range in which decimals are rounded at all. -/
theorem absolute_range (hf : x.isFinite) (hz : x.units ≠ 0) :
    (10 : ℚ) ^ (-324 : ℤ) < x.absolute / 2 ∧ 2 * x.absolute < 10 ^ (309 : ℤ) := by
  have hunits : (1 : ℚ) ≤ x.units := by exact_mod_cast Nat.one_le_iff_ne_zero.mpr hz
  have hunits' : (x.units : ℚ) < 2 ^ 1024 * one := by exact_mod_cast units_lt hf
  have hlarge : (2 : ℚ) * 2 ^ 1024 < 10 ^ 309 := by
    exact_mod_cast (by decide +kernel : 2 * 2 ^ 1024 < 10 ^ 309)
  constructor
  · rw [absolute, div_div, lt_div_iff₀ (mul_pos one_pos two_pos)]
    exact ten_zpow_mul_one_lt.trans_le hunits
  · have habs : x.absolute < 2 ^ 1024 := (div_lt_iff₀ one_pos).mpr hunits'
    exact (mul_lt_mul_of_pos_left habs two_pos).trans hlarge

/-- What is nearer to a double than a `2 ^ 54`th part of it is read as the double. -/
theorem nearestMagnitude_of_near (hf : x.isFinite)
    (h : 2 ^ 53 * (2 * |t.absolute - x.absolute|) < x.absolute) :
    t.nearestMagnitude = x.magnitude := by
  have hpos : 0 < x.absolute := lt_of_le_of_lt (by positivity) h
  obtain ⟨hlow, hhigh⟩ := absolute_range hf (absolute_pos hpos).ne'
  obtain ⟨hnear, hnear'⟩ := abs_le.mp (show |t.absolute - x.absolute| ≤ x.absolute / 2 by linarith)
  have hhalf : x.absolute / 2 ≤ t.absolute := by linarith
  have hdouble : t.absolute ≤ 2 * x.absolute := by linarith
  rw [Decimal.nearestMagnitude_eq_nearest (hlow.trans_le hhalf) (hdouble.trans_lt hhigh)]
  have hle := nearest_le t.fraction_pos t.fraction_ratio x.magnitude
  generalize nearest t.fraction.1 t.fraction.2 = m at hle
  refine eq_of_unitsOf_near ?_
  rw [show (unitsOf x.magnitude : ℚ) = x.absolute * one from (absolute_mul_one x).symm] at hle ⊢
  -- the nearest magnitude is no further from the double than twice the decimal is
  have hdist : |(unitsOf m : ℚ) - x.absolute * one| ≤
      2 * |t.absolute - x.absolute| * one := by
    have htri := abs_sub_le (unitsOf m : ℚ) (t.absolute * one) (x.absolute * one)
    rw [abs_sub_comm (x.absolute * one), ← sub_mul, abs_mul, abs_of_pos one_pos] at hle
    rw [← sub_mul, abs_mul _ (one : ℚ), abs_of_pos one_pos] at htri
    linarith
  have hscaled := mul_lt_mul_of_pos_right h one_pos
  linarith

/-! ### Seventeen digits -/

/-- The multiple of `10 ^ g` that is nearest to a double. -/
theorem abs_roundDiv_onGrid_le (x : Binary64) (g : ℤ) :
    |(roundDiv (onGrid g x.units one).1 (onGrid g x.units one).2 : ℚ) * 10 ^ g - x.absolute| ≤
      10 ^ g / 2 :=
  have hone : 0 < one := by exact_mod_cast one_pos
  abs_roundDiv_sub_le (onGrid_pos g hone) (ten_zpow_pos g) (onGrid_ratio g hone)

/-- What is written with a number of digits reads back, whatever the number is. -/
theorem nearestMagnitude_of_shortestAt? {places : ℕ} (h : x.shortestAt? places = some t) :
    t.nearestMagnitude = x.magnitude ∧ t.negative = x.negative := by
  simp only [shortestAt?] at h
  split at h
  · next hlow hhigh =>
      obtain rfl := Option.some.inj h
      refine ⟨?_, rfl⟩
      rcases roundDiv_eq_or (onGrid (decade x.units one - (places - 1 : ℕ)) x.units one).1
        (onGrid (decade x.units one - (places - 1 : ℕ)) x.units one).2 with hk | hk <;> rw [hk]
      · exact beq_iff_eq.mp hlow
      · exact beq_iff_eq.mp hhigh
  · next hlow _ =>
      obtain rfl := Option.some.inj h
      exact ⟨beq_iff_eq.mp hlow, rfl⟩
  · next _ hhigh =>
      obtain rfl := Option.some.inj h
      exact ⟨beq_iff_eq.mp hhigh, rfl⟩
  · cases h

/-- Seventeen digits are enough for every double. -/
theorem isSome_shortestAt?_seventeen (hf : x.isFinite) (hz : x.units ≠ 0) :
    (x.shortestAt? 17).isSome := by
  have hone : 0 < one := by exact_mod_cast one_pos
  have hdecade := zpow_decade_le (Nat.pos_of_ne_zero hz) hone
  have hnear := abs_roundDiv_onGrid_le x (decade x.units one - (17 - 1 : ℕ))
  generalize hg : decade x.units one - (17 - 1 : ℕ) = g at hnear
  have hsmall : (10 : ℚ) ^ g * 10 ^ 16 ≤ x.absolute := by
    rw [← zpow_natCast, ← zpow_add₀ (by norm_num), ← hg]
    refine le_trans (le_of_eq ?_) hdecade
    congr 1
    push_cast
    ring
  have hread : Decimal.nearestMagnitude
      ⟨x.negative, roundDiv (onGrid g x.units one).1 (onGrid g x.units one).2, g⟩ =
        x.magnitude := by
    refine nearestMagnitude_of_near hf ?_
    have hten := ten_zpow_pos g
    rw [Decimal.absolute]
    linarith
  -- one of the two neighbours is the nearest multiple, and so it reads back
  simp only [shortestAt?, hg]
  rcases roundDiv_eq_or (onGrid g x.units one).1 (onGrid g x.units one).2 with hk | hk <;>
    rw [hk] at hread <;> rw [beq_iff_eq.mpr hread]
  · generalize (Decimal.nearestMagnitude _ == _) = high
    cases high <;> rfl
  · generalize (Decimal.nearestMagnitude _ == _) = low
    cases low <;> rfl

/-- The decimal that is written for a finite double is read as the double. -/
theorem nearestMagnitude_shortest (hf : x.isFinite) :
    x.shortest.nearestMagnitude = x.magnitude ∧ x.shortest.negative = x.negative := by
  by_cases hz : x.units = 0
  · rw [shortest, if_pos hz]
    exact ⟨(unitsOf_eq_zero_iff.mp hz).symm, rfl⟩
  · rw [shortest, if_neg hz]
    have hmem : 17 ∈ List.range' 1 17 := by decide
    have hsome : ((List.range' 1 17).findSome? x.shortestAt?).isSome :=
      List.findSome?_isSome_iff.mpr ⟨17, hmem, isSome_shortestAt?_seventeen hf hz⟩
    obtain ⟨t, ht⟩ := Option.isSome_iff_exists.mp hsome
    obtain ⟨places, -, hplaces⟩ := List.exists_of_findSome?_eq_some ht
    rw [ht, Option.getD_some]
    exact nearestMagnitude_of_shortestAt? hplaces

/-- A double is its sign and its magnitude. -/
theorem ofMagnitude_magnitude (x : Binary64) : ofMagnitude x.negative x.magnitude = x := by
  obtain ⟨bits⟩ := x
  have hlt := bits.toNat_lt
  have hbits : (if 2 ^ 63 ≤ bits.toNat then 2 ^ 63 + bits.toNat % 2 ^ 63 else bits.toNat % 2 ^ 63) =
      bits.toNat := by
    split <;> omega
  simp only [ofMagnitude, negative, magnitude, one_shiftLeft_eq, decide_eq_true_eq, hbits,
    UInt64.ofNat_toNat]

/-- Below infinity a sign and a magnitude are kept. -/
theorem ofMagnitude_spec {m : ℕ} (negative : Bool) (h : m < infinity) :
    (ofMagnitude negative m).magnitude = m ∧ (ofMagnitude negative m).negative = negative := by
  have hinf := infinity_eq
  have hm : m < 2 ^ 63 := by omega
  simp only [magnitude, Binary64.negative, ofMagnitude, one_shiftLeft_eq, UInt64.toNat_ofNat']
  cases negative
  · rw [if_neg Bool.false_ne_true, decide_eq_false_iff_not]
    omega
  · rw [if_pos rfl, decide_eq_true_eq]
    omega

theorem isFinite_ofMagnitude {m : ℕ} (negative : Bool) (h : m < infinity) :
    (ofMagnitude negative m).isFinite := by
  rw [isFinite, (ofMagnitude_spec negative h).1]
  exact decide_eq_true h

end JsonDocument.Binary64

namespace JsonDocument

/-- Finite doubles survive being written and read, bit for bit. -/
theorem Literal.toDouble_shortest {x : Binary64} (hf : x.isFinite) (fallback : Binary64) :
    toDouble fallback (shortest x) = x := by
  obtain ⟨t, hread, hsign, hvalue⟩ := Decimal.readsAs_write shortestLayout x.shortest
  obtain ⟨hmagnitude, hnegative⟩ := Binary64.nearestMagnitude_shortest hf
  rw [← Decimal.nearestMagnitude_congr hvalue] at hmagnitude
  have hlt : x.magnitude < Binary64.infinity := of_decide_eq_true hf
  rw [toDouble, shortest, hread]
  simp only [Decimal.toBinary64?, hmagnitude, if_pos hlt, Option.getD_some, hsign, hnegative]
  exact x.ofMagnitude_magnitude

/-- What a number is read as is finite, whatever its literal, if the fallback is. -/
theorem Literal.isFinite_toDouble {fallback : Binary64} (h : fallback.isFinite) (t : Text) :
    (toDouble fallback t).isFinite := by
  unfold toDouble
  split
  · simp only [Decimal.toBinary64?]
    split
    · next hlt => exact Binary64.isFinite_ofMagnitude _ hlt
    · exact h
  · exact h

end JsonDocument
