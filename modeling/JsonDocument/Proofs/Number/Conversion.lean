import JsonDocument.Proofs.Building
import JsonDocument.Proofs.Number.Fifteen

/-!
# Proofs — Number — literals as doubles

What a literal becomes when its value is asked for as a double.  The magnitude of a decimal is the
nearest one of all (`nearestMagnitude_isNearest`), which carries over to doubles with a sign: one of
the other sign is never nearer, and as near only if both are zero.  The nearest double of a sign is
the only one, for of two that are as near and even the odd one between them is nearer.

* `Binary64.Nearest`: the nearest finite doubles to a number, a tie to the even one.
* `Binary64.nearest_of_read`, `Binary64.Nearest.eq`: there is one, it is what is read, and no other.
* `Literal.toDouble_rounds`: which literals fall back, and what the others become.
-/

namespace JsonDocument

variable {m : ℕ} {r q a b c : ℚ} {x y : Binary64} {t : Decimal}

/-! ### Numbers with signs -/

/-- A number by its sign and its absolute value. -/
def signed (negative : Bool) (a : ℚ) : ℚ := if negative then -a else a

theorem signed_signed (negative : Bool) (a : ℚ) : signed negative (signed negative a) = a := by
  cases negative
  · rfl
  · exact neg_neg a

theorem signed_injective (negative : Bool) : Function.Injective (signed negative) :=
  Function.LeftInverse.injective (signed_signed negative)

theorem signed_abs (q : ℚ) : signed (decide (q < 0)) |q| = q := by
  rw [signed]
  split
  · next h => rw [abs_of_neg (of_decide_eq_true h), neg_neg]
  · next h => rw [abs_of_nonneg (not_lt.mp (mt decide_eq_true h))]

/-- With the same sign as far apart as without. -/
theorem abs_signed_sub (negative : Bool) (q a : ℚ) :
    |signed negative q - signed negative a| = |q - a| := by
  cases negative
  · rfl
  · rw [signed, signed, if_pos rfl, if_pos rfl, neg_sub_neg, abs_sub_comm]

/-- Of different signs, numbers are apart by the sum of their sizes. -/
theorem abs_signed_sub_of_ne {negative negative' : Bool} (h : negative ≠ negative') (hq : 0 ≤ q)
    (ha : 0 ≤ a) : |signed negative q - signed negative' a| = q + a := by
  cases negative <;> cases negative'
  · exact absurd rfl h
  · rw [signed, signed, if_neg Bool.false_ne_true, if_pos rfl, sub_neg_eq_add,
      abs_of_nonneg (add_nonneg hq ha)]
  · rw [signed, signed, if_neg Bool.false_ne_true, if_pos rfl, ← neg_add', abs_neg,
      abs_of_nonneg (add_nonneg hq ha)]
  · exact absurd rfl h

theorem abs_sub_le_signed (negative negative' : Bool) (hq : 0 ≤ q) (ha : 0 ≤ a) :
    |q - a| ≤ |signed negative q - signed negative' a| := by
  by_cases h : negative = negative'
  · rw [h, abs_signed_sub]
  · rw [abs_signed_sub_of_ne h hq ha, abs_le]
    constructor <;> linarith

/-- Between two numbers that are as far from a third one all are nearer to it. -/
theorem abs_sub_lt_of_between (hab : a < b) (hbc : b < c) (h : |c - r| = |a - r|) :
    |b - r| < |a - r| := by
  have hmiddle : c - r = -(a - r) := (abs_eq_abs.mp h).resolve_left (by linarith)
  rw [abs_of_neg (by linarith : a - r < 0), abs_lt]
  constructor <;> linarith

namespace Binary64

/-! ### Signed doubles -/

/-- The value of a finite double; both zeros have the value zero. -/
def value (x : Binary64) : ℚ := signed x.negative x.absolute

/-- Of the finite doubles `x` is nearest to `r`; where another one has a value as near, the last bit
of `x` is zero. -/
structure Nearest (r : ℚ) (x : Binary64) : Prop where
  finite : x.isFinite
  le : ∀ y : Binary64, y.isFinite → |x.value - r| ≤ |y.value - r|
  even : ∀ y : Binary64, y.isFinite → y.value ≠ x.value → |y.value - r| = |x.value - r| →
    Even x.magnitude

theorem absolute_eq_of_magnitude (h : y.magnitude = x.magnitude) : y.absolute = x.absolute := by
  rw [absolute, absolute, units, units, h]

theorem absolute_lt_of_magnitude (h : x.magnitude < y.magnitude) : x.absolute < y.absolute :=
  div_lt_div_of_pos_right (by exact_mod_cast unitsOf_strictMono h) one_pos

theorem absolute_zero : zero.absolute = 0 := by
  have hzero : zero.units = 0 := unitsOf_eq_zero_iff.mpr rfl
  rw [absolute, hzero, Nat.cast_zero, zero_div]

theorem value_eq_zero (h : x.absolute = 0) : x.value = 0 := by
  rw [value, signed, h, neg_zero, ite_self]

theorem absolute_nonneg (x : Binary64) : 0 ≤ x.absolute :=
  div_nonneg (Nat.cast_nonneg _) one_pos.le

/-! ### The nearest magnitude -/

/-- Below half a unit zero is nearest. -/
theorem zero_nearest (hq : 0 ≤ q) (hhalf : q * 2 < 1) (hm : m ≠ 0) :
    |(unitsOf 0 : ℚ) - q| < |(unitsOf m : ℚ) - q| := by
  have hunit : (1 : ℚ) ≤ unitsOf m := by
    exact_mod_cast Nat.one_le_iff_ne_zero.mpr (mt unitsOf_eq_zero_iff.mp hm)
  rw [unitsOf_eq_zero_iff.mpr rfl, Nat.cast_zero, zero_sub, abs_neg, abs_of_nonneg hq,
    abs_of_nonneg (by linarith)]
  linarith

/-- No other magnitude is as near to a decimal that can be read as the one it is read as, unless
that one is even. -/
theorem nearestMagnitude_isNearest (t : Decimal) (ht : t.absolute < 2 ^ 1024 - 2 ^ 970)
    (hm : m ≠ t.nearestMagnitude) :
    |(unitsOf t.nearestMagnitude : ℚ) - t.absolute * one| < |(unitsOf m : ℚ) - t.absolute * one| ∨
      (|(unitsOf t.nearestMagnitude : ℚ) - t.absolute * one| =
        |(unitsOf m : ℚ) - t.absolute * one| ∧ Even t.nearestMagnitude) := by
  rcases t.nearestMagnitude_cases with ⟨hlow, hmag⟩ | ⟨hhigh, -⟩ | hmag
  · rw [hmag] at hm ⊢
    refine .inl (zero_nearest (mul_nonneg t.absolute_nonneg one_pos.le) ?_ hm)
    rw [mul_assoc]
    exact (mul_lt_mul_of_pos_right hlow (by linarith [one_pos])).trans ten_zpow_mul_one_lt
  · exact absurd (overflow_range.2.trans_le hhigh) ht.not_gt
  · rw [hmag] at hm ⊢
    exact nearest_isNearest t.fraction_pos t.fraction_ratio hm

/-- How far apart they are in units. -/
theorem abs_absolute_sub (x : Binary64) (a : ℚ) :
    |x.absolute - a| * one = |(unitsOf x.magnitude : ℚ) - a * one| := by
  rw [← units, ← absolute_mul_one, ← sub_mul, abs_mul, abs_of_pos one_pos]

/-- The double that a decimal is read as is nearest to it. -/
theorem nearest_of_read (hf : x.isFinite) (hsign : x.negative = t.negative)
    (hx : x.magnitude = t.nearestMagnitude) (ht : t.absolute < 2 ^ 1024 - 2 ^ 970) :
    x.Nearest t.value := by
  have hvalue : |x.value - t.value| = |x.absolute - t.absolute| := by
    rw [value, hsign]
    exact abs_signed_sub _ _ _
  have hother : ∀ y : Binary64, |y.absolute - t.absolute| ≤ |y.value - t.value| := fun y =>
    abs_sub_le_signed _ _ y.absolute_nonneg t.absolute_nonneg
  have hnear : ∀ y : Binary64, y.magnitude ≠ x.magnitude →
      |x.absolute - t.absolute| < |y.absolute - t.absolute| ∨
        (|x.absolute - t.absolute| = |y.absolute - t.absolute| ∧ Even x.magnitude) := by
    intro y hy
    rw [hx] at hy
    have h := nearestMagnitude_isNearest t ht hy
    rwa [← hx, ← abs_absolute_sub, ← abs_absolute_sub, mul_lt_mul_iff_left₀ one_pos,
      mul_left_inj' one_pos.ne'] at h
  have hle : ∀ y : Binary64, |x.absolute - t.absolute| ≤ |y.absolute - t.absolute| := by
    intro y
    by_cases hy : y.magnitude = x.magnitude
    · rw [absolute_eq_of_magnitude hy]
    · exact (hnear y hy).elim le_of_lt fun h => h.1.le
  refine ⟨hf, fun y _ => hvalue.trans_le ((hle y).trans (hother y)), fun y _ hne htie => ?_⟩
  by_cases hy : y.magnitude = x.magnitude
  · -- the double of the other sign is as near only if both are zero
    have hsigns : y.negative ≠ t.negative := by
      intro h
      rw [value, value, h, hsign, absolute_eq_of_magnitude hy] at hne
      exact hne rfl
    have hfar : |y.value - t.value| = y.absolute + t.absolute :=
      abs_signed_sub_of_ne hsigns y.absolute_nonneg t.absolute_nonneg
    have hzero : x.absolute = 0 := by
      have hle := hle zero
      rw [absolute_zero, zero_sub, abs_neg, abs_of_nonneg t.absolute_nonneg] at hle
      rw [hfar, hvalue, absolute_eq_of_magnitude hy] at htie
      exact le_antisymm (by linarith) x.absolute_nonneg
    exact absurd ((value_eq_zero ((absolute_eq_of_magnitude hy).trans hzero)).trans
      (value_eq_zero hzero).symm) hne
  · rw [hvalue] at htie
    exact (hnear y hy).elim (fun h => absurd (h.trans_le (hother y)) htie.not_gt) And.right

/-! ### Only one double is nearest -/

/-- Of two doubles of one sign that are as near, one is even and the other odd, or one between them
is nearer. -/
theorem Nearest.not_lt (hx : x.Nearest r) (hy : y.Nearest r) (hsign : y.negative = x.negative) :
    ¬ x.magnitude < y.magnitude := by
  intro hlt
  have hvalue : ∀ z : Binary64, z.negative = x.negative →
      |z.value - r| = |z.absolute - signed x.negative r| := by
    intro z hz
    rw [value, hz, ← abs_signed_sub x.negative z.absolute, signed_signed]
  have htie : |y.value - r| = |x.value - r| := le_antisymm (hy.le x hx.finite) (hx.le y hy.finite)
  have habs := absolute_lt_of_magnitude hlt
  have hne : y.value ≠ x.value := by
    intro h
    rw [value, value, hsign] at h
    exact habs.ne' (signed_injective x.negative h)
  have heven := hx.even y hy.finite hne htie
  have heven' := hy.even x hx.finite hne.symm htie.symm
  have hbetween : x.magnitude + 1 < y.magnitude := by
    obtain ⟨k, hk⟩ := heven
    obtain ⟨l, hl⟩ := heven'
    omega
  have hinf := hbetween.trans (of_decide_eq_true hy.finite)
  obtain ⟨hm, hz⟩ := ofMagnitude_spec x.negative hinf
  have hnear := hx.le _ (isFinite_ofMagnitude x.negative hinf)
  have hlow := absolute_lt_of_magnitude (x := x) (y := ofMagnitude x.negative (x.magnitude + 1))
    (by rw [hm]; exact Nat.lt_succ_self _)
  have hhigh := absolute_lt_of_magnitude (x := ofMagnitude x.negative (x.magnitude + 1)) (y := y)
    (by rw [hm]; exact hbetween)
  rw [hvalue _ rfl, hvalue _ hsign] at htie
  rw [hvalue _ rfl, hvalue _ hz] at hnear
  exact hnear.not_gt (abs_sub_lt_of_between hlow hhigh htie)

theorem Nearest.eq (hx : x.Nearest r) (hy : y.Nearest r) (hsign : y.negative = x.negative) :
    y = x :=
  eq_of_magnitude_eq hsign <|
    le_antisymm (Nat.le_of_not_lt (hx.not_lt hy hsign)) (Nat.le_of_not_lt (hy.not_lt hx hsign.symm))

end Binary64

namespace Literal

variable {s : Text} {negative : Bool} {v : ℚ}

/-! ### Floating literals as doubles -/

theorem read?_eq_none_iff : Decimal.read? s = none ↔ ¬ ∃ negative v, Floating s negative v := by
  simp only [floating_iff]
  rw [Option.eq_none_iff_forall_not_mem]
  exact ⟨fun h ⟨_, _, d, hd, _⟩ => h d hd, fun h d hd => h ⟨_, _, d, hd, rfl, rfl⟩⟩

theorem toDouble_of_floating_iff (h : Floating s negative v) :
    (∀ fallback, toDouble fallback s = fallback) ↔ 2 ^ 1024 - 2 ^ 970 ≤ v := by
  obtain ⟨d, hd, rfl, rfl⟩ := floating_iff.mp h
  exact toDouble_fallback_iff hd

theorem exists_nearest_toDouble (h : Floating s negative v) (hv : v < 2 ^ 1024 - 2 ^ 970) :
    ∃ x, (∀ fallback, toDouble fallback s = x) ∧ x.negative = negative ∧
      x.Nearest (signed negative v) := by
  obtain ⟨d, hd, rfl, rfl⟩ := floating_iff.mp h
  obtain ⟨x, hx, hf, hsign, hm⟩ := exists_toDouble hd hv
  exact ⟨x, hx, hsign, Binary64.nearest_of_read hf hsign hm hv⟩

/-- **Literals are rounded to the nearest double.**  A text falls back if it is no floating literal
or if its value is too large, and otherwise it is the one double that has its sign and is nearest to
its value, a tie to the even one.  What is scanned as a number is a floating literal, so in trees
that were read only overflow falls back. -/
theorem toDouble_rounds :
    (∀ s, (¬ ∃ negative v, Floating s negative v) → ∀ fallback, toDouble fallback s = fallback) ∧
    (∀ s negative v, Floating s negative v →
      (2 ^ 1024 - 2 ^ 970 ≤ v → ∀ fallback, toDouble fallback s = fallback) ∧
      (v < 2 ^ 1024 - 2 ^ 970 → ∃ x, (∀ fallback, toDouble fallback s = x) ∧
        ∀ y : Binary64, y = x ↔ y.negative = negative ∧ y.Nearest (signed negative v))) ∧
    (∀ b s r, Reader.scanNumber b = .ok (s, r) → ∃ negative v, Floating s negative v) ∧
    ∀ input settings tree, (Document.read input settings).outcome = .ok tree →
      tree.EachText (fun s => ∃ negative v, Floating s negative v ∧
        ((∀ fallback, toDouble fallback s = fallback) ↔ 2 ^ 1024 - 2 ^ 970 ≤ v)) fun _ => True := by
  refine ⟨fun s hs fallback => ?_, fun s negative v h => ⟨?_, fun hv => ?_⟩, fun b s r h => ?_,
    fun input settings tree h => ?_⟩
  · rw [toDouble, read?_eq_none_iff.mpr hs]
  · exact (toDouble_of_floating_iff h).mpr
  · obtain ⟨x, hx, hsign, hnearest⟩ := exists_nearest_toDouble h hv
    refine ⟨x, hx, fun y => ⟨?_, ?_⟩⟩
    · rintro rfl
      exact ⟨hsign, hnearest⟩
    · rintro ⟨hy, hnearest'⟩
      exact hnearest.eq hnearest' (hy.trans hsign.symm)
  · obtain ⟨n, -, hn, rfl⟩ := Reader.exists_of_scanNumber h
    exact IsLiteral.floating ⟨n, hn, rfl⟩
  · refine Json.EachText.imp (fun s hs => ?_) (fun _ => id) tree (Document.numbersValid_read h)
    obtain ⟨negative, v, hs⟩ := hs.floating
    exact ⟨negative, v, hs, toDouble_of_floating_iff hs⟩

/-- Halfway between `2 ^ 53` and the next double the even one is taken. -/
theorem toDouble_rounds_half :
    Floating (Text.ofString " -9007199254740993") true 9007199254740993 ∧
      (∀ fallback, toDouble fallback (Text.ofString " -9007199254740993") =
        ⟨0xC340000000000000⟩) ∧
      (⟨0xC340000000000000⟩ : Binary64).Nearest (-9007199254740993) := by
  have hread : Decimal.read? (Text.ofString " -9007199254740993") =
      some ⟨true, 9007199254740993, 0⟩ := by decide +kernel
  have hfloating : Floating (Text.ofString " -9007199254740993") true 9007199254740993 :=
    floating_iff.mpr ⟨_, hread, rfl, by norm_num [Decimal.absolute]⟩
  have hsmall : (9007199254740993 : ℚ) < 2 ^ 1024 - 2 ^ 970 := by
    rw [lt_sub_iff_add_lt']
    exact_mod_cast (by decide +kernel : 2 ^ 970 + 9007199254740993 < 2 ^ 1024)
  obtain ⟨x, hx, hnearest⟩ := (toDouble_rounds.2.1 _ _ _ hfloating).2 hsmall
  obtain rfl : x = ⟨0xC340000000000000⟩ := (hx .zero).symm.trans (by decide +kernel)
  exact ⟨hfloating, hx, ((hnearest _).mp rfl).2⟩

end Literal

end JsonDocument
