import Mathlib.Tactic.LinearCombination
import JsonDocument.Document
import JsonDocument.Proofs.Number.Shortest

/-!
# Proofs — Number — fifteen digits of a double

A double is rounded with ties to the larger number, as the language does it, and what was a tie is
then found by comparing whole numbers (`isLowerTie_iff`).  Both together are the rounding with ties
to the even digit, also where the digits carry over into the next decade (`significant_spec`).

* `Scientific`, `Positional`: the two notations, without a zero at the end of the fraction.
* `Decimal.write_cases`: which of them a layout takes.
* `Json.ofDouble_general`: the text of a double, its value and its notation.
-/

namespace JsonDocument

namespace Binary64

variable {x : Binary64} {t : Decimal} {p : ℕ}

/-! ### Ties -/

theorem one_eq_zpow : (one : ℚ) = 2 ^ (1074 : ℤ) := by
  rw [one_eq, Nat.cast_pow, ← zpow_natCast]
  rfl

/-- The whole number and the power of two have the value of the double. -/
theorem absolute_eq_decompose (x : Binary64) :
    x.absolute = x.decompose.1 * 2 ^ x.decompose.2 := by
  rw [absolute, units, unitsOf_eq_ite, one_eq_zpow, decompose, one_shiftLeft_eq]
  by_cases h : x.magnitude / 2 ^ 52 = 0
  · simp only [if_pos h]
    rw [zpow_neg, Nat.mod_eq_of_lt (by omega)]
    rfl
  · have hpow : (2 : ℚ) ^ ((x.magnitude / 2 ^ 52 : ℕ) - 1075 : ℤ) =
        2 ^ (x.magnitude / 2 ^ 52 - 1) / 2 ^ (1074 : ℤ) := by
      rw [← zpow_natCast, ← zpow_sub₀ two_ne_zero]
      congr 1
      omega
    simp only [if_neg h, hpow, Nat.cast_mul, Nat.cast_pow, Nat.cast_ofNat, mul_div_assoc]

/-- The comparison of whole numbers says whether the double lies halfway. -/
theorem isLowerTie_iff :
    x.isLowerTie t = true ↔ 2 * x.absolute = (2 * t.coefficient - 1 : ℕ) * 10 ^ t.exponent := by
  have hscale : (2 : ℚ) ^ (-x.decompose.2).toNat * 10 ^ (-t.exponent).toNat ≠ 0 := by positivity
  simp only [isLowerTie, beq_iff_eq, Nat.pow_eq]
  generalize 2 * t.coefficient - 1 = c
  rw [← mul_left_inj' hscale, ← Nat.cast_inj (R := ℚ), absolute_eq_decompose]
  push_cast
  rw [← zpow_mul_toNat two_ne_zero x.decompose.2, ← ten_zpow_mul t.exponent]
  constructor <;> intro h <;> linear_combination h

/-! ### Digits -/

/-- The exponent of the last of a number of digits. -/
def lastPlace (p : ℕ) (x : Binary64) : ℤ := decade x.units one - (p - 1 : ℕ)

/-- The multiple of the last place that is nearest to the double, of two the even one. -/
def rounded (p : ℕ) (x : Binary64) : ℕ :=
  roundDiv (onGrid (x.lastPlace p) x.units one).1 (onGrid (x.lastPlace p) x.units one).2

/-- The same with a tie to the larger one. -/
def roundedUp (p : ℕ) (x : Binary64) : ℕ :=
  roundDivUp (onGrid (x.lastPlace p) x.units one).1 (onGrid (x.lastPlace p) x.units one).2

theorem one_natPos : 0 < one := Nat.cast_pos.mp one_pos

theorem nearestMultiple_rounded (p : ℕ) (x : Binary64) :
    NearestMultiple (10 ^ x.lastPlace p) x.absolute (x.rounded p) :=
  nearestMultiple_roundDiv (onGrid_pos _ one_natPos) (ten_zpow_pos _) (onGrid_ratio _ one_natPos)

theorem decade_spec (hz : x.units ≠ 0) :
    (10 : ℚ) ^ decade x.units one ≤ x.absolute ∧ x.absolute < 10 ^ (decade x.units one + 1) :=
  ⟨zpow_decade_le (Nat.pos_of_ne_zero hz) one_natPos,
    lt_zpow_decade (Nat.pos_of_ne_zero hz) one_natPos⟩

/-- The powers of ten at both ends of the decade, in units of the last place. -/
theorem decade_eq (hp : 0 < p) (x : Binary64) :
    (10 : ℚ) ^ decade x.units one = (10 ^ (p - 1) : ℕ) * 10 ^ x.lastPlace p ∧
      (10 : ℚ) ^ (decade x.units one + 1) = (10 ^ p : ℕ) * 10 ^ x.lastPlace p := by
  simp only [Nat.cast_pow, Nat.cast_ofNat, ← zpow_natCast]
  rw [← zpow_add₀ (by norm_num), ← zpow_add₀ (by norm_num), lastPlace]
  constructor <;> congr 1 <;> omega

/-- Rounding keeps a double in its decade, or carries it to the start of the next one. -/
theorem rounded_bounds (hp : 0 < p) (hz : x.units ≠ 0) :
    10 ^ (p - 1) ≤ x.rounded p ∧ x.rounded p ≤ 10 ^ p := by
  obtain ⟨hlow, hhigh⟩ := decade_spec hz
  obtain ⟨hstart, hend⟩ := decade_eq hp x
  have hd := onGrid_pos (x.lastPlace p) (n := x.units) one_natPos
  have hle := (le_onGrid_iff (n := x.units) (x.lastPlace p) one_natPos (10 ^ (p - 1)) 1).mpr
  have hge := (onGrid_le_iff (n := x.units) (x.lastPlace p) one_natPos (10 ^ p) 1).mpr
  rw [Nat.cast_one, one_mul, one_mul] at hle hge
  exact ⟨le_roundDiv hd (hle (hstart ▸ hlow)), roundDiv_le hd (hge (hend ▸ hhigh.le))⟩

/-- A double lies halfway below a number of the last place if its quotient does. -/
theorem isLowerTie_onGrid (g : ℤ) (negative : Bool) (c : ℕ) :
    x.isLowerTie ⟨negative, c, g⟩ = true ↔
      2 * (onGrid g x.units one).1 = (2 * c - 1) * (onGrid g x.units one).2 := by
  rw [isLowerTie_iff, onGrid_eq_iff g one_natPos, Nat.cast_ofNat, ← absolute]

/-- The even one of two numbers that are as near is the larger one, or one less than it. -/
theorem rounded_eq_of_up (p : ℕ) (x : Binary64) :
    x.rounded p =
      if x.roundedUp p % 2 = 1 ∧ x.isLowerTie ⟨x.negative, x.roundedUp p, x.lastPlace p⟩ then
        x.roundedUp p - 1
      else x.roundedUp p := by
  simp only [isLowerTie_onGrid]
  exact roundDiv_eq_of_up (onGrid_pos _ one_natPos)

theorem exponential_eq (p : ℕ) (x : Binary64) :
    x.exponential p =
      if x.roundedUp p = 10 ^ p then ⟨x.negative, 10 ^ (p - 1), x.lastPlace p + 1⟩
      else ⟨x.negative, x.roundedUp p, x.lastPlace p⟩ := rfl

/-- The digits of a double: the nearest multiple of the last place, carried or not. -/
theorem significant_spec (hp : 2 ≤ p) (hz : x.units ≠ 0) :
    (x.significant p).negative = x.negative ∧
      (x.significant p).absolute = x.rounded p * 10 ^ x.lastPlace p := by
  have heven : ∀ k, k ≠ 0 → ¬ 10 ^ k % 2 = 1 := fun k hk =>
    Nat.not_odd_iff_even.mpr ((by decide : Even 10).pow_of_ne_zero hk) ∘ Nat.odd_iff.mpr
  rw [significant, if_neg hz, exponential_eq, rounded_eq_of_up]
  by_cases hcarry : x.roundedUp p = 10 ^ p
  · -- a one and zeros is no odd number, before the carry or after it
    simp only [if_pos hcarry]
    rw [if_neg fun h => heven (p - 1) (by omega) h.1, hcarry,
      if_neg fun h => heven p (by omega) h.1]
    refine ⟨rfl, ?_⟩
    rw [Decimal.absolute, zpow_add_one₀ (by norm_num)]
    push_cast
    rw [← pow_sub_one_mul (show p ≠ 0 by omega) (10 : ℚ)]
    ring
  · simp only [if_neg hcarry]
    split
    · exact ⟨rfl, rfl⟩
    · exact ⟨rfl, rfl⟩

end Binary64

/-! ### Two notations -/

namespace Decimal

variable {t ds : Text}

/-- Digits that do not end in a zero, or none. -/
structure Trimmed (f : Text) : Prop where
  digits : AllDigits f
  last : f.getLast? ≠ some 0x30

/-- One digit that is not zero, digits behind a point, and an exponent with a sign and two digits
or more. -/
inductive Scientific : Text → Prop
  | mk {negative : Bool} {c g : CodeUnit} {f e : Text} : isDigit c = true → c ≠ 0x30 → Trimmed f →
      g = 0x2B ∨ g = 0x2D → AllDigits e → 2 ≤ e.length →
        Scientific (sign negative ++ (c :: (point f ++ 0x65 :: g :: e)))

/-- Digits of an integer and digits behind a point. -/
inductive Positional : Text → Prop
  | mk {negative : Bool} {i f : Text} : i = [0x30] ∨ Significant i → Trimmed f →
      Positional (sign negative ++ (i ++ point f))

theorem Positional.not_scientific (h : Positional t) : ¬ Scientific t := by
  intro h'
  have hmem : (0x65 : CodeUnit) ∈ t := by
    cases h' with
    | mk => simp
  cases h with
  | @mk negative i f hi hf =>
      have hdigit : ¬ isDigit 0x65 = true := by decide
      have hi : AllDigits i := by
        rcases hi with rfl | hi
        · exact allDigits_zeros 1
        · exact hi.digits
      rcases List.mem_append.mp hmem with h | h
      · cases negative <;> simp [sign] at h
      · rcases List.mem_append.mp h with h | h
        · exact hdigit (hi _ h)
        · unfold point at h
          split at h
          · cases h
          · exact hdigit (hf.digits _ ((List.mem_cons.mp h).resolve_left (by decide)))

theorem Trimmed.drop (h : AllDigits ds) (hlast : ds.getLast? ≠ some 0x30) (n : ℕ) :
    Trimmed (ds.drop n) where
  digits := h.subset (List.drop_subset _ _)
  last := by
    rw [List.getLast?_drop]
    split
    · exact (Option.some_ne_none _).symm
    · exact hlast

theorem positional_sign (negative : Bool) (h : Significant ds) (hlast : ds.getLast? ≠ some 0x30)
    (place : ℤ) : Positional (sign negative ++ positional place ds) := by
  rw [positional_eq place h.ne_nil]
  refine .mk ?_ ⟨(allDigits_positional h.digits place).2, ?_⟩
  · unfold wholePart
    split
    · exact .inl rfl
    · refine .inr ((h.of_prefix (List.take_prefix _ _) ?_).append (allDigits_zeros _))
      rw [Ne, List.take_eq_nil_iff]
      exact not_or.mpr ⟨Nat.succ_ne_zero _, h.ne_nil⟩
  · unfold fractionPart
    split
    · rwa [List.getLast?_append_of_ne_nil _ h.ne_nil]
    · exact (Trimmed.drop h.digits hlast _).last

theorem scientific_sign (negative : Bool) (h : Significant ds) (hlast : ds.getLast? ≠ some 0x30)
    {width : ℕ} (hwidth : 2 ≤ width) (place : ℤ) :
    Scientific (sign negative ++ scientific width place ds) := by
  have he : AllDigits (padLeft width (digits place.natAbs)) :=
    (allDigits_zeros _).append (allDigits_digits _)
  have hlength : 2 ≤ (padLeft width (digits place.natAbs)).length := by
    rw [padLeft, List.length_append, List.length_replicate]
    omega
  have hf := Trimmed.drop h.digits hlast 1
  rw [scientific_eq]
  cases ds with
  | nil => exact absurd rfl h.ne_nil
  | cons c f =>
      exact .mk (h.digits c (List.mem_cons_self ..)) (fun hc => h.head (congrArg some hc)) hf
        (ite_eq_or_eq _ _ _).symm he hlength

/-! ### The choice of a layout -/

variable {d : Decimal} {l : Layout}

/-- The place of the first digit. -/
def firstPlace (d : Decimal) : ℤ := d.exponent + ((digits d.coefficient).length - 1 : ℕ)

/-- The place of the first digit is the decimal exponent of the value. -/
theorem firstPlace_spec (h : d.coefficient ≠ 0) :
    (10 : ℚ) ^ d.firstPlace ≤ d.absolute ∧ d.absolute < 10 ^ (d.firstPlace + 1) := by
  have hpos := digitCount_pos d.coefficient
  have hplace : d.firstPlace = d.exponent + digitCount d.coefficient - 1 := by
    rw [firstPlace, length_digits]
    omega
  rw [hplace, sub_add_cancel]
  exact ⟨zpow_le_absolute h, absolute_lt_zpow d⟩

theorem write_of_ne_zero (h : d.coefficient ≠ 0) (l : Layout) :
    d.write l = sign d.negative ++
      if l.lowest ≤ d.firstPlace ∧ d.firstPlace ≤ l.highest then
        positional d.firstPlace (trimRight (digits d.coefficient))
      else scientific l.exponentWidth d.firstPlace (trimRight (digits d.coefficient)) := by
  simp only [write, if_neg h]
  exact (apply_ite _ _ _ _).symm

/-- A layout takes the positional notation where it reaches to, and the other one elsewhere. -/
theorem notation_write (h : d.coefficient ≠ 0) (hwidth : 2 ≤ l.exponentWidth) :
    (Positional (d.write l) ↔ l.lowest ≤ d.firstPlace ∧ d.firstPlace ≤ l.highest) ∧
      (Scientific (d.write l) ↔ ¬ (l.lowest ≤ d.firstPlace ∧ d.firstPlace ≤ l.highest)) := by
  have hds := (significant_digits h).trimRight
  have hlast := getLast?_trimRight (digits d.coefficient)
  rw [write_of_ne_zero h]
  split
  · next hplace =>
      have hform := positional_sign d.negative hds hlast d.firstPlace
      exact ⟨iff_of_true hform hplace, iff_of_false hform.not_scientific (not_not_intro hplace)⟩
  · next hplace =>
      have hform := scientific_sign d.negative hds hlast hwidth d.firstPlace
      exact ⟨iff_of_false (fun h => h.not_scientific hform) hplace, iff_of_true hform hplace⟩

end Decimal

/-! ### Fifteen digits -/

namespace Binary64

variable {x : Binary64} {p : ℕ}

/-- What is written starts in the decade of the double, unless it is carried to the next one. -/
theorem firstPlace_significant (hp : 2 ≤ p) (hz : x.units ≠ 0) :
    (x.significant p).coefficient ≠ 0 ∧
      ((x.significant p).firstPlace = decade x.units one ∨
        x.rounded p = 10 ^ p ∧ (x.significant p).firstPlace = decade x.units one + 1) := by
  obtain ⟨-, hvalue⟩ := significant_spec hp hz
  obtain ⟨hlow, hhigh⟩ := rounded_bounds (by omega : 0 < p) hz
  obtain ⟨hstart, hend⟩ := decade_eq (by omega : 0 < p) x
  have hg := ten_zpow_pos (x.lastPlace p)
  have hge : (10 : ℚ) ^ decade x.units one ≤ (x.significant p).absolute := by
    rw [hvalue, hstart]
    exact mul_le_mul_of_nonneg_right (by exact_mod_cast hlow) hg.le
  have hne : (x.significant p).coefficient ≠ 0 := by
    intro hzero
    rw [Decimal.absolute, hzero, Nat.cast_zero, zero_mul] at hge
    exact absurd hge (ten_zpow_pos _).not_ge
  obtain ⟨hplace, hplace'⟩ := Decimal.firstPlace_spec hne
  refine ⟨hne, ?_⟩
  have hdecade := ten_zpow_lt_iff.mp (hge.trans_lt hplace')
  rcases Nat.lt_or_eq_of_le hhigh with hlt | heq
  · have hless : (x.significant p).absolute < 10 ^ (decade x.units one + 1) := by
      rw [hvalue, hend]
      exact mul_lt_mul_of_pos_right (by exact_mod_cast hlt) hg
    have := ten_zpow_lt_iff.mp (hplace.trans_lt hless)
    exact .inl (by omega)
  · have hcarry : (x.significant p).absolute = 10 ^ (decade x.units one + 1) := by
      rw [hvalue, hend, heq]
    rw [hcarry] at hplace hplace'
    have := ten_zpow_lt_iff.mp hplace'
    have := (zpow_le_zpow_iff_right₀ (by norm_num : (1 : ℚ) < 10)).mp hplace
    exact .inr ⟨heq, by omega⟩

end Binary64

open Binary64 Decimal in
/-- **The text of a double.**  It reads as the double rounded to the nearest multiple of its
fifteenth digit, a tie to the even digit; a carry moves the value to the start of the next decade.
The notation is chosen by the decimal exponent of what is written: scientific below `-4` and from
`15` up.  Neither notation ends its fraction in a zero or has a point without digits. -/
theorem Json.ofDouble_general {x : Binary64} (hf : x.isFinite) (hz : x.units ≠ 0) :
    Json.ofDouble x = .ok (.number (Literal.general x)) ∧
      ∃ (d : Decimal) (k : ℕ) (e e' : ℤ),
        (10 ^ e ≤ x.absolute ∧ x.absolute < 10 ^ (e + 1)) ∧
        NearestMultiple (10 ^ (e - 14)) x.absolute k ∧
        read? (Literal.general x) = some d ∧ d.negative = x.negative ∧
        d.absolute = k * 10 ^ (e - 14) ∧
        (10 ^ e' ≤ d.absolute ∧ d.absolute < 10 ^ (e' + 1)) ∧
        (e' = e ∨ k = 10 ^ 15 ∧ e' = e + 1) ∧
        (Scientific (Literal.general x) ↔ e' < -4 ∨ 15 ≤ e') ∧
        (Positional (Literal.general x) ↔ -4 ≤ e' ∧ e' < 15) := by
  obtain ⟨hnegative, hvalue⟩ := significant_spec (p := 15) (by decide) hz
  obtain ⟨hne, hplace⟩ := firstPlace_significant (p := 15) (by decide) hz
  obtain ⟨hpositional, hscientific⟩ :=
    notation_write (l := Literal.generalLayout) hne (by decide)
  obtain ⟨d, hread, hsign, hd⟩ := readsAs_write Literal.generalLayout (x.significant 15)
  have hrange : Literal.generalLayout.lowest ≤ (x.significant 15).firstPlace ∧
      (x.significant 15).firstPlace ≤ Literal.generalLayout.highest ↔
        -4 ≤ (x.significant 15).firstPlace ∧ (x.significant 15).firstPlace < 15 :=
    and_congr_right' Int.lt_add_one_iff.symm
  rw [hrange] at hpositional hscientific
  refine ⟨if_pos hf, d, x.rounded 15, decade x.units one, (x.significant 15).firstPlace,
    decade_spec hz, nearestMultiple_rounded 15 x, hread, hsign.trans hnegative,
    hd.trans hvalue, hd ▸ firstPlace_spec hne, hplace, hscientific.trans ?_, hpositional⟩
  omega

/-- The double halfway between `123456789012344` and the next whole number. -/
def halfway : Binary64 := ⟨0x42DC12218377DE20⟩

open Decimal in
/-- It goes to the even digit. -/
theorem Json.ofDouble_general_halfway :
    halfway.isFinite = true ∧ halfway.units ≠ 0 ∧
      Json.ofDouble halfway = .ok (.number (Text.ofString "123456789012344")) ∧
      ∃ (d : Decimal) (k : ℕ) (e : ℤ),
        (10 ^ e ≤ halfway.absolute ∧ halfway.absolute < 10 ^ (e + 1)) ∧
        NearestMultiple (10 ^ (e - 14)) halfway.absolute k ∧
        read? (Text.ofString "123456789012344") = some d ∧ d.absolute = k * 10 ^ (e - 14) := by
  have hf : halfway.isFinite = true := by decide +kernel
  have hz : halfway.units ≠ 0 := by decide +kernel
  have htext : Literal.general halfway = Text.ofString "123456789012344" := by decide +kernel
  obtain ⟨hnumber, d, k, e, -, hdecade, hnearest, hread, -, hvalue, -⟩ :=
    Json.ofDouble_general hf hz
  rw [htext] at hnumber hread
  exact ⟨hf, hz, hnumber, d, k, e, hdecade, hnearest, hread, hvalue⟩

end JsonDocument
