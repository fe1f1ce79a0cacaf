import Mathlib.Data.List.TakeWhile
import Mathlib.Tactic.SplitIfs
import JsonDocument.Proofs.Number.Floating

/-!
# Proofs — Number — written decimals read back

A decimal is written in parts: a sign, digits, a point and digits, and an exponent
(`read?_written`).  Zeros that are put in front, or left off at the end, change where the point is
and not what the text is worth, so a decimal in any layout is read as a decimal of the same value.

* `ofDigits_digits`: what digits spell.
* `exists_eq_trimRight_append`: the zeros that are left off.
* `positional_eq`, `scientific_eq`: the two notations by their parts.
* `readsAs_write`: a written decimal is read with its sign and its value.
-/

namespace JsonDocument.Decimal

variable {ds e : Text}

/-! ### What digits spell -/

theorem ofDigits_zeros (k : ℕ) : ofDigits (List.replicate k 0x30) = 0 := by
  induction k with
  | zero => rfl
  | succ k ih =>
      rw [List.replicate_succ', ofDigits_append, ih]
      rfl

/-- Digits spell the number that they are written for. -/
theorem ofDigits_digits (n : ℕ) : ofDigits (digits n) = n := by
  have hn : Nat.ofDigitChars 10 (Nat.toDigits 10 n) 0 = n := Nat.ofDigitChars_ten_toDigits
  rw [Nat.ofDigitChars_eq_foldl] at hn
  conv_rhs => rw [← hn]
  rw [ofDigits, digits_eq_map, List.foldl_map]
  refine List.foldl_ext _ _ _ fun k c hc => ?_
  rw [(toNat_of_isDigit (isDigit_of_mem_toDigits hc)).2, Nat.mul_comm]
  rfl

theorem length_digits (n : ℕ) : (digits n).length = digitCount n := by
  rw [digits_eq_map, List.length_map, digitCount]

/-! ### Zeros at the end -/

/-- What is left off at the end are zeros. -/
theorem exists_eq_trimRight_append (ds : Text) :
    ∃ k, ds = trimRight ds ++ List.replicate k 0x30 := by
  have hzeros : ∀ u ∈ ds.reverse.takeWhile (fun u => decide (u = (0x30 : CodeUnit))), u = 0x30 :=
    fun u hu => by simpa using List.mem_takeWhile_imp hu
  refine ⟨(ds.reverse.takeWhile (· = 0x30)).length, ?_⟩
  calc ds = (ds.reverse.takeWhile (· = 0x30) ++ ds.reverse.dropWhile (· = 0x30)).reverse := by
        rw [List.takeWhile_append_dropWhile, List.reverse_reverse]
    _ = trimRight ds ++ (ds.reverse.takeWhile (· = 0x30)).reverse := by
        rw [List.reverse_append, trimRight]
    _ = trimRight ds ++ List.replicate (ds.reverse.takeWhile (· = 0x30)).length 0x30 := by
        conv_lhs => rw [List.eq_replicate_iff.mpr ⟨rfl, hzeros⟩, List.reverse_replicate]

/-- What is left does not end in a zero. -/
theorem getLast?_trimRight (ds : Text) : (trimRight ds).getLast? ≠ some 0x30 := by
  rw [trimRight, List.getLast?_reverse]
  intro h
  have := List.head?_dropWhile_not (fun u : CodeUnit => decide (u = 0x30)) ds.reverse
  rw [h] at this
  simp at this

/-! ### The parts of a text -/

/-- The sign of a written number. -/
def sign (negative : Bool) : Text := if negative then [0x2D] else []

theorem signOf_sign (negative : Bool) : SignOf (sign negative) negative := by
  cases negative
  · exact .none
  · exact .minus

theorem behind_point (f : Text) : Behind (point f) f := by
  unfold point
  split
  · next h => rw [h]; exact .none
  · exact .some f

/-- A written number is read by its parts. -/
theorem read?_written (negative : Bool) {w f e : Text} {k : ℤ} (hw : AllDigits w) (hne : w ≠ [])
    (hf : AllDigits f) (he : Scale e k) :
    read? (sign negative ++ (w ++ (point f ++ e))) =
      some ⟨negative, ofDigits (w ++ f), k - f.length⟩ := by
  have hread := read?_parts (List.nil_subset _) (signOf_sign negative) hw (behind_point f) hf
    (List.append_ne_nil_of_left_ne_nil hne f) he
  rwa [List.nil_append, List.append_assoc w] at hread

/-! ### Two notations -/

/-- The digits in front of the point. -/
def wholePart (place : ℤ) (ds : Text) : Text :=
  if place < 0 then [0x30]
  else ds.take (place.toNat + 1) ++ List.replicate (place.toNat + 1 - ds.length) 0x30

/-- The digits behind it. -/
def fractionPart (place : ℤ) (ds : Text) : Text :=
  if place < 0 then List.replicate (-place - 1).toNat 0x30 ++ ds else ds.drop (place.toNat + 1)

/-- A positional text by its parts. -/
theorem positional_eq (place : ℤ) (hne : ds ≠ []) :
    positional place ds = wholePart place ds ++ point (fractionPart place ds) := by
  unfold positional wholePart fractionPart
  split
  · rw [point, if_neg (List.append_ne_nil_of_right_ne_nil _ hne)]
    rfl
  · rfl

/-- The sign of an exponent and its digits. -/
def exponentPart (width : ℕ) (place : ℤ) : Text :=
  0x65 :: (if place < 0 then 0x2D else 0x2B) :: padLeft width (digits place.natAbs)

theorem scientific_eq (width : ℕ) (place : ℤ) (ds : Text) :
    scientific width place ds = ds.take 1 ++ (point (ds.drop 1) ++ exponentPart width place) := by
  rw [scientific, exponentPart, List.append_assoc]

/-! ### Values of texts -/

theorem allDigits_positional (h : AllDigits ds) (place : ℤ) :
    AllDigits (wholePart place ds) ∧ AllDigits (fractionPart place ds) := by
  unfold wholePart fractionPart
  split
  · exact ⟨allDigits_zeros 1, (allDigits_zeros _).append h⟩
  · exact ⟨(h.subset (List.take_subset _ _)).append (allDigits_zeros _),
      h.subset (List.drop_subset _ _)⟩

theorem wholePart_ne_nil (hne : ds ≠ []) (place : ℤ) : wholePart place ds ≠ [] := by
  unfold wholePart
  split
  · exact List.cons_ne_nil _ _
  · refine List.append_ne_nil_of_left_ne_nil ?_ _
    rw [Ne, List.take_eq_nil_iff]
    exact not_or.mpr ⟨Nat.succ_ne_zero _, hne⟩

/-- The digits stand in their places, whatever zeros stand around them. -/
theorem positional_value (place : ℤ) (ds : Text) :
    (ofDigits (wholePart place ds ++ fractionPart place ds) : ℚ) *
        10 ^ (0 - ((fractionPart place ds).length : ℤ)) =
      ofDigits ds * 10 ^ (place + 1 - ds.length) := by
  unfold wholePart fractionPart
  split
  · next hneg =>
      have hzero : ofDigits ([0x30] ++ (List.replicate (-place - 1).toNat 0x30 ++ ds)) =
          ofDigits ds := by
        rw [ofDigits_append, ofDigits_append, ofDigits_zeros]
        simp [ofDigits]
      rw [hzero, List.length_append, List.length_replicate]
      congr 2
      omega
  · next hpos =>
      generalize hn : place.toNat + 1 = n
      have hplace : place + 1 = n := by omega
      rw [hplace]
      rcases Nat.le_total ds.length n with hle | hge
      · -- zeros behind the digits
        rw [List.take_of_length_le hle, List.drop_of_length_le hle, List.append_nil,
          ofDigits_append, ofDigits_zeros, List.length_replicate, ← Nat.cast_sub hle, zpow_natCast]
        push_cast
        simp
      · -- a point between them
        rw [Nat.sub_eq_zero_of_le hge, List.replicate_zero, List.append_nil,
          List.take_append_drop, List.length_drop, Nat.cast_sub hge]
        congr 2
        ring

theorem scale_exponentPart (width : ℕ) (place : ℤ) : Scale (exponentPart width place) place := by
  have hdigits : Numeral (padLeft width (digits place.natAbs)) :=
    ⟨List.append_ne_nil_of_right_ne_nil _ (digits_ne_nil _),
      (allDigits_zeros _).append (allDigits_digits _)⟩
  have hvalue : digitsValue (padLeft width (digits place.natAbs)) = place.natAbs := by
    rw [← ofDigits_eq, padLeft, ofDigits_append, ofDigits_zeros, ofDigits_digits, zero_mul,
      zero_add]
  unfold exponentPart
  by_cases hneg : place < 0
  · have h := Scale.some (.inl rfl) .minus hdigits
    rw [if_pos rfl, hvalue, show -(place.natAbs : ℤ) = place by omega] at h
    rwa [if_pos hneg]
  · have h := Scale.some (.inl rfl) .plus hdigits
    rw [if_neg Bool.false_ne_true, hvalue, show (place.natAbs : ℤ) = place by omega] at h
    rwa [if_neg hneg]

/-- Either notation is read with its sign and the value of its digits in their places. -/
def ReadsAs (t : Text) (negative : Bool) (value : ℚ) : Prop :=
  ∃ d, read? t = some d ∧ d.negative = negative ∧ d.absolute = value

theorem readsAs_positional (negative : Bool) (h : AllDigits ds) (hne : ds ≠ []) (place : ℤ) :
    ReadsAs (sign negative ++ positional place ds) negative
      (ofDigits ds * 10 ^ (place + 1 - ds.length)) := by
  obtain ⟨hw, hf⟩ := allDigits_positional h place
  have hread := read?_written negative hw (wholePart_ne_nil hne place) hf .none
  rw [List.append_nil, ← positional_eq place hne] at hread
  exact ⟨_, hread, rfl, positional_value place ds⟩

theorem readsAs_scientific (negative : Bool) (h : AllDigits ds) (hne : ds ≠ []) (width : ℕ)
    (place : ℤ) :
    ReadsAs (sign negative ++ scientific width place ds) negative
      (ofDigits ds * 10 ^ (place + 1 - ds.length)) := by
  have htake : ds.take 1 ≠ [] := by
    rw [Ne, List.take_eq_nil_iff]
    exact not_or.mpr ⟨Nat.one_ne_zero, hne⟩
  have hread := read?_written negative (h.subset (List.take_subset 1 ds)) htake
    (h.subset (List.drop_subset 1 ds)) (scale_exponentPart width place)
  rw [List.take_append_drop, ← scientific_eq] at hread
  refine ⟨_, hread, rfl, ?_⟩
  have hlen : 1 ≤ ds.length := List.length_pos_iff.mpr hne
  rw [absolute, List.length_drop, Nat.cast_sub hlen]
  congr 2
  push_cast
  ring

/-- The digits that are written stand in the places that they have in the decimal. -/
theorem absolute_eq_trimRight (d : Decimal) :
    d.absolute = ofDigits (trimRight (digits d.coefficient)) *
      10 ^ (d.exponent + ((digits d.coefficient).length - 1 : ℕ) + 1 -
        (trimRight (digits d.coefficient)).length : ℤ) := by
  obtain ⟨k, hk⟩ := exists_eq_trimRight_append (digits d.coefficient)
  have hlen := congrArg List.length hk
  have hcoefficient := congrArg ofDigits hk
  have hpos := List.length_pos_iff.mpr (digits_ne_nil d.coefficient)
  rw [List.length_append, List.length_replicate] at hlen
  rw [ofDigits_digits, ofDigits_append, ofDigits_zeros, List.length_replicate, add_zero]
    at hcoefficient
  have hvalue :
      (d.coefficient : ℚ) = ofDigits (trimRight (digits d.coefficient)) * 10 ^ (k : ℤ) := by
    rw [zpow_natCast]
    exact_mod_cast hcoefficient
  rw [absolute, hvalue, mul_assoc, ← zpow_add₀ (by norm_num)]
  congr 2
  omega

/-- A written decimal is read with its sign and its value. -/
theorem readsAs_write (l : Layout) (d : Decimal) : ReadsAs (d.write l) d.negative d.absolute := by
  by_cases hzero : d.coefficient = 0
  · simp only [write, if_pos hzero]
    have hread := read?_written d.negative (allDigits_zeros 1) (List.cons_ne_nil _ _)
      (List.forall_mem_nil _) .none
    refine ⟨_, hread, rfl, ?_⟩
    rw [absolute, absolute, hzero, Nat.cast_zero, zero_mul]
    exact mul_eq_zero_of_left (Nat.cast_eq_zero.mpr rfl) _
  · have hds := (significant_digits hzero).trimRight
    rw [absolute_eq_trimRight d]
    simp only [write, if_neg hzero]
    split
    · exact readsAs_positional _ hds.digits hds.ne_nil _
    · exact readsAs_scientific _ hds.digits hds.ne_nil _ _

end JsonDocument.Decimal
