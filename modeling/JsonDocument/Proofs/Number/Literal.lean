import Mathlib.Data.List.Basic
import Mathlib.Data.List.TakeWhile
import JsonDocument.Number.Literal
import JsonDocument.Proofs.Texts

/-!
# Proofs — Number — literals of the grammar

What the library writes for a number is a number of the grammar: a decimal in any layout, and so a
double with fifteen digits or with the fewest, and an integer of any size.

A coefficient above zero has digits of which the first is not zero, and the digits stay so without
the zeros at their end (`Significant`).  They are the integer, or they stand on both sides of the
point, or the integer is a zero and they stand behind the point after other zeros.

* `significant_digits`, `Significant.trimRight`: the digits that are written.
* `isLiteral_positional`, `isLiteral_scientific`: the two notations.
* `isLiteral_write`, `isLiteral_ofInt`: decimals and integers.
-/

namespace JsonDocument

open Grammar Decimal

variable {t m i f e ds : Text}

/-! ### Texts of parts of a number -/

/-- The ASCII text of bytes with the property `G`. -/
def Spelt (G : Bytes → Prop) (t : Text) : Prop := ∃ s, G s ∧ t = asciiText s

/-- Digits, or nothing. -/
def AllDigits (t : Text) : Prop := ∀ u ∈ t, isDigit u = true

theorem AllDigits.append {x y : Text} (h : AllDigits x) (h' : AllDigits y) : AllDigits (x ++ y) :=
  List.forall_mem_append.mpr ⟨h, h'⟩

theorem AllDigits.subset {x y : Text} (h : AllDigits y) (hxy : x ⊆ y) : AllDigits x :=
  fun u hu => h u (hxy hu)

theorem allDigits_zeros (n : Nat) : AllDigits (List.replicate n 0x30) := fun _ hu =>
  List.eq_of_mem_replicate hu ▸ by decide

/-- Digits are the text of digits of the grammar, which start alike. -/
theorem exists_digits (h : AllDigits t) :
    ∃ s : Bytes, (∀ b ∈ s, IsDigit b) ∧ t = asciiText s ∧ t.head? = s.head?.map UInt8.toUInt16 := by
  induction t with
  | nil => exact ⟨[], by simp, rfl, rfl⟩
  | cons u t ih =>
      obtain ⟨hu, ht⟩ := List.forall_mem_cons.mp h
      obtain ⟨s, hs, rfl, -⟩ := ih ht
      simp only [isDigit, decide_eq_true_eq] at hu
      have hb : u.toUInt8.toNat = u.toNat := by
        rw [UInt16.toNat_toUInt8]
        exact Nat.mod_eq_of_lt (by omega)
      have hword : u = u.toUInt8.toUInt16 := by
        rw [← UInt16.toNat_inj, UInt8.toNat_toUInt16, hb]
      refine ⟨u.toUInt8 :: s, List.forall_mem_cons.mpr ⟨?_, hs⟩, ?_, congrArg some hword⟩
      · rw [IsDigit, UInt8.le_iff_toNat_le, UInt8.le_iff_toNat_le, hb]
        exact hu
      · exact congrArg (· :: asciiText s) hword

theorem spelt_digits (h : AllDigits t) (hne : t ≠ []) : Spelt Digits t := by
  obtain ⟨s, hs, rfl, -⟩ := exists_digits h
  exact ⟨s, ⟨fun hnil => hne (by rw [hnil]; rfl), hs⟩, rfl⟩

theorem spelt_point (h : AllDigits t) : Spelt Fraction (point t) := by
  unfold point
  split
  · exact ⟨[], .none, rfl⟩
  · next hne =>
      obtain ⟨s, hs, rfl⟩ := spelt_digits h hne
      exact ⟨0x2E :: s, .some hs, rfl⟩

theorem spelt_exponent {g : CodeUnit} (hg : g = 0x2B ∨ g = 0x2D) (h : AllDigits t) (hne : t ≠ []) :
    Spelt Exponent (0x65 :: g :: t) := by
  obtain ⟨s, hs, rfl⟩ := spelt_digits h hne
  rcases hg with rfl | rfl
  · exact ⟨0x65 :: [0x2B] ++ s, .some (.inl rfl) (.inr (.inl rfl)) hs, rfl⟩
  · exact ⟨0x65 :: [0x2D] ++ s, .some (.inl rfl) (.inr (.inr rfl)) hs, rfl⟩

/-- A literal is put together from its parts. -/
theorem isLiteral_append (hm : m = [] ∨ m = [0x2D]) (hi : Spelt Integer i) (hf : Spelt Fraction f)
    (he : Spelt Exponent e) : IsLiteral (m ++ i ++ f ++ e) := by
  obtain ⟨i, hi, rfl⟩ := hi
  obtain ⟨f, hf, rfl⟩ := hf
  obtain ⟨e, he, rfl⟩ := he
  rcases hm with rfl | rfl
  · exact ⟨[] ++ i ++ f ++ e, .mk (.inl rfl) hi hf he, by simp [asciiText]⟩
  · exact ⟨[0x2D] ++ i ++ f ++ e, .mk (.inr rfl) hi hf he, by simp [asciiText]⟩

theorem spelt_zero : Spelt Integer [0x30] := ⟨[0x30], .zero, rfl⟩

theorem spelt_no_fraction : Spelt Fraction [] := ⟨[], .none, rfl⟩

theorem spelt_no_exponent : Spelt Exponent [] := ⟨[], .none, rfl⟩

theorem isLiteral_fraction (hm : m = [] ∨ m = [0x2D]) (hi : Spelt Integer i)
    (hf : Spelt Fraction f) : IsLiteral (m ++ (i ++ f)) := by
  have := isLiteral_append hm hi hf spelt_no_exponent
  rwa [List.append_nil, List.append_assoc] at this

theorem isLiteral_integer (hm : m = [] ∨ m = [0x2D]) (hi : Spelt Integer i) :
    IsLiteral (m ++ i) := by
  have := isLiteral_fraction hm hi spelt_no_fraction
  rwa [List.append_nil] at this

/-! ### Digits of a coefficient -/

/-- Digits of which the first is not zero. -/
structure Significant (ds : Text) : Prop where
  ne_nil : ds ≠ []
  digits : AllDigits ds
  head : ds.head? ≠ some 0x30

theorem Significant.spelt (h : Significant ds) : Spelt Integer ds := by
  obtain ⟨s, hs, rfl, hhead⟩ := exists_digits h.digits
  refine ⟨s, .digits ⟨fun hnil => h.ne_nil (by rw [hnil]; rfl), hs⟩ fun h₀ => h.head ?_, rfl⟩
  rw [hhead, h₀]
  rfl

theorem Significant.append (h : Significant ds) (ht : AllDigits t) : Significant (ds ++ t) where
  ne_nil := List.append_ne_nil_of_left_ne_nil h.ne_nil t
  digits := h.digits.append ht
  head := by rw [List.head?_append_of_ne_nil ds h.ne_nil]; exact h.head

theorem Significant.of_prefix {x : Text} (h : Significant ds) (hx : x <+: ds) (hne : x ≠ []) :
    Significant x where
  ne_nil := hne
  digits := h.digits.subset hx.subset
  head := by
    obtain ⟨y, rfl⟩ := hx
    have := h.head
    rwa [List.head?_append_of_ne_nil x hne] at this

/-- The digits of a number above zero do not start with zero. -/
theorem exists_head_toDigits {n : Nat} (h : n ≠ 0) :
    ∃ c cs, Nat.toDigits 10 n = c :: cs ∧ c ≠ '0' := by
  induction n using Nat.strongRecOn with
  | ind n ih =>
      rcases Nat.lt_or_ge n 10 with hlt | hge
      · refine ⟨n.digitChar, [], Nat.toDigits_of_lt_base hlt, ?_⟩
        exact (by decide : ∀ k : Fin 10, k.val ≠ 0 → k.val.digitChar ≠ '0') ⟨n, hlt⟩ h
      · obtain ⟨c, cs, hcs, hc⟩ := ih (n / 10) (by omega) (by omega)
        refine ⟨c, cs ++ [(n % 10).digitChar], ?_, hc⟩
        rw [Nat.toDigits_of_base_le (by decide) hge, hcs]
        rfl

/-- A digit is a character of one unit. -/
theorem toNat_of_isDigit {c : Char} (h : c.isDigit = true) :
    (0x30 ≤ c.toNat ∧ c.toNat ≤ 0x39) ∧ (UInt16.ofNat c.toNat).toNat = c.toNat := by
  simp only [Char.isDigit, Bool.and_eq_true, decide_eq_true_eq, ge_iff_le,
    UInt32.le_iff_toNat_le] at h
  refine ⟨h, ?_⟩
  rw [UInt16.toNat_ofNat']
  exact Nat.mod_eq_of_lt (Nat.lt_of_le_of_lt h.2 (by decide))

theorem ofChars_eq_map {cs : List Char} (h : ∀ c ∈ cs, c.isDigit = true) :
    Text.ofChars cs = cs.map fun c => UInt16.ofNat c.toNat := by
  induction cs with
  | nil => rfl
  | cons c cs ih =>
      obtain ⟨hc, hcs⟩ := List.forall_mem_cons.mp h
      have hlt : c.toNat < 0x10000 := Nat.lt_of_le_of_lt (toNat_of_isDigit hc).1.2 (by decide)
      rw [Text.ofChars, List.flatMap_cons, ← Text.ofChars, ih hcs, Text.ofCodePoint, if_pos hlt]
      rfl

theorem isDigit_of_mem_toDigits {n : Nat} {c : Char} (h : c ∈ Nat.toDigits 10 n) :
    c.isDigit = true :=
  Nat.isDigit_of_mem_toDigits (by decide) (by decide) h

theorem digits_eq_map (n : Nat) :
    digits n = (Nat.toDigits 10 n).map fun c => UInt16.ofNat c.toNat :=
  ofChars_eq_map fun _ => isDigit_of_mem_toDigits

theorem digits_ne_nil (n : Nat) : digits n ≠ [] := by
  rw [digits_eq_map, Ne, List.map_eq_nil_iff]
  exact Nat.toDigits_ne_nil

theorem allDigits_digits (n : Nat) : AllDigits (digits n) := by
  rw [digits_eq_map]
  intro u hu
  obtain ⟨c, hc, rfl⟩ := List.mem_map.mp hu
  obtain ⟨hrange, hword⟩ := toNat_of_isDigit (isDigit_of_mem_toDigits hc)
  rw [isDigit, decide_eq_true_eq, hword]
  exact hrange

theorem significant_digits {n : Nat} (h : n ≠ 0) : Significant (digits n) where
  ne_nil := digits_ne_nil n
  digits := allDigits_digits n
  head := by
    obtain ⟨c, cs, hcs, hc⟩ := exists_head_toDigits h
    have hmem : c ∈ Nat.toDigits 10 n := hcs ▸ List.mem_cons_self ..
    obtain ⟨-, hword⟩ := toNat_of_isDigit (isDigit_of_mem_toDigits hmem)
    rw [digits_eq_map, hcs, List.map_cons, List.head?_cons]
    intro hu
    refine hc (Char.toNat_inj.mp ?_)
    rw [← hword, Option.some.inj hu]
    rfl

/-- Without the zeros at the end. -/
theorem Significant.trimRight (h : Significant ds) : Significant (Decimal.trimRight ds) := by
  have hprefix : Decimal.trimRight ds <+: ds := by
    have := List.reverse_prefix.mpr (List.dropWhile_suffix (l := ds.reverse) (· = (0x30 : CodeUnit)))
    rwa [List.reverse_reverse] at this
  refine h.of_prefix hprefix fun hnil => h.head ?_
  -- if nothing were left, all digits would be zeros
  rw [Decimal.trimRight, List.reverse_eq_nil_iff, List.dropWhile_eq_nil_iff] at hnil
  cases ds with
  | nil => exact absurd rfl h.ne_nil
  | cons u ds =>
      have := hnil u (List.mem_reverse.mpr (List.mem_cons_self ..))
      rw [decide_eq_true_eq] at this
      rw [this, List.head?_cons]

/-! ### Two notations -/

theorem isLiteral_positional (hm : m = [] ∨ m = [0x2D]) (h : Significant ds) (place : Int) :
    IsLiteral (m ++ positional place ds) := by
  unfold positional
  split
  · -- a zero, and the digits behind the point
    have hf : AllDigits (List.replicate (-place - 1).toNat 0x30 ++ ds) :=
      (allDigits_zeros _).append h.digits
    have hne : List.replicate (-place - 1).toNat 0x30 ++ ds ≠ [] :=
      List.append_ne_nil_of_right_ne_nil _ h.ne_nil
    have := isLiteral_fraction hm spelt_zero (spelt_point hf)
    rwa [point, if_neg hne] at this
  · have htake : ds.take (place.toNat + 1) ≠ [] := by
      rw [Ne, List.take_eq_nil_iff]
      exact not_or.mpr ⟨Nat.succ_ne_zero _, h.ne_nil⟩
    have hi := (h.of_prefix (List.take_prefix _ _) htake).append
      (allDigits_zeros (place.toNat + 1 - ds.length))
    have hf : AllDigits (ds.drop (place.toNat + 1)) := h.digits.subset (List.drop_subset _ _)
    exact isLiteral_fraction hm hi.spelt (spelt_point hf)

theorem isLiteral_scientific (hm : m = [] ∨ m = [0x2D]) (h : Significant ds) (width : Nat)
    (place : Int) : IsLiteral (m ++ scientific width place ds) := by
  have htake : ds.take 1 ≠ [] := by
    rw [Ne, List.take_eq_nil_iff]
    exact not_or.mpr ⟨Nat.one_ne_zero, h.ne_nil⟩
  have hf : AllDigits (ds.drop 1) := h.digits.subset (List.drop_subset _ _)
  have he : AllDigits (padLeft width (digits place.natAbs)) :=
    (allDigits_zeros _).append (allDigits_digits _)
  have hne : padLeft width (digits place.natAbs) ≠ [] :=
    List.append_ne_nil_of_right_ne_nil _ (digits_ne_nil _)
  have := isLiteral_append hm (h.of_prefix (List.take_prefix _ _) htake).spelt (spelt_point hf)
    (spelt_exponent (ite_eq_or_eq (place < 0) 0x2D 0x2B).symm he hne)
  rwa [List.append_assoc, List.append_assoc, ← List.append_assoc (ds.take 1)] at this

/-! ### Decimals and integers -/

/-- A decimal in any layout is a number of the grammar. -/
theorem isLiteral_write (l : Layout) (d : Decimal) : IsLiteral (d.write l) := by
  have hm := (ite_eq_or_eq (d.negative = true) ([0x2D] : Text) []).symm
  by_cases hzero : d.coefficient = 0
  · simp only [Decimal.write, if_pos hzero]
    exact isLiteral_integer hm spelt_zero
  · have hds := (significant_digits hzero).trimRight
    simp only [Decimal.write, if_neg hzero]
    split
    · exact isLiteral_positional hm hds _
    · exact isLiteral_scientific hm hds _ _

/-- An integer is a number of the grammar. -/
theorem isLiteral_ofInt (n : Int) : IsLiteral (ofInt n) := by
  have hi : Spelt Integer (digits n.natAbs) := by
    by_cases h : n.natAbs = 0
    · rw [h]
      exact spelt_zero
    · exact (significant_digits h).spelt
  unfold ofInt
  split
  · exact isLiteral_integer (.inr rfl) hi
  · exact isLiteral_integer (.inl rfl) hi

end JsonDocument
