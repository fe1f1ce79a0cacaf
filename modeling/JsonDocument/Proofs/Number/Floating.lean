import Mathlib.Data.List.TakeWhile
import Mathlib.Data.Nat.Digits.Defs
import JsonDocument.Proofs.Number.Literal
import JsonDocument.Proofs.Number.Value

/-!
# Proofs — Number — literals with a value

The texts that have a value as numbers, and the value that they have.  A floating literal is white
space, a sign, digits around a point, and an exponent; its value is given by its sign and an exact
absolute value, since zero has two signs.  An integer literal is digits behind a minus sign or none.
Nothing is said here of how a text is read.

* `Floating`, `Integral`: the literals and what they are worth.
* `floating_iff`, `integral_iff`: exactly these literals are read, and as what they are worth.
* `IsLiteral.floating`, `Integral.floating`: numbers of the grammar and integers are floating
  literals.
-/

namespace JsonDocument

open Decimal

variable {t w g m p e ds fs x y : Text} {negative : Bool} {v : ℚ} {k n : ℤ}

/-! ### The literals and their values -/

/-- What digits are worth: the last one counts ones, the one before it tens, and so on. -/
def digitsValue (ds : Text) : ℕ := Nat.ofDigits 10 (ds.reverse.map fun u => u.toNat - 0x30)

/-- Digits, one at least. -/
structure Numeral (ds : Text) : Prop where
  ne_nil : ds ≠ []
  digits : AllDigits ds

/-- The six characters that may stand in front. -/
def spaces : Text := [0x09, 0x0A, 0x0B, 0x0C, 0x0D, 0x20]

/-- A plus, a minus or nothing, and whether it is a minus. -/
inductive SignOf : Text → Bool → Prop where
  | none : SignOf [] false
  | plus : SignOf [0x2B] false
  | minus : SignOf [0x2D] true

/-- Digits, digits and a point with digits behind it or none, or a point and digits. -/
inductive Mantissa : Text → ℚ → Prop where
  | whole {ds : Text} (h : Numeral ds) : Mantissa ds (digitsValue ds)
  | point {ds fs : Text} (h : Numeral ds) (hf : AllDigits fs) :
      Mantissa (ds ++ 0x2E :: fs) (digitsValue ds + digitsValue fs / 10 ^ fs.length)
  | fraction {fs : Text} (h : Numeral fs) :
      Mantissa (0x2E :: fs) (digitsValue fs / 10 ^ fs.length)

/-- The letter `e` of either case, a sign and digits, or nothing. -/
inductive Scale : Text → ℤ → Prop where
  | none : Scale [] 0
  | some {c : CodeUnit} {g ds : Text} {negative : Bool} (hc : c = 0x65 ∨ c = 0x45)
      (hg : SignOf g negative) (h : Numeral ds) :
      Scale (c :: (g ++ ds)) (if negative then -digitsValue ds else digitsValue ds)

/-- A floating literal, whether its sign is a minus, and its absolute value. -/
inductive Floating : Text → Bool → ℚ → Prop where
  | mk {w g m e : Text} {negative : Bool} {v : ℚ} {k : ℤ} (hw : w ⊆ spaces)
      (hg : SignOf g negative) (hm : Mantissa m v) (he : Scale e k) :
      Floating (w ++ (g ++ (m ++ e))) negative (v * 10 ^ k)

/-- An integer literal and its value. -/
inductive Integral : Text → ℤ → Prop where
  | plain {ds : Text} (h : Numeral ds) : Integral ds (digitsValue ds)
  | minus {ds : Text} (h : Numeral ds) : Integral (0x2D :: ds) (-digitsValue ds)

/-! ### What digits spell -/

theorem digitsValue_append (xs ys : Text) :
    digitsValue (xs ++ ys) = digitsValue xs * 10 ^ ys.length + digitsValue ys := by
  rw [digitsValue, List.reverse_append, List.map_append, Nat.ofDigits_append, List.length_map,
    List.length_reverse, ← digitsValue, ← digitsValue]
  ring

theorem ofDigits_eq (ds : Text) : ofDigits ds = digitsValue ds := by
  induction ds using List.reverseRecOn with
  | nil => rfl
  | append_singleton ds d ih =>
      rw [digitsValue_append, ← ih, ofDigits, List.foldl_append, ← ofDigits]
      simp [digitsValue]

theorem ofDigits_append (xs ys : Text) :
    ofDigits (xs ++ ys) = ofDigits xs * 10 ^ ys.length + ofDigits ys := by
  simp only [ofDigits_eq, digitsValue_append]

theorem numeral_iff : ds ≠ [] ∧ ds.all isDigit = true ↔ Numeral ds := by
  rw [List.all_eq_true]
  exact ⟨fun h => ⟨h.1, h.2⟩, fun h => ⟨h.ne_nil, h.digits⟩⟩

theorem isSpace_iff {u : CodeUnit} : isSpace u = true ↔ u ∈ spaces := by
  have hu : ∀ c : CodeUnit, u = c ↔ u.toNat = c.toNat := fun c => UInt16.toNat_inj.symm
  simp only [isSpace, spaces, Bool.or_eq_true, decide_eq_true_eq, List.mem_cons, hu,
    List.not_mem_nil, or_false, UInt16.reduceToNat]
  omega

/-- A text of digits, as far as they go. -/
theorem takeWhile_digits {x y : Text} (hx : AllDigits x) (hy : ∀ u ∈ y.head?, isDigit u = false) :
    (x ++ y).takeWhile isDigit = x ∧ (x ++ y).dropWhile isDigit = y := by
  rw [List.takeWhile_append_of_pos hx, List.dropWhile_append_of_pos hx]
  cases y with
  | nil => exact ⟨List.append_nil x, rfl⟩
  | cons u y =>
      have hu : ¬ isDigit u = true := by rw [hy u rfl]; decide
      rw [List.takeWhile_cons_of_neg hu, List.dropWhile_cons_of_neg hu]
      exact ⟨List.append_nil x, rfl⟩

theorem ne_of_isDigit {u c : CodeUnit} (hu : isDigit u = true) (hc : isDigit c = false) :
    u ≠ c := by
  rintro rfl
  rw [hu] at hc
  cases hc

/-! ### Signs -/

theorem exists_signOf (t : Text) : ∃ g, SignOf g (splitSign t).1 ∧ t = g ++ (splitSign t).2 := by
  cases t with
  | nil => exact ⟨[], .none, rfl⟩
  | cons u t =>
      rw [splitSign]
      split
      · next h => exact ⟨[0x2D], .minus, by rw [h]; rfl⟩
      · split
        · next h => exact ⟨[0x2B], .plus, by rw [h]; rfl⟩
        · exact ⟨[], .none, rfl⟩

theorem splitSign_append (hg : SignOf g negative) (hx : ∀ u ∈ x.head?, u ≠ 0x2D ∧ u ≠ 0x2B) :
    splitSign (g ++ x) = (negative, x) := by
  cases hg with
  | none =>
      cases x with
      | nil => rfl
      | cons u x =>
          obtain ⟨h₁, h₂⟩ := hx u rfl
          rw [List.nil_append, splitSign, if_neg h₁, if_neg h₂]
  | plus => rfl
  | minus => rfl

theorem Numeral.head_ne_sign (h : Numeral ds) : ∀ u ∈ ds.head?, u ≠ 0x2D ∧ u ≠ 0x2B := by
  intro u hu
  have hd := h.digits u (List.mem_of_mem_head? hu)
  exact ⟨ne_of_isDigit hd rfl, ne_of_isDigit hd rfl⟩

/-! ### Exponents -/

/-- The exponents that are read, with their values. -/
theorem readExponent?_eq_some_iff : readExponent? e = some k ↔ Scale e k := by
  constructor
  · intro h
    cases e with
    | nil => cases h; exact .none
    | cons c e =>
        rw [readExponent?] at h
        split at h
        · next hc =>
            obtain ⟨g, hg, he⟩ := exists_signOf e
            simp only [Option.ite_none_right_eq_some, numeral_iff, ofDigits_eq] at h
            obtain ⟨hd, hk⟩ := h
            rw [he, ← Option.some.inj hk]
            exact .some (by simpa using hc) hg hd
        · cases h
  · intro h
    cases h with
    | none => rfl
    | some hc hg h =>
        have hsplit := splitSign_append hg h.head_ne_sign
        rw [readExponent?, if_pos (by simpa using hc)]
        simp only [hsplit, if_pos (numeral_iff.mpr h), ofDigits_eq]

theorem Scale.head (h : Scale e k) : ∀ u ∈ e.head?, u = 0x65 ∨ u = 0x45 := by
  cases h with
  | none => simp
  | some hc _ _ => simpa using hc

theorem Scale.head_not_digit (h : Scale e k) : ∀ u ∈ e.head?, isDigit u = false := by
  intro u hu
  rcases h.head u hu with rfl | rfl <;> rfl

/-! ### Points -/

/-- A point and what stands behind it, or nothing. -/
inductive Behind : Text → Text → Prop where
  | none : Behind [] []
  | some (fs : Text) : Behind (0x2E :: fs) fs

/-- A mantissa by the digits before its point and behind it, of which one must be there. -/
theorem mantissa_iff : Mantissa m v ↔
    ∃ ds p fs, m = ds ++ p ∧ Behind p fs ∧ AllDigits ds ∧ AllDigits fs ∧ ds ++ fs ≠ [] ∧
      v = ofDigits (ds ++ fs) / 10 ^ fs.length := by
  have hvalue : ∀ ds fs : Text, (ofDigits (ds ++ fs) / 10 ^ fs.length : ℚ) =
      digitsValue ds + digitsValue fs / 10 ^ fs.length := by
    intro ds fs
    rw [ofDigits_eq, digitsValue_append]
    push_cast
    field_simp
  constructor
  · rintro (⟨h⟩ | ⟨h, hf⟩ | ⟨h⟩)
    · refine ⟨m, [], [], (List.append_nil m).symm, .none, h.digits, List.forall_mem_nil _, ?_, ?_⟩
      · rw [List.append_nil]
        exact h.ne_nil
      · rw [hvalue]
        simp [digitsValue]
    · exact ⟨_, _, _, rfl, .some _, h.digits, hf, List.append_ne_nil_of_left_ne_nil h.ne_nil _,
        (hvalue _ _).symm⟩
    · refine ⟨[], _, _, rfl, .some _, List.forall_mem_nil _, h.digits, h.ne_nil, ?_⟩
      rw [hvalue]
      simp [digitsValue]
  · rintro ⟨ds, p, fs, rfl, hp, hds, hfs, hne, rfl⟩
    rw [hvalue]
    cases hp with
    | none =>
        rw [List.append_nil] at hne ⊢
        have := Mantissa.whole ⟨hne, hds⟩
        simpa [digitsValue] using this
    | some =>
        rcases eq_or_ne ds [] with rfl | hds'
        · have := Mantissa.fraction ⟨hne, hfs⟩
          simpa [digitsValue] using this
        · exact .point ⟨hds', hds⟩ hfs

theorem exists_behind (t : Text) : ∃ p, Behind p (splitFraction t).1 ∧
    t = p ++ (splitFraction t).2 ∧ AllDigits (splitFraction t).1 := by
  have hnone : AllDigits [] := List.forall_mem_nil _
  cases t with
  | nil => exact ⟨[], .none, rfl, hnone⟩
  | cons u t =>
      rw [splitFraction]
      split
      · next h =>
          refine ⟨_, .some _, ?_, fun u hu => List.mem_takeWhile_imp hu⟩
          rw [h, List.cons_append, List.takeWhile_append_dropWhile]
      · exact ⟨[], .none, rfl, hnone⟩

theorem splitFraction_append (hp : Behind p fs) (hfs : AllDigits fs) (he : Scale e k) :
    splitFraction (p ++ e) = (fs, e) := by
  cases hp with
  | none =>
      cases e with
      | nil => rfl
      | cons u e =>
          have hu : u ≠ 0x2E := by rcases he.head u rfl with rfl | rfl <;> decide
          rw [List.nil_append, splitFraction, if_neg hu]
  | some =>
      obtain ⟨h₁, h₂⟩ := takeWhile_digits hfs he.head_not_digit
      rw [List.cons_append, splitFraction, if_pos rfl, h₁, h₂]

theorem Behind.head_not_digit (hp : Behind p fs) (he : Scale e k) :
    ∀ u ∈ (p ++ e).head?, isDigit u = false := by
  cases hp with
  | none => exact he.head_not_digit
  | some =>
      rintro u ⟨⟩
      rfl

/-! ### Floating literals -/

/-- In front of digits or a point white space and a sign are read off. -/
theorem splitSign_spaces (hw : w ⊆ spaces) (hg : SignOf g negative)
    (hx : ∃ u ∈ x.head?, isDigit u = true ∨ u = 0x2E) :
    splitSign ((w ++ (g ++ x)).dropWhile isSpace) = (negative, x) := by
  obtain ⟨u, hu, hstart⟩ := hx
  obtain ⟨x, rfl⟩ := List.head?_eq_some_iff.mp hu
  have hne : ∀ c : CodeUnit, isDigit c = false → c ≠ 0x2E → u ≠ c := by
    rintro c hc hc' rfl
    rcases hstart with h | h
    · rw [hc] at h
      cases h
    · exact hc' h
  have hspace : ¬ isSpace u = true := by
    rw [isSpace_iff]
    intro h
    have hall : spaces.all (fun c => decide (isDigit c = false ∧ c ≠ 0x2E)) = true := by decide
    obtain ⟨hdigit, hpoint⟩ := of_decide_eq_true (List.all_eq_true.mp hall u h)
    exact hne u hdigit hpoint rfl
  have hrest : (g ++ u :: x).dropWhile isSpace = g ++ u :: x := by
    cases hg with
    | none => exact List.dropWhile_cons_of_neg hspace
    | plus => rfl
    | minus => rfl
  rw [List.dropWhile_append_of_pos fun c hc => isSpace_iff.mpr (hw hc), hrest]
  refine splitSign_append hg ?_
  rintro _ ⟨⟩
  exact ⟨hne _ rfl (by decide), hne _ rfl (by decide)⟩

/-- A floating literal is read by its parts. -/
theorem read?_parts (hw : w ⊆ spaces) (hg : SignOf g negative) (hds : AllDigits ds)
    (hp : Behind p fs) (hfs : AllDigits fs) (hne : ds ++ fs ≠ []) (he : Scale e k) :
    read? (w ++ (g ++ (ds ++ p ++ e))) = some ⟨negative, ofDigits (ds ++ fs), k - fs.length⟩ := by
  obtain ⟨h₁, h₂⟩ := takeWhile_digits hds (hp.head_not_digit he)
  have hstart : ∃ u ∈ (ds ++ (p ++ e)).head?, isDigit u = true ∨ u = 0x2E := by
    cases ds with
    | cons u ds => exact ⟨u, rfl, .inl (hds u List.mem_cons_self)⟩
    | nil =>
        cases hp with
        | none => exact absurd rfl hne
        | some => exact ⟨0x2E, rfl, .inr rfl⟩
  rw [List.append_assoc, read?, splitSign_spaces hw hg hstart]
  simp only [h₁, h₂, splitFraction_append hp hfs he, readExponent?_eq_some_iff.mpr he,
    Option.map_some]
  rw [if_neg hne]

/-- What is read has these parts. -/
theorem exists_parts {d : Decimal} (h : read? t = some d) :
    ∃ w g ds p fs e k, t = w ++ (g ++ (ds ++ p ++ e)) ∧ w ⊆ spaces ∧ SignOf g d.negative ∧
      AllDigits ds ∧ Behind p fs ∧ AllDigits fs ∧ ds ++ fs ≠ [] ∧ Scale e k ∧
      d = ⟨d.negative, ofDigits (ds ++ fs), k - fs.length⟩ := by
  obtain ⟨g, hg, hsign⟩ := exists_signOf (t.dropWhile isSpace)
  rw [read?] at h
  generalize splitSign (t.dropWhile isSpace) = r at h hg hsign
  obtain ⟨negative, r⟩ := r
  obtain ⟨p, hp, hpoint, hfs⟩ := exists_behind (r.dropWhile isDigit)
  simp only at h hg hsign
  generalize splitFraction (r.dropWhile isDigit) = q at h hp hpoint hfs
  obtain ⟨fs, e⟩ := q
  simp only [Option.ite_none_left_eq_some, Option.map_eq_some_iff] at h hp hpoint hfs
  obtain ⟨hne, k, hk, rfl⟩ := h
  refine ⟨t.takeWhile isSpace, g, r.takeWhile isDigit, p, fs, e, k, ?_, ?_, hg,
    fun u hu => List.mem_takeWhile_imp hu, hp, hfs, hne, readExponent?_eq_some_iff.mp hk, rfl⟩
  · rw [List.append_assoc, ← hpoint, List.takeWhile_append_dropWhile, ← hsign,
      List.takeWhile_append_dropWhile]
  · exact fun u hu => isSpace_iff.mp (List.mem_takeWhile_imp hu)

/-- The floating literals are the texts that are read, and are worth what is read. -/
theorem floating_iff : Floating t negative v ↔
    ∃ d, read? t = some d ∧ d.negative = negative ∧ d.absolute = v := by
  have hvalue : ∀ (c l : ℕ) (k : ℤ), (c : ℚ) * 10 ^ (k - l : ℤ) = c / 10 ^ l * 10 ^ k := by
    intro c l k
    rw [zpow_sub₀ (by norm_num), zpow_natCast]
    ring
  constructor
  · rintro ⟨hw, hg, hm, he⟩
    obtain ⟨ds, p, fs, rfl, hp, hds, hfs, hne, rfl⟩ := mantissa_iff.mp hm
    exact ⟨_, read?_parts hw hg hds hp hfs hne he, rfl, hvalue _ _ _⟩
  · rintro ⟨d, hd, rfl, rfl⟩
    obtain ⟨w, g, ds, p, fs, e, k, rfl, hw, hg, hds, hp, hfs, hne, he, hparts⟩ := exists_parts hd
    rw [absolute, hparts, hvalue]
    exact .mk hw hg (mantissa_iff.mpr ⟨ds, p, fs, rfl, hp, hds, hfs, hne, rfl⟩) he

/-! ### Integer literals -/

/-- The integer literals are the texts that are read as integers, and are worth what is read. -/
theorem integral_iff : Integral t n ↔ readInteger? t = some n := by
  constructor
  · rintro (⟨h⟩ | ⟨h⟩)
    · cases t with
      | nil => exact absurd rfl h.ne_nil
      | cons u ds =>
          have hu : u ≠ 0x2D := (h.head_ne_sign u rfl).1
          rw [readInteger?, if_neg hu, if_pos (numeral_iff.mpr h).2, ofDigits_eq]
    · rw [readInteger?, if_pos rfl, if_pos (numeral_iff.mpr h), ofDigits_eq]
  · intro h
    cases t with
    | nil => cases h
    | cons u ds =>
        rw [readInteger?] at h
        split at h
        · next hu =>
            rw [Option.ite_none_right_eq_some, numeral_iff, Option.some.injEq, ofDigits_eq] at h
            rw [hu, ← h.2]
            exact .minus h.1
        · rw [Option.ite_none_right_eq_some, Option.some.injEq, ofDigits_eq] at h
          rw [← h.2]
          exact .plain (numeral_iff.mp ⟨List.cons_ne_nil u ds, h.1⟩)

/-- An integer literal is a floating literal of the same value, negative if it starts with a minus
sign. -/
theorem Integral.floating (h : Integral t n) :
    Floating t (decide (t.head? = some 0x2D)) |(n : ℚ)| := by
  have hnat : ∀ k : ℕ, |(k : ℚ)| = k * 10 ^ (0 : ℤ) := by simp
  cases h with
  | plain h =>
      have hu : t.head? ≠ some 0x2D := fun hu => (h.head_ne_sign _ hu).1 rfl
      rw [decide_eq_false hu, Int.cast_natCast, hnat]
      simpa using Floating.mk (List.nil_subset _) .none (.whole h) .none
  | minus h =>
      rw [Int.cast_neg, Int.cast_natCast, abs_neg, hnat]
      simpa using Floating.mk (List.nil_subset _) .minus (.whole h) .none

/-! ### Numbers of the grammar -/

theorem numeral_of_digits {ds : Bytes} (h : Grammar.Digits ds) :
    Numeral (Grammar.asciiText ds) where
  ne_nil hnil := h.1 (List.map_eq_nil_iff.mp hnil)
  digits u hu := by
    obtain ⟨b, hb, rfl⟩ := List.mem_map.mp hu
    have := h.2 b hb
    simp only [Grammar.IsDigit, UInt8.le_iff_toNat_le, UInt8.reduceToNat] at this
    simpa [isDigit] using this

theorem numeral_of_integer {i : Bytes} (h : Grammar.Integer i) :
    Numeral (Grammar.asciiText i) := by
  cases h with
  | zero => exact ⟨List.cons_ne_nil _ _, allDigits_zeros 1⟩
  | digits h _ => exact numeral_of_digits h

theorem exists_signOf_sign {g : Bytes} (h : Grammar.Sign g) :
    ∃ negative, SignOf (Grammar.asciiText g) negative := by
  rcases h with rfl | rfl | rfl
  · exact ⟨_, .none⟩
  · exact ⟨_, .plus⟩
  · exact ⟨_, .minus⟩

theorem behind_of_fraction {f : Bytes} (h : Grammar.Fraction f) :
    ∃ fs, Behind (Grammar.asciiText f) fs ∧ AllDigits fs := by
  cases h with
  | none => exact ⟨[], .none, List.forall_mem_nil _⟩
  | some h => exact ⟨_, .some _, (numeral_of_digits h).digits⟩

theorem scale_of_exponent {e : Bytes} (h : Grammar.Exponent e) :
    ∃ k, Scale (Grammar.asciiText e) k := by
  cases h with
  | none => exact ⟨0, .none⟩
  | @some c g ds hc hg h =>
      obtain ⟨negative, hsign⟩ := exists_signOf_sign hg
      have hletter : c.toUInt16 = 0x65 ∨ c.toUInt16 = 0x45 := by
        rcases hc with rfl | rfl
        · exact .inl rfl
        · exact .inr rfl
      have := Scale.some hletter hsign (numeral_of_digits h)
      exact ⟨_, by simpa [Grammar.asciiText] using this⟩

/-- Every number of the grammar is a floating literal. -/
theorem IsLiteral.floating (h : IsLiteral t) : ∃ negative v, Floating t negative v := by
  obtain ⟨_, ⟨hm, hi, hf, he⟩, rfl⟩ := h
  obtain ⟨negative, hsign⟩ := exists_signOf_sign (hm.imp_right .inr)
  obtain ⟨fs, hp, hfs⟩ := behind_of_fraction hf
  obtain ⟨k, hk⟩ := scale_of_exponent he
  have hds := numeral_of_integer hi
  have hread := read?_parts (List.nil_subset _) hsign hds.digits hp hfs
    (List.append_ne_nil_of_left_ne_nil hds.ne_nil _) hk
  rw [List.nil_append, List.append_assoc] at hread
  simp only [Grammar.asciiText, List.map_append, List.append_assoc] at hread ⊢
  exact ⟨_, _, floating_iff.mpr ⟨_, hread, rfl, rfl⟩⟩

end JsonDocument
