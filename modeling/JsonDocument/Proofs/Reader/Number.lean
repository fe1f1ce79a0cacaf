import Mathlib.Data.List.TakeWhile
import JsonDocument.Proofs.Grammar
import JsonDocument.Reader.Number

/-!
# Proofs — Reader — blanks, words and numbers

The scanners of the reader beside the grammar: each takes exactly a blank, a word or a literal off
the front of the input.  A literal is taken as far as it goes, so a scanner finds a given literal
only where the input after it does not continue it (`EndsNumber`).

* `exists_blank`, `skipBlanks_append`: what is skipped is blank, and all of it is skipped.
* `exists_of_scanNumber`: what is scanned is a number.
* `scanNumber_append`: a number that ends is scanned.
-/

namespace JsonDocument.Reader
open JsonDocument.Grammar

/-! ### Blanks -/

theorem isBlank_iff {b : UInt8} :
    isBlank b = true ↔ b = 0x20 ∨ b = 0x09 ∨ b = 0x0A ∨ b = 0x0D := by
  simp only [isBlank, Bool.or_eq_true, decide_eq_true_eq, or_assoc]

/-- What is skipped is blank. -/
theorem exists_blank (s : Bytes) : ∃ w, Blank w ∧ s = w ++ skipBlanks s :=
  ⟨s.takeWhile isBlank, fun _ hb => isBlank_iff.mp (List.mem_takeWhile_imp hb),
    List.takeWhile_append_dropWhile.symm⟩

/-- Blanks at the front are skipped, whatever follows. -/
theorem skipBlanks_append {w : Bytes} (h : Blank w) (s : Bytes) :
    skipBlanks (w ++ s) = skipBlanks s :=
  List.dropWhile_append_of_pos fun b hb => isBlank_iff.mpr (h b hb)

theorem skipBlanks_cons {b : UInt8} (h : isBlank b = false) (s : Bytes) :
    skipBlanks (b :: s) = b :: s := by
  simp [skipBlanks, h]

/-! ### Words -/

theorem after?_append (word r : Bytes) : after? word (word ++ r) = some r := by
  induction word with
  | nil => rfl
  | cons w word ih => rw [List.cons_append, after?, if_pos rfl, ih]

/-! ### Bytes that do not stand at the front -/

/-- No byte with the property `P` stands at the front of `s`. -/
def Avoids (P : UInt8 → Prop) (s : Bytes) : Prop := ∀ b, s.head? = some b → ¬ P b

theorem avoids_nil (P : UInt8 → Prop) : Avoids P [] := fun _ h => nomatch h

theorem avoids_cons {P : UInt8 → Prop} {b : UInt8} {s : Bytes} : Avoids P (b :: s) ↔ ¬ P b :=
  ⟨fun h => h b rfl, fun h _ hb => Option.some.inj hb ▸ h⟩

theorem Avoids.mono {P Q : UInt8 → Prop} {s : Bytes} (h : Avoids P s) (hPQ : ∀ b, Q b → P b) :
    Avoids Q s :=
  fun b hb hQ => h b hb (hPQ b hQ)

/-! ### Digits -/

theorem isDigit_iff {b : UInt8} : isDigit b = true ↔ IsDigit b := by
  simp only [isDigit, IsDigit, decide_eq_true_eq, UInt8.le_iff_toNat_le, UInt8.reduceToNat]

theorem digits_of_scanDigits {reason : Reason} {s ds r : Bytes}
    (h : scanDigits reason s = .ok (ds, r)) : s = ds ++ r ∧ Digits ds := by
  obtain ⟨hs, hne⟩ := eq_append_of_scanDigits h
  simp only [scanDigits] at h
  split at h
  · cases h
  · cases h
    exact ⟨hs, hne, fun b hb => isDigit_iff.mp (List.mem_takeWhile_imp hb)⟩

theorem scanDigits_append (reason : Reason) {ds r : Bytes} (h : Digits ds) (hr : Avoids IsDigit r) :
    scanDigits reason (ds ++ r) = .ok (ds, r) := by
  have hp : ∀ b ∈ ds, isDigit b = true := fun b hb => isDigit_iff.mpr (h.2 b hb)
  have hr' : r.takeWhile isDigit = [] ∧ r.dropWhile isDigit = r := by
    cases r with
    | nil => exact ⟨rfl, rfl⟩
    | cons b r =>
        have : ¬ isDigit b = true := fun hb => avoids_cons.mp hr (isDigit_iff.mp hb)
        exact ⟨List.takeWhile_cons_of_neg this, List.dropWhile_cons_of_neg this⟩
  simp only [scanDigits, List.takeWhile_append_of_pos hp, List.dropWhile_append_of_pos hp, hr'.1,
    hr'.2, List.append_nil]
  split
  · exact absurd rfl h.1
  · rfl

theorem exists_head_of_digits {ds : Bytes} (h : Digits ds) :
    ∃ b ds', ds = b :: ds' ∧ IsDigit b := by
  obtain ⟨hne, hd⟩ := h
  cases ds with
  | nil => exact absurd rfl hne
  | cons b ds => exact ⟨b, ds, rfl, hd b (List.mem_cons_self ..)⟩

theorem not_isDigit_of_eq {b : UInt8} (h : b = 0x2B ∨ b = 0x2D ∨ b = 0x2E ∨ b = 0x65 ∨ b = 0x45) :
    ¬ IsDigit b := by
  rcases h with rfl | rfl | rfl | rfl | rfl <;> decide

/-! ### The parts of a number -/

theorem minus_scanMinus (s : Bytes) : (scanMinus s).1 = [] ∨ (scanMinus s).1 = [0x2D] := by
  cases s with
  | nil => exact .inl rfl
  | cons b s =>
      simp only [scanMinus]
      split
      · next hb => exact .inr (by rw [hb])
      · exact .inl rfl

theorem scanMinus_append {m s : Bytes} (hm : m = [] ∨ m = [0x2D]) (hs : Avoids (· = 0x2D) s) :
    scanMinus (m ++ s) = (m, s) := by
  rcases hm with rfl | rfl
  · cases s with
    | nil => rfl
    | cons b s => rw [List.nil_append, scanMinus, if_neg (avoids_cons.mp hs)]
  · rfl

theorem sign_scanSign (s : Bytes) : Sign (scanSign s).1 := by
  cases s with
  | nil => exact .inl rfl
  | cons b s =>
      simp only [scanSign]
      split
      · next hb =>
          simp only [Bool.or_eq_true, decide_eq_true_eq] at hb
          rcases hb with rfl | rfl
          · exact .inr (.inl rfl)
          · exact .inr (.inr rfl)
      · exact .inl rfl

theorem scanSign_append {g s : Bytes} (hg : Sign g) (hs : Avoids (fun b => b = 0x2B ∨ b = 0x2D) s) :
    scanSign (g ++ s) = (g, s) := by
  rcases hg with rfl | rfl | rfl
  · cases s with
    | nil => rfl
    | cons b s =>
        have := avoids_cons.mp hs
        rw [List.nil_append, scanSign, if_neg (by simpa using this)]
  · rfl
  · rfl

theorem integer_of_scanInteger {s i r : Bytes} (h : scanInteger s = .ok (i, r)) :
    s = i ++ r ∧ Integer i := by
  cases s with
  | nil => cases h
  | cons b s =>
      simp only [scanInteger] at h
      split at h
      · next hb => cases h; exact ⟨rfl, hb ▸ .zero⟩
      · next hb =>
          obtain ⟨hs, hd⟩ := digits_of_scanDigits h
          obtain ⟨c, ds, rfl, -⟩ := exists_head_of_digits hd
          obtain ⟨rfl, -⟩ := List.cons.inj hs
          exact ⟨hs, .digits hd (by simpa using hb)⟩

theorem scanInteger_append {i r : Bytes} (hi : Integer i) (hr : Avoids IsDigit r) :
    scanInteger (i ++ r) = .ok (i, r) := by
  cases hi with
  | zero => rfl
  | digits h h₀ =>
      obtain ⟨b, ds, rfl, -⟩ := exists_head_of_digits h
      have hb : b ≠ 0x30 := by simpa using h₀
      rw [List.cons_append, scanInteger, if_neg hb]
      exact scanDigits_append _ h hr

theorem fraction_of_scanFraction {s f r : Bytes} (h : scanFraction s = .ok (f, r)) :
    s = f ++ r ∧ Fraction f := by
  refine ⟨eq_append_of_scanFraction h, ?_⟩
  cases s with
  | nil => cases h; exact .none
  | cons b s =>
      simp only [scanFraction] at h
      split at h
      · next hb =>
          split at h
          · cases h
          · next hd => cases h; exact hb ▸ .some (digits_of_scanDigits hd).2
      · cases h; exact .none

theorem scanFraction_append {f r : Bytes} (hf : Fraction f)
    (hr : Avoids (fun b => IsDigit b ∨ b = 0x2E) r) : scanFraction (f ++ r) = .ok (f, r) := by
  cases hf with
  | none =>
      cases r with
      | nil => rfl
      | cons b r =>
          rw [List.nil_append, scanFraction, if_neg fun hb => avoids_cons.mp hr (.inr hb)]
  | some h =>
      rw [List.cons_append, scanFraction, if_pos rfl,
        scanDigits_append _ h (hr.mono fun _ => .inl)]

theorem exponent_of_scanExponent {s e r : Bytes} (h : scanExponent s = .ok (e, r)) :
    s = e ++ r ∧ Exponent e := by
  refine ⟨eq_append_of_scanExponent h, ?_⟩
  cases s with
  | nil => cases h; exact .none
  | cons b s =>
      simp only [scanExponent] at h
      split at h
      · next hb =>
          split at h
          · cases h
          · next hd =>
              cases h
              exact .some (by simpa using hb) (sign_scanSign s) (digits_of_scanDigits hd).2
      · cases h; exact .none

theorem scanExponent_append {e r : Bytes} (he : Exponent e)
    (hr : Avoids (fun b => IsDigit b ∨ b = 0x65 ∨ b = 0x45) r) :
    scanExponent (e ++ r) = .ok (e, r) := by
  cases he with
  | none =>
      cases r with
      | nil => rfl
      | cons b r =>
          have hb : ¬ (b = 0x65 ∨ b = 0x45) := fun hb => avoids_cons.mp hr (.inr hb)
          rw [List.nil_append, scanExponent, if_neg (by simpa using hb)]
  | @some b g ds hb hg h =>
      have hs : scanSign (g ++ (ds ++ r)) = (g, ds ++ r) := by
        refine scanSign_append hg ?_
        obtain ⟨c, ds', rfl, hc⟩ := exists_head_of_digits h
        refine avoids_cons.mpr fun hc' => not_isDigit_of_eq ?_ hc
        rcases hc' with hc' | hc'
        · exact .inl hc'
        · exact .inr (.inl hc')
      rw [List.append_assoc, List.cons_append, scanExponent, if_pos (by simpa using hb), hs]
      simp only [scanDigits_append _ h (hr.mono fun _ => .inl)]

/-! ### Numbers -/

/-- What follows a literal does not continue it. -/
def EndsNumber (r : Bytes) : Prop :=
  Avoids (fun b => IsDigit b ∨ b = 0x2E ∨ b = 0x65 ∨ b = 0x45) r

theorem exists_of_scanNumber {s r : Bytes} {t : Text} (h : scanNumber s = .ok (t, r)) :
    ∃ n, s = n ++ r ∧ IsNumber n ∧ t = asciiText n := by
  simp only [scanNumber] at h
  split at h
  · cases h
  next i r₁ h₁ =>
  split at h
  · cases h
  next f r₂ h₂ =>
  split at h
  · cases h
  next e r₃ h₃ =>
  cases h
  obtain ⟨e₁, hi⟩ := integer_of_scanInteger h₁
  obtain ⟨e₂, hf⟩ := fraction_of_scanFraction h₂
  obtain ⟨e₃, he⟩ := exponent_of_scanExponent h₃
  refine ⟨_, ?_, .mk (minus_scanMinus s) hi hf he, rfl⟩
  calc s = (scanMinus s).1 ++ (scanMinus s).2 := eq_append_scanMinus s
    _ = _ := by rw [e₁, e₂, e₃]; simp only [List.append_assoc]

theorem avoids_fraction {f r : Bytes} (hf : Fraction f) {P : UInt8 → Prop} (hP : ¬ P 0x2E)
    (hr : Avoids P r) : Avoids P (f ++ r) := by
  cases hf with
  | none => exact hr
  | some _ => exact avoids_cons.mpr hP

theorem avoids_exponent {e r : Bytes} (he : Exponent e) {P : UInt8 → Prop}
    (hP : ¬ P 0x65 ∧ ¬ P 0x45) (hr : Avoids P r) : Avoids P (e ++ r) := by
  cases he with
  | none => exact hr
  | some hb _ _ =>
      refine avoids_cons.mpr ?_
      rcases hb with rfl | rfl
      · exact hP.1
      · exact hP.2

theorem avoids_integer {i r : Bytes} (hi : Integer i) : Avoids (· = 0x2D) (i ++ r) := by
  cases hi with
  | zero => exact avoids_cons.mpr (by decide)
  | digits h _ =>
      obtain ⟨b, ds, rfl, hb⟩ := exists_head_of_digits h
      exact avoids_cons.mpr fun hb' => not_isDigit_of_eq (.inr (.inl hb')) hb

/-- A number that ends is scanned. -/
theorem scanNumber_append {n r : Bytes} (h : IsNumber n) (hr : EndsNumber r) :
    scanNumber (n ++ r) = .ok (asciiText n, r) := by
  cases h with
  | @mk m i f e hm hi hf he =>
      have h₃ : scanExponent (e ++ r) = .ok (e, r) :=
        scanExponent_append he (hr.mono fun _ hb => hb.imp_right .inr)
      have h₂ : scanFraction (f ++ (e ++ r)) = .ok (f, e ++ r) :=
        scanFraction_append hf (avoids_exponent he (by decide)
          (hr.mono fun _ hb => hb.imp_right .inl))
      have h₁ : scanInteger (i ++ (f ++ (e ++ r))) = .ok (i, f ++ (e ++ r)) :=
        scanInteger_append hi (avoids_fraction hf (by decide) (avoids_exponent he (by decide)
          (hr.mono fun _ => .inl)))
      have h₀ : scanMinus (m ++ (i ++ (f ++ (e ++ r)))) = (m, i ++ (f ++ (e ++ r))) :=
        scanMinus_append hm (avoids_integer hi)
      simp only [List.append_assoc, scanNumber, h₀, h₁, h₂, h₃]
      rfl

end JsonDocument.Reader
