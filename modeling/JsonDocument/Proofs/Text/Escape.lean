import JsonDocument.Proofs.Text.Paired
import JsonDocument.Text.Escape

/-!
# Proofs — Text — escaped strings read back

An escaped text is read unit by unit: a backslash starts an escape, of one letter or by number, that
stands for a single unit, and every other unit stands for itself.  Pairs need no care here, since
their halves are copied one after the other.  Read so, an escaped text gives the text back, lone
surrogates too, and the quote that follows it is the first one that no backslash escapes.

* `Escape.unescape`: the text up to the closing quote, and what stands after it.
* `Escape.Pieces`: what an escaped text is made of, one piece for each unit.
* `unescape_encode`: an escaped text is read back.
* `encode_quote_injective`: a text and what follows it are told from the escaped form.
-/

namespace JsonDocument

namespace Hex

/-- The unit that four digits name. -/
def unit? (a b c d : CodeUnit) : Option CodeUnit :=
  match value? a.toNat, value? b.toNat, value? c.toNat, value? d.toNat with
  | some i, some j, some k, some l => some (UInt16.ofNat (i * 0x1000 + j * 0x100 + k * 0x10 + l))
  | _, _, _, _ => none

/-- The digits of a unit name it. -/
theorem unit?_digits (u : CodeUnit) :
    unit? (digit (u.toNat / 0x1000)) (digit (u.toNat / 0x100 % 0x10))
      (digit (u.toNat / 0x10 % 0x10)) (digit (u.toNat % 0x10)) = some u := by
  have hu : u.toNat < 0x10000 := u.toNat_lt
  have hn : u.toNat / 0x1000 * 0x1000 + u.toNat / 0x100 % 0x10 * 0x100 +
      u.toNat / 0x10 % 0x10 * 0x10 + u.toNat % 0x10 = u.toNat := by omega
  simp only [unit?, value?_digit (show u.toNat / 0x1000 < 16 by omega),
    value?_digit (show u.toNat / 0x100 % 0x10 < 16 by omega),
    value?_digit (show u.toNat / 0x10 % 0x10 < 16 by omega),
    value?_digit (show u.toNat % 0x10 < 16 by omega), hn, UInt16.ofNat_toNat]

end Hex

namespace Escape

variable {f : Bool} {u c : CodeUnit} {s : Text}

/-- The letters of the short escapes with the units they stand for. -/
def letters : List (CodeUnit × CodeUnit) :=
  [(quote, quote), (backslash, backslash), (solidus, solidus), (0x62, 0x08), (0x66, 0x0C),
    (0x6E, 0x0A), (0x72, 0x0D), (0x74, 0x09)]

/-- A unit in front of the text that is read. -/
def push (u : CodeUnit) (r : Option (Text × Text)) : Option (Text × Text) :=
  r.map fun p => (u :: p.1, p.2)

/-- Reads an escaped text up to the quote that closes it: the text, and what stands after the
quote. -/
def unescape : Text → Option (Text × Text)
  | [] => none
  | u :: s =>
      if u = quote then some ([], s)
      else if u = backslash then
        match s with
        | [] => none
        | l :: s =>
            if l = 0x75 then
              match s with
              | a :: b :: c :: d :: s => (Hex.unit? a b c d).bind fun v => push v (unescape s)
              | _ => none
            else (letters.lookup l).bind fun v => push v (unescape s)
      else push u (unescape s)

/-! ### Pieces -/

/-- An escape and the unit that it stands for: a letter of the table, or four digits. -/
inductive Names : Text → CodeUnit → Prop where
  | letter {l u : CodeUnit} (h : letters.lookup l = some u) : Names [backslash, l] u
  | number {a b c d u : CodeUnit} (h : Hex.unit? a b c d = some u) :
      Names [backslash, 0x75, a, b, c, d] u

/-- What stands for one unit of a text: the unit itself, or an escape that names it. -/
inductive Piece (f : Bool) : Text → CodeUnit → Prop where
  | copied {u : CodeUnit} (hc : 0x20 ≤ u) (hq : u ≠ quote) (hb : u ≠ backslash)
      (hs : f → u ≠ solidus) : Piece f [u] u
  | escape {e : Text} {u : CodeUnit} (h : Names e u) : Piece f e u

/-- One piece after the other, and the text that they stand for. -/
inductive Pieces (f : Bool) : Text → Text → Prop where
  | nil : Pieces f [] []
  | cons {p x t : Text} {u : CodeUnit} (hp : Piece f p u) (h : Pieces f x t) :
      Pieces f (p ++ x) (u :: t)

/-- A piece is read as its unit. -/
theorem Piece.unescape {p : Text} (h : Piece f p u) (s : Text) :
    unescape (p ++ s) = push u (unescape s) := by
  have hq : backslash ≠ quote := by decide
  cases h with
  | copied _ hq hb _ =>
      rw [List.singleton_append, unescape.eq_def]
      simp only [if_neg hq, if_neg hb]
  | escape h =>
      cases h with
      | @letter l _ h =>
          have hl : l ≠ 0x75 := by
            rintro rfl
            cases (show letters.lookup 0x75 = none from rfl).symm.trans h
          rw [List.cons_append, List.singleton_append, unescape.eq_def]
          simp only [if_neg hq, if_pos, if_neg hl, h, Option.bind_some]
      | number h =>
          rw [List.cons_append, unescape.eq_def]
          simp only [List.cons_append, List.nil_append, if_neg hq, if_pos, h, Option.bind_some]

/-- Pieces are read up to the quote that closes them. -/
theorem Pieces.unescape {x : Text} (h : Pieces f x s) (r : Text) :
    unescape (x ++ quote :: r) = some (s, r) := by
  induction h with
  | nil =>
      rw [List.nil_append, unescape.eq_def]
      exact if_pos rfl
  | cons hp _ ih => rw [List.append_assoc, hp.unescape, ih]; rfl

/-! ### What is written for a unit -/

/-- The letter of a short escape stands for the unit it is written for. -/
theorem lookup_letters (h : letter? f u = some c) : c ≠ 0x75 ∧ letters.lookup c = some u := by
  unfold letter? at h
  repeat' split at h
  all_goals simp_all [quote, backslash, solidus]
  all_goals subst h; exact ⟨by decide, by decide⟩

theorem names_of_letter? (h : letter? f u = some c) : Names [backslash, c] u :=
  .letter (lookup_letters h).2

theorem names_byNumber (u : CodeUnit) : Names (byNumber u) u := .number (Hex.unit?_digits u)

theorem letter?_eq_none (h : letter? f u = none) :
    u ≠ quote ∧ u ≠ backslash ∧ (f → u ≠ solidus) := by
  refine ⟨?_, ?_, fun hf => ?_⟩
  · rintro rfl; cases h
  · rintro rfl; cases h
  · rintro rfl; rw [hf] at h; cases h

/-- What is written for a unit is a piece. -/
theorem piece_unit (f : Bool) (u : CodeUnit) : Piece f (unit f u) u := by
  unfold unit
  split
  · next c hc => exact .escape (names_of_letter? hc)
  next hnone =>
  obtain ⟨hq, hb, hs⟩ := letter?_eq_none hnone
  split
  · exact .escape (names_byNumber u)
  · next h =>
      simp only [Bool.or_eq_true, not_or, decide_eq_true_eq] at h
      exact .copied (UInt16.not_lt.mp h.1.1) hq hb hs

/-- Half of a pair may be copied. -/
theorem piece_surrogate (f : Bool) (h : u.isHigh ∨ u.isLow) : Piece f [u] u := by
  have hne : ∀ c : CodeUnit, c.toNat < 0xD800 → u ≠ c := fun _ => CodeUnit.ne_of_surrogate h
  have hu : 0xD800 ≤ u.toNat := by
    rw [CodeUnit.isHigh_iff, CodeUnit.isLow_iff] at h
    omega
  exact .copied (UInt16.le_iff_toNat_le.mpr (by simp only [UInt16.reduceToNat]; omega))
    (hne _ (by decide)) (hne _ (by decide)) fun _ => hne _ (by decide)

/-! ### Texts -/

/-- An escaped text is made of one piece for each unit. -/
theorem pieces_encode (f : Bool) (t : Text) : Pieces f (encode f t) t := by
  fun_induction encode f t with
  | case1 => exact .nil
  | case2 u =>
      rw [← List.append_nil (unit f u)]
      exact .cons (piece_unit f u) .nil
  | case3 u v t huv ih =>
      -- the halves of a pair are copied
      rw [Bool.and_eq_true] at huv
      exact .cons (piece_surrogate f (.inl huv.1)) (.cons (piece_surrogate f (.inr huv.2)) ih)
  | case4 u v t _ ih => exact .cons (piece_unit f u) ih

/-- An escaped text is read back up to the quote that closes it. -/
theorem unescape_encode (f : Bool) (t s : Text) :
    unescape (encode f t ++ quote :: s) = some (t, s) :=
  (pieces_encode f t).unescape s

/-- A text and what follows its closing quote are told from the escaped form. -/
theorem encode_quote_injective {t t' s s' : Text}
    (h : encode f t ++ quote :: s = encode f t' ++ quote :: s') : t = t' ∧ s = s' := by
  have hr := congrArg unescape h
  rw [unescape_encode, unescape_encode] at hr
  exact Prod.mk.inj (Option.some.inj hr)

end Escape

end JsonDocument
