import JsonDocument.Proofs.Text.Escape

/-!
# Proofs — Text — what an escaped text may hold

An escaped text is made of one piece for each unit of the text, so every unit in it stands
somewhere in a piece: it is copied, it opens an escape, or it stands inside one.  A quote may only
stand right after the backslash of an escape, and so may a solidus if it is to be escaped; a
backslash stands there or opens an escape of its own.  A surrogate is copied only with its other
half, so an escaped text is well-formed, whatever the text.

* `Escape.Complete`: what is read unit by unit, to its end.
* `Escape.Escaped`: what stands after it stands right after the backslash of an escape.
* `encode_safe`: what an escaped text may hold, and that it is read back.
-/

namespace JsonDocument

namespace Hex

/-- A digit is neither a quote nor a solidus nor a backslash. -/
theorem bounds_of_value? {n : Int} (h : (value? n).isSome) : 0x30 ≤ n ∧ n < 0x67 ∧ n ≠ 0x5C := by
  unfold value? at h
  split at h
  · omega
  split at h
  · omega
  split at h
  · omega
  · cases h

theorem isSome_of_unit? {a b c d u : CodeUnit} (h : unit? a b c d = some u) :
    ∀ x ∈ [a, b, c, d], (value? x.toNat).isSome := by
  unfold unit? at h
  split at h
  · next ha hb hc hd => simp [ha, hb, hc, hd]
  · cases h

end Hex

namespace Escape

variable {f : Bool} {u c : CodeUnit} {s x y p q e : Text}

/-! ### Places in an escaped text -/

/-- A text that is read unit by unit to its end: no quote in it goes without its backslash, and no
escape in it is cut short. -/
def Complete (x : Text) : Prop := ∃ t, unescape (x ++ [quote]) = some (t, [])

/-- A text that ends with the backslash of an escape: the unit that follows is escaped. -/
def Escaped (x : Text) : Prop := ∃ x', x = x' ++ [backslash] ∧ Complete x'

theorem Pieces.complete (h : Pieces f x s) : Complete x := ⟨s, h.unescape []⟩

/-- Every unit stands in a piece, with whole pieces in front of it. -/
theorem Pieces.exists_of_append {z : Text} (h : Pieces f z s) (hz : z = x ++ c :: y) :
    ∃ x' p q y' t u, x = x' ++ p ∧ y = q ++ y' ∧ Pieces f x' t ∧ Piece f (p ++ c :: q) u := by
  induction h generalizing x with
  | nil => exact absurd hz.symm (by simp)
  | @cons p₀ z₀ t u hp h ih =>
      -- the unit stands behind the first piece, or in it
      have hc : (∃ x₁, x = p₀ ++ x₁ ∧ z₀ = x₁ ++ c :: y) ∨ ∃ q, p₀ = x ++ c :: q ∧ y = q ++ z₀ := by
        rcases List.append_eq_append_iff.mp hz with hx | ⟨_ | ⟨b, q⟩, hp₀, hq⟩
        · exact .inl hx
        · exact .inl ⟨[], by simpa using hp₀.symm, hq.symm⟩
        · obtain ⟨rfl, hy⟩ := List.cons.inj hq
          exact .inr ⟨q, hp₀, hy⟩
      rcases hc with ⟨x₁, rfl, hz₁⟩ | ⟨q, rfl, hy⟩
      · obtain ⟨x', p, q, y', t', u', rfl, hy, hx', hp'⟩ := ih hz₁
        exact ⟨p₀ ++ x', p, q, y', u :: t', u', by rw [List.append_assoc], hy, .cons hp hx', hp'⟩
      · exact ⟨[], x, q, z₀, [], u, rfl, hy, .nil, hp⟩

/-! ### Places in an escape -/

/-- An escape is a backslash, a letter and digits. -/
theorem Names.exists_letter (h : Names e u) :
    ∃ l ds, e = backslash :: l :: ds ∧ 0x20 ≤ l.toNat ∧ l.toNat < 0x80 ∧
      ∀ d ∈ ds, (Hex.value? d.toNat).isSome := by
  cases h with
  | @letter l _ h =>
      have hl : ∀ k ∈ letters, 0x20 ≤ k.1.toNat ∧ k.1.toNat < 0x80 := by
        simp [letters, quote, backslash, solidus]
      obtain ⟨ks, ks', hk, -⟩ := List.lookup_eq_some_iff.mp h
      obtain ⟨h₁, h₂⟩ := hl (l, u) (hk ▸ List.mem_append_right _ List.mem_cons_self)
      exact ⟨l, [], rfl, h₁, h₂, by simp⟩
  | number h => exact ⟨0x75, _, rfl, by decide, by decide, Hex.isSome_of_unit? h⟩

/-- An escape is written in visible ASCII characters. -/
theorem Names.ascii (h : Names e u) : ∀ c ∈ e, 0x20 ≤ c.toNat ∧ c.toNat < 0x80 := by
  obtain ⟨l, ds, rfl, h₁, h₂, hds⟩ := h.exists_letter
  simp only [List.forall_mem_cons]
  refine ⟨by decide, ⟨h₁, h₂⟩, fun d hd => ?_⟩
  have := Hex.bounds_of_value? (hds d hd)
  omega

/-- In an escape a unit is the backslash in front, the letter after it, or a digit. -/
theorem Names.place (h : Names (p ++ c :: q) u) :
    p = [] ∧ c = backslash ∨ p = [backslash] ∨ (Hex.value? c.toNat).isSome := by
  obtain ⟨l, ds, he, -, -, hds⟩ := h.exists_letter
  match p, he with
  | [], he => exact .inl ⟨rfl, (List.cons.inj he).1⟩
  | [b], he => exact .inr (.inl (by rw [(List.cons.inj he).1]))
  | b :: b' :: p, he =>
      refine .inr (.inr (hds c ?_))
      rw [← (List.cons.inj (List.cons.inj he).2).2]
      exact List.mem_append_right _ List.mem_cons_self

/-- A quote stands right after the backslash of an escape, and so does a solidus that is to be
escaped. -/
theorem Piece.escaped (h : Piece f (p ++ c :: q) u) (hc : c = quote ∨ f ∧ c = solidus) :
    p = [backslash] := by
  generalize hw : p ++ c :: q = w at h
  cases h with
  | copied _ hq _ hs =>
      obtain ⟨rfl, rfl, -⟩ : p = [] ∧ c = u ∧ q = [] := by simpa [List.append_eq_cons_iff] using hw
      rcases hc with hc | ⟨hf, hc⟩
      · exact absurd hc hq
      · exact absurd hc (hs hf)
  | escape h =>
      subst hw
      rcases h.place with ⟨-, rfl⟩ | hp | hd
      · rcases hc with hc | ⟨-, hc⟩ <;> exact absurd hc (by decide)
      · exact hp
      · have := Hex.bounds_of_value? hd
        rcases hc with rfl | ⟨-, rfl⟩ <;> exact absurd this (by decide)

/-- A backslash stands right after the one of an escape, or opens an escape. -/
theorem Piece.escaped_or_opens (h : Piece f (p ++ backslash :: q) u) :
    p = [backslash] ∨ p = [] ∧ Names (backslash :: q) u := by
  generalize hw : p ++ backslash :: q = w at h
  cases h with
  | copied _ _ hb _ =>
      obtain ⟨-, rfl, -⟩ : p = [] ∧ backslash = u ∧ q = [] := by
        simpa [List.append_eq_cons_iff] using hw
      exact absurd rfl hb
  | escape h =>
      subst hw
      rcases h.place with ⟨rfl, -⟩ | hp | hd
      · exact .inr ⟨rfl, h⟩
      · exact .inl hp
      · exact absurd (Hex.bounds_of_value? hd) (by decide)

theorem Piece.le (h : Piece f p u) : ∀ c ∈ p, 0x20 ≤ c := by
  cases h with
  | copied hc _ _ _ => exact List.forall_mem_singleton.mpr hc
  | escape h => exact fun c hc => UInt16.le_iff_toNat_le.mpr (h.ascii c hc).1

theorem Pieces.le (h : Pieces f x s) : ∀ c ∈ x, 0x20 ≤ c := by
  induction h with
  | nil => simp
  | cons hp _ ih => exact List.forall_mem_append.mpr ⟨hp.le, ih⟩

/-! ### Surrogates -/

theorem Names.wellFormed (h : Names e u) : e.WellFormed := by
  refine .of_forall fun c hc => ?_
  have := (h.ascii c hc).2
  rw [CodeUnit.isHigh_iff, CodeUnit.isLow_iff]
  omega

/-- What is written for a unit that is no half of a pair holds no surrogate. -/
theorem wellFormed_unit (f : Bool) (u : CodeUnit) : (unit f u).WellFormed := by
  unfold unit
  split
  · next hc => exact (names_of_letter? hc).wellFormed
  split
  · exact (names_byNumber u).wellFormed
  · next h =>
      simp only [Bool.or_eq_true, not_or] at h
      exact .unit h.1.2 h.2 .nil

/-- An escaped text is well-formed, whatever the text. -/
theorem wellFormed_encode (f : Bool) (s : Text) : (encode f s).WellFormed := by
  fun_induction encode f s with
  | case1 => exact .nil
  | case2 u => exact wellFormed_unit f u
  | case3 u v t huv ih =>
      rw [Bool.and_eq_true] at huv
      exact .pair huv.1 huv.2 ih
  | case4 u v t _ ih => exact (wellFormed_unit f u).append ih

/-! ### Escaped texts -/

/-- An escaped text is well-formed and so read back from its bytes; it holds no control character;
a quote in it is escaped, and so is a solidus on request; a backslash is escaped or opens a complete
escape; and, read unit by unit up to the quote that closes it, it gives the text. -/
theorem encode_safe (f : Bool) (s : Text) :
    (encode f s).WellFormed ∧ Utf8.decode (Utf8.encode (encode f s)) = some (encode f s) ∧
    (∀ c ∈ encode f s, 0x20 ≤ c) ∧
    (∀ x y, encode f s = x ++ quote :: y → Escaped x) ∧
    (∀ x y, encode f s = x ++ backslash :: y →
      Escaped x ∨ Complete x ∧ ∃ e u y', Names e u ∧ backslash :: y = e ++ y') ∧
    (f → ∀ x y, encode f s = x ++ solidus :: y → Escaped x) ∧
    ∀ r, unescape (encode f s ++ quote :: r) = some (s, r) := by
  have hs := pieces_encode f s
  have escaped : ∀ c, (c = quote ∨ f ∧ c = solidus) → ∀ x y, encode f s = x ++ c :: y →
      Escaped x := by
    intro c hc x y h
    obtain ⟨x', p, q, y', t, u, rfl, -, hx', hp⟩ := hs.exists_of_append h
    exact ⟨x', by rw [hp.escaped hc], hx'.complete⟩
  have hw := wellFormed_encode f s
  refine ⟨hw, Utf8.decode_encode hw, hs.le, escaped _ (.inl rfl), fun x y h => ?_,
    fun hf => escaped _ (.inr ⟨hf, rfl⟩), hs.unescape⟩
  obtain ⟨x', p, q, y', t, u, rfl, rfl, hx', hp⟩ := hs.exists_of_append h
  rcases hp.escaped_or_opens with rfl | ⟨rfl, he⟩
  · exact .inl ⟨x', rfl, hx'.complete⟩
  · exact .inr ⟨by simpa using hx'.complete, _, u, y', he, rfl⟩

end Escape

end JsonDocument
