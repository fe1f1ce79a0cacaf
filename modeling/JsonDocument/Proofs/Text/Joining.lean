import JsonDocument.Proofs.Text.Escape

/-!
# Proofs — Text — joined texts escaped

What is written for a unit depends on one neighbour at most: a high surrogate is copied if a low one
follows, and a low one if it follows a high one that is so copied.  So a text may be cut into parts
that are escaped one by one, at every place but the middle of a pair (`Text.SplitsPair`).  What
stands further to the left does not count, however many surrogates follow one another: a high
surrogate closes no pair, so it opens one whenever a low one comes next.

* `encode_append`: the parts of a text that is not cut in the middle of a pair.
* `encode_split`: a pair in the middle of a text, and its halves by themselves.
* `encode_append_iff`: which texts may be escaped one by one.
-/

namespace JsonDocument

namespace Text

variable {u : CodeUnit} {a b : Text}

/-- Two texts that meet in the middle of a pair: the one ends in a high surrogate, and the other
starts with a low one. -/
def SplitsPair (a b : Text) : Prop := (∃ u ∈ a.getLast?, u.isHigh) ∧ ∃ v ∈ b.head?, v.isLow

theorem splitsPair_singleton : SplitsPair [u] b ↔ u.isHigh ∧ ∃ v ∈ b.head?, v.isLow := by
  simp [SplitsPair]

theorem SplitsPair.cons (u : CodeUnit) (h : SplitsPair a b) : SplitsPair (u :: a) b := by
  obtain ⟨⟨w, hw, hhigh⟩, hb⟩ := h
  refine ⟨⟨w, ?_, hhigh⟩, hb⟩
  rw [List.getLast?_cons, hw]
  rfl

end Text

namespace Escape

variable {f : Bool} {u v : CodeUnit} {a b t : Text}

/-! ### Parts of a text -/

theorem encode_pair (f : Bool) (hu : u.isHigh) (hv : v.isLow) (t : Text) :
    encode f (u :: v :: t) = u :: v :: encode f t := by
  rw [encode, if_pos (by rw [hu, hv]; rfl)]

theorem encode_cons (f : Bool) (h : ¬ Text.SplitsPair [u] t) :
    encode f (u :: t) = unit f u ++ encode f t := by
  cases t with
  | nil => rw [encode, encode, List.append_nil]
  | cons v t =>
      rw [encode, if_neg]
      intro huv
      rw [Bool.and_eq_true] at huv
      exact h (Text.splitsPair_singleton.mpr ⟨huv.1, v, rfl, huv.2⟩)

/-- A text that is not cut in the middle of a pair is escaped part by part. -/
theorem encode_append (f : Bool) (h : ¬ Text.SplitsPair a b) :
    encode f (a ++ b) = encode f a ++ encode f b := by
  fun_induction encode f a with
  | case1 => rfl
  | case2 u => exact encode_cons f h
  | case3 u v t huv ih =>
      rw [Bool.and_eq_true] at huv
      have ht : ¬ Text.SplitsPair t b := fun ht => h ((ht.cons v).cons u)
      rw [List.cons_append, List.cons_append, encode_pair f huv.1 huv.2, ih ht]
      rfl
  | case4 u v t huv ih =>
      have ht : ¬ Text.SplitsPair (v :: t) b := fun ht => h (ht.cons u)
      -- the second unit stays where it is, so the first one is written as before
      have hu : ¬ Text.SplitsPair [u] (v :: t ++ b) := by
        rw [Text.splitsPair_singleton]
        rintro ⟨hu, _, ⟨⟩, hv⟩
        exact huv (by rw [hu, hv]; rfl)
      rw [List.cons_append, encode_cons f hu, ih ht, List.append_assoc]

/-! ### A pair that is cut -/

/-- No surrogate has a short escape. -/
theorem letter?_surrogate (f : Bool) (h : u.isHigh ∨ u.isLow) : letter? f u = none := by
  have hne : ∀ c : CodeUnit, c.toNat < 0xD800 → u ≠ c := fun _ => CodeUnit.ne_of_surrogate h
  simp [letter?, hne quote (by decide), hne backslash (by decide), hne solidus (by decide),
    hne 0x08 (by decide), hne 0x0C (by decide), hne 0x0A (by decide), hne 0x0D (by decide),
    hne 0x09 (by decide)]

/-- A surrogate that stands alone is written by number. -/
theorem unit_surrogate (f : Bool) (h : u.isHigh ∨ u.isLow) : unit f u = byNumber u := by
  have hsurrogate : (u < 0x20 || u.isHigh || u.isLow) = true := by
    rcases h with h | h <;> simp [h]
  simp only [unit, letter?_surrogate f h, if_pos hsurrogate]

/-- A pair is copied where it is whole; each half of it by itself is written by number. -/
theorem encode_split (f : Bool) (h : Text.SplitsPair a b) :
    ∃ a' u v b', a = a' ++ [u] ∧ b = v :: b' ∧
      encode f (a ++ b) = encode f a' ++ (u :: v :: encode f b') ∧
      encode f a ++ encode f b =
        encode f a' ++ (byNumber u ++ (byNumber v ++ encode f b')) := by
  obtain ⟨⟨u, hu, hhigh⟩, v, hv, hlow⟩ := h
  obtain ⟨a', rfl⟩ := List.getLast?_eq_some_iff.mp hu
  obtain ⟨b', rfl⟩ := List.head?_eq_some_iff.mp hv
  -- a high surrogate closes no pair, and a low one opens none
  have hleft : ∀ t, ¬ Text.SplitsPair a' (u :: t) := by
    rintro t ⟨-, _, ⟨⟩, hlow⟩
    exact CodeUnit.not_isHigh_of_isLow hlow hhigh
  have hright : ¬ Text.SplitsPair [v] b' := by
    rw [Text.splitsPair_singleton]
    exact fun h => CodeUnit.not_isHigh_of_isLow hlow h.1
  refine ⟨a', u, v, b', rfl, rfl, ?_, ?_⟩
  · rw [List.append_assoc, List.singleton_append, encode_append f (hleft _),
      encode_pair f hhigh hlow]
  · rw [encode_append f (hleft _), encode_cons f hright, encode, unit_surrogate f (.inl hhigh),
      unit_surrogate f (.inr hlow), List.append_assoc]

/-- **Texts are escaped one by one** if and only if they do not meet in the middle of a pair, where
the first ends in a high surrogate and the second starts with a low one. -/
theorem encode_append_iff (f : Bool) (a b : Text) :
    encode f (a ++ b) = encode f a ++ encode f b ↔
      ¬ ((∃ u ∈ a.getLast?, u.isHigh) ∧ ∃ v ∈ b.head?, v.isLow) := by
  refine ⟨fun h hsplit => ?_, encode_append f⟩
  obtain ⟨a', u, v, b', -, -, hjoined, hparts⟩ := encode_split f hsplit
  -- the two halves by number are longer than the pair
  have hlen := congrArg List.length (hjoined.symm.trans (h.trans hparts))
  simp [byNumber, Hex.ofCodeUnit] at hlen

/-- Of two high surrogates in a row only the second goes with a low one that follows. -/
example : encode false ([0xD800, 0xD801] ++ [0xDC00, 0xDC01]) =
    byNumber 0xD800 ++ [0xD801, 0xDC00] ++ byNumber 0xDC01 := by decide

end Escape

end JsonDocument
