import JsonDocument.Proofs.Reader.Quoted
import JsonDocument.Text.Escape

/-!
# Proofs — Reader — escaped strings

The reader takes back what the writer makes of a string.  A unit or a pair is written as a raw
character or as an escape, and reading that gives it back (`scanBody_unit`, `scanBody_pair`), with
one exception: a high surrogate that is not paired is written by number, and the reader then misses
the low one.

* `scanBody_escaped`: a text is read back exactly if its high surrogates are paired.
-/

namespace JsonDocument

/-- The failures at a high surrogate that is not paired. -/
def Reason.Unpaired (reason : Reason) : Prop :=
  reason = .missingLowSurrogate ∨ reason = .notALowSurrogate

end JsonDocument

namespace JsonDocument.Reader
open JsonDocument.Grammar

/-! ### Escapes as they are written -/

theorem toNat_digit {n : Nat} (h : n < 16) :
    (Hex.digit n).toNat = if n < 10 then 0x30 + n else 0x41 + (n - 10) := by
  rw [Hex.digit, UInt16.toNat_ofNat']
  split <;> omega

theorem hexDigit_digit {n : Nat} (h : n < 16) : HexDigit (UInt8.ofNat (Hex.digit n).toNat) n := by
  rw [toNat_digit h]
  split
  · exact .decimal (by omega)
  · exact .upper (by omega) h

theorem encode_digit {n : Nat} (h : n < 16) (t : Text) :
    Utf8.encode (Hex.digit n :: t) = UInt8.ofNat (Hex.digit n).toNat :: Utf8.encode t :=
  Utf8.encode_ascii (by rw [toNat_digit h]; split <;> omega) t

/-- The four digits of a unit, as bytes. -/
theorem exists_hexUnit (u : CodeUnit) :
    ∃ x, HexUnit x u ∧ ∀ t, Utf8.encode (Hex.ofCodeUnit u ++ t) = x ++ Utf8.encode t := by
  have hu : u.toNat < 0x10000 := u.toNat_lt
  have ha : u.toNat / 0x1000 < 16 := by omega
  have hb : u.toNat / 0x100 % 0x10 < 16 := by omega
  have hc : u.toNat / 0x10 % 0x10 < 16 := by omega
  have hd : u.toNat % 0x10 < 16 := by omega
  have hx := HexUnit.mk (hexDigit_digit ha) (hexDigit_digit hb) (hexDigit_digit hc)
    (hexDigit_digit hd)
  have hn : u.toNat / 0x1000 * 0x1000 + u.toNat / 0x100 % 0x10 * 0x100 +
      u.toNat / 0x10 % 0x10 * 0x10 + u.toNat % 0x10 = u.toNat := by omega
  rw [hn, UInt16.ofNat_toNat] at hx
  refine ⟨_, hx, fun t => ?_⟩
  simp only [Hex.ofCodeUnit, List.cons_append, List.nil_append, encode_digit ha, encode_digit hb,
    encode_digit hc, encode_digit hd]

/-- A letter of a short escape is one that the reader knows. -/
theorem letter_mem {f : Bool} {u c : CodeUnit} (h : Escape.letter? f u = some c) :
    c.toNat < 0x80 ∧ c ≠ 0x75 ∧ (UInt8.ofNat c.toNat, u) ∈ shortEscapes := by
  unfold Escape.letter? at h
  repeat' split at h
  all_goals simp_all [Escape.quote, Escape.backslash, Escape.solidus]
  all_goals subst h; exact ⟨by decide, by decide, by decide⟩

/-- A unit without a short escape that is written as it is is a raw character. -/
theorem raw_of_letter {f : Bool} {u : CodeUnit} (h : Escape.letter? f u = none)
    (hu : ¬ u.toNat < 0x20) (hh : ¬ u.isHigh) (hl : ¬ u.isLow) : Raw u.toNat := by
  have hne : u ≠ 0x22 ∧ u ≠ 0x5C := by
    constructor <;> (rintro rfl; cases h)
  simp only [ne_eq, ← UInt16.toNat_inj, UInt16.reduceToNat] at hne
  exact ⟨isScalarValue_toNat hh hl, by omega, hne⟩

/-- A pair is a raw character. -/
theorem raw_pair {u v : CodeUnit} (hu : u.isHigh) (hv : v.isLow) : Raw (u.pair v) := by
  have := CodeUnit.pair_bounds hu hv
  exact ⟨isScalarValue_pair hu hv, by omega, by omega, by omega⟩

theorem encode_byNumber (u : CodeUnit) :
    ∃ x, HexUnit x u ∧ ∀ t, Utf8.encode (Escape.byNumber u ++ t) =
      0x5C :: 0x75 :: (x ++ Utf8.encode t) := by
  obtain ⟨x, hx, he⟩ := exists_hexUnit u
  refine ⟨x, hx, fun t => ?_⟩
  rw [Escape.byNumber, List.cons_append, List.cons_append, Utf8.encode_ascii (by decide),
    Utf8.encode_ascii (by decide), he]
  rfl

theorem encode_letter {c : CodeUnit} (hc : c.toNat < 0x80) (t : Text) :
    Utf8.encode ([Escape.backslash, c] ++ t) = 0x5C :: UInt8.ofNat c.toNat :: Utf8.encode t := by
  rw [List.cons_append, List.singleton_append, Utf8.encode_ascii (by decide), Utf8.encode_ascii hc]
  rfl

/-! ### Units and pairs that are read back -/

variable {f : Bool} {t : Text}

/-- No run of the rest is at fault, so a character in front of it is read by itself. -/
def Decodes (s : Bytes) : Prop := ∀ e, scanBody s = .error e → e.reason ≠ .utf8

/-- A unit that is no high surrogate is read back. -/
theorem scanBody_unit {u : CodeUnit} (hu : ¬ u.isHigh) (ht : Decodes (Utf8.encode t)) :
    scanBody (Utf8.encode (Escape.unit f u ++ t)) =
      (scanBody (Utf8.encode t)).map fun p => (u :: p.1, p.2) := by
  unfold Escape.unit
  split
  next c hc =>
    obtain ⟨hlt, -, hmem⟩ := letter_mem hc
    have hs := scanEscape_append (.short hmem) (Utf8.encode t)
    rw [encode_letter hlt, scanBody_escape, ← List.singleton_append, hs]
    rfl
  next hnone =>
    split
    · obtain ⟨x, hx, he⟩ := encode_byNumber u
      have hs := scanEscape_append (.unit hx hu) (Utf8.encode t)
      rw [he, scanBody_escape, ← List.cons_append, hs]
      rfl
    next hn =>
      simp only [Bool.or_eq_true, decide_eq_true_eq, not_or, UInt16.lt_iff_toNat_lt] at hn
      obtain ⟨⟨hlt, -⟩, hl⟩ := hn
      rw [List.singleton_append, Utf8.encode_unit hu hl,
        scanBody_raw (raw_of_letter hnone hlt hu hl) ht, Text.ofCodePoint, if_pos u.toNat_lt,
        UInt16.ofNat_toNat]
      rfl

/-- A pair is read back. -/
theorem scanBody_pair {u v : CodeUnit} (hu : u.isHigh) (hv : v.isLow)
    (ht : Decodes (Utf8.encode t)) :
    scanBody (Utf8.encode (u :: v :: t)) =
      (scanBody (Utf8.encode t)).map fun p => (u :: v :: p.1, p.2) := by
  rw [Utf8.encode_pair hu hv, scanBody_raw (raw_pair hu hv) ht, Text.ofCodePoint_pair hu hv]
  rfl

/-! ### High surrogates that are not paired -/

theorem after?_eq_none {b : UInt8} {word s : Bytes} (hs : ∀ c ∈ s.head?, c ≠ b) :
    after? (b :: word) s = none := by
  cases s with
  | nil => rfl
  | cons c s => rw [after?, if_neg (Ne.symm (hs c rfl))]

theorem head_encodePoint {c : Nat} (hc : Raw c) (s : Bytes) :
    ∀ b ∈ (Utf8.encodePoint c ++ s).head?, b ≠ 0x5C := by
  intro b hb
  have hraw := (raw_iff hc.1).mp hc
  cases he : Utf8.encodePoint c with
  | nil => exact absurd he (encodePoint_ne_nil c)
  | cons a x =>
      rw [he, List.cons_append] at hb
      have hab : a = b := Option.some.inj hb
      have := isRaw_iff.mp (hraw a (by rw [he]; exact List.mem_cons_self ..))
      rw [hab] at this
      rintro rfl
      exact this.2.2 rfl

/-- An escape by number in front of a written unit is that of the unit. -/
theorem exists_of_after?_unit {v : CodeUnit} {r : Bytes}
    (h : after? [0x5C, 0x75] (Utf8.encode (Escape.unit f v ++ t)) = some r) :
    ∃ x y, HexUnit x v ∧ r = x ++ y := by
  unfold Escape.unit at h
  split at h
  next c hc =>
    obtain ⟨hlt, hne, -⟩ := letter_mem hc
    have hne' : (0x75 : UInt8) ≠ UInt8.ofNat c.toNat := by
      rw [ne_eq, Utf8.eq_iff_toNat, Utf8.toNat_ofNat (by omega)]
      rw [ne_eq, ← UInt16.toNat_inj] at hne
      exact Ne.symm hne
    rw [encode_letter hlt, after?, if_pos rfl, after?, if_neg hne'] at h
    cases h
  next hnone =>
    split at h
    · obtain ⟨x, hx, he⟩ := encode_byNumber v
      rw [he] at h
      cases h
      exact ⟨x, _, hx, rfl⟩
    next hn =>
      simp only [Bool.or_eq_true, decide_eq_true_eq, not_or, UInt16.lt_iff_toNat_lt] at hn
      obtain ⟨⟨hlt, hh⟩, hl⟩ := hn
      rw [List.singleton_append, Utf8.encode_unit hh hl,
        after?_eq_none (head_encodePoint (raw_of_letter hnone hlt hh hl) _)] at h
      cases h

/-- An escape by number in front of a written text is that of its first unit. -/
theorem exists_of_after?_escaped {rest : Text} {r : Bytes}
    (h : after? [0x5C, 0x75] (Utf8.encode (Escape.encode f t ++ 0x22 :: rest)) = some r) :
    ∃ v ∈ t.head?, ∃ x y, HexUnit x v ∧ r = x ++ y := by
  revert h
  fun_cases Escape.encode f t with
  | case1 =>
      intro h
      rw [List.nil_append, Utf8.encode_ascii (by decide)] at h
      cases h
  | case2 v =>
      intro h
      exact ⟨v, rfl, exists_of_after?_unit h⟩
  | case3 u v t huv =>
      intro h
      simp only [Bool.and_eq_true] at huv
      rw [List.cons_append, List.cons_append, Utf8.encode_pair huv.1 huv.2,
        after?_eq_none (head_encodePoint (raw_pair huv.1 huv.2) _)] at h
      cases h
  | case4 u v t =>
      intro h
      rw [List.append_assoc] at h
      exact ⟨u, rfl, exists_of_after?_unit h⟩

/-- The reader misses the low surrogate after a high one that is not paired. -/
theorem scanNumbered_unpaired {u : CodeUnit} {x : Bytes} {rest : Text} (hx : HexUnit x u)
    (hu : u.isHigh) (ht : ∀ v ∈ t.head?, ¬ v.isLow) :
    ∃ e, scanNumbered (x ++ Utf8.encode (Escape.encode f t ++ 0x22 :: rest)) = .error e ∧
      e.reason.Unpaired := by
  simp only [scanNumbered, scanHex_append hx, hu, if_true]
  cases ha : after? [0x5C, 0x75] (Utf8.encode (Escape.encode f t ++ 0x22 :: rest)) with
  | none => exact ⟨_, rfl, .inl rfl⟩
  | some r =>
      obtain ⟨v, hv, y, z, hy, rfl⟩ := exists_of_after?_escaped ha
      simp only [scanLowHalf, scanHex_append hy, if_neg (ht v hv)]
      exact ⟨_, rfl, .inr rfl⟩

/-- A surrogate has no short escape. -/
theorem unit_of_isHigh {u : CodeUnit} (hu : u.isHigh) : Escape.unit f u = Escape.byNumber u := by
  rw [CodeUnit.isHigh_iff] at hu
  have hn : Escape.letter? f u = none := by
    cases hc : Escape.letter? f u with
    | none => rfl
    | some c =>
        have := (letter_mem hc).2.2
        simp only [shortEscapes, List.mem_cons, Prod.mk.injEq, List.not_mem_nil, or_false,
          ← UInt16.toNat_inj, UInt16.reduceToNat] at this
        omega
  have hh : u.isHigh := CodeUnit.isHigh_iff.mpr hu
  simp only [Escape.unit, hn, hh, Bool.or_true, Bool.true_or, if_true]

theorem scanBody_unpaired {u : CodeUnit} {rest : Text} (hu : u.isHigh)
    (ht : ∀ v ∈ t.head?, ¬ v.isLow) :
    ∃ e, scanBody (Utf8.encode (Escape.unit f u ++ (Escape.encode f t ++ 0x22 :: rest))) =
      .error e ∧ e.reason.Unpaired := by
  obtain ⟨x, hx, he⟩ := encode_byNumber u
  obtain ⟨e, hs, hr⟩ : ∃ e, scanNumbered (x ++ Utf8.encode (Escape.encode f t ++ 0x22 :: rest)) =
      .error e ∧ e.reason.Unpaired := scanNumbered_unpaired hx hu ht
  have hshort : shortEscape? 0x75 = none := rfl
  refine ⟨e, ?_, hr⟩
  rw [unit_of_isHigh hu, he, scanBody_escape, scanEscape, hshort]
  simp only [if_true, hs]

/-! ### Texts -/

/-- The body at the front of `s` is read as the text `t` with `r` left, or fails for a high
surrogate of `t` that is not paired. -/
def Spells (s : Bytes) (t : Text) (r : Bytes) : Prop :=
  (t.HighsPaired → scanBody s = .ok (t, r)) ∧
    (¬ t.HighsPaired → ∃ e, scanBody s = .error e ∧ e.reason.Unpaired)

theorem Spells.decodes {s r : Bytes} (h : Spells s t r) : Decodes s := by
  intro e he
  by_cases ht : t.HighsPaired
  · rw [h.1 ht] at he
    cases he
  · obtain ⟨e', he', hr⟩ := h.2 ht
    rw [he'] at he
    cases he
    rcases hr with hr | hr <;> rw [hr] <;> decide

/-- What is read by itself in front of a body is read with it. -/
theorem Spells.append {s s' r : Bytes} {u : Text} (h : Spells s t r)
    (hs : scanBody s' = (scanBody s).map fun p => (u ++ p.1, p.2))
    (hu : Text.HighsPaired (u ++ t) ↔ t.HighsPaired) : Spells s' (u ++ t) r := by
  rw [Spells, hu]
  refine ⟨fun ht => by rw [hs, h.1 ht]; rfl, fun ht => ?_⟩
  obtain ⟨e, he, hr⟩ := h.2 ht
  exact ⟨e, by rw [hs, he]; rfl, hr⟩

variable {u v : CodeUnit} {rest : Text}

theorem Spells.unit (hu : u.isHigh → ∀ v ∈ t.head?, ¬ v.isLow)
    (h : Spells (Utf8.encode (Escape.encode f t ++ 0x22 :: rest)) t (Utf8.encode rest)) :
    Spells (Utf8.encode (Escape.unit f u ++ (Escape.encode f t ++ 0x22 :: rest))) (u :: t)
      (Utf8.encode rest) := by
  by_cases hh : u.isHigh
  · exact ⟨fun ht => absurd ht (Text.not_highsPaired hh (hu hh)),
      fun _ => scanBody_unpaired hh (hu hh)⟩
  · exact h.append (u := [u]) (scanBody_unit hh h.decodes) (Text.highsPaired_cons hh)

/-- A written text and its closing quote are read as the text exactly if its high surrogates are
paired. -/
theorem spells_escaped (f : Bool) (t rest : Text) :
    Spells (Utf8.encode (Escape.encode f t ++ 0x22 :: rest)) t (Utf8.encode rest) := by
  have hnil : Spells (Utf8.encode (Escape.encode f [] ++ 0x22 :: rest)) [] (Utf8.encode rest) := by
    rw [Escape.encode, List.nil_append, Utf8.encode_ascii (by decide)]
    exact ⟨fun _ => scanBody_quote _, fun h => absurd trivial h⟩
  fun_induction Escape.encode f t with
  | case1 => exact hnil
  | case2 u => exact .unit (by simp) hnil
  | case3 u v t huv ih =>
      simp only [Bool.and_eq_true] at huv
      exact ih.append (u := [u, v]) (scanBody_pair huv.1 huv.2 ih.decodes)
        (Text.highsPaired_pair huv.2)
  | case4 u v t huv ih =>
      rw [List.append_assoc]
      refine .unit (fun hu w hw hl => huv ?_) ih
      cases hw
      rw [hu, hl, Bool.and_self]

end JsonDocument.Reader
