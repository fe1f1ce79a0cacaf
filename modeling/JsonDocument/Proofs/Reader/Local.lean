import JsonDocument.Proofs.Reader.Runs

/-!
# Proofs — Reader — locality

What the reader answers depends on the bytes it has looked at and on nothing after them.  The input
is split as `x ++ y`.  An answer that leaves more than `y` is the same in front of any other `y'`:
the reader has not come to `y`.  So is a failure whose place is far enough in front of `y`, where
`Reason.lookahead` says what is enough.

* `Within`: the places of an answer lie in the input.
* `Local`, `Local.andThen`: local scanners, one after another.
* `local_scanNumber`, `local_scanBody`, `local_scanKey`, `local_step`: the reader is made of them.
* `found_of_run`: the place of a run's failure lies in its input.
* `run_local`: a run that fails in front of `y` fails in the same way in front of any `y'`.
-/

namespace JsonDocument

/-- How many bytes the reader may have looked at, from the place of a failure on. -/
def Reason.lookahead : Reason → Nat
  | .literal => 5
  | .hex | .unfinishedHex => 4
  | .missingLowSurrogate => 2
  | _ => 1

theorem Reason.lookahead_pos (reason : Reason) : 0 < reason.lookahead := by
  cases reason <;> decide

theorem Reason.ne_nil_of_lookahead {reason : Reason} {f : Bytes}
    (h : reason.lookahead ≤ f.length) : f ≠ [] := by
  rintro rfl
  exact absurd reason.lookahead_pos (Nat.not_lt.mpr h)

end JsonDocument

namespace JsonDocument.Reader

variable {α β : Type} {w : Bytes}

/-! ### The places of an answer -/

/-- The places of an answer lie in the input `s`.  A failure is found where the reader has come to,
or at the front of a run that is no UTF-8 and ends there. -/
inductive Within (s : Bytes) : Scan α → Prop where
  | ok {a : α} {r : Bytes} (h : r <:+ s) : Within s (.ok (a, r))
  | error {e : Stop} (h : e.found <:+ s) (h' : e.unread <:+ e.found)
      (hr : e.unread = e.found ∨ e.reason = .utf8) : Within s (.error e)

theorem Within.at {s r : Bytes} (reason : Reason) (h : r <:+ s) :
    Within (α := α) s (.error (.at reason r)) :=
  .error h (List.suffix_refl r) (.inl rfl)

theorem Within.mono {s s' : Bytes} {a : Scan α} (h : Within s a) (hs : s <:+ s') :
    Within s' a := by
  cases h with
  | ok h => exact .ok (h.trans hs)
  | error h h' hr => exact .error (h.trans hs) h' hr

theorem Within.ok_suffix {s r : Bytes} {a : α} (h : Within s (.ok (a, r))) : r <:+ s := by
  cases h with
  | ok h => exact h

theorem Within.stop {s : Bytes} {e : Stop} (h : Within (α := α) s (.error e)) :
    e.found <:+ s ∧ e.unread <:+ e.found ∧ (e.unread = e.found ∨ e.reason = .utf8) := by
  cases h with
  | error h h' hr => exact ⟨h, h', hr⟩

/-! ### Local scanners -/

/-- The answers of `scan`, which has `w` behind it, name places in `w` and what follows, and those
in front of `y` do not depend on `y`. -/
structure Local (w : Bytes) (scan : Bytes → Scan α) : Prop where
  within : ∀ s, Within (w ++ s) (scan s)
  ok : ∀ {x r y : Bytes} {a : α}, r ≠ [] → scan (x ++ y) = .ok (a, r ++ y) →
    ∀ y', scan (x ++ y') = .ok (a, r ++ y')
  error : ∀ {x f u y : Bytes} {reason : Reason}, reason.lookahead ≤ f.length →
    scan (x ++ y) = .error ⟨reason, f ++ y, u ++ y⟩ →
    ∀ y', scan (x ++ y') = .error ⟨reason, f ++ y', u ++ y'⟩

theorem Local.of_eq {scan scan' : Bytes → Scan α} (h : Local w scan')
    (he : ∀ s, scan s = scan' s) : Local w scan :=
  funext he ▸ h

/-- Reading nothing more, from a place in `w` on. -/
theorem Local.pure {w' : Bytes} (a : α) (hw : w' <:+ w) : Local w fun s => .ok (a, w' ++ s) where
  within s := by
    obtain ⟨q, rfl⟩ := hw
    exact .ok ⟨q, by simp⟩
  ok := by
    intro x r y a _ h y'
    simp only [Except.ok.injEq, Prod.mk.injEq, ← List.append_assoc, List.append_cancel_right_eq]
      at h ⊢
    exact h
  error := fun _ h => nomatch h

theorem Local.stop {w' : Bytes} (reason : Reason) (hw : w' <:+ w) :
    Local (α := α) w fun s => .error (.at reason (w' ++ s)) where
  within s := by
    obtain ⟨q, rfl⟩ := hw
    exact .at _ ⟨q, by simp⟩
  ok := fun _ h => nomatch h
  error := by
    intro x f u y reason _ h y'
    simp only [Stop.at, Except.error.injEq, Stop.mk.injEq, ← List.append_assoc,
      List.append_cancel_right_eq] at h ⊢
    exact h

/-- The scanner that goes on with `next` where `scan` has read a value. -/
def andThen (scan : Bytes → Scan α) (next : α → Bytes → Scan β) (s : Bytes) : Scan β :=
  match scan s with
  | .error e => .error e
  | .ok (a, r) => next a r

/-- What has a place in front of `y` has not come to `y`. -/
theorem ne_nil_of_suffix {r y z : Bytes} (hr : r ≠ []) (h : r ++ y <:+ z) :
    ∃ q, q ≠ [] ∧ z = q ++ y := by
  obtain ⟨p, rfl⟩ := h
  exact ⟨p ++ r, by simp [hr], by simp⟩

/-- A local scanner followed by local scanners is local. -/
theorem Local.andThen {scan : Bytes → Scan α} {next : α → Bytes → Scan β} (h : Local w scan)
    (hn : ∀ a, Local [] (next a)) : Local w (andThen scan next) where
  within s := by
    have hs := h.within s
    unfold Reader.andThen
    split
    · next e he =>
        rw [he] at hs
        obtain ⟨h₁, h₂, h₃⟩ := hs.stop
        exact .error h₁ h₂ h₃
    · next a r ha =>
        rw [ha] at hs
        exact ((hn a).within r).mono hs.ok_suffix
  ok := by
    intro x r y b hr hs y'
    simp only [Reader.andThen] at hs ⊢
    split at hs
    · cases hs
    next a r₀ ha =>
    have hw := (hn a).within r₀
    rw [hs] at hw
    -- what is left in the end is left after the first scan too, so that one left something
    obtain ⟨q, hq, rfl⟩ := ne_nil_of_suffix hr hw.ok_suffix
    rw [h.ok hq ha y']
    exact (hn a).ok hr hs y'
  error := by
    intro x f u y reason hf hs y'
    simp only [Reader.andThen] at hs ⊢
    split at hs
    · next he =>
        cases hs
        rw [h.error hf he y']
    next a r₀ ha =>
    have hw := (hn a).within r₀
    rw [hs] at hw
    obtain ⟨q, hq, rfl⟩ := ne_nil_of_suffix (reason.ne_nil_of_lookahead hf) hw.stop.1
    rw [h.ok hq ha y']
    exact (hn a).error hf hs y'

/-- What is read may be changed. -/
theorem Local.map {scan : Bytes → Scan α} (h : Local w scan) (g : α → β) :
    Local w fun s => (scan s).map fun p => (g p.1, p.2) :=
  (h.andThen fun a => .pure (g a) (List.suffix_refl [])).of_eq fun s => by
    unfold Reader.andThen
    cases scan s <;> rfl

/-- A scanner has the first byte behind it, or finds none. -/
theorem Local.of_cons {scan : Bytes → Scan α} (hnil : Within [] (scan []))
    (h : ∀ b, Local [b] fun s => scan (b :: s)) : Local [] scan := by
  have hw : ∀ s, Within s (scan s) := fun s => match s with
    | [] => hnil
    | b :: s => (h b).within s
  refine ⟨hw, ?_, ?_⟩
  · intro x r y a hr hs y'
    cases x with
    | nil =>
        have := hw y
        rw [List.nil_append] at hs
        rw [hs] at this
        have := this.ok_suffix.length_le
        have := List.length_pos_iff.mpr hr
        simp only [List.length_append] at *
        omega
    | cons b x => exact (h b).ok hr hs y'
  · intro x f u y reason hf hs y'
    cases x with
    | nil =>
        have := hw y
        rw [List.nil_append] at hs
        rw [hs] at this
        have := this.stop.1.length_le
        have := reason.lookahead_pos
        simp only [List.length_append] at *
        omega
    | cons b x => exact (h b).error hf hs y'

/-- A scanner that starts at the byte behind it. -/
theorem Local.cons {scan : Bytes → Scan α} (h : Local [] scan) (b : UInt8) :
    Local [b] fun s => scan (b :: s) where
  within s := h.within (b :: s)
  ok := fun {x _ _ _} hr hs => h.ok (x := b :: x) hr hs
  error := fun {x _ _ _ _} hf hs => h.error (x := b :: x) hf hs

/-- A scanner that starts after what is behind it. -/
theorem Local.weaken {scan : Bytes → Scan α} (h : Local [] scan) (w : Bytes) : Local w scan where
  within s := (h.within s).mono (List.suffix_append w s)
  ok := h.ok
  error := h.error

/-! ### Blanks and words -/

theorem dropWhile_append_of_rest {p : UInt8 → Bool} {x r y : Bytes} (hr : r ≠ [])
    (h : (x ++ y).dropWhile p = r ++ y) (y' : Bytes) :
    (x ++ y').dropWhile p = r ++ y' ∧ (x ++ y').takeWhile p = (x ++ y).takeWhile p := by
  induction x with
  | nil =>
      have := (List.dropWhile_sublist p (l := y)).length_le
      have := List.length_pos_iff.mpr hr
      rw [List.nil_append] at h
      rw [h, List.length_append] at *
      omega
  | cons b x ih =>
      simp only [List.cons_append, List.dropWhile_cons, List.takeWhile_cons] at h ⊢
      split at h
      · next hb =>
          obtain ⟨h₁, h₂⟩ := ih h
          simp only [hb, if_true, h₁, h₂, and_self]
      · next hb =>
          rw [← List.cons_append, List.append_cancel_right_eq] at h
          simp [hb, ← h]

theorem local_skipBlanks : Local [] fun s => .ok ((), skipBlanks s) where
  within s := .ok (List.dropWhile_suffix _)
  ok := by
    intro x r y _ hr h y'
    simp only [Except.ok.injEq, Prod.mk.injEq, true_and] at h ⊢
    exact (dropWhile_append_of_rest hr h y').1
  error := fun _ h => nomatch h

theorem after?_suffix {word s r : Bytes} (h : after? word s = some r) : r <:+ s :=
  ⟨word, (eq_append_of_after? h).symm⟩

theorem after?_append_of_le {word x : Bytes} (h : word.length ≤ x.length) (y : Bytes) :
    after? word (x ++ y) = (after? word x).map (· ++ y) := by
  induction word generalizing x with
  | nil => rfl
  | cons w word ih =>
      cases x with
      | nil => simp at h
      | cons b x =>
          simp only [List.cons_append, after?]
          split
          · exact ih (Nat.le_of_succ_le_succ h)
          · rfl

theorem exists_of_after?_append {word x r y : Bytes} (h : after? word (x ++ y) = some (r ++ y)) :
    x = word ++ r := by
  have := eq_append_of_after? h
  rwa [← List.append_assoc, List.append_cancel_right_eq] at this

/-- Reads a word, or stops in front of it where it is not there. -/
def expect (word : Bytes) (a : α) (reason : Reason) (s : Bytes) : Scan α :=
  match after? word s with
  | some r => .ok (a, r)
  | none => .error (.at reason s)

theorem local_expect (word : Bytes) (a : α) (reason : Reason)
    (hw : word.length ≤ reason.lookahead) : Local [] (expect word a reason) where
  within s := by
    unfold expect
    split
    · next ha => exact .ok (after?_suffix ha)
    · exact .at _ (List.suffix_refl s)
  ok := by
    intro x r y a _ h y'
    simp only [expect] at h ⊢
    split at h
    · next r' ha =>
        cases h
        rw [exists_of_after?_append ha, List.append_assoc, after?_append]
    · cases h
  error := by
    intro x f u y reason hf h y'
    simp only [expect] at h ⊢
    split at h
    · cases h
    · next ha =>
        simp only [Stop.at, Except.error.injEq, Stop.mk.injEq, List.append_cancel_right_eq] at h
        obtain ⟨rfl, rfl, rfl⟩ := h
        rw [after?_append_of_le (Nat.le_trans hw hf), Option.map_eq_none_iff] at ha
        rw [after?_append_of_le (Nat.le_trans hw hf), ha]
        rfl

theorem local_scanWord {word : Bytes} {a : α} (hw : word.length ≤ 5) :
    Local [] (scanWord word a) :=
  local_expect word a .literal hw

/-! ### Numbers -/

theorem local_scanMinus : Local [] fun s => .ok (scanMinus s) := by
  refine .of_cons (.ok (List.suffix_refl [])) fun b => ?_
  simp only [scanMinus]
  split
  · exact .pure [b] (List.nil_suffix)
  · exact .pure [] (List.suffix_refl [b])

theorem local_scanSign : Local [] fun s => .ok (scanSign s) := by
  refine .of_cons (.ok (List.suffix_refl [])) fun b => ?_
  simp only [scanSign]
  split
  · exact .pure [b] (List.nil_suffix)
  · exact .pure [] (List.suffix_refl [b])

theorem local_scanDigits (reason : Reason) : Local [] (scanDigits reason) where
  within s := by
    unfold scanDigits
    split
    · exact .at _ (List.suffix_refl s)
    · exact .ok (List.dropWhile_suffix _)
  ok := by
    intro x r y ds hr h y'
    simp only [scanDigits] at h ⊢
    split at h
    · cases h
    next hne =>
    simp only [Except.ok.injEq, Prod.mk.injEq] at h
    obtain ⟨h₁, h₂⟩ := dropWhile_append_of_rest hr h.2 y'
    rw [h₁, h₂]
    split
    · next hnil => exact absurd hnil hne
    · rw [h.1]
  error := by
    intro x f u y reason hf h y'
    simp only [scanDigits] at h ⊢
    split at h
    next hnil =>
      simp only [Stop.at, Except.error.injEq, Stop.mk.injEq, List.append_cancel_right_eq] at h
      obtain ⟨rfl, rfl, rfl⟩ := h
      cases x with
      | nil => exact absurd rfl (Reason.ne_nil_of_lookahead hf)
      | cons b x =>
          -- the byte that is no digit stands in front of `y`
          rw [List.cons_append, List.takeWhile_cons] at hnil
          split at hnil
          · cases hnil
          next hb =>
          simp [hb, Stop.at]
    · cases h

theorem local_scanInteger : Local [] scanInteger := by
  refine .of_cons (.at _ (List.suffix_refl [])) fun b => ?_
  simp only [scanInteger]
  split
  · exact .pure [b] (List.nil_suffix)
  · exact (local_scanDigits .number).cons b

theorem local_scanFraction : Local [] scanFraction := by
  refine .of_cons (.ok (List.suffix_refl [])) fun b => ?_
  simp only [scanFraction]
  split
  · exact (((local_scanDigits .fraction).map (b :: ·)).weaken [b]).of_eq fun s => by
      cases scanDigits .fraction s <;> rfl
  · exact .pure [] (List.suffix_refl [b])

theorem local_scanExponent : Local [] scanExponent := by
  refine .of_cons (.ok (List.suffix_refl [])) fun b => ?_
  simp only [scanExponent]
  split
  · have h := local_scanSign.andThen fun sign =>
      (local_scanDigits .exponent).map fun ds => b :: sign ++ ds
    refine (h.weaken [b]).of_eq fun s => ?_
    simp only [andThen]
    cases scanDigits .exponent (scanSign s).2 <;> rfl
  · exact .pure [] (List.suffix_refl [b])

theorem local_scanNumber : Local [] scanNumber := by
  have h := local_scanMinus.andThen fun sign => local_scanInteger.andThen fun integer =>
    local_scanFraction.andThen fun fraction => local_scanExponent.map fun exponent =>
      textOf (sign ++ integer ++ fraction ++ exponent)
  refine h.of_eq fun s => ?_
  simp only [andThen, scanNumber]
  cases scanInteger (scanMinus s).2 with
  | error e => rfl
  | ok p =>
      simp only
      cases scanFraction p.2 with
      | error e => rfl
      | ok q =>
          simp only
          cases scanExponent q.2 <;> rfl

/-! ### Escapes -/

theorem stop_of_scanHex {s : Bytes} {e : Stop} (h : scanHex s = .error e) :
    e = .at e.reason s ∧ e.reason.lookahead = 4 := by
  unfold scanHex at h
  split at h
  · split at h
    · cases h
    · cases h; exact ⟨rfl, rfl⟩
  · cases h; exact ⟨rfl, rfl⟩

theorem local_scanHex : Local [] scanHex where
  within s := by
    cases h : scanHex s with
    | error e =>
        rw [(stop_of_scanHex h).1]
        exact .at _ (List.suffix_refl s)
    | ok p =>
        obtain ⟨x, hx, _⟩ := exists_of_scanHex (show scanHex s = .ok (p.1, p.2) from h)
        exact .ok ⟨x, hx.symm⟩
  ok := by
    intro x r y u _ h y'
    obtain ⟨z, hx, hz⟩ := exists_of_scanHex h
    rw [← List.append_assoc, List.append_cancel_right_eq] at hx
    rw [hx, List.append_assoc]
    exact scanHex_append hz (r ++ y')
  error := by
    intro x f u y reason hf h y'
    obtain ⟨he, hr⟩ := stop_of_scanHex h
    simp only [Stop.at, Stop.mk.injEq, List.append_cancel_right_eq, true_and] at he hr
    obtain ⟨hf', hu'⟩ := he
    rw [hf'] at hf
    rw [hf', hu'] at h ⊢
    clear hf' hu'
    match x with
    | [] | [_] | [_, _] | [_, _, _] =>
        simp only [hr, List.length_cons, List.length_nil] at hf
        omega
    | a :: b :: c :: d :: x =>
        -- the four bytes that are no digits stand in front of `y`
        simp only [List.cons_append, scanHex] at h ⊢
        split at h
        · cases h
        · simp only [Stop.at, Except.error.injEq, Stop.mk.injEq, and_true] at h ⊢
          exact h

theorem local_scanLowHalf (high : CodeUnit) : Local [] (scanLowHalf high) := by
  have h : ∀ low : CodeUnit, Local [] fun r =>
      if low.isLow then
        if Utf8.width (high.pair low) = 0 then .error (.at .codePoint r)
        else .ok (Text.ofCodePoint (high.pair low), r)
      else .error (.at .notALowSurrogate r) := by
    intro low
    split
    · split
      · exact .stop _ (List.suffix_refl [])
      · exact .pure _ (List.suffix_refl [])
    · exact .stop _ (List.suffix_refl [])
  refine (local_scanHex.andThen h).of_eq fun s => ?_
  unfold scanLowHalf andThen
  cases scanHex s <;> rfl

theorem local_scanNumbered : Local [] scanNumbered := by
  have h : ∀ u : CodeUnit, Local [] fun r =>
      if u.isHigh then
        andThen (expect [0x5C, 0x75] () .missingLowSurrogate) (fun _ => scanLowHalf u) r
      else .ok ([u], r) := by
    intro u
    split
    · have h := local_expect [0x5C, 0x75] () .missingLowSurrogate (Nat.le_refl 2)
      exact h.andThen fun _ => local_scanLowHalf u
    · exact .pure [u] (List.suffix_refl [])
  refine (local_scanHex.andThen h).of_eq fun s => ?_
  unfold scanNumbered andThen expect
  cases scanHex s with
  | error e => rfl
  | ok p =>
      simp only
      cases after? [0x5C, 0x75] p.2 <;> rfl

theorem local_scanEscape : Local [] scanEscape := by
  refine .of_cons (.at _ (List.suffix_refl [])) fun b => ?_
  simp only [scanEscape]
  split
  · next u _ => exact .pure [u] List.nil_suffix
  split
  · exact local_scanNumbered.weaken [b]
  · exact .stop _ List.nil_suffix

/-! ### Strings -/

/-- The run of raw bytes at the front, and the quote or the backslash at its end. -/
def scanChunk (s : Bytes) : Scan (Text × UInt8) :=
  match s.dropWhile isRaw with
  | [] => .error (.at .unfinishedString [])
  | b :: r =>
      if b = 0x22 ∨ b = 0x5C then (decodeRun s r).map fun t => ((t, b), r)
      else .error (.at .controlCharacter r)

/-- The body of a string, of which no more than so many runs are read. -/
def scanChunks : Nat → Bytes → Scan Text
  | 0, s => .error (.at .unfinishedString s)
  | n + 1, s => andThen scanChunk (fun p r =>
      if p.2 = 0x22 then .ok (p.1, r)
      else andThen scanEscape (fun u r => (scanChunks n r).map fun q => (p.1 ++ u ++ q.1, q.2)) r) s

theorem scanChunks_eq {n : Nat} {s : Bytes} (h : s.length < n) : scanChunks n s = scanBody s := by
  induction n generalizing s with
  | zero => omega
  | succ n ih =>
      have hd := length_dropWhile_le isRaw s
      rw [scanBody_eq, scanChunks, andThen, scanChunk]
      cases hs : s.dropWhile isRaw with
      | nil => rfl
      | cons b r =>
          rw [hs, List.length_cons] at hd
          simp only
          by_cases hq : b = 0x22
          · simp only [hq, true_or, if_true]
            cases decodeRun s r <;> rfl
          by_cases he : b = 0x5C
          · have hne : ¬(0x5C : UInt8) = 0x22 := by decide
            simp only [he, or_true, if_true, if_neg hne]
            cases decodeRun s r with
            | error e => rfl
            | ok t =>
                simp only [Except.map, andThen, if_neg hne]
                cases hr : scanEscape r with
                | error e => rfl
                | ok q =>
                    have := scanEscape_shorter (show scanEscape r = .ok (q.1, q.2) from hr)
                    simp only
                    rw [ih (by omega)]
          · simp only [hq, he, or_self, if_false]

theorem local_scanChunk : Local [] scanChunk where
  within s := by
    have hd : s.dropWhile isRaw <:+ s := List.dropWhile_suffix _
    unfold scanChunk decodeRun
    split
    · next hs => rw [hs] at hd; exact .at _ hd
    next b r hs =>
    rw [hs] at hd
    have hr := (List.suffix_cons b r).trans hd
    split
    · split
      · exact .ok hr
      · exact .error (List.suffix_refl s) hr (.inr rfl)
    · exact .at _ hr
  ok := by
    intro x r y a _ h y'
    unfold scanChunk decodeRun at h
    split at h
    · cases h
    next b r₀ hs =>
    split at h
    next hb =>
      split at h
      · next t ht =>
          cases h
          obtain ⟨h₁, h₂⟩ := dropWhile_append_of_rest (r := b :: r) (by simp) hs y'
          simp only [scanChunk, decodeRun, h₁, h₂, ht, hb, List.cons_append, if_true]
          rfl
      · cases h
    · cases h
  error := by
    intro x f u y reason hf h y'
    unfold scanChunk decodeRun at h
    split at h
    · simp only [Stop.at, Except.error.injEq, Stop.mk.injEq, List.nil_eq_append_iff] at h
      exact absurd h.2.1.1 (Reason.ne_nil_of_lookahead hf)
    next b r₀ hs =>
    split at h
    next hb =>
      split at h
      · cases h
      next ht =>
        simp only [Except.map, Except.error.injEq, Stop.mk.injEq, List.append_cancel_right_eq] at h
        obtain ⟨rfl, rfl, rfl⟩ := h
        obtain ⟨h₁, h₂⟩ := dropWhile_append_of_rest (r := b :: u) (by simp) hs y'
        simp only [scanChunk, decodeRun, h₁, h₂, ht, hb, List.cons_append, if_true]
        rfl
    next hb =>
      simp only [Stop.at, Except.error.injEq, Stop.mk.injEq] at h
      obtain ⟨rfl, rfl, hu⟩ := h
      obtain rfl := List.append_cancel_right hu
      obtain ⟨h₁, h₂⟩ := dropWhile_append_of_rest (r := b :: f) (by simp) hs y'
      simp only [scanChunk, h₁, hb, List.cons_append, if_false]
      rfl

theorem local_scanChunks (n : Nat) : Local [] (scanChunks n) := by
  induction n with
  | zero => exact .stop _ (List.suffix_refl [])
  | succ n ih =>
      refine local_scanChunk.andThen fun p => ?_
      split
      · exact .pure p.1 (List.suffix_refl [])
      · exact local_scanEscape.andThen fun u => ih.map (p.1 ++ u ++ ·)

theorem local_scanBody : Local [] scanBody where
  within s := by
    rw [← scanChunks_eq (Nat.lt_succ_self s.length)]
    exact (local_scanChunks _).within s
  ok := by
    intro x r y t hr h y'
    -- so many runs are enough for both inputs
    have hn : (x ++ y).length < (x ++ y ++ y').length + 1 := by
      simp only [List.length_append]
      omega
    have hn' : (x ++ y').length < (x ++ y ++ y').length + 1 := by
      simp only [List.length_append]
      omega
    rw [← scanChunks_eq hn] at h
    rw [← scanChunks_eq hn']
    exact (local_scanChunks _).ok hr h y'
  error := by
    intro x f u y reason hf h y'
    have hn : (x ++ y).length < (x ++ y ++ y').length + 1 := by
      simp only [List.length_append]
      omega
    have hn' : (x ++ y').length < (x ++ y ++ y').length + 1 := by
      simp only [List.length_append]
      omega
    rw [← scanChunks_eq hn] at h
    rw [← scanChunks_eq hn']
    exact (local_scanChunks _).error hf h y'

theorem local_scanString : Local [] scanString := by
  refine .of_cons (.at _ (List.suffix_refl [])) fun b => ?_
  simp only [scanString]
  split
  · exact local_scanBody.weaken [b]
  · exact .stop _ (List.suffix_refl [b])

theorem local_scanKey : Local [] scanKey := by
  have h := local_scanString.andThen fun key => local_skipBlanks.andThen fun _ =>
    local_expect [0x3A] key .missingColon (Nat.le_refl 1)
  refine h.of_eq fun s => ?_
  unfold scanKey andThen expect
  cases scanString s with
  | error e => rfl
  | ok p =>
      exact match after? [0x3A] (skipBlanks p.2) with
        | some r => rfl
        | none => rfl

/-! ### Steps -/

/-- A step as the answer of a scanner: where it leads to, and what is unread there. -/
def Progress.answer : Progress → Scan (Int × List Frame × Focus)
  | .next st => .ok ((st.room, st.stack, st.focus), st.unread)
  | .halt (.error e) _ => .error e
  | .halt (.ok v) room => .ok ((room, [], .held v), [])

variable {room : Int} {stack : List Frame}

theorem local_next (room : Int) (stack : List Frame) (focus : Focus) :
    Local w fun s => (Progress.next ⟨room, stack, focus, s⟩).answer :=
  .pure (room, stack, focus) List.nil_suffix

theorem local_leaf {wrap : α → Json} {scan : Bytes → Scan α} (h : Local w scan) :
    Local w fun s => (leaf room stack wrap (scan s)).answer :=
  (h.map fun a => (room, stack, .held (wrap a))).of_eq fun s => by cases scan s <;> rfl

theorem local_nextMember (room : Int) (stack : List Frame) (read : List (Text × Json)) :
    Local [] fun s => (nextMember room stack read s).answer :=
  (local_scanKey.map fun key => (room, Frame.members read key :: stack, Focus.wanted)).of_eq
    fun s => by unfold nextMember; cases scanKey s <;> rfl

/-- One way to go on after a byte, another one at any other. -/
theorem local_after? {b : UInt8} {go other : Bytes → Scan α} (hg : Local [] go)
    (ho : Local [] other) : Local [] fun s =>
      match after? [b] s with
      | some r => go r
      | none => other s := by
  refine .of_cons (ho.within []) fun c => ?_
  simp only [after?]
  split
  · exact hg.weaken [c]
  · exact ho.cons c

theorem local_openArray (room : Int) (stack : List Frame) (b : UInt8) :
    Local [b] fun s => (openArray room stack b s).answer := by
  by_cases hroom : room ≤ 0
  · refine (Local.stop .tooDeep (List.suffix_refl [b])).of_eq fun s => ?_
    simp only [openArray, if_pos hroom]
    rfl
  · have h := local_skipBlanks.andThen fun _ => local_after? (b := 0x5D)
      (.pure (room, stack, Focus.held (.array [])) (List.suffix_refl []))
      (.pure (room - 1, Frame.elements [] :: stack, Focus.wanted) (List.suffix_refl []))
    refine (h.weaken [b]).of_eq fun s => ?_
    simp only [openArray, if_neg hroom, andThen]
    cases after? [0x5D] (skipBlanks s) <;> rfl

theorem local_openObject (room : Int) (stack : List Frame) (b : UInt8) :
    Local [b] fun s => (openObject room stack b s).answer := by
  by_cases hroom : room ≤ 0
  · refine (Local.stop .tooDeep (List.suffix_refl [b])).of_eq fun s => ?_
    simp only [openObject, if_pos hroom]
    rfl
  · have h := local_skipBlanks.andThen fun _ => local_after? (b := 0x7D)
      (.pure (room, stack, Focus.held (.object [])) (List.suffix_refl []))
      (local_nextMember (room - 1) stack [])
    refine (h.weaken [b]).of_eq fun s => ?_
    simp only [openObject, if_neg hroom, andThen]
    cases after? [0x7D] (skipBlanks s) <;> rfl

theorem local_start (room : Int) (stack : List Frame) :
    Local [] fun s => (start room stack s).answer := by
  refine .of_cons (.at _ (List.suffix_refl [])) fun b => ?_
  simp only [start]
  split
  · exact local_leaf ((local_scanWord (Nat.le_of_ble_eq_true rfl)).cons b)
  split
  · exact local_leaf ((local_scanWord (Nat.le_of_ble_eq_true rfl)).cons b)
  split
  · exact local_leaf ((local_scanWord (Nat.le_of_ble_eq_true rfl)).cons b)
  split
  · exact local_leaf (local_scanBody.weaken [b])
  split
  · exact local_openObject room stack b
  split
  · exact local_openArray room stack b
  split
  · exact local_leaf (local_scanNumber.cons b)
  · exact .stop .notAValue (List.suffix_refl [b])

theorem local_resume (room : Int) (v : Json) (stack : List Frame) :
    Local [] fun s => (resume room v stack s).answer := by
  cases stack with
  | nil =>
      exact .of_cons (.ok (List.suffix_refl [])) fun b => .stop .trailing (List.suffix_refl [b])
  | cons frame stack =>
      cases frame with
      | elements read =>
          refine .of_cons (.at _ (List.suffix_refl [])) fun b => ?_
          simp only [resume]
          split
          · exact local_next _ _ _
          split
          · exact local_next _ _ _
          · exact .stop _ (List.suffix_refl [b])
      | members read key =>
          refine .of_cons (.at _ (List.suffix_refl [])) fun b => ?_
          simp only [resume]
          split
          · exact local_next _ _ _
          split
          · exact (local_skipBlanks.andThen fun _ => local_nextMember room stack _).weaken [b]
          · exact .stop _ (List.suffix_refl [b])

/-- A step is local. -/
theorem local_step (room : Int) (stack : List Frame) (focus : Focus) :
    Local [] fun s => (step ⟨room, stack, focus, s⟩).answer := by
  cases focus with
  | wanted => exact local_skipBlanks.andThen fun _ => local_start room stack
  | held v => exact local_skipBlanks.andThen fun _ => local_resume room v stack

/-! ### Runs -/

theorem answer_eq_next {m : Progress} {focus : Focus} {r : Bytes} (hr : r ≠ [])
    (h : m.answer = .ok ((room, stack, focus), r)) : m = .next ⟨room, stack, focus, r⟩ := by
  match m with
  | .next st => cases h; rfl
  | .halt (.error e) _ => cases h
  | .halt (.ok v) _ => cases h; exact absurd rfl hr

theorem answer_eq_error {m : Progress} {e : Stop} (h : m.answer = .error e) :
    ∃ room, m = .halt (.error e) room := by
  match m with
  | .next st => cases h
  | .halt (.error e) room => cases h; exact ⟨room, rfl⟩
  | .halt (.ok v) _ => cases h

/-- The place of a run's failure lies in its input, in front of the place it has come to. -/
theorem found_of_run {st : State} {e : Stop} (h : (run st).1 = .error e) :
    e.found <:+ st.unread ∧ e.unread <:+ e.found ∧ (e.unread = e.found ∨ e.reason = .utf8) := by
  fun_induction run st with
  | case1 st st' hs ih =>
      have hw := (local_step st.room st.stack st.focus).within st.unread
      rw [hs] at hw
      exact ⟨(ih h).1.trans hw.ok_suffix, (ih h).2⟩
  | case2 st result room' hs =>
      cases h
      have hw := (local_step st.room st.stack st.focus).within st.unread
      rw [hs] at hw
      exact hw.stop

/-- **Locality.**  A run that fails in front of `y` fails in the same way in front of any `y'`. -/
theorem run_local {focus : Focus} {x f u y : Bytes} {reason : Reason}
    (hf : reason.lookahead ≤ f.length)
    (h : (run ⟨room, stack, focus, x ++ y⟩).1 = .error ⟨reason, f ++ y, u ++ y⟩) (y' : Bytes) :
    (run ⟨room, stack, focus, x ++ y'⟩).1 = .error ⟨reason, f ++ y', u ++ y'⟩ := by
  generalize hst : State.mk room stack focus (x ++ y) = st at h
  fun_induction run st generalizing room stack focus x with
  | case1 st st' hs ih =>
      subst hst
      obtain ⟨room', stack', focus', s⟩ := st'
      obtain ⟨q, hq, hs'⟩ := ne_nil_of_suffix (Reason.ne_nil_of_lookahead hf) (found_of_run h).1
      simp only at hs'
      subst hs'
      have ha := (local_step room stack focus).ok hq (congrArg Progress.answer hs) y'
      rw [run_eq_finish, answer_eq_next (by simp [hq]) ha]
      exact ih rfl h
  | case2 st result room' hs =>
      subst hst
      cases h
      obtain ⟨room'', ha⟩ :=
        answer_eq_error ((local_step room stack focus).error hf (congrArg Progress.answer hs) y')
      rw [run_eq_finish, ha]
      rfl

end JsonDocument.Reader
