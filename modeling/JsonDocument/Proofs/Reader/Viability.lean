import JsonDocument.Proofs.Reader.Local
import JsonDocument.Proofs.Reader.Recognition

/-!
# Proofs — Reader — viability

A failure at a bracket, a separator or a number points at the first byte that no document goes on
with.  Up to there the input is the front of a document within the limit, since what is open can be
closed and what is half read can be finished (`Halfway`).  With the byte itself it is not, since the
reader has looked at nothing after that byte (`run_local`).

* `halfway_of_step`: what such a step has read of its value, label or separator.
* `Consumed.viable`: what has been read, half-read text included, is the front of a document.
* `readDocument_points`: the place of such a failure.
-/

namespace JsonDocument

/-- The failures at brackets, separators and numbers. -/
def Reason.Pointing (reason : Reason) : Prop :=
  reason.category = .structural ∨ reason = .number ∨ reason = .fraction ∨ reason = .exponent

instance (reason : Reason) : Decidable reason.Pointing := inferInstanceAs (Decidable (_ ∨ _))

theorem Reason.Pointing.lookahead_le {reason : Reason} (h : reason.Pointing) :
    reason.lookahead ≤ 1 := by
  revert h
  cases reason <;> decide

/-- The failures within a string.  A code point is none of them. -/
def Reason.InString (reason : Reason) : Prop :=
  reason ∈ [.controlCharacter, .escape, .unfinishedEscape, .unfinishedString, .unfinishedHex, .hex,
    .missingLowSurrogate, .notALowSurrogate, .utf8]

instance (reason : Reason) : Decidable reason.InString := inferInstanceAs (Decidable (_ ∈ _))

theorem Reason.InString.not_pointing {reason : Reason} (h : reason.InString) :
    ¬ reason.Pointing := by
  revert h
  cases reason <;> decide

end JsonDocument

namespace JsonDocument.Reader
open JsonDocument.Grammar

variable {room : Int} {stack : List Frame} {s : Bytes} {e : Stop}

/-! ### Half of a number -/

theorem digits_zero : Digits [0x30] := ⟨by decide, List.forall_mem_singleton.mpr (by decide)⟩

theorem isNumber_zero : IsNumber [0x30] := .mk (.inl rfl) .zero .none .none

theorem stop_of_scanDigits {reason : Reason} (h : scanDigits reason s = .error e) :
    e.found = s := by
  unfold scanDigits at h
  split at h
  · cases h; rfl
  · cases h

theorem stop_of_scanInteger (h : scanInteger s = .error e) : e.found = s := by
  unfold scanInteger at h
  split at h
  · cases h; rfl
  split at h
  · cases h
  · exact stop_of_scanDigits h

/-- What is read of a fraction that stops is its point. -/
theorem exists_of_scanFraction_error (h : scanFraction s = .error e) :
    ∃ n, s = n ++ e.found ∧ Fraction (n ++ [0x30]) := by
  unfold scanFraction at h
  split at h
  · cases h
  next b s =>
  split at h
  next hb =>
    split at h
    · next hd =>
        cases h
        exact ⟨[b], by rw [stop_of_scanDigits hd]; rfl, hb ▸ .some digits_zero⟩
    · cases h
  · cases h

/-- What is read of an exponent that stops is its letter and its sign. -/
theorem exists_of_scanExponent_error (h : scanExponent s = .error e) :
    ∃ n, s = n ++ e.found ∧ Exponent (n ++ [0x30]) := by
  unfold scanExponent at h
  split at h
  · cases h
  next b s =>
  split at h
  next hb =>
    split at h
    · next hd =>
        cases h
        refine ⟨b :: (scanSign s).1, ?_, .some (by simpa using hb) (sign_scanSign s) digits_zero⟩
        rw [stop_of_scanDigits hd, List.cons_append, ← eq_append_scanSign]
    · cases h
  · cases h

/-- What is read of a number that stops can be finished. -/
theorem exists_of_scanNumber_error (h : scanNumber s = .error e) :
    ∃ n m, s = n ++ e.found ∧ IsNumber (n ++ m) := by
  have hs := eq_append_scanMinus s
  have hm := minus_scanMinus s
  unfold scanNumber at h
  split at h
  next he =>
    cases h
    refine ⟨(scanMinus s).1, [0x30], by rwa [stop_of_scanInteger he], ?_⟩
    simpa using IsNumber.mk hm .zero .none .none
  next i r hi =>
  obtain ⟨hir, hi⟩ := integer_of_scanInteger hi
  split at h
  next he =>
    cases h
    obtain ⟨n, hn, hf⟩ := exists_of_scanFraction_error he
    refine ⟨(scanMinus s).1 ++ i ++ n, [0x30], ?_, ?_⟩
    · rw [List.append_assoc, List.append_assoc, ← hn, ← hir]
      exact hs
    · simpa using IsNumber.mk hm hi hf .none
  next f r hf =>
  obtain ⟨hfr, hf⟩ := fraction_of_scanFraction hf
  split at h
  next he =>
    cases h
    obtain ⟨n, hn, hx⟩ := exists_of_scanExponent_error he
    refine ⟨(scanMinus s).1 ++ i ++ f ++ n, [0x30], ?_, ?_⟩
    · rw [List.append_assoc, List.append_assoc, List.append_assoc, ← hn, ← hfr, ← hir]
      exact hs
    · simpa using IsNumber.mk hm hi hf hx
  · cases h

/-! ### Strings and words -/

theorem not_pointing_of_scanWord {α : Type} {word : Bytes} {a : α}
    (h : scanWord word a s = .error e) : ¬ e.reason.Pointing := by
  unfold scanWord at h
  split at h
  · cases h
  · cases h; exact (by decide : ¬ Reason.Pointing .literal)

theorem inString_at {reason : Reason} (h : reason.InString) (s : Bytes) :
    (Stop.at reason s).reason.InString := h

theorem inString_of_scanHex (h : scanHex s = .error e) : e.reason.InString := by
  unfold scanHex at h
  split at h
  · split at h
    · cases h
    · cases h; exact inString_at (by decide) _
  · cases h; exact inString_at (by decide) _

/-- The halves of a pair name a code point that there is, so no such failure is reported. -/
theorem inString_of_scanLowHalf {u : CodeUnit} (hu : u.isHigh) (h : scanLowHalf u s = .error e) :
    e.reason.InString := by
  unfold scanLowHalf at h
  split at h
  next hx => cases h; exact inString_of_scanHex hx
  split at h
  next hv =>
    rw [if_neg (width_pair_ne_zero hu hv)] at h
    cases h
  · cases h; exact inString_at (by decide) _

theorem inString_of_scanEscape (h : scanEscape s = .error e) : e.reason.InString := by
  unfold scanEscape at h
  split at h
  · cases h; exact inString_at (by decide) _
  split at h
  · cases h
  split at h
  · unfold scanNumbered at h
    split at h
    next hx => cases h; exact inString_of_scanHex hx
    split at h
    next hu =>
      split at h
      · exact inString_of_scanLowHalf hu h
      · cases h; exact inString_at (by decide) _
    · cases h
  · cases h; exact inString_at (by decide) _

theorem reason_of_decodeRun {r : Bytes} (h : decodeRun s r = .error e) : e.reason = .utf8 := by
  unfold decodeRun at h
  split at h
  · cases h
  · cases h; rfl

theorem inString_of_scanBody (h : scanBody s = .error e) : e.reason.InString := by
  fun_induction scanBody s with
  | case1 | case8 => cases h; exact inString_at (by decide) _
  | case2 _ _ _ hd | case4 _ _ _ hd => cases h; rw [reason_of_decodeRun hd]; decide
  | case3 | case7 => cases h
  | case5 _ _ _ _ _ he => cases h; exact inString_of_scanEscape he
  | case6 _ _ _ _ _ _ _ _ hv _ _ ih => cases h; exact ih hv

/-! ### Half of a label -/

/-- What is read of a label that stops can be finished, unless it stops within the key. -/
theorem exists_of_scanKey_error (h : scanKey s = .error e) (hp : e.reason.Pointing) {w : Bytes}
    (hw : Blank w) : ∃ k m key, w ++ s = k ++ e.found ∧ Label (k ++ m) key := by
  unfold scanKey at h
  split at h
  next e' hs =>
    cases h
    have hkey : Label (w ++ [0x22, 0x22, 0x3A]) [] := by
      simpa using Label.mk hw (.mk .nil) .nil
    unfold scanString at hs
    split at hs
    · cases hs; exact ⟨w, _, [], rfl, hkey⟩
    split at hs
    · exact absurd hp (inString_of_scanBody hs).not_pointing
    · cases hs; exact ⟨w, _, [], rfl, hkey⟩
  next key r hs =>
  split at h
  · cases h
  · cases h
    obtain ⟨x, rfl, hx⟩ := exists_of_scanString hs
    obtain ⟨w', hw', hr⟩ := exists_blank r
    refine ⟨w ++ x ++ w', [0x3A], key, ?_, .mk hw hx hw'⟩
    conv => lhs; rw [hr]
    simp [Stop.at]

/-! ### Steps that stop -/

/-- The text `q` has been read in a state with this room, stack and focus, and ends halfway to the
next state: at the place of a value, in a number, in a label or after a value. -/
inductive Halfway : Int → List Frame → Focus → Bytes → Prop where
  | value {room : Int} {stack : List Frame} {w : Bytes} (hw : Blank w) :
      Halfway room stack .wanted w
  | number {room : Int} {stack : List Frame} {w n m : Bytes} (hw : Blank w)
      (hn : IsNumber (n ++ m)) : Halfway room stack .wanted (w ++ n)
  | firstKey {room : Int} {stack : List Frame} {w k m : Bytes} {key : Text} (hroom : 0 < room)
      (hw : Blank w) (hk : Label (k ++ m) key) : Halfway room stack .wanted (w ++ 0x7B :: k)
  | item {room : Int} {stack : List Frame} {v : Json} {w : Bytes} (hw : Blank w) :
      Halfway room stack (.held v) w
  | nextKey {room : Int} {stack : List Frame} {read : List (Text × Json)} {key key' : Text}
      {v : Json} {w k m : Bytes} (hw : Blank w) (hk : Label (k ++ m) key') :
      Halfway room (.members read key :: stack) (.held v) (w ++ 0x2C :: k)

/-- The input in front of a failure has been read halfway. -/
def StopsHalfway (room : Int) (stack : List Frame) (focus : Focus) (s : Bytes) (e : Stop) : Prop :=
  ∃ q, s = q ++ e.found ∧ Halfway room stack focus q

variable {w : Bytes} {room' : Int}

theorem exists_of_nextMember_error {read : List (Text × Json)}
    (h : nextMember room stack read s = .halt (.error e) room') (hp : e.reason.Pointing)
    (hw : Blank w) : ∃ k m key, w ++ s = k ++ e.found ∧ Label (k ++ m) key := by
  unfold nextMember at h
  split at h
  · cases h
  next hk => cases h; exact exists_of_scanKey_error hk hp hw

theorem leaf_eq_error {α : Type} {wrap : α → Json} {scan : Scan α}
    (h : leaf room stack wrap scan = .halt (.error e) room') : scan = .error e := by
  rcases scan with e' | ⟨a, r⟩
  · cases h; rfl
  · cases h

theorem halfway_of_openArray (hw : Blank w)
    (h : openArray room stack 0x5B s = .halt (.error e) room') :
    StopsHalfway room stack .wanted (w ++ 0x5B :: s) e := by
  unfold openArray at h
  split at h
  · cases h; exact ⟨w, rfl, .value hw⟩
  split at h
  · cases h
  · cases h

theorem halfway_of_openObject (hw : Blank w)
    (h : openObject room stack 0x7B s = .halt (.error e) room') (hp : e.reason.Pointing) :
    StopsHalfway room stack .wanted (w ++ 0x7B :: s) e := by
  obtain ⟨w', hw', hs⟩ := exists_blank s
  unfold openObject at h
  split at h
  · cases h; exact ⟨w, rfl, .value hw⟩
  next hroom =>
  split at h
  · cases h
  · obtain ⟨k, m, key, hk, hl⟩ := exists_of_nextMember_error h hp hw'
    refine ⟨w ++ 0x7B :: k, ?_, .firstKey (by simpa using hroom) hw hl⟩
    rw [hs, hk]
    simp

theorem halfway_of_start (hw : Blank w) (h : start room stack s = .halt (.error e) room')
    (hp : e.reason.Pointing) : StopsHalfway room stack .wanted (w ++ s) e := by
  cases s with
  | nil => cases h; exact ⟨w, rfl, .value hw⟩
  | cons b s =>
      simp only [start] at h
      split at h
      · exact absurd hp (not_pointing_of_scanWord (leaf_eq_error h))
      split at h
      · exact absurd hp (not_pointing_of_scanWord (leaf_eq_error h))
      split at h
      · exact absurd hp (not_pointing_of_scanWord (leaf_eq_error h))
      split at h
      · exact absurd hp (inString_of_scanBody (leaf_eq_error h)).not_pointing
      split at h
      next hb => exact hb ▸ halfway_of_openObject hw (hb ▸ h) hp
      split at h
      next hb => exact hb ▸ halfway_of_openArray hw (hb ▸ h)
      split at h
      · obtain ⟨n, m, hs, hn⟩ := exists_of_scanNumber_error (leaf_eq_error h)
        exact ⟨w ++ n, by rw [hs, List.append_assoc], .number hw hn⟩
      · cases h; exact ⟨w, rfl, .value hw⟩

theorem halfway_of_resume {v : Json} (hw : Blank w)
    (h : resume room v stack s = .halt (.error e) room') (hp : e.reason.Pointing) :
    StopsHalfway room stack (.held v) (w ++ s) e := by
  unfold resume at h
  split at h
  · cases h
  · cases h; exact ⟨w, rfl, .item hw⟩
  · cases h; exact ⟨w, rfl, .item hw⟩
  · split at h
    · cases h
    split at h
    · cases h
    · cases h; exact ⟨w, rfl, .item hw⟩
  · cases h; exact ⟨w, rfl, .item hw⟩
  next read key stack b s =>
    split at h
    · cases h
    split at h
    next hb =>
      obtain ⟨w', hw', hs⟩ := exists_blank s
      obtain ⟨k, m, key', hk, hl⟩ := exists_of_nextMember_error h hp hw'
      refine ⟨w ++ 0x2C :: k, ?_, .nextKey hw hl⟩
      rw [hs, hk, hb]
      simp
    · cases h; exact ⟨w, rfl, .item hw⟩

/-- A step that stops at a bracket, a separator or a number has read its input halfway. -/
theorem halfway_of_step {st : State} (h : step st = .halt (.error e) room')
    (hp : e.reason.Pointing) : StopsHalfway st.room st.stack st.focus st.unread e := by
  obtain ⟨room, stack, focus, s⟩ := st
  obtain ⟨w, hw, hs⟩ := exists_blank s
  cases focus with
  | wanted =>
      have := halfway_of_start hw h hp
      rwa [← hs] at this
  | held v =>
      have := halfway_of_resume hw h hp
      rwa [← hs] at this

/-! ### Fronts of documents -/

variable {d : Nat} {p q : Bytes} {focus : Focus}

/-- What is open around a value that is held can be closed. -/
theorem Consumed.complete_held {v : Json} (h : Consumed d p room stack (.held v)) :
    ∃ s x, Document (p ++ s) x ∧ x.nesting ≤ d := by
  obtain ⟨⟨q, e, rfl, ho, he⟩, hn, hf, hv⟩ := h
  obtain ⟨s, x, hx, hd⟩ := ho.close hf hn he hv
  exact ⟨s, x, by rwa [List.append_assoc], hd⟩

/-- A value that is wanted can be a number. -/
theorem Consumed.complete_number {w n : Bytes} (h : Consumed d p room stack .wanted) (hw : Blank w)
    (hn : IsNumber n) : ∃ s x, Document (p ++ (w ++ n) ++ s) x ∧ x.nesting ≤ d :=
  (h.move (.value hw (.number hn) (.inl rfl))).complete_held

theorem Consumed.complete_wanted (h : Consumed d p room stack .wanted) :
    ∃ s x, Document (p ++ s) x ∧ x.nesting ≤ d := by
  obtain ⟨s, x, hx, hd⟩ := h.complete_number .nil isNumber_zero
  exact ⟨_, x, by rwa [List.append_assoc] at hx, hd⟩

/-- What has been read, half-read text included, is the front of a document. -/
theorem Consumed.viable (h : Consumed d p room stack focus) (hq : Halfway room stack focus q) :
    ∃ s x, Document (p ++ q ++ s) x ∧ x.nesting ≤ d := by
  cases hq with
  | value hw =>
      obtain ⟨s, x, hx, hd⟩ := h.complete_number hw isNumber_zero
      exact ⟨_, x, by simpa using hx, hd⟩
  | number hw hn =>
      obtain ⟨s, x, hx, hd⟩ := h.complete_number hw hn
      exact ⟨_, x, by simpa using hx, hd⟩
  | firstKey hroom hw hk =>
      obtain ⟨s, x, hx, hd⟩ := (h.move (.openObject hroom hw hk)).complete_wanted
      exact ⟨_, x, by simpa using hx, hd⟩
  | item hw =>
      obtain ⟨⟨q, e, rfl, ho, he⟩, hn, hf, hv⟩ := h
      obtain ⟨s, x, hx, hd⟩ := ho.close hf hn (he.append_blank hw) hv
      exact ⟨s, x, by simpa using hx, hd⟩
  | nextKey hw hk =>
      obtain ⟨s, x, hx, hd⟩ := (h.move (.nextMember hw hk)).complete_wanted
      exact ⟨_, x, by simpa using hx, hd⟩

/-- The input of a run, up to the place of its failure, is the front of a document. -/
theorem viable_of_run {st : State} (hp : Consumed d p st.room st.stack st.focus)
    (h : (run st).1 = .error e) (hr : e.reason.Pointing) :
    ∃ q s x, st.unread = q ++ e.found ∧ Document (p ++ q ++ s) x ∧ x.nesting ≤ d := by
  fun_induction run st generalizing p with
  | case1 st st' hs ih =>
      obtain ⟨q, hq, hm⟩ := move_of_step hs
      obtain ⟨q', s, x, hq', hx, hd⟩ := ih (hp.move hm) h
      refine ⟨q ++ q', s, x, ?_, by simpa using hx, hd⟩
      rw [hq, hq', List.append_assoc]
  | case2 st result room hs =>
      cases h
      obtain ⟨q, hq, hh⟩ := halfway_of_step hs hr
      obtain ⟨s, x, hx, hd⟩ := hp.viable hh
      exact ⟨q, s, x, hq, hx, hd⟩

end JsonDocument.Reader

namespace JsonDocument
open JsonDocument.Reader JsonDocument.Grammar

/-- The run behind a failure of a new reader. -/
theorem exists_run_of_readDocument {d : Int} {b : Bytes} {e : Failure}
    (h : readDocument d b = .error e) :
    ∃ stop, (run ⟨d, [], .wanted, b⟩).1 = .error stop ∧ e.reason = stop.reason ∧
      e.position = b.length - stop.found.length := by
  rw [readDocument_eq] at h
  cases hr : (run ⟨d, [], .wanted, b⟩).1 with
  | ok v => rw [hr] at h; cases h
  | error stop => rw [hr] at h; cases h; exact ⟨stop, rfl, rfl, rfl⟩

/-- **Viability.**  A failure at a bracket, a separator or a number points at the first byte that
cannot be gone on with: the input in front of it is the front of a document that the same reader
accepts, and with that byte it is not. -/
theorem readDocument_points (d : Nat) (b : Bytes) (e : Failure) (h : readDocument d b = .error e)
    (hr : e.reason.Pointing) :
    e.position ≤ b.length ∧
      (∃ s v, readDocument d (b.take e.position ++ s) = .ok v) ∧
      (e.position < b.length → ∀ s v, readDocument d (b.take (e.position + 1) ++ s) ≠ .ok v) := by
  obtain ⟨⟨reason, found, unread⟩, hrun, hreason, hpos⟩ := exists_run_of_readDocument h
  simp only at hreason hpos
  subst hreason
  obtain ⟨q, s, v, hq, hv, hd⟩ := viable_of_run (.start d) hrun hr
  obtain ⟨-, -, hu⟩ := found_of_run hrun
  -- such a failure is found where the reader has come to
  have hu : unread = found := hu.resolve_right fun hu => by
    rw [show e.reason = .utf8 from hu] at hr
    exact absurd hr (by decide)
  subst hu
  have hq : b = q ++ unread := hq
  subst hq
  have hlen : e.position = q.length := by
    rw [hpos, List.length_append, Nat.add_sub_cancel]
  rw [hlen]
  refine ⟨by simp, ⟨s, v, ?_⟩, fun hlt s v hok => ?_⟩
  · rw [List.take_left]
    exact readDocument_of_document hv hd
  · cases unread with
    | nil => simp at hlt
    | cons c y =>
        have hl := run_local (x := q ++ [c]) (f := [c]) (u := [c]) (y := y) hr.lookahead_le
          (by simpa using hrun) s
        rw [List.take_length_add_append, List.take_succ_cons, List.take_zero,
          readDocument_eq_ok, hl] at hok
        cases hok

/-- After the comma in `[1,x` no element is found: `[1,` can be gone on with, `[1,x` cannot. -/
theorem missing_element_points :
    readDocument 2 [0x5B, 0x31, 0x2C, 0x78] = .error ⟨.notAValue, 3⟩ ∧
      (∃ s v, readDocument 2 ([0x5B, 0x31, 0x2C] ++ s) = .ok v) ∧
      ∀ s v, readDocument 2 ([0x5B, 0x31, 0x2C, 0x78] ++ s) ≠ .ok v := by
  have h : readDocument 2 [0x5B, 0x31, 0x2C, 0x78] = .error ⟨.notAValue, 3⟩ := by cbv
  obtain ⟨-, hfront, hnone⟩ := readDocument_points 2 _ _ h (by decide)
  exact ⟨h, hfront, hnone (by decide)⟩

end JsonDocument
