import JsonDocument.Proofs.Reader.Local
import JsonDocument.Proofs.Reader.Recognition
import JsonDocument.Proofs.Reader.Room

/-!
# Proofs — Reader — longer inputs

What becomes of an answer when the input goes on.  A failure with five bytes from its place on stays
what it is, for no failure is found by looking further ahead.  A document stays the same with blanks
behind it and with nothing else, but for one that ends in a digit: the number may go on.

* `Reason.lookahead_le`: no failure looks further ahead than five bytes.
* `IsNumber.endsInDigit`: the last byte of a number is a digit.
* `run_document_append`: a document is read whatever follows it.
* `readDocument_append`: the answer for a longer input.
-/

namespace JsonDocument

/-- No failure looks further ahead than five bytes. -/
theorem Reason.lookahead_le (reason : Reason) : reason.lookahead ≤ 5 := by
  cases reason <;> decide

/-! ### The last byte -/

namespace Grammar

/-- The last byte is a digit. -/
def EndsInDigit (s : Bytes) : Prop := ∃ c, s.getLast? = some c ∧ IsDigit c

theorem EndsInDigit.append {y : Bytes} (h : EndsInDigit y) (x : Bytes) : EndsInDigit (x ++ y) := by
  obtain ⟨c, hc, hd⟩ := h
  exact ⟨c, by rw [List.getLast?_append, hc]; rfl, hd⟩

theorem Digits.endsInDigit {ds : Bytes} (h : Digits ds) : EndsInDigit ds :=
  ⟨ds.getLast h.1, List.getLast?_eq_some_getLast h.1, h.2 _ (List.getLast_mem h.1)⟩

theorem Integer.endsInDigit {i : Bytes} (h : Integer i) : EndsInDigit i := by
  cases h with
  | zero => exact ⟨0x30, rfl, by decide⟩
  | digits h _ => exact h.endsInDigit

/-- The last byte of a number is a digit. -/
theorem IsNumber.endsInDigit {n : Bytes} (h : IsNumber n) : EndsInDigit n := by
  cases h with
  | mk hm hi hf he =>
      cases he with
      | some he hg h => exact (h.endsInDigit.append _).append _
      | none =>
          rw [List.append_nil]
          cases hf with
          | some h => exact (h.endsInDigit.append [0x2E]).append _
          | none =>
              rw [List.append_nil]
              exact hi.endsInDigit.append _

end Grammar

open Reader Grammar

variable {d : Int} {b s : Bytes} {v : Json} {e : Failure}

/-! ### Failures -/

theorem readDocument_append_error (h : readDocument d b = .error e)
    (hp : e.position + 5 ≤ b.length) (s : Bytes) : readDocument d (b ++ s) = .error e := by
  rw [readDocument_eq] at h
  cases hrun : (run ⟨d, [], .wanted, b⟩).1 with
  | ok v => rw [hrun] at h; cases h
  | error stop =>
      rw [hrun] at h
      cases h
      obtain ⟨reason, found, unread⟩ := stop
      have hlook : reason.lookahead ≤ found.length := by
        have := reason.lookahead_le
        have : b.length - found.length + 5 ≤ b.length := hp
        omega
      have hlocal := run_local (x := b) (y := []) hlook (by simpa using hrun) s
      rw [readDocument_eq, hlocal]
      simp only [Except.mapError, List.length_append, Nat.add_sub_add_right]

/-! ### Documents -/

/-- A limit below zero is as a limit of zero. -/
theorem readDocument_toNat (d : Int) (b : Bytes) : readDocument d b = readDocument d.toNat b := by
  rcases Int.lt_or_le d 0 with h | h
  · rw [readDocument_eq, readDocument_eq, Int.toNat_of_nonpos (Int.le_of_lt h),
      Int.natCast_zero, run_of_neg h]
  · rw [Int.toNat_of_nonneg h]

/-- A document that does not end in a digit is read, whatever follows it. -/
theorem run_document_append {room : Int} (h : Document b v) (hn : v.nesting ≤ room)
    (hb : ¬ EndsInDigit b) (s : Bytes) :
    run ⟨room, [], .wanted, b ++ s⟩ = run ⟨room, [], .held v, s⟩ := by
  cases h with
  | mk hw h hw' =>
      next w t w' =>
      rw [List.append_assoc, List.append_assoc, run_blank _ hw, run_value h hn, run_blank _ hw']
      intro hk
      -- a number ends in a digit, so blanks follow it
      cases w' with
      | nil =>
          refine absurd ?_ hb
          cases h with
          | number h =>
              rw [List.append_nil]
              exact h.endsInDigit.append w
          | _ => cases hk
      | cons c w' => exact endsNumber_blank_cons hw'

theorem skipBlanks_eq_nil_iff : skipBlanks s = [] ↔ Blank s := by
  rw [skipBlanks, List.dropWhile_eq_nil_iff]
  exact forall₂_congr fun b _ => isBlank_iff

/-- Behind a document there may be blanks and nothing else. -/
theorem readDocument_append_ok (h : readDocument d b = .ok v) (hb : ¬ EndsInDigit b) (s : Bytes) :
    (Blank s → readDocument d (b ++ s) = .ok v) ∧
      (¬ Blank s → readDocument d (b ++ s) =
        .error ⟨.trailing, b.length + (s.takeWhile isBlank).length⟩) := by
  rw [readDocument_toNat] at h ⊢
  obtain ⟨hdoc, hn⟩ := document_of_readDocument h
  have hroom : (v.nesting : Int) ≤ d.toNat := Int.ofNat_le.mpr hn
  have hrun := run_document_append hdoc hroom hb s
  rw [run_held] at hrun
  rw [readDocument_eq, hrun]
  constructor
  · intro hs
    rw [skipBlanks_eq_nil_iff.mpr hs]
    rfl
  · intro hs
    have hlen := congrArg List.length (List.takeWhile_append_dropWhile (p := isBlank) (l := s))
    cases hr : skipBlanks s with
    | nil => exact absurd (skipBlanks_eq_nil_iff.mp hr) hs
    | cons c r =>
        rw [show s.dropWhile isBlank = c :: r from hr, List.length_append] at hlen
        simp only [resume, Progress.finish, Except.mapError, Stop.at, List.length_append]
        congr 2
        omega

/-- **Longer inputs.**  A failure with five bytes from its place on is the same in every longer
input.  A document that does not end in a digit is the same with blanks behind it; with anything
else behind it, the first byte that is not blank is one too many. -/
theorem readDocument_append (d : Int) (b s : Bytes) :
    (∀ e, readDocument d b = .error e → e.position + 5 ≤ b.length →
        readDocument d (b ++ s) = .error e) ∧
      ∀ v, readDocument d b = .ok v → (∀ c, b.getLast? = some c → ¬ IsDigit c) →
        (Blank s → readDocument d (b ++ s) = .ok v) ∧
          (¬ Blank s → readDocument d (b ++ s) =
            .error ⟨.trailing, b.length + (s.takeWhile isBlank).length⟩) := by
  refine ⟨fun e h hp => readDocument_append_error h hp s, fun v h hb => ?_⟩
  exact readDocument_append_ok h (fun ⟨c, hc, hd⟩ => hb c hc hd) s

/-- `[x` and four blanks fail at the `x`, whatever follows; `[]` goes on with blanks but not with a
comma. -/
theorem readDocument_append_comma :
    readDocument 1 ([0x5B, 0x78, 0x20, 0x20, 0x20, 0x20] ++ [0x5D]) = .error ⟨.notAValue, 1⟩ ∧
      readDocument 1 ([0x5B, 0x5D] ++ [0x0A]) = .ok (.array []) ∧
      readDocument 1 ([0x5B, 0x5D] ++ [0x20, 0x2C]) = .error ⟨.trailing, 3⟩ := by
  have hfail : readDocument 1 [0x5B, 0x78, 0x20, 0x20, 0x20, 0x20] = .error ⟨.notAValue, 1⟩ := by
    cbv
  have hok : readDocument 1 [0x5B, 0x5D] = .ok (.array []) := by cbv
  have hlast : ∀ c, [0x5B, 0x5D].getLast? = some c → ¬ IsDigit c := fun _ hc =>
    Option.some.inj hc ▸ by decide
  obtain ⟨hstays, -⟩ := readDocument_append 1 [0x5B, 0x78, 0x20, 0x20, 0x20, 0x20] [0x5D]
  obtain ⟨-, hline⟩ := readDocument_append 1 [0x5B, 0x5D] [0x0A]
  obtain ⟨-, hcomma⟩ := readDocument_append 1 [0x5B, 0x5D] [0x20, 0x2C]
  exact ⟨hstays _ hfail (by decide), (hline _ hok hlast).1 (by simp [Blank]),
    (hcomma _ hok hlast).2 (by simp [Blank])⟩

end JsonDocument
