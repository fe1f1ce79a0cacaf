import JsonDocument.Proofs.Reader.Brackets
import JsonDocument.Proofs.Reader.Local
import JsonDocument.Proofs.Reader.Recognition
import JsonDocument.Proofs.Reader.Room

/-!
# Proofs — Reader — the limit

What the limit does to an input.  Two readers with different limits go the same way until the lower
limit is used up; then the one stops, at the bracket that opens a container too many, and the other
goes on from there.  A tree is within a limit if no way down it enters more containers than that,
however many there are side by side.

* `Json.Branch`: a way down a tree, and how many containers it enters.
* `steps_pass`: on its way the reader has as many containers open as the brackets say.
* `found_of_atBracket`: with room left, a failure lies behind the bracket.
* `limit_cuts`: readings with a lower and a higher limit.
-/

namespace JsonDocument

/-! ### Ways down a tree -/

/-- A way down a tree, from its root to where it stops, enters so many containers. -/
inductive Json.Branch : Json → Nat → Prop where
  | stop (v : Json) : Branch v 0
  | array (xs : List Json) : Branch (.array xs) 1
  | element {xs : List Json} {x : Json} {n : Nat} (hx : x ∈ xs) (h : Branch x n) :
      Branch (.array xs) (n + 1)
  | object (ms : List (Text × Json)) : Branch (.object ms) 1
  | member {ms : List (Text × Json)} {k : Text} {x : Json} {n : Nat} (hx : (k, x) ∈ ms)
      (h : Branch x n) : Branch (.object ms) (n + 1)

namespace Json

theorem Branch.le_nesting {v : Json} {n : Nat} (h : Branch v n) : n ≤ v.nesting := by
  induction h with
  | stop v => exact Nat.zero_le _
  | array xs => exact Nat.le_add_left _ _
  | element hx _ ih =>
      have := (nestingElements_le_iff (by omega)).mp (Int.le_refl _) _ hx
      simp only [nesting]
      omega
  | object ms => exact Nat.le_add_left _ _
  | member hx _ ih =>
      have := (nestingMembers_le_iff (by omega)).mp (Int.le_refl _) _ hx
      simp only [nesting] at this ⊢
      omega

mutual

/-- Some way down a tree enters as many containers as its nesting. -/
theorem branch_nesting : ∀ v : Json, Branch v v.nesting
  | .null | .bool _ | .number _ | .string _ => .stop _
  | .array xs =>
      match branch_elements xs with
      | .inl h => by rw [nesting, h]; exact .array xs
      | .inr ⟨_, hx, h⟩ => .element hx h
  | .object ms =>
      match branch_members ms with
      | .inl h => by rw [nesting, h]; exact .object ms
      | .inr ⟨_, _, hx, h⟩ => .member hx h

theorem branch_elements : ∀ xs : List Json,
    nestingElements xs = 0 ∨ ∃ x, x ∈ xs ∧ Branch x (nestingElements xs)
  | [] => .inl rfl
  | x :: xs => by
      rw [nestingElements]
      rcases Nat.le_total x.nesting (nestingElements xs) with h | h
      · rw [Nat.max_eq_right h]
        exact (branch_elements xs).imp id fun ⟨y, hy, hb⟩ => ⟨y, .tail x hy, hb⟩
      · rw [Nat.max_eq_left h]
        exact .inr ⟨x, .head xs, branch_nesting x⟩

theorem branch_members : ∀ ms : List (Text × Json),
    nestingMembers ms = 0 ∨ ∃ k x, (k, x) ∈ ms ∧ Branch x (nestingMembers ms)
  | [] => .inl rfl
  | (k, x) :: ms => by
      rw [nestingMembers]
      rcases Nat.le_total x.nesting (nestingMembers ms) with h | h
      · rw [Nat.max_eq_right h]
        exact (branch_members ms).imp id fun ⟨l, y, hy, hb⟩ => ⟨l, y, .tail (k, x) hy, hb⟩
      · rw [Nat.max_eq_left h]
        exact .inr ⟨k, x, .head ms, branch_nesting x⟩

end

/-- The nesting of a tree is that of its deepest branch. -/
theorem nesting_le_iff {v : Json} {d : Nat} : v.nesting ≤ d ↔ ∀ n, Branch v n → n ≤ d :=
  ⟨fun h _ hb => Nat.le_trans hb.le_nesting h, fun h => h _ (branch_nesting v)⟩

end Json

namespace Reader
open JsonDocument.Grammar

variable {st st' : State} {d : Nat}

/-! ### What is open along a run -/

/-- A move leads from the place with as many containers open as the stack before it has to that with
as many as the stack after it has. -/
theorem passes_of_move {room room' : Int} {stack stack' : List Frame} {focus focus' : Focus}
    {q : Bytes} (h : Move room stack focus q room' stack' focus') (hroom : 0 ≤ room)
    (hd : room + stack.length = d) :
    Passes d (.outside stack.length) q (.outside stack'.length) := by
  have hn : stack.length ≤ d := by omega
  cases h with
  | value hw hs hv => exact (passes_blank hn hw).append (passes_value hs (by omega))
  | openArray hroom hw hw' =>
      exact (passes_blank hn hw).append (.cons hn (passes_blank (by omega) hw'))
  | openObject hroom hw hk =>
      exact (passes_blank hn hw).append (.cons hn (passes_label (by omega) hk))
  | nextElement hw => exact (passes_blank hn hw).append (.cons hn (.nil hn))
  | closeArray hw =>
      exact (passes_blank hn hw).append (.cons hn (.nil (Nat.le_of_succ_le hn)))
  | nextMember hw hk => exact (passes_blank hn hw).append (.cons hn (passes_label hn hk))
  | closeObject hw =>
      exact (passes_blank hn hw).append (.cons hn (.nil (Nat.le_of_succ_le hn)))

/-- On its way the reader has as many containers open as the brackets say. -/
theorem steps_pass (h : Steps st st') (hroom : 0 ≤ st.room) (hd : st.limit = d) :
    ∃ p, st.unread = p ++ st'.unread ∧
      Passes d (.outside st.stack.length) p (.outside st'.stack.length) := by
  induction h with
  | refl st =>
      have : st.stack.length ≤ d := by unfold State.limit at hd; omega
      exact ⟨[], rfl, .nil this⟩
  | more h _ ih =>
      have hlimit := limit_of_step h
      obtain ⟨q, hq, hm⟩ := move_of_step h
      obtain ⟨p, hp, ht⟩ := ih (by omega) (by omega)
      exact ⟨q ++ p, by rw [hq, hp, List.append_assoc], (passes_of_move hm hroom hd).append ht⟩

/-! ### Behind the bracket -/

theorem found_of_nextMember {room room' : Int} {stack : List Frame} {read : List (Text × Json)}
    {s : Bytes} {e : Stop} (h : nextMember room stack read s = .halt (.error e) room') :
    e.found <:+ s := by
  have hw := (local_nextMember room stack read).within s
  rw [h] at hw
  exact hw.stop.1

/-- A container that is opened is not refused at its bracket. -/
theorem found_of_start {room room' : Int} {stack : List Frame} {b : UInt8} {s : Bytes} {e : Stop}
    (hb : b = 0x5B ∨ b = 0x7B) (hroom : 0 < room)
    (h : start room stack (b :: s) = .halt (.error e) room') : e.found.length ≤ s.length := by
  rcases hb with rfl | rfl
  · change openArray room stack 0x5B s = _ at h
    unfold openArray at h
    rw [if_neg (by omega)] at h
    split at h <;> cases h
  · change openObject room stack 0x7B s = _ at h
    unfold openObject at h
    rw [if_neg (by omega)] at h
    split at h
    · cases h
    · exact (found_of_nextMember h).length_le.trans (length_skipBlanks_le s)

/-- With room left at a bracket, a failure lies behind it. -/
theorem found_of_atBracket {b : UInt8} {s : Bytes} {e : Stop} (hb : st.AtBracket b s)
    (hroom : 0 < st.room) (h : (run st).1 = .error e) : e.found.length ≤ s.length := by
  obtain ⟨room, stack, focus, t⟩ := st
  obtain ⟨rfl, hs, hb⟩ := hb
  simp only at hs hroom
  rw [run_wanted, hs] at h
  cases hstep : start room stack (b :: s) with
  | next st₁ =>
      rw [hstep] at h
      have := start_shorter hstep
      have := (found_of_run h).1.length_le
      simp only [List.length_cons] at *
      omega
  | halt result room' =>
      rw [hstep] at h
      cases h
      exact found_of_start hb hroom hstep

/-! ### Two limits -/

/-- The runs with a lower and a higher limit come to the same, or the one stops at the bracket `c`
that opens a container too many and the other comes past it. -/
theorem run_limit {d' : Nat} (h : d < d') (b : Bytes) :
    (run ⟨d, [], .wanted, b⟩).1 = (run ⟨d', [], .wanted, b⟩).1 ∨
      ∃ x c s, b = x ++ c :: s ∧ (c = 0x5B ∨ c = 0x7B) ∧ Passes d (.outside 0) x (.outside d) ∧
        (run ⟨d, [], .wanted, b⟩).1 = .error (.at .tooDeep (c :: s)) ∧
        ∀ e, (run ⟨d', [], .wanted, b⟩).1 = .error e → e.found.length ≤ s.length := by
  have hwiden : (State.mk d [] .wanted b).widen (d' - d : Int) = ⟨d', [], .wanted, b⟩ := by
    rw [State.widen, show (d : Int) + (d' - d) = d' by omega]
  have hδ : 0 ≤ (d' - d : Int) := by omega
  have hrun := run_widen ⟨d, [], .wanted, b⟩ hδ
  rw [hwiden] at hrun
  rcases hrun with hrun | ⟨st', c, s, hs, hb, hroom, hrun, hrun'⟩
  · exact .inl (by rw [hrun])
  -- the lower limit is used up: as many containers are open as it allows
  have hlimit := hs.limit
  simp only [State.limit, List.length_nil] at hlimit
  obtain ⟨p, hp, hpass⟩ := steps_pass hs (d := d) (Int.natCast_nonneg d) (Int.add_zero _)
  rw [show st'.stack.length = d by omega] at hpass
  obtain ⟨w, hw, hunread⟩ := exists_blank st'.unread
  refine .inr ⟨p ++ w, c, s, ?_, hb.2.2, hpass.append (passes_blank (Nat.le_refl d) hw),
    by rw [hrun], fun e he => ?_⟩
  · rw [List.append_assoc, ← hb.2.1, ← hunread]
    exact hp
  · rw [hrun'] at he
    have hwide : (st'.widen (d' - d)).AtBracket c s := hb
    exact found_of_atBracket hwide (show 0 < st'.room + (d' - d) by omega) he

end Reader

open Reader Grammar

/-- **The limit cuts.**  With a lower limit an input is read as with a higher one, or the reading
stops at the first bracket outside string literals that opens a container beyond the lower limit;
the higher one then leads to a tree of more nesting or to a failure further on.  The lower limit
accepts what the higher one accepts, of trees no branch of which exceeds it. -/
theorem limit_cuts {d d' : Nat} (h : d < d') (b : Bytes) :
    (readDocument d b = readDocument d' b ∨
      ∃ p, readDocument d b = .error ⟨.tooDeep, p⟩ ∧ FirstOpensAt d b p ∧
        ((∃ v, readDocument d' b = .ok v ∧ d < v.nesting) ∨
          ∃ e, readDocument d' b = .error e ∧ p < e.position)) ∧
      ∀ v, readDocument d b = .ok v ↔ readDocument d' b = .ok v ∧ ∀ n, v.Branch n → n ≤ d := by
  constructor
  · rcases run_limit h b with hrun | ⟨x, c, s, rfl, hc, hx, hrun, hbehind⟩
    · exact .inl (by rw [readDocument_eq, readDocument_eq, hrun])
    have hlow : readDocument d (x ++ c :: s) = .error ⟨.tooDeep, x.length⟩ := by
      rw [readDocument_eq, hrun]
      simp [Stop.at, Except.mapError]
    refine .inr ⟨x.length, hlow, hx.firstOpensAt hc, ?_⟩
    cases hhigh : readDocument d' (x ++ c :: s) with
    | ok v =>
        refine .inl ⟨v, rfl, Nat.lt_of_not_le fun hn => ?_⟩
        rw [readDocument_of_document (document_of_readDocument hhigh).1 hn] at hlow
        cases hlow
    | error e =>
        refine .inr ⟨e, rfl, ?_⟩
        rw [readDocument_eq] at hhigh
        cases he : (run ⟨d', [], .wanted, x ++ c :: s⟩).1 with
        | ok v => rw [he] at hhigh; cases hhigh
        | error e' =>
            rw [he] at hhigh
            cases hhigh
            have := hbehind e' he
            simp only [List.length_append, List.length_cons]
            omega
  · intro v
    rw [← Json.nesting_le_iff]
    constructor
    · intro hv
      obtain ⟨hdoc, hn⟩ := document_of_readDocument hv
      exact ⟨readDocument_of_document hdoc (by omega), hn⟩
    · rintro ⟨hv, hn⟩
      exact readDocument_of_document (document_of_readDocument hv).1 hn

/-- In `["[",[]]` the bracket within the string opens nothing.  With one container allowed, reading
stops at the next bracket; with two it does not. -/
theorem limit_cuts_behind_string :
    readDocument 1 [0x5B, 0x22, 0x5B, 0x22, 0x2C, 0x5B, 0x5D, 0x5D] = .error ⟨.tooDeep, 5⟩ ∧
      FirstOpensAt 1 [0x5B, 0x22, 0x5B, 0x22, 0x2C, 0x5B, 0x5D, 0x5D] 5 ∧
      readDocument 2 [0x5B, 0x22, 0x5B, 0x22, 0x2C, 0x5B, 0x5D, 0x5D] =
        .ok (.array [.string [0x5B], .array []]) := by
  have hbody : Body [0x5B] [0x5B] := .raw (c := 0x5B) (by unfold Raw IsScalarValue; decide) .nil
  have hdoc : Document [0x5B, 0x22, 0x5B, 0x22, 0x2C, 0x5B, 0x5D, 0x5D]
      (.array [.string [0x5B], .array []]) :=
    .of_value (.array (.cons (.of_value (.string (.mk hbody))) (.one (.of_value (.emptyArray .nil)))))
  have hhigh := readDocument_of_document (d := 2) hdoc (by decide)
  have hfive : FirstOpensAt 1 [0x5B, 0x22, 0x5B, 0x22, 0x2C, 0x5B, 0x5D, 0x5D] 5 := by decide
  obtain ⟨hcut, -⟩ := @limit_cuts 1 2 (by decide)
    [0x5B, 0x22, 0x5B, 0x22, 0x2C, 0x5B, 0x5D, 0x5D]
  rcases hcut with h | ⟨p, hp, hfirst, -⟩
  · exact absurd (document_of_readDocument (h.trans hhigh)).2 (by decide)
  · exact ⟨hfirst.unique hfive ▸ hp, hfive, hhigh⟩

end JsonDocument
