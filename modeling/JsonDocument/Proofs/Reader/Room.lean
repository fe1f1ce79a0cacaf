import JsonDocument.Proofs.Reader.Moves

/-!
# Proofs — Reader — room

How the limit enters a run.  Room is asked for at an opening bracket and nowhere else, so a run with
more room goes the same way up to the first bracket that is refused.  The containers that are open
and the room that is left make up the limit all along, and a container that is not closed keeps its
room when the reader stops.

* `Steps`: one state is reached from another.
* `room_of_run`: what a run leaves of the room.
* `run_widen`: the runs with less and with more room.
* `run_of_neg`: a room below zero is like no room.
-/

namespace JsonDocument.Reader

variable {st st₁ st₂ st' : State} {room δ : Int} {stack : List Frame} {s : Bytes}

/-! ### Reaching a state -/

/-- The state `st'` is reached from `st` by steps. -/
inductive Steps : State → State → Prop where
  | refl (st : State) : Steps st st
  | more {st st₁ st' : State} (h : step st = .next st₁) (t : Steps st₁ st') : Steps st st'

/-- A run ends in a step that halts. -/
theorem exists_halt (st : State) :
    ∃ st', Steps st st' ∧ step st' = .halt (run st).1 (run st).2 := by
  fun_induction run st with
  | case1 st st₁ h ih =>
      obtain ⟨st', hs, hh⟩ := ih
      exact ⟨st', .more h hs, hh⟩
  | case2 st result room h => exact ⟨st, .refl st, h⟩

/-- The limit: the room and the containers that are open. -/
def State.limit (st : State) : Int := st.room + st.stack.length

/-- A step that goes on keeps the limit, and takes only room that is there. -/
theorem limit_of_step (h : step st = .next st') :
    st'.limit = st.limit ∧ (st.room ≤ st'.room ∨ 0 ≤ st'.room) := by
  obtain ⟨q, -, hm⟩ := move_of_step h
  obtain ⟨room, stack, focus, s⟩ := st
  obtain ⟨room', stack', focus', s'⟩ := st'
  simp only [State.limit] at hm ⊢
  constructor
  · cases hm <;> simp only [List.length_cons] <;> omega
  · cases hm <;> omega

theorem Steps.limit (h : Steps st st') :
    st'.limit = st.limit ∧ (st.room ≤ st'.room ∨ 0 ≤ st'.room) := by
  induction h with
  | refl st => exact ⟨rfl, .inl (Int.le_refl _)⟩
  | more h _ ih =>
      have := limit_of_step h
      omega

/-! ### The end of a run -/

theorem room_of_leaf {α : Type} {wrap : α → Json} {scan : Scan α} {result : Except Stop Json}
    {room' : Int} (h : leaf room stack wrap scan = .halt result room') : room' = room := by
  rcases scan with e | ⟨a, r⟩
  · cases h; rfl
  · cases h

theorem room_of_nextMember {read : List (Text × Json)} {result : Except Stop Json} {room' : Int}
    (h : nextMember room stack read s = .halt result room') : room' = room := by
  unfold nextMember at h
  split at h
  · cases h
  · cases h; rfl

theorem room_of_openArray {b : UInt8} {result : Except Stop Json} {room' : Int}
    (h : openArray room stack b s = .halt result room') : room' = room := by
  unfold openArray at h
  split at h
  · cases h; rfl
  split at h
  · cases h
  · cases h

theorem room_of_openObject {b : UInt8} {result : Except Stop Json} {room' : Int}
    (h : openObject room stack b s = .halt result room') :
    room' = room ∨ 0 < room ∧ room' = room - 1 := by
  unfold openObject at h
  split at h
  · cases h; exact .inl rfl
  next hroom =>
  split at h
  · cases h
  · exact .inr ⟨by simpa using hroom, room_of_nextMember h⟩

theorem room_of_start {result : Except Stop Json} {room' : Int}
    (h : start room stack s = .halt result room') :
    room' = room ∨ 0 < room ∧ room' = room - 1 := by
  cases s with
  | nil => cases h; exact .inl rfl
  | cons b s =>
      simp only [start] at h
      split at h
      · exact .inl (room_of_leaf h)
      split at h
      · exact .inl (room_of_leaf h)
      split at h
      · exact .inl (room_of_leaf h)
      split at h
      · exact .inl (room_of_leaf h)
      split at h
      · exact room_of_openObject h
      split at h
      · exact .inl (room_of_openArray h)
      split at h
      · exact .inl (room_of_leaf h)
      · cases h; exact .inl rfl

theorem room_of_resume {v : Json} {result : Except Stop Json} {room' : Int}
    (h : resume room v stack s = .halt result room') : room' = room := by
  unfold resume at h
  split at h
  · cases h; rfl
  · cases h; rfl
  · cases h; rfl
  · split at h
    · cases h
    split at h
    · cases h
    · cases h; rfl
  · cases h; rfl
  · split at h
    · cases h
    split at h
    · exact room_of_nextMember h
    · cases h; rfl

/-- A step that halts leaves the room, but for that of a container whose first key is not there. -/
theorem room_of_halt {result : Except Stop Json} {room' : Int}
    (h : step st = .halt result room') :
    room' = st.room ∨ 0 < st.room ∧ room' = st.room - 1 := by
  unfold step at h
  split at h
  · exact room_of_start h
  · exact .inl (room_of_resume h)

/-- What a run leaves of the room is no more than the limit, and no less than there was unless it
is none. -/
theorem room_of_run (st : State) :
    (run st).2 ≤ st.limit ∧ (st.room ≤ (run st).2 ∨ 0 ≤ (run st).2) := by
  obtain ⟨st', hs, hh⟩ := exists_halt st
  have h₁ := hs.limit
  have h₂ := room_of_halt hh
  simp only [State.limit] at h₁ ⊢
  omega

/-! ### More room -/

/-- The state with `δ` more room. -/
def State.widen (δ : Int) (st : State) : State := { st with room := st.room + δ }

def Progress.widen (δ : Int) : Progress → Progress
  | .next st => .next (st.widen δ)
  | .halt result room => .halt result (room + δ)

/-- At an opening bracket in front of `s`. -/
def State.AtBracket (st : State) (b : UInt8) (s : Bytes) : Prop :=
  st.focus = .wanted ∧ skipBlanks st.unread = b :: s ∧ (b = 0x5B ∨ b = 0x7B)

theorem widen_leaf {α : Type} {wrap : α → Json} {scan : Scan α} :
    leaf (room + δ) stack wrap scan = (leaf room stack wrap scan).widen δ := by
  rcases scan with e | ⟨a, r⟩ <;> rfl

theorem widen_nextMember {read : List (Text × Json)} :
    nextMember (room + δ) stack read s = (nextMember room stack read s).widen δ := by
  unfold nextMember
  split <;> rfl

theorem widen_openArray {b : UInt8} (h : 0 < room) (hδ : 0 < room + δ) :
    openArray (room + δ) stack b s = (openArray room stack b s).widen δ := by
  unfold openArray
  rw [if_neg (by omega), if_neg (by omega)]
  split
  · rfl
  · rw [show room + δ - 1 = room - 1 + δ by omega]
    rfl

theorem widen_openObject {b : UInt8} (h : 0 < room) (hδ : 0 < room + δ) :
    openObject (room + δ) stack b s = (openObject room stack b s).widen δ := by
  unfold openObject
  rw [if_neg (by omega), if_neg (by omega)]
  split
  · rfl
  · rw [show room + δ - 1 = room - 1 + δ by omega, widen_nextMember]

theorem widen_start (h : ∀ b r, s = b :: r → b = 0x5B ∨ b = 0x7B → 0 < room ∧ 0 < room + δ) :
    start (room + δ) stack s = (start room stack s).widen δ := by
  cases s with
  | nil => rfl
  | cons b s =>
      simp only [start]
      split
      · exact widen_leaf
      split
      · exact widen_leaf
      split
      · exact widen_leaf
      split
      · exact widen_leaf
      split
      next hb =>
        obtain ⟨h₁, h₂⟩ := h b s rfl (.inr hb)
        exact widen_openObject h₁ h₂
      split
      next hb =>
        obtain ⟨h₁, h₂⟩ := h b s rfl (.inl hb)
        exact widen_openArray h₁ h₂
      split
      · exact widen_leaf
      · rfl

theorem widen_resume {v : Json} :
    resume (room + δ) v stack s = (resume room v stack s).widen δ := by
  unfold resume
  split
  · rfl
  · rfl
  · rfl
  · split
    · rw [show room + δ + 1 = room + 1 + δ by omega]
      rfl
    split <;> rfl
  · rfl
  · split
    · rw [show room + δ + 1 = room + 1 + δ by omega]
      rfl
    split
    · exact widen_nextMember
    · rfl

/-- A step does not depend on the room, unless it is made at a bracket. -/
theorem widen_step (h : ∀ b s, st.AtBracket b s → 0 < st.room ∧ 0 < st.room + δ) :
    step (st.widen δ) = (step st).widen δ := by
  obtain ⟨room, stack, focus, s⟩ := st
  cases focus with
  | wanted => exact widen_start fun b r hs hb => h b r ⟨rfl, hs, hb⟩
  | held v => exact widen_resume

/-- At a bracket without room the reader stops. -/
theorem step_atBracket {b : UInt8} (h : st.AtBracket b s) (hroom : st.room ≤ 0) :
    step st = .halt (.error (.at .tooDeep (b :: s))) st.room := by
  obtain ⟨room, stack, focus, t⟩ := st
  obtain ⟨rfl, hs, hb⟩ := h
  simp only at hs hroom
  simp only [step, hs]
  rcases hb with rfl | rfl
  · exact if_pos hroom
  · exact if_pos hroom

/-- **More room.**  A run with more room comes to the same, or it goes on from a bracket at which the
run with less is refused. -/
theorem run_widen (st : State) (hδ : 0 ≤ δ) :
    run (st.widen δ) = ((run st).1, (run st).2 + δ) ∨
      ∃ st' b s, Steps st st' ∧ st'.AtBracket b s ∧ st'.room ≤ 0 ∧
        run st = (.error (.at .tooDeep (b :: s)), st'.room) ∧
        run (st.widen δ) = run (st'.widen δ) := by
  fun_induction run st with
  | case1 st st₁ h ih =>
      have hb : ∀ b s, st.AtBracket b s → 0 < st.room ∧ 0 < st.room + δ := fun b s hb => by
        have : ¬ st.room ≤ 0 := fun hroom => by
          rw [step_atBracket hb hroom] at h
          cases h
        omega
      rw [run_eq, widen_step hb, h]
      rcases ih with ih | ⟨st', b, s, hs, ih⟩
      · exact .inl ih
      · exact .inr ⟨st', b, s, .more h hs, ih⟩
  | case2 st result room h =>
      by_cases hb : ∃ b s, st.AtBracket b s ∧ st.room ≤ 0
      · obtain ⟨b, s, hb, hroom⟩ := hb
        have hh := step_atBracket hb hroom
        rw [h] at hh
        cases hh
        exact .inr ⟨st, b, s, .refl st, hb, hroom, rfl, rfl⟩
      · have hb' : ∀ b s, st.AtBracket b s → 0 < st.room ∧ 0 < st.room + δ := fun b s hs => by
          have : ¬ st.room ≤ 0 := fun hroom => hb ⟨b, s, hs, hroom⟩
          omega
        rw [run_eq, widen_step hb', h]
        exact .inl rfl

/-- Where there is no room to start with, it does not matter how much is missing. -/
theorem run_of_neg {d : Int} (h : d < 0) (s : Bytes) :
    (run ⟨0, [], .wanted, s⟩).1 = (run ⟨d, [], .wanted, s⟩).1 := by
  have hwiden : (State.mk d [] .wanted s).widen (-d) = ⟨0, [], .wanted, s⟩ := by
    rw [State.widen, Int.add_right_neg]
  have hδ : 0 ≤ -d := by omega
  have hrun := run_widen ⟨d, [], .wanted, s⟩ hδ
  rw [hwiden] at hrun
  rcases hrun with hrun | ⟨st', b, r, hs, hb, hroom, hrun, hrun'⟩
  · rw [hrun]
  · -- nothing was opened on the way, so there is no room at this bracket with `-d` more either
    have hlimit := hs.limit
    simp only [State.limit, List.length_nil] at hlimit
    have hb' : (st'.widen (-d)).AtBracket b r := hb
    have hroom' : (st'.widen (-d)).room ≤ 0 := show st'.room + -d ≤ 0 by omega
    rw [hrun', hrun, run_eq, step_atBracket hb' hroom']

end JsonDocument.Reader
