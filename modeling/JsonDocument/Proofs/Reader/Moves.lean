import JsonDocument.Proofs.Reader.Quoted
import JsonDocument.Reader.Step

/-!
# Proofs — Reader — moves

What one step of the reader can do, in the terms of the grammar.  A step that goes on takes some
text off the front of the input, and `Move` says what that text is and what becomes of the room, of
the open containers and of the focus.  Whatever is said about runs is proved from the moves.

* `move_of_step`: a step that goes on is a move.
* `step_eq_ok`: a step that ends in a tree is made with nothing open and nothing but blanks left.
-/

namespace JsonDocument.Reader
open JsonDocument.Grammar

/-- What a step that goes on does: the room, the open containers and the focus before it, the text
that it takes off the input, and the three after it. -/
inductive Move : Int → List Frame → Focus → Bytes → Int → List Frame → Focus → Prop where
  /-- A value is read at once: a scalar, or a container without items. -/
  | value {room : Int} {stack : List Frame} {w s : Bytes} {v : Json} (hw : Blank w)
      (hs : Value s v) (hv : v.nesting = 0 ∨ v.nesting = 1 ∧ 0 < room) :
      Move room stack .wanted (w ++ s) room stack (.held v)
  | openArray {room : Int} {stack : List Frame} {w w' : Bytes} (hroom : 0 < room) (hw : Blank w)
      (hw' : Blank w') :
      Move room stack .wanted (w ++ 0x5B :: w') (room - 1) (.elements [] :: stack) .wanted
  | openObject {room : Int} {stack : List Frame} {w k : Bytes} {key : Text} (hroom : 0 < room)
      (hw : Blank w) (hk : Label k key) :
      Move room stack .wanted (w ++ 0x7B :: k) (room - 1) (.members [] key :: stack) .wanted
  | nextElement {room : Int} {stack : List Frame} {read : List Json} {v : Json} {w : Bytes}
      (hw : Blank w) :
      Move room (.elements read :: stack) (.held v) (w ++ [0x2C]) room
        (.elements (v :: read) :: stack) .wanted
  | closeArray {room : Int} {stack : List Frame} {read : List Json} {v : Json} {w : Bytes}
      (hw : Blank w) :
      Move room (.elements read :: stack) (.held v) (w ++ [0x5D]) (room + 1) stack
        (.held (.array (v :: read).reverse))
  | nextMember {room : Int} {stack : List Frame} {read : List (Text × Json)} {key key' : Text}
      {v : Json} {w k : Bytes} (hw : Blank w) (hk : Label k key') :
      Move room (.members read key :: stack) (.held v) (w ++ 0x2C :: k) room
        (.members ((key, v) :: read) key' :: stack) .wanted
  | closeObject {room : Int} {stack : List Frame} {read : List (Text × Json)} {key : Text}
      {v : Json} {w : Bytes} (hw : Blank w) :
      Move room (.members read key :: stack) (.held v) (w ++ [0x7D]) (room + 1) stack
        (.held (.object ((key, v) :: read).reverse))

/-- The state `st'` is reached from `st` by a move that takes `q` off the input. -/
def MovesTo (st : State) (q : Bytes) (st' : State) : Prop :=
  st.unread = q ++ st'.unread ∧ Move st.room st.stack st.focus q st'.room st'.stack st'.focus

variable {room : Int} {stack : List Frame} {w s : Bytes} {st' : State}

/-! ### Steps that want a value -/

/-- A scanner that takes values off the input makes a move. -/
theorem move_of_leaf {α : Type} {wrap : α → Json} {scan : Scan α} (hw : Blank w)
    (hscan : ∀ a r, scan = .ok (a, r) → ∃ x, s = x ++ r ∧ Value x (wrap a) ∧ (wrap a).nesting = 0)
    (h : leaf room stack wrap scan = .next st') :
    ∃ q, MovesTo ⟨room, stack, .wanted, w ++ s⟩ q st' := by
  rcases scan with e | ⟨a, r⟩
  · cases h
  · cases h
    obtain ⟨x, rfl, hx, hn⟩ := hscan a r rfl
    exact ⟨w ++ x, by simp, .value hw hx (.inl hn)⟩

theorem exists_of_scanWord {α : Type} {word r : Bytes} {value a : α}
    (h : scanWord word value s = .ok (a, r)) : s = word ++ r ∧ a = value := by
  unfold scanWord at h
  split at h
  · next ha => cases h; exact ⟨eq_append_of_after? ha, rfl⟩
  · cases h

theorem exists_of_scanString {r : Bytes} {t : Text} (h : scanString s = .ok (t, r)) :
    ∃ x, s = x ++ r ∧ Quoted x t := by
  unfold scanString at h
  split at h
  · cases h
  split at h
  · next hb =>
      obtain ⟨x, rfl, hx⟩ := exists_of_scanBody h
      exact ⟨0x22 :: x ++ [0x22], by simp [hb], .mk hx⟩
  · cases h

theorem exists_of_scanKey {r : Bytes} {key : Text} (h : scanKey s = .ok (key, r)) :
    ∃ x, s = x ++ r ∧ Label x key := by
  unfold scanKey at h
  split at h
  · cases h
  next q r₁ hs =>
  split at h
  · next r₂ ha =>
      cases h
      obtain ⟨x, rfl, hx⟩ := exists_of_scanString hs
      obtain ⟨w, hw, hr⟩ := exists_blank r₁
      refine ⟨[] ++ x ++ w ++ [0x3A], ?_, .mk .nil hx hw⟩
      rw [hr, eq_append_of_after? ha]
      simp
  · cases h

theorem exists_of_nextMember {read : List (Text × Json)}
    (h : nextMember room stack read s = .next st') :
    ∃ k key, s = k ++ st'.unread ∧ Label k key ∧ st'.room = room ∧
      st'.stack = .members read key :: stack ∧ st'.focus = .wanted := by
  unfold nextMember at h
  split at h
  · next key r hs =>
      cases h
      obtain ⟨k, hk, hl⟩ := exists_of_scanKey hs
      exact ⟨k, key, hk, hl, rfl, rfl, rfl⟩
  · cases h

theorem move_of_openArray (hw : Blank w) (h : openArray room stack 0x5B s = .next st') :
    ∃ q, MovesTo ⟨room, stack, .wanted, w ++ 0x5B :: s⟩ q st' := by
  obtain ⟨w', hw', hs⟩ := exists_blank s
  unfold openArray at h
  split at h
  · cases h
  next hroom =>
  split at h
  · next r ha =>
      cases h
      refine ⟨w ++ (0x5B :: w' ++ [0x5D]), ?_,
        .value hw (.emptyArray hw') (.inr ⟨rfl, by simpa using hroom⟩)⟩
      rw [hs, eq_append_of_after? ha]
      simp
  · cases h
    refine ⟨w ++ 0x5B :: w', ?_, .openArray (by simpa using hroom) hw hw'⟩
    conv => lhs; rw [hs]
    simp

theorem move_of_openObject (hw : Blank w) (h : openObject room stack 0x7B s = .next st') :
    ∃ q, MovesTo ⟨room, stack, .wanted, w ++ 0x7B :: s⟩ q st' := by
  obtain ⟨w', hw', hs⟩ := exists_blank s
  unfold openObject at h
  split at h
  · cases h
  next hroom =>
  split at h
  · next r ha =>
      cases h
      refine ⟨w ++ (0x7B :: w' ++ [0x7D]), ?_,
        .value hw (.emptyObject hw') (.inr ⟨rfl, by simpa using hroom⟩)⟩
      rw [hs, eq_append_of_after? ha]
      simp
  · obtain ⟨k, key, hk, hl, h₁, h₂, h₃⟩ := exists_of_nextMember h
    refine ⟨w ++ 0x7B :: (w' ++ k), ?_, ?_⟩
    · conv => lhs; rw [hs, hk]
      simp
    · rw [h₁, h₂, h₃]
      exact .openObject (by simpa using hroom) hw (.blank_append hw' hl)

theorem move_of_start (hw : Blank w) (h : start room stack s = .next st') :
    ∃ q, MovesTo ⟨room, stack, .wanted, w ++ s⟩ q st' := by
  cases s with
  | nil => cases h
  | cons b s =>
      simp only [start] at h
      split at h
      · refine move_of_leaf hw (fun a r ha => ?_) h
        obtain ⟨hs, rfl⟩ := exists_of_scanWord ha
        exact ⟨_, hs, .null, rfl⟩
      split at h
      · refine move_of_leaf hw (fun a r ha => ?_) h
        obtain ⟨hs, rfl⟩ := exists_of_scanWord ha
        exact ⟨_, hs, .true, rfl⟩
      split at h
      · refine move_of_leaf hw (fun a r ha => ?_) h
        obtain ⟨hs, rfl⟩ := exists_of_scanWord ha
        exact ⟨_, hs, .false, rfl⟩
      split at h
      · next hb =>
          refine move_of_leaf hw (fun t r ht => ?_) h
          obtain ⟨x, rfl, hx⟩ := exists_of_scanBody ht
          exact ⟨0x22 :: x ++ [0x22], by simp [hb], .string (.mk hx), rfl⟩
      split at h
      · next hb => exact hb ▸ move_of_openObject hw (hb ▸ h)
      split at h
      · next hb => exact hb ▸ move_of_openArray hw (hb ▸ h)
      split at h
      · refine move_of_leaf hw (fun t r ht => ?_) h
        obtain ⟨n, hs, hn, rfl⟩ := exists_of_scanNumber ht
        exact ⟨n, hs, .number hn, rfl⟩
      · cases h

/-! ### Steps that hold a value -/

theorem move_of_resume {v : Json} (hw : Blank w) (h : resume room v stack s = .next st') :
    ∃ q, MovesTo ⟨room, stack, .held v, w ++ s⟩ q st' := by
  unfold resume at h
  split at h
  · cases h
  · cases h
  · cases h
  · split at h
    · next hb => cases h; exact ⟨w ++ [0x5D], by simp [hb], .closeArray hw⟩
    split at h
    · next hb => cases h; exact ⟨w ++ [0x2C], by simp [hb], .nextElement hw⟩
    · cases h
  · cases h
  · next read key stack b s =>
      split at h
      · next hb => cases h; exact ⟨w ++ [0x7D], by simp [hb], .closeObject hw⟩
      split at h
      · next hb =>
          obtain ⟨w', hw', hs⟩ := exists_blank s
          obtain ⟨k, key', hk, hl, h₁, h₂, h₃⟩ := exists_of_nextMember h
          refine ⟨w ++ 0x2C :: (w' ++ k), ?_, ?_⟩
          · conv => lhs; rw [hs, hk]
            simp [hb]
          · rw [h₁, h₂, h₃]
            exact .nextMember hw (.blank_append hw' hl)
      · cases h

/-- A step that goes on is a move. -/
theorem move_of_step {st : State} (h : step st = .next st') : ∃ q, MovesTo st q st' := by
  obtain ⟨room, stack, focus, s⟩ := st
  obtain ⟨w, hw, hs⟩ := exists_blank s
  cases focus with
  | wanted =>
      have := move_of_start hw h
      rwa [← hs] at this
  | held v =>
      have := move_of_resume hw h
      rwa [← hs] at this

/-! ### The end of a run -/

theorem leaf_ne_ok {α : Type} {wrap : α → Json} {scan : Scan α} {v : Json} {room' : Int} :
    leaf room stack wrap scan ≠ .halt (.ok v) room' := by
  rcases scan with e | ⟨a, r⟩ <;> exact fun h => nomatch h

theorem nextMember_ne_ok {read : List (Text × Json)} {v : Json} {room' : Int} :
    nextMember room stack read s ≠ .halt (.ok v) room' := by
  unfold nextMember
  split <;> exact fun h => nomatch h

theorem openArray_ne_ok {b : UInt8} {v : Json} {room' : Int} :
    openArray room stack b s ≠ .halt (.ok v) room' := by
  unfold openArray
  split
  · exact fun h => nomatch h
  · split <;> exact fun h => nomatch h

theorem openObject_ne_ok {b : UInt8} {v : Json} {room' : Int} :
    openObject room stack b s ≠ .halt (.ok v) room' := by
  unfold openObject
  split
  · exact fun h => nomatch h
  split
  · exact fun h => nomatch h
  · exact nextMember_ne_ok

theorem start_ne_ok {v : Json} {room' : Int} : start room stack s ≠ .halt (.ok v) room' := by
  cases s with
  | nil => rintro ⟨⟩
  | cons b s =>
      simp only [start]
      split
      · exact leaf_ne_ok
      split
      · exact leaf_ne_ok
      split
      · exact leaf_ne_ok
      split
      · exact leaf_ne_ok
      split
      · exact openObject_ne_ok
      split
      · exact openArray_ne_ok
      split
      · exact leaf_ne_ok
      · rintro ⟨⟩

/-- A step that ends in a tree is made with nothing open and nothing but blanks left. -/
theorem step_eq_ok {st : State} {v : Json} {room' : Int} (h : step st = .halt (.ok v) room') :
    st.stack = [] ∧ st.focus = .held v ∧ Blank st.unread := by
  obtain ⟨room, stack, focus, s⟩ := st
  obtain ⟨w, hw, hs⟩ := exists_blank s
  cases focus with
  | wanted => exact absurd h start_ne_ok
  | held x =>
      simp only [step] at h
      unfold resume at h
      split at h
      · next hnil =>
          cases h
          refine ⟨rfl, rfl, ?_⟩
          rw [hnil, List.append_nil] at hs
          exact hs ▸ hw
      · cases h
      · cases h
      · repeat' split at h
        all_goals cases h
      · cases h
      · split at h
        · cases h
        split at h
        · exact absurd h nextMember_ne_ok
        · cases h

end JsonDocument.Reader
