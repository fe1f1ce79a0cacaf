import JsonDocument.Proofs.Reader.Quoted
import JsonDocument.Reader.Step

/-!
# Proofs — Reader — runs

What a run does with the text at the front of its input, as equations between runs: a value goes
from the input to the focus, whatever is open around it and whatever follows it.

* `run_blank`: blanks are passed over.
* `run_value`, `run_element`: a value that is not nested too deeply is read.
-/

namespace JsonDocument.Reader
open JsonDocument.Grammar

/-! ### Steps and runs -/

/-- What a run comes to that has made a step. -/
def Progress.finish : Progress → Except Stop Json × Int
  | .next st => run st
  | .halt result room => (result, room)

theorem run_eq_finish (st : State) : run st = (step st).finish := by
  rw [run_eq]
  cases step st <;> rfl

variable {room : Int} {stack : List Frame} {s r w : Bytes}

theorem run_wanted (room : Int) (stack : List Frame) (s : Bytes) :
    run ⟨room, stack, .wanted, s⟩ = (start room stack (skipBlanks s)).finish :=
  run_eq_finish _

theorem run_held (room : Int) (stack : List Frame) (v : Json) (s : Bytes) :
    run ⟨room, stack, .held v, s⟩ = (resume room v stack (skipBlanks s)).finish :=
  run_eq_finish _

/-- Blanks are passed over. -/
theorem run_blank (focus : Focus) (hw : Blank w) :
    run ⟨room, stack, focus, w ++ s⟩ = run ⟨room, stack, focus, s⟩ := by
  rw [run_eq_finish, run_eq_finish]
  cases focus <;> simp only [step, skipBlanks_append hw]

/-- A byte that is not blank is what the run comes to first. -/
theorem run_wanted_cons {b : UInt8} (hb : isBlank b = false) :
    run ⟨room, stack, .wanted, b :: s⟩ = (start room stack (b :: s)).finish := by
  rw [run_wanted, skipBlanks_cons hb]

theorem run_held_cons {b : UInt8} {v : Json} (hb : isBlank b = false) :
    run ⟨room, stack, .held v, b :: s⟩ = (resume room v stack (b :: s)).finish := by
  rw [run_held, skipBlanks_cons hb]

/-! ### Scalars -/

theorem start_number {b : UInt8} (hb : b = 0x2D ∨ IsDigit b) :
    start room stack (b :: s) = leaf room stack .number (scanNumber (b :: s)) := by
  have hd : (b = 0x2D || isDigit b) = true := by simpa [isDigit_iff] using hb
  have hne : b ≠ 0x6E ∧ b ≠ 0x74 ∧ b ≠ 0x66 ∧ b ≠ 0x22 ∧ b ≠ 0x7B ∧ b ≠ 0x5B := by
    refine ⟨?_, ?_, ?_, ?_, ?_, ?_⟩ <;> (rintro rfl; revert hb; decide)
  obtain ⟨h₁, h₂, h₃, h₄, h₅, h₆⟩ := hne
  simp only [start, if_neg h₁, if_neg h₂, if_neg h₃, if_neg h₄, if_neg h₅, if_neg h₆, if_pos hd]

/-- A number starts with a minus or a digit. -/
theorem exists_head_of_isNumber {n : Bytes} (h : IsNumber n) :
    ∃ b n', n = b :: n' ∧ (b = 0x2D ∨ IsDigit b) := by
  cases h with
  | @mk m i f e hm hi _ _ =>
      rcases hm with rfl | rfl
      · cases hi with
        | zero => exact ⟨_, _, rfl, .inr (by decide)⟩
        | digits h _ =>
            obtain ⟨b, ds, rfl, hb⟩ := exists_head_of_digits h
            exact ⟨_, _, rfl, .inr hb⟩
      · exact ⟨_, _, rfl, .inl rfl⟩

theorem isBlank_eq_false {b : UInt8} (hb : b = 0x2D ∨ IsDigit b) : isBlank b = false := by
  rcases hb with rfl | hb
  · rfl
  · refine Bool.eq_false_iff.mpr fun h => ?_
    rcases isBlank_iff.mp h with rfl | rfl | rfl | rfl <;> revert hb <;> decide

theorem run_number {n : Bytes} (h : IsNumber n) (hr : EndsNumber r) :
    run ⟨room, stack, .wanted, n ++ r⟩ = run ⟨room, stack, .held (.number (asciiText n)), r⟩ := by
  obtain ⟨b, n', rfl, hb⟩ := exists_head_of_isNumber h
  rw [List.cons_append, run_wanted_cons (isBlank_eq_false hb), start_number hb, ← List.cons_append,
    scanNumber_append h hr]
  rfl

theorem run_quoted {q : Bytes} {t : Text} (h : Quoted q t) :
    run ⟨room, stack, .wanted, q ++ r⟩ = run ⟨room, stack, .held (.string t), r⟩ := by
  cases h with
  | @mk s _ h =>
      have hs : start room stack (0x22 :: (s ++ 0x22 :: r)) =
          leaf room stack .string (scanBody (s ++ 0x22 :: r)) := rfl
      rw [List.append_assoc, List.cons_append, run_wanted_cons rfl, List.singleton_append, hs,
        scanBody_append h]
      rfl

theorem run_null : run ⟨room, stack, .wanted, nullWord ++ r⟩ = run ⟨room, stack, .held .null, r⟩ :=
  run_wanted_cons rfl

theorem run_true :
    run ⟨room, stack, .wanted, trueWord ++ r⟩ = run ⟨room, stack, .held (.bool true), r⟩ :=
  run_wanted_cons rfl

theorem run_false :
    run ⟨room, stack, .wanted, falseWord ++ r⟩ = run ⟨room, stack, .held (.bool false), r⟩ :=
  run_wanted_cons rfl

/-! ### Containers -/

theorem run_openArray (hroom : 0 < room) (hs : after? [0x5D] (skipBlanks s) = none) :
    run ⟨room, stack, .wanted, 0x5B :: s⟩ = run ⟨room - 1, .elements [] :: stack, .wanted, s⟩ := by
  have h : start room stack (0x5B :: s) = openArray room stack 0x5B s := rfl
  obtain ⟨w, hw, hs'⟩ := exists_blank s
  rw [run_wanted_cons rfl, h, openArray, if_neg (by omega), hs]
  conv => rhs; rw [hs', run_blank _ hw]
  rfl

theorem run_emptyArray (hroom : 0 < room) (hw : Blank w) :
    run ⟨room, stack, .wanted, 0x5B :: w ++ 0x5D :: r⟩ =
      run ⟨room, stack, .held (.array []), r⟩ := by
  have h : start room stack (0x5B :: (w ++ 0x5D :: r)) =
    openArray room stack 0x5B (w ++ 0x5D :: r) := rfl
  rw [List.cons_append, run_wanted_cons rfl, h, openArray, if_neg (by omega), skipBlanks_append hw,
    skipBlanks_cons rfl]
  rfl

theorem run_openObject (hroom : 0 < room) (hs : after? [0x7D] (skipBlanks s) = none) :
    run ⟨room, stack, .wanted, 0x7B :: s⟩ =
      (nextMember (room - 1) stack [] (skipBlanks s)).finish := by
  have h : start room stack (0x7B :: s) = openObject room stack 0x7B s := rfl
  rw [run_wanted_cons rfl, h, openObject, if_neg (by omega), hs]

theorem run_emptyObject (hroom : 0 < room) (hw : Blank w) :
    run ⟨room, stack, .wanted, 0x7B :: w ++ 0x7D :: r⟩ =
      run ⟨room, stack, .held (.object []), r⟩ := by
  have h : start room stack (0x7B :: (w ++ 0x7D :: r)) =
    openObject room stack 0x7B (w ++ 0x7D :: r) := rfl
  rw [List.cons_append, run_wanted_cons rfl, h, openObject, if_neg (by omega), skipBlanks_append hw,
    skipBlanks_cons rfl]
  rfl

theorem run_closeArray {read : List Json} {v : Json} :
    run ⟨room, .elements read :: stack, .held v, 0x5D :: r⟩ =
      run ⟨room + 1, stack, .held (.array (v :: read).reverse), r⟩ :=
  run_held_cons rfl

theorem run_nextElement {read : List Json} {v : Json} :
    run ⟨room, .elements read :: stack, .held v, 0x2C :: r⟩ =
      run ⟨room, .elements (v :: read) :: stack, .wanted, r⟩ :=
  run_held_cons rfl

theorem run_closeObject {read : List (Text × Json)} {key : Text} {v : Json} :
    run ⟨room, .members read key :: stack, .held v, 0x7D :: r⟩ =
      run ⟨room + 1, stack, .held (.object ((key, v) :: read).reverse), r⟩ :=
  run_held_cons rfl

theorem run_nextMember {read : List (Text × Json)} {key : Text} {v : Json} :
    run ⟨room, .members read key :: stack, .held v, 0x2C :: r⟩ =
      (nextMember room stack ((key, v) :: read) (skipBlanks r)).finish :=
  run_held_cons rfl

/-- A key with its colon is read into the frame. -/
theorem nextMember_label {k : Bytes} {key : Text} (read : List (Text × Json)) (hk : Label k key) :
    nextMember room stack read (skipBlanks (k ++ s)) =
      .next ⟨room, .members read key :: stack, .wanted, s⟩ := by
  cases hk with
  | @mk w q w' _ hw hq hw' =>
      cases hq with
      | @mk x _ hx =>
          have hc : after? [0x3A] (0x3A :: s) = some s := rfl
          have hs : scanString (0x22 :: (x ++ 0x22 :: (w' ++ 0x3A :: s))) =
            .ok (key, w' ++ 0x3A :: s) := scanBody_append hx _
          simp only [List.append_assoc, List.cons_append, List.nil_append]
          rw [skipBlanks_append hw, skipBlanks_cons rfl, nextMember, scanKey, hs]
          have hcolon : isBlank 0x3A = false := rfl
          simp only [skipBlanks_append hw', skipBlanks_cons hcolon, hc]

/-- A key does not start like a closing brace. -/
theorem after?_label {k : Bytes} {key : Text} (hk : Label k key) :
    after? [0x7D] (skipBlanks (k ++ s)) = none := by
  cases hk with
  | mk hw hq hw' =>
      cases hq with
      | mk hx =>
          simp only [List.append_assoc, List.cons_append]
          rw [skipBlanks_append hw, skipBlanks_cons rfl]
          rfl

/-- A value does not start like a closing bracket, and not with a blank. -/
theorem exists_head_of_value {v : Json} (h : Value s v) :
    ∃ b s', s = b :: s' ∧ b ≠ 0x5D ∧ isBlank b = false := by
  cases h with
  | null => exact ⟨_, _, rfl, by decide, rfl⟩
  | true => exact ⟨_, _, rfl, by decide, rfl⟩
  | false => exact ⟨_, _, rfl, by decide, rfl⟩
  | number h =>
      obtain ⟨b, n, rfl, hb⟩ := exists_head_of_isNumber h
      refine ⟨b, n, rfl, ?_, isBlank_eq_false hb⟩
      rintro rfl
      revert hb
      decide
  | string h => cases h; exact ⟨_, _, rfl, by decide, rfl⟩
  | emptyArray _ => exact ⟨_, _, rfl, by decide, rfl⟩
  | array _ => exact ⟨_, _, rfl, by decide, rfl⟩
  | emptyObject _ => exact ⟨_, _, rfl, by decide, rfl⟩
  | object _ => exact ⟨_, _, rfl, by decide, rfl⟩

theorem after?_element {v : Json} (h : Element s v) :
    after? [0x5D] (skipBlanks (s ++ r)) = none := by
  cases h with
  | mk hw h _ =>
      obtain ⟨b, s', rfl, hb, hb'⟩ := exists_head_of_value h
      simp only [List.append_assoc, List.cons_append]
      rw [skipBlanks_append hw, skipBlanks_cons hb', after?, if_neg (Ne.symm hb)]

theorem after?_elements {xs : List Json} (h : Elements s xs) :
    after? [0x5D] (skipBlanks (s ++ r)) = none := by
  cases h with
  | one h => exact after?_element h
  | cons h _ => rw [List.append_assoc]; exact after?_element h

theorem after?_members {ms : List (Text × Json)} (h : Members s ms) :
    after? [0x7D] (skipBlanks (s ++ r)) = none := by
  cases h with
  | one hk _ => rw [List.append_assoc]; exact after?_label hk
  | cons hk _ _ => rw [List.append_assoc, List.append_assoc]; exact after?_label hk

/-! ### Values -/

theorem endsNumber_blank_cons {b : UInt8} (hw : Blank (b :: w)) : EndsNumber (b :: w ++ r) := by
  refine avoids_cons.mpr ?_
  rcases hw b (List.mem_cons_self ..) with rfl | rfl | rfl | rfl <;> decide

theorem endsNumber_blank (hw : Blank w) (hr : EndsNumber r) : EndsNumber (w ++ r) := by
  cases w with
  | nil => exact hr
  | cons b w => exact endsNumber_blank_cons hw

theorem endsNumber_cons {b : UInt8} (hb : b = 0x2C ∨ b = 0x5D ∨ b = 0x7D) :
    EndsNumber (b :: r) := by
  refine avoids_cons.mpr ?_
  rcases hb with rfl | rfl | rfl <;> decide

mutual

/-- A value that is not nested too deeply is read; if it is a number, what follows must not continue
it. -/
theorem run_value {room : Int} {stack : List Frame} {r : Bytes} :
    ∀ {s : Bytes} {v : Json}, Value s v → v.nesting ≤ room → (v.kind = .number → EndsNumber r) →
      run ⟨room, stack, .wanted, s ++ r⟩ = run ⟨room, stack, .held v, r⟩
  | _, _, .null, _, _ => run_null
  | _, _, .true, _, _ => run_true
  | _, _, .false, _, _ => run_false
  | _, _, .number h, _, hr => run_number h (hr rfl)
  | _, _, .string h, _, _ => run_quoted h
  | _, _, .emptyArray hw, hn, _ => by
      simp only [Json.nesting] at hn
      rw [List.append_assoc]
      exact run_emptyArray (by omega) hw
  | _, _, .array h, hn, _ => by
      simp only [Json.nesting] at hn
      rw [List.append_assoc, List.cons_append, List.singleton_append,
        run_openArray (by omega) (after?_elements h), run_elements [] h (by omega)]
      simp
  | _, _, .emptyObject hw, hn, _ => by
      simp only [Json.nesting] at hn
      rw [List.append_assoc]
      exact run_emptyObject (by omega) hw
  | _, _, .object h, hn, _ => by
      simp only [Json.nesting] at hn
      rw [List.append_assoc, List.cons_append, List.singleton_append,
        run_openObject (by omega) (after?_members h), run_members [] h (by omega)]
      simp

/-- The same with blanks around the value. -/
theorem run_element {room : Int} {stack : List Frame} {r : Bytes} :
    ∀ {s : Bytes} {v : Json}, Element s v → v.nesting ≤ room → EndsNumber r →
      run ⟨room, stack, .wanted, s ++ r⟩ = run ⟨room, stack, .held v, r⟩
  | _, _, .mk hw h hw', hn, hr => by
      rw [List.append_assoc, List.append_assoc, run_blank _ hw,
        run_value h hn fun _ => endsNumber_blank hw' hr, run_blank _ hw']

/-- The elements that are left of an array, and its closing bracket. -/
theorem run_elements {room : Int} {stack : List Frame} {r : Bytes} (read : List Json) :
    ∀ {s : Bytes} {xs : List Json}, Elements s xs → Json.nestingElements xs ≤ room →
      run ⟨room, .elements read :: stack, .wanted, s ++ 0x5D :: r⟩ =
        run ⟨room + 1, stack, .held (.array (read.reverse ++ xs)), r⟩
  | _, _, .one h, hn => by
      simp only [Json.nestingElements] at hn
      rw [run_element h (by omega) (endsNumber_cons (.inr (.inl rfl))), run_closeArray,
        List.reverse_cons]
  | _, _, .cons (x := x) h h', hn => by
      simp only [Json.nestingElements] at hn
      rw [List.append_assoc, List.cons_append,
        run_element h (by omega) (endsNumber_cons (.inl rfl)), run_nextElement,
        run_elements (x :: read) h' (by omega), List.reverse_cons, List.append_assoc]
      rfl

/-- The members that are left of an object, and its closing brace. -/
theorem run_members {room : Int} {stack : List Frame} {r : Bytes} (read : List (Text × Json)) :
    ∀ {s : Bytes} {ms : List (Text × Json)}, Members s ms → Json.nestingMembers ms ≤ room →
      (nextMember room stack read (skipBlanks (s ++ 0x7D :: r))).finish =
        run ⟨room + 1, stack, .held (.object (read.reverse ++ ms)), r⟩
  | _, _, .one hk h, hn => by
      simp only [Json.nestingMembers] at hn
      rw [List.append_assoc, nextMember_label read hk, Progress.finish,
        run_element h (by omega) (endsNumber_cons (.inr (.inr rfl))), run_closeObject,
        List.reverse_cons]
  | _, _, @Members.cons _ _ _ key x _ hk h h', hn => by
      simp only [Json.nestingMembers] at hn
      rw [List.append_assoc, List.append_assoc, List.cons_append, nextMember_label read hk,
        Progress.finish, run_element h (by omega) (endsNumber_cons (.inl rfl)), run_nextMember,
        run_members ((key, x) :: read) h' (by omega), List.reverse_cons, List.append_assoc]
      rfl

end

end JsonDocument.Reader
