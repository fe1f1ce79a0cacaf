import JsonDocument.Proofs.Reader.Moves
import JsonDocument.Proofs.Reader.Runs

/-!
# Proofs — Reader — what has been read

The invariant of a run.  What has been read so far opens the containers on the stack (`Opened`), and
after that come blanks where a value is wanted, or the value that is held.  What the frames and the
focus hold fits into the room (`Fits`): closing everything that is open stays within the limit.

* `Consumed.move`: a move keeps the invariant.
* `document_of_run`: a run that ends in a tree has read a document of it, within the limit.
* `Opened.close`: what is open can be closed again, so what has been read is the front of a
  document.
-/

namespace JsonDocument.Json

theorem nestingElements_le_iff {xs : List Json} {n : Int} (hn : 0 ≤ n) :
    nestingElements xs ≤ n ↔ ∀ x ∈ xs, (x.nesting : Int) ≤ n := by
  induction xs with
  | nil => simp [nestingElements, hn]
  | cons x xs ih =>
      simp only [nestingElements, List.forall_mem_cons, ← ih]
      omega

theorem nestingMembers_le_iff {ms : List (Text × Json)} {n : Int} (hn : 0 ≤ n) :
    nestingMembers ms ≤ n ↔ ∀ m ∈ ms, (m.2.nesting : Int) ≤ n := by
  induction ms with
  | nil => simp [nestingMembers, hn]
  | cons m ms ih =>
      obtain ⟨k, x⟩ := m
      simp only [nestingMembers, List.forall_mem_cons, ← ih]
      omega

end JsonDocument.Json

namespace JsonDocument.Reader
open JsonDocument.Grammar

/-! ### The text of open containers -/

/-- Elements with a comma after each: an array between its opening bracket and the element to
come. -/
inductive ElementsBefore : Bytes → List Json → Prop where
  | nil : ElementsBefore [] []
  | snoc {s e : Bytes} {xs : List Json} {x : Json} (h : ElementsBefore s xs) (hx : Element e x) :
      ElementsBefore (s ++ (e ++ [0x2C])) (xs ++ [x])

/-- Members with a comma after each. -/
inductive MembersBefore : Bytes → List (Text × Json) → Prop where
  | nil : MembersBefore [] []
  | snoc {s k e : Bytes} {ms : List (Text × Json)} {key : Text} {x : Json}
      (h : MembersBefore s ms) (hk : Label k key) (hx : Element e x) :
      MembersBefore (s ++ (k ++ e ++ [0x2C])) (ms ++ [(key, x)])

/-- The text that opens the containers of a stack, up to the place of the value that comes next. -/
inductive Opened : List Frame → Bytes → Prop where
  | nil : Opened [] []
  | elements {stack : List Frame} {read : List Json} {p w s : Bytes} (h : Opened stack p)
      (hw : Blank w) (hs : ElementsBefore s read.reverse) :
      Opened (.elements read :: stack) (p ++ (w ++ 0x5B :: s))
  | members {stack : List Frame} {read : List (Text × Json)} {key : Text} {p w s k : Bytes}
      (h : Opened stack p) (hw : Blank w) (hs : MembersBefore s read.reverse) (hk : Label k key) :
      Opened (.members read key :: stack) (p ++ (w ++ 0x7B :: (s ++ k)))

theorem ElementsBefore.append {s e : Bytes} {xs ys : List Json} (h : ElementsBefore s xs)
    (he : Elements e ys) : Elements (s ++ e) (xs ++ ys) := by
  induction h generalizing e ys with
  | nil => exact he
  | snoc _ hx ih =>
      simp only [List.append_assoc, List.singleton_append]
      exact ih (.cons hx he)

theorem MembersBefore.append {s e : Bytes} {ms ns : List (Text × Json)} (h : MembersBefore s ms)
    (he : Members e ns) : Members (s ++ e) (ms ++ ns) := by
  induction h generalizing e ns with
  | nil => exact he
  | @snoc s k e' ms key x _ hk hx ih =>
      have := ih (.cons hk hx he)
      simp only [List.append_assoc, List.singleton_append] at this ⊢
      exact this

/-- The elements before, one more element and the bracket make an array. -/
theorem ElementsBefore.value {s e : Bytes} {read : List Json} {x : Json}
    (h : ElementsBefore s read.reverse) (hx : Element e x) :
    Value (0x5B :: (s ++ (e ++ [0x5D]))) (.array (x :: read).reverse) := by
  have := Value.array (h.append (.one hx))
  rwa [← List.reverse_cons, List.cons_append, List.append_assoc] at this

/-- The members before, one more member and the brace make an object. -/
theorem MembersBefore.value {s k e : Bytes} {read : List (Text × Json)} {key : Text} {x : Json}
    (h : MembersBefore s read.reverse) (hk : Label k key) (hx : Element e x) :
    Value (0x7B :: (s ++ (k ++ (e ++ [0x7D])))) (.object ((key, x) :: read).reverse) := by
  have := Value.object (h.append (.one hk hx))
  rwa [← List.reverse_cons, List.cons_append, List.append_assoc, List.append_assoc] at this

/-! ### What fits into the room -/

/-- The frames of a stack, with `room` left inside the innermost, stay within the limit `d`. -/
def Fits (d : Int) : Int → List Frame → Prop
  | room, [] => room = d
  | room, .elements read :: stack =>
      (∀ x ∈ read, (x.nesting : Int) ≤ room) ∧ Fits d (room + 1) stack
  | room, .members read _ :: stack =>
      (∀ m ∈ read, (m.2.nesting : Int) ≤ room) ∧ Fits d (room + 1) stack

theorem nesting_array_le {read : List Json} {v : Json} {room : Int} (hroom : 0 ≤ room)
    (hr : ∀ x ∈ read, (x.nesting : Int) ≤ room) (hv : v.nesting ≤ room) :
    ((Json.array (v :: read).reverse).nesting : Int) ≤ room + 1 := by
  have : Json.nestingElements (v :: read).reverse ≤ room := by
    rw [Json.nestingElements_le_iff hroom]
    intro x hx
    rcases List.mem_cons.mp (List.mem_reverse.mp hx) with rfl | hx
    · exact hv
    · exact hr x hx
  simp only [Json.nesting]
  omega

theorem nesting_object_le {read : List (Text × Json)} {key : Text} {v : Json} {room : Int}
    (hroom : 0 ≤ room) (hr : ∀ m ∈ read, (m.2.nesting : Int) ≤ room) (hv : v.nesting ≤ room) :
    ((Json.object ((key, v) :: read).reverse).nesting : Int) ≤ room + 1 := by
  have : Json.nestingMembers ((key, v) :: read).reverse ≤ room := by
    rw [Json.nestingMembers_le_iff hroom]
    intro m hm
    rcases List.mem_cons.mp (List.mem_reverse.mp hm) with rfl | hm
    · exact hv
    · exact hr m hm
  simp only [Json.nesting]
  omega

/-! ### The invariant -/

/-- What the text `p` that has been read says of the focus. -/
def Reads (stack : List Frame) (p : Bytes) : Focus → Prop
  | .wanted => ∃ q w, p = q ++ w ∧ Opened stack q ∧ Blank w
  | .held v => ∃ q e, p = q ++ e ∧ Opened stack q ∧ Element e v

/-- What the focus holds fits into the room. -/
def Focus.fits (room : Int) : Focus → Prop
  | .wanted => True
  | .held v => (v.nesting : Int) ≤ room

/-- The text `p` has been read, with the limit `d`, when the reader has come to a state with this
room, stack and focus. -/
structure Consumed (d : Nat) (p : Bytes) (room : Int) (stack : List Frame) (focus : Focus) :
    Prop where
  reads : Reads stack p focus
  nonneg : 0 ≤ room
  fits : Fits d room stack
  held : focus.fits room

theorem Consumed.start (d : Nat) : Consumed d [] d [] .wanted :=
  ⟨⟨[], [], rfl, .nil, .nil⟩, Int.natCast_nonneg d, rfl, trivial⟩

/-- A move keeps the invariant. -/
theorem Consumed.move {d : Nat} {p q : Bytes} {room room' : Int} {stack stack' : List Frame}
    {focus focus' : Focus} (h : Consumed d p room stack focus)
    (hm : Move room stack focus q room' stack' focus') :
    Consumed d (p ++ q) room' stack' focus' := by
  obtain ⟨hr, hn, hf, hh⟩ := h
  cases hm with
  | @value _ w s v hw hs hv =>
      obtain ⟨q, w', rfl, ho, hw'⟩ := hr
      refine ⟨⟨q, w' ++ (w ++ s), List.append_assoc .., ho, ?_⟩, hn, hf, ?_⟩
      · exact Element.blank_append hw' (Element.blank_append hw (.of_value hs))
      · show (v.nesting : Int) ≤ room
        omega
  | @openArray _ w w' hroom hw hw' =>
      obtain ⟨q, w₀, rfl, ho, hw₀⟩ := hr
      refine ⟨⟨_, w', ?_, .elements ho (hw₀.append hw) .nil, hw'⟩, by omega,
        ⟨by simp, by rwa [Int.sub_add_cancel]⟩, trivial⟩
      simp
  | @openObject _ w k key hroom hw hk =>
      obtain ⟨q, w₀, rfl, ho, hw₀⟩ := hr
      refine ⟨⟨_, [], ?_, .members ho (hw₀.append hw) .nil hk, .nil⟩, by omega,
        ⟨by simp, by rwa [Int.sub_add_cancel]⟩, trivial⟩
      simp
  | @nextElement stack read v w hw =>
      obtain ⟨q, e, rfl, ho, he⟩ := hr
      cases ho with
      | @elements _ _ p w₀ s ho hw₀ hs =>
          have hs' : ElementsBefore (s ++ (e ++ w ++ [0x2C])) (v :: read).reverse := by
            rw [List.reverse_cons]
            exact .snoc hs (he.append_blank hw)
          refine ⟨⟨_, [], ?_, .elements ho hw₀ hs', .nil⟩, hn, ?_, trivial⟩
          · simp
          · exact ⟨List.forall_mem_cons.mpr ⟨hh, hf.1⟩, hf.2⟩
  | @closeArray _ read v w hw =>
      obtain ⟨q, e, rfl, ho, he⟩ := hr
      cases ho with
      | @elements _ _ p w₀ s ho hw₀ hs =>
          have hv := Element.blank_append hw₀ (.of_value (hs.value (he.append_blank hw)))
          refine ⟨⟨p, _, ?_, ho, hv⟩, by omega, hf.2, nesting_array_le hn hf.1 hh⟩
          simp
  | @nextMember stack read key key' v w k hw hk =>
      obtain ⟨q, e, rfl, ho, he⟩ := hr
      cases ho with
      | @members _ _ _ p w₀ s k₀ ho hw₀ hs hk₀ =>
          have hs' : MembersBefore (s ++ (k₀ ++ (e ++ w) ++ [0x2C]))
              ((key, v) :: read).reverse := by
            rw [List.reverse_cons]
            exact .snoc hs hk₀ (he.append_blank hw)
          refine ⟨⟨_, [], ?_, .members ho hw₀ hs' hk, .nil⟩, hn, ?_, trivial⟩
          · simp
          · exact ⟨List.forall_mem_cons.mpr ⟨hh, hf.1⟩, hf.2⟩
  | @closeObject _ read key v w hw =>
      obtain ⟨q, e, rfl, ho, he⟩ := hr
      cases ho with
      | @members _ _ _ p w₀ s k₀ ho hw₀ hs hk₀ =>
          have hv := Element.blank_append hw₀ (.of_value (hs.value hk₀ (he.append_blank hw)))
          refine ⟨⟨p, _, ?_, ho, hv⟩, by omega, hf.2, nesting_object_le hn hf.1 hh⟩
          simp

/-! ### Runs that end in a tree -/

/-- A run that ends in a tree has read a document of it, within the limit. -/
theorem document_of_run {d : Nat} {st : State} {p : Bytes} {v : Json} {room' : Int}
    (hp : Consumed d p st.room st.stack st.focus) (h : run st = (.ok v, room')) :
    Document (p ++ st.unread) v ∧ v.nesting ≤ d := by
  fun_induction run st generalizing p with
  | case1 st st' hs ih =>
      obtain ⟨q, hq, hm⟩ := move_of_step hs
      have := ih (hp.move hm) h
      rwa [List.append_assoc, ← hq] at this
  | case2 st result room hs =>
      cases h
      obtain ⟨hstack, hfocus, hb⟩ := step_eq_ok hs
      obtain ⟨hr, -, hf, hh⟩ := hp
      rw [hstack, hfocus] at hr
      rw [hstack] at hf
      rw [hfocus] at hh
      obtain ⟨q, e, rfl, ho, he⟩ := hr
      -- nothing is open, so the room is the whole limit
      cases ho
      refine ⟨he.append_blank hb, ?_⟩
      have : (v.nesting : Int) ≤ st.room := hh
      have : st.room = d := hf
      omega

/-! ### Completing what is open -/

/-- A value in the place that is wanted can be followed up to a document. -/
theorem Opened.close {d : Nat} {stack : List Frame} {p e : Bytes} {v : Json} {room : Int}
    (h : Opened stack p) (hf : Fits d room stack) (hn : 0 ≤ room) (he : Element e v)
    (hv : v.nesting ≤ room) :
    ∃ s x, Document (p ++ (e ++ s)) x ∧ x.nesting ≤ d := by
  induction h generalizing e v room with
  | nil =>
      refine ⟨[], v, ?_, ?_⟩
      · rwa [List.append_nil]
      · have : room = d := hf
        omega
  | @elements stack read p w s _ hw hs ih =>
      have hv' := nesting_array_le hn hf.1 hv
      obtain ⟨s', x, hx, hd⟩ := ih hf.2 (by omega)
        (.blank_append hw (.of_value (hs.value he))) hv'
      exact ⟨0x5D :: s', x, by simpa using hx, hd⟩
  | @members stack read key p w s k _ hw hs hk ih =>
      have hv' : ((Json.object ((key, v) :: read).reverse).nesting : Int) ≤ room + 1 :=
        nesting_object_le hn hf.1 hv
      obtain ⟨s', x, hx, hd⟩ := ih hf.2 (by omega)
        (.blank_append hw (.of_value (hs.value hk he))) hv'
      exact ⟨0x7D :: s', x, by simpa using hx, hd⟩

end JsonDocument.Reader
