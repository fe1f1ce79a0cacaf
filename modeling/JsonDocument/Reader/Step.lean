import JsonDocument.Json
import JsonDocument.Reader.Number
import JsonDocument.Reader.Quoted

/-!
# Reader — the machine

The reader keeps the containers that are open in a stack of frames and moves by steps.  Between two
steps it either wants a value or holds one that it has just read.  A step reads a scalar, opens a
container, or hands the value it holds to the innermost frame; each takes up input, so a run ends.

`room` says how many more containers may be opened.  It falls by one at an opening bracket and rises
by one at the closing one, and it stays where it is when the reader stops.

* `step_shorter`: a step leaves less input than it found.
* `run_eq`: a run is a step and the run from where it leads.
-/

namespace JsonDocument.Reader

/-- A container that is open: what has been read of it, last first, and for an object the key whose
value comes next. -/
inductive Frame where
  | elements (read : List Json)
  | members (read : List (Text × Json)) (key : Text)

/-- What the reader is about: it wants a value, or holds the one it has read. -/
inductive Focus where
  | wanted
  | held (value : Json)

structure State where
  room : Int
  stack : List Frame
  focus : Focus
  unread : Bytes

/-- What a step leads to: another state, or the end of the run with the room that is left. -/
inductive Progress where
  | next (state : State)
  | halt (result : Except Stop Json) (room : Int)

/-! ### Scalars -/

/-- Holds a scalar, or stops where its scanner stops. -/
def leaf {α : Type} (room : Int) (stack : List Frame) (wrap : α → Json) : Scan α → Progress
  | .ok (a, r) => .next ⟨room, stack, .held (wrap a), r⟩
  | .error e => .halt (.error e) room

/-! ### Containers -/

/-- A key and the colon after it. -/
def scanKey (s : Bytes) : Scan Text :=
  match scanString s with
  | .error e => .error e
  | .ok (key, r) =>
      match after? [0x3A] (skipBlanks r) with
      | some r => .ok (key, r)
      | none => .error (.at .missingColon (skipBlanks r))

/-- Reads the next key of an object whose members so far are `read`. -/
def nextMember (room : Int) (stack : List Frame) (read : List (Text × Json)) (s : Bytes) :
    Progress :=
  match scanKey s with
  | .ok (key, r) => .next ⟨room, .members read key :: stack, .wanted, r⟩
  | .error e => .halt (.error e) room

/-- Opens an array at its bracket `b`; an empty one is closed at once. -/
def openArray (room : Int) (stack : List Frame) (b : UInt8) (s : Bytes) : Progress :=
  if room ≤ 0 then .halt (.error (.at .tooDeep (b :: s))) room
  else match after? [0x5D] (skipBlanks s) with
    | some r => .next ⟨room, stack, .held (.array []), r⟩
    | none => .next ⟨room - 1, .elements [] :: stack, .wanted, skipBlanks s⟩

/-- Opens an object at its bracket `b`; an empty one is closed at once. -/
def openObject (room : Int) (stack : List Frame) (b : UInt8) (s : Bytes) : Progress :=
  if room ≤ 0 then .halt (.error (.at .tooDeep (b :: s))) room
  else match after? [0x7D] (skipBlanks s) with
    | some r => .next ⟨room, stack, .held (.object []), r⟩
    | none => nextMember (room - 1) stack [] (skipBlanks s)

/-! ### Steps -/

/-- Starts the value at the front of the input, which its first byte decides. -/
def start (room : Int) (stack : List Frame) : Bytes → Progress
  | [] => .halt (.error (.at .endOfInput [])) room
  | b :: s =>
      if b = 0x6E then leaf room stack id (scanWord (ascii ['n', 'u', 'l', 'l']) .null (b :: s))
      else if b = 0x74 then
        leaf room stack .bool (scanWord (ascii ['t', 'r', 'u', 'e']) true (b :: s))
      else if b = 0x66 then
        leaf room stack .bool (scanWord (ascii ['f', 'a', 'l', 's', 'e']) false (b :: s))
      else if b = 0x22 then leaf room stack .string (scanBody s)
      else if b = 0x7B then openObject room stack b s
      else if b = 0x5B then openArray room stack b s
      else if b = 0x2D || isDigit b then leaf room stack .number (scanNumber (b :: s))
      else .halt (.error (.at .notAValue (b :: s))) room

/-- Hands the value `v` to the innermost open container, which the input closes or goes on with.
With none open the document is complete, and the input must be at its end. -/
def resume (room : Int) (v : Json) : List Frame → Bytes → Progress
  | [], [] => .halt (.ok v) room
  | [], b :: s => .halt (.error (.at .trailing (b :: s))) room
  | .elements _ :: _, [] => .halt (.error (.at .missingElementComma [])) room
  | .elements read :: stack, b :: s =>
      if b = 0x5D then .next ⟨room + 1, stack, .held (.array (v :: read).reverse), s⟩
      else if b = 0x2C then .next ⟨room, .elements (v :: read) :: stack, .wanted, s⟩
      else .halt (.error (.at .missingElementComma (b :: s))) room
  | .members _ _ :: _, [] => .halt (.error (.at .missingMemberComma [])) room
  | .members read key :: stack, b :: s =>
      if b = 0x7D then .next ⟨room + 1, stack, .held (.object ((key, v) :: read).reverse), s⟩
      else if b = 0x2C then nextMember room stack ((key, v) :: read) (skipBlanks s)
      else .halt (.error (.at .missingMemberComma (b :: s))) room

/-- One step; blanks are skipped before it. -/
def step (st : State) : Progress :=
  match st.focus with
  | .wanted => start st.room st.stack (skipBlanks st.unread)
  | .held v => resume st.room v st.stack (skipBlanks st.unread)

/-! ### Every step takes up input -/

theorem length_after?_lt {b : UInt8} {s r : Bytes} (h : after? [b] s = some r) :
    r.length < s.length := by
  rw [eq_append_of_after? h]; simp

theorem scanWord_shorter {α : Type} {b : UInt8} {word s r : Bytes} {value a : α}
    (h : scanWord (b :: word) value s = .ok (a, r)) : r.length < s.length := by
  unfold scanWord at h
  split at h
  · next ha =>
      cases h
      rw [eq_append_of_after? ha, List.length_append, List.length_cons]
      omega
  · cases h

theorem scanKey_shorter {s r : Bytes} {key : Text} (h : scanKey s = .ok (key, r)) :
    r.length < s.length := by
  unfold scanKey at h
  split at h
  · cases h
  · next hk =>
      split at h
      · next ha =>
          cases h
          exact Nat.lt_trans (Nat.lt_of_lt_of_le (length_after?_lt ha) (length_skipBlanks_le _))
            (scanString_shorter hk)
      · cases h

theorem leaf_shorter {α : Type} {room : Int} {stack : List Frame} {wrap : α → Json}
    {scan : Scan α} {s : Bytes} {st : State} (hs : ∀ a r, scan = .ok (a, r) → r.length < s.length)
    (h : leaf room stack wrap scan = .next st) : st.unread.length < s.length := by
  rcases scan with e | ⟨a, r⟩
  · cases h
  · cases h; exact hs a r rfl

theorem nextMember_shorter {room : Int} {stack : List Frame} {read : List (Text × Json)}
    {s : Bytes} {st : State} (h : nextMember room stack read s = .next st) :
    st.unread.length < s.length := by
  unfold nextMember at h
  split at h
  · next hk => cases h; exact scanKey_shorter hk
  · cases h

theorem openArray_shorter {room : Int} {stack : List Frame} {b : UInt8} {s : Bytes} {st : State}
    (h : openArray room stack b s = .next st) : st.unread.length < (b :: s).length := by
  have hb := length_skipBlanks_le s
  unfold openArray at h
  split at h
  · cases h
  · split at h
    · next ha => cases h; have := length_after?_lt ha; simp only [List.length_cons]; omega
    · cases h; simp only [List.length_cons]; omega

theorem openObject_shorter {room : Int} {stack : List Frame} {b : UInt8} {s : Bytes} {st : State}
    (h : openObject room stack b s = .next st) : st.unread.length < (b :: s).length := by
  have hb := length_skipBlanks_le s
  unfold openObject at h
  split at h
  · cases h
  · split at h
    · next ha => cases h; have := length_after?_lt ha; simp only [List.length_cons]; omega
    · have := nextMember_shorter h; simp only [List.length_cons]; omega

theorem start_shorter {room : Int} {stack : List Frame} {s : Bytes} {st : State}
    (h : start room stack s = .next st) : st.unread.length < s.length := by
  cases s with
  | nil => cases h
  | cons b s =>
      simp only [start] at h
      split at h
      · exact leaf_shorter (fun _ _ => scanWord_shorter) h
      split at h
      · exact leaf_shorter (fun _ _ => scanWord_shorter) h
      split at h
      · exact leaf_shorter (fun _ _ => scanWord_shorter) h
      split at h
      · exact Nat.lt_succ_of_lt (leaf_shorter (fun _ _ => scanBody_shorter) h)
      split at h
      · exact openObject_shorter h
      split at h
      · exact openArray_shorter h
      split at h
      · exact leaf_shorter (fun _ _ => scanNumber_shorter) h
      · cases h

theorem resume_shorter {room : Int} {v : Json} {stack : List Frame} {s : Bytes} {st : State}
    (h : resume room v stack s = .next st) : st.unread.length < s.length := by
  unfold resume at h
  split at h
  · cases h
  · cases h
  · cases h
  · split at h
    · cases h; simp
    split at h
    · cases h; simp
    · cases h
  · cases h
  · next s =>
      split at h
      · cases h; simp
      split at h
      · exact Nat.lt_succ_of_lt
          (Nat.lt_of_lt_of_le (nextMember_shorter h) (length_skipBlanks_le s))
      · cases h

theorem step_shorter {st st' : State} (h : step st = .next st') :
    st'.unread.length < st.unread.length := by
  unfold step at h
  split at h
  · exact Nat.lt_of_lt_of_le (start_shorter h) (length_skipBlanks_le _)
  · exact Nat.lt_of_lt_of_le (resume_shorter h) (length_skipBlanks_le _)

/-! ### Runs -/

/-- Steps until the end: the document or the stop, and the room that is left. -/
def run (st : State) : Except Stop Json × Int :=
  match _h : step st with
  | .next st' => run st'
  | .halt result room => (result, room)
termination_by st.unread.length
decreasing_by exact step_shorter _h

theorem run_eq (st : State) :
    run st = match step st with
      | .next st' => run st'
      | .halt result room => (result, room) := by
  rw [run]; split <;> simp_all

end JsonDocument.Reader
