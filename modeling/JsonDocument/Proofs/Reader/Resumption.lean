import JsonDocument.Proofs.Reader.Local
import JsonDocument.Proofs.Reader.Recognition
import JsonDocument.Proofs.Reader.Room

/-!
# Proofs — Reader — asking again

A reader that is asked again goes on with what is unread, and with the room it has left.  Nothing
else of what it did before counts: it answers as a new reader of the rest of the input would, only
that the places of failures are further on.

* `Rest`: what is unread is the rest of the input, and the room is what is left of the limit.
* `read_cases`: what one call does to the place of the reader.
* `readTimes_eq_map`: the answers to so many calls.
* `asked_again`: the calls on one reader, one after another.
-/

namespace JsonDocument

/-- The failure in an input that has so many more bytes in front. -/
def Failure.shift (k : Nat) (e : Failure) : Failure := ⟨e.reason, k + e.position⟩

namespace Reader

variable {d : Int} {b : Bytes} {r : Reader} {e : Failure} {v : Json} {m n : Nat}

/-! ### One call -/

/-- A call ends at the end of the input, or at a failure that lies between the places before and
after it. -/
theorem read_cases (r : Reader) :
    (∃ v, r.read.1 = .ok v ∧ r.read.2.position = r.position + r.unread.length ∧
        r.read.2.unread = []) ∨
      ∃ e : Stop, r.read.1 = .error ⟨e.reason, r.offset e.found⟩ ∧
        r.read.2.position = r.offset e.unread ∧ r.read.2.unread = e.unread ∧
        e.found <:+ r.unread ∧ e.unread <:+ e.found := by
  unfold read
  split
  next v room h => exact .inl ⟨v, rfl, rfl, rfl⟩
  next e room h =>
    obtain ⟨hf, hu, -⟩ := found_of_run (congrArg Prod.fst h)
    exact .inr ⟨e, rfl, rfl, rfl, hf, hu⟩

theorem room_read (r : Reader) : r.read.2.room = (run ⟨r.room, [], .wanted, r.unread⟩).2 := by
  unfold read
  split
  next h => rw [h]
  next h => rw [h]

/-- What a reader finds is what a new reader of the unread bytes finds, further on. -/
theorem read_eq_readDocument (r : Reader) :
    r.read.1 = (readDocument r.room r.unread).mapError (.shift r.position) := by
  rw [readDocument_eq]
  unfold read
  split
  next h => rw [h]; rfl
  next h => rw [h]; rfl

theorem offset_mono {s s' : Bytes} (h : s' <:+ s) : r.offset s ≤ r.offset s' := by
  have := h.length_le
  unfold offset
  omega

theorem position_le_read (r : Reader) : r.position ≤ r.read.2.position := by
  rcases read_cases r with ⟨v, -, hp, -⟩ | ⟨e, -, hp, -⟩
  · rw [hp]; exact Nat.le_add_right _ _
  · rw [hp]; exact Nat.le_add_right _ _

/-- A failure lies between the places before and after the call. -/
theorem position_of_read_error (h : r.read.1 = .error e) :
    r.position ≤ e.position ∧ e.position ≤ r.read.2.position := by
  rcases read_cases r with ⟨v, hv, -⟩ | ⟨stop, he, hp, -, -, hu⟩
  · rw [h] at hv; cases hv
  · rw [h] at he
    cases he
    rw [hp]
    exact ⟨Nat.le_add_right _ _, offset_mono hu⟩

theorem read_nil (h : r.unread = []) : r.read.1 = .error ⟨.endOfInput, r.position⟩ := by
  obtain ⟨position, unread, room⟩ := r
  cases h
  rw [read_eq_readDocument, readDocument_eq, run_eq]
  rfl

/-! ### What is left of an input -/

/-- The reader is within the input `b`: what it has not passed is unread, and it has room left of
the limit `d`. -/
structure Rest (d : Int) (b : Bytes) (r : Reader) : Prop where
  position_le : r.position ≤ b.length
  unread : r.unread = b.drop r.position
  room_le : r.room ≤ d
  le_room : d ≤ r.room ∨ 0 ≤ r.room

theorem rest_ofBytes (d : Int) (b : Bytes) : Rest d b (ofBytes d b) :=
  ⟨Nat.zero_le _, rfl, Int.le_refl d, .inl (Int.le_refl d)⟩

theorem Rest.length_unread (h : Rest d b r) : r.position + r.unread.length = b.length := by
  have := h.position_le
  rw [h.unread, List.length_drop]
  omega

theorem Rest.unread_eq_nil_iff (h : Rest d b r) : r.unread = [] ↔ r.position = b.length := by
  have := h.length_unread
  rw [← List.length_eq_zero_iff]
  omega

/-- What is left after a call is a rest again. -/
theorem Rest.read (h : Rest d b r) : Rest d b r.read.2 := by
  have hlen := h.length_unread
  have hroom := room_of_run ⟨r.room, [], .wanted, r.unread⟩
  have hle := h.room_le
  have hge := h.le_room
  rw [← room_read] at hroom
  simp only [State.limit, List.length_nil] at hroom
  suffices r.read.2.position ≤ b.length ∧ r.read.2.unread = b.drop r.read.2.position from
    ⟨this.1, this.2, by omega, by omega⟩
  rcases read_cases r with ⟨v, -, hp, hu⟩ | ⟨e, -, hp, hu, hf, hs⟩
  · rw [hp, hu, hlen]
    exact ⟨Nat.le_refl _, List.drop_length.symm⟩
  · have hsuffix := hs.trans hf
    have := hsuffix.length_le
    rw [hp, hu]
    unfold offset
    refine ⟨by omega, ?_⟩
    rw [← List.drop_drop, ← h.unread]
    exact List.suffix_iff_eq_drop.mp hsuffix

/-! ### One call after another -/

/-- The reader after so many calls. -/
def after (r : Reader) : Nat → Reader
  | 0 => r
  | n + 1 => (r.after n).read.2

theorem after_read (r : Reader) (n : Nat) : r.read.2.after n = (r.after n).read.2 := by
  induction n with
  | zero => rfl
  | succ n ih => rw [after, ih]; rfl

/-- The answers to so many calls are those of the readers before each of them. -/
theorem readTimes_eq_map (n : Nat) (r : Reader) :
    readTimes n r = (List.range n).map fun i => (r.after i).read.1 := by
  induction n generalizing r with
  | zero => rfl
  | succ n ih =>
      rw [readTimes, ih, List.range_succ_eq_map, List.map_cons, List.map_map]
      simp only [after_read]
      rfl

theorem rest_after (d : Int) (b : Bytes) (n : Nat) : Rest d b ((ofBytes d b).after n) := by
  induction n with
  | zero => exact rest_ofBytes d b
  | succ n ih => exact ih.read

theorem position_after_mono (r : Reader) (h : n ≤ m) :
    (r.after n).position ≤ (r.after m).position := by
  induction h with
  | refl => exact Nat.le_refl _
  | step _ ih => exact Nat.le_trans ih (position_le_read _)

/-- Later failures lie further on. -/
theorem position_mono_of_error {e' : Failure} (h : n ≤ m) (he : (r.after n).read.1 = .error e)
    (he' : (r.after m).read.1 = .error e') : e.position ≤ e'.position := by
  rcases Nat.eq_or_lt_of_le h with rfl | h
  · rw [he] at he'
    cases he'
    exact Nat.le_refl _
  · calc e.position ≤ (r.after (n + 1)).position := (position_of_read_error he).2
      _ ≤ (r.after m).position := position_after_mono r h
      _ ≤ e'.position := (position_of_read_error he').1

/-- After a document there is nothing but the end of the input. -/
theorem read_after_ok (hv : ((ofBytes d b).after n).read.1 = .ok v) (h : n < m) :
    ((ofBytes d b).after m).read.1 = .error ⟨.endOfInput, b.length⟩ := by
  have hend : ((ofBytes d b).after (n + 1)).position = b.length := by
    rcases read_cases ((ofBytes d b).after n) with ⟨_, -, hp, -⟩ | ⟨_, he, -⟩
    · exact hp.trans (rest_after d b n).length_unread
    · rw [hv] at he; cases he
  have hm := rest_after d b m
  have hle : b.length ≤ ((ofBytes d b).after m).position :=
    hend ▸ position_after_mono (ofBytes d b) h
  have hpos : ((ofBytes d b).after m).position = b.length := Nat.le_antisymm hm.position_le hle
  rw [read_nil (hm.unread_eq_nil_iff.mpr hpos), hpos]

/-- One call at most gives a document. -/
theorem eq_of_read_ok {v' : Json} (hv : ((ofBytes d b).after n).read.1 = .ok v)
    (hv' : ((ofBytes d b).after m).read.1 = .ok v') : m = n := by
  -- of two documents one would come after the other
  rcases Nat.lt_trichotomy m n with h | rfl | h
  · rw [read_after_ok hv' h] at hv
    cases hv
  · rfl
  · rw [read_after_ok hv h] at hv'
    cases hv'

/-- **Asking again.**  A reader that has been asked `n` times is within its input and its limit.
The next call gives what a new reader of the rest gives, under what is left of the limit, and goes
on from there.  The places of failures do not go back and stay within the input, and a document is
found once at most: after it comes the end of the input, whenever the reader is asked. -/
theorem asked_again (d : Int) (b : Bytes) (n : Nat) :
    let r := (ofBytes d b).after n
    let depth := d - r.room
    (r.position ≤ b.length ∧ 0 ≤ depth ∧ depth ≤ max d 0) ∧
      r.read.1 = (readDocument (d - depth) (b.drop r.position)).mapError (.shift r.position) ∧
      (r.position ≤ r.read.2.position ∧ depth ≤ d - r.read.2.room) ∧
      (∀ e, r.read.1 = .error e → e.position ≤ b.length ∧
        ∀ m e', n ≤ m → ((ofBytes d b).after m).read.1 = .error e' → e.position ≤ e'.position) ∧
      (∀ v, r.read.1 = .ok v →
        (∀ m v', ((ofBytes d b).after m).read.1 = .ok v' → m = n) ∧
        ∀ m, n < m → ((ofBytes d b).after m).read.1 = .error ⟨.endOfInput, b.length⟩) ∧
      readTimes n (ofBytes d b) = (List.range n).map fun i => ((ofBytes d b).after i).read.1 := by
  intro r depth
  have hr : Rest d b r := rest_after d b n
  have hroom := room_of_run ⟨r.room, [], .wanted, r.unread⟩
  rw [← room_read] at hroom
  simp only [State.limit, List.length_nil] at hroom
  have hle := hr.room_le
  have hge := hr.le_room
  refine ⟨⟨hr.position_le, by omega, by omega⟩, ?_, ⟨position_le_read r, by omega⟩,
    fun e he => ⟨?_, fun m e' h he' => position_mono_of_error h he he'⟩,
    fun v hv => ⟨fun m v' hv' => eq_of_read_ok hv hv', fun m => read_after_ok hv⟩,
    readTimes_eq_map n _⟩
  · rw [show d - depth = r.room by omega, ← hr.unread]
    exact read_eq_readDocument r
  · exact (position_of_read_error he).2.trans hr.read.position_le

/-- The array that a first call has begun is not there for the second, which finds a document. -/
example : readTimes 3 (ofBytes 1 [0x5B, 0x31, 0x20, 0x32]) =
    [.error ⟨.missingElementComma, 3⟩, .ok (.number [0x32]), .error ⟨.endOfInput, 4⟩] := by
  cbv

end Reader

end JsonDocument
