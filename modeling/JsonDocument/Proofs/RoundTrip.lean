import Mathlib.Tactic.Tauto
import JsonDocument.Proofs.Reader.Escaped
import JsonDocument.Proofs.Reader.Recognition
import JsonDocument.Proofs.Texts
import JsonDocument.Writer

/-!
# Proofs — round trips

Whatever the layout, a tree is read back from its text as it was, if it is not nested more deeply
than the reader allows and its high surrogates are paired.  Otherwise reading fails, for one of
these two reasons; a tree never turns into another one.

The proof runs the reader on what the writer has written, in the order of the writer.  Each part of
the text either leads the reader on or makes its run fail (`ReadsIf`), and the parts are put
together by `ReadsIf.trans`.

* `run_writeTo`: the run over the text of a tree.
* `readDocument_write`: reading a written tree.
-/

namespace JsonDocument

/-- The reasons for which a written tree is not read back. -/
def Reason.Lossy (reason : Reason) : Prop := reason = .tooDeep ∨ reason.Unpaired

namespace Reader
open JsonDocument.Grammar

/-- A run that fails for one of these reasons. -/
def Refused (a : Except Stop Json × Int) : Prop := ∃ e, a.1 = .error e ∧ e.reason.Lossy

/-- The run that comes to `a` comes to `b` if `P` holds, and is refused otherwise. -/
def ReadsIf (P : Prop) (a b : Except Stop Json × Int) : Prop := (P → a = b) ∧ (¬ P → Refused a)

variable {P Q : Prop} {a b c : Except Stop Json × Int}

theorem ReadsIf.of_eq (hP : P) (h : a = b) : ReadsIf P a b :=
  ⟨fun _ => h, fun hn => absurd hP hn⟩

theorem ReadsIf.trans (h : ReadsIf P a b) (h' : P → ReadsIf Q b c) : ReadsIf (P ∧ Q) a c := by
  refine ⟨fun hpq => (h.1 hpq.1).trans ((h' hpq.1).1 hpq.2), fun hn => ?_⟩
  by_cases hp : P
  · rw [h.1 hp]
    exact (h' hp).2 fun hq => hn ⟨hp, hq⟩
  · exact h.2 hp

theorem ReadsIf.congr (h : ReadsIf P a b) (hPQ : Q ↔ P) : ReadsIf Q a b := by
  rw [propext hPQ]
  exact h

variable {room : Int} {stack : List Frame} {o : WriteOptions} {rest : Text} {level : Nat}

/-! ### Layout -/

theorem encode_replicate (n : Nat) (rest : Text) :
    Utf8.encode (List.replicate n 0x20 ++ rest) = List.replicate n 0x20 ++ Utf8.encode rest := by
  induction n with
  | zero => rfl
  | succ n ih =>
      rw [List.replicate_succ, List.cons_append, Utf8.encode_byte 0x20 (by rfl) (by decide), ih]
      rfl

theorem exists_lineBreak (o : WriteOptions) (level : Nat) (rest : Text) :
    ∃ w, Blank w ∧ Utf8.encode (o.lineBreak level rest) = w ++ Utf8.encode rest := by
  unfold WriteOptions.lineBreak
  split
  · refine ⟨0x0A :: List.replicate (level * o.indent) 0x20, ?_, ?_⟩
    · refine List.forall_mem_cons.mpr ⟨.inr (.inr (.inl rfl)), fun b hb => ?_⟩
      exact .inl (List.eq_of_mem_replicate hb)
    · rw [Utf8.encode_byte 0x0A (by rfl) (by decide), encode_replicate]
      rfl
  · exact ⟨[], .nil, rfl⟩

/-- A line break leaves the reader where it was. -/
theorem run_lineBreak (focus : Focus) :
    run ⟨room, stack, focus, Utf8.encode (o.lineBreak level rest)⟩ =
      run ⟨room, stack, focus, Utf8.encode rest⟩ := by
  obtain ⟨w, hw, he⟩ := exists_lineBreak o level rest
  rw [he, run_blank focus hw]

theorem skipBlanks_lineBreak :
    skipBlanks (Utf8.encode (o.lineBreak level rest)) = skipBlanks (Utf8.encode rest) := by
  obtain ⟨w, hw, he⟩ := exists_lineBreak o level rest
  rw [he, skipBlanks_append hw]

theorem endsNumber_lineBreak (h : EndsNumber (Utf8.encode rest)) :
    EndsNumber (Utf8.encode (o.lineBreak level rest)) := by
  obtain ⟨w, hw, he⟩ := exists_lineBreak o level rest
  rw [he]
  exact endsNumber_blank hw h

/-! ### Scalars and keys -/

/-- The bytes of a number are ASCII. -/
theorem isNumber_ascii {n : Bytes} (h : IsNumber n) : ∀ b ∈ n, b.toNat < 0x80 := by
  refine h.forall_mem (fun b hb => ?_) (by simp)
  simp only [IsDigit, UInt8.le_iff_toNat_le, UInt8.reduceToNat] at hb
  omega

theorem encode_asciiText {n : Bytes} (h : IsNumber n) (rest : Text) :
    Utf8.encode (asciiText n ++ rest) = n ++ Utf8.encode rest :=
  Utf8.encode_map_toUInt16 (isNumber_ascii h) rest

theorem run_quotedText {t : Text} :
    ReadsIf t.HighsPaired (run ⟨room, stack, .wanted, Utf8.encode (o.quoted t rest)⟩)
      (run ⟨room, stack, .held (.string t), Utf8.encode rest⟩) := by
  obtain ⟨hok, herr⟩ := spells_escaped o.escapeSolidus t rest
  have hs : ∀ s, start room stack (0x22 :: s) = leaf room stack .string (scanBody s) :=
    fun _ => rfl
  rw [WriteOptions.quoted, Utf8.encode_byte 0x22 (by rfl) (by decide), run_wanted_cons rfl, hs]
  refine ⟨fun ht => by rw [hok ht]; rfl, fun ht => ?_⟩
  obtain ⟨e, he, hr⟩ := herr ht
  exact ⟨e, by rw [he]; rfl, .inr hr⟩

/-- A key with its colon is read into the frame. -/
theorem finish_label {key : Text} (read : List (Text × Json)) :
    ReadsIf key.HighsPaired
      (nextMember room stack read (skipBlanks (Utf8.encode (o.label key rest)))).finish
      (run ⟨room, .members read key :: stack, .wanted, Utf8.encode rest⟩) := by
  obtain ⟨hok, herr⟩ := spells_escaped o.escapeSolidus key
    (0x3A :: if o.pretty then 0x20 :: rest else rest)
  have hs : ∀ s, scanString (0x22 :: s) = scanBody s := fun _ => rfl
  have hcolon : ∀ s, after? [0x3A] (0x3A :: s) = some s := fun _ => rfl
  rw [WriteOptions.label, WriteOptions.quoted, Utf8.encode_byte 0x22 (by rfl) (by decide),
    skipBlanks_cons rfl, nextMember, scanKey, hs]
  refine ⟨fun hk => ?_, fun hk => ?_⟩
  · rw [hok hk, Utf8.encode_byte 0x3A (by rfl) (by decide)]
    simp only [skipBlanks_cons (show isBlank 0x3A = false from rfl), hcolon, Progress.finish]
    split
    · have hw : Blank [0x20] := List.forall_mem_cons.mpr ⟨.inl rfl, Blank.nil⟩
      rw [Utf8.encode_byte 0x20 (by rfl) (by decide)]
      exact run_blank _ hw
    · rfl
  · obtain ⟨e, he, hr⟩ := herr hk
    exact ⟨e, by rw [he]; rfl, .inr hr⟩

/-! ### Brackets -/

theorem refused_tooDeep {b : UInt8} {s : Bytes} (hb : b = 0x5B ∨ b = 0x7B) (hroom : ¬ 0 < room) :
    Refused (run ⟨room, stack, .wanted, b :: s⟩) := by
  refine ⟨.at .tooDeep (b :: s), ?_, .inl rfl⟩
  rcases hb with rfl | rfl
  · have h : start room stack (0x5B :: s) = openArray room stack 0x5B s := rfl
    rw [run_wanted_cons rfl, h, openArray, if_pos (by omega)]
    rfl
  · have h : start room stack (0x7B :: s) = openObject room stack 0x7B s := rfl
    rw [run_wanted_cons rfl, h, openObject, if_pos (by omega)]
    rfl

/-- A written value does not start like a closing bracket, and not with a blank. -/
theorem exists_head_writeTo {v : Json} (hv : v.NumbersValid) (level : Nat) (rest : Text) :
    ∃ b s, Utf8.encode (v.writeTo o level rest) = b :: s ∧ b ≠ 0x5D ∧ isBlank b = false := by
  have head : ∀ (b : UInt8) {u : CodeUnit} (t : Text), u.toNat = b.toNat → b.toNat < 0x80 →
      b ≠ 0x5D ∧ isBlank b = false →
      ∃ b s, Utf8.encode (u :: t) = b :: s ∧ b ≠ 0x5D ∧ isBlank b = false :=
    fun b _ t hu hb h => ⟨b, _, Utf8.encode_byte b hu hb t, h⟩
  unfold Json.writeTo
  split
  · exact head 0x6E _ rfl (by decide) (by decide)
  · exact head 0x74 _ rfl (by decide) (by decide)
  · exact head 0x66 _ rfl (by decide) (by decide)
  · obtain ⟨n, hn, rfl⟩ := hv
    obtain ⟨b, n', rfl, hb⟩ := exists_head_of_isNumber hn
    refine ⟨b, _, encode_asciiText hn rest, ?_, isBlank_eq_false hb⟩
    rintro rfl
    revert hb
    decide
  · exact head 0x22 _ rfl (by decide) (by decide)
  · exact head 0x5B _ rfl (by decide) (by decide)
  · exact head 0x5B _ rfl (by decide) (by decide)
  · exact head 0x7B _ rfl (by decide) (by decide)
  · exact head 0x7B _ rfl (by decide) (by decide)

theorem readsIf_openArray {v : Json} (hv : v.NumbersValid) :
    ReadsIf (0 < room)
      (run ⟨room, stack, .wanted,
        Utf8.encode (0x5B :: o.lineBreak level (v.writeTo o level rest))⟩)
      (run ⟨room - 1, .elements [] :: stack, .wanted,
        Utf8.encode (v.writeTo o level rest)⟩) := by
  rw [Utf8.encode_byte 0x5B (by rfl) (by decide)]
  refine ⟨fun hroom => ?_, fun hroom => refused_tooDeep (.inl rfl) hroom⟩
  obtain ⟨b, s, he, hb, hb'⟩ := exists_head_writeTo hv level rest (o := o)
  rw [run_openArray hroom, run_lineBreak]
  rw [skipBlanks_lineBreak, he, skipBlanks_cons hb', after?, if_neg (Ne.symm hb)]

theorem readsIf_openObject {key : Text} :
    ReadsIf (0 < room ∧ key.HighsPaired)
      (run ⟨room, stack, .wanted, Utf8.encode (0x7B :: o.lineBreak level (o.label key rest))⟩)
      (run ⟨room - 1, .members [] key :: stack, .wanted, Utf8.encode rest⟩) := by
  have hbrace : after? [0x7D] (skipBlanks (Utf8.encode (o.label key rest))) = none := by
    rw [WriteOptions.label, WriteOptions.quoted, Utf8.encode_byte 0x22 (by rfl) (by decide)]
    rfl
  rw [Utf8.encode_byte 0x7B (by rfl) (by decide)]
  refine ReadsIf.trans (b := (nextMember (room - 1) stack []
    (skipBlanks (Utf8.encode (o.label key rest)))).finish) ?_ fun _ => finish_label []
  refine ⟨fun hroom => ?_, fun hroom => refused_tooDeep (.inr rfl) hroom⟩
  rw [run_openObject hroom, skipBlanks_lineBreak]
  rw [skipBlanks_lineBreak, hbrace]

/-! ### Trees -/

theorem endsNumber_writeElements {xs : List Json} {level level' : Nat} :
    EndsNumber (Utf8.encode
      (Json.writeElements o level xs (o.lineBreak level' (0x5D :: rest)))) := by
  cases xs with
  | nil =>
      refine endsNumber_lineBreak ?_
      rw [Utf8.encode_byte 0x5D (by rfl) (by decide)]
      exact endsNumber_cons (.inr (.inl rfl))
  | cons x xs =>
      rw [Json.writeElements, Utf8.encode_byte 0x2C (by rfl) (by decide)]
      exact endsNumber_cons (.inl rfl)

theorem endsNumber_writeMembers {ms : List (Text × Json)} {level level' : Nat} :
    EndsNumber (Utf8.encode
      (Json.writeMembers o level ms (o.lineBreak level' (0x7D :: rest)))) := by
  cases ms with
  | nil =>
      refine endsNumber_lineBreak ?_
      rw [Utf8.encode_byte 0x7D (by rfl) (by decide)]
      exact endsNumber_cons (.inr (.inr rfl))
  | cons m ms =>
      obtain ⟨k, x⟩ := m
      rw [Json.writeMembers, Utf8.encode_byte 0x2C (by rfl) (by decide)]
      exact endsNumber_cons (.inl rfl)

theorem array_fits_iff {x : Json} {xs : List Json} :
    ((Json.array (x :: xs)).nesting ≤ room ∧ (Json.array (x :: xs)).HighsPaired) ↔
      0 < room ∧ (x.nesting ≤ room - 1 ∧ x.HighsPaired) ∧
        (Json.nestingElements xs ≤ room - 1 ∧
          Json.EachTextOfElements (fun _ => True) Text.HighsPaired xs) := by
  have hn : ((Json.array (x :: xs)).nesting : Int) ≤ room ↔
      0 < room ∧ x.nesting ≤ room - 1 ∧ Json.nestingElements xs ≤ room - 1 := by
    simp only [Json.nesting, Json.nestingElements]
    omega
  simp only [hn, Json.HighsPaired, Json.EachText, Json.EachTextOfElements]
  tauto

theorem object_fits_iff {k : Text} {x : Json} {ms : List (Text × Json)} :
    ((Json.object ((k, x) :: ms)).nesting ≤ room ∧ (Json.object ((k, x) :: ms)).HighsPaired) ↔
      (0 < room ∧ k.HighsPaired) ∧ (x.nesting ≤ room - 1 ∧ x.HighsPaired) ∧
        (Json.nestingMembers ms ≤ room - 1 ∧
          Json.EachTextOfMembers (fun _ => True) Text.HighsPaired ms) := by
  have hn : ((Json.object ((k, x) :: ms)).nesting : Int) ≤ room ↔
      0 < room ∧ x.nesting ≤ room - 1 ∧ Json.nestingMembers ms ≤ room - 1 := by
    simp only [Json.nesting, Json.nestingMembers]
    omega
  simp only [hn, Json.HighsPaired, Json.EachText, Json.EachTextOfMembers]
  tauto

theorem elements_fit_iff {x : Json} {xs : List Json} :
    (Json.nestingElements (x :: xs) ≤ room ∧
        Json.EachTextOfElements (fun _ => True) Text.HighsPaired (x :: xs)) ↔
      (x.nesting ≤ room ∧ x.HighsPaired) ∧
        (Json.nestingElements xs ≤ room ∧
          Json.EachTextOfElements (fun _ => True) Text.HighsPaired xs) := by
  have hn : (Json.nestingElements (x :: xs) : Int) ≤ room ↔
      x.nesting ≤ room ∧ Json.nestingElements xs ≤ room := by
    simp only [Json.nestingElements]
    omega
  simp only [hn, Json.HighsPaired, Json.EachTextOfElements]
  tauto

theorem members_fit_iff {k : Text} {x : Json} {ms : List (Text × Json)} :
    (Json.nestingMembers ((k, x) :: ms) ≤ room ∧
        Json.EachTextOfMembers (fun _ => True) Text.HighsPaired ((k, x) :: ms)) ↔
      k.HighsPaired ∧ (x.nesting ≤ room ∧ x.HighsPaired) ∧
        (Json.nestingMembers ms ≤ room ∧
          Json.EachTextOfMembers (fun _ => True) Text.HighsPaired ms) := by
  have hn : (Json.nestingMembers ((k, x) :: ms) : Int) ≤ room ↔
      x.nesting ≤ room ∧ Json.nestingMembers ms ≤ room := by
    simp only [Json.nestingMembers]
    omega
  simp only [hn, Json.HighsPaired, Json.EachTextOfMembers]
  tauto

theorem readsIf_emptyArray :
    ReadsIf (0 < room) (run ⟨room, stack, .wanted, Utf8.encode (0x5B :: 0x5D :: rest)⟩)
      (run ⟨room, stack, .held (.array []), Utf8.encode rest⟩) := by
  rw [Utf8.encode_byte 0x5B (by rfl) (by decide), Utf8.encode_byte 0x5D (by rfl) (by decide)]
  exact ⟨fun hroom => run_emptyArray hroom .nil, fun hroom => refused_tooDeep (.inl rfl) hroom⟩

theorem readsIf_emptyObject :
    ReadsIf (0 < room) (run ⟨room, stack, .wanted, Utf8.encode (0x7B :: 0x7D :: rest)⟩)
      (run ⟨room, stack, .held (.object []), Utf8.encode rest⟩) := by
  rw [Utf8.encode_byte 0x7B (by rfl) (by decide), Utf8.encode_byte 0x7D (by rfl) (by decide)]
  exact ⟨fun hroom => run_emptyObject hroom .nil, fun hroom => refused_tooDeep (.inr rfl) hroom⟩

mutual

/-- The run over the text of a tree. -/
theorem run_writeTo (o : WriteOptions) : ∀ (v : Json) (level : Nat) (room : Int)
    (stack : List Frame) (rest : Text), v.NumbersValid → 0 ≤ room →
    EndsNumber (Utf8.encode rest) →
      ReadsIf (v.nesting ≤ room ∧ v.HighsPaired)
        (run ⟨room, stack, .wanted, Utf8.encode (v.writeTo o level rest)⟩)
        (run ⟨room, stack, .held v, Utf8.encode rest⟩)
  | .null, level, _, _, rest, _, hroom, _ => by
      have he : Utf8.encode (Json.null.writeTo o level rest) = nullWord ++ Utf8.encode rest :=
        Utf8.encode_map_toUInt16 (s := nullWord) (by simp [nullWord]) rest
      exact .of_eq ⟨hroom, trivial⟩ (by rw [he, run_null])
  | .bool true, level, _, _, rest, _, hroom, _ => by
      have he : Utf8.encode ((Json.bool true).writeTo o level rest) =
          trueWord ++ Utf8.encode rest :=
        Utf8.encode_map_toUInt16 (s := trueWord) (by simp [trueWord]) rest
      exact .of_eq ⟨hroom, trivial⟩ (by rw [he, run_true])
  | .bool false, level, _, _, rest, _, hroom, _ => by
      have he : Utf8.encode ((Json.bool false).writeTo o level rest) =
          falseWord ++ Utf8.encode rest :=
        Utf8.encode_map_toUInt16 (s := falseWord) (by simp [falseWord]) rest
      exact .of_eq ⟨hroom, trivial⟩ (by rw [he, run_false])
  | .number _, _, _, _, rest, hv, hroom, hr => by
      obtain ⟨n, hn, rfl⟩ := hv
      exact .of_eq ⟨hroom, trivial⟩ (by rw [Json.writeTo, encode_asciiText hn, run_number hn hr])
  | .string t, _, _, _, _, _, hroom, _ => run_quotedText.congr (and_iff_right hroom)
  | .array [], _, room, _, rest, _, _, _ => by
      rw [Json.writeTo]
      refine readsIf_emptyArray.congr ?_
      rw [and_iff_left (by exact trivial), Json.nesting, Json.nestingElements]
      omega
  | .array (x :: xs), level, room, stack, rest, hv, _, _ => by
      rw [Json.writeTo]
      -- the bracket, the first element, and then what follows it
      refine ((readsIf_openArray hv.1).trans fun hroom => ?_).congr array_fits_iff
      refine (run_writeTo o x _ _ _ _ hv.1 (by omega) endsNumber_writeElements).trans fun _ => ?_
      have := run_writeElements o xs (level + 1) level (room - 1) stack [] x rest hv.2 (by omega)
      rwa [Int.sub_add_cancel] at this
  | .object [], _, room, _, rest, _, _, _ => by
      rw [Json.writeTo]
      refine readsIf_emptyObject.congr ?_
      rw [and_iff_left (by exact trivial), Json.nesting, Json.nestingMembers]
      omega
  | .object ((k, x) :: ms), level, room, stack, rest, hv, _, _ => by
      rw [Json.writeTo]
      -- the brace with the first key, its value, and then what follows it
      refine (readsIf_openObject.trans fun hroom => ?_).congr object_fits_iff
      refine (run_writeTo o x _ _ _ _ hv.2.1 (by omega) endsNumber_writeMembers).trans fun _ => ?_
      have := run_writeMembers o ms (level + 1) level (room - 1) stack [] k x rest hv.2.2 (by omega)
      rwa [Int.sub_add_cancel] at this

/-- The elements after the first, and the closing bracket. -/
theorem run_writeElements (o : WriteOptions) : ∀ (xs : List Json) (level level' : Nat) (room : Int)
    (stack : List Frame) (read : List Json) (v : Json) (rest : Text),
    Json.EachTextOfElements IsLiteral (fun _ => True) xs → 0 ≤ room →
      ReadsIf (Json.nestingElements xs ≤ room ∧
          Json.EachTextOfElements (fun _ => True) Text.HighsPaired xs)
        (run ⟨room, .elements read :: stack, .held v,
          Utf8.encode (Json.writeElements o level xs (o.lineBreak level' (0x5D :: rest)))⟩)
        (run ⟨room + 1, stack, .held (.array ((v :: read).reverse ++ xs)), Utf8.encode rest⟩)
  | [], _, _, _, _, _, _, _, _, hroom => by
      refine .of_eq ⟨hroom, trivial⟩ ?_
      rw [Json.writeElements, run_lineBreak, Utf8.encode_byte 0x5D (by rfl) (by decide),
        run_closeArray, List.append_nil]
  | x :: xs, level, level', room, stack, read, v, rest, hxs, hroom => by
      rw [Json.writeElements, Utf8.encode_byte 0x2C (by rfl) (by decide), run_nextElement,
        run_lineBreak]
      refine ((run_writeTo o x _ _ _ _ hxs.1 hroom endsNumber_writeElements).trans
        fun _ => ?_).congr elements_fit_iff
      have := run_writeElements o xs level level' room stack (v :: read) x rest hxs.2 hroom
      rwa [List.reverse_cons, List.append_assoc, List.singleton_append] at this

/-- The members after the first, and the closing brace. -/
theorem run_writeMembers (o : WriteOptions) : ∀ (ms : List (Text × Json)) (level level' : Nat)
    (room : Int) (stack : List Frame) (read : List (Text × Json)) (key : Text) (v : Json)
    (rest : Text), Json.EachTextOfMembers IsLiteral (fun _ => True) ms → 0 ≤ room →
      ReadsIf (Json.nestingMembers ms ≤ room ∧
          Json.EachTextOfMembers (fun _ => True) Text.HighsPaired ms)
        (run ⟨room, .members read key :: stack, .held v,
          Utf8.encode (Json.writeMembers o level ms (o.lineBreak level' (0x7D :: rest)))⟩)
        (run ⟨room + 1, stack, .held (.object (((key, v) :: read).reverse ++ ms)),
          Utf8.encode rest⟩)
  | [], _, _, _, _, _, _, _, _, _, hroom => by
      refine .of_eq ⟨hroom, trivial⟩ ?_
      rw [Json.writeMembers, run_lineBreak, Utf8.encode_byte 0x7D (by rfl) (by decide),
        run_closeObject, List.append_nil]
  | (k, x) :: ms, level, level', room, stack, read, key, v, rest, hms, hroom => by
      rw [Json.writeMembers, Utf8.encode_byte 0x2C (by rfl) (by decide), run_nextMember,
        skipBlanks_lineBreak]
      refine ((finish_label _).trans fun _ => ?_).congr members_fit_iff
      refine (run_writeTo o x _ _ _ _ hms.2.1 hroom endsNumber_writeMembers).trans fun _ => ?_
      have := run_writeMembers o ms level level' room stack ((key, v) :: read) k x rest hms.2.2
        hroom
      rwa [List.reverse_cons, List.append_assoc, List.singleton_append] at this

end

end Reader

open Reader

/-- **Round trip.**  A tree with valid numbers is read back from its text exactly if it is not
nested too deeply and its high surrogates are paired.  Otherwise reading fails, and for one of these
reasons; so it never gives another tree. -/
theorem readDocument_write (o : WriteOptions) (d : Nat) (v : Json) (hv : v.NumbersValid) :
    (readDocument d (Utf8.encode (v.write o)) = .ok v ↔ v.nesting ≤ d ∧ v.HighsPaired) ∧
      (readDocument d (Utf8.encode (v.write o)) = .ok v ∨
        ∃ e, readDocument d (Utf8.encode (v.write o)) = .error e ∧
          (e.reason = .tooDeep ∨ e.reason = .missingLowSurrogate ∨
            e.reason = .notALowSurrogate)) := by
  obtain ⟨hread, hrefused⟩ := run_writeTo o v 0 d [] [] hv (by omega) (avoids_nil _)
  have hd : ((v.nesting : Int) ≤ d ∧ v.HighsPaired) ↔ v.nesting ≤ d ∧ v.HighsPaired := by
    rw [Int.ofNat_le]
  rw [hd] at hread hrefused
  by_cases h : v.nesting ≤ d ∧ v.HighsPaired
  · have hok : readDocument d (Utf8.encode (v.write o)) = .ok v := by
      rw [readDocument_eq_ok, Json.write, hread h]
      exact congrArg Prod.fst (run_complete d v)
    exact ⟨iff_of_true hok h, .inl hok⟩
  · obtain ⟨e, he, hr⟩ := hrefused h
    have herr : readDocument d (Utf8.encode (v.write o)) =
        .error ⟨e.reason, (Utf8.encode (v.write o)).length - e.found.length⟩ := by
      rw [readDocument_eq, Json.write, he]
      rfl
    refine ⟨iff_of_false (fun hok => ?_) h, .inr ⟨_, herr, hr⟩⟩
    rw [herr] at hok
    cases hok

/-- An array with a number and a lone low surrogate is read back from lines of text. -/
theorem readDocument_write_lines :
    readDocument 1 (Utf8.encode ((Json.array [.number [0x31], .string [0xDC00]]).write
      ⟨true, 2, true⟩)) = .ok (.array [.number [0x31], .string [0xDC00]]) := by
  have hdigits : Grammar.Digits [0x31] := ⟨by decide, List.forall_mem_singleton.mpr (by decide)⟩
  have hone : IsLiteral [0x31] :=
    ⟨[0x31], .mk (.inl rfl) (.digits hdigits (by decide)) .none .none, rfl⟩
  have hlow : Text.HighsPaired [0xDC00] := (Text.highsPaired_cons (by decide)).mpr trivial
  have hv : (Json.array [.number [0x31], .string [0xDC00]]).NumbersValid :=
    ⟨hone, trivial, trivial⟩
  exact (readDocument_write _ 1 _ hv).1.mpr ⟨by decide, trivial, hlow, trivial⟩

end JsonDocument
