import JsonDocument.Proofs.Reader.Brackets
import JsonDocument.Proofs.Writer

/-!
# Proofs — the layout of a tree

A text in lines beside the text without blanks.  A look at the quotes and brackets of the text
(`Place`) tells blanks of the layout from those of strings, and counts the containers that are open.

Both texts are put together from the same parts, between which the text in lines has line breaks and
spaces (`Laid`).  A part holds no line feed and no blank outside its strings; a line break is
followed by its indentation and a unit that is no blank.  What holds of the parts then holds of the
texts.

* `erase`: the text without the blanks that lie outside strings.
* `laid_writeTo`: a tree is laid out.
* `Json.write_lines`: the text without blanks, the number of lines, and their indentation.
-/

namespace JsonDocument

/-! ### Units and places -/

/-- A unit as a byte; all beyond ASCII as one byte that is no mark. -/
def CodeUnit.mark (u : CodeUnit) : UInt8 := if u.toNat < 0x80 then u.toUInt8 else 0x80

theorem CodeUnit.mark_eq_iff {u : CodeUnit} {b : UInt8} (hb : b.toNat < 0x80) :
    u.mark = b ↔ u = b.toUInt16 := by
  rw [← UInt8.toNat_inj, ← UInt16.toNat_inj, UInt8.toNat_toUInt16, mark]
  split
  · rw [UInt16.toNat_toUInt8]
    omega
  · have : (0x80 : UInt8).toNat = 0x80 := rfl
    omega

namespace Place

variable {q : Place} {x y : Text}

/-- The place behind one more unit. -/
def step (q : Place) (u : CodeUnit) : Place := q.next u.mark

/-- The place behind a text. -/
def behind (q : Place) (t : Text) : Place := t.foldl step q

theorem behind_append : q.behind (x ++ y) = (q.behind x).behind y := List.foldl_append

/-- Whether a unit at a place is a space or a line feed outside string literals. -/
def blankAt : Place → CodeUnit → Bool
  | outside _, u => u = 0x20 || u = 0x0A
  | _, _ => false

/-- A text without its spaces and line feeds outside string literals. -/
def erase (q : Place) : Text → Text
  | [] => []
  | u :: t => if q.blankAt u then erase (q.step u) t else u :: erase (q.step u) t

theorem erase_append : q.erase (x ++ y) = q.erase x ++ (q.behind x).erase y := by
  induction x generalizing q with
  | nil => rfl
  | cons u x ih =>
      rw [List.cons_append, erase, erase, ih]
      split
      · rfl
      · rfl

end Place

/-! ### Parts -/

/-- A part of a text that leads from one place to another, in one line and without blanks outside
string literals. -/
structure Part (q : Place) (s : Text) (q' : Place) : Prop where
  behind : q.behind s = q'
  erase : q.erase s = s
  oneLine : 0x0A ∉ s

section Parts

open Place

variable {q q' q'' : Place} {s x y t : Text} {u : CodeUnit} {d : Nat}

theorem Part.nil (q : Place) : Part q [] q := ⟨rfl, rfl, List.not_mem_nil⟩

theorem Part.append (h : Part q x q') (h' : Part q' y q'') : Part q (x ++ y) q'' where
  behind := by rw [behind_append, h.behind, h'.behind]
  erase := by rw [erase_append, h.behind, h.erase, h'.erase]
  oneLine := by
    rw [List.mem_append]
    exact not_or.mpr ⟨h.oneLine, h'.oneLine⟩

theorem part_unit (h : q.blankAt u = false) (hu : u ≠ 0x0A) (hq : q.step u = q') :
    Part q [u] q' where
  behind := hq
  erase := by
    rw [Place.erase, h]
    rfl
  oneLine := fun hm => hu (List.mem_singleton.mp hm).symm

theorem part_of_forall (h : ∀ u ∈ s, Part q [u] q) : Part q s q := by
  induction s with
  | nil => exact .nil q
  | cons u s ih =>
      obtain ⟨hu, hs⟩ := List.forall_mem_cons.mp h
      exact hu.append (ih hs)

/-- A unit that is neither a blank nor a quote nor a bracket. -/
def inert (u : CodeUnit) : Bool :=
  !(u == 0x20 || u == 0x0A || u == 0x22 || u == 0x5B || u == 0x5D || u == 0x7B || u == 0x7D)

theorem part_inert (d : Nat) (h : ∀ u ∈ s, inert u = true) : Part (outside d) s (outside d) := by
  refine part_of_forall fun u hu => ?_
  have hinert := h u hu
  simp only [inert, Bool.not_eq_true', Bool.or_eq_false_iff, beq_eq_false_iff_ne, and_assoc]
    at hinert
  obtain ⟨hspace, hline, hquote, h₁, h₂, h₃, h₄⟩ := hinert
  have hstep : (outside d).step u = outside d := by
    refine next_outside ?_ d
    simp only [Place.Plain, List.mem_cons, List.not_mem_nil, or_false, not_or]
    refine ⟨?_, ?_, ?_, ?_, ?_⟩ <;> rw [CodeUnit.mark_eq_iff (by decide)] <;> assumption
  have hblank : (outside d).blankAt u = false := by
    simp only [blankAt, hspace, hline, decide_false, Bool.or_self]
  exact part_unit hblank hline hstep

/-! ### Strings -/

/-- Within a string, units that are neither quotes nor backslashes nor line feeds. -/
theorem part_inside (d : Nat) (h : ∀ u ∈ s, u ≠ 0x22 ∧ u ≠ 0x5C ∧ u ≠ 0x0A) :
    Part (inside d) s (inside d) := by
  refine part_of_forall fun u hu => ?_
  obtain ⟨hquote, hslash, hline⟩ := h u hu
  have hstep : (inside d).step u = inside d := by
    rw [step, next, if_neg (by rwa [CodeUnit.mark_eq_iff (by decide)]),
      if_neg (by rwa [CodeUnit.mark_eq_iff (by decide)])]
  exact part_unit rfl hline hstep

theorem part_escape {c : CodeUnit} (d : Nat) (hc : c ≠ 0x0A) :
    Part (inside d) [0x5C, c] (inside d) :=
  (part_unit rfl (by decide) rfl : Part _ _ (escaped d)).append (part_unit rfl hc rfl)

theorem part_escapedUnit (f : Bool) (u : CodeUnit) (d : Nat) :
    Part (inside d) (Escape.unit f u) (inside d) := by
  have hdigit : ∀ n < 16, Hex.digit n ≠ 0x22 ∧ Hex.digit n ≠ 0x5C ∧ Hex.digit n ≠ 0x0A :=
    fun n hn => (by decide : ∀ n : Fin 16, Hex.digit n ≠ 0x22 ∧ Hex.digit n ≠ 0x5C ∧
      Hex.digit n ≠ 0x0A) ⟨n, hn⟩
  have hu := u.toNat_lt
  unfold Escape.unit
  split
  · next c hc =>
      refine part_escape d ?_
      rintro rfl
      cases (Escape.lookup_letters hc).2
  · next hnone =>
      split
      · refine (part_escape d (c := 0x75) (by decide)).append (part_inside d ?_)
        simp only [List.forall_mem_cons]
        exact ⟨hdigit _ (by omega), hdigit _ (by omega), hdigit _ (by omega), hdigit _ (by omega),
          List.forall_mem_nil _⟩
      · refine part_inside d (List.forall_mem_singleton.mpr ⟨?_, ?_, ?_⟩) <;>
          (rintro rfl; cases hnone)

theorem part_encode (f : Bool) (d : Nat) : ∀ t, Part (inside d) (Escape.encode f t) (inside d)
  | [] => .nil _
  | [u] => part_escapedUnit f u d
  | u :: v :: t => by
      rw [Escape.encode]
      split
      · next h =>
          rw [Bool.and_eq_true] at h
          have hraw : ∀ w : CodeUnit, w.isHigh ∨ w.isLow → w ≠ 0x22 ∧ w ≠ 0x5C ∧ w ≠ 0x0A := by
            intro w hw
            refine ⟨?_, ?_, ?_⟩ <;> (rintro rfl; revert hw; decide)
          have hpair : Part (inside d) [u, v] (inside d) :=
            part_inside d (by simp [hraw u (.inl h.1), hraw v (.inr h.2)])
          exact hpair.append (part_encode f d t)
      · exact (part_escapedUnit f u d).append (part_encode f d (v :: t))

theorem part_quoted (f : Bool) (t : Text) (d : Nat) :
    Part (outside d) (0x22 :: (Escape.encode f t ++ [0x22])) (outside d) :=
  (part_unit rfl (by decide) rfl : Part _ _ (inside d)).append
    ((part_encode f d t).append (part_unit rfl (by decide) rfl))

end Parts

/-! ### Parts in lines -/

/-- Whether a unit closes a container. -/
def closes (u : CodeUnit) : Bool := u = 0x5D || u = 0x7D

/-- With `d` containers open in front of it, the text `p` is the text `c` but for spaces and `b`
line breaks.  A line break has `n` spaces behind it for each container that is open at the unit
after them, which is no blank; if that unit closes a container, this one counts as closed. -/
inductive Laid (n : Nat) : Nat → Text → Text → Nat → Prop where
  | nil {d : Nat} : Laid n d [] [] 0
  | part {d d' b : Nat} {s p c : Text} (h : Part (.outside d) s (.outside d'))
      (t : Laid n d' p c b) : Laid n d (s ++ p) (s ++ c) b
  | space {d b : Nat} {p c : Text} (t : Laid n d p c b) : Laid n d (0x20 :: p) c b
  | line {d b : Nat} {u : CodeUnit} {p c : Text} (hs : u ≠ 0x20) (hl : u ≠ 0x0A)
      (t : Laid n d (u :: p) c b) :
      Laid n d (0x0A :: (List.replicate (n * if closes u then d - 1 else d) 0x20 ++ u :: p)) c
        (b + 1)

section

open Place

variable {n m d d' b : Nat} {f : Bool} {p c : Text} {u : CodeUnit} {v : Json}

theorem Laid.unit (h : Part (outside d) [u] (outside d')) (t : Laid n d' p c b) :
    Laid n d (u :: p) (u :: c) b := .part h t

theorem behind_spaces (k : Nat) (q : Place) (hq : q.step 0x20 = q) :
    q.behind (List.replicate k 0x20) = q := by
  induction k with
  | zero => rfl
  | succ k ih => rw [List.replicate_succ, behind, List.foldl_cons, hq]; exact ih

/-- Without its blanks the one text is the other. -/
theorem Laid.erase (h : Laid n d p c b) : (outside d).erase p = c := by
  induction h with
  | nil => rfl
  | part h _ ih => rw [erase_append, h.erase, h.behind, ih]
  | space _ ih => exact ih
  | @line d b u p c _ _ _ ih =>
      have hspaces : ∀ k, (outside d).erase (List.replicate k 0x20) = [] := by
        intro k
        induction k with
        | zero => rfl
        | succ k ih => exact ih
      have hline : ∀ t, (outside d).erase (0x0A :: t) = (outside d).erase t := fun _ => rfl
      rw [hline, erase_append, hspaces, behind_spaces _ _ rfl, ih, List.nil_append]

/-! ### Lines -/

/-- The lines of a text, without the line feeds that end them. -/
def Text.lines (t : Text) : List Text := t.splitOn 0x0A

theorem lines_lineFeed (t : Text) : Text.lines (0x0A :: t) = [] :: Text.lines t := by
  simp only [Text.lines, List.splitOn_cons_eq_if_modifyHead, beq_self_eq_true, if_true]

/-- A unit in front of the first line. -/
theorem exists_lines_cons (hu : u ≠ 0x0A) (t : Text) :
    ∃ first others, Text.lines t = first :: others ∧
      Text.lines (u :: t) = (u :: first) :: others := by
  have hcons : Text.lines (u :: t) = (Text.lines t).modifyHead (u :: ·) := by
    simp only [Text.lines, List.splitOn_cons_eq_if_modifyHead, beq_iff_eq, if_neg hu]
  cases ht : Text.lines t with
  | nil => exact absurd ht (List.splitOn_ne_nil _ _)
  | cons first others => exact ⟨first, others, rfl, by rw [hcons, ht]; rfl⟩

theorem lines_append {s first : Text} {others : List Text} (hs : 0x0A ∉ s)
    (h : Text.lines p = first :: others) : Text.lines (s ++ p) = (s ++ first) :: others := by
  induction s with
  | nil => exact h
  | cons u s ih =>
      rw [List.mem_cons, not_or] at hs
      obtain ⟨first', others', hs', hcons⟩ := exists_lines_cons (Ne.symm hs.1) (s ++ p)
      rw [ih hs.2] at hs'
      obtain ⟨rfl, rfl⟩ := List.cons.inj hs'
      exact hcons

/-- At a place a line has `n` spaces for each container that is open at the unit after them, which
is no space; if that unit closes a container, this one counts as closed. -/
def Indented (n : Nat) (q : Place) (line : Text) : Prop :=
  ∃ k u rest, line = List.replicate (n * k) 0x20 ++ u :: rest ∧ u ≠ 0x20 ∧
    k = (q.behind (List.replicate (n * k) 0x20 ++ if closes u then [u] else [])).depth

theorem indented_spaces (n d : Nat) (hu : u ≠ 0x20) (rest : Text) :
    Indented n (outside d)
      (List.replicate (n * if closes u then d - 1 else d) 0x20 ++ u :: rest) := by
  refine ⟨_, u, rest, rfl, hu, ?_⟩
  rw [behind_append, behind_spaces _ _ rfl]
  split
  · next h =>
      simp only [closes, Bool.or_eq_true, decide_eq_true_eq] at h
      rcases h with rfl | rfl <;> rfl
  · rfl

/-- Each of the lines behind a place is indented. -/
def AllIndented (n : Nat) : Place → List Text → Prop
  | _, [] => True
  | q, line :: ls => Indented n q line ∧ AllIndented n (q.behind (line ++ [0x0A])) ls

theorem AllIndented.line {q : Place} {ls ls' : List Text} {line : Text}
    (h : AllIndented n q (ls ++ line :: ls')) :
    Indented n (q.behind (ls.flatMap (· ++ [0x0A]))) line := by
  induction ls generalizing q with
  | nil => exact h.1
  | cons l ls ih =>
      rw [List.flatMap_cons, behind_append]
      exact ih h.2

/-- Behind the first line there are as many lines as line breaks, and each of them is indented. -/
theorem Laid.lines (h : Laid n d p c b) :
    ∃ first others, Text.lines p = first :: others ∧ others.length = b ∧
      AllIndented n ((outside d).behind (first ++ [0x0A])) others := by
  induction h with
  | nil => exact ⟨[], [], rfl, rfl, trivial⟩
  | part h _ ih =>
      obtain ⟨first, others, hp, hb, hall⟩ := ih
      refine ⟨_, others, lines_append h.oneLine hp, hb, ?_⟩
      rwa [List.append_assoc, behind_append, h.behind]
  | space _ ih =>
      obtain ⟨first, others, hp, hb, hall⟩ := ih
      exact ⟨_, others, lines_append (s := [0x20]) (by decide) hp, hb, hall⟩
  | @line d b u p c hs hl _ ih =>
      obtain ⟨first, others, hp, hb, hall⟩ := ih
      obtain ⟨first', others', -, hcons⟩ := exists_lines_cons hl p
      obtain ⟨rfl, rfl⟩ := List.cons.inj (hp.symm.trans hcons)
      have hspaces : (0x0A : CodeUnit) ∉
          List.replicate (n * if closes u then d - 1 else d) (0x20 : CodeUnit) := fun hm =>
        absurd (List.eq_of_mem_replicate hm) (by decide)
      refine ⟨[], _, (lines_lineFeed _).trans (congrArg _ (lines_append hspaces hp)),
        congrArg (· + 1) hb, indented_spaces n d hs first', ?_⟩
      rwa [List.append_assoc, behind_append, behind_spaces _ _ rfl]

end

/-! ### Trees -/

namespace Json

/-- How many line breaks a container has for itself. -/
def ownBreaks (items : Nat) : Nat := if items = 0 then 0 else items + 1

theorem ownBreaks_succ (items : Nat) : ownBreaks (items + 1) = items + 2 :=
  if_neg (Nat.succ_ne_zero items)

mutual

/-- Over all containers that are not empty, the number of items and one more. -/
def lineBreaks : Json → Nat
  | array xs => ownBreaks xs.length + lineBreaksElements xs
  | object ms => ownBreaks ms.length + lineBreaksMembers ms
  | _ => 0

def lineBreaksElements : List Json → Nat
  | [] => 0
  | x :: xs => lineBreaks x + lineBreaksElements xs

def lineBreaksMembers : List (Text × Json) → Nat
  | [] => 0
  | (_, x) :: ms => lineBreaks x + lineBreaksMembers ms

end

end Json

section Trees

open Place

variable {n d d' b : Nat} {p c : Text} {u : CodeUnit} {v : Json}

/-- A text that starts with a unit that is no blank and closes nothing. -/
def StartsItem (p : Text) : Prop :=
  ∃ u s, p = u :: s ∧ u ≠ 0x20 ∧ u ≠ 0x0A ∧ closes u = false

theorem startsItem_writeTo (hv : v.NumbersValid) (o : WriteOptions) (level : Nat) (rest : Text) :
    StartsItem (v.writeTo o level rest) := by
  obtain ⟨u, s, hs, hu⟩ := exists_lead hv o level rest
  refine ⟨u, s, hs, ?_, ?_, ?_⟩
  · rintro rfl
    cases hu
  · rintro rfl
    cases hu
  · rw [closes, Bool.or_eq_false_iff, decide_eq_false_iff_not, decide_eq_false_iff_not]
    constructor <;> (rintro rfl; cases hu)

/-- The line of an item. -/
theorem laid_lineBreak (m : Nat) (f : Bool) (hp : StartsItem p) (h : Laid n d p c b) :
    Laid n d (WriteOptions.lineBreak ⟨true, n, f⟩ d p) (WriteOptions.lineBreak ⟨false, m, f⟩ d c)
      (b + 1) := by
  obtain ⟨u, s, rfl, hs, hl, hu⟩ := hp
  have hline := Laid.line hs hl h
  rw [if_neg (by rw [hu]; decide), Nat.mul_comm] at hline
  exact hline

/-- The brackets that open a container, and those that close one. -/
theorem part_open (d : Nat) (hu : u = 0x5B ∨ u = 0x7B) :
    Part (outside d) [u] (outside (d + 1)) := by
  rcases hu with rfl | rfl <;> exact part_unit rfl (by decide) rfl

theorem part_close (d : Nat) (hu : u = 0x5D ∨ u = 0x7D) :
    Part (outside (d + 1)) [u] (outside d) := by
  rcases hu with rfl | rfl <;> exact part_unit rfl (by decide) rfl

/-- The line of a closing bracket, which belongs to the container around it. -/
theorem laid_close (m : Nat) (f : Bool) (hu : u = 0x5D ∨ u = 0x7D) (h : Laid n d p c b) :
    Laid n (d + 1) (WriteOptions.lineBreak ⟨true, n, f⟩ d (u :: p))
      (WriteOptions.lineBreak ⟨false, m, f⟩ d (u :: c)) (b + 1) := by
  have hline := Laid.line (by rcases hu with rfl | rfl <;> decide)
    (by rcases hu with rfl | rfl <;> decide) (h.unit (part_close d hu))
  rw [if_pos (by rcases hu with rfl | rfl <;> rfl), Nat.mul_comm] at hline
  exact hline

/-- The opening bracket of a container, its first item and all that follows. -/
theorem laid_open (m : Nat) (f : Bool) (hu : u = 0x5B ∨ u = 0x7B) (hp : StartsItem p)
    (h : Laid n (d + 1) p c b) :
    Laid n d (u :: WriteOptions.lineBreak ⟨true, n, f⟩ (d + 1) p)
      (u :: WriteOptions.lineBreak ⟨false, m, f⟩ (d + 1) c) (b + 1) :=
  (laid_lineBreak m f hp h).unit (part_open d hu)

theorem laid_comma (m : Nat) (f : Bool) (hp : StartsItem p) (h : Laid n d p c b) :
    Laid n d (0x2C :: WriteOptions.lineBreak ⟨true, n, f⟩ d p)
      (0x2C :: WriteOptions.lineBreak ⟨false, m, f⟩ d c) (b + 1) :=
  (laid_lineBreak m f hp h).unit (part_unit rfl (by decide) rfl)

theorem laid_quoted (m : Nat) (f : Bool) (t : Text) (h : Laid n d p c b) :
    Laid n d (WriteOptions.quoted ⟨true, n, f⟩ t p) (WriteOptions.quoted ⟨false, m, f⟩ t c) b := by
  have hquoted := Laid.part (part_quoted f t d) h
  simp only [List.cons_append, List.append_assoc, List.nil_append] at hquoted
  exact hquoted

theorem laid_label (m : Nat) (f : Bool) (key : Text) (h : Laid n d p c b) :
    Laid n d (WriteOptions.label ⟨true, n, f⟩ key p) (WriteOptions.label ⟨false, m, f⟩ key c) b :=
  laid_quoted m f key (h.space.unit (u := 0x3A) (part_unit rfl (by decide) rfl))

theorem laid_word {s : Text} (h : s.all inert = true) (t : Laid n d p c b) :
    Laid n d (s ++ p) (s ++ c) (0 + b) := by
  rw [Nat.zero_add]
  exact .part (part_inert d (List.all_eq_true.mp h)) t

/-- A bracket pair with nothing between. -/
theorem laid_empty {u' : CodeUnit} (hu : u = 0x5B ∨ u = 0x7B) (hu' : u' = 0x5D ∨ u' = 0x7D)
    (h : Laid n d p c b) : Laid n d (u :: u' :: p) (u :: u' :: c) (0 + b) := by
  rw [Nat.zero_add]
  exact (h.unit (part_close d hu')).unit (part_open d hu)

theorem inert_of_numberUnit (h : numberUnit u = true) : inert u = true := by
  simp only [inert, Bool.not_eq_true', Bool.or_eq_false_iff, beq_eq_false_iff_ne]
  refine ⟨⟨⟨⟨⟨⟨?_, ?_⟩, ?_⟩, ?_⟩, ?_⟩, ?_⟩, ?_⟩ <;> (rintro rfl; cases h)

mutual

/-- A tree is laid out in front of what is laid out. -/
theorem laid_writeTo (n m : Nat) (f : Bool) : (v : Json) → v.NumbersValid →
    ∀ {d b : Nat} {p c : Text}, Laid n d p c b →
      Laid n d (v.writeTo ⟨true, n, f⟩ d p) (v.writeTo ⟨false, m, f⟩ d c) (v.lineBreaks + b)
  | .null, _, _, _, _, _, h => laid_word rfl h
  | .bool true, _, _, _, _, _, h => laid_word rfl h
  | .bool false, _, _, _, _, _, h => laid_word rfl h
  | .number _, hv, _, _, _, _, h =>
      laid_word (List.all_eq_true.mpr fun u hu =>
        inert_of_numberUnit (IsLiteral.numberUnit hv u hu)) h
  | .string t, _, _, b, _, _, h => by
      rw [Json.lineBreaks, Nat.zero_add]
      · exact laid_quoted m f t h
      all_goals exact fun _ h => nomatch h
  | .array [], _, _, _, _, _, h => laid_empty (.inl rfl) (.inl rfl) h
  | .array (x :: xs), hv, d, b, _, _, h => by
      have hitems := laid_writeTo n m f x hv.1 (laid_writeElements n m f xs hv.2
        (laid_close m f (.inl rfl) h))
      have hbreaks : (Json.array (x :: xs)).lineBreaks + b = x.lineBreaks +
          (xs.length + Json.lineBreaksElements xs + (b + 1)) + 1 := by
        simp only [Json.lineBreaks, Json.lineBreaksElements, List.length_cons, Json.ownBreaks_succ]
        omega
      rw [hbreaks]
      exact laid_open m f (.inl rfl) (startsItem_writeTo hv.1 _ _ _) hitems
  | .object [], _, _, _, _, _, h => laid_empty (.inr rfl) (.inr rfl) h
  | .object ((k, x) :: ms), hv, d, b, p, c, h => by
      have hitems := laid_label m f k (laid_writeTo n m f x hv.2.1
        (laid_writeMembers n m f ms hv.2.2 (laid_close m f (.inr rfl) h)))
      have hbreaks : (Json.object ((k, x) :: ms)).lineBreaks + b = x.lineBreaks +
          (ms.length + Json.lineBreaksMembers ms + (b + 1)) + 1 := by
        simp only [Json.lineBreaks, Json.lineBreaksMembers, List.length_cons, Json.ownBreaks_succ]
        omega
      rw [hbreaks]
      exact laid_open m f (.inr rfl) ⟨_, _, rfl, by decide, by decide, rfl⟩ hitems

theorem laid_writeElements (n m : Nat) (f : Bool) : (xs : List Json) →
    Json.EachTextOfElements IsLiteral (fun _ => True) xs →
    ∀ {d b : Nat} {p c : Text}, Laid n d p c b →
      Laid n d (Json.writeElements ⟨true, n, f⟩ d xs p) (Json.writeElements ⟨false, m, f⟩ d xs c)
        (xs.length + Json.lineBreaksElements xs + b)
  | [], _, _, _, _, _, h => by
      rw [List.length_nil, Json.lineBreaksElements, Nat.zero_add]
      exact h
  | x :: xs, hv, d, b, _, _, h => by
      have hitems := laid_writeTo n m f x hv.1 (laid_writeElements n m f xs hv.2 h)
      have hbreaks : (x :: xs).length + Json.lineBreaksElements (x :: xs) + b =
          x.lineBreaks + (xs.length + Json.lineBreaksElements xs + b) + 1 := by
        rw [List.length_cons, Json.lineBreaksElements]
        omega
      rw [hbreaks]
      exact laid_comma m f (startsItem_writeTo hv.1 _ _ _) hitems

theorem laid_writeMembers (n m : Nat) (f : Bool) : (ms : List (Text × Json)) →
    Json.EachTextOfMembers IsLiteral (fun _ => True) ms →
    ∀ {d b : Nat} {p c : Text}, Laid n d p c b →
      Laid n d (Json.writeMembers ⟨true, n, f⟩ d ms p) (Json.writeMembers ⟨false, m, f⟩ d ms c)
        (ms.length + Json.lineBreaksMembers ms + b)
  | [], _, _, _, _, _, h => by
      rw [List.length_nil, Json.lineBreaksMembers, Nat.zero_add]
      exact h
  | (k, x) :: ms, hv, d, b, _, _, h => by
      have hitems := laid_label m f k (laid_writeTo n m f x hv.2.1
        (laid_writeMembers n m f ms hv.2.2 h))
      have hbreaks : ((k, x) :: ms).length + Json.lineBreaksMembers ((k, x) :: ms) + b =
          x.lineBreaks + (ms.length + Json.lineBreaksMembers ms + b) + 1 := by
        rw [List.length_cons, Json.lineBreaksMembers]
        omega
      rw [hbreaks]
      exact laid_comma m f ⟨_, _, rfl, by decide, by decide, rfl⟩ hitems

end

/-- **The layout of a tree.**  A text in lines, without the spaces and line feeds that lie outside
its string literals, is the text without blanks.  It has one line and, for every container that is
not empty, one more for each item and one for the closing bracket.  Every line has as many
indentations as containers are open at what is on it, and then something that is no space; behind an
indentation, a closing bracket counts as read. -/
theorem Json.write_lines (hv : v.NumbersValid) (n m : Nat) (f : Bool) :
    (outside 0).erase (v.write ⟨true, n, f⟩) = v.write ⟨false, m, f⟩ ∧
      (Text.lines (v.write ⟨true, n, f⟩)).length = 1 + v.lineBreaks ∧
      ∀ before line behind, Text.lines (v.write ⟨true, n, f⟩) = before ++ line :: behind →
        Indented n ((outside 0).behind (before.flatMap (· ++ [0x0A]))) line := by
  have hlaid : Laid n 0 (v.write ⟨true, n, f⟩) (v.write ⟨false, m, f⟩) (v.lineBreaks + 0) :=
    laid_writeTo n m f v hv .nil
  obtain ⟨first, others, hlines, hlength, hall⟩ := hlaid.lines
  have hfirst : Indented n (outside 0) first := by
    obtain ⟨u, s, hs, hspace, hline, hu⟩ := startsItem_writeTo hv ⟨true, n, f⟩ 0 []
    obtain ⟨rest, others', -, hcons⟩ := exists_lines_cons hline s
    rw [Json.write, hs, hcons] at hlines
    have hstart := indented_spaces n 0 hspace rest
    rw [hu, if_neg Bool.false_ne_true, Nat.mul_zero] at hstart
    rwa [← (List.cons.inj hlines).1]
  refine ⟨hlaid.erase, ?_, fun before line behind hlocated => ?_⟩
  · rw [hlines, List.length_cons, hlength]
    omega
  · have hindented : AllIndented n (outside 0) (before ++ line :: behind) := by
      rw [← hlocated, hlines]
      exact ⟨hfirst, hall⟩
    exact hindented.line

/-- An object whose texts have brackets, quotes and line feeds in them, and which holds an empty
object beside an array that is not. -/
def bracketed : Json :=
  .object [(Text.ofString "] ,", .array [.number [0x30], .string (Text.ofString "\"\n \\")]),
    (Text.ofString "/", .object [])]

/-- It is written in seven lines. -/
theorem Json.write_lines_bracketed :
    bracketed.NumbersValid ∧
      (outside 0).erase (bracketed.write ⟨true, 3, true⟩) = bracketed.write ⟨false, 2, true⟩ ∧
      (Text.lines (bracketed.write ⟨true, 3, true⟩)).length = 7 ∧
      ∀ before line behind,
        Text.lines (bracketed.write ⟨true, 3, true⟩) = before ++ line :: behind →
          Indented 3 ((outside 0).behind (before.flatMap (· ++ [0x0A]))) line := by
  have hv : bracketed.NumbersValid :=
    ⟨trivial, ⟨⟨[0x30], .mk (.inl rfl) .zero .none .none, rfl⟩, trivial, trivial⟩,
      trivial, trivial, trivial⟩
  obtain ⟨herase, hlength, hindented⟩ := Json.write_lines hv 3 2 true
  exact ⟨hv, herase, hlength, hindented⟩

end Trees

end JsonDocument
