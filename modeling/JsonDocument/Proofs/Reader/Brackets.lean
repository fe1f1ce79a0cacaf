import JsonDocument.Proofs.Reader.Quoted

/-!
# Proofs — Reader — brackets

A look at the brackets of an input, on its own: it tells string literals from what is around them
and counts the containers that are open, and knows nothing of values.

* `OpensAt`, `FirstOpensAt`: a bracket at which so many containers are open already.
* `Passes`: bytes that lead from one place to another, with no more than `d` containers open at any
  place between.
* `passes_value`: a value leads back to the place where it starts, and on the way there are open no
  more containers than its nesting.
-/

namespace JsonDocument

/-- What the bytes in front of a place tell of it: whether it is outside string literals, within
one, or behind a backslash in one, and how many containers are open. -/
inductive Place where
  | outside (depth : Nat)
  | inside (depth : Nat)
  | escaped (depth : Nat)
  deriving DecidableEq

namespace Place

def depth : Place → Nat
  | outside n | inside n | escaped n => n

/-- The place behind one more byte. -/
def next : Place → UInt8 → Place
  | outside n, b =>
      if b = 0x22 then inside n
      else if b = 0x5B ∨ b = 0x7B then outside (n + 1)
      else if b = 0x5D ∨ b = 0x7D then outside (n - 1)
      else outside n
  | inside n, b => if b = 0x22 then outside n else if b = 0x5C then escaped n else inside n
  | escaped n, _ => inside n

/-- The place behind the bytes `s`. -/
def after (q : Place) (s : Bytes) : Place := s.foldl next q

theorem after_append (q : Place) (x y : Bytes) : q.after (x ++ y) = (q.after x).after y :=
  List.foldl_append

/-- A byte that is neither a quote nor a bracket. -/
def Plain (b : UInt8) : Prop := b ∉ [0x22, 0x5B, 0x7B, 0x5D, 0x7D]

instance (b : UInt8) : Decidable (Plain b) := inferInstanceAs (Decidable (_ ∉ _))

theorem next_outside {b : UInt8} (h : Plain b) (n : Nat) : (outside n).next b = outside n := by
  simp only [Plain, List.mem_cons, List.not_mem_nil, or_false, not_or] at h
  obtain ⟨h₁, h₂, h₃, h₄, h₅⟩ := h
  rw [next, if_neg h₁, if_neg (not_or.mpr ⟨h₂, h₃⟩), if_neg (not_or.mpr ⟨h₄, h₅⟩)]

theorem next_inside {b : UInt8} (h : Reader.isRaw b = true) (n : Nat) :
    (inside n).next b = inside n := by
  obtain ⟨-, h₁, h₂⟩ := Reader.isRaw_iff.mp h
  rw [next, if_neg (mt Utf8.eq_iff_toNat.mp h₁), if_neg (mt Utf8.eq_iff_toNat.mp h₂)]

end Place

/-- At `p` there is an opening bracket outside string literals, with `n` containers open. -/
def OpensAt (n : Nat) (b : Bytes) (p : Nat) : Prop :=
  (b[p]? = some 0x5B ∨ b[p]? = some 0x7B) ∧ (Place.outside 0).after (b.take p) = .outside n

/-- The first such place. -/
def FirstOpensAt (n : Nat) (b : Bytes) (p : Nat) : Prop :=
  OpensAt n b p ∧ ∀ i < p, ¬ OpensAt n b i

instance (n : Nat) (b : Bytes) (p : Nat) : Decidable (OpensAt n b p) :=
  inferInstanceAs (Decidable (_ ∧ _))

instance (n : Nat) (b : Bytes) (p : Nat) : Decidable (FirstOpensAt n b p) :=
  inferInstanceAs (Decidable (_ ∧ _))

theorem FirstOpensAt.unique {n p q : Nat} {b : Bytes} (h : FirstOpensAt n b p)
    (h' : FirstOpensAt n b q) : p = q := by
  rcases Nat.lt_trichotomy p q with hlt | heq | hlt
  · exact absurd h.1 (h'.2 p hlt)
  · exact heq
  · exact absurd h'.1 (h.2 q hlt)

/-! ### Passing over bytes -/

/-- The bytes lead from one place to another, and no more than `d` containers are open between. -/
inductive Passes (d : Nat) : Place → Bytes → Place → Prop where
  | nil {q : Place} (h : q.depth ≤ d) : Passes d q [] q
  | cons {q q' : Place} {b : UInt8} {s : Bytes} (h : q.depth ≤ d) (t : Passes d (q.next b) s q') :
      Passes d q (b :: s) q'

variable {d n : Nat} {p q q' : Place} {s x y : Bytes} {v : Json}

theorem Passes.append (h : Passes d p x q) (h' : Passes d q y q') : Passes d p (x ++ y) q' := by
  induction h with
  | nil _ => exact h'
  | cons hd _ ih => exact .cons hd (ih h')

theorem Passes.after (h : Passes d q s q') : q.after s = q' := by
  induction h with
  | nil _ => rfl
  | cons _ _ ih => exact ih

theorem Passes.depth_le (h : Passes d q (x ++ y) q') : (q.after x).depth ≤ d := by
  induction x generalizing q with
  | nil =>
      cases h with
      | nil h => exact h
      | cons h _ => exact h
  | cons b x ih =>
      cases h with
      | cons _ t => exact ih t

/-- Behind bytes that lead to a place with `d` containers open, a bracket is the first to open
another. -/
theorem Passes.firstOpensAt {b : UInt8} (h : Passes d (.outside 0) x (.outside d))
    (hb : b = 0x5B ∨ b = 0x7B) : FirstOpensAt d (x ++ b :: y) x.length := by
  refine ⟨⟨?_, ?_⟩, fun i hi ⟨hbi, hpi⟩ => ?_⟩
  · rw [List.getElem?_append_right (Nat.le_refl _), Nat.sub_self]
    exact hb.imp (congrArg some) (congrArg some)
  · rw [List.take_left]
    exact h.after
  · -- a bracket in front of it would have opened one too many
    rw [List.getElem?_append_left hi, List.getElem?_eq_getElem hi] at hbi
    rw [List.take_append_of_le_length (Nat.le_of_lt hi)] at hpi
    have hx : x = x.take i ++ [x[i]] ++ x.drop (i + 1) := by simp
    rw [hx] at h
    have hdeep := h.depth_le
    rw [Place.after_append, hpi] at hdeep
    rcases hbi with hbi | hbi <;> rw [Option.some.injEq] at hbi <;> rw [hbi] at hdeep
    · exact Nat.not_succ_le_self d hdeep
    · exact Nat.not_succ_le_self d hdeep

/-- Bytes that change nothing about the place. -/
theorem passes_of_forall (hq : q.depth ≤ d) (h : ∀ b ∈ s, q.next b = q) : Passes d q s q := by
  induction s with
  | nil => exact .nil hq
  | cons b s ih =>
      obtain ⟨hb, hs⟩ := List.forall_mem_cons.mp h
      exact .cons hq (hb.symm ▸ ih hs)

theorem passes_plain (hn : n ≤ d) (h : ∀ b ∈ s, Place.Plain b) :
    Passes d (.outside n) s (.outside n) :=
  passes_of_forall hn fun b hb => Place.next_outside (h b hb) n

theorem passes_raw (hn : n ≤ d) (h : ∀ b ∈ s, Reader.isRaw b = true) :
    Passes d (.inside n) s (.inside n) :=
  passes_of_forall hn fun b hb => Place.next_inside (h b hb) n

namespace Grammar

variable {t u : Text}

/-! ### Blanks and numbers -/

theorem passes_blank (hn : n ≤ d) (h : Blank s) : Passes d (.outside n) s (.outside n) :=
  passes_plain hn fun b hb => by rcases h b hb with rfl | rfl | rfl | rfl <;> decide

theorem passes_number (hn : n ≤ d) (h : IsNumber s) : Passes d (.outside n) s (.outside n) := by
  refine passes_plain hn (h.forall_mem (fun b hb => ?_) (by simp [Place.Plain]))
  intro hm
  simp only [List.mem_cons, List.not_mem_nil, or_false] at hm
  rcases hm with rfl | rfl | rfl | rfl | rfl <;> exact absurd hb (by decide)

/-! ### Strings -/

theorem HexDigit.isRaw {b : UInt8} {i : Nat} (h : HexDigit b i) : Reader.isRaw b = true := by
  cases h with
  | decimal h =>
      exact (by decide : ∀ i : Fin 10, Reader.isRaw (UInt8.ofNat (0x30 + i)) = true) ⟨i, h⟩
  | lower h₁ h₂ =>
      exact (by decide : ∀ i : Fin 16, 10 ≤ i.val →
        Reader.isRaw (UInt8.ofNat (0x61 + (i - 10))) = true) ⟨i, h₂⟩ h₁
  | upper h₁ h₂ =>
      exact (by decide : ∀ i : Fin 16, 10 ≤ i.val →
        Reader.isRaw (UInt8.ofNat (0x41 + (i - 10))) = true) ⟨i, h₂⟩ h₁

theorem passes_hexUnit {c : CodeUnit} (hn : n ≤ d) (h : HexUnit s c) :
    Passes d (.inside n) s (.inside n) := by
  cases h with
  | mk ha hb hc hd =>
      exact passes_raw hn (by simp [ha.isRaw, hb.isRaw, hc.isRaw, hd.isRaw])

theorem passes_escape (hn : n ≤ d) (h : Escape s u) : Passes d (.escaped n) s (.inside n) := by
  cases h with
  | short _ => exact .cons hn (.nil hn)
  | unit h _ => exact .cons hn (passes_hexUnit hn h)
  | pair h _ h' _ =>
      exact .cons hn ((passes_hexUnit hn h).append (.cons hn (.cons hn (passes_hexUnit hn h'))))

theorem passes_body (hn : n ≤ d) (h : Body s t) : Passes d (.inside n) s (.inside n) := by
  induction h with
  | nil => exact .nil hn
  | raw hc _ ih => exact (passes_raw hn ((Reader.raw_iff hc.1).mp hc)).append ih
  | escape hx _ ih => exact .cons hn ((passes_escape hn hx).append ih)

theorem passes_quoted (hn : n ≤ d) (h : Quoted s t) : Passes d (.outside n) s (.outside n) := by
  cases h with
  | mk h => exact .cons hn ((passes_body hn h).append (.cons hn (.nil hn)))

theorem passes_label (hn : n ≤ d) (h : Label s t) : Passes d (.outside n) s (.outside n) := by
  cases h with
  | mk hw hk hw' =>
      exact (((passes_blank hn hw).append (passes_quoted hn hk)).append (passes_blank hn hw')).append
        (.cons hn (.nil hn))

/-! ### Values -/

/-- Between brackets there is one container more. -/
theorem passes_bracketed {b b' : UInt8} (hn : n + 1 ≤ d) (hb : b = 0x5B ∨ b = 0x7B)
    (hb' : b' = 0x5D ∨ b' = 0x7D) (h : Passes d (.outside (n + 1)) s (.outside (n + 1))) :
    Passes d (.outside n) (b :: s ++ [b']) (.outside n) := by
  refine .cons (Nat.le_of_succ_le hn) (Passes.append ?_ (q := .outside (n + 1)) ?_)
  · rcases hb with rfl | rfl <;> exact h
  · refine .cons hn ?_
    rcases hb' with rfl | rfl <;> exact .nil (Nat.le_of_succ_le hn)

theorem passes_comma (hn : n ≤ d) (h : Passes d (.outside n) x (.outside n))
    (h' : Passes d (.outside n) y (.outside n)) :
    Passes d (.outside n) (x ++ 0x2C :: y) (.outside n) :=
  h.append (.cons hn h')

mutual

/-- The containers that are open in a value are those around it and those of its nesting. -/
theorem passes_value {n : Nat} {s : Bytes} {v : Json} :
    Value s v → n + v.nesting ≤ d → Passes d (.outside n) s (.outside n)
  | .null, hn => passes_plain hn (by simp [Place.Plain, nullWord])
  | .true, hn => passes_plain hn (by simp [Place.Plain, trueWord])
  | .false, hn => passes_plain hn (by simp [Place.Plain, falseWord])
  | .number h, hn => passes_number hn h
  | .string h, hn => passes_quoted hn h
  | .emptyArray hw, hn => passes_bracketed hn (.inl rfl) (.inl rfl) (passes_blank hn hw)
  | .array h, hn =>
      passes_bracketed (by simp only [Json.nesting] at hn; omega) (.inl rfl) (.inl rfl)
        (passes_elements h (by simp only [Json.nesting] at hn; omega))
  | .emptyObject hw, hn => passes_bracketed hn (.inr rfl) (.inr rfl) (passes_blank hn hw)
  | .object h, hn =>
      passes_bracketed (by simp only [Json.nesting] at hn; omega) (.inr rfl) (.inr rfl)
        (passes_members h (by simp only [Json.nesting] at hn; omega))

theorem passes_element {n : Nat} {s : Bytes} {v : Json} :
    Element s v → n + v.nesting ≤ d → Passes d (.outside n) s (.outside n)
  | .mk hw h hw', hn =>
      have hle : n ≤ d := Nat.le_trans (Nat.le_add_right _ _) hn
      ((passes_blank hle hw).append (passes_value h hn)).append (passes_blank hle hw')

theorem passes_elements {n : Nat} {s : Bytes} {xs : List Json} :
    Elements s xs → n + Json.nestingElements xs ≤ d → Passes d (.outside n) s (.outside n)
  | .one h, hn => passes_element h (by simp only [Json.nestingElements] at hn; omega)
  | .cons h h', hn =>
      passes_comma (by omega)
        (passes_element h (by simp only [Json.nestingElements] at hn; omega))
        (passes_elements h' (by simp only [Json.nestingElements] at hn; omega))

theorem passes_members {n : Nat} {s : Bytes} {ms : List (Text × Json)} :
    Members s ms → n + Json.nestingMembers ms ≤ d → Passes d (.outside n) s (.outside n)
  | .one hk h, hn =>
      (passes_label (by omega) hk).append
        (passes_element h (by simp only [Json.nestingMembers] at hn; omega))
  | .cons hk h h', hn =>
      passes_comma (by omega)
        ((passes_label (by omega) hk).append
          (passes_element h (by simp only [Json.nestingMembers] at hn; omega)))
        (passes_members h' (by simp only [Json.nestingMembers] at hn; omega))

end

end Grammar

end JsonDocument
