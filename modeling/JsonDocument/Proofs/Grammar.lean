import JsonDocument.Json
import JsonDocument.Proofs.Text.Utf8

/-!
# Proofs — Grammar

The grammar of documents, on its own: which byte sequences are a document, and of which tree.  It
says nothing of how a document is read.

* `Grammar.IsNumber`: a sign, an integer without leading zeros, a fraction and an exponent.
* `Grammar.Body`: the characters of a string, each raw or escaped, and the text they spell.
* `Grammar.Value`, `Grammar.Element`: a value, and a value with blanks around it.  Members and
  elements come in the order in which they are written, repeated keys stay, and every comma has
  something after it.
* `Grammar.Document`: one value, with blanks around it and nothing else.
-/

namespace JsonDocument.Grammar

/-! ### Blanks and words -/

/-- Space, tab, line feed and carriage return. -/
def Blank (w : Bytes) : Prop := ∀ b ∈ w, b = 0x20 ∨ b = 0x09 ∨ b = 0x0A ∨ b = 0x0D

def nullWord : Bytes := [0x6E, 0x75, 0x6C, 0x6C]
def trueWord : Bytes := [0x74, 0x72, 0x75, 0x65]
def falseWord : Bytes := [0x66, 0x61, 0x6C, 0x73, 0x65]

/-! ### Numbers -/

def IsDigit (b : UInt8) : Prop := 0x30 ≤ b ∧ b ≤ 0x39

instance (b : UInt8) : Decidable (IsDigit b) := inferInstanceAs (Decidable (_ ∧ _))

/-- Digits, one at least. -/
def Digits (ds : Bytes) : Prop := ds ≠ [] ∧ ∀ b ∈ ds, IsDigit b

/-- A zero by itself, or digits that do not start with zero. -/
inductive Integer : Bytes → Prop where
  | zero : Integer [0x30]
  | digits {ds : Bytes} (h : Digits ds) (h₀ : ds.head? ≠ some 0x30) : Integer ds

/-- A point and digits, or nothing. -/
inductive Fraction : Bytes → Prop where
  | none : Fraction []
  | some {ds : Bytes} (h : Digits ds) : Fraction (0x2E :: ds)

/-- A plus, a minus or nothing. -/
def Sign (g : Bytes) : Prop := g = [] ∨ g = [0x2B] ∨ g = [0x2D]

/-- The letter `e` of either case, a sign and digits, or nothing. -/
inductive Exponent : Bytes → Prop where
  | none : Exponent []
  | some {e : UInt8} {g ds : Bytes} (he : e = 0x65 ∨ e = 0x45) (hg : Sign g) (h : Digits ds) :
      Exponent (e :: g ++ ds)

/-- The literal of a number. -/
inductive IsNumber : Bytes → Prop where
  | mk {m i f e : Bytes} (hm : m = [] ∨ m = [0x2D]) (hi : Integer i) (hf : Fraction f)
      (he : Exponent e) : IsNumber (m ++ i ++ f ++ e)

/-- The code units of ASCII bytes. -/
def asciiText (s : Bytes) : Text := s.map UInt8.toUInt16

/-! ### Strings -/

/-- The letters of the short escapes with the units they stand for. -/
def shortEscapes : List (UInt8 × CodeUnit) :=
  [(0x22, 0x22), (0x5C, 0x5C), (0x2F, 0x2F), (0x62, 0x08), (0x66, 0x0C), (0x6E, 0x0A), (0x72, 0x0D),
    (0x74, 0x09)]

/-- A hexadecimal digit of either case and its value. -/
inductive HexDigit : UInt8 → Nat → Prop where
  | decimal {n : Nat} (h : n < 10) : HexDigit (UInt8.ofNat (0x30 + n)) n
  | lower {n : Nat} (h₁ : 10 ≤ n) (h₂ : n < 16) : HexDigit (UInt8.ofNat (0x61 + (n - 10))) n
  | upper {n : Nat} (h₁ : 10 ≤ n) (h₂ : n < 16) : HexDigit (UInt8.ofNat (0x41 + (n - 10))) n

/-- Four hexadecimal digits and the unit they name. -/
inductive HexUnit : Bytes → CodeUnit → Prop where
  | mk {a b c d : UInt8} {i j k l : Nat} (ha : HexDigit a i) (hb : HexDigit b j)
      (hc : HexDigit c k) (hd : HexDigit d l) :
      HexUnit [a, b, c, d] (UInt16.ofNat (i * 0x1000 + j * 0x100 + k * 0x10 + l))

/-- An escape without its backslash, and what it stands for.  The first half of a pair goes with
the second; a second half may stand alone. -/
inductive Escape : Bytes → Text → Prop where
  | short {b : UInt8} {u : CodeUnit} (h : (b, u) ∈ shortEscapes) : Escape [b] [u]
  | unit {x : Bytes} {u : CodeUnit} (h : HexUnit x u) (hu : ¬ u.isHigh) : Escape (0x75 :: x) [u]
  | pair {x y : Bytes} {u v : CodeUnit} (h : HexUnit x u) (hu : u.isHigh) (h' : HexUnit y v)
      (hv : v.isLow) : Escape (0x75 :: x ++ 0x5C :: 0x75 :: y) [u, v]

/-- A character that may stand for itself: no control character, quote or backslash. -/
def Raw (c : Nat) : Prop := IsScalarValue c ∧ 0x20 ≤ c ∧ c ≠ 0x22 ∧ c ≠ 0x5C

/-- What stands between the quotes of a string, and the text it spells. -/
inductive Body : Bytes → Text → Prop where
  | nil : Body [] []
  | raw {c : Nat} {s : Bytes} {t : Text} (hc : Raw c) (h : Body s t) :
      Body (Utf8.encodePoint c ++ s) (Text.ofCodePoint c ++ t)
  | escape {x s : Bytes} {u t : Text} (hx : Escape x u) (h : Body s t) :
      Body (0x5C :: x ++ s) (u ++ t)

/-- A string between its quotes. -/
inductive Quoted : Bytes → Text → Prop where
  | mk {s : Bytes} {t : Text} (h : Body s t) : Quoted (0x22 :: s ++ [0x22]) t

/-! ### Values -/

/-- A key with blanks around it, and its colon. -/
inductive Label : Bytes → Text → Prop where
  | mk {w k w' : Bytes} {key : Text} (hw : Blank w) (hk : Quoted k key) (hw' : Blank w') :
      Label (w ++ k ++ w' ++ [0x3A]) key

mutual

inductive Value : Bytes → Json → Prop where
  | null : Value nullWord .null
  | true : Value trueWord (.bool Bool.true)
  | false : Value falseWord (.bool Bool.false)
  | number {s : Bytes} (h : IsNumber s) : Value s (.number (asciiText s))
  | string {s : Bytes} {t : Text} (h : Quoted s t) : Value s (.string t)
  | emptyArray {w : Bytes} (hw : Blank w) : Value (0x5B :: w ++ [0x5D]) (.array [])
  | array {s : Bytes} {xs : List Json} (h : Elements s xs) : Value (0x5B :: s ++ [0x5D]) (.array xs)
  | emptyObject {w : Bytes} (hw : Blank w) : Value (0x7B :: w ++ [0x7D]) (.object [])
  | object {s : Bytes} {ms : List (Text × Json)} (h : Members s ms) :
      Value (0x7B :: s ++ [0x7D]) (.object ms)

/-- A value with blanks around it. -/
inductive Element : Bytes → Json → Prop where
  | mk {w s w' : Bytes} {v : Json} (hw : Blank w) (h : Value s v) (hw' : Blank w') :
      Element (w ++ s ++ w') v

/-- Elements, one at least, with commas between them. -/
inductive Elements : Bytes → List Json → Prop where
  | one {s : Bytes} {x : Json} (h : Element s x) : Elements s [x]
  | cons {s s' : Bytes} {x : Json} {xs : List Json} (h : Element s x) (h' : Elements s' xs) :
      Elements (s ++ 0x2C :: s') (x :: xs)

/-- Members, one at least, with commas between them. -/
inductive Members : Bytes → List (Text × Json) → Prop where
  | one {k s : Bytes} {key : Text} {x : Json} (hk : Label k key) (h : Element s x) :
      Members (k ++ s) [(key, x)]
  | cons {k s s' : Bytes} {key : Text} {x : Json} {ms : List (Text × Json)} (hk : Label k key)
      (h : Element s x) (h' : Members s' ms) : Members (k ++ s ++ 0x2C :: s') ((key, x) :: ms)

end

/-- A whole input and its tree. -/
def Document (s : Bytes) (v : Json) : Prop := Element s v

/-! ### The bytes of a number -/

/-- A number is made of digits, signs, points and the letter `e`. -/
theorem IsNumber.forall_mem {n : Bytes} {P : UInt8 → Prop} (h : IsNumber n)
    (hd : ∀ b, IsDigit b → P b) (hs : ∀ b ∈ [0x2B, 0x2D, 0x2E, 0x45, 0x65], P b) :
    ∀ b ∈ n, P b := by
  have hds : ∀ {ds : Bytes}, Digits ds → ∀ b ∈ ds, P b := fun h b hb => hd b (h.2 b hb)
  cases h with
  | mk hm hi hf he =>
      simp only [List.forall_mem_append]
      refine ⟨⟨⟨?_, ?_⟩, ?_⟩, ?_⟩
      · rcases hm with rfl | rfl <;> simp_all
      · cases hi with
        | zero => exact List.forall_mem_singleton.mpr (hd _ (by decide))
        | digits h _ => exact hds h
      · cases hf with
        | none => simp
        | some h => exact List.forall_mem_cons.mpr ⟨hs _ (by decide), hds h⟩
      · cases he with
        | none => simp
        | some he hg h =>
            refine List.forall_mem_append.mpr ⟨List.forall_mem_cons.mpr ⟨?_, ?_⟩, hds h⟩
            · rcases he with rfl | rfl <;> exact hs _ (by decide)
            · rcases hg with rfl | rfl | rfl <;> simp_all

/-! ### Blanks at the ends -/

theorem Blank.nil : Blank [] := fun _ hb => absurd hb List.not_mem_nil

theorem Blank.append {w w' : Bytes} (h : Blank w) (h' : Blank w') : Blank (w ++ w') := by
  intro b hb
  rcases List.mem_append.mp hb with hb | hb
  · exact h b hb
  · exact h' b hb

theorem Label.blank_append {w k : Bytes} {key : Text} (hw : Blank w) (h : Label k key) :
    Label (w ++ k) key := by
  cases h with
  | mk hw₁ hq hw₂ =>
      rw [← List.append_assoc, ← List.append_assoc, ← List.append_assoc]
      exact .mk (hw.append hw₁) hq hw₂

theorem Element.of_value {s : Bytes} {v : Json} (h : Value s v) : Element s v := by
  have := Element.mk .nil h .nil
  rwa [List.nil_append, List.append_nil] at this

theorem Element.blank_append {w s : Bytes} {v : Json} (hw : Blank w) (h : Element s v) :
    Element (w ++ s) v := by
  cases h with
  | mk hw₁ h hw₂ =>
      rw [← List.append_assoc, ← List.append_assoc]
      exact .mk (hw.append hw₁) h hw₂

theorem Element.append_blank {w s : Bytes} {v : Json} (h : Element s v) (hw : Blank w) :
    Element (s ++ w) v := by
  cases h with
  | mk hw₁ h hw₂ =>
      rw [List.append_assoc]
      exact .mk hw₁ h (hw₂.append hw)

end JsonDocument.Grammar
