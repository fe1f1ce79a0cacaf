import JsonDocument.Reader.Failure
import JsonDocument.Text.Utf8

/-!
# Reader — scanners

A scanner takes the unread input.  It returns what it read together with the input that is still
unread, or says where it stopped.  Places in the input are given by what is unread there, so a
scanner's answer does not depend on how much was read before.

* `skipBlanks`: the four blank characters.
* `scanWord`: an exact word.
-/

namespace JsonDocument.Reader

/-- Where a scanner stopped and why: `found` is the unread input at the place the failure is
reported for, `unread` that at the place the reader has come to. -/
structure Stop where
  reason : Reason
  found : Bytes
  unread : Bytes
  deriving DecidableEq, Repr

/-- A value with the input after it, or a stop. -/
abbrev Scan (α : Type) := Except Stop (α × Bytes)

/-- Stops where the unread input is `s`. -/
def Stop.at (reason : Reason) (s : Bytes) : Stop := ⟨reason, s, s⟩

/-! ### Bytes -/

def isDigit (b : UInt8) : Bool := decide (0x30 ≤ b.toNat ∧ b.toNat ≤ 0x39)

/-- Space, tab, line feed and carriage return. -/
def isBlank (b : UInt8) : Bool := b = 0x20 || b = 0x09 || b = 0x0A || b = 0x0D

/-- The input from the first byte that is not blank. -/
def skipBlanks (s : Bytes) : Bytes := s.dropWhile isBlank

/-- The bytes of an ASCII word. -/
def ascii (cs : List Char) : Bytes := cs.map fun c => UInt8.ofNat c.toNat

/-- The text of ASCII bytes. -/
def textOf (s : Bytes) : Text := s.map UInt8.toUInt16

/-! ### Words -/

/-- The input after `word`, if it starts with it. -/
def after? : (word s : Bytes) → Option Bytes
  | [], s => some s
  | _ :: _, [] => none
  | w :: word, b :: s => if w = b then after? word s else none

/-- Reads the word that stands for `value`. -/
def scanWord {α : Type} (word : Bytes) (value : α) (s : Bytes) : Scan α :=
  match after? word s with
  | some r => .ok (value, r)
  | none => .error (.at .literal s)

theorem length_skipBlanks_le (s : Bytes) : (skipBlanks s).length ≤ s.length :=
  (List.dropWhile_sublist isBlank).length_le

theorem eq_append_of_after? {word s r : Bytes} (h : after? word s = some r) : s = word ++ r := by
  induction word generalizing s with
  | nil => simpa [after?] using h
  | cons w word ih =>
      cases s with
      | nil => simp [after?] at h
      | cons b s =>
          simp only [after?] at h
          split at h
          · next hb => rw [hb, ih h]; rfl
          · cases h

end JsonDocument.Reader
