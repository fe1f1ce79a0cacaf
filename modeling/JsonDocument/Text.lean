/-!
# Text — sequences of code units

A text is a list of UTF-16 code units.  Surrogates need not be paired: a text that names half a
pair is a text like any other, and every operation of the library says what becomes of it.

* `Surrogate.isHigh`, `Surrogate.isLow`: the two halves of the surrogate range.
* `Surrogate.combine`: the code point that a pair names.
* `Text.ofCodePoint`: the one or two units of a code point, the inverse of `combine`.
* `Text.toString?`: the characters of a text, if all its surrogates are paired.
-/

namespace JsonDocument

/-- One UTF-16 code unit. -/
abbrev CodeUnit := UInt16

/-- Any sequence of code units. -/
abbrev Text := List CodeUnit

/-! ### Surrogates -/

namespace Surrogate

/-- The first half of a pair: `U+D800` to `U+DBFF`. -/
def isHigh (n : Int) : Bool := decide (0xD800 ≤ n ∧ n ≤ 0xDBFF)

/-- The second half of a pair: `U+DC00` to `U+DFFF`. -/
def isLow (n : Int) : Bool := decide (0xDC00 ≤ n ∧ n ≤ 0xDFFF)

/-- The code point named by a pair.  The high half is moved up by ten places in a 32-bit word,
which changes nothing for the numbers that are code units. -/
def combine (high low : Int) : Int :=
  0x10000 + ((high - 0xD800) * 0x400).bmod 0x100000000 + (low - 0xDC00)

/-- After a high surrogate no place is lost. -/
theorem combine_of_isHigh {high : Int} (low : Int) (hh : isHigh high) :
    combine high low = 0x10000 + (high - 0xD800) * 0x400 + (low - 0xDC00) := by
  simp only [isHigh, decide_eq_true_eq] at hh
  have : ((high - 0xD800) * 0x400).bmod 0x100000000 = (high - 0xD800) * 0x400 := by
    apply Int.bmod_eq_of_le <;> omega
  simp only [combine, this]

end Surrogate

namespace CodeUnit

/-- Whether the unit opens a pair. -/
def isHigh (u : CodeUnit) : Bool := Surrogate.isHigh u.toNat

/-- Whether the unit closes a pair. -/
def isLow (u : CodeUnit) : Bool := Surrogate.isLow u.toNat

/-- The code point named by two units. -/
def pair (high low : CodeUnit) : Nat := (Surrogate.combine high.toNat low.toNat).toNat

end CodeUnit

/-! ### Texts from characters and code points -/

namespace Text

/-- The units of a code point: one in the basic plane, a pair above it. -/
def ofCodePoint (c : Nat) : Text :=
  if c < 0x10000 then [UInt16.ofNat c]
  else [UInt16.ofNat (0xD800 + (c - 0x10000) / 0x400), UInt16.ofNat (0xDC00 + (c - 0x10000) % 0x400)]

/-- The units of a list of characters. -/
def ofChars (cs : List Char) : Text := cs.flatMap fun c => ofCodePoint c.toNat

/-- The units of a string. -/
def ofString (s : String) : Text := ofChars s.toList

/-- The characters of a text, or `none` if a surrogate stands alone. -/
def toChars? : Text → Option (List Char)
  | [] => some []
  | [u] => if u.isHigh || u.isLow then none else some [Char.ofNat u.toNat]
  | u :: v :: t =>
      if u.isHigh && v.isLow then (toChars? t).map (Char.ofNat (u.pair v) :: ·)
      else if u.isHigh || u.isLow then none
      else (toChars? (v :: t)).map (Char.ofNat u.toNat :: ·)

/-- The string that a text spells, or `none` if a surrogate stands alone. -/
def toString? (t : Text) : Option String := t.toChars?.map String.ofList

/-- Cutting a pair's code point into units gives the pair back. -/
theorem ofCodePoint_pair {u v : CodeUnit} (hu : u.isHigh) (hv : v.isLow) :
    ofCodePoint (u.pair v) = [u, v] := by
  have hc := Surrogate.combine_of_isHigh v.toNat hu
  simp only [CodeUnit.isHigh, CodeUnit.isLow, Surrogate.isHigh, Surrogate.isLow,
    decide_eq_true_eq] at hu hv
  have hp : u.pair v = 0x10000 + (u.toNat - 0xD800) * 0x400 + (v.toNat - 0xDC00) := by
    simp only [CodeUnit.pair, hc]; omega
  have h₁ : 0xD800 + (u.pair v - 0x10000) / 0x400 = u.toNat := by omega
  have h₂ : 0xDC00 + (u.pair v - 0x10000) % 0x400 = v.toNat := by omega
  have h₃ : ¬ u.pair v < 0x10000 := by omega
  simp only [ofCodePoint, if_neg h₃, h₁, h₂, UInt16.ofNat_toNat]

end Text

end JsonDocument
