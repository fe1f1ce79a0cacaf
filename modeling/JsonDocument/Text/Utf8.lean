import JsonDocument.Text

/-!
# Text — UTF-8

* `Utf8.decode` accepts exactly the well-formed sequences (shortest forms, no surrogates, nothing
  above `U+10FFFF`) and keeps every code point, a leading `U+FEFF` too.
* `Utf8.encode` writes any text; a surrogate that is no half of a pair becomes `U+FFFD`.
-/

namespace JsonDocument

/-- Input octets. -/
abbrev Bytes := List UInt8

namespace Utf8

/-! ### Reading -/

/-- A continuation byte in the range from `lo` to `hi`. -/
def within (lo hi : Nat) (b : UInt8) : Bool := decide (lo ≤ b.toNat ∧ b.toNat ≤ hi)

/-- A continuation byte. -/
def isTail (b : UInt8) : Bool := within 0x80 0xBF b

/-- The code point of two bytes. -/
def two? (a b : UInt8) : Option Nat :=
  if within 0xC2 0xDF a && isTail b then some ((a.toNat - 0xC0) * 0x40 + (b.toNat - 0x80)) else none

/-- The code point of three bytes: no shorter form, no surrogate. -/
def three? (a b c : UInt8) : Option Nat :=
  if (a = 0xE0 && within 0xA0 0xBF b || within 0xE1 0xEC a && isTail b
      || a = 0xED && within 0x80 0x9F b || within 0xEE 0xEF a && isTail b) && isTail c then
    some ((a.toNat - 0xE0) * 0x1000 + (b.toNat - 0x80) * 0x40 + (c.toNat - 0x80))
  else none

/-- The code point of four bytes: no shorter form, nothing above `U+10FFFF`. -/
def four? (a b c d : UInt8) : Option Nat :=
  if (a = 0xF0 && within 0x90 0xBF b || within 0xF1 0xF3 a && isTail b
      || a = 0xF4 && within 0x80 0x8F b) && isTail c && isTail d then
    some ((a.toNat - 0xF0) * 0x40000 + (b.toNat - 0x80) * 0x1000 + (c.toNat - 0x80) * 0x40
      + (d.toNat - 0x80))
  else none

/-- The text that a byte sequence spells, or `none` if it is not well-formed. -/
def decode : Bytes → Option Text
  | [] => some []
  | a :: s =>
      if a.toNat < 0x80 then (decode s).map (UInt16.ofNat a.toNat :: ·)
      else match s with
        | [] => none
        | b :: s =>
            match two? a b with
            | some p => (decode s).map (Text.ofCodePoint p ++ ·)
            | none =>
                match s with
                | [] => none
                | c :: s =>
                    match three? a b c with
                    | some p => (decode s).map (Text.ofCodePoint p ++ ·)
                    | none =>
                        match s with
                        | [] => none
                        | d :: s =>
                            match four? a b c d with
                            | some p => (decode s).map (Text.ofCodePoint p ++ ·)
                            | none => none

/-! ### Writing -/

/-- How many bytes a code point takes; 0 where there is no such code point. -/
def width (c : Int) : Nat :=
  if c < 0 then 0
  else if c ≤ 0x7F then 1
  else if c ≤ 0x7FF then 2
  else if c ≤ 0xFFFF then 3
  else if c ≤ 0x10FFFF then 4
  else 0

/-- The bytes of a code point. -/
def encodePoint (c : Nat) : Bytes :=
  if c < 0x80 then [UInt8.ofNat c]
  else if c < 0x800 then [UInt8.ofNat (0xC0 + c / 0x40), UInt8.ofNat (0x80 + c % 0x40)]
  else if c < 0x10000 then
    [UInt8.ofNat (0xE0 + c / 0x1000), UInt8.ofNat (0x80 + c / 0x40 % 0x40),
      UInt8.ofNat (0x80 + c % 0x40)]
  else
    [UInt8.ofNat (0xF0 + c / 0x40000), UInt8.ofNat (0x80 + c / 0x1000 % 0x40),
      UInt8.ofNat (0x80 + c / 0x40 % 0x40), UInt8.ofNat (0x80 + c % 0x40)]

/-- What is written for a unit that stands alone: `U+FFFD` for a surrogate, else itself. -/
def encodeUnit (u : CodeUnit) : Bytes :=
  if u.isHigh || u.isLow then encodePoint 0xFFFD else encodePoint u.toNat

/-- The bytes of a text, pair by pair. -/
def encode : Text → Bytes
  | [] => []
  | [u] => encodeUnit u
  | u :: v :: t =>
      if u.isHigh && v.isLow then encodePoint (u.pair v) ++ encode t
      else encodeUnit u ++ encode (v :: t)

/-- A code point takes as many bytes as `width` says. -/
theorem length_encodePoint {c : Nat} (h : c ≤ 0x10FFFF) : (encodePoint c).length = width c := by
  grind [encodePoint, width]

end Utf8

end JsonDocument
