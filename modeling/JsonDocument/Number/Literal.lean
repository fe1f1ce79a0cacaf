import JsonDocument.Number.Binary64

/-!
# Number — literals and their values

A number in a tree is a literal, which may be any text.  It is read only when its value is asked
for, and a fallback stands for what cannot be read.

* `Literal.toDouble`, `Literal.toInt64`: the value as a double and as a 64-bit integer.
* `Literal.general`: fifteen significant digits of a double.
* `Literal.shortest`: the fewest digits that read back as a double.
-/

namespace JsonDocument.Literal

/-- The double nearest to a floating literal, or `fallback` if the text is none or its value too
large. -/
def toDouble (fallback : Binary64) (t : Text) : Binary64 :=
  match Decimal.read? t with
  | some d => d.toBinary64?.getD fallback
  | none => fallback

/-- Whether the text is an integer literal, however large. -/
def isIntegral (t : Text) : Bool := (Decimal.readInteger? t).isSome

/-- The value of an integer literal, or `fallback` if the text is none or does not fit in 64
bits. -/
def toInt64 (fallback : Int) (t : Text) : Int :=
  match Decimal.readInteger? t with
  | some n => if -0x8000000000000000 ≤ n ∧ n < 0x8000000000000000 then n else fallback
  | none => fallback

/-- Positional from `10 ^ -4` to below `10 ^ 15`, and exponents of two digits at least. -/
def generalLayout : Decimal.Layout := ⟨-4, 14, 2⟩

/-- Positional from `10 ^ -6` to below `10 ^ 21`, and exponents as short as they are. -/
def shortestLayout : Decimal.Layout := ⟨-6, 20, 1⟩

/-- A finite double with fifteen significant digits. -/
def general (x : Binary64) : Text := (x.significant 15).write generalLayout

/-- A finite double with the fewest digits that read back. -/
def shortest (x : Binary64) : Text := x.shortest.write shortestLayout

end JsonDocument.Literal
