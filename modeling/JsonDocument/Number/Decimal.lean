import JsonDocument.Text

/-!
# Number — decimals

A decimal is a sign, a coefficient and a power of ten.  It is what a floating literal means and
what a double is rounded to before it is written.

* `Decimal.read?`: the value of a floating literal.
* `Decimal.write`: the text of a decimal under a `Layout`.
* `readInteger?`: the value of an integer literal.
-/

namespace JsonDocument

/-- The number `± coefficient · 10 ^ exponent`; zero has two signs. -/
structure Decimal where
  negative : Bool
  coefficient : Nat
  exponent : Int
  deriving DecidableEq, Repr

namespace Decimal

/-! ### Digits -/

def isDigit (u : CodeUnit) : Bool := decide (0x30 ≤ u.toNat ∧ u.toNat ≤ 0x39)

/-- The number that digits spell. -/
def ofDigits (ds : Text) : Nat := ds.foldl (fun n d => n * 10 + (d.toNat - 0x30)) 0

/-- The digits of a number, without leading zeros. -/
def digits (n : Nat) : Text := Text.ofChars (Nat.toDigits 10 n)

/-- How many digits a number has. -/
def digitCount (n : Nat) : Nat := (Nat.toDigits 10 n).length

/-- An integer in decimal. -/
def ofInt (n : Int) : Text :=
  if n < 0 then 0x2D :: digits n.natAbs else digits n.natAbs

/-! ### Literals -/

/-- The six characters that may stand before a floating literal. -/
def isSpace (u : CodeUnit) : Bool := u = 0x20 || decide (0x09 ≤ u.toNat ∧ u.toNat ≤ 0x0D)

/-- Whether there is a minus sign, and what follows the sign, if there is one. -/
def splitSign : Text → Bool × Text
  | [] => (false, [])
  | u :: t => if u = 0x2D then (true, t) else if u = 0x2B then (false, t) else (false, u :: t)

/-- The digits behind a point, if there is one, and what follows them. -/
def splitFraction : Text → Text × Text
  | [] => ([], [])
  | u :: t => if u = 0x2E then (t.takeWhile isDigit, t.dropWhile isDigit) else ([], u :: t)

/-- The exponent that a whole text spells; none is zero. -/
def readExponent? : Text → Option Int
  | [] => some 0
  | u :: t =>
      if u = 0x65 || u = 0x45 then
        let (negative, ds) := splitSign t
        if ds ≠ [] ∧ ds.all isDigit then
          some (if negative then -(ofDigits ds : Int) else ofDigits ds)
        else none
      else none

/-- The value of a floating literal: white space, a sign, digits around a point of which one at
least must be there, and an exponent. -/
def read? (t : Text) : Option Decimal :=
  let (negative, t) := splitSign (t.dropWhile isSpace)
  let whole := t.takeWhile isDigit
  let (fraction, t) := splitFraction (t.dropWhile isDigit)
  if whole ++ fraction = [] then none
  else (readExponent? t).map fun e =>
    ⟨negative, ofDigits (whole ++ fraction), e - fraction.length⟩

/-- The value of an integer literal: a minus sign, if there is one, and digits. -/
def readInteger? (t : Text) : Option Int :=
  match t with
  | [] => none
  | u :: ds =>
      if u = 0x2D then
        if ds ≠ [] ∧ ds.all isDigit then some (-(ofDigits ds : Int)) else none
      else if t.all isDigit then some (ofDigits t) else none

/-! ### Texts -/

/-- Where positional notation ends, and how wide exponents are. -/
structure Layout where
  /-- The lowest place that the first digit may have in positional notation. -/
  lowest : Int
  /-- The highest one. -/
  highest : Int
  /-- The least number of digits of an exponent. -/
  exponentWidth : Nat

/-- Digits with zeros in front, up to a width. -/
def padLeft (width : Nat) (ds : Text) : Text := List.replicate (width - ds.length) 0x30 ++ ds

/-- Digits without the zeros at their end. -/
def trimRight (ds : Text) : Text := (ds.reverse.dropWhile (· = 0x30)).reverse

/-- A point and digits, or nothing where there are none. -/
def point (ds : Text) : Text := if ds = [] then [] else 0x2E :: ds

/-- Digits around a point, the first of them in the place of `10 ^ place`. -/
def positional (place : Int) (ds : Text) : Text :=
  if place < 0 then 0x30 :: 0x2E :: (List.replicate (-place - 1).toNat 0x30 ++ ds)
  else
    let n := place.toNat + 1
    ds.take n ++ List.replicate (n - ds.length) 0x30 ++ point (ds.drop n)

/-- One digit before the point and an exponent with its sign. -/
def scientific (width : Nat) (place : Int) (ds : Text) : Text :=
  ds.take 1 ++ point (ds.drop 1)
    ++ 0x65 :: (if place < 0 then 0x2D else 0x2B) :: padLeft width (digits place.natAbs)

/-- The text of a decimal, without zeros at the end of its fraction. -/
def write (l : Layout) (d : Decimal) : Text :=
  let sign := if d.negative then [0x2D] else []
  if d.coefficient = 0 then sign ++ [0x30]
  else
    let ds := digits d.coefficient
    let place := d.exponent + (ds.length - 1 : Nat)
    if l.lowest ≤ place ∧ place ≤ l.highest then sign ++ positional place (trimRight ds)
    else sign ++ scientific l.exponentWidth place (trimRight ds)

end Decimal

end JsonDocument
