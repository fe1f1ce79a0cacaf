import JsonDocument.Number.Decimal

/-!
# Number — doubles

A double is its 64 bits.  Every finite one is a whole number of units of `2 ^ -1074`, so its value
is a fraction of natural numbers and all rounding is done exactly.

* `Binary64.nearest`: a fraction to the nearest double, a tie to the even one.
* `Binary64.exponential`: a double to a number of significant digits, a tie to the larger.
* `Binary64.significant`: the same with a tie to the even digit, where `isLowerTie` tells the ties.
* `Binary64.shortest`: the fewest digits that read back, and of those the nearest.
-/

namespace JsonDocument

/-- A double by its bits: sign, eleven of exponent, fifty-two of fraction. -/
structure Binary64 where
  bits : UInt64
  deriving DecidableEq, Repr

/-- A quotient rounded to a whole number, a tie to the even one. -/
def roundDiv (n d : Nat) : Nat :=
  let q := n / d
  let r := n % d
  if 2 * r < d then q else if d < 2 * r then q + 1 else q + q % 2

/-- A quotient rounded to a whole number, a tie to the larger. -/
def roundDivUp (n d : Nat) : Nat := (2 * n + d) / (2 * d)

namespace Binary64

/-! ### The bits -/

/-- The magnitude of infinity; finite magnitudes lie below it, those of no number above it. -/
def infinity : Nat := 0x7FF <<< 52

/-- How many units make one. -/
def one : Nat := 1 <<< 1074

def negative (x : Binary64) : Bool := decide (1 <<< 63 ≤ x.bits.toNat)

/-- The bits without the sign. -/
def magnitude (x : Binary64) : Nat := x.bits.toNat % (1 <<< 63)

def isFinite (x : Binary64) : Bool := decide (x.magnitude < infinity)

def isNaN (x : Binary64) : Bool := decide (infinity < x.magnitude)

/-- How many units a magnitude has. -/
def unitsOf (m : Nat) : Nat :=
  let e := m / (1 <<< 52)
  if e = 0 then m else (1 <<< 52 + m % (1 <<< 52)) <<< (e - 1)

/-- The absolute value of a finite double, in units. -/
def units (x : Binary64) : Nat := unitsOf x.magnitude

/-- The absolute value of a finite double as a whole number times a power of two. -/
def decompose (x : Binary64) : Nat × Int :=
  let e := x.magnitude / (1 <<< 52)
  let f := x.magnitude % (1 <<< 52)
  if e = 0 then (f, -1074) else (1 <<< 52 + f, e - 1075)

/-- The double with a sign and a magnitude. -/
def ofMagnitude (negative : Bool) (m : Nat) : Binary64 :=
  ⟨UInt64.ofNat (if negative then 1 <<< 63 + m else m)⟩

def zero : Binary64 := ⟨0⟩

/-- The name of a double that is no finite number, and no name for the others. -/
def nonFiniteName? (x : Binary64) : Option String :=
  if x.isFinite then none
  else if x.isNaN then some "NaN"
  else if x.negative then some "-Infinity"
  else some "Infinity"

/-- The whole number that a finite double is, if it is one. -/
def toInt? (x : Binary64) : Option Int :=
  if x.isFinite ∧ x.units % one = 0 then
    some (if x.negative then -(x.units / one : Nat) else (x.units / one : Nat))
  else none

/-! ### Rounding to a double -/

/-- The magnitude nearest to `n / d`, of two the even one.  The quotient is rounded to a multiple of
`2 ^ s` units, where `s` leaves it 53 bits; below `2 ^ 53` units it is rounded to a whole one. -/
def nearest (n d : Nat) : Nat :=
  let s := (n * one / d).log2 - 52
  s <<< 52 + roundDiv (n * one) (d <<< s)

end Binary64

/-- The fraction that a decimal is, as numerator and denominator. -/
def Decimal.fraction (d : Decimal) : Nat × Nat :=
  (d.coefficient * Nat.pow 10 d.exponent.toNat, Nat.pow 10 (-d.exponent).toNat)

/-- The magnitude of the double nearest to a decimal; overflow gives infinity or more.  Beyond the
range of doubles the power of ten is not computed: from `10 ^ 309` up all overflow, and below
`10 ^ -324` all are nearer to zero than to the smallest double. -/
def Decimal.nearestMagnitude (d : Decimal) : Nat :=
  if d.coefficient = 0 then 0
  else
    let top := d.exponent + Decimal.digitCount d.coefficient
    if 309 < top then Binary64.infinity
    else if top < -323 then 0
    else Binary64.nearest d.fraction.1 d.fraction.2

/-- The double nearest to a decimal, a tie to the even one; `none` if it is too large. -/
def Decimal.toBinary64? (d : Decimal) : Option Binary64 :=
  let m := d.nearestMagnitude
  if m < Binary64.infinity then some (.ofMagnitude d.negative m) else none

namespace Binary64

/-! ### Rounding to decimal digits -/

/-- The decimal exponent of a fraction above zero: the greatest `e` with `10 ^ e ≤ n / d`. -/
def decade (n d : Nat) : Int :=
  if d ≤ n then (Decimal.digitCount (n / d) : Int) - 1 else -(Decimal.digitCount ((d - 1) / n) : Int)

/-- A fraction in multiples of `10 ^ g`, as numerator and denominator. -/
def onGrid (g : Int) (n d : Nat) : Nat × Nat :=
  (n * Nat.pow 10 (-g).toNat, d * Nat.pow 10 g.toNat)

/-- A finite double above zero in size rounded to a number of significant digits, a tie to the
larger.  What is rounded up to a power of ten starts one place further up. -/
def exponential (places : Nat) (x : Binary64) : Decimal :=
  let g := decade x.units one - (places - 1 : Nat)
  let (n, d) := onGrid g x.units one
  let c := roundDivUp n d
  if c = Nat.pow 10 places then ⟨x.negative, Nat.pow 10 (places - 1), g + 1⟩ else ⟨x.negative, c, g⟩

/-- Whether a double lies halfway between a decimal and the next smaller one of its exponent.  Twice
the double and twice the middle are compared as whole numbers. -/
def isLowerTie (x : Binary64) (t : Decimal) : Bool :=
  let (m, e) := x.decompose
  2 * m * Nat.pow 2 e.toNat * Nat.pow 10 (-t.exponent).toNat
    == (2 * t.coefficient - 1) * Nat.pow 2 (-e).toNat * Nat.pow 10 t.exponent.toNat

/-- A finite double rounded to a number of significant digits, a tie to the even digit. -/
def significant (places : Nat) (x : Binary64) : Decimal :=
  if x.units = 0 then ⟨x.negative, 0, 0⟩
  else
    let t := x.exponential places
    if t.coefficient % 2 = 1 ∧ x.isLowerTie t then ⟨t.negative, t.coefficient - 1, t.exponent⟩ else t

/-- Of the two neighbours of a finite double on the grid of `places` digits, those that read back
as the double, and the nearer if both do, a tie to the even digit. -/
def shortestAt? (x : Binary64) (places : Nat) : Option Decimal :=
  let g := decade x.units one - (places - 1 : Nat)
  let (n, d) := onGrid g x.units one
  let low : Decimal := ⟨x.negative, n / d, g⟩
  let high : Decimal := ⟨x.negative, n / d + 1, g⟩
  match low.nearestMagnitude == x.magnitude, high.nearestMagnitude == x.magnitude with
  | true, true => some ⟨x.negative, roundDiv n d, g⟩
  | true, false => some low
  | false, true => some high
  | false, false => none

/-- The fewest digits that read back as a finite double, the nearest to it of those. -/
def shortest (x : Binary64) : Decimal :=
  if x.units = 0 then ⟨x.negative, 0, 0⟩
  else ((List.range' 1 17).findSome? x.shortestAt?).getD (x.significant 17)

end Binary64

end JsonDocument
