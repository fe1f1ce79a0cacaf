import JsonDocument.Text.Hex

/-!
# Text — escaped strings

The body of a written string.  Quote, backslash and the control characters that have a short
escape get it; the other units below `U+0020` and every surrogate that stands alone are written by
number; a solidus is escaped on request; pairs and all else are copied.
-/

namespace JsonDocument.Escape

def quote : CodeUnit := 0x22
def backslash : CodeUnit := 0x5C
def solidus : CodeUnit := 0x2F

/-- The letter of a unit's short escape; that of the solidus only on request. -/
def letter? (escapeSolidus : Bool) (u : CodeUnit) : Option CodeUnit :=
  if u = quote then some quote
  else if u = backslash then some backslash
  else if u = 0x08 then some 0x62
  else if u = 0x0C then some 0x66
  else if u = 0x0A then some 0x6E
  else if u = 0x0D then some 0x72
  else if u = 0x09 then some 0x74
  else if u = solidus && escapeSolidus then some solidus
  else none

/-- An escape by number: a backslash, `u` and four digits. -/
def byNumber (u : CodeUnit) : Text := backslash :: 0x75 :: Hex.ofCodeUnit u

/-- What is written for a unit that is no half of a pair. -/
def unit (escapeSolidus : Bool) (u : CodeUnit) : Text :=
  match letter? escapeSolidus u with
  | some c => [backslash, c]
  | none => if u < 0x20 || u.isHigh || u.isLow then byNumber u else [u]

/-- The escaped form of a text. -/
def encode (escapeSolidus : Bool) : Text → Text
  | [] => []
  | [u] => unit escapeSolidus u
  | u :: v :: t =>
      if u.isHigh && v.isLow then u :: v :: encode escapeSolidus t
      else unit escapeSolidus u ++ encode escapeSolidus (v :: t)

end JsonDocument.Escape
