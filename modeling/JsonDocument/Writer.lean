import JsonDocument.Json
import JsonDocument.Text.Escape

/-!
# Writer — trees as text

A tree is written without blanks, or with every item of a container on a line of its own.  Number
literals are written as they are.  Every function puts what it writes in front of the text `rest`
that follows, so that a tree is written in one pass.
-/

namespace JsonDocument

/-- How a tree is laid out. -/
structure WriteOptions where
  /-- One item a line. -/
  pretty : Bool
  /-- Spaces for each level, where there are lines. -/
  indent : Nat
  /-- Write an escape for every solidus. -/
  escapeSolidus : Bool
  deriving DecidableEq, Repr

namespace WriteOptions

/-- No blanks, two spaces a level if there were lines, no needless escapes. -/
def compact : WriteOptions := ⟨false, 2, false⟩

/-- A new line at a level, if there are lines. -/
def lineBreak (o : WriteOptions) (level : Nat) (rest : Text) : Text :=
  if o.pretty then 0x0A :: (List.replicate (level * o.indent) 0x20 ++ rest) else rest

/-- A string between quotes. -/
def quoted (o : WriteOptions) (t rest : Text) : Text :=
  0x22 :: (Escape.encode o.escapeSolidus t ++ 0x22 :: rest)

/-- A key and its colon, with a space after it where there are lines. -/
def label (o : WriteOptions) (key rest : Text) : Text :=
  o.quoted key (0x3A :: if o.pretty then 0x20 :: rest else rest)

end WriteOptions

namespace Json

mutual

/-- A tree at a level. -/
def writeTo (o : WriteOptions) (level : Nat) : Json → Text → Text
  | null, rest => Text.ofChars ['n', 'u', 'l', 'l'] ++ rest
  | bool true, rest => Text.ofChars ['t', 'r', 'u', 'e'] ++ rest
  | bool false, rest => Text.ofChars ['f', 'a', 'l', 's', 'e'] ++ rest
  | number literal, rest => literal ++ rest
  | string t, rest => o.quoted t rest
  | array [], rest => 0x5B :: 0x5D :: rest
  | array (x :: xs), rest =>
      0x5B :: o.lineBreak (level + 1) (writeTo o (level + 1) x
        (writeElements o (level + 1) xs (o.lineBreak level (0x5D :: rest))))
  | object [], rest => 0x7B :: 0x7D :: rest
  | object ((k, x) :: ms), rest =>
      0x7B :: o.lineBreak (level + 1) (o.label k (writeTo o (level + 1) x
        (writeMembers o (level + 1) ms (o.lineBreak level (0x7D :: rest)))))

/-- The elements after the first, each behind a comma. -/
def writeElements (o : WriteOptions) (level : Nat) : List Json → Text → Text
  | [], rest => rest
  | x :: xs, rest =>
      0x2C :: o.lineBreak level (writeTo o level x (writeElements o level xs rest))

/-- The members after the first, each behind a comma. -/
def writeMembers (o : WriteOptions) (level : Nat) : List (Text × Json) → Text → Text
  | [], rest => rest
  | (k, x) :: ms, rest =>
      0x2C :: o.lineBreak level (o.label k (writeTo o level x (writeMembers o level ms rest)))

end

/-- The text of a tree. -/
def write (o : WriteOptions) (v : Json) : Text := v.writeTo o 0 []

/-- The text of a tree without blanks. -/
def compact (v : Json) : Text := v.write .compact

end Json

end JsonDocument
