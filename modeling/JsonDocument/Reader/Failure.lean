/-!
# Reader — why reading stops

Each way in which an input can fail to be a document is a `Reason`.  A `Failure` adds the offset
of the byte at which it was found.
-/

namespace JsonDocument

/-- The layer at which reading failed: brackets and separators, the words and numbers between
them, or the encoding of characters. -/
inductive Category where
  | structural | lexical | unicode
  deriving DecidableEq, Repr

/-- Why an input is not a document. -/
inductive Reason where
  | endOfInput
  | notAValue
  | trailing
  | tooDeep
  | missingKey
  | missingColon
  | missingElementComma
  | missingMemberComma
  | literal
  | number
  | fraction
  | exponent
  | controlCharacter
  | escape
  | unfinishedEscape
  | unfinishedString
  | unfinishedHex
  | hex
  | missingLowSurrogate
  | notALowSurrogate
  | codePoint
  | utf8
  deriving DecidableEq, Repr

/-- What was found and where: `position` counts the bytes before it. -/
structure Failure where
  reason : Reason
  position : Nat
  deriving DecidableEq, Repr

namespace Category

def name : Category → String
  | structural => "structural"
  | lexical => "lexical"
  | unicode => "unicode"

end Category

namespace Reason

def category : Reason → Category
  | endOfInput | notAValue | trailing | tooDeep
  | missingKey | missingColon | missingElementComma | missingMemberComma => .structural
  | literal | number | fraction | exponent
  | controlCharacter | escape | unfinishedEscape | unfinishedString => .lexical
  | unfinishedHex | hex | missingLowSurrogate | notALowSurrogate | codePoint | utf8 => .unicode

def message : Reason → String
  | endOfInput => "Unexpected end of input"
  | notAValue => "Unexpected character while parsing value"
  | trailing => "Trailing characters after JSON value"
  | tooDeep => "Maximum nesting depth exceeded"
  | missingKey => "Expected opening quote for string"
  | missingColon => "Expected ':' after object key"
  | missingElementComma => "Expected ',' between array elements"
  | missingMemberComma => "Expected ',' between object members"
  | literal => "Invalid literal"
  | number => "Invalid number format"
  | fraction => "Invalid fraction in number"
  | exponent => "Invalid exponent in number"
  | controlCharacter => "Control character in string"
  | escape => "Invalid escape sequence in string"
  | unfinishedEscape => "Unterminated escape sequence"
  | unfinishedString => "Unterminated string literal"
  | unfinishedHex => "Incomplete unicode escape"
  | hex => "Invalid hex in unicode escape"
  | missingLowSurrogate => "Missing low surrogate for unicode escape"
  | notALowSurrogate => "Invalid low surrogate in unicode escape"
  | codePoint => "Invalid unicode codepoint"
  | utf8 => "Invalid UTF-8 in string"

end Reason

namespace Failure

/-- The sentence that reports a failure by itself. -/
def message (e : Failure) : String :=
  "JSON parse error at position " ++ toString e.position ++ ": " ++ e.reason.message

end Failure

end JsonDocument
