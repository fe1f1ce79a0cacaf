import JsonDocument.Text

/-!
# Json — document trees

A tree keeps what a JSON text says and nothing more: a number is its literal, an object the list of
its members in order, repeated keys and all.

* `Json.equals`: trees are compared kind by kind, numbers by their literals.
* `Json.nesting`: how many containers lie inside one another.
-/

namespace JsonDocument

/-- The six kinds of value. -/
inductive Kind where
  | null | bool | number | string | array | object
  deriving DecidableEq, Repr

/-- A document tree. -/
inductive Json where
  | null
  | bool (value : Bool)
  | number (literal : Text)
  | string (text : Text)
  | array (elements : List Json)
  | object (members : List (Text × Json))
  deriving Inhabited

namespace Kind

/-- The name of a kind. -/
def name : Kind → String
  | null => "null"
  | bool => "bool"
  | number => "number"
  | string => "string"
  | array => "array"
  | object => "object"

end Kind

namespace Json

def kind : Json → Kind
  | null => .null
  | bool _ => .bool
  | number _ => .number
  | string _ => .string
  | array _ => .array
  | object _ => .object

/-- The value of a member's first occurrence; a tree that is no object has no members. -/
def find? (key : Text) : Json → Option Json
  | object ms => ms.lookup key
  | _ => none

mutual

/-- Whether two trees are the same, numbers by their literals and members in order. -/
def equals : Json → Json → Bool
  | null, null => true
  | bool a, bool b => a == b
  | number a, number b => a == b
  | string a, string b => a == b
  | array xs, array ys => equalElements xs ys
  | object ms, object ns => equalMembers ms ns
  | _, _ => false

def equalElements : List Json → List Json → Bool
  | [], [] => true
  | x :: xs, y :: ys => equals x y && equalElements xs ys
  | _, _ => false

def equalMembers : List (Text × Json) → List (Text × Json) → Bool
  | [], [] => true
  | (k, x) :: ms, (l, y) :: ns => k == l && equals x y && equalMembers ms ns
  | _, _ => false

end

mutual

/-- How many containers lie inside one another: none in a scalar, one in an empty container. -/
def nesting : Json → Nat
  | array xs => nestingElements xs + 1
  | object ms => nestingMembers ms + 1
  | _ => 0

def nestingElements : List Json → Nat
  | [] => 0
  | x :: xs => max (nesting x) (nestingElements xs)

def nestingMembers : List (Text × Json) → Nat
  | [] => 0
  | (_, x) :: ms => max (nesting x) (nestingMembers ms)

end

end Json

end JsonDocument
