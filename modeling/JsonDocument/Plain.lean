import JsonDocument.Number.Binary64

/-!
# Plain — data of the surrounding program

Plain data is what a program hands over to become a document, or wants to have for one.  Its
numbers are doubles or integers of any size, its records list entries by key, and it may hold things
that no document can.
-/

namespace JsonDocument

/-- Things that no document can hold. -/
inductive Foreign where
  | absent
  | function
  | symbol
  /-- An object of a class of its own, by the name of the class. -/
  | object (className : String)
  deriving DecidableEq, Repr

/-- Data of the surrounding program, in whose arrays there are no holes.  A record is given by its
assignments in order. -/
inductive Plain where
  | null
  | bool (value : Bool)
  | double (value : Binary64)
  | integer (value : Int)
  | string (text : Text)
  | array (items : List Plain)
  | record (assignments : List (Text × Plain))
  | foreign (kind : Foreign)
  deriving Inhabited

namespace Foreign

/-- What sort of thing it is; the sort of an object does not say its class. -/
def sort : Foreign → String
  | absent => "undefined"
  | function => "function"
  | symbol => "symbol"
  | object _ => "object"

/-- What it is called: an object by its class, all else by its sort. -/
def name : Foreign → String
  | object className => className
  | k => k.sort

end Foreign

namespace Plain

/-- What a value is called where it stands in the wrong place. -/
def name : Plain → String
  | null => "null"
  | bool _ => "boolean"
  | double x => x.nonFiniteName?.getD "number"
  | integer _ => "bigint"
  | string _ => "string"
  | array _ => "array"
  | record _ => "object"
  | foreign k => k.name

end Plain

end JsonDocument
