import JsonDocument.Json
import JsonDocument.Number.Literal
import JsonDocument.Plain
import JsonDocument.Plain.Record

/-!
# Plain — plain data and documents

* `Plain.toJson`: the document of plain data, or the first thing in it that no document can hold.
* `Json.toPlain`: the plain data of a document, where of repeated keys the first counts.
-/

namespace JsonDocument

/-- What keeps plain data from being a document. -/
inductive Refusal where
  | notFinite (value : Binary64)
  | foreign (kind : Foreign)
  deriving DecidableEq, Repr

/-- A double that is no finite number has no literal. -/
def notFiniteMessage (x : Binary64) : String :=
  "Cannot represent " ++ x.nonFiniteName?.getD "" ++ " as a JSON number"

namespace Refusal

def message : Refusal → String
  | notFinite x => notFiniteMessage x
  | foreign k => "Cannot convert " ++ k.sort ++ " to JSON"

/-- The kind of value that was wanted instead. -/
def expected : Refusal → Kind
  | notFinite _ => .number
  | foreign _ => .object

end Refusal

/-! ### From plain data -/

/-- The values of a list, or its first refusal. -/
def firstRefusal {α : Type} : List (Except Refusal α) → Except Refusal (List α)
  | [] => .ok []
  | .error e :: _ => .error e
  | .ok a :: rs => (firstRefusal rs).map (a :: ·)

/-- Moves the key of an entry to what became of its value. -/
def keyed {α : Type} (e : Text × Except Refusal α) : Except Refusal (Text × α) :=
  e.2.map fun a => (e.1, a)

namespace Plain

mutual

/-- The document of plain data.  Doubles get the fewest digits that read back. -/
def toJson : Plain → Except Refusal Json
  | null => .ok .null
  | bool b => .ok (.bool b)
  | double x => if x.isFinite then .ok (.number (Literal.shortest x)) else .error (.notFinite x)
  | integer n => .ok (.number (Decimal.ofInt n))
  | string t => .ok (.string t)
  | array xs => (firstRefusal (toJsonItems xs)).map .array
  | record es => (firstRefusal ((Record.entries (toJsonEntries es)).map keyed)).map .object
  | foreign k => .error (.foreign k)

def toJsonItems : List Plain → List (Except Refusal Json)
  | [] => []
  | x :: xs => toJson x :: toJsonItems xs

def toJsonEntries : List (Text × Plain) → List (Text × Except Refusal Json)
  | [] => []
  | (k, x) :: es => (k, toJson x) :: toJsonEntries es

end

end Plain

/-! ### To plain data -/

namespace Json

mutual

/-- The plain data of a document.  A number is its double, or zero where it has none. -/
def toPlain : Json → Plain
  | null => .null
  | bool b => .bool b
  | number t => .double (Literal.toDouble .zero t)
  | string t => .string t
  | array xs => .array (toPlainElements xs)
  | object ms => .record (Record.arranged (Members.firsts (toPlainMembers ms)))

def toPlainElements : List Json → List Plain
  | [] => []
  | x :: xs => toPlain x :: toPlainElements xs

def toPlainMembers : List (Text × Json) → List (Text × Plain)
  | [] => []
  | (k, x) :: ms => (k, toPlain x) :: toPlainMembers ms

end

end Json

end JsonDocument
