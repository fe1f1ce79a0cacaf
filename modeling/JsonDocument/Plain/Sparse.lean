import JsonDocument.Plain.Convert

/-!
# Plain — data with holes

An array of the surrounding program may have places in which nothing was ever put.  They are passed
over on the way through the data, and nothing is reported of them: what is made of the array has
nothing in these places either, and is no document.

* `Sparse`: data in whose arrays there may be holes.
* `Ragged`: what is made of it, a tree in which elements may be missing.
* `Sparse.convert`: from the one to the other, or the first thing that no document can hold.
* `Sparse.plain?`, `Ragged.json?`: the data and the document, where nothing is missing.
-/

namespace JsonDocument

/-- Data in whose arrays there may be holes. -/
inductive Sparse where
  /-- Data without holes. -/
  | whole (data : Plain)
  | array (places : List (Option Sparse))
  | record (assignments : List (Text × Sparse))

/-- A tree in whose arrays elements may be missing. -/
inductive Ragged where
  /-- A tree without such places. -/
  | whole (document : Json)
  | array (places : List (Option Ragged))
  | object (members : List (Text × Ragged))

/-- Moves the key of an entry to its value, if there is one. -/
def present {α : Type} (e : Text × Option α) : Option (Text × α) := e.2.map (e.1, ·)

namespace Sparse

mutual

/-- What is made of data, or what is refused first.  A hole stays one. -/
def convert : Sparse → Except Refusal Ragged
  | whole d => d.toJson.map .whole
  | array xs => (firstRefusal (convertPlaces xs)).map .array
  | record es => (firstRefusal ((Record.entries (convertEntries es)).map keyed)).map .object

def convertPlaces : List (Option Sparse) → List (Except Refusal (Option Ragged))
  | [] => []
  | none :: xs => .ok none :: convertPlaces xs
  | some x :: xs => (convert x).map some :: convertPlaces xs

def convertEntries : List (Text × Sparse) → List (Text × Except Refusal Ragged)
  | [] => []
  | (k, x) :: es => (k, convert x) :: convertEntries es

end

mutual

/-- Data in which there are no holes. -/
def plain? : Sparse → Option Plain
  | whole d => some d
  | array xs => ((plainPlaces xs).mapM id).map .array
  | record es => ((plainEntries es).mapM present).map .record

def plainPlaces : List (Option Sparse) → List (Option Plain)
  | [] => []
  | none :: xs => none :: plainPlaces xs
  | some x :: xs => plain? x :: plainPlaces xs

def plainEntries : List (Text × Sparse) → List (Text × Option Plain)
  | [] => []
  | (k, x) :: es => (k, plain? x) :: plainEntries es

end

end Sparse

namespace Ragged

mutual

/-- The document that a tree is, if no element is missing. -/
def json? : Ragged → Option Json
  | whole v => some v
  | array xs => ((jsonPlaces xs).mapM id).map .array
  | object ms => ((jsonMembers ms).mapM present).map .object

def jsonPlaces : List (Option Ragged) → List (Option Json)
  | [] => []
  | none :: xs => none :: jsonPlaces xs
  | some x :: xs => json? x :: jsonPlaces xs

def jsonMembers : List (Text × Ragged) → List (Text × Option Json)
  | [] => []
  | (k, x) :: ms => (k, json? x) :: jsonMembers ms

end

end Ragged

end JsonDocument
