import JsonDocument.Fault
import JsonDocument.Reader

/-!
# Document — reading and writing under given settings

Settings are resolved first; what is wrong with them is reported before any input is looked at.

* `Document.read`, `Document.isValid`: an input as a tree.
* `Document.write`: a tree as text.
* `Document.roundTrip`: an input read, written and read again.
* `Recipe`: how to build a tree from scalars, inputs and plain data.
-/

namespace JsonDocument

namespace Document

/-- The tree of an input, or its failure. -/
def read (input : Bytes) (settings : Given) : Logged Json := do
  let o ← ReadOptions.schema.logged settings
  .ofExcept ((readDocument o.maxDepth input).mapError .malformed)

/-- Whether an input is a document. -/
def isValid (input : Bytes) (settings : Given) : Logged Bool := do
  let o ← ReadOptions.schema.logged settings
  return (readDocument o.maxDepth input).isOk

/-- The text of a tree. -/
def write (v : Json) (settings : Given) : Logged Text := do
  let o ← WriteOptions.schema.logged settings
  return v.write o

/-- The text that is written for an input, and whether it reads back as an equal tree, or how it
fails to be read. -/
def roundTrip (input : Bytes) (forReading forWriting : Given) :
    Logged (Text × Except Failure Bool) := do
  let v ← read input forReading
  let t ← write v forWriting
  let o ← ReadOptions.schema.logged forReading
  return (t, (readDocument o.maxDepth (Utf8.encode t)).map v.equals)

end Document

/-! ### Building trees -/

/-- A number with fifteen significant digits of a double. -/
def Json.ofDouble (x : Binary64) : Except Fault Json :=
  if x.isFinite then .ok (.number (Literal.general x)) else .error (.notFinite x)

/-- How a tree is built. -/
inductive Recipe where
  | null
  | bool (value : Bool)
  | string (text : Text)
  /-- A number by its literal, which is not checked. -/
  | literal (text : Text)
  | double (value : Binary64)
  | input (bytes : Bytes)
  | plain (data : Plain)
  | array (elements : List Recipe)
  | object (members : List (Text × Recipe))

namespace Recipe

mutual

/-- The tree, or the first fault in building it. -/
def build : Recipe → Except Fault Json
  | null => .ok .null
  | bool b => .ok (.bool b)
  | string t => .ok (.string t)
  | literal t => .ok (.number t)
  | double x => Json.ofDouble x
  | input bytes => (Document.read bytes .nothing).outcome
  | plain data => data.toJson.mapError .refused
  | array rs => (buildElements rs).map .array
  | object ms => (buildMembers ms).map .object

def buildElements : List Recipe → Except Fault (List Json)
  | [] => .ok []
  | r :: rs =>
      match build r with
      | .error e => .error e
      | .ok v => (buildElements rs).map (v :: ·)

def buildMembers : List (Text × Recipe) → Except Fault (List (Text × Json))
  | [] => .ok []
  | (k, r) :: ms =>
      match build r with
      | .error e => .error e
      | .ok v => (buildMembers ms).map ((k, v) :: ·)

end

end Recipe

end JsonDocument
