import JsonDocument.Plain
import JsonDocument.Plain.Record
import JsonDocument.Writer

/-!
# Options — settings given by a program

Settings come as an object, which is read field by field, whatever class it is of.  Fields that it
lacks take their defaults, all that are wrong are reported together in the order of the schema, and
each key that it lists and that names no field is warned of.

* `Given`: what can be given for settings.
* `Schema.resolve`: the settings or the issues, with the warnings.
* `ReadOptions.schema`, `WriteOptions.schema`: the fields and their defaults.
-/

namespace JsonDocument

/-- How a document is read. -/
structure ReadOptions where
  /-- The most containers inside one another. -/
  maxDepth : Nat
  deriving DecidableEq, Repr

/-! ### Fields and issues -/

/-- The fields of all settings. -/
inductive Field where
  | maxDepth | pretty | indent | escapeSolidus
  deriving DecidableEq, Repr

/-- What a field or a record of settings must be. -/
inductive Wanted where
  | object | number | boolean
  deriving DecidableEq, Repr

/-- What is wrong with a value. -/
inductive Cause where
  | wrongType (wanted : Wanted) (received : String)
  | notAnInteger
  | tooLarge
  | tooSmall
  | notPositive
  | negative
  deriving DecidableEq, Repr

/-- One thing that is wrong, with the field or, without one, with the settings as a whole. -/
structure Issue where
  field : Option Field
  cause : Cause
  deriving DecidableEq, Repr

/-- A key of given settings that names no field. -/
structure Warning where
  subject : String
  key : Text
  deriving DecidableEq, Repr

namespace Field

def name : Field → String
  | maxDepth => "maxDepth"
  | pretty => "pretty"
  | indent => "indent"
  | escapeSolidus => "escapeSolidus"

end Field

namespace Wanted

def name : Wanted → String
  | object => "object"
  | number => "number"
  | boolean => "boolean"

end Wanted

/-- The greatest integer up to which doubles hold all integers, `2 ^ 53 - 1`. -/
def maxSafe : Int := 0x1FFFFFFFFFFFFF

namespace Cause

def message : Cause → String
  | wrongType wanted received =>
      "Invalid input: expected " ++ wanted.name ++ ", received " ++ received
  | notAnInteger => "Invalid input: expected int, received number"
  | tooLarge => "Too big: expected int to be <=" ++ toString maxSafe
  | tooSmall => "Too small: expected int to be >=" ++ toString (-maxSafe)
  | notPositive => "Too small: expected number to be >0"
  | negative => "Too small: expected number to be >=0"

end Cause

namespace Issue

/-- The name of the field, empty where there is none. -/
def path (i : Issue) : String := i.field.elim "" Field.name

/-- An issue in a list of issues. -/
def line (i : Issue) : String := i.field.elim "(root)" Field.name ++ ": " ++ i.cause.message

/-- The sentence that reports all issues. -/
def report (issues : List Issue) : String :=
  "Invalid options: " ++ "; ".intercalate (issues.map line)

end Issue

namespace Warning

def message (w : Warning) : String := "[json] Ignoring unknown " ++ w.subject ++ " option"

end Warning

/-! ### What is given -/

/-- What is given for settings.  Own entries are those that a value lists, by the assignments that
made them. -/
inductive Given where
  /-- Nothing, or something absent. -/
  | nothing
  | null
  /-- An object that is no array, of whatever class, with what is found in it beside its own
  entries: what it has from its class, or does not list. -/
  | object (own hidden : List (Text × Plain))
  /-- Any other value, by what it is called, such as an array or a function. -/
  | other (name : String) (own : List (Text × Plain))

namespace Given

/-- What an object has for a field; its own entries come first. -/
def field (own hidden : List (Text × Plain)) (f : Field) : Option Plain :=
  ((Record.entries own).lookup (Text.ofString f.name)).or
    ((Record.entries hidden).lookup (Text.ofString f.name))

/-- The items of a list under their indices. -/
def indexed (items : List Plain) : List (Text × Plain) :=
  ((List.range items.length).map Decimal.digits).zip items

/-- Plain data as settings; an object of a class of its own has nothing in it. -/
def ofPlain : Option Plain → Given
  | none => nothing
  | some (.foreign .absent) => nothing
  | some .null => null
  | some (.record es) => object es []
  | some (.foreign (.object _)) => object [] []
  | some (.array xs) => other (Plain.array xs).name (indexed xs)
  | some (.string t) => other (Plain.string t).name (indexed (t.map fun u => .string [u]))
  | some v => other v.name []

end Given

/-! ### Checking fields -/

/-- A value, or what is wrong with it. -/
abbrev Checked (α : Type) := Except (List Issue) α

/-- The issues of a checked value. -/
def issuesOf {α : Type} : Checked α → List Issue
  | .ok _ => []
  | .error is => is

/-- A field that is missing, or there without a value, takes its default. -/
def checkField {α : Type} (default : α) (check : Plain → Checked α) : Option Plain → Checked α
  | none => .ok default
  | some (.foreign .absent) => .ok default
  | some v => check v

/-- A truth value. -/
def checkBool (field : Field) : Plain → Checked Bool
  | .bool b => .ok b
  | v => .error [⟨field, .wrongType .boolean v.name⟩]

/-- What is wrong with an integer that must be safe and no less than `least`. -/
def integerCauses (least : Int) (below : Cause) (n : Int) : List Cause :=
  if maxSafe < n then [.tooLarge]
  else (if n < -maxSafe then [.tooSmall] else []) ++ (if n < least then [below] else [])

/-- A safe integer no less than `least`, which is not negative. -/
def checkInteger (field : Field) (least : Nat) (below : Cause) : Plain → Checked Nat
  | .double x =>
      if x.isFinite then
        match x.toInt? with
        | none => .error [⟨field, .notAnInteger⟩]
        | some n =>
            match integerCauses least below n with
            | [] => .ok n.toNat
            | causes => .error (causes.map (⟨field, ·⟩))
      else .error [⟨field, .wrongType .number (Plain.double x).name⟩]
  | v => .error [⟨field, .wrongType .number v.name⟩]

/-! ### Schemas -/

/-- What settings consist of: the word for them in warnings, the fields, and how the values of the
fields are checked. -/
structure Schema (α : Type) where
  subject : String
  fields : List Field
  check : (Field → Option Plain) → Checked α

/-- Names that every record of the surrounding program answers to; they pass for known. -/
def inheritedNames : List String :=
  ["constructor", "__defineGetter__", "__defineSetter__", "hasOwnProperty", "__lookupGetter__",
    "__lookupSetter__", "isPrototypeOf", "propertyIsEnumerable", "toString", "valueOf",
    "__proto__", "toLocaleString"]

/-- Why settings were not resolved. -/
inductive OptionsError where
  /-- They were null. -/
  | null
  | invalid (issues : List Issue)
  deriving DecidableEq, Repr

namespace Schema

variable {α : Type}

/-- Whether a key is a field or passes for one. -/
def knows (s : Schema α) (key : Text) : Bool :=
  (s.fields.map Field.name ++ inheritedNames).any fun name => Text.ofString name == key

/-- A warning for each key that is not known, in the order of listing. -/
def warnings (s : Schema α) (own : List (Text × Plain)) : List Warning :=
  ((Members.keys (Record.entries own)).filter fun key => !s.knows key).map (⟨s.subject, ·⟩)

/-- Settings from what was given, with the warnings.  Of an object each field is read, be it listed
or not. -/
def resolve (s : Schema α) : Given → List Warning × Except OptionsError α
  | .nothing => ([], (s.check fun _ => none).mapError .invalid)
  | .null => ([], .error .null)
  | .object own hidden =>
      (s.warnings own, (s.check fun f => Given.field own hidden f).mapError .invalid)
  | .other name own => (s.warnings own, .error (.invalid [⟨none, .wrongType .object name⟩]))

end Schema

/-- At least one container inside one another, and 512 where nothing is said. -/
def ReadOptions.schema : Schema ReadOptions where
  subject := "parse"
  fields := [.maxDepth]
  check given :=
    (checkField 512 (checkInteger .maxDepth 1 .notPositive) (given .maxDepth)).map (⟨·⟩)

/-- Compact with two spaces a level where nothing is said. -/
def WriteOptions.schema : Schema WriteOptions where
  subject := "stringify"
  fields := [.pretty, .indent, .escapeSolidus]
  check given :=
    let pretty := checkField false (checkBool .pretty) (given .pretty)
    let indent := checkField 2 (checkInteger .indent 0 .negative) (given .indent)
    let escapeSolidus := checkField false (checkBool .escapeSolidus) (given .escapeSolidus)
    match pretty, indent, escapeSolidus with
    | .ok pretty, .ok indent, .ok escapeSolidus => .ok ⟨pretty, indent, escapeSolidus⟩
    | _, _, _ => .error (issuesOf pretty ++ issuesOf indent ++ issuesOf escapeSolidus)

end JsonDocument
