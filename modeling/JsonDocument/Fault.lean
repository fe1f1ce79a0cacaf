import JsonDocument.Options
import JsonDocument.Plain.Convert
import JsonDocument.Reader.Failure

/-!
# Fault — why an operation has no result

* `Fault`: every way in which an operation of the library can fail.
* `Logged`: an outcome with the warnings that were given on the way.
-/

namespace JsonDocument

/-- Why an operation has no result. -/
inductive Fault where
  /-- The input is no document. -/
  | malformed (failure : Failure)
  /-- A value is of another kind than the operation is for. -/
  | wrongKind (expected actual : Kind)
  /-- A double that was to be written is no finite number. -/
  | notFinite (value : Binary64)
  /-- Plain data holds something that no document can. -/
  | refused (refusal : Refusal)
  /-- Settings were not resolved. -/
  | settings (error : OptionsError)
  /-- Nothing was kept under a name. -/
  | unknownName (name : Text)
  /-- A value contains itself. -/
  | cyclic
  deriving DecidableEq, Repr

namespace Kind

/-- The kind with its article. -/
def withArticle (k : Kind) : String :=
  match k with
  | array | object => "an " ++ k.name
  | _ => "a " ++ k.name

end Kind

namespace Fault

def message : Fault → Text
  | malformed e => Text.ofString e.message
  | wrongKind expected _ => Text.ofString ("Not " ++ expected.withArticle)
  | notFinite x => Text.ofString (notFiniteMessage x)
  | refused r => Text.ofString r.message
  | settings .null => Text.ofString "Cannot convert undefined or null to object"
  | settings (.invalid issues) => Text.ofString (Issue.report issues)
  | unknownName name => name
  | cyclic => Text.ofString "Value contains itself"

end Fault

/-! ### Outcomes with warnings -/

/-- An outcome and the warnings given before it. -/
structure Logged (α : Type) where
  warnings : List Warning
  outcome : Except Fault α

namespace Logged

variable {α β : Type}

/-- An outcome without warnings. -/
def ofExcept (outcome : Except Fault α) : Logged α := ⟨[], outcome⟩

/-- Goes on with a result; a fault ends it, and the warnings so far stay. -/
def andThen (x : Logged α) (f : α → Logged β) : Logged β :=
  match x.outcome with
  | .ok a => ⟨x.warnings ++ (f a).warnings, (f a).outcome⟩
  | .error e => ⟨x.warnings, .error e⟩

instance : Monad Logged where
  pure a := ⟨[], .ok a⟩
  bind := andThen

end Logged

/-- Settings from what was given. -/
def Schema.logged {α : Type} (s : Schema α) (given : Given) : Logged α :=
  ⟨(s.resolve given).1, (s.resolve given).2.mapError .settings⟩

end JsonDocument
