import JsonDocument.Members
import JsonDocument.Number.Decimal

/-!
# Plain — the entries of a record

A record is built by assignments.  Each key has one entry, which the last assignment to it wrote
and whose place the first one gave.  Entries are listed with those first whose keys are array
indices, by index, and the others after them in order of their places.

* `Record.index?`: which keys are array indices.
* `Record.arranged`: a list in the order of listing.
* `Record.entries`: the entries of a record built by assignments.
* `precedes_total`, `precedes_trans`: the order of listing is one.
-/

namespace JsonDocument.Record

variable {α : Type}

/-- The greatest array index, `2 ^ 32 - 2`. -/
def maxIndex : Nat := 0xFFFFFFFE

/-- The array index that a key is: a number up to `maxIndex` as it is written in decimal. -/
def index? (key : Text) : Option Nat :=
  let n := Decimal.ofDigits key
  if key.all Decimal.isDigit ∧ Decimal.digits n = key ∧ n ≤ maxIndex then some n else none

/-- Whether a key may be listed before another: indices by size, and before all that are none. -/
def precedes (a b : Text) : Bool :=
  match index? a, index? b with
  | some i, some j => decide (i ≤ j)
  | none, some _ => false
  | _, none => true

/-- Entries in the order of listing; those that are no indices keep their order. -/
def arranged (es : List (Text × α)) : List (Text × α) := es.mergeSort fun a b => precedes a.1 b.1

/-- One entry for each key that was assigned to, in order of first assignment. -/
def assigned (es : List (Text × α)) : List (Text × α) :=
  es.foldl (fun done e => Members.put e.1 e.2 done) []

/-- The entries of a record built by assignments, in the order of listing. -/
def entries (assignments : List (Text × α)) : List (Text × α) := arranged (assigned assignments)

/-! ### Any two keys can be listed, and listing is consistent -/

theorem precedes_total (a b : Text) : precedes a b || precedes b a := by
  unfold precedes
  cases index? a <;> cases index? b <;> simp [Nat.le_total]

theorem precedes_trans {a b c : Text} (hab : precedes a b) (hbc : precedes b c) :
    precedes a c := by
  unfold precedes at hab hbc ⊢
  revert hab hbc
  cases index? a <;> cases index? b <;> cases index? c <;> simp
  exact Nat.le_trans

end JsonDocument.Record
