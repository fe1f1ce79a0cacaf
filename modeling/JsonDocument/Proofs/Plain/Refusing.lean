import JsonDocument.Proofs.Fault
import JsonDocument.Proofs.Number.Integers
import JsonDocument.Proofs.Number.Shortest
import JsonDocument.Proofs.Plain.Data
import JsonDocument.Proofs.Plain.Entries
import JsonDocument.Proofs.Store.Changes

/-!
# Proofs — Plain — what keeps plain data from being a document

There are doubles that are no finite numbers, and things of the surrounding program, that no
document can hold (`Plain.Unfit`).  All other data has a document if its items have; if not, what is
reported is what is reported of the first item without one.

* `Plain.Becomes`: data beside its document, apart from the items.
* `Plain.toJson_ok`, `Plain.toJson_error`: one step into data with and without a document.
-/

namespace JsonDocument

variable {α β : Type}

/-! ### The first refusal of a list -/

/-- Where nothing is refused each part has a result. -/
theorem forall₂_of_firstRefusal {f : β → Except Refusal α} {bs : List β} {as : List α}
    (h : firstRefusal (bs.map f) = .ok as) : List.Forall₂ (fun b a => f b = .ok a) bs as := by
  induction bs generalizing as with
  | nil => cases h; exact .nil
  | cons b bs ih =>
      rw [List.map_cons] at h
      cases hb : f b with
      | error r => rw [hb] at h; cases h
      | ok a =>
          rw [hb] at h
          obtain ⟨as', has, rfl⟩ := map_eq_ok.mp h
          exact .cons hb (ih has)

/-- What is refused is the first part without a result. -/
theorem exists_of_firstRefusal {f : β → Except Refusal α} {bs : List β} {r : Refusal}
    (h : firstRefusal (bs.map f) = .error r) :
    ∃ (i : Nat) (b : β), bs[i]? = some b ∧ f b = .error r ∧
      ∀ j < i, ∀ c, bs[j]? = some c → ∃ a, f c = .ok a := by
  induction bs with
  | nil => cases h
  | cons b bs ih =>
      rw [List.map_cons] at h
      cases hb : f b with
      | error r' =>
          rw [hb] at h
          cases h
          exact ⟨0, b, rfl, hb, fun j hj => absurd hj (Nat.not_lt_zero j)⟩
      | ok a =>
          rw [hb] at h
          obtain ⟨i, c, hc, hr, hbefore⟩ := ih (map_eq_error.mp h)
          refine ⟨i + 1, c, hc, hr, fun j hj c' hc' => ?_⟩
          cases j with
          | zero => cases hc'; exact ⟨a, hb⟩
          | succ j => exact hbefore j (Nat.lt_of_succ_lt_succ hj) c' hc'

/-- The keys of entries go to what became of their values. -/
theorem firstRefusal_keyed (f : β → Except Refusal α) (es : List (Text × β)) :
    firstRefusal (es.map (keyed ∘ Prod.map id f)) =
      (firstRefusal ((es.map Prod.snd).map f)).map (Members.keys es).zip := by
  induction es with
  | nil => rfl
  | cons e es ih =>
      obtain ⟨k, b⟩ := e
      have hkeyed : (keyed ∘ Prod.map id f) (k, b) = (f b).map (k, ·) := rfl
      rw [List.map_cons, List.map_cons, List.map_cons, hkeyed]
      cases f b with
      | error r => rfl
      | ok a =>
          rw [Except.map, firstRefusal, firstRefusal, ih]
          cases firstRefusal ((es.map Prod.snd).map f) <;> rfl

/-- Entries whose values all have results: these stand under the same keys. -/
theorem members_of_firstRefusal {f : β → Except Refusal α} {es : List (Text × β)}
    {ms : List (Text × α)} (h : firstRefusal (es.map (keyed ∘ Prod.map id f)) = .ok ms) :
    Members.keys ms = Members.keys es ∧
      List.Forall₂ (fun b a => f b = .ok a) (es.map Prod.snd) (ms.map Prod.snd) := by
  rw [firstRefusal_keyed] at h
  obtain ⟨as, has, rfl⟩ := map_eq_ok.mp h
  have hvalues := forall₂_of_firstRefusal has
  have hlength : (Members.keys es).length = as.length := by
    rw [← hvalues.length_eq, Members.keys, List.length_map, List.length_map]
  refine ⟨List.map_fst_zip hlength.le, ?_⟩
  rw [List.map_snd_zip hlength.ge]
  exact hvalues

namespace Plain

variable {d : Plain} {v : Json} {r : Refusal}

/-! ### Items -/

/-- The elements of an array, and what a record has under its keys in the order of listing. -/
def items : Plain → List Plain
  | array xs => xs
  | record es => (Record.entries es).map Prod.snd
  | _ => []

/-- Induction over plain data, for all its items at once. -/
theorem inductionOnItems {P : Plain → Prop} (d : Plain)
    (items : ∀ d : Plain, (∀ x ∈ d.items, P x) → P d) : P d := by
  induction d using inductionOn with
  | null | bool | double | integer | string | foreign =>
      exact items _ fun _ hx => absurd hx List.not_mem_nil
  | array xs ih => exact items _ ih
  | record es ih =>
      refine items _ fun x hx => ?_
      obtain ⟨e, he, rfl⟩ := List.mem_map.mp (Record.mem_entries hx)
      exact ih e he

/-- What no document can hold, with what is said of it and the kind of value that was wanted. -/
inductive Unfit : Plain → String → Kind → Prop where
  | notANumber {x : Binary64} (h : x.isNaN) :
      Unfit (.double x) "Cannot represent NaN as a JSON number" .number
  | infinity {x : Binary64} (h : x.magnitude = Binary64.infinity) (hs : x.negative = false) :
      Unfit (.double x) "Cannot represent Infinity as a JSON number" .number
  | negativeInfinity {x : Binary64} (h : x.magnitude = Binary64.infinity) (hs : x.negative) :
      Unfit (.double x) "Cannot represent -Infinity as a JSON number" .number
  | absent : Unfit (.foreign .absent) "Cannot convert undefined to JSON" .object
  | function : Unfit (.foreign .function) "Cannot convert function to JSON" .object
  | symbol : Unfit (.foreign .symbol) "Cannot convert symbol to JSON" .object
  | object (className : String) :
      Unfit (.foreign (.object className)) "Cannot convert object to JSON" .object

/-- Data beside its document, apart from the items.  The number of a double is one that is read as
that double; the members of an object have the keys of the record in the order of listing. -/
inductive Becomes : Plain → Json → Prop where
  | null : Becomes .null .null
  | bool (b : Bool) : Becomes (.bool b) (.bool b)
  | double {x : Binary64} {t : Text} (hx : x.isFinite)
      (ht : ∀ fallback, Literal.toDouble fallback t = x) : Becomes (.double x) (.number t)
  | integer (n : Int) : Becomes (.integer n) (.number (Text.ofString (toString n)))
  | string (t : Text) : Becomes (.string t) (.string t)
  | array {xs : List Plain} {vs : List Json} (h : vs.length = xs.length) :
      Becomes (.array xs) (.array vs)
  | record {es : List (Text × Plain)} {ms : List (Text × Json)}
      (h : Record.ListingOf (Members.keys es) (Members.keys ms)) : Becomes (.record es) (.object ms)

theorem Unfit.not_becomes {message : String} {wanted : Kind} (h : d.Unfit message wanted) :
    ¬ d.Becomes v := by
  intro hd
  cases hd with
  | null | bool | integer | string | array | record => nomatch h
  | @double x t hx ht =>
      have hlt : x.magnitude < Binary64.infinity := of_decide_eq_true hx
      cases h with
      | notANumber h => exact absurd (of_decide_eq_true h) hlt.not_gt
      | infinity h hs | negativeInfinity h hs => exact hlt.ne h

theorem message_notFinite {x : Binary64} {name : String} (h : x.nonFiniteName? = some name) :
    (Refusal.notFinite x).message = "Cannot represent " ++ name ++ " as a JSON number" :=
  congrArg (fun n : Option String => "Cannot represent " ++ n.getD "" ++ " as a JSON number") h

theorem Unfit.items_eq_nil {message : String} {wanted : Kind} (h : d.Unfit message wanted) :
    d.items = [] := by
  cases h <;> rfl

/-- A double that is no finite number is refused by its name. -/
theorem unfit_double {x : Binary64} (h : x.isFinite = false) :
    (double x).Unfit (Refusal.notFinite x).message .number := by
  have hge : Binary64.infinity ≤ x.magnitude := not_lt.mp (of_decide_eq_false h)
  cases hnan : x.isNaN with
  | true =>
      have hname : x.nonFiniteName? = some "NaN" := by
        simp [Binary64.nonFiniteName?, h, hnan]
      rw [message_notFinite hname]
      exact .notANumber hnan
  | false =>
      have heq : x.magnitude = Binary64.infinity :=
        (not_lt.mp (of_decide_eq_false hnan)).antisymm hge
      cases hs : x.negative with
      | true =>
          have hname : x.nonFiniteName? = some "-Infinity" := by
            simp [Binary64.nonFiniteName?, h, hnan, hs]
          rw [message_notFinite hname]
          exact .negativeInfinity heq hs
      | false =>
          have hname : x.nonFiniteName? = some "Infinity" := by
            simp [Binary64.nonFiniteName?, h, hnan, hs]
          rw [message_notFinite hname]
          exact .infinity heq hs

/-! ### One step -/

/-- Data with a document: so have its items, and the document has those of them. -/
theorem toJson_ok (h : d.toJson = .ok v) :
    d.Becomes v ∧ List.Forall₂ (fun x y => x.toJson = .ok y) d.items v.items := by
  cases d with
  | null => cases h; exact ⟨.null, .nil⟩
  | bool b => cases h; exact ⟨.bool b, .nil⟩
  | string t => cases h; exact ⟨.string t, .nil⟩
  | foreign k => cases h
  | integer n =>
      cases h
      rw [ofInt_eq_toString]
      exact ⟨.integer n, .nil⟩
  | double x =>
      rw [toJson] at h
      split at h
      · next hx =>
          cases h
          exact ⟨.double hx (Literal.toDouble_shortest hx), .nil⟩
      · cases h
  | array xs =>
      rw [toJson_array] at h
      obtain ⟨vs, hvs, rfl⟩ := map_eq_ok.mp h
      have hitems := forall₂_of_firstRefusal hvs
      exact ⟨.array hitems.length_eq.symm, hitems⟩
  | record es =>
      rw [toJson_record] at h
      obtain ⟨ms, hms, rfl⟩ := map_eq_ok.mp h
      obtain ⟨hkeys, hitems⟩ := members_of_firstRefusal hms
      refine ⟨.record ?_, hitems⟩
      rw [hkeys]
      exact Record.listingOf_entries es

/-- Data without a document is refused itself, or for the first of its items without one. -/
theorem toJson_error (h : d.toJson = .error r) :
    d.Unfit r.message r.expected ∨
      ∃ (i : Nat) (x : Plain), d.items[i]? = some x ∧ x.toJson = .error r ∧
        ∀ j < i, ∀ y, d.items[j]? = some y → ∃ v, y.toJson = .ok v := by
  cases d with
  | null | bool | integer | string => cases h
  | double x =>
      rw [toJson] at h
      split at h
      · cases h
      · next hx =>
          cases h
          exact .inl (unfit_double (Bool.eq_false_iff.mpr hx))
  | foreign k =>
      cases h
      cases k with
      | absent => exact .inl .absent
      | function => exact .inl .function
      | symbol => exact .inl .symbol
      | object className => exact .inl (.object className)
  | array xs =>
      rw [toJson_array] at h
      exact .inr (exists_of_firstRefusal (map_eq_error.mp h))
  | record es =>
      rw [toJson_record, firstRefusal_keyed] at h
      exact .inr (exists_of_firstRefusal (map_eq_error.mp (map_eq_error.mp h)))

end Plain

end JsonDocument
