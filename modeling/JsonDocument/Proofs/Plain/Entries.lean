import Mathlib.Data.List.Sort
import JsonDocument.Proofs.Number.Reading
import JsonDocument.Proofs.Plain.Listing

/-!
# Proofs — Plain — what a record lists

A record lists each key that was assigned to once: first the array indices in ascending order, which
are the decimal texts of the numbers below `2 ^ 32 - 1`, and behind them the other keys in order of
first assignment (`ListingOf`).  Under each key it has what was assigned to it last.

* `index?_eq_some_iff`: which keys are array indices.
* `ListingOf.unique`: there is one order of listing.
* `Listed.listingOf`: keys in the order of listing are those of `ListingOf`.
* `listingOf_entries`, `lookup_entries`: the keys of a record, and what is under each.
-/

namespace JsonDocument.Record

open Members

variable {α : Type} {key : Text} {n : Nat} {given ks ks' : List Text}

theorem digits_eq_toString (n : Nat) : Decimal.digits n = Text.ofString (toString n) :=
  congrArg Text.ofChars Nat.toList_repr.symm

/-- The keys that are indices are the decimal texts of the numbers below `2 ^ 32 - 1`. -/
theorem index?_eq_some_iff :
    index? key = some n ↔ n ≤ 4294967294 ∧ Text.ofString (toString n) = key := by
  rw [← digits_eq_toString]
  constructor
  · intro h
    refine ⟨?_, digits_of_index? h⟩
    simp only [index?, Option.ite_none_right_eq_some, Option.some.injEq] at h
    exact h.2 ▸ h.1.2.2
  · rintro ⟨hn, rfl⟩
    have hdigits : (Decimal.digits n).all Decimal.isDigit = true :=
      List.all_eq_true.mpr (allDigits_digits n)
    simp only [index?, Decimal.ofDigits_digits]
    exact if_pos ⟨hdigits, trivial, hn⟩

/-- The keys `ks` are the given ones in the order of listing: array indices first and ascending, the
others behind them in the order in which they were first given, and none twice. -/
structure ListingOf (given ks : List Text) : Prop where
  ordered : ∃ ns : List Nat, ns.Pairwise (· < ·) ∧
    (∀ n, n ∈ ns ↔ n ≤ 4294967294 ∧ Text.ofString (toString n) ∈ given) ∧
    ks = ns.map (fun n => Text.ofString (toString n)) ++
      given.eraseDups.filter fun k => (index? k).isNone
  nodup : ks.Nodup
  mem_iff : ∀ key, key ∈ ks ↔ key ∈ given

/-- There is one order of listing. -/
theorem ListingOf.unique (h : ListingOf given ks) (h' : ListingOf given ks') : ks = ks' := by
  obtain ⟨ns, hlt, hmem, rfl⟩ := h.ordered
  obtain ⟨ns', hlt', hmem', rfl⟩ := h'.ordered
  rw [hlt.eq_of_mem_iff hlt' fun n => (hmem n).trans (hmem' n).symm]

/-- Keys that are listed are in the order of listing, if those that are no indices are. -/
theorem Listed.listingOf (h : Listed ks) (hmem : ∀ key, key ∈ ks ↔ key ∈ given)
    (hothers : ks.filter (fun k => (index? k).isNone) =
      given.eraseDups.filter fun k => (index? k).isNone) : ListingOf given ks := by
  obtain ⟨heq, hlt⟩ := h.eq_append
  refine ⟨⟨_, hlt, fun n => ?_, ?_⟩, h.nodup, hmem⟩
  · simp only [List.mem_filterMap, hmem, index?_eq_some_iff]
    constructor
    · rintro ⟨k, hk, hn, rfl⟩
      exact ⟨hn, hk⟩
    · rintro ⟨hn, hk⟩
      exact ⟨_, hk, hn, rfl⟩
  · rw [← hothers, ← funext digits_eq_toString]
    exact heq

/-- What is listed of entries without a key twice. -/
theorem listingOf_arranged {es : List (Text × α)} (hnodup : (keys es).Nodup)
    (h : keys es = given.eraseDups) : ListingOf given (keys (arranged es)) := by
  refine (listed_arranged hnodup).listingOf (fun key => ?_) ?_
  · rw [← List.mem_eraseDups (l := given), ← h]
    exact ((List.mergeSort_perm es _).map Prod.fst).mem_iff
  · rw [filter_keys_arranged, h]

theorem listingOf_entries (es : List (Text × α)) : ListingOf (keys es) (keys (entries es)) :=
  listingOf_arranged (nodup_keys_assigned es) (keys_assigned es)

theorem lookup_entries (es : List (Text × α)) :
    (entries es).lookup key = es.reverse.lookup key := by
  rw [entries, lookup_arranged (nodup_keys_assigned es), lookup_assigned]

end JsonDocument.Record
