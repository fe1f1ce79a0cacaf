import JsonDocument.Text

/-!
# Members — lists of key and value with repeated keys

An object is the list of its members in order; a key may occur more than once and its first
occurrence is the one that counts.  `List.lookup` finds that one, `Members.put` replaces it.

* `lookup_put_self`, `lookup_put_of_ne`: what is found after a replacement.
* `keys_put`: the keys stay as they are, but for a new one at the end.
-/

namespace JsonDocument.Members

variable {α : Type}

/-- The keys in order. -/
def keys (ms : List (Text × α)) : List Text := ms.map Prod.fst

/-- Stores a value under the first occurrence of a key, or in a new last member. -/
def put (key : Text) (value : α) : List (Text × α) → List (Text × α)
  | [] => [(key, value)]
  | (k, a) :: ms => if k = key then (key, value) :: ms else (k, a) :: put key value ms

/-- Drops every member whose key has occurred before. -/
def firsts (ms : List (Text × α)) : List (Text × α) :=
  ms.foldl (fun kept m => if (kept.lookup m.1).isSome then kept else kept ++ [m]) []

theorem lookup_cons {key k : Text} {a : α} {ms : List (Text × α)} :
    List.lookup key ((k, a) :: ms) = if k = key then some a else ms.lookup key := by
  rw [List.lookup_cons]
  by_cases h : k = key
  · simp [h]
  · rw [if_neg h, beq_false_of_ne (Ne.symm h)]

theorem lookup_put_self (key : Text) (value : α) (ms : List (Text × α)) :
    (put key value ms).lookup key = some value := by
  induction ms with
  | nil => rw [put, lookup_cons, if_pos rfl]
  | cons m ms ih =>
      obtain ⟨k, a⟩ := m
      rw [put]
      split
      · rw [lookup_cons, if_pos rfl]
      · next h => rw [lookup_cons, if_neg h, ih]

theorem lookup_put_of_ne {key other : Text} (h : other ≠ key) (value : α)
    (ms : List (Text × α)) : (put key value ms).lookup other = ms.lookup other := by
  induction ms with
  | nil => rw [put, lookup_cons, if_neg h.symm]
  | cons m ms ih =>
      obtain ⟨k, a⟩ := m
      rw [put]
      split
      · next hk => rw [lookup_cons, lookup_cons, if_neg h.symm, hk, if_neg h.symm]
      · rw [lookup_cons, lookup_cons, ih]

theorem keys_put (key : Text) (value : α) (ms : List (Text × α)) :
    keys (put key value ms) = if key ∈ keys ms then keys ms else keys ms ++ [key] := by
  induction ms with
  | nil => simp [put, keys]
  | cons m ms ih =>
      rcases m with ⟨k, a⟩
      by_cases hk : k = key
      · simp [put, keys, hk]
      · simp only [keys] at ih
        by_cases hm : key ∈ ms.map Prod.fst <;> simp_all [put, keys, Ne.symm hk]

end JsonDocument.Members
