import Mathlib.Data.List.Permutation
import JsonDocument.Plain.Record
import JsonDocument.Proofs.Members

/-!
# Proofs — Plain — the order of listing

The keys of a record stand in a fixed order: no key twice, and an array index only behind smaller
indices, so that the indices come first and ascend (`Listed`).  What a record lists is in that
order, however it was built; and a list in that order is left as it is, both by a record that is
built from it and by the choice of the first member for each key.

* `Record.listed_entries`, `Record.listed_arranged_firsts`: the results are in the order.
* `Record.entries_eq_self`, `Record.arranged_firsts_eq_self`: lists in the order stay.
* `Record.entries_map`, `Record.arranged_firsts_map`: the values do not matter.
-/

namespace JsonDocument

variable {α β : Type} {es : List (Text × α)} {key : Text}

namespace Members

/-! ### Values do not matter -/

/-- A fold by steps that look at no value. -/
theorem foldl_map_values (f : α → β) {stepα : List (Text × α) → Text × α → List (Text × α)}
    {stepβ : List (Text × β) → Text × β → List (Text × β)}
    (h : ∀ kept m, stepβ (kept.map (Prod.map id f)) (Prod.map id f m) =
      (stepα kept m).map (Prod.map id f)) (ms : List (Text × α)) :
    (ms.map (Prod.map id f)).foldl stepβ [] = (ms.foldl stepα []).map (Prod.map id f) := by
  rw [List.foldl_map, ← List.map_nil (f := Prod.map id f)]
  exact List.foldl_hom (List.map (Prod.map id f)) h

theorem firsts_map (f : α → β) (ms : List (Text × α)) :
    firsts (ms.map (Prod.map id f)) = (firsts ms).map (Prod.map id f) := by
  refine foldl_map_values f (fun kept m => ?_) ms
  rw [Prod.map_fst, id_eq, lookup_map, Option.isSome_map]
  split
  · rfl
  · rw [List.map_append, List.map_singleton]

/-! ### No key twice -/

theorem nodup_keys_put {ms : List (Text × α)} {a : α} (h : (keys ms).Nodup) :
    (keys (put key a ms)).Nodup := by
  rw [keys_put]
  split
  · exact h
  · next hm => exact List.nodup_append.mpr ⟨h, List.pairwise_singleton _ _, fun k hk l hl => by
      rintro rfl
      exact hm (List.mem_singleton.mp hl ▸ hk)⟩

theorem nodup_keys_firsts (ms : List (Text × α)) : (keys (firsts ms)).Nodup := by
  unfold firsts
  refine List.foldlRecOn ms _ (motive := fun kept => (keys kept).Nodup) List.nodup_nil
    fun kept h m _ => ?_
  split
  · exact h
  · next hm =>
      have hm : m.1 ∉ keys kept := lookup_eq_none_iff.mp (Option.not_isSome_iff_eq_none.mp hm)
      rw [← put_of_not_mem (a := m.2) hm]
      exact nodup_keys_put h

theorem firsts_subset (ms : List (Text × α)) : firsts ms ⊆ ms := by
  unfold firsts
  refine List.foldlRecOn ms _ (motive := (· ⊆ ms)) (List.nil_subset _) fun kept h m hm => ?_
  split
  · exact h
  · exact List.append_subset.mpr ⟨h, List.cons_subset.mpr ⟨hm, List.nil_subset _⟩⟩

/-- The last of some members is kept if its key is new. -/
theorem firsts_concat (ms : List (Text × α)) (m : Text × α) : firsts (ms ++ [m]) =
    if ((firsts ms).lookup m.1).isSome then firsts ms else firsts ms ++ [m] := by
  rw [firsts, List.foldl_append]
  rfl

/-- What is found among the first members is what is found. -/
theorem lookup_firsts (ms : List (Text × α)) : (firsts ms).lookup key = ms.lookup key := by
  induction ms using List.reverseRecOn with
  | nil => rfl
  | append_singleton ms m ih =>
      obtain ⟨k, a⟩ := m
      rw [firsts_concat, List.lookup_append, ← ih]
      split
      · next hk =>
          rw [lookup_cons]
          split
          · next he =>
              obtain ⟨b, hb⟩ := Option.isSome_iff_exists.mp hk
              rw [← he, hb, Option.some_or]
          · rw [List.lookup_nil, Option.or_none]
      · rw [List.lookup_append]

/-- The keys that are left by a fold which adds a member only if its key is new. -/
theorem keys_foldl {step : List (Text × α) → Text × α → List (Text × α)}
    (hstep : ∀ kept m, keys (step kept m) =
      if m.1 ∈ keys kept then keys kept else keys kept ++ [m.1]) (ms : List (Text × α)) :
    keys (ms.foldl step []) = (keys ms).eraseDups := by
  induction ms using List.reverseRecOn with
  | nil => rfl
  | append_singleton ms m ih =>
      have hkeys : keys (ms ++ [m]) = keys ms ++ [m.1] := List.map_append ..
      rw [List.foldl_append, List.foldl_cons, List.foldl_nil, hstep, ih, hkeys,
        List.eraseDups_append]
      by_cases hm : m.1 ∈ keys ms
      · have hlast : [m.1].removeAll (keys ms) = [] := by simp [List.removeAll, hm]
        rw [if_pos (List.mem_eraseDups.mpr hm), hlast, List.eraseDups_nil, List.append_nil]
      · have hlast : [m.1].removeAll (keys ms) = [m.1] := by simp [List.removeAll, hm]
        rw [if_neg (mt List.mem_eraseDups.mp hm), hlast]
        rfl

/-- The first members have each key once, in order of first occurrence. -/
theorem keys_firsts (ms : List (Text × α)) : keys (firsts ms) = (keys ms).eraseDups := by
  refine keys_foldl (fun kept m => ?_) ms
  by_cases hm : m.1 ∈ keys kept
  · have hfound : (kept.lookup m.1).isSome := by
      rw [Option.isSome_iff_ne_none, Ne, lookup_eq_none_iff, not_not]
      exact hm
    rw [if_pos hfound, if_pos hm]
  · rw [lookup_eq_none_iff.mpr hm, if_neg hm]
    exact List.map_append ..

/-- Where no key occurs twice every member is found. -/
theorem lookup_eq_some_iff_mem {ms : List (Text × α)} {a : α} (h : (keys ms).Nodup) :
    ms.lookup key = some a ↔ (key, a) ∈ ms := by
  refine ⟨fun hk => List.mem_of_getElem? (getElem?_place hk), fun hm => ?_⟩
  obtain ⟨before, after, rfl⟩ := List.append_of_mem hm
  have hnew : key ∉ keys before := by
    rw [keys, List.map_append, List.map_cons, List.nodup_append] at h
    exact fun hk => h.2.2 _ hk _ (List.mem_cons_self ..) rfl
  rw [List.lookup_append, lookup_eq_none_iff.mpr hnew, Option.none_or, lookup_cons, if_pos rfl]

/-- A fold that appends each member with a new key keeps a list without a key twice. -/
theorem foldl_eq_self {step : List (Text × α) → Text × α → List (Text × α)}
    (hstep : ∀ kept m, m.1 ∉ keys kept → step kept m = kept ++ [m]) {ms : List (Text × α)}
    (h : (keys ms).Nodup) : ms.foldl step [] = ms := by
  suffices ∀ kept, (keys (kept ++ ms)).Nodup → ms.foldl step kept = kept ++ ms from this [] h
  clear h
  induction ms with
  | nil => exact fun kept _ => (List.append_nil kept).symm
  | cons m ms ih =>
      intro kept h
      have hm : m.1 ∉ keys kept := by
        rw [keys, List.map_append, List.nodup_append] at h
        exact fun hm => h.2.2 _ hm _ (List.mem_cons_self ..) rfl
      rw [List.append_cons] at h
      rw [List.foldl_cons, hstep kept m hm, ih _ h, ← List.append_cons]

/-- Members without a key twice are all first ones. -/
theorem firsts_eq_self {ms : List (Text × α)} (h : (keys ms).Nodup) : firsts ms = ms := by
  refine foldl_eq_self (fun kept m hm => ?_) h
  rw [lookup_eq_none_iff.mpr hm]
  rfl

end Members

namespace Record

open Members

/-! ### The order -/

/-- Keys in the order of listing: none twice, and an index behind smaller indices only. -/
structure Listed (ks : List Text) : Prop where
  nodup : ks.Nodup
  ascending : ks.Pairwise fun a b => ∀ j, index? b = some j → ∃ i, index? a = some i ∧ i < j

/-- An index is written in one way. -/
theorem digits_of_index? {n : Nat} (h : index? key = some n) : Decimal.digits n = key := by
  simp only [index?, Option.ite_none_right_eq_some, Option.some.injEq] at h
  exact h.2 ▸ h.1.2.1

theorem precedes_iff {a b : Text} (h : a ≠ b) :
    precedes a b = true ↔ ∀ j, index? b = some j → ∃ i, index? a = some i ∧ i < j := by
  unfold precedes
  cases ha : index? a with
  | none => cases index? b <;> simp
  | some i =>
      cases hb : index? b with
      | none => simp
      | some j =>
          have hij : i ≠ j := fun hij =>
            h ((digits_of_index? ha).symm.trans (hij ▸ digits_of_index? hb))
          simp only [decide_eq_true_eq, Option.some.injEq, forall_eq', exists_eq_left']
          omega

theorem listed_iff {ks : List Text} :
    Listed ks ↔ ks.Nodup ∧ ks.Pairwise fun a b => precedes a b = true :=
  ⟨fun h => ⟨h.nodup, (h.nodup.and h.ascending).imp fun h => (precedes_iff h.1).mpr h.2⟩,
    fun h => ⟨h.1, (h.1.and h.2).imp fun h => (precedes_iff h.1).mp h.2⟩⟩

/-! ### Arranged entries -/

theorem listed_arranged (h : (keys es).Nodup) : Listed (keys (arranged es)) := by
  refine listed_iff.mpr ⟨?_, List.pairwise_map.mpr ?_⟩
  · exact ((List.mergeSort_perm es _).map Prod.fst).nodup_iff.mpr h
  · exact @List.pairwise_mergeSort _ (fun a b : Text × α => precedes a.1 b.1)
      (fun _ _ _ => precedes_trans) (fun a b => precedes_total a.1 b.1) es

theorem arranged_eq_self (h : Listed (keys es)) : arranged es = es :=
  List.mergeSort_of_pairwise (List.pairwise_map.mp (listed_iff.mp h).2)

theorem arranged_map (f : α → β) (es : List (Text × α)) :
    arranged (es.map (Prod.map id f)) = (arranged es).map (Prod.map id f) :=
  -- both sides compare keys, which the map keeps
  (List.map_mergeSort (r := fun a b : Text × α => precedes a.1 b.1)
    (s := fun a b : Text × β => precedes a.1 b.1) fun _ _ _ _ => rfl).symm

theorem lookup_arranged (h : (keys es).Nodup) : (arranged es).lookup key = es.lookup key := by
  refine Option.ext fun a => ?_
  rw [lookup_eq_some_iff_mem h, lookup_eq_some_iff_mem (listed_arranged h).nodup]
  exact List.mem_mergeSort

/-- Keys that are no indices keep their order. -/
theorem filter_keys_arranged (es : List (Text × α)) :
    (keys (arranged es)).filter (fun k => (index? k).isNone) =
      (keys es).filter (fun k => (index? k).isNone) := by
  rw [keys, keys, List.filter_map, List.filter_map]
  refine congrArg (List.map Prod.fst) ?_
  -- those entries are listed in the order they have, so they keep it
  have hpairwise : (es.filter ((fun k => (index? k).isNone) ∘ Prod.fst)).Pairwise
      fun a b => precedes a.1 b.1 = true := by
    refine List.pairwise_of_forall_mem_list fun a _ b hb => ?_
    have hb : (index? b.1).isNone := (List.mem_filter.mp hb).2
    rw [precedes, Option.isNone_iff_eq_none.mp hb]
    cases index? a.1 <;> rfl
  have hsub : (es.filter ((fun k => (index? k).isNone) ∘ Prod.fst)).Sublist (arranged es) := by
    refine List.sublist_mergeSort (fun a b c => ?_) (fun a b => ?_) hpairwise List.filter_sublist
    · exact precedes_trans
    · exact precedes_total a.1 b.1
  have hsub := hsub.filter ((fun k => (index? k).isNone) ∘ Prod.fst)
  simp only [List.filter_filter, Bool.and_self] at hsub
  exact (hsub.eq_of_length ((List.mergeSort_perm es _).symm.filter _).length_eq).symm

/-- Keys in the order are the indices, which ascend, and behind them the others. -/
theorem Listed.eq_append {ks : List Text} (h : Listed ks) :
    ks = (ks.filterMap index?).map Decimal.digits ++ ks.filter (fun k => (index? k).isNone) ∧
      (ks.filterMap index?).Pairwise (· < ·) := by
  obtain ⟨-, h⟩ := h
  induction ks with
  | nil => exact ⟨rfl, .nil⟩
  | cons k ks ih =>
      obtain ⟨hk, hks⟩ := List.pairwise_cons.mp h
      obtain ⟨heq, hlt⟩ := ih hks
      cases hi : index? k with
      | none =>
          -- behind a key that is no index there is none
          have hnone : ∀ b ∈ k :: ks, index? b = none := by
            refine List.forall_mem_cons.mpr ⟨hi, fun b hb => ?_⟩
            refine Option.eq_none_iff_forall_ne_some.mpr fun j hj => ?_
            obtain ⟨i, hi', -⟩ := hk b hb j hj
            rw [hi] at hi'
            cases hi'
          rw [List.filterMap_eq_nil_iff.mpr hnone, List.filter_eq_self.mpr fun b hb =>
            Option.isNone_iff_eq_none.mpr (hnone b hb)]
          exact ⟨rfl, .nil⟩
      | some i =>
          rw [List.filterMap_cons_some hi, List.filter_cons_of_neg (by simp [hi]), List.map_cons,
            digits_of_index? hi, List.cons_append, ← heq]
          refine ⟨rfl, List.pairwise_cons.mpr ⟨fun j hj => ?_, hlt⟩⟩
          obtain ⟨b, hb, hj⟩ := List.mem_filterMap.mp hj
          obtain ⟨i', hi', hlt⟩ := hk b hb j hj
          rw [hi] at hi'
          cases hi'
          exact hlt

/-! ### The entries of a record -/

theorem nodup_keys_assigned (es : List (Text × α)) : (keys (assigned es)).Nodup :=
  List.foldlRecOn es _ (motive := fun done => (keys done).Nodup) List.nodup_nil
    fun _ h _ _ => nodup_keys_put h

theorem assigned_eq_self (h : (keys es).Nodup) : assigned es = es :=
  foldl_eq_self (fun _ _ => put_of_not_mem) h

/-- Each key has a place, which the first assignment to it gave. -/
theorem keys_assigned (es : List (Text × α)) : keys (assigned es) = (keys es).eraseDups :=
  keys_foldl (fun done e => keys_put e.1 e.2 done) es

/-- Under each key there is what was assigned to it last. -/
theorem lookup_assigned (es : List (Text × α)) :
    (assigned es).lookup key = es.reverse.lookup key := by
  induction es using List.reverseRecOn with
  | nil => rfl
  | append_singleton es e ih =>
      obtain ⟨k, a⟩ := e
      have hlast : assigned (es ++ [(k, a)]) = put k a (assigned es) := List.foldl_concat ..
      rw [hlast, List.reverse_concat, lookup_cons]
      by_cases hk : k = key
      · rw [if_pos hk, hk, lookup_put_self]
      · rw [if_neg hk, lookup_put_of_ne (Ne.symm hk), ih]

theorem assigned_map (f : α → β) (es : List (Text × α)) :
    assigned (es.map (Prod.map id f)) = (assigned es).map (Prod.map id f) :=
  foldl_map_values f (fun done e => put_map f e.2 done) es

/-- A record lists its entries in the order of listing. -/
theorem listed_entries (es : List (Text × α)) : Listed (keys (entries es)) :=
  listed_arranged (nodup_keys_assigned es)

/-- A record built from a list in the order lists just that. -/
theorem entries_eq_self (h : Listed (keys es)) : entries es = es := by
  rw [entries, assigned_eq_self h.nodup, arranged_eq_self h]

theorem entries_map (f : α → β) (es : List (Text × α)) :
    entries (es.map (Prod.map id f)) = (entries es).map (Prod.map id f) := by
  rw [entries, assigned_map, arranged_map, entries]

/-- The entries of a record hold what has been assigned. -/
theorem mem_entries {a : α} (h : a ∈ (entries es).map Prod.snd) : a ∈ es.map Prod.snd := by
  obtain ⟨e, he, rfl⟩ := List.mem_map.mp h
  have hlast : es.reverse.lookup e.1 = some e.2 := by
    rw [← lookup_assigned]
    exact (lookup_eq_some_iff_mem (nodup_keys_assigned es)).mpr (List.mem_mergeSort.mp he)
  exact List.mem_map_of_mem (List.mem_reverse.mp (List.mem_of_getElem? (getElem?_place hlast)))

/-! ### The first member for each key -/

theorem listed_arranged_firsts (ms : List (Text × α)) : Listed (keys (arranged (firsts ms))) :=
  listed_arranged (nodup_keys_firsts ms)

theorem arranged_firsts_subset (ms : List (Text × α)) : arranged (firsts ms) ⊆ ms :=
  fun _ h => firsts_subset ms (List.mem_mergeSort.mp h)

theorem arranged_firsts_eq_self (h : Listed (keys es)) : arranged (firsts es) = es := by
  rw [firsts_eq_self h.nodup, arranged_eq_self h]

theorem arranged_firsts_map (f : α → β) (ms : List (Text × α)) :
    arranged (firsts (ms.map (Prod.map id f))) = (arranged (firsts ms)).map (Prod.map id f) := by
  rw [firsts_map, arranged_map]

end Record

end JsonDocument
