import JsonDocument.Proofs.Store.Changes

/-!
# Proofs — Store — the operations on nodes

`Store.pushBack`, `Store.put`, `Store.entry` and `Store.assign` on a sound store.  Each replaces the
tree of the node it works on by what the same operation on trees gives for the trees before the
call.  The value may contain the node or be the node itself: the copy is made first.

* `exists_pushBack_iff`, `exists_put_iff`, `exists_entry_iff`, `exists_assign`: when they succeed.
* `pushBack_eq_error_iff`, `put_eq_error_iff`, `entry_eq_error_iff`: how they fail.
* `Sound.pushBack`, `Sound.put`, `Sound.entry`, `Sound.assign`: what they do.
-/

namespace JsonDocument.Store

variable {s s' : Store} {n v c : NodeId} {l : ListId} {t x : Json} {key : Text}
  {ns : List NodeId} {ms : List (Text × NodeId)} {e : Fault}

theorem Sound.unchanged (hs : s.Sound) (hn : s.Has n) (ht : s.treeOf n = .ok t) :
    Changes s s n t :=
  hs.change (fun _ _ _ => ⟨rfl, fun _ _ => rfl⟩) (fun _ => Iff.rfl) (fun _ => Iff.rfl)
    hs.toClosed hs.toUnshared hn ((treeOf_eq_ok_iff hs.toClosed hn).mp ht)

/-! ### New nodes in a list -/

theorem clone_eq_ok {r : Store × NodeId} (h : s.clone v = .ok r) :
    ∃ u, s.treeOf v = .ok u ∧ r = s.grow u := by
  unfold clone at h
  cases hu : s.treeOf v with
  | error e => rw [hu] at h; cases h
  | ok u => rw [hu] at h; exact ⟨u, rfl, (Except.ok.inj h).symm⟩

/-- A new node becomes the last element of an array. -/
theorem Sound.append_fresh (hs : s.Sound) (hl : s.content n = .list l)
    (hi : s.items l = .elements ns) (hg : Grows s s') (hc : Fresh s s' c) (hx : s'.Shows c x) :
    ∃ ts, s.treeOf n = .ok (.array ts) ∧
      Changes s (s'.setItems l (.elements (ns ++ [c]))) n (.array (ts ++ [x])) := by
  have hn := has_of_content hl
  have hmem : ∀ d ∈ ns, d ∈ (s.items l).nodes := fun d hd => by rwa [hi]
  obtain ⟨t, ht⟩ := hs.has_tree hn
  obtain ⟨ts, rfl, hts⟩ := ht.elements hl hi
  refine ⟨ts, (treeOf_eq_ok_iff hs.toClosed hn).mpr ht, hs.setItems_fresh hl hg hc ?_ ?_ ?_⟩
  · have hnd := hs.nodup l
    rw [hi] at hnd
    refine List.nodup_append.mpr ⟨hnd, List.pairwise_singleton _ c, fun d hd e he => ?_⟩
    rintro rfl
    rw [List.mem_singleton] at he
    subst he
    exact hc.new (hs.node_exists (hmem _ hd))
  · intro d hd
    exact (List.mem_append.mp hd).imp (hmem d) List.mem_singleton.mp
  · refine .elements (List.rel_append (forall₂_imp_mem hts fun d hd u hu => ?_) (.cons hx .nil))
    exact hg.shows hs.toClosed (hs.node_exists (hmem d hd)) hu

/-- A new node is stored under a key. -/
theorem Sound.put_fresh (hs : s.Sound) (hl : s.content n = .list l)
    (hi : s.items l = .members ms) (hg : Grows s s') (hc : Fresh s s' c) (hx : s'.Shows c x) :
    ∃ us, s.treeOf n = .ok (.object us) ∧ Members.keys ms = Members.keys us ∧
      Changes s (s'.setItems l (.members (Members.put key c ms))) n
        (.object (Members.put key x us)) ∧
      (s'.setItems l (.members (Members.put key c ms))).find? n key = some c := by
  have hn := has_of_content hl
  have hmem : ∀ d ∈ ms.map Prod.snd, d ∈ (s.items l).nodes := fun d hd => by rwa [hi]
  obtain ⟨t, ht⟩ := hs.has_tree hn
  obtain ⟨us, rfl, hus⟩ := ht.members hl hi
  refine ⟨us, (treeOf_eq_ok_iff hs.toClosed hn).mpr ht, Members.keys_of_forall₂ hus,
    hs.setItems_fresh hl hg hc ?_ ?_ ?_, ?_⟩
  · have hnd := hs.nodup l
    rw [hi] at hnd
    exact Members.nodup_put hnd fun hd => hc.new (hs.node_exists (hmem c hd))
  · intro d hd
    exact (Members.mem_put hd).imp_left (hmem d)
  · refine .members (Members.forall₂_put (forall₂_imp_mem hus fun m hm u hu => ?_) hx)
    exact ⟨hu.1, hg.shows hs.toClosed (hs.node_exists (hmem _ (List.mem_map_of_mem hm))) hu.2⟩
  · refine find?_eq_some_iff.mpr ⟨l, _, (hg.content hn).trans hl,
      items_setItems_self (hg.hasList (hs.list_exists hl)), Members.lookup_put_self key c ms⟩

/-! ### What an operation is for -/

section Success

variable (hv : s.treeOf v = .ok t)
include hv

theorem exists_clone : ∃ r, s.clone v = .ok r := ⟨s.grow t, by rw [clone, hv]; rfl⟩

/-- Appending succeeds for arrays alone. -/
theorem exists_pushBack_iff : (∃ r, s.pushBack n v = .ok r) ↔ s.kindOf n = .array := by
  rw [← exists_elementsOf_iff]
  exact exists_bind_iff fun r => ⟨_, bind_eq_ok.mpr ⟨t, hv, rfl⟩⟩

/-- Storing under a key succeeds for objects alone. -/
theorem exists_put_iff : (∃ r, s.put n key v = .ok r) ↔ s.kindOf n = .object := by
  rw [← exists_membersOf_iff]
  exact exists_bind_iff fun r => ⟨_, bind_eq_ok.mpr ⟨t, hv, rfl⟩⟩

/-- Appending fails for the kind of the node alone. -/
theorem pushBack_eq_error_iff : s.pushBack n v = .error e ↔ s.elementsOf n = .error e :=
  bind_eq_error_iff fun _ _ => ⟨_, bind_eq_ok.mpr ⟨t, hv, rfl⟩⟩

/-- Storing under a key fails for the kind of the node alone. -/
theorem put_eq_error_iff : s.put n key v = .error e ↔ s.membersOf n = .error e :=
  bind_eq_error_iff fun _ _ => ⟨_, bind_eq_ok.mpr ⟨t, hv, rfl⟩⟩

theorem exists_assign : ∃ s', s.assign n v = .ok s' := ⟨_, bind_eq_ok.mpr ⟨t, hv, rfl⟩⟩

end Success

/-- The node of a member is found or made for objects alone. -/
theorem exists_entry_iff : (∃ r, s.entry n key = .ok r) ↔ s.kindOf n = .object := by
  rw [← exists_membersOf_iff]
  refine exists_bind_iff fun ⟨l, ms⟩ => ?_
  -- with the key or without it nothing fails any more
  dsimp only
  split
  · exact ⟨_, rfl⟩
  · exact ⟨_, rfl⟩

/-- The node of a member is refused for the kind of the node alone. -/
theorem entry_eq_error_iff : s.entry n key = .error e ↔ s.membersOf n = .error e := by
  refine bind_eq_error_iff fun ⟨l, ms⟩ _ => ?_
  dsimp only
  split
  · exact ⟨_, rfl⟩
  · exact ⟨_, rfl⟩

/-! ### What an operation does -/

/-- The old tree of `v` is appended to an array, and the node is the last element. -/
theorem Sound.pushBack (hs : s.Sound) (h : s.pushBack n v = .ok (s', c)) :
    ∃ ts u, s.treeOf n = .ok (.array ts) ∧ s.treeOf v = .ok u ∧
      Changes s s' n (.array (ts ++ [u])) ∧ ∃ l ns, s'.elementsOf n = .ok (l, ns ++ [c]) := by
  obtain ⟨⟨l, ns⟩, hns, h⟩ := bind_eq_ok.mp h
  obtain ⟨u, hu, h⟩ := bind_eq_ok.mp h
  cases h
  obtain ⟨hl, hi⟩ := elementsOf_eq_ok_iff.mp hns
  obtain ⟨hg, hc, hx⟩ := grow_spec hs.toClosed u
  obtain ⟨ts, hts, hch⟩ := hs.append_fresh hl hi hg hc hx
  refine ⟨ts, u, hts, hu, hch, l, ns, elementsOf_eq_ok_iff.mpr ⟨?_, ?_⟩⟩
  · exact (hg.content (has_of_content hl)).trans hl
  · exact items_setItems_self (hg.hasList (hs.list_exists hl))

/-- The old tree of `v` is stored under a key, and the node is the one found there. -/
theorem Sound.put (hs : s.Sound) (h : s.put n key v = .ok (s', c)) :
    ∃ us u, s.treeOf n = .ok (.object us) ∧ s.treeOf v = .ok u ∧
      Changes s s' n (.object (Members.put key u us)) ∧ s'.find? n key = some c := by
  obtain ⟨⟨l, ms⟩, hms, h⟩ := bind_eq_ok.mp h
  obtain ⟨u, hu, h⟩ := bind_eq_ok.mp h
  cases h
  obtain ⟨hl, hi⟩ := membersOf_eq_ok_iff.mp hms
  obtain ⟨hg, hc, hx⟩ := grow_spec hs.toClosed u
  obtain ⟨us, hus, -, hch, hf⟩ := hs.put_fresh hl hi hg hc hx
  exact ⟨us, u, hus, hu, hch, hf⟩

/-- An object that has a key is left as it is, another gets a new last member with null; the node is
the one found under the key. -/
theorem Sound.entry (hs : s.Sound) (h : s.entry n key = .ok (s', c)) :
    ∃ us, s.treeOf n = .ok (.object us) ∧
      Changes s s' n
        (.object (if key ∈ Members.keys us then us else us ++ [(key, .null)])) ∧
      (key ∈ Members.keys us → s' = s) ∧ s'.find? n key = some c := by
  obtain ⟨⟨l, ms⟩, hms, h⟩ := bind_eq_ok.mp h
  obtain ⟨hl, hi⟩ := membersOf_eq_ok_iff.mp hms
  have hn := has_of_content hl
  cases hf : ms.lookup key with
  | some d =>
      simp only [hf] at h
      cases h
      obtain ⟨t, ht⟩ := hs.has_tree hn
      obtain ⟨us, rfl, hus⟩ := ht.members hl hi
      have hmem := Members.mem_keys_of_lookup hf
      rw [Members.keys_of_forall₂ hus] at hmem
      have htree := (treeOf_eq_ok_iff hs.toClosed hn).mpr ht
      refine ⟨us, htree, ?_, fun _ => rfl, find?_eq_some_iff.mpr ⟨l, ms, hl, hi, hf⟩⟩
      rw [if_pos hmem]
      exact hs.unchanged hn htree
  | none =>
      simp only [hf] at h
      cases h
      have hmem := Members.lookup_eq_none_iff.mp hf
      obtain ⟨hg, hc, hx⟩ := grow_spec hs.toClosed .null
      obtain ⟨us, hus, hkeys, hch, hfound⟩ := hs.put_fresh hl hi hg hc hx
      rw [Members.put_of_not_mem hmem] at hch hfound
      rw [hkeys] at hmem
      rw [Members.put_of_not_mem hmem] at hch
      refine ⟨us, hus, ?_, fun h => absurd h hmem, hfound⟩
      rwa [if_neg hmem]

/-- The tree of a node becomes the old tree of `v`. -/
theorem Sound.assign (hs : s.Sound) (hn : s.Has n) (h : s.assign n v = .ok s') :
    ∃ u, s.treeOf v = .ok u ∧ Changes s s' n u := by
  obtain ⟨u, hu, h⟩ := bind_eq_ok.mp h
  cases h
  obtain ⟨hg, hr⟩ := growContent_spec hs.toClosed u
  have hs' := hg.sound hs
  refine ⟨u, hu, hg.changes hs hs' (hs'.setContent (hg.has hn) (fun l hl => ?_) hr.depicts)⟩
  have hcopying := hg.copying hs.toClosed
  -- the new list is not one of `n`'s, and nothing in it is old, so it does not lead to `n`
  obtain ⟨hnew, hlist, hfree⟩ := hr.new_list l hl
  exact ⟨hlist, hfree, fun c hc hreach =>
    hcopying.not_has_of_reaches (hg.new_node hnew hc).1 hreach hn⟩

end JsonDocument.Store
