import JsonDocument.Proofs.Store.Copying
import JsonDocument.Proofs.Store.Operations

/-!
# Proofs — Store — the operations copy

What the operations on nodes do to a closed store, whether or not nodes are shared in it.  Each one
touches no other node than the one it works on, and what it stores is a copy: a new node with the
tree of the argument, in the container that receives it and nowhere else.

* `Store.StoresCopy`: a copy has been made, and stored where it belongs.
* `Store.Receives`: the one way in which a copy gets into a list; `receives_pushBack`,
  `receives_put` and `receives_entry` find it in the operations.
* `storesCopy_clone`, `storesCopy_pushBack`, `storesCopy_put`, `storesCopy_array`,
  `storesCopy_object`: the operations that store copies.
* `copying_assign`, `assign_spec`: a node becomes what a copy is.
-/

namespace JsonDocument

/-- The results of a list that all come out, one for each item. -/
theorem mapM_eq_ok_iff {α β : Type} {f : α → Except Fault β} {as : List α} {bs : List β} :
    as.mapM f = .ok bs ↔ List.Forall₂ (fun a b => f a = .ok b) as bs := by
  induction as generalizing bs with
  | nil =>
      rw [List.mapM_nil, List.forall₂_nil_left_iff]
      exact ⟨fun h => by cases h; rfl, fun h => by rw [h]; rfl⟩
  | cons a as ih =>
      rw [List.mapM_cons, List.forall₂_cons_left_iff, bind_eq_ok]
      refine exists_congr fun b => ?_
      rw [bind_eq_ok]
      constructor
      · rintro ⟨hb, bs', hbs, h⟩
        cases h
        exact ⟨bs', hb, ih.mp hbs, rfl⟩
      · rintro ⟨bs', hb, hbs, rfl⟩
        exact ⟨hb, bs', ih.mpr hbs, rfl⟩

/-- Each result comes from an item. -/
theorem exists_of_mem_mapM {α β : Type} {f : α → Except Fault β} {as : List α} {bs : List β} {b : β}
    (h : as.mapM f = .ok bs) (hb : b ∈ bs) : ∃ a ∈ as, f a = .ok b :=
  exists_of_forall₂ (mapM_eq_ok_iff.mp h).flip hb

namespace Store

variable {s s' : Store} {n v c k : NodeId} {l : ListId} {i : Items} {t u : Json} {key : Text}
  {ms : List (Text × NodeId)} {into : Option NodeId}

/-- The node `c` is a copy with the tree `u`: it is new, it is in `into`, or in no list if there is
no such node, and no other node has been touched. -/
structure StoresCopy (s s' : Store) (into : Option NodeId) (c : NodeId) (u : Json) : Prop where
  touches : Touches s s' (· ∈ into)
  copying : Copying s s'
  new : ¬ s.Has c
  has : s'.Has c
  shows : s'.Shows c u
  inside : ∀ k ∈ into, c ∈ s'.children k
  loose : into = none → ∀ l, c ∉ (s'.items l).nodes

namespace StoresCopy

variable (h : StoresCopy s s' into c u)
include h

theorem treeOf : s'.treeOf c = .ok u := (treeOf_eq_ok_iff h.touches.closed h.has).mpr h.shows

/-- A copy is new, and so is all below it. -/
theorem not_has_of_reaches {m : NodeId} (hm : s'.Reaches c m) : ¬ s.Has m :=
  h.copying.not_has_of_reaches h.new hm

theorem owns : s'.Owns c := fun _ hd _ => h.copying.new_placed (h.not_has_of_reaches hd)

/-- What leads to a copy, other than the copy, leads to the node it is in. -/
theorem exists_into {x : NodeId} (hx : s'.Reaches x c) :
    x = c ∨ ∃ k ∈ into, s'.Reaches x k := by
  obtain ⟨p, hp⟩ := hx
  rcases List.eq_nil_or_concat p with rfl | ⟨p, i, rfl⟩
  · exact .inl (Option.some.inj hp)
  · rw [List.concat_eq_append] at hp
    obtain ⟨a, ha, hi⟩ := walk_concat.mp hp
    obtain ⟨l, -, hmem⟩ := exists_list_of_child (List.mem_of_getElem? hi)
    cases into with
    | none => exact absurd hmem (h.loose rfl l)
    | some k =>
        -- the copy is an item of `k` and of `a`, but it has one place
        obtain ⟨j, hj⟩ := List.mem_iff_getElem?.mp (h.inside k rfl)
        have hplaced := h.copying.new_placed h.new
        obtain ⟨rfl, -⟩ := hplaced.slot_unique h.touches.closed hi hj
        exact .inr ⟨a, rfl, p, ha⟩

end StoresCopy

theorem StoresCopy.touches_container (h : StoresCopy s s' (some n) c u) :
    Touches s s' (· = n) :=
  h.touches.mono fun _ hm => (Option.some.inj hm).symm

theorem storesCopy_grow (hs : s.Closed) (u : Json) :
    StoresCopy s (s.grow u).1 none (s.grow u).2 u :=
  let ⟨hg, hf, hu⟩ := grow_spec hs u
  ⟨hg.touches hs, hg.copying hs, hf.new, hf.has, hu, fun _ hk => (nomatch hk), fun _ => hf.loose⟩

/-- A copy is put into the list of a node. -/
theorem StoresCopy.setItems (h : StoresCopy s s' none c u) (hs : s.Closed)
    (hl : s.content n = .list l) (hi : i.nodes.Subperm (c :: (s.items l).nodes))
    (hc : c ∈ i.nodes) : StoresCopy s (s'.setItems l i) (some n) c u where
  touches := by
    refine (h.touches.mono fun _ hm => nomatch hm).setItems (fun d hd => ?_)
      fun m hm => congrArg some (hs.one_owner hl hm)
    rcases List.mem_cons.mp (hi.subset hd) with rfl | hd
    · exact h.has
    · exact h.touches.has (hs.node_exists hd)
  copying := h.copying.setItems hs (hs.list_exists hl) hi (List.nodup_singleton c)
    (List.forall_mem_singleton.mpr ⟨h.new, h.loose rfl⟩)
  new := h.new
  has := has_setItems.mpr h.has
  shows := h.copying.shows_setItems (hs.list_exists hl) h.new h.shows
  inside k hk := by
    cases hk
    have hl' : (s'.setItems l i).content n = .list l :=
      (h.touches.same (has_of_content hl) fun hm => nomatch hm).1.trans hl
    rw [children_of_list hl', items_setItems_self (h.touches.hasList (hs.list_exists hl))]
    exact hc
  loose hn := nomatch hn

/-! ### Operations that store a copy -/

theorem storesCopy_clone (hs : s.Closed) (h : s.clone n = .ok (s', c)) :
    ∃ u, s.treeOf n = .ok u ∧ StoresCopy s s' none c u := by
  obtain ⟨u, hu, hr⟩ := clone_eq_ok h
  obtain ⟨rfl, rfl⟩ := Prod.mk.inj hr
  exact ⟨u, hu, storesCopy_grow hs u⟩

/-- The list of `n` has been given a new node for the tree `u`, besides some of its items. -/
inductive Receives (s : Store) (n : NodeId) (u : Json) : Store → NodeId → Prop where
  | mk {l : ListId} {i : Items} (hl : s.content n = .list l)
      (hi : i.nodes.Subperm ((s.grow u).2 :: (s.items l).nodes)) (hc : (s.grow u).2 ∈ i.nodes) :
      Receives s n u ((s.grow u).1.setItems l i) (s.grow u).2

theorem Receives.storesCopy (h : s.Receives n u s' c) (hs : s.Closed) :
    StoresCopy s s' (some n) c u := by
  obtain ⟨hl, hi, hc⟩ := h
  exact (storesCopy_grow hs u).setItems hs hl hi hc

theorem receives_pushBack (h : s.pushBack n v = .ok (s', c)) :
    ∃ u, s.treeOf v = .ok u ∧ s.Receives n u s' c := by
  obtain ⟨⟨l, ns⟩, hns, h⟩ := bind_eq_ok.mp h
  obtain ⟨u, hu, h⟩ := bind_eq_ok.mp h
  cases h
  obtain ⟨hl, hi⟩ := elementsOf_eq_ok_iff.mp hns
  refine ⟨u, hu, .mk hl ?_ ?_⟩
  · rw [hi]
    exact (List.perm_append_singleton _ ns).subperm
  · exact List.mem_append_right ns (List.mem_singleton_self _)

theorem storesCopy_pushBack (hs : s.Closed) (h : s.pushBack n v = .ok (s', c)) :
    ∃ u, s.treeOf v = .ok u ∧ StoresCopy s s' (some n) c u :=
  (receives_pushBack h).imp fun _ h => h.imp_right fun h => h.storesCopy hs

/-- A new node is stored under a key, or in a new last member. -/
theorem receives_member (hms : s.membersOf n = .ok (l, ms)) (key : Text) (u : Json) :
    s.Receives n u ((s.grow u).1.setItems l (.members (Members.put key (s.grow u).2 ms)))
      (s.grow u).2 := by
  obtain ⟨hl, hi⟩ := membersOf_eq_ok_iff.mp hms
  refine .mk hl ?_ ?_
  · rw [hi]
    exact Members.subperm_put
  · have hget := Members.getElem?_place (Members.lookup_put_self key (s.grow u).2 ms)
    exact List.mem_map_of_mem (List.mem_of_getElem? hget)

theorem storesCopy_member (hs : s.Closed) (hms : s.membersOf n = .ok (l, ms)) (key : Text)
    (u : Json) :
    StoresCopy s ((s.grow u).1.setItems l (.members (Members.put key (s.grow u).2 ms))) (some n)
      (s.grow u).2 u :=
  (receives_member hms key u).storesCopy hs

theorem receives_put (h : s.put n key v = .ok (s', c)) :
    ∃ u, s.treeOf v = .ok u ∧ s.Receives n u s' c := by
  obtain ⟨⟨l, ms⟩, hms, h⟩ := bind_eq_ok.mp h
  obtain ⟨u, hu, h⟩ := bind_eq_ok.mp h
  cases h
  exact ⟨u, hu, receives_member hms key u⟩

theorem storesCopy_put (hs : s.Closed) (h : s.put n key v = .ok (s', c)) :
    ∃ u, s.treeOf v = .ok u ∧ StoresCopy s s' (some n) c u :=
  (receives_put h).imp fun _ h => h.imp_right fun h => h.storesCopy hs

/-- The node of a member is found, or a new one with null is put into the object. -/
theorem receives_entry (h : s.entry n key = .ok (s', c)) :
    s' = s ∧ s.find? n key = some c ∨ s.Receives n .null s' c := by
  obtain ⟨⟨l, ms⟩, hms, h⟩ := bind_eq_ok.mp h
  cases hf : ms.lookup key with
  | some d =>
      simp only [hf] at h
      cases h
      obtain ⟨hl, hi⟩ := membersOf_eq_ok_iff.mp hms
      exact .inl ⟨rfl, find?_eq_some_iff.mpr ⟨l, ms, hl, hi, hf⟩⟩
  | none =>
      simp only [hf] at h
      cases h
      -- the new member at the end is the one that replacement would add
      have hc := receives_member hms key .null
      rw [Members.put_of_not_mem (Members.lookup_eq_none_iff.mp hf)] at hc
      exact .inr hc

/-- An item of a new container is a copy. -/
theorem StoresCopy.item (h : StoresCopy s s' none k t) (hc : c ∈ s'.children k)
    (hu : s'.Shows c u) : StoresCopy s s' (some k) c u where
  touches := h.touches.mono fun _ hm => nomatch hm
  copying := h.copying
  new := h.copying.not_has_of_reaches h.new (.of_child hc (reaches_self s' c))
  has := h.touches.closed.has_child hc
  shows := hu
  inside _ hk := Option.some.inj hk ▸ hc
  loose hn := nomatch hn

/-! ### Operations that make containers of copies -/

/-- An array is made wherever all elements have trees. -/
theorem exists_array {ns : List NodeId} (h : ∀ n ∈ ns, ∃ t, s.treeOf n = .ok t) :
    ∃ r, s.array ns = .ok r := by
  obtain ⟨us, hus⟩ := exists_forall₂ h
  exact ⟨_, bind_eq_ok.mpr ⟨us, mapM_eq_ok_iff.mpr hus, rfl⟩⟩

/-- A new array has the trees of its elements. -/
theorem array_spec {ns : List NodeId} (hs : s.Closed) (h : s.array ns = .ok (s', k)) :
    ∃ us, List.Forall₂ (fun n u => s.treeOf n = .ok u) ns us ∧
      StoresCopy s s' none k (.array us) := by
  obtain ⟨us, hus, h⟩ := bind_eq_ok.mp h
  obtain ⟨rfl, rfl⟩ := Prod.mk.inj (Except.ok.inj h)
  exact ⟨us, mapM_eq_ok_iff.mp hus, storesCopy_grow hs (.array us)⟩

theorem storesCopy_array {ns : List NodeId} {j : Nat} (hs : s.Closed)
    (h : s.array ns = .ok (s', k)) (hn : ns[j]? = some n) (hc : (s'.children k)[j]? = some c) :
    ∃ u, s.treeOf n = .ok u ∧ StoresCopy s s' (some k) c u := by
  obtain ⟨us, hus, hk⟩ := array_spec hs h
  obtain ⟨u, hu, htree⟩ := forall₂_getElem? hus hn
  obtain ⟨u', hu', hshows⟩ := forall₂_getElem? hk.shows.forall₂_array hc
  obtain rfl := Option.some.inj (hu.symm.trans hu')
  exact ⟨u, htree, hk.item (List.mem_of_getElem? hc) hshows⟩

/-- Each element of a new array has a copy in it. -/
theorem exists_item_of_array {ns : List NodeId} (hs : s.Closed) (h : s.array ns = .ok (s', k))
    (hn : n ∈ ns) : ∃ (j : Nat) (c : NodeId), ns[j]? = some n ∧ (s'.children k)[j]? = some c := by
  obtain ⟨us, hus, hk⟩ := array_spec hs h
  obtain ⟨j, hj⟩ := List.mem_iff_getElem?.mp hn
  obtain ⟨u, hu, -⟩ := forall₂_getElem? hus hj
  obtain ⟨c, hc, -⟩ := forall₂_getElem? hk.shows.forall₂_array.flip hu
  exact ⟨j, c, hj, hc⟩

/-- An object is made wherever all values have trees. -/
theorem exists_object {ms : List (Text × NodeId)}
    (h : ∀ m ∈ ms, ∃ t, s.treeOf m.2 = .ok t) : ∃ r, s.object ms = .ok r := by
  have hms : ∀ m ∈ ms, ∃ u : Text × Json, (s.treeOf m.2).map (m.1, ·) = .ok u := fun m hm =>
    let ⟨t, ht⟩ := h m hm
    ⟨(m.1, t), by rw [ht]; rfl⟩
  obtain ⟨us, hus⟩ := exists_forall₂ hms
  exact ⟨_, bind_eq_ok.mpr ⟨us, mapM_eq_ok_iff.mpr hus, rfl⟩⟩

/-- A new object has the trees of its values. -/
theorem object_spec {ms : List (Text × NodeId)} (hs : s.Closed)
    (h : s.object ms = .ok (s', k)) :
    ∃ us, List.Forall₂ (fun m u => s.treeOf m.2 = .ok u.2) ms us ∧
      StoresCopy s s' none k (.object us) := by
  obtain ⟨us, hus, h⟩ := bind_eq_ok.mp h
  obtain ⟨rfl, rfl⟩ := Prod.mk.inj (Except.ok.inj h)
  refine ⟨us, (mapM_eq_ok_iff.mp hus).imp fun m u hu => ?_, storesCopy_grow hs (.object us)⟩
  cases ht : s.treeOf m.2 with
  | error e => rw [ht] at hu; cases hu
  | ok t => rw [ht] at hu; cases hu; rfl

theorem storesCopy_object {ms : List (Text × NodeId)} {j : Nat} (hs : s.Closed)
    (h : s.object ms = .ok (s', k)) (hn : ms[j]? = some (key, n))
    (hc : (s'.children k)[j]? = some c) :
    ∃ u, s.treeOf n = .ok u ∧ StoresCopy s s' (some k) c u := by
  obtain ⟨us, hus, hk⟩ := object_spec hs h
  obtain ⟨m, hm, htree⟩ := forall₂_getElem? hus hn
  obtain ⟨m', hm', hshows⟩ := forall₂_getElem? hk.shows.forall₂_object hc
  obtain rfl := Option.some.inj (hm.symm.trans hm')
  exact ⟨m.2, htree, hk.item (List.mem_of_getElem? hc) hshows⟩

/-- Each value of a new object has a copy in it. -/
theorem exists_item_of_object {ms : List (Text × NodeId)} (hs : s.Closed)
    (h : s.object ms = .ok (s', k)) (hn : (key, n) ∈ ms) :
    ∃ (j : Nat) (c : NodeId), ms[j]? = some (key, n) ∧ (s'.children k)[j]? = some c := by
  obtain ⟨us, hus, hk⟩ := object_spec hs h
  obtain ⟨j, hj⟩ := List.mem_iff_getElem?.mp hn
  obtain ⟨u, hu, -⟩ := forall₂_getElem? hus hj
  obtain ⟨c, hc, -⟩ := forall₂_getElem? hk.shows.forall₂_object.flip hu
  exact ⟨j, c, hj, hc⟩

/-! ### The content of a copy -/

/-- A node gets the content of a copy. -/
theorem copying_assign (hs : s.Closed) (hn : s.Has n) (h : s.assign n v = .ok s') :
    Touches s s' (· = n) ∧ Copying s s' := by
  obtain ⟨u, hu, h⟩ := bind_eq_ok.mp h
  cases h
  obtain ⟨hg, hr⟩ := growContent_spec hs u
  exact ⟨(hg.touches hs).setContent rfl fun l hl => (hr.new_list l hl).2,
    (hg.copying hs).setContent hn fun l hl => (hr.new_list l hl).1⟩

/-- What an assignment comes to: the node has the tree of the value, in a new list of new nodes, and
old lists hold what they have held. -/
theorem assign_spec (hs : s.Closed) (hn : s.Has n) (h : s.assign n v = .ok s') :
    ∃ u, s.treeOf v = .ok u ∧ s'.Shows n u ∧ (∀ c ∈ s'.children n, ¬ s.Has c) ∧
      (∀ l, s'.content n = .list l → ¬ s.HasList l) ∧
      ∀ l, s.HasList l → s'.items l = s.items l := by
  obtain ⟨u, hu, h⟩ := bind_eq_ok.mp h
  cases h
  obtain ⟨hg, hr⟩ := growContent_spec hs u
  have hself := content_setContent_self (k := (s.growContent u).2) (hg.has hn)
  have hlist : ∀ l, ((s.growContent u).1.setContent n (s.growContent u).2).content n = .list l →
      ¬ s.HasList l := fun l hl => (hr.new_list l (hself.symm.trans hl)).1
  have hnew : ∀ c ∈ ((s.growContent u).1.setContent n (s.growContent u).2).children n,
      ¬ s.Has c := fun c hc => by
    obtain ⟨l, hl, hc⟩ := exists_list_of_child hc
    exact (hg.new_node (hlist l hl) hc).1
  refine ⟨u, hu, ?_, hnew, hlist, fun l hl => hg.items hl⟩
  rw [shows_iff]
  refine Depicts.imp (R := (s.growContent u).1.Shows) ?_ fun c hc t ht => ?_
  · rw [hself]
    exact hr.depicts
  · -- what is new does not lead to the node
    refine ht.of_same fun b hb => ⟨content_setContent ?_, fun _ _ => items_setContent⟩
    rintro rfl
    exact (hg.copying hs).not_has_of_reaches (hnew c hc) hb hn

theorem treeOf_assign (hs : s.Closed) (hn : s.Has n) (h : s.assign n v = .ok s') :
    s'.treeOf n = s.treeOf v := by
  obtain ⟨u, hu, hshows, -⟩ := assign_spec hs hn h
  have htouches := (copying_assign hs hn h).1
  rw [hu, treeOf_eq_ok_iff htouches.closed (htouches.has hn)]
  exact hshows

end Store

end JsonDocument
