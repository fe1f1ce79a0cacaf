import JsonDocument.Proofs.Store.Changes

/-!
# Proofs — Store — changes that copy

Two things are said of a change to a store, whether or not nodes are shared in it.  First, which
nodes it touches: a node that leads to none of these keeps its tree (`Touches.treeOf`), and so does
an item that stays in the only one of these (`Touches.treeOf_item`).  Second, that what it brings
into lists is new (`Copying`).

* `Store.Touches`: nothing but the given nodes is touched.
* `Touches.reaches_iff`: what leads to the one node that is touched.
* `Copying.setItems`, `Copying.setContent`: a list gets new nodes besides some of its own, or a node
  gets a new list.
-/

namespace JsonDocument.Store

variable {s s' : Store} {n m c d x a b : NodeId} {l l' : ListId} {i : Items} {k : Content}
  {t u : Json} {p q : List Nat} {T T' : NodeId → Prop}

/-! ### Nodes that are touched -/

/-- Everything that exists stays and nothing refers to what does not exist; nodes without `T` are as
they were. -/
structure Touches (s s' : Store) (T : NodeId → Prop) : Prop extends Covers s s' where
  closed : s'.Closed
  same : ∀ {m}, s.Has m → ¬ T m → SameAt s s' m

theorem Touches.refl (hs : s.Closed) : Touches s s T :=
  ⟨⟨id, id⟩, hs, fun _ _ => ⟨rfl, fun _ _ => rfl⟩⟩

theorem Touches.mono (h : Touches s s' T) (hT : ∀ m, T m → T' m) : Touches s s' T' :=
  { h with same := fun hm hT' => h.same hm (mt (hT _) hT') }

theorem SameAt.symm (h : SameAt s s' n) : SameAt s' s n :=
  ⟨h.1.symm, fun l hl => (h.2 l (h.1.symm.trans hl)).symm⟩

theorem reaches_of_same (h : ∀ m, s.Reaches n m → SameAt s s' m) :
    s'.Reaches n m ↔ s.Reaches n m :=
  exists_congr fun p => by rw [walk_of_same h]

theorem shows_iff_of_same (h : ∀ m, s.Reaches n m → SameAt s s' m) :
    s'.Shows n t ↔ s.Shows n t :=
  ⟨fun ht => ht.of_same fun m hm => (h m ((reaches_of_same h).mp hm)).symm, fun ht => ht.of_same h⟩

/-- A node without a tree contains itself, and nothing else can be wrong with it. -/
theorem treeOf_eq_error {e : Fault} (h : s.treeOf n = .error e) : e = .cyclic := by
  unfold treeOf at h
  split at h
  · cases h
  · cases h
    rfl

/-- Nodes that have the same trees, or none, answer alike. -/
theorem treeOf_congr (h : ∀ t, s'.treeOf m = .ok t ↔ s.treeOf n = .ok t) :
    s'.treeOf m = s.treeOf n := by
  cases ht : s.treeOf n with
  | ok t => exact (h t).mpr ht
  | error e =>
      cases ht' : s'.treeOf m with
      | ok t =>
          rw [(h t).mp ht'] at ht
          cases ht
      | error e' => rw [treeOf_eq_error ht, treeOf_eq_error ht']

/-- A node that leads to nothing that is touched keeps its tree, or goes on to have none. -/
theorem Touches.treeOf (h : Touches s s' T) (hs : s.Closed) (hx : s.Has x)
    (hT : ∀ m, s.Reaches x m → ¬ T m) : s'.treeOf x = s.treeOf x := by
  have hsame : ∀ m, s.Reaches x m → SameAt s s' m := fun m hm =>
    h.same (hs.has_of_reaches hx hm) (hT m hm)
  refine treeOf_congr fun t => ?_
  rw [treeOf_eq_ok_iff h.closed (h.has hx), treeOf_eq_ok_iff hs hx, shows_iff_of_same hsame]

/-! ### One node that is touched -/

/-- What has led to the node leads to it, for up to the node nothing has changed. -/
theorem Touches.reaches_iff (h : Touches s s' (· = n)) (hs : s.Closed) (hx : s.Has x) :
    s'.Reaches x n ↔ s.Reaches x n := by
  constructor
  · intro hr
    by_contra hnot
    have hsame : ∀ m, s.Reaches x m → SameAt s s' m := by
      intro m hm
      refine h.same (hs.has_of_reaches hx hm) ?_
      rintro rfl
      exact hnot hm
    exact hnot ((reaches_of_same hsame).mp hr)
  · rintro ⟨p, hp⟩
    induction p generalizing x with
    | nil =>
        cases hp
        exact reaches_self s' _
    | cons j p ih =>
        by_cases hxn : x = n
        · rw [hxn]
          exact reaches_self s' n
        · obtain ⟨c, hc, hp⟩ := walk_cons.mp hp
          have hc := List.mem_of_getElem? hc
          refine .of_child ?_ (ih (hs.has_child hc) hp)
          rwa [(h.same hx hxn).children]

theorem Touches.treeOf_of_not_reaches (h : Touches s s' (· = n)) (hs : s.Closed) (hx : s.Has x)
    (hr : ¬ s.Reaches x n) : s'.treeOf x = s.treeOf x := by
  refine h.treeOf hs hx ?_
  rintro m hm rfl
  exact hr hm

/-- An item that leads back to its container has no tree. -/
theorem treeOf_of_cycle (hs : s.Closed) (hc : c ∈ s.children n) (hr : s.Reaches c n) :
    s.treeOf c = .error .cyclic := by
  cases ht : s.treeOf c with
  | error e => rw [treeOf_eq_error ht]
  | ok t =>
      obtain ⟨p, hp⟩ := hr
      obtain ⟨j, hj⟩ := List.mem_iff_getElem?.mp hc
      have hshows := (treeOf_eq_ok_iff hs (hs.has_child hc)).mp ht
      have hnil := hshows.walk_self (walk_concat.mpr ⟨n, hp, hj⟩)
      exact absurd hnil (List.append_ne_nil_of_right_ne_nil p (List.cons_ne_nil j []))

/-- An item that stays in the node keeps its tree, or goes on to have none. -/
theorem Touches.treeOf_item (h : Touches s s' (· = n)) (hs : s.Closed) (hc : c ∈ s.children n)
    (hc' : c ∈ s'.children n) : s'.treeOf c = s.treeOf c := by
  have hhas := hs.has_child hc
  by_cases hr : s.Reaches c n
  · rw [treeOf_of_cycle hs hc hr, treeOf_of_cycle h.closed hc' ((h.reaches_iff hs hhas).mpr hr)]
  · exact h.treeOf_of_not_reaches hs hhas hr

/-! ### New nodes, new lists -/

theorem Grows.touches (h : Grows s s') (hs : s.Closed) : Touches s s' T :=
  ⟨h.toCovers, h.closed hs, fun hm _ => ⟨h.content hm, fun _ hl => h.items (hs.list_exists hl)⟩⟩

theorem Copying.refl (hs : s.Closed) : Copying s s := (Grows.refl s).copying hs

/-! ### Other items in a list -/

theorem SameAt.trans {s'' : Store} (h : SameAt s s' n) (h' : SameAt s' s'' n) : SameAt s s'' n :=
  ⟨h'.1.trans h.1, fun l hl => (h'.2 l (h.1.trans hl)).trans (h.2 l hl)⟩

theorem Touches.setItems (h : Touches s s' T) (hi : ∀ c ∈ i.nodes, s'.Has c)
    (hT : ∀ m, s.content m = .list l → T m) : Touches s (s'.setItems l i) T where
  has hn := has_setItems.mpr (h.has hn)
  hasList hl := hasList_setItems.mpr (h.hasList hl)
  closed := h.closed.setItems hi
  same {m} hm hm' := by
    have hsame := h.same hm hm'
    exact hsame.trans (sameAt_setItems fun hl => hm' (hT m (hsame.1.symm.trans hl)))

theorem count_setItems_le (l' : ListId) : ((s.setItems l i).items l').nodes.count d ≤
    if l' = l then i.nodes.count d else (s.items l').nodes.count d := by
  split
  · next hl =>
      subst hl
      by_cases hl : s.HasList l'
      · rw [items_setItems_self hl]
      · rw [items_of_not_hasList (mt hasList_setItems.mp hl)]
        exact Nat.zero_le _
  · next hl => rw [items_setItems hl]

/-- What is new does not lead to the owner of an old list, so it keeps its tree. -/
theorem Copying.shows_setItems (h : Copying s s') (hl : s.HasList l) (hn : ¬ s.Has n)
    (ht : s'.Shows n t) : (s'.setItems l i).Shows n t :=
  ht.of_same fun _ hm => sameAt_setItems fun hc =>
    h.not_has_of_reaches hn hm (has_of_content (h.old_owner hl hc))

/-- An old list gets some of its items and some new nodes, in any order. -/
theorem Copying.setItems {new : List NodeId} (h : Copying s s') (hs : s.Closed) (hl : s.HasList l)
    (hi : i.nodes.Subperm (new ++ (s.items l).nodes)) (hnd : new.Nodup)
    (hnew : ∀ c ∈ new, ¬ s.Has c ∧ ∀ l, c ∉ (s'.items l).nodes) :
    Copying s (s'.setItems l i) where
  old_owner := h.old_owner
  old_places {d} hd l' := by
    refine (count_setItems_le l').trans ?_
    split
    · next hl' =>
        -- an old node is not among the new ones
        have hcount := hi.count_le d
        rwa [List.count_append, List.count_eq_zero_of_not_mem fun hmem => (hnew d hmem).1 hd,
          Nat.zero_add, ← hl'] at hcount
    · exact h.old_places hd l'
  new_placed {d} hd := by
    have hold : d ∉ (s.items l).nodes := fun hmem => hd (hs.node_exists hmem)
    have hmem : d ∈ i.nodes → d ∈ new := fun hmem =>
      (List.mem_append.mp (hi.subset hmem)).resolve_right hold
    refine ⟨fun l' => (count_setItems_le l').trans ?_, fun hd₁ hd₂ => ?_⟩
    · split
      · have hcount := hi.count_le d
        rw [List.count_append, List.count_eq_zero_of_not_mem hold] at hcount
        exact hcount.trans (List.nodup_iff_count_le_one.mp hnd d)
      · exact (h.new_placed hd).once l'
    · rcases mem_setItems hd₁ with ⟨rfl, hin⟩ | ⟨-, hout⟩ <;>
        rcases mem_setItems hd₂ with ⟨rfl, hin'⟩ | ⟨-, hout'⟩
      · rfl
      · exact absurd hout' ((hnew d (hmem hin)).2 _)
      · exact absurd hout ((hnew d (hmem hin')).2 _)
      · exact (h.new_placed hd).apart hout hout'
  new_tree {n} hn hn' := by
    obtain ⟨t, ht⟩ := h.new_tree hn hn'
    exact ⟨t, h.shows_setItems hl hn ht⟩

/-! ### Another content -/

theorem Touches.setContent (h : Touches s s' T) (hT : T n)
    (hk : ∀ l, k = .list l → s'.HasList l ∧ ∀ m, s'.content m ≠ .list l) :
    Touches s (s'.setContent n k) T where
  has hn := has_setContent.mpr (h.has hn)
  hasList hl := hasList_setContent.mpr (h.hasList hl)
  closed := h.closed.setContent hk
  same {m} hm hm' := by
    refine (h.same hm hm').trans ⟨content_setContent ?_, fun _ _ => items_setContent⟩
    rintro rfl
    exact hm' hT

/-- An old node gets a scalar or a new list. -/
theorem Copying.setContent (h : Copying s s') (hn : s.Has n)
    (hk : ∀ l, k = .list l → ¬ s.HasList l) : Copying s (s'.setContent n k) where
  old_owner {a l} hl ha := by
    rcases content_setContent_cases ha with ⟨-, hkl⟩ | ⟨-, ha⟩
    · exact absurd hl (hk l hkl)
    · exact h.old_owner hl ha
  old_places := h.old_places
  new_placed hd := ⟨(h.new_placed hd).once, (h.new_placed hd).apart⟩
  new_tree {m} hm hm' := by
    obtain ⟨t, ht⟩ := h.new_tree hm (has_setContent.mp hm')
    refine ⟨t, ht.of_same fun b hb => ⟨content_setContent ?_, fun _ _ => items_setContent⟩⟩
    rintro rfl
    exact h.not_has_of_reaches hm hb hn

end JsonDocument.Store
