import JsonDocument.Proofs.Fault
import JsonDocument.Proofs.Members
import JsonDocument.Proofs.Store.Grow

/-!
# Proofs — Store — changing nodes

A change to the list of one node or to its content replaces the tree of that node and nothing
else, if the node does not come to contain itself and nothing comes to sit in two places.  A new
node leads to nothing old, so it may be stored anywhere.

* `Sound.setItems`, `Sound.setContent`: other items in the list of a node, another content.
* `Sound.setItems_fresh`: a new node besides the items of a list.
* `Shows.forall₂_items`: the items of a node stand for the items of its tree.
* `Replaces.last_element`, `Replaces.member`: a change to an item shows in its container.
-/

namespace JsonDocument

/-- The elements of an array, the values of an object; a scalar has none. -/
def Json.items : Json → List Json
  | .array xs => xs
  | .object ms => ms.map Prod.snd
  | _ => []

namespace Store

variable {s s' : Store} {n m v c : NodeId} {l l' : ListId} {i : Items} {k : Content}
  {t u new x : Json} {key : Text} {ns : List NodeId} {ms : List (Text × NodeId)}
  {e : Fault}

/-! ### Other items in a list -/

theorem mem_setItems (h : c ∈ ((s.setItems l i).items l').nodes) :
    l' = l ∧ c ∈ i.nodes ∨ l' ≠ l ∧ c ∈ (s.items l').nodes := by
  by_cases hl : l' = l
  · subst hl
    rw [items_setItems_self (hasList_setItems.mp (hasList_of_mem h))] at h
    exact .inl ⟨rfl, h⟩
  · rw [items_setItems hl] at h
    exact .inr ⟨hl, h⟩

theorem sameAt_setItems (h : s.content m ≠ .list l) : SameAt s (s.setItems l i) m :=
  ⟨rfl, fun _ hl => items_setItems fun he => h (he ▸ hl)⟩

theorem Closed.setItems (hs : s.Closed) (hi : ∀ c ∈ i.nodes, s.Has c) :
    (s.setItems l i).Closed where
  list_exists h := hasList_setItems.mpr (hs.list_exists h)
  node_exists h := (mem_setItems h).elim (fun h => hi _ h.2) fun h => hs.node_exists h.2
  one_owner := hs.one_owner

theorem Unshared.setItems (hu : s.Unshared) (hnd : i.nodes.Nodup)
    (hi : ∀ c ∈ i.nodes, ∀ l', c ∈ (s.items l').nodes → l' = l) : (s.setItems l i).Unshared where
  nodup l' := by
    by_cases hl : l' = l
    · subst hl
      by_cases h : s.HasList l'
      · rwa [items_setItems_self h]
      · rw [items_of_not_hasList (mt hasList_setItems.mp h)]
        exact List.nodup_nil
    · rw [items_setItems hl]
      exact hu.nodup l'
  apart hc hc' := by
    rcases mem_setItems hc with ⟨rfl, hin⟩ | ⟨-, hold⟩ <;>
      rcases mem_setItems hc' with ⟨rfl, hin'⟩ | ⟨-, hold'⟩
    · rfl
    · exact (hi _ hin _ hold').symm
    · exact hi _ hin' _ hold
    · exact hu.apart hold hold'

/-- The list of a node gets other items, which are in no other list and do not lead to the node. -/
theorem Sound.setItems (hs : s.Sound) (hl : s.content n = .list l) (hnd : i.nodes.Nodup)
    (hi : ∀ c ∈ i.nodes,
      s.Has c ∧ ¬ s.Reaches c n ∧ ∀ l', c ∈ (s.items l').nodes → l' = l)
    (hd : i.Depict s.Shows new) : Changes s (s.setItems l i) n new := by
  have hsame : ∀ m, s.Has m → m ≠ n → SameAt s (s.setItems l i) m := fun m _ hm =>
    sameAt_setItems fun h => hm (hs.one_owner h hl)
  refine hs.change hsame (fun _ => has_setItems) (fun _ => hasList_setItems)
    (hs.toClosed.setItems fun c hc => (hi c hc).1)
    (hs.toUnshared.setItems hnd fun c hc => (hi c hc).2.2) (has_of_content hl) ?_
  rw [shows_iff, content_setItems, hl, Depicts, items_setItems_self (hs.list_exists hl)]
  exact hd.imp fun c hc u hu => hs.shows_outside hsame (hi c hc).1 (hi c hc).2.1 hu

/-- The list of a node gets a new node besides some of its items. -/
theorem Sound.setItems_fresh (hs : s.Sound) (hl : s.content n = .list l) (hg : Grows s s')
    (hc : Fresh s s' c) (hnd : i.nodes.Nodup)
    (hi : ∀ d ∈ i.nodes, d ∈ (s.items l).nodes ∨ d = c) (hd : i.Depict s'.Shows new) :
    Changes s (s'.setItems l i) n new := by
  have hs' := hg.sound hs
  have hn := has_of_content hl
  have hl' : s'.content n = .list l := (hg.content hn).trans hl
  obtain ⟨t, ht⟩ := hs'.has_tree (hg.has hn)
  refine hg.toKeeps.changes hs hs' (hs'.setItems hl' hnd (fun d hd => ?_) hd)
  rcases hi d hd with hd | rfl
  · rw [← hg.items (hs.list_exists hl)] at hd
    exact ⟨hs'.node_exists hd, ht.not_reaches (by rwa [children_of_list hl']),
      fun l' h => hs'.apart h hd⟩
  · exact ⟨hc.has, fun hr => (hg.copying hs.toClosed).not_has_of_reaches hc.new hr hn,
      fun l' h => absurd h (hc.loose l')⟩

/-! ### Another content -/

theorem content_setContent_cases (h : (s.setContent n k).content m = .list l) :
    m = n ∧ k = .list l ∨ m ≠ n ∧ s.content m = .list l := by
  by_cases hm : m = n
  · subst hm
    rw [content_setContent_self (has_setContent.mp (has_of_content h))] at h
    exact .inl ⟨rfl, h⟩
  · rw [content_setContent hm] at h
    exact .inr ⟨hm, h⟩

theorem Closed.setContent (hs : s.Closed)
    (hk : ∀ l, k = .list l → s.HasList l ∧ ∀ m, s.content m ≠ .list l) :
    (s.setContent n k).Closed where
  list_exists {m l} h := by
    rcases content_setContent_cases h with ⟨-, h⟩ | ⟨-, h⟩
    · exact (hk l h).1
    · exact hs.list_exists h
  node_exists h := has_setContent.mpr (hs.node_exists h)
  one_owner {a b l} ha hb := by
    rcases content_setContent_cases ha with ⟨rfl, hka⟩ | ⟨-, hla⟩ <;>
      rcases content_setContent_cases hb with ⟨rfl, hkb⟩ | ⟨-, hlb⟩
    · rfl
    · exact absurd hlb ((hk l hka).2 b)
    · exact absurd hla ((hk l hkb).2 a)
    · exact hs.one_owner hla hlb

/-- A node gets a list that no node has and that holds nothing which leads to the node. -/
theorem Sound.setContent (hs : s.Sound) (hn : s.Has n)
    (hk : ∀ l, k = .list l → s.HasList l ∧ (∀ m, s.content m ≠ .list l) ∧
      ∀ c ∈ (s.items l).nodes, ¬ s.Reaches c n)
    (hd : s.Depicts s.Shows k new) : Changes s (s.setContent n k) n new := by
  have hsame : ∀ m, s.Has m → m ≠ n → SameAt s (s.setContent n k) m := fun m _ hm =>
    ⟨content_setContent hm, fun _ _ => items_setContent⟩
  have hc : (s.setContent n k).Closed :=
    hs.toClosed.setContent fun l hl => ⟨(hk l hl).1, (hk l hl).2.1⟩
  refine hs.change hsame (fun _ => has_setContent) (fun _ => hasList_setContent) hc
    ⟨hs.nodup, hs.apart⟩ hn ?_
  rw [shows_iff, content_setContent_self hn]
  cases k with
  | scalar v => exact hd
  | list l =>
      exact Items.Depict.imp hd fun c hc u hu =>
        hs.shows_outside hsame (hs.node_exists hc) ((hk l rfl).2.2 c hc) hu

/-! ### Containers -/

theorem elementsOf_eq_ok_iff :
    s.elementsOf n = .ok (l, ns) ↔ s.content n = .list l ∧ s.items l = .elements ns := by
  unfold elementsOf
  cases s.content n with
  | scalar v => exact ⟨fun h => (nomatch h), fun h => (nomatch h.1)⟩
  | list l' =>
      simp only [Content.list.injEq]
      cases hi : s.items l' with
      | elements ns' =>
          simp only [Except.ok.injEq, Prod.mk.injEq]
          constructor
          · rintro ⟨rfl, rfl⟩
            exact ⟨rfl, hi⟩
          · rintro ⟨rfl, h⟩
            exact ⟨rfl, Items.elements.inj (hi.symm.trans h)⟩
      | members ms =>
          refine ⟨fun h => (nomatch h), ?_⟩
          rintro ⟨rfl, h⟩
          cases hi.symm.trans h

theorem membersOf_eq_ok_iff :
    s.membersOf n = .ok (l, ms) ↔ s.content n = .list l ∧ s.items l = .members ms := by
  unfold membersOf
  cases s.content n with
  | scalar v => exact ⟨fun h => (nomatch h), fun h => (nomatch h.1)⟩
  | list l' =>
      simp only [Content.list.injEq]
      cases hi : s.items l' with
      | elements ns =>
          refine ⟨fun h => (nomatch h), ?_⟩
          rintro ⟨rfl, h⟩
          cases hi.symm.trans h
      | members ms' =>
          simp only [Except.ok.injEq, Prod.mk.injEq]
          constructor
          · rintro ⟨rfl, rfl⟩
            exact ⟨rfl, hi⟩
          · rintro ⟨rfl, h⟩
            exact ⟨rfl, Items.members.inj (hi.symm.trans h)⟩

/-- The list of an array is found for arrays alone. -/
theorem exists_elementsOf_iff : (∃ r, s.elementsOf n = .ok r) ↔ s.kindOf n = .array := by
  unfold elementsOf kindOf
  cases s.content n with
  | scalar v => cases v <;> simp [Scalar.toJson, Json.kind]
  | list l => cases hi : s.items l <;> simp [hi, Items.kind]

/-- The list of an object is found for objects alone. -/
theorem exists_membersOf_iff : (∃ r, s.membersOf n = .ok r) ↔ s.kindOf n = .object := by
  unfold membersOf kindOf
  cases s.content n with
  | scalar v => cases v <;> simp [Scalar.toJson, Json.kind]
  | list l => cases hi : s.items l <;> simp [hi, Items.kind]

/-- The list of an array is refused for any other kind, and for no other reason. -/
theorem elementsOf_eq_error_iff :
    s.elementsOf n = .error e ↔ s.kindOf n ≠ .array ∧ e = .wrongKind .array (s.kindOf n) := by
  unfold elementsOf kindOf
  cases s.content n with
  | scalar v => cases v <;> simp [Scalar.toJson, Json.kind, eq_comm]
  | list l => cases hi : s.items l <;> simp [hi, Items.kind, eq_comm]

/-- The list of an object is refused for any other kind, and for no other reason. -/
theorem membersOf_eq_error_iff :
    s.membersOf n = .error e ↔ s.kindOf n ≠ .object ∧ e = .wrongKind .object (s.kindOf n) := by
  unfold membersOf kindOf
  cases s.content n with
  | scalar v => cases v <;> simp [Scalar.toJson, Json.kind, eq_comm]
  | list l => cases hi : s.items l <;> simp [hi, Items.kind, eq_comm]

theorem find?_eq_some_iff : s.find? n key = some c ↔
    ∃ l ms, s.content n = .list l ∧ s.items l = .members ms ∧ ms.lookup key = some c := by
  unfold find?
  constructor
  · intro h
    split at h
    · next l ms hm =>
        obtain ⟨hl, hi⟩ := membersOf_eq_ok_iff.mp hm
        exact ⟨l, ms, hl, hi, h⟩
    · cases h
  · rintro ⟨l, ms, hl, hi, h⟩
    rw [membersOf_eq_ok_iff.mpr ⟨hl, hi⟩]
    exact h

theorem Closed.has_of_find? (hs : s.Closed) (h : s.find? n key = some c) : s.Has c := by
  obtain ⟨l, ms, -, hi, hc⟩ := find?_eq_some_iff.mp h
  refine hs.node_exists (l := l) ?_
  rw [hi]
  exact List.mem_map.mpr ⟨_, List.mem_of_getElem? (Members.getElem?_place hc), rfl⟩

/-- A node is of the kind of its tree. -/
theorem Shows.kindOf (ht : s.Shows n t) : s.kindOf n = t.kind := by
  rw [shows_iff] at ht
  unfold Store.kindOf
  cases hc : s.content n with
  | scalar v => rw [hc] at ht; exact congrArg Json.kind ht.symm
  | list l =>
      rw [hc, Depicts] at ht
      cases hi : s.items l with
      | elements ns => rw [hi] at ht; cases ht; exact congrArg Items.kind hi
      | members ms => rw [hi] at ht; cases ht; exact congrArg Items.kind hi

theorem Shows.elements (ht : s.Shows n t) (hl : s.content n = .list l)
    (hi : s.items l = .elements ns) : ∃ ts, t = .array ts ∧ List.Forall₂ s.Shows ns ts := by
  rw [shows_iff, hl, Depicts, hi] at ht
  cases ht with
  | elements h => exact ⟨_, rfl, h⟩

theorem Shows.members (ht : s.Shows n t) (hl : s.content n = .list l)
    (hi : s.items l = .members ms) :
    ∃ us, t = .object us ∧ List.Forall₂ (fun m u => m.1 = u.1 ∧ s.Shows m.2 u.2) ms us := by
  rw [shows_iff, hl, Depicts, hi] at ht
  cases ht with
  | members h => exact ⟨_, rfl, h⟩

/-- The items of a node stand for the items of its tree. -/
theorem Shows.forall₂_items (ht : s.Shows n t) : List.Forall₂ s.Shows (s.children n) t.items := by
  rw [shows_iff] at ht
  unfold children
  cases hn : s.content n with
  | scalar v =>
      rw [hn] at ht
      cases ht
      cases v <;> exact .nil
  | list l =>
      rw [hn, Depicts] at ht
      dsimp only
      generalize s.items l = i at ht
      cases ht with
      | elements h => exact h
      | members h =>
          rw [Items.nodes, Json.items, List.forall₂_map_left_iff, List.forall₂_map_right_iff]
          exact h.imp fun _ _ hu => hu.2

/-- The items of an array stand for its elements. -/
theorem Shows.forall₂_array {ts : List Json} (ht : s.Shows n (.array ts)) :
    List.Forall₂ s.Shows (s.children n) ts := ht.forall₂_items

/-- The items of an object stand for the values of its members. -/
theorem Shows.forall₂_object {us : List (Text × Json)} (ht : s.Shows n (.object us)) :
    List.Forall₂ (fun c u => s.Shows c u.2) (s.children n) us :=
  List.forall₂_map_right_iff.mp ht.forall₂_items

theorem getElem?_children {j : Nat} (hl : s.content n = .list l) (hi : s.items l = .members ms)
    (h : ms[j]? = some (key, c)) : (s.children n)[j]? = some c := by
  rw [children_of_list hl, hi, Items.nodes, List.getElem?_map, h]
  rfl

/-- A change to an element shows in its array. -/
theorem Replaces.element {ts : List Json} {j : Nat} (h : Replaces s s' c x) (hn : s.Has n)
    (ht : s.treeOf n = .ok (.array ts)) (hc : (s.children n)[j]? = some c) :
    s'.treeOf n = .ok (.array (ts.set j x)) := by
  rw [h.inside n [j] _ hn (walk_cons.mpr ⟨c, hc, rfl⟩) ht, List.set_eq_modify]
  simp only [Json.replaceAt]

/-- A change to the last element shows in its array. -/
theorem Replaces.last_element {ts : List Json} (h : Replaces s s' c x) (hs : s.Closed)
    (ht : s.treeOf n = .ok (.array (ts ++ [u]))) (hns : s.elementsOf n = .ok (l, ns ++ [c])) :
    s'.treeOf n = .ok (.array (ts ++ [x])) := by
  obtain ⟨hl, hi⟩ := elementsOf_eq_ok_iff.mp hns
  have hn := has_of_content hl
  obtain ⟨us, hus, hts⟩ := ((treeOf_eq_ok_iff hs hn).mp ht).elements hl hi
  obtain rfl := Json.array.inj hus
  -- the last place is the length of what is in front of it
  have hlen := hts.length_eq
  rw [List.length_append, List.length_append, List.length_singleton, List.length_singleton] at hlen
  have hc : (s.children n)[ts.length]? = some c := by
    rw [children_of_list hl, hi, ← Nat.succ.inj hlen]
    exact List.getElem?_concat_length ..
  rw [h.element hn ht hc, List.set_append_right _ _ (Nat.le_refl _), Nat.sub_self,
    List.set_cons_zero]

/-- A change to what is found under a key shows in its object. -/
theorem Replaces.member {us : List (Text × Json)} (h : Replaces s s' c x) (hs : s.Closed)
    (ht : s.treeOf n = .ok (.object us)) (hf : s.find? n key = some c) :
    s'.treeOf n = .ok (.object (Members.put key x us)) := by
  obtain ⟨l, ms, hl, hi, hc⟩ := find?_eq_some_iff.mp hf
  have hn := has_of_content hl
  obtain ⟨us', hus, hms⟩ := ((treeOf_eq_ok_iff hs hn).mp ht).members hl hi
  obtain rfl := (Json.object.inj hus).symm
  have hkeys := Members.keys_of_forall₂ hms
  have hplace := getElem?_children hl hi (Members.getElem?_place hc)
  -- the path is the place of the key, which is the same among the nodes and among the trees
  rw [h.inside n [_] _ hn (walk_cons.mpr ⟨c, hplace, rfl⟩) ht]
  have hmem := Members.mem_keys_of_lookup hc
  rw [hkeys] at hmem
  simp only [Json.replaceAt, Members.place, hkeys]
  exact congrArg (fun us => Except.ok (Json.object us)) (Members.modify_place hmem)

end Store

end JsonDocument
