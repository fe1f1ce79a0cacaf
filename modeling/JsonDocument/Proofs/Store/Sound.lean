import Mathlib.Data.List.Induction
import Mathlib.Data.List.NodupEquivFin
import JsonDocument.Proofs.Store.Trees

/-!
# Proofs — Store — sound stores

A node *owns* what is below it if nothing below it has a second place.  Then one path at most leads
from it to another node (`Owns.walk_unique`), and what leads into what it owns leads to it, or is
itself below it (`Owns.reaches_or`).

A store is *sound* if it is closed, no node sits in two places, and every node stands for a tree.
There a change to one node shows in the documents that contain it, at its place, and nowhere else.

* `Store.Placed`, `Store.Owns`: a node with one place at most, a node that owns what is below it.
* `Store.Sound`: the invariant.
* `Store.SameAt`, `Shows.of_same`: a tree stays if every node below it is left as it is.
* `Json.replaceAt`, `Store.Replaces`: the tree of one node is replaced.
* `Store.Changes`, `Sound.change`: a store that is changed at one node stays sound, and the tree of
  that node is replaced.
* `Store.Copying`: what a change brings into lists is new.  Then no node that exists gets another
  place, what leads to it has led to it before, and a sound store stays sound (`Copying.sound`).
-/

namespace JsonDocument

/-- Puts the tree `new` in the place at the end of a path, which names an item at each step. -/
def Json.replaceAt : Json → List Nat → Json → Json
  | _, [], new => new
  | .array xs, i :: p, new => .array (xs.modify i fun x => replaceAt x p new)
  | .object ms, i :: p, new => .object (ms.modify i fun m => (m.1, replaceAt m.2 p new))
  | v, _ :: _, _ => v

namespace Store

variable {s s' : Store} {n m c d x a b : NodeId} {l l' : ListId} {t u new : Json} {p q : List Nat}

/-! ### Nodes with one place -/

/-- The node is in one list at most, and there only once. -/
structure Placed (s : Store) (d : NodeId) : Prop where
  once : ∀ l, (s.items l).nodes.count d ≤ 1
  apart : ∀ {l l'}, d ∈ (s.items l).nodes → d ∈ (s.items l').nodes → l = l'

/-- The one place of a node is one index of one list. -/
theorem Placed.index_unique (hd : s.Placed d) {i j : Nat} (hi : (s.items l).nodes[i]? = some d)
    (hj : (s.items l').nodes[j]? = some d) : l = l' ∧ i = j := by
  obtain rfl := hd.apart (List.mem_of_getElem? hi) (List.mem_of_getElem? hj)
  refine ⟨rfl, Decidable.byContradiction fun hne => ?_⟩
  obtain ⟨hi', hi⟩ := List.getElem?_eq_some_iff.mp hi
  obtain ⟨hj', hj⟩ := List.getElem?_eq_some_iff.mp hj
  -- two indices would make the node occur twice
  have hdup : List.Duplicate d (s.items l).nodes := by
    rw [List.duplicate_iff_exists_distinct_get]
    rcases Nat.lt_or_gt_of_ne hne with h | h
    · exact ⟨⟨i, hi'⟩, ⟨j, hj'⟩, h, hi.symm, hj.symm⟩
    · exact ⟨⟨j, hj'⟩, ⟨i, hi'⟩, h, hj.symm, hi.symm⟩
  rw [List.duplicate_iff_two_le_count] at hdup
  have := hd.once l
  omega

/-- The one place of a node is one item of one node. -/
theorem Placed.slot_unique (hs : s.Closed) (hd : s.Placed d) {i j : Nat}
    (ha : (s.children a)[i]? = some d) (hb : (s.children b)[j]? = some d) : a = b ∧ i = j := by
  obtain ⟨l, hl, -⟩ := exists_list_of_child (List.mem_of_getElem? ha)
  obtain ⟨l', hl', -⟩ := exists_list_of_child (List.mem_of_getElem? hb)
  rw [children_of_list hl] at ha
  rw [children_of_list hl'] at hb
  obtain ⟨rfl, hij⟩ := hd.index_unique ha hb
  exact ⟨hs.one_owner hl hl', hij⟩

/-! ### Nodes that own what is below them -/

/-- Nothing below `c` has a second place. -/
def Owns (s : Store) (c : NodeId) : Prop := ∀ d, s.Reaches c d → d ≠ c → s.Placed d

/-- One path at most leads from a node to what it owns. -/
theorem Owns.walk_unique (ho : s.Owns c) (hs : s.Closed) (ht : s.Shows c t)
    (hp : s.walk c p = some n) (hq : s.walk c q = some n) : p = q := by
  -- from the end: the last step of both paths is into the one place of `n`
  induction p using List.reverseRecOn generalizing n q with
  | nil =>
      cases hp
      exact (ht.walk_self hq).symm
  | append_singleton p i ih =>
      rcases List.eq_nil_or_concat q with rfl | ⟨q, j, rfl⟩
      · cases hq
        exact ht.walk_self hp
      · rw [List.concat_eq_append] at hq
        have hn : n ≠ c := by
          rintro rfl
          exact absurd (ht.walk_self hp) (List.concat_ne_nil i p)
        obtain ⟨a, ha, hi⟩ := walk_concat.mp hp
        obtain ⟨b, hb, hj⟩ := walk_concat.mp hq
        obtain ⟨rfl, rfl⟩ := (ho n ⟨_, hp⟩ hn).slot_unique hs hi hj
        rw [ih ha hb, List.concat_eq_append]

/-- What leads into what a node owns is above that node or below it. -/
theorem Owns.reaches_or (ho : s.Owns c) (hs : s.Closed) (hx : s.Reaches x n)
    (hc : s.Reaches c n) : s.Reaches x c ∨ s.Reaches c x := by
  obtain ⟨p, hp⟩ := hx
  -- back along the path from `x`, which does not leave what `c` owns before it comes to `c`
  induction p using List.reverseRecOn generalizing n with
  | nil =>
      cases hp
      exact .inr hc
  | append_singleton p i ih =>
      by_cases hn : n = c
      · exact .inl ⟨_, hn ▸ hp⟩
      · obtain ⟨q, hq⟩ := hc
        rcases List.eq_nil_or_concat q with rfl | ⟨q, j, rfl⟩
        · cases hq
          exact absurd rfl hn
        · rw [List.concat_eq_append] at hq
          obtain ⟨a, ha, hi⟩ := walk_concat.mp hp
          obtain ⟨b, hb, hj⟩ := walk_concat.mp hq
          obtain ⟨rfl, -⟩ := (ho n ⟨_, hq⟩ hn).slot_unique hs hi hj
          exact ih ⟨_, hb⟩ ha

/-! ### The invariant -/

/-- No node sits in two places. -/
structure Unshared (s : Store) : Prop where
  nodup : ∀ l, (s.items l).nodes.Nodup
  apart : ∀ {l l' c}, c ∈ (s.items l).nodes → c ∈ (s.items l').nodes → l = l'

theorem unshared_iff : s.Unshared ↔ ∀ d, s.Placed d :=
  ⟨fun h d => ⟨fun l => List.nodup_iff_count_le_one.mp (h.nodup l) d, h.apart⟩,
    fun h => ⟨fun l => List.nodup_iff_count_le_one.mpr fun d => (h d).once l, (h _).apart⟩⟩

/-- The store is closed, no node sits in two places, and every node stands for a tree. -/
structure Sound (s : Store) : Prop extends Closed s, Unshared s where
  has_tree : ∀ {n}, s.Has n → ∃ t, s.Shows n t

theorem sound_empty : Store.empty.Sound where
  list_exists h := absurd (has_of_content h) (Nat.not_lt_zero _)
  node_exists h := absurd (hasList_of_mem h) (Nat.not_lt_zero _)
  one_owner h _ := absurd (has_of_content h) (Nat.not_lt_zero _)
  nodup l := by
    rw [items_of_not_hasList (Nat.not_lt_zero _)]
    exact List.nodup_nil
  apart h _ := absurd (hasList_of_mem h) (Nat.not_lt_zero _)
  has_tree h := absurd h (Nat.not_lt_zero _)

/-- The tree of a node is found. -/
theorem Sound.treeOf (hs : s.Sound) (hn : s.Has n) : ∃ t, s.treeOf n = .ok t :=
  (hs.has_tree hn).imp fun _ => (treeOf_eq_ok_iff hs.toClosed hn).mpr

/-- A node is an item of one node at most, and only once. -/
theorem Sound.slot_unique (hs : s.Sound) {i j : Nat} (ha : (s.children a)[i]? = some c)
    (hb : (s.children b)[j]? = some c) : a = b ∧ i = j :=
  (unshared_iff.mp hs.toUnshared c).slot_unique hs.toClosed ha hb

/-- One path at most leads from one node to another. -/
theorem Sound.walk_unique (hs : s.Sound) (hm : s.Has m) (hp : s.walk m p = some n)
    (hq : s.walk m q = some n) : p = q := by
  obtain ⟨t, ht⟩ := hs.has_tree hm
  have howns : s.Owns m := fun d _ _ => unshared_iff.mp hs.toUnshared d
  exact howns.walk_unique hs.toClosed ht hp hq

/-! ### What is left as it is -/

/-- The node and its list, if it has one, are the same in both stores. -/
def SameAt (s s' : Store) (n : NodeId) : Prop :=
  s'.content n = s.content n ∧ ∀ l, s.content n = .list l → s'.items l = s.items l

theorem SameAt.children (h : SameAt s s' n) : s'.children n = s.children n := by
  unfold Store.children
  rw [h.1]
  cases hc : s.content n with
  | scalar v => rfl
  | list l => simp only [h.2 l hc]

theorem SameAt.depicts {R : NodeId → Json → Prop} (h : SameAt s s' n) :
    s'.Depicts R (s'.content n) t ↔ s.Depicts R (s.content n) t := by
  rw [h.1]
  cases hc : s.content n with
  | scalar v => rfl
  | list l => simp only [Depicts, h.2 l hc]

/-- A tree stays if every node below it is left as it is. -/
theorem Shows.of_same (h : s.Shows n t) (hsame : ∀ m, s.Reaches n m → SameAt s s' m) :
    s'.Shows n t := by
  refine Shows.induction (P := fun n t => (∀ m, s.Reaches n m → SameAt s s' m) → s'.Shows n t) h
    (fun n t h ih hsame => ?_) hsame
  rw [shows_iff, (hsame n (reaches_self s n)).depicts]
  exact (shows_iff.mp h).imp fun c hc u hu => ih c hc u hu fun m hm => hsame m (.of_child hc hm)

theorem walk_of_same (hsame : ∀ m, s.Reaches n m → SameAt s s' m) : s'.walk n p = s.walk n p := by
  induction p generalizing n with
  | nil => rfl
  | cons i p ih =>
      simp only [walk, (hsame n (reaches_self s n)).children]
      cases hc : (s.children n)[i]? with
      | none => rfl
      | some c =>
          exact ih fun m hm => hsame m (.of_child (List.mem_of_getElem? hc) hm)

/-! ### Replacing a tree -/

theorem forall₂_modify {α β : Type} {R R' : α → β → Prop} {f : β → β} {as : List α} {bs : List β}
    (h : List.Forall₂ R as bs) (i : Nat)
    (hi : ∀ a b, as[i]? = some a → R a b → R' a (f b))
    (hne : ∀ j a b, j ≠ i → as[j]? = some a → R a b → R' a b) :
    List.Forall₂ R' as (bs.modify i f) := by
  induction h generalizing i with
  | nil => simp
  | @cons a b as bs hab hs ih =>
      cases i with
      | zero =>
          rw [List.modify_zero_cons]
          refine .cons (hi a b rfl hab) (forall₂_imp_mem hs fun a ha b => ?_)
          obtain ⟨j, hj⟩ := List.mem_iff_getElem?.mp ha
          exact hne (j + 1) a b (by omega) hj
      | succ i =>
          rw [List.modify_succ_cons]
          refine .cons (hne 0 a b (by omega) rfl hab) (ih i (fun a b => hi a b) ?_)
          exact fun j a b hj => hne (j + 1) a b (by omega)

/-- The tree of `n` becomes `new`.  In a document that contains `n` the tree at the place of `n` is
replaced by it, and every other document stays as it is. -/
structure Replaces (s s' : Store) (n : NodeId) (new : Json) : Prop where
  self : s'.treeOf n = .ok new
  inside : ∀ m p t, s.Has m → s.walk m p = some n → s.treeOf m = .ok t →
    s'.treeOf m = .ok (t.replaceAt p new)
  outside : ∀ m, s.Has m → ¬ s.Reaches m n → s'.treeOf m = s.treeOf m

/-- Everything that exists in `s` exists in `s'`. -/
structure Covers (s s' : Store) : Prop where
  has : ∀ {n}, s.Has n → s'.Has n
  hasList : ∀ {l}, s.HasList l → s'.HasList l

/-- The store is sound after a change that replaces the tree of `n`. -/
structure Changes (s s' : Store) (n : NodeId) (new : Json) : Prop
    extends Covers s s', Replaces s s' n new where
  sound : s'.Sound

/-- One item of a container stands for another tree, the others for the same ones. -/
theorem Depicts.replaceAt {R R' : NodeId → Json → Prop} {i : Nat}
    (h : s.Depicts R (s.content m) t) (hc : (s.children m)[i]? = some c)
    (hi : ∀ u, R c u → R' c (u.replaceAt p new))
    (hne : ∀ j d u, j ≠ i → (s.children m)[j]? = some d → R d u → R' d u) :
    s.Depicts R' (s.content m) (t.replaceAt (i :: p) new) := by
  unfold children at hc hne
  cases hm : s.content m with
  | scalar v =>
      rw [hm] at hc
      cases hc
  | list l =>
      rw [hm] at h hc hne
      simp only [Depicts] at h hc hne ⊢
      generalize s.items l = items at h hc hne ⊢
      cases h with
      | elements h =>
          refine .elements (forall₂_modify h i (fun a u ha hu => ?_) hne)
          obtain rfl := Option.some.inj (ha.symm.trans hc)
          exact hi u hu
      | @members ms us h =>
          have hget : ∀ j (m : Text × NodeId), ms[j]? = some m →
              (ms.map Prod.snd)[j]? = some m.2 := fun j m hj => by rw [List.getElem?_map, hj]; rfl
          refine .members (forall₂_modify h i (fun a u ha hu => ⟨hu.1, ?_⟩)
            fun j a u hj ha hu => ⟨hu.1, hne j _ _ hj (hget j a ha) hu.2⟩)
          obtain rfl := Option.some.inj ((hget i a ha).symm.trans hc)
          exact hi u.2 hu.2

section Change

variable (hs : s.Sound) (hsame : ∀ m, s.Has m → m ≠ n → SameAt s s' m)
include hs hsame

/-- Away from `n` the trees stay. -/
theorem Sound.shows_outside (hm : s.Has m) (hr : ¬ s.Reaches m n) (h : s.Shows m t) :
    s'.Shows m t := by
  refine h.of_same fun a ⟨p, hp⟩ => hsame a (hs.has_of_walk hm hp) ?_
  rintro rfl
  exact hr ⟨p, hp⟩

/-- At the place of `n` the tree is replaced. -/
theorem Sound.shows_inside (hnew : s'.Shows n new) (hm : s.Has m) (hp : s.walk m p = some n)
    (h : s.Shows m t) : s'.Shows m (t.replaceAt p new) := by
  induction p generalizing m t with
  | nil =>
      cases hp
      rwa [Json.replaceAt]
  | cons i p ih =>
      have hne : m ≠ n := by
        rintro rfl
        exact List.cons_ne_nil i p (h.walk_self hp)
      obtain ⟨c, hc, hp'⟩ := walk_cons.mp hp
      rw [shows_iff, (hsame m hm hne).depicts]
      refine (shows_iff.mp h).replaceAt hc
        (fun u hu => ih (hs.has_child (List.mem_of_getElem? hc)) hp' hu) fun j d u hj hd hu => ?_
      -- another item does not lead to `n`: there would be two paths
      refine hs.shows_outside hsame (hs.has_child (List.mem_of_getElem? hd)) ?_ hu
      rintro ⟨q, hq⟩
      have := hs.walk_unique hm hp (walk_cons.mpr ⟨d, hd, hq⟩)
      exact hj (List.cons.inj this).1.symm

/-- A store that is changed at one node stays sound, and the tree of that node is replaced. -/
theorem Sound.change (hhas : ∀ m, s'.Has m ↔ s.Has m) (hlist : ∀ l, s'.HasList l ↔ s.HasList l)
    (hc : s'.Closed) (hu : s'.Unshared) (hn : s.Has n) (hnew : s'.Shows n new) :
    Changes s s' n new := by
  have htree : ∀ {m t}, s.Has m → (s'.treeOf m = .ok t ↔ s'.Shows m t) := fun hm =>
    treeOf_eq_ok_iff hc ((hhas _).mpr hm)
  refine ⟨⟨(hhas _).mpr, (hlist _).mpr⟩, ⟨(htree hn).mpr hnew, fun m p t hm hp ht => ?_,
    fun m hm hr => ?_⟩, ⟨hc, hu, fun {m} hm => ?_⟩⟩
  · exact (htree hm).mpr
      (hs.shows_inside hsame hnew hm hp ((treeOf_eq_ok_iff hs.toClosed hm).mp ht))
  · obtain ⟨t, ht⟩ := hs.treeOf hm
    rw [ht, htree hm]
    exact hs.shows_outside hsame hm hr ((treeOf_eq_ok_iff hs.toClosed hm).mp ht)
  · rw [hhas] at hm
    obtain ⟨t, ht⟩ := hs.has_tree hm
    by_cases hr : s.Reaches m n
    · obtain ⟨p, hp⟩ := hr
      exact ⟨_, hs.shows_inside hsame hnew hm hp ht⟩
    · exact ⟨t, hs.shows_outside hsame hm hr ht⟩

end Change

/-! ### Changes that copy -/

/-- What is new in a list is a new node, which is in that one place alone and stands for a tree; an
old list keeps its owner. -/
structure Copying (s s' : Store) : Prop where
  old_owner : ∀ {a l}, s.HasList l → s'.content a = .list l → s.content a = .list l
  old_places : ∀ {d}, s.Has d → ∀ l, (s'.items l).nodes.count d ≤ (s.items l).nodes.count d
  new_placed : ∀ {d}, ¬ s.Has d → s'.Placed d
  new_tree : ∀ {n}, ¬ s.Has n → s'.Has n → ∃ t, s'.Shows n t

namespace Copying

variable (h : Copying s s')
include h

/-- A list that holds an old node has held it before. -/
theorem mem_of_old (hd : s.Has d) (hmem : d ∈ (s'.items l).nodes) : d ∈ (s.items l).nodes :=
  List.count_pos_iff.mp ((List.count_pos_iff.mpr hmem).trans_le (h.old_places hd l))

/-- An old node is an item of a node only if it was. -/
theorem old_child (hd : s.Has d) (hmem : d ∈ s'.children a) : d ∈ s.children a := by
  obtain ⟨l, hl, hmem⟩ := exists_list_of_child hmem
  have hold := h.mem_of_old hd hmem
  rwa [children_of_list (h.old_owner (hasList_of_mem hold) hl)]

/-- What leads to an old node is old and has led to it before. -/
theorem reaches (hd : s.Has d) (hr : s'.Reaches a d) : s.Has a ∧ s.Reaches a d := by
  obtain ⟨p, hp⟩ := hr
  induction p using List.reverseRecOn generalizing d with
  | nil =>
      cases hp
      exact ⟨hd, reaches_self s a⟩
  | append_singleton p i ih =>
      obtain ⟨b, hb, hi⟩ := walk_concat.mp hp
      have hchild := h.old_child hd (List.mem_of_getElem? hi)
      obtain ⟨l, hl, -⟩ := exists_list_of_child hchild
      obtain ⟨ha, q, hq⟩ := ih (has_of_content hl) hb
      obtain ⟨j, hj⟩ := List.mem_iff_getElem?.mp hchild
      exact ⟨ha, q ++ [j], walk_concat.mpr ⟨b, hq, hj⟩⟩

/-- What is new leads to nothing old. -/
theorem not_has_of_reaches (hn : ¬ s.Has n) (hr : s'.Reaches n m) : ¬ s.Has m := fun hm =>
  hn (h.reaches hm hr).1

/-- A node with one place keeps to it. -/
theorem placed (hd : s.Has d → s.Placed d) : s'.Placed d := by
  by_cases hold : s.Has d
  · refine ⟨fun l => (h.old_places hold l).trans ((hd hold).once l), fun hl hl' => ?_⟩
    exact (hd hold).apart (h.mem_of_old hold hl) (h.mem_of_old hold hl')
  · exact h.new_placed hold

/-- A node goes on to own what is below it. -/
theorem owns (hc : s.Owns c) : s'.Owns c := fun d hd hne =>
  h.placed fun hold => hc d (h.reaches hold hd).2 hne

/-- A node that stands for a tree goes on to do so. -/
theorem exists_tree (hs' : s'.Closed) (ht : s.Shows n t) : ∃ t', s'.Shows n t' := by
  refine Shows.induction (P := fun n _ => ∃ t', s'.Shows n t') ht fun n t ht ih => ?_
  refine exists_shows fun c hc => ?_
  by_cases hold : s.Has c
  · have hchild := h.old_child hold hc
    obtain ⟨u, hu⟩ := ht.exists_child hchild
    exact ih c hchild u hu
  · exact h.new_tree hold (hs'.has_child hc)

theorem sound (hs : s.Sound) (hs' : s'.Closed) : s'.Sound where
  toClosed := hs'
  toUnshared := unshared_iff.mpr fun d => h.placed fun _ => unshared_iff.mp hs.toUnshared d
  has_tree {n} hn := by
    by_cases hold : s.Has n
    · obtain ⟨t, ht⟩ := hs.has_tree hold
      exact h.exists_tree hs' ht
    · exact h.new_tree hold hn

end Copying

end Store

end JsonDocument
