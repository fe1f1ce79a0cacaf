import JsonDocument.Proofs.Store.Sound

/-!
# Proofs — Store — new nodes

`Store.grow` leaves everything that exists as it is (`Store.Keeps`), and what it adds is sound in
itself and leads to nothing old (`Store.Grows`).  So a copy has the tree it was made for, no node
below it sits anywhere else, and no older tree notices it.

* `Grows.closed`, `Grows.sound`: a store that grows stays closed, and sound if it was.
* `grow_spec`, `growContent_spec`: what is new for a tree.
* `Keeps.changes`: a change to a store that has grown is a change to the store before.
-/

namespace JsonDocument.Store

variable {s s' s'' : Store} {n m c : NodeId} {l : ListId} {i : Items} {k : Content}
  {t new : Json} {p : List Nat}

/-! ### What is kept -/

/-- What exists in `s` exists in `s'` and is as it was. -/
structure Keeps (s s' : Store) : Prop extends Covers s s' where
  content : ∀ {n}, s.Has n → s'.content n = s.content n
  items : ∀ {l}, s.HasList l → s'.items l = s.items l

theorem Keeps.refl (s : Store) : Keeps s s := ⟨⟨id, id⟩, fun _ => rfl, fun _ => rfl⟩

theorem Keeps.trans (h₁ : Keeps s s') (h₂ : Keeps s' s'') : Keeps s s'' where
  has hn := h₂.has (h₁.has hn)
  hasList hl := h₂.hasList (h₁.hasList hl)
  content hn := (h₂.content (h₁.has hn)).trans (h₁.content hn)
  items hl := (h₂.items (h₁.hasList hl)).trans (h₁.items hl)

theorem keeps_addNode (s : Store) (k : Content) : Keeps s (s.addNode k).1 :=
  ⟨⟨fun hn => has_addNode.mpr (.inl hn), hasList_addNode.mpr⟩, content_addNode,
    fun _ => items_addNode⟩

theorem keeps_addList (s : Store) (i : Items) : Keeps s (s.addList i).1 :=
  ⟨⟨has_addList.mpr, fun hl => hasList_addList.mpr (.inl hl)⟩, fun _ => content_addList,
    items_addList⟩

theorem Closed.has_of_reaches (hs : s.Closed) (hn : s.Has n) (h : s.Reaches n m) : s.Has m := by
  obtain ⟨p, hp⟩ := h
  exact hs.has_of_walk hn hp

namespace Keeps

variable (h : Keeps s s') (hs : s.Closed)
include h hs

theorem sameAt (hn : s.Has n) (m : NodeId) (hm : s.Reaches n m) : SameAt s s' m :=
  ⟨h.content (hs.has_of_reaches hn hm), fun _ hl => h.items (hs.list_exists hl)⟩

theorem shows (hn : s.Has n) (ht : s.Shows n t) : s'.Shows n t := ht.of_same (h.sameAt hs hn)

theorem walk (hn : s.Has n) : s'.walk n p = s.walk n p := walk_of_same (h.sameAt hs hn)

theorem depicts (hl : ∀ l, k = .list l → s.HasList l) (hd : s.Depicts s.Shows k t) :
    s'.Depicts s'.Shows k t := by
  cases k with
  | scalar v => exact hd
  | list l =>
      simp only [Depicts, h.items (hl l rfl)] at hd ⊢
      exact hd.imp fun c hc u hu => h.shows hs (hs.node_exists hc) hu

theorem treeOf (hs' : s'.Closed) (hn : s.Has n) (ht : s.treeOf n = .ok t) : s'.treeOf n = .ok t :=
  (treeOf_eq_ok_iff hs' (h.has hn)).mpr (h.shows hs hn ((treeOf_eq_ok_iff hs hn).mp ht))

end Keeps

/-- A change to a store that has grown is a change to the store before. -/
theorem Keeps.changes (h : Keeps s s') (hs : s.Sound) (hs' : s'.Sound)
    (hr : Changes s' s'' n new) : Changes s s'' n new where
  has hn := hr.has (h.has hn)
  hasList hl := hr.hasList (h.hasList hl)
  self := hr.self
  inside m p t hm hp ht := by
    rw [← h.walk hs.toClosed hm] at hp
    exact hr.inside m p t (h.has hm) hp (h.treeOf hs.toClosed hs'.toClosed hm ht)
  outside m hm hmn := by
    obtain ⟨t, ht⟩ := hs.treeOf hm
    rw [ht, hr.outside m (h.has hm), h.treeOf hs.toClosed hs'.toClosed hm ht]
    rintro ⟨p, hp⟩
    rw [h.walk hs.toClosed hm] at hp
    exact hmn ⟨p, hp⟩
  sound := hr.sound

/-! ### What is new -/

/-- The store `s'` is `s` with more nodes and lists.  The new nodes have new lists, these hold new
nodes, no node sits in two places among them, and they stand for trees. -/
structure Grows (s s' : Store) : Prop extends Keeps s s' where
  new_list : ∀ {n l}, ¬ s.Has n → s'.content n = .list l → ¬ s.HasList l ∧ s'.HasList l
  new_node : ∀ {l c}, ¬ s.HasList l → c ∈ (s'.items l).nodes → ¬ s.Has c ∧ s'.Has c
  one_owner : ∀ {a b l}, ¬ s.Has a → ¬ s.Has b →
    s'.content a = .list l → s'.content b = .list l → a = b
  nodup : ∀ {l}, ¬ s.HasList l → (s'.items l).nodes.Nodup
  apart : ∀ {l l' c}, ¬ s.HasList l → ¬ s.HasList l' →
    c ∈ (s'.items l).nodes → c ∈ (s'.items l').nodes → l = l'
  has_tree : ∀ {n}, ¬ s.Has n → s'.Has n → ∃ t, s'.Shows n t

theorem Grows.refl (s : Store) : Grows s s where
  toKeeps := .refl s
  new_list hn h := absurd (has_of_content h) hn
  new_node hl h := absurd (hasList_of_mem h) hl
  one_owner ha _ h _ := absurd (has_of_content h) ha
  nodup hl := by rw [items_of_not_hasList hl]; exact List.nodup_nil
  apart hl _ h _ := absurd (hasList_of_mem h) hl
  has_tree hn h := absurd h hn

theorem Grows.closed (h : Grows s s') (hs : s.Closed) : s'.Closed where
  list_exists {n l} hl := by
    by_cases hn : s.Has n
    · rw [h.content hn] at hl
      exact h.hasList (hs.list_exists hl)
    · exact (h.new_list hn hl).2
  node_exists {l c} hc := by
    by_cases hl : s.HasList l
    · rw [h.items hl] at hc
      exact h.has (hs.node_exists hc)
    · exact (h.new_node hl hc).2
  one_owner {a b l} ha hb := by
    -- the list is old or new with either of its nodes
    by_cases hna : s.Has a <;> by_cases hnb : s.Has b
    · rw [h.content hna] at ha
      rw [h.content hnb] at hb
      exact hs.one_owner ha hb
    · rw [h.content hna] at ha
      exact absurd (hs.list_exists ha) (h.new_list hnb hb).1
    · rw [h.content hnb] at hb
      exact absurd (hs.list_exists hb) (h.new_list hna ha).1
    · exact h.one_owner hna hnb ha hb

/-- A list that holds an old node is old. -/
theorem Grows.hasList_of_old (h : Grows s s') (hc : c ∈ (s'.items l).nodes) (hold : s.Has c) :
    s.HasList l :=
  Decidable.byContradiction fun hl => (h.new_node hl hc).1 hold

/-- A list that holds a new node is new. -/
theorem Grows.not_hasList_of_new (h : Grows s s') (hs : s.Closed) (hc : c ∈ (s'.items l).nodes)
    (hnew : ¬ s.Has c) : ¬ s.HasList l := fun hl => by
  rw [h.items hl] at hc
  exact hnew (hs.node_exists hc)

theorem Grows.copying (h : Grows s s') (hs : s.Closed) : Copying s s' where
  old_owner {a l} hl ha := by
    by_cases hold : s.Has a
    · rwa [h.content hold] at ha
    · exact absurd hl (h.new_list hold ha).1
  old_places {d} hd l := by
    by_cases hl : s.HasList l
    · rw [h.items hl]
    · rw [List.count_eq_zero_of_not_mem fun hmem => (h.new_node hl hmem).1 hd]
      exact Nat.zero_le _
  new_placed {d} hd := by
    have hnew : ∀ {l}, d ∈ (s'.items l).nodes → ¬ s.HasList l := fun hmem =>
      h.not_hasList_of_new hs hmem hd
    refine ⟨fun l => ?_, fun hl hl' => h.apart (hnew hl) (hnew hl') hl hl'⟩
    by_cases hmem : d ∈ (s'.items l).nodes
    · exact List.nodup_iff_count_le_one.mp (h.nodup (hnew hmem)) d
    · rw [List.count_eq_zero_of_not_mem hmem]
      exact Nat.zero_le _
  new_tree := h.has_tree

theorem Grows.sound (h : Grows s s') (hs : s.Sound) : s'.Sound :=
  (h.copying hs.toClosed).sound hs (h.closed hs.toClosed)

theorem Grows.trans (h₁ : Grows s s') (hs : s.Closed) (h₂ : Grows s' s'') : Grows s s'' where
  toKeeps := h₁.toKeeps.trans h₂.toKeeps
  new_list {n l} hn hl := by
    by_cases hn' : s'.Has n
    · rw [h₂.content hn'] at hl
      exact (h₁.new_list hn hl).imp_right h₂.hasList
    · exact (h₂.new_list hn' hl).imp_left (mt h₁.hasList)
  new_node {l c} hl hc := by
    by_cases hl' : s'.HasList l
    · rw [h₂.items hl'] at hc
      exact (h₁.new_node hl hc).imp_right h₂.has
    · exact (h₂.new_node hl' hc).imp_left (mt h₁.has)
  one_owner {a b l} hna hnb ha hb := by
    by_cases hna' : s'.Has a
    · have hl := (h₁.closed hs).list_exists ((h₂.content hna') ▸ ha)
      have hnb' : s'.Has b := Decidable.byContradiction fun hnb' => (h₂.new_list hnb' hb).1 hl
      rw [h₂.content hna'] at ha
      rw [h₂.content hnb'] at hb
      exact h₁.one_owner hna hnb ha hb
    · exact ((h₂.closed (h₁.closed hs)).one_owner hb ha).symm
  nodup {l} hl := by
    by_cases hl' : s'.HasList l
    · rw [h₂.items hl']
      exact h₁.nodup hl
    · exact h₂.nodup hl'
  apart {l l' c} hl hl' hc hc' := by
    by_cases hold : s'.Has c
    · rw [h₂.items (h₂.hasList_of_old hc hold)] at hc
      rw [h₂.items (h₂.hasList_of_old hc' hold)] at hc'
      exact h₁.apart hl hl' hc hc'
    · have hs' := h₁.closed hs
      exact h₂.apart (h₂.not_hasList_of_new hs' hc hold) (h₂.not_hasList_of_new hs' hc' hold) hc hc'
  has_tree {n} hn hn'' := by
    by_cases hn' : s'.Has n
    · exact (h₁.has_tree hn hn').imp fun _ => h₂.shows (h₁.closed hs) hn'
    · exact h₂.has_tree hn' hn''

/-! ### One more node or list -/

/-- What a new node is going to be: it makes up the tree, and its list is new and no node has it
yet. -/
structure Ready (s s' : Store) (k : Content) (t : Json) : Prop where
  depicts : s'.Depicts s'.Shows k t
  new_list : ∀ l, k = .list l → ¬ s.HasList l ∧ s'.HasList l ∧ ∀ n, s'.content n ≠ .list l

/-- The node is new, and in no list yet. -/
structure Fresh (s s' : Store) (c : NodeId) : Prop where
  new : ¬ s.Has c
  has : s'.Has c
  loose : ∀ l, c ∉ (s'.items l).nodes

theorem content_addNode_cases (h : (s.addNode k).1.content n = .list l) :
    s.content n = .list l ∨ n = (s.addNode k).2 ∧ k = .list l := by
  rcases has_addNode.mp (has_of_content h) with hn | rfl
  · rw [content_addNode hn] at h
    exact .inl h
  · rw [content_addNode_self] at h
    exact .inr ⟨rfl, h⟩

theorem not_has_addNode (s : Store) (k : Content) : ¬ s.Has (s.addNode k).2 := Nat.lt_irrefl _

theorem not_hasList_addList (s : Store) (i : Items) : ¬ s.HasList (s.addList i).2 :=
  Nat.lt_irrefl _

theorem Grows.addNode (h : Grows s s') (hs : s.Closed) (hk : Ready s s' k t) :
    Grows s (s'.addNode k).1 ∧ Fresh s (s'.addNode k).1 (s'.addNode k).2 ∧
      (s'.addNode k).1.Shows (s'.addNode k).2 t := by
  have hs' := h.closed hs
  have hkeep := keeps_addNode s' k
  have hshow : (s'.addNode k).1.Shows (s'.addNode k).2 t := by
    rw [shows_iff, content_addNode_self]
    exact hkeep.depicts hs' (fun l hl => (hk.new_list l hl).2.1) hk.depicts
  refine ⟨⟨h.toKeeps.trans hkeep, fun {n l} hn hl => ?_, fun hl hc => ?_, fun {a b l} ha hb => ?_,
    h.nodup, h.apart, fun {n} hn hn' => ?_⟩,
    ⟨fun hold => ?_, has_addNode.mpr (.inr rfl), ?_⟩, hshow⟩
  · rcases content_addNode_cases hl with hl | ⟨-, hl⟩
    · exact h.new_list hn hl
    · exact ⟨(hk.new_list l hl).1, (hk.new_list l hl).2.1⟩
  · exact (h.new_node hl hc).imp_right hkeep.has
  · intro hla hlb
    -- the list of the new node is no other node's
    rcases content_addNode_cases hla with hla | ⟨rfl, hka⟩ <;>
      rcases content_addNode_cases hlb with hlb | ⟨rfl, hkb⟩
    · exact h.one_owner ha hb hla hlb
    · exact absurd hla ((hk.new_list l hkb).2.2 a)
    · exact absurd hlb ((hk.new_list l hka).2.2 b)
    · rfl
  · rcases has_addNode.mp hn' with hn' | rfl
    · exact (h.has_tree hn hn').imp fun _ => hkeep.shows hs' hn'
    · exact ⟨t, hshow⟩
  · exact not_has_addNode s' k (h.has hold)
  · exact fun l hc => not_has_addNode s' k (hs'.node_exists hc)

/-- Nodes for some trees: they are new, all different, and in no list yet. -/
structure Planted (s s' : Store) (ns : List NodeId) (ts : List Json) : Prop where
  shows : List.Forall₂ s'.Shows ns ts
  nodup : ns.Nodup
  fresh : ∀ c ∈ ns, Fresh s s' c

theorem Planted.nil : Planted s s' [] [] :=
  ⟨.nil, List.nodup_nil, fun _ hc => absurd hc List.not_mem_nil⟩

theorem Planted.cons {ns : List NodeId} {ts : List Json} (hk : Keeps s s') (hs' : s'.Closed)
    (hc : Fresh s s' c) (ht : s'.Shows c t) (h : Grows s' s'') (hns : Planted s' s'' ns ts) :
    Planted s s'' (c :: ns) (t :: ts) where
  shows := .cons (h.shows hs' hc.has ht) hns.shows
  nodup := List.nodup_cons.mpr ⟨fun hmem => (hns.fresh c hmem).new hc.has, hns.nodup⟩
  fresh := List.forall_mem_cons.mpr
    ⟨⟨hc.new, h.has hc.has, fun l hl => hc.loose l (by
        rwa [← h.items (h.hasList_of_old hl hc.has)])⟩,
      fun d hd =>
        let hf := hns.fresh d hd
        ⟨mt hk.has hf.new, hf.has, hf.loose⟩⟩

theorem Grows.addList {ts : List Json} (h : Grows s s') (hs : s.Closed)
    (hi : Planted s s' i.nodes ts) (hd : i.Depict s'.Shows t) :
    Grows s (s'.addList i).1 ∧ Ready s (s'.addList i).1 (.list (s'.addList i).2) t := by
  have hs' := h.closed hs
  have hkeep := keeps_addList s' i
  -- the new list holds the new nodes, and the others hold what they held
  have hcases : ∀ {l c}, c ∈ ((s'.addList i).1.items l).nodes →
      c ∈ (s'.items l).nodes ∨ l = (s'.addList i).2 ∧ c ∈ i.nodes := by
    intro l c hc
    rcases hasList_addList.mp (hasList_of_mem hc) with hl | rfl
    · rw [items_addList hl] at hc
      exact .inl hc
    · rw [items_addList_self] at hc
      exact .inr ⟨rfl, hc⟩
  refine ⟨⟨h.toKeeps.trans hkeep, fun hn hl => ?_, fun {l c} hl hc => ?_, h.one_owner,
    fun {l} hl => ?_, fun {l l' c} hl hl' hc hc' => ?_, fun hn hn' => ?_⟩, ⟨?_, ?_⟩⟩
  · exact (h.new_list hn hl).imp_right hkeep.hasList
  · rcases hcases hc with hc | ⟨-, hc⟩
    · exact h.new_node hl hc
    · exact ⟨(hi.fresh c hc).new, (hi.fresh c hc).has⟩
  · by_cases hl' : (s'.addList i).1.HasList l
    · rcases hasList_addList.mp hl' with hl' | rfl
      · rw [items_addList hl']
        exact h.nodup hl
      · rw [items_addList_self]
        exact hi.nodup
    · rw [items_of_not_hasList hl']
      exact List.nodup_nil
  · rcases hcases hc with hold | ⟨rfl, hi₁⟩ <;> rcases hcases hc' with hold' | ⟨rfl, hi₂⟩
    · exact h.apart hl hl' hold hold'
    · exact absurd hold ((hi.fresh c hi₂).loose l)
    · exact absurd hold' ((hi.fresh c hi₁).loose l')
    · rfl
  · exact (h.has_tree hn hn').imp fun _ => hkeep.shows hs' hn'
  · rw [Depicts, items_addList_self]
    exact hd.imp fun c hc u => hkeep.shows hs' (hi.fresh c hc).has
  · rintro l ⟨⟩
    refine ⟨fun hl => not_hasList_addList s' i (h.hasList hl), hasList_addList.mpr (.inr rfl), ?_⟩
    exact fun n hn => not_hasList_addList s' i (hs'.list_exists hn)

/-! ### Growing a tree -/

theorem forall₂_members {R : NodeId → Json → Prop} {ns : List (Text × NodeId)}
    {ms : List (Text × Json)} (h : List.Forall₂ R (ns.map Prod.snd) (ms.map Prod.snd))
    (hkeys : ns.map Prod.fst = ms.map Prod.fst) :
    List.Forall₂ (fun n m => n.1 = m.1 ∧ R n.2 m.2) ns ms := by
  induction ns generalizing ms with
  | nil =>
      cases ms with
      | nil => exact .nil
      | cons m ms => cases hkeys
  | cons n ns ih =>
      cases ms with
      | nil => cases hkeys
      | cons m ms =>
          obtain ⟨hkey, hkeys⟩ := List.cons.inj hkeys
          obtain ⟨hm, hms⟩ := List.forall₂_cons.mp h
          exact .cons ⟨hkey, hm⟩ (ih hms hkeys)

mutual

theorem growContent_spec {s : Store} (hs : s.Closed) : (v : Json) →
    Grows s (s.growContent v).1 ∧ Ready s (s.growContent v).1 (s.growContent v).2 v
  | .null | .bool _ | .number _ | .string _ => ⟨.refl s, rfl, fun _ h => nomatch h⟩
  | .array xs =>
      let ⟨hg, hp⟩ := growElements_spec hs xs
      hg.addList hs hp (.elements hp.shows)
  | .object ms =>
      let ⟨hg, hp, hkeys⟩ := growMembers_spec hs ms
      hg.addList hs hp (.members (forall₂_members hp.shows hkeys))

theorem growElements_spec {s : Store} (hs : s.Closed) : (xs : List Json) →
    Grows s (s.growElements xs).1 ∧
      Planted s (s.growElements xs).1 (s.growElements xs).2 xs
  | [] => ⟨.refl s, .nil⟩
  | x :: xs => by
      obtain ⟨hg, hr⟩ := growContent_spec hs x
      obtain ⟨hn, hf, ht⟩ := hg.addNode hs hr
      obtain ⟨hg', hp⟩ := growElements_spec (hn.closed hs) xs
      exact ⟨hn.trans hs hg', .cons hn.toKeeps (hn.closed hs) hf ht hg' hp⟩

theorem growMembers_spec {s : Store} (hs : s.Closed) : (ms : List (Text × Json)) →
    Grows s (s.growMembers ms).1 ∧
      Planted s (s.growMembers ms).1 ((s.growMembers ms).2.map Prod.snd) (ms.map Prod.snd) ∧
      (s.growMembers ms).2.map Prod.fst = ms.map Prod.fst
  | [] => ⟨.refl s, .nil, rfl⟩
  | (k, x) :: ms => by
      obtain ⟨hg, hr⟩ := growContent_spec hs x
      obtain ⟨hn, hf, ht⟩ := hg.addNode hs hr
      obtain ⟨hg', hp, hkeys⟩ := growMembers_spec (hn.closed hs) ms
      exact ⟨hn.trans hs hg', .cons hn.toKeeps (hn.closed hs) hf ht hg' hp,
        congrArg (k :: ·) hkeys⟩

end

/-- A new node for a tree stands for it and is in no list. -/
theorem grow_spec (hs : s.Closed) (v : Json) : Grows s (s.grow v).1 ∧
    Fresh s (s.grow v).1 (s.grow v).2 ∧ (s.grow v).1.Shows (s.grow v).2 v :=
  let ⟨hg, hr⟩ := growContent_spec hs v
  hg.addNode hs hr

end JsonDocument.Store
