import JsonDocument.Store.Items

/-!
# Proofs — Store — cells and paths

What the operations on single cells do to the others, and the paths through a store: from a node to
its items, to the items of these, and so on.

* `Store.Has`, `Store.HasList`: the nodes and lists that exist.
* `Store.children`, `Store.walk`: the items of a node, and the node at the end of a path.
* `Store.Closed`: nothing refers to what does not exist, and a list belongs to one node at most.
-/

namespace JsonDocument.Store

/-! ### What exists -/

/-- The node exists. -/
def Has (s : Store) (n : NodeId) : Prop := n.index < s.nodes.size

/-- The list exists. -/
def HasList (s : Store) (l : ListId) : Prop := l.index < s.lists.size

instance (s : Store) (n : NodeId) : Decidable (s.Has n) := inferInstanceAs (Decidable (_ < _))

instance (s : Store) (l : ListId) : Decidable (s.HasList l) := inferInstanceAs (Decidable (_ < _))

variable {s s' : Store} {n m c : NodeId} {l l' : ListId} {i i' : Items} {k : Content}

theorem content_of_not_has (h : ¬ s.Has n) : s.content n = .scalar .null := by
  unfold Has at h
  rw [content, Array.getElem?_eq_none (by omega)]
  rfl

theorem items_of_not_hasList (h : ¬ s.HasList l) : s.items l = .elements [] := by
  unfold HasList at h
  rw [items, Array.getElem?_eq_none (by omega)]
  rfl

theorem has_of_content (h : s.content n = .list l) : s.Has n := by
  refine Decidable.byContradiction fun hn => ?_
  rw [content_of_not_has hn] at h
  cases h

theorem hasList_of_mem (h : c ∈ (s.items l).nodes) : s.HasList l := by
  refine Decidable.byContradiction fun hl => ?_
  rw [items_of_not_hasList hl] at h
  exact absurd h List.not_mem_nil

/-! ### Cells -/

theorem has_addNode : (s.addNode k).1.Has m ↔ s.Has m ∨ m = (s.addNode k).2 := by
  obtain ⟨m⟩ := m
  simp only [Has, addNode, Array.size_push, NodeId.mk.injEq]
  omega

theorem content_addNode_self : (s.addNode k).1.content (s.addNode k).2 = k := by
  simp [content, addNode]

theorem content_addNode (h : s.Has m) : (s.addNode k).1.content m = s.content m := by
  simp [content, addNode, Array.getElem?_push_lt h, Array.getElem?_eq_getElem h]

@[simp] theorem items_addNode : (s.addNode k).1.items l = s.items l := rfl

@[simp] theorem hasList_addNode : (s.addNode k).1.HasList l ↔ s.HasList l := Iff.rfl

theorem hasList_addList : (s.addList i).1.HasList l ↔ s.HasList l ∨ l = (s.addList i).2 := by
  obtain ⟨l⟩ := l
  simp only [HasList, addList, Array.size_push, ListId.mk.injEq]
  omega

theorem items_addList_self : (s.addList i).1.items (s.addList i).2 = i := by
  simp [items, addList]

theorem items_addList (h : s.HasList l) : (s.addList i).1.items l = s.items l := by
  simp [items, addList, Array.getElem?_push_lt h, Array.getElem?_eq_getElem h]

@[simp] theorem content_addList : (s.addList i).1.content m = s.content m := rfl

@[simp] theorem has_addList : (s.addList i).1.Has m ↔ s.Has m := Iff.rfl

@[simp] theorem has_setContent : (s.setContent n k).Has m ↔ s.Has m := by
  simp [Has, setContent]

theorem content_setContent_self (h : s.Has n) : (s.setContent n k).content n = k := by
  simp [content, setContent, Array.getElem?_setIfInBounds_self_of_lt h]

theorem content_setContent (h : m ≠ n) : (s.setContent n k).content m = s.content m := by
  have : n.index ≠ m.index := fun he => h (by cases n; cases m; simp_all)
  simp [content, setContent, Array.getElem?_setIfInBounds_ne this]

@[simp] theorem items_setContent : (s.setContent n k).items l = s.items l := rfl

@[simp] theorem hasList_setContent : (s.setContent n k).HasList l ↔ s.HasList l := Iff.rfl

@[simp] theorem hasList_setItems : (s.setItems l i).HasList l' ↔ s.HasList l' := by
  simp [HasList, setItems]

theorem items_setItems_self (h : s.HasList l) : (s.setItems l i).items l = i := by
  simp [items, setItems, Array.getElem?_setIfInBounds_self_of_lt h]

theorem items_setItems (h : l' ≠ l) : (s.setItems l i).items l' = s.items l' := by
  have : l.index ≠ l'.index := fun he => h (by cases l; cases l'; simp_all)
  simp [items, setItems, Array.getElem?_setIfInBounds_ne this]

@[simp] theorem content_setItems : (s.setItems l i).content m = s.content m := rfl

@[simp] theorem has_setItems : (s.setItems l i).Has m ↔ s.Has m := Iff.rfl

/-! ### Items and paths -/

/-- The items of a node; a scalar has none. -/
def children (s : Store) (n : NodeId) : List NodeId :=
  match s.content n with
  | .scalar _ => []
  | .list l => (s.items l).nodes

theorem children_of_list (h : s.content n = .list l) : s.children n = (s.items l).nodes := by
  rw [children, h]

theorem exists_list_of_child (h : c ∈ s.children n) :
    ∃ l, s.content n = .list l ∧ c ∈ (s.items l).nodes := by
  unfold children at h
  split at h
  · exact absurd h List.not_mem_nil
  · next l hl => exact ⟨l, hl, h⟩

/-- The node at the end of a path, which names an item at each step. -/
def walk (s : Store) (n : NodeId) : List Nat → Option NodeId
  | [] => some n
  | i :: p => (s.children n)[i]?.bind fun c => s.walk c p

/-- A path leads from `m` to `n`. -/
def Reaches (s : Store) (m n : NodeId) : Prop := ∃ p, s.walk m p = some n

variable {p q : List Nat}

theorem walk_cons {j : Nat} :
    s.walk m (j :: p) = some n ↔ ∃ c, (s.children m)[j]? = some c ∧ s.walk c p = some n := by
  rw [walk, Option.bind_eq_some_iff]

theorem walk_append : s.walk m (p ++ q) = (s.walk m p).bind fun c => s.walk c q := by
  induction p generalizing m with
  | nil => rfl
  | cons j p ih => simp only [List.cons_append, walk, Option.bind_assoc, ih]

theorem walk_concat {j : Nat} :
    s.walk m (p ++ [j]) = some n ↔ ∃ c, s.walk m p = some c ∧ (s.children c)[j]? = some n := by
  rw [walk_append, Option.bind_eq_some_iff]
  refine exists_congr fun c => and_congr_right fun _ => ?_
  rw [walk_cons]
  exact ⟨fun ⟨d, hd, h⟩ => Option.some.inj h ▸ hd, fun h => ⟨n, h, rfl⟩⟩

theorem reaches_self (s : Store) (n : NodeId) : s.Reaches n n := ⟨[], rfl⟩

theorem Reaches.of_child (hc : c ∈ s.children m) (h : s.Reaches c n) : s.Reaches m n := by
  obtain ⟨j, hj⟩ := List.mem_iff_getElem?.mp hc
  obtain ⟨p, hp⟩ := h
  exact ⟨j :: p, walk_cons.mpr ⟨c, hj, hp⟩⟩

/-! ### Closed stores -/

/-- Nothing refers to what does not exist, and no two nodes have the same list. -/
structure Closed (s : Store) : Prop where
  list_exists : ∀ {n l}, s.content n = .list l → s.HasList l
  node_exists : ∀ {l c}, c ∈ (s.items l).nodes → s.Has c
  one_owner : ∀ {a b l}, s.content a = .list l → s.content b = .list l → a = b

theorem Closed.has_child (hs : s.Closed) (h : c ∈ s.children n) : s.Has c := by
  obtain ⟨l, -, hl⟩ := exists_list_of_child h
  exact hs.node_exists hl

theorem Closed.has_of_walk (hs : s.Closed) (hm : s.Has m) (h : s.walk m p = some n) : s.Has n := by
  induction p generalizing m with
  | nil => cases h; exact hm
  | cons j p ih =>
      obtain ⟨c, hc, hp⟩ := walk_cons.mp h
      exact ih (hs.has_child (List.mem_of_getElem? hc)) hp

end JsonDocument.Store
