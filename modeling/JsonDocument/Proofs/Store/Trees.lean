import Mathlib.Data.Fintype.EquivFin
import Mathlib.Data.List.Forall2
import Mathlib.Data.List.Nodup
import Mathlib.Data.List.Perm.Subperm
import JsonDocument.Proofs.Store.Cells

/-!
# Proofs — Store — what a node stands for

A node stands for a tree if some bound on the length of paths is enough to find it (`Store.Shows`).
The tree of a container is made of the trees of its items (`shows_iff`), and a bound that is the
number of nodes is always enough: nodes that need bounds 1, 2, and so on up to a given one are all
different (`treeOf_eq_ok_iff`).

* `Store.Shows`: the node stands for the tree.
* `Shows.induction`: a property of nodes with trees, from the items to the container.
* `Shows.walk_self`: a node with a tree does not contain itself.
* `treeOf_eq_ok_iff`: `Store.treeOf` finds the tree of every node that has one.
* `acyclic_iff`: every node has a tree if and only if none contains itself; `acyclic_of_treeOf`
  tells it from the trees that are found.
-/

namespace JsonDocument

/-! ### Trees of items -/

/-- The items make up the tree, where `R` says which trees their nodes stand for. -/
inductive Items.Depict (R : NodeId → Json → Prop) : Items → Json → Prop where
  | elements {ns : List NodeId} {ts : List Json} (h : List.Forall₂ R ns ts) :
      Depict R (.elements ns) (.array ts)
  | members {ms : List (Text × NodeId)} {us : List (Text × Json)}
      (h : List.Forall₂ (fun m u => m.1 = u.1 ∧ R m.2 u.2) ms us) :
      Depict R (.members ms) (.object us)

section Forall₂

variable {α β : Type} {R R' : α → β → Prop} {as : List α} {bs : List β}

theorem forall₂_imp_mem (h : List.Forall₂ R as bs) (hR : ∀ a ∈ as, ∀ b, R a b → R' a b) :
    List.Forall₂ R' as bs := by
  induction h with
  | nil => exact .nil
  | cons h _ ih =>
      exact .cons (hR _ (List.mem_cons_self ..) _ h)
        (ih fun a ha => hR a (List.mem_cons_of_mem _ ha))

theorem exists_of_forall₂ (h : List.Forall₂ R as bs) {a : α} (ha : a ∈ as) : ∃ b ∈ bs, R a b := by
  induction h with
  | nil => exact absurd ha List.not_mem_nil
  | cons h _ ih =>
      rcases List.mem_cons.mp ha with rfl | ha
      · exact ⟨_, List.mem_cons_self .., h⟩
      · obtain ⟨b, hb, h⟩ := ih ha
        exact ⟨b, List.mem_cons_of_mem _ hb, h⟩

/-- The items at one place are related. -/
theorem forall₂_getElem? (h : List.Forall₂ R as bs) {i : Nat} {a : α} (ha : as[i]? = some a) :
    ∃ b, bs[i]? = some b ∧ R a b := by
  induction h generalizing i with
  | nil => cases ha
  | @cons a' b as bs hab _ ih =>
      cases i with
      | zero => cases ha; exact ⟨b, rfl, hab⟩
      | succ i => exact ih ha

theorem exists_forall₂ (h : ∀ a ∈ as, ∃ b, R a b) : ∃ bs, List.Forall₂ R as bs := by
  induction as with
  | nil => exact ⟨[], .nil⟩
  | cons a as ih =>
      obtain ⟨⟨b, hb⟩, hs⟩ := List.forall_mem_cons.mp h
      obtain ⟨bs, hbs⟩ := ih hs
      exact ⟨b :: bs, .cons hb hbs⟩

theorem mapM_eq_some_iff {f : α → Option β} :
    as.mapM f = some bs ↔ List.Forall₂ (fun a b => f a = some b) as bs := by
  induction as generalizing bs with
  | nil => cases bs <;> simp
  | cons a as ih =>
      rw [List.mapM_cons, List.forall₂_cons_left_iff]
      simp only [← ih, Option.bind_eq_bind, Option.bind_eq_some_iff, Option.pure_def,
        Option.some.injEq]
      exact ⟨fun ⟨b, hb, bs', hbs, h⟩ => ⟨b, bs', hb, hbs, h.symm⟩,
        fun ⟨b, bs', hb, hbs, h⟩ => ⟨b, hb, bs', hbs, h.symm⟩⟩

theorem mapM_eq_none_iff {f : α → Option β} :
    as.mapM f = none ↔ ∃ a ∈ as, f a = none := by
  induction as with
  | nil => simp
  | cons a as ih =>
      rw [List.mapM_cons, List.exists_mem_cons_iff, ← ih]
      cases f a <;> cases as.mapM f <;> simp

/-- One bound is enough for a whole list. -/
theorem exists_bound {P : Nat → α → β → Prop} (hP : ∀ {k a b}, P k a b → P (k + 1) a b)
    (h : List.Forall₂ (fun a b => ∃ k, P k a b) as bs) : ∃ k, List.Forall₂ (P k) as bs := by
  have mono : ∀ {k k' a b}, k ≤ k' → P k a b → P k' a b := by
    intro k k' a b hk h
    induction hk with
    | refl => exact h
    | step _ ih => exact hP ih
  induction h with
  | nil => exact ⟨0, .nil⟩
  | cons h _ ih =>
      obtain ⟨k, h⟩ := h
      obtain ⟨k', hs⟩ := ih
      exact ⟨max k k', .cons (mono (Nat.le_max_left ..) h)
        (hs.imp fun _ _ => mono (Nat.le_max_right ..))⟩

end Forall₂

namespace Items

variable {R R' : NodeId → Json → Prop} {i : Items} {t : Json}

theorem Depict.imp (h : i.Depict R t) (hR : ∀ c ∈ i.nodes, ∀ u, R c u → R' c u) :
    i.Depict R' t := by
  cases h with
  | elements h => exact .elements (forall₂_imp_mem h hR)
  | members h =>
      refine .members (forall₂_imp_mem h fun m hm u hu => ⟨hu.1, hR _ ?_ _ hu.2⟩)
      exact List.mem_map_of_mem hm

theorem Depict.exists_of_mem (h : i.Depict R t) {c : NodeId} (hc : c ∈ i.nodes) : ∃ u, R c u := by
  cases h with
  | elements h =>
      obtain ⟨u, -, hu⟩ := exists_of_forall₂ h hc
      exact ⟨u, hu⟩
  | members h =>
      obtain ⟨m, hm, rfl⟩ := List.mem_map.mp hc
      obtain ⟨u, -, hu⟩ := exists_of_forall₂ h hm
      exact ⟨u.2, hu.2⟩

/-- Items make up a tree if each of their nodes stands for one. -/
theorem exists_depict (h : ∀ c ∈ i.nodes, ∃ u, R c u) : ∃ t, i.Depict R t := by
  cases i with
  | elements ns =>
      obtain ⟨ts, hts⟩ := exists_forall₂ h
      exact ⟨_, .elements hts⟩
  | members ms =>
      have : ∀ m ∈ ms, ∃ u : Text × Json, m.1 = u.1 ∧ R m.2 u.2 := fun m hm =>
        let ⟨u, hu⟩ := h m.2 (List.mem_map_of_mem hm)
        ⟨(m.1, u), rfl, hu⟩
      obtain ⟨us, hus⟩ := exists_forall₂ this
      exact ⟨_, .members hus⟩

end Items

namespace Store

variable {s : Store} {n m c : NodeId} {t u : Json} {k : Nat} {p : List Nat}

/-! ### Trees of nodes -/

/-- What a node is makes up the tree, where `R` says which trees the nodes of a list stand for. -/
def Depicts (s : Store) (R : NodeId → Json → Prop) : Content → Json → Prop
  | .scalar v, t => t = v.toJson
  | .list l, t => (s.items l).Depict R t

/-- The node stands for the tree. -/
def Shows (s : Store) (n : NodeId) (t : Json) : Prop := ∃ k, s.treeWithin k n = some t

theorem Depicts.imp {R R' : NodeId → Json → Prop} (h : s.Depicts R (s.content n) t)
    (hR : ∀ c ∈ s.children n, ∀ u, R c u → R' c u) : s.Depicts R' (s.content n) t := by
  unfold children at hR
  cases hc : s.content n with
  | scalar v => rw [hc] at h; exact h
  | list l => rw [hc] at h hR; exact Items.Depict.imp h hR

theorem treeWithin_succ : s.treeWithin (k + 1) n = some t ↔
    s.Depicts (fun c u => s.treeWithin k c = some u) (s.content n) t := by
  rw [treeWithin]
  cases s.content n with
  | scalar v => exact ⟨fun h => (Option.some.inj h).symm, fun h => congrArg some h.symm⟩
  | list l =>
      simp only [Depicts]
      cases s.items l with
      | elements ns =>
          simp only [Option.map_eq_some_iff, mapM_eq_some_iff]
          constructor
          · rintro ⟨ts, hts, rfl⟩
            exact .elements hts
          · rintro ⟨hts⟩
            exact ⟨_, hts, rfl⟩
      | members ms =>
          have hm : ∀ (m : Text × NodeId) (u : Text × Json),
              (s.treeWithin k m.2).map (m.1, ·) = some u ↔
                m.1 = u.1 ∧ s.treeWithin k m.2 = some u.2 := by
            intro m u
            rw [Option.map_eq_some_iff]
            constructor
            · rintro ⟨x, hx, rfl⟩
              exact ⟨rfl, hx⟩
            · rintro ⟨h₁, h₂⟩
              exact ⟨u.2, h₂, Prod.ext h₁ rfl⟩
          simp only [Option.map_eq_some_iff, mapM_eq_some_iff, hm]
          constructor
          · rintro ⟨us, hus, rfl⟩
            exact .members hus
          · rintro ⟨⟩
            exact ⟨_, by assumption, rfl⟩

/-- A longer bound finds the same tree. -/
theorem treeWithin_mono (h : s.treeWithin k n = some t) : s.treeWithin (k + 1) n = some t := by
  induction k generalizing n t with
  | zero => cases h
  | succ k ih => exact treeWithin_succ.mpr ((treeWithin_succ.mp h).imp fun _ _ _ => ih)

theorem treeWithin_le {k' : Nat} (hk : k ≤ k') (h : s.treeWithin k n = some t) :
    s.treeWithin k' n = some t := by
  induction hk with
  | refl => exact h
  | step _ ih => exact treeWithin_mono ih

/-- A node stands for one tree at most. -/
theorem Shows.unique (h : s.Shows n t) (h' : s.Shows n u) : t = u := by
  obtain ⟨k, h⟩ := h
  obtain ⟨k', h'⟩ := h'
  have h₁ := treeWithin_le (Nat.le_max_left k k') h
  have h₂ := treeWithin_le (Nat.le_max_right k k') h'
  exact Option.some.inj (h₁.symm.trans h₂)

/-- A node stands for what the trees of its items make up. -/
theorem shows_iff : s.Shows n t ↔ s.Depicts s.Shows (s.content n) t := by
  constructor
  · rintro ⟨k, h⟩
    cases k with
    | zero => cases h
    | succ k => exact (treeWithin_succ.mp h).imp fun _ _ _ h => ⟨k, h⟩
  · intro h
    suffices ∃ k, s.Depicts (fun c u => s.treeWithin k c = some u) (s.content n) t by
      obtain ⟨k, h⟩ := this
      exact ⟨k + 1, treeWithin_succ.mpr h⟩
    cases hc : s.content n with
    | scalar v => rw [hc] at h; exact ⟨0, h⟩
    | list l =>
        rw [hc] at h
        simp only [Depicts] at h ⊢
        generalize s.items l = i at h ⊢
        cases h with
        | elements h =>
            obtain ⟨k, h⟩ := exists_bound treeWithin_mono h
            exact ⟨k, .elements h⟩
        | members h =>
            have hb := h.imp fun m u hu => hu.2.imp fun k hk =>
              show m.1 = u.1 ∧ s.treeWithin k m.2 = some u.2 from ⟨hu.1, hk⟩
            obtain ⟨k, hk⟩ := exists_bound (fun hu => ⟨hu.1, treeWithin_mono hu.2⟩) hb
            exact ⟨k, .members hk⟩

/-- The items of a node that stands for a tree stand for trees. -/
theorem Shows.exists_child (h : s.Shows n t) (hc : c ∈ s.children n) : ∃ u, s.Shows c u := by
  obtain ⟨l, hl, hc⟩ := exists_list_of_child hc
  rw [shows_iff, hl] at h
  exact Items.Depict.exists_of_mem h hc

/-- A node stands for a tree if its items do. -/
theorem exists_shows (h : ∀ c ∈ s.children n, ∃ u, s.Shows c u) : ∃ t, s.Shows n t := by
  unfold children at h
  cases hc : s.content n with
  | scalar v => exact ⟨v.toJson, shows_iff.mpr (by rw [hc]; rfl)⟩
  | list l =>
      rw [hc] at h
      obtain ⟨t, ht⟩ := Items.exists_depict h
      exact ⟨t, shows_iff.mpr (by rw [hc]; exact ht)⟩

/-- A property that a node with a tree has if its items have it. -/
theorem Shows.induction {P : NodeId → Json → Prop} (h : s.Shows n t)
    (step : ∀ n t, s.Shows n t → (∀ c ∈ s.children n, ∀ u, s.Shows c u → P c u) → P n t) :
    P n t := by
  obtain ⟨k, hk⟩ := h
  induction k generalizing n t with
  | zero => cases hk
  | succ k ih =>
      refine step n t ⟨_, hk⟩ fun c hc u hu => ?_
      have hd := treeWithin_succ.mp hk
      obtain ⟨l, hl, hc⟩ := exists_list_of_child hc
      rw [hl] at hd
      obtain ⟨u', hu'⟩ := Items.Depict.exists_of_mem hd hc
      rw [hu.unique ⟨k, hu'⟩]
      exact ih hu'

/-! ### Nodes do not contain themselves -/

theorem isSome_of_walk (h : (s.treeWithin k m).isSome) (hp : s.walk m p = some n) :
    p.length < k ∧ (s.treeWithin (k - p.length) n).isSome := by
  induction p generalizing m k with
  | nil =>
      cases hp
      cases k with
      | zero => cases h
      | succ k => exact ⟨Nat.succ_pos k, h⟩
  | cons j p ih =>
      cases k with
      | zero => cases h
      | succ k =>
          obtain ⟨c, hc, hp⟩ := walk_cons.mp hp
          obtain ⟨t, ht⟩ := Option.isSome_iff_exists.mp h
          obtain ⟨l, hl, hc⟩ := exists_list_of_child (List.mem_of_getElem? hc)
          have hd := treeWithin_succ.mp ht
          rw [hl] at hd
          obtain ⟨u, hu⟩ := Items.Depict.exists_of_mem hd hc
          obtain ⟨h₁, h₂⟩ := ih (Option.isSome_iff_exists.mpr ⟨u, hu⟩) hp
          rw [List.length_cons, Nat.add_sub_add_right]
          exact ⟨by omega, h₂⟩

theorem walk_self_of_isSome (h : (s.treeWithin k n).isSome) (hp : s.walk n p = some n) :
    p = [] := by
  induction k using Nat.strongRecOn with
  | ind k ih =>
      obtain ⟨h₁, h₂⟩ := isSome_of_walk h hp
      cases p with
      | nil => rfl
      | cons j p =>
          -- from `n` back to `n` the bound has become smaller
          refine ih _ ?_ h₂
          simp only [List.length_cons] at h₁ ⊢
          omega

/-- A node that stands for a tree does not contain itself. -/
theorem Shows.walk_self (h : s.Shows n t) (hp : s.walk n p = some n) : p = [] := by
  obtain ⟨k, hk⟩ := h
  exact walk_self_of_isSome (Option.isSome_iff_exists.mpr ⟨t, hk⟩) hp

theorem Shows.not_reaches (h : s.Shows n t) (hc : c ∈ s.children n) : ¬ s.Reaches c n := by
  rintro ⟨p, hp⟩
  obtain ⟨j, hj⟩ := List.mem_iff_getElem?.mp hc
  exact List.cons_ne_nil j p (h.walk_self (walk_cons.mpr ⟨c, hj, hp⟩))

/-! ### The bound that is always enough -/

theorem exists_child_of_treeWithin (h : (s.treeWithin (k + 2) n).isSome)
    (hn : s.treeWithin (k + 1) n = none) :
    ∃ c ∈ s.children n, (s.treeWithin (k + 1) c).isSome ∧ s.treeWithin k c = none := by
  obtain ⟨t, ht⟩ := Option.isSome_iff_exists.mp h
  have hd := treeWithin_succ.mp ht
  have hnone : ∀ u, ¬ s.Depicts (fun c u => s.treeWithin k c = some u) (s.content n) u :=
    fun u hu => by rw [treeWithin_succ.mpr hu] at hn; cases hn
  cases hc : s.content n with
  | scalar v => exact absurd (by rw [hc]; rfl) (hnone v.toJson)
  | list l =>
      rw [hc] at hd hnone
      rw [children_of_list hc]
      -- were the bound enough for every item, it would be enough for the node
      have : ¬ ∀ c ∈ (s.items l).nodes, ∃ u, s.treeWithin k c = some u := fun hall =>
        let ⟨u, hu⟩ := Items.exists_depict hall
        hnone u hu
      push Not at this
      obtain ⟨c, hcl, hcn⟩ := this
      obtain ⟨u, hu⟩ := Items.Depict.exists_of_mem hd hcl
      exact ⟨c, hcl, Option.isSome_iff_exists.mpr ⟨u, hu⟩,
        Option.eq_none_iff_forall_ne_some.mpr hcn⟩

theorem isSome_mono {k' : Nat} (hk : k ≤ k') (h : (s.treeWithin k n).isSome) :
    (s.treeWithin k' n).isSome := by
  obtain ⟨t, ht⟩ := Option.isSome_iff_exists.mp h
  exact Option.isSome_iff_exists.mpr ⟨t, treeWithin_le hk ht⟩

/-- A node that needs the bound `k + 1` is one of so many different nodes. -/
theorem exists_chain (hs : s.Closed) (hh : s.Has n) (h : (s.treeWithin (k + 1) n).isSome)
    (hn : s.treeWithin k n = none) :
    ∃ ns : List NodeId, ns.length = k + 1 ∧ ns.Nodup ∧
      ∀ c ∈ ns, s.Has c ∧ (s.treeWithin (k + 1) c).isSome := by
  induction k generalizing n with
  | zero => exact ⟨[n], rfl, List.nodup_singleton n, by simpa using ⟨hh, h⟩⟩
  | succ k ih =>
      obtain ⟨c, hc, hsome, hnone⟩ := exists_child_of_treeWithin h hn
      obtain ⟨ns, hlen, hnd, hns⟩ := ih (hs.has_child hc) hsome hnone
      refine ⟨n :: ns, by rw [List.length_cons, hlen], List.nodup_cons.mpr ⟨fun hmem => ?_, hnd⟩,
        List.forall_mem_cons.mpr ⟨⟨hh, h⟩, fun c hc => ⟨(hns c hc).1, ?_⟩⟩⟩
      · -- the bound `k + 1` is enough for the others
        have := (hns n hmem).2
        rw [hn] at this
        cases this
      · exact isSome_mono (Nat.le_succ _) (hns c hc).2

theorem length_le_of_nodup {ns : List NodeId} (h : ns.Nodup) (hh : ∀ c ∈ ns, s.Has c) :
    ns.length ≤ s.nodes.size := by
  have hinj : Function.Injective NodeId.index := fun a b hab => by cases a; cases b; simp_all
  have hsub : ns.map NodeId.index ⊆ List.range s.nodes.size := by
    intro j hj
    obtain ⟨c, hc, rfl⟩ := List.mem_map.mp hj
    exact List.mem_range.mpr (hh c hc)
  have := ((h.map hinj).subperm hsub).length_le
  rwa [List.length_map, List.length_range] at this

theorem isSome_treeWithin_size (hs : s.Closed) (hh : s.Has n) (h : (s.treeWithin k n).isSome) :
    (s.treeWithin s.nodes.size n).isSome := by
  induction k with
  | zero => cases h
  | succ k ih =>
      cases hn : s.treeWithin k n with
      | some u => exact ih (by rw [hn]; rfl)
      | none =>
          obtain ⟨ns, hlen, hnd, hns⟩ := exists_chain hs hh h hn
          have := length_le_of_nodup hnd fun c hc => (hns c hc).1
          exact isSome_mono (by omega) h

/-- A node stands for the tree that is found. -/
theorem shows_of_treeOf (h : s.treeOf n = .ok t) : s.Shows n t := by
  unfold treeOf at h
  split at h
  · next v hv => cases h; exact ⟨_, hv⟩
  · cases h

/-- The tree of a node that has one is found. -/
theorem treeOf_eq_ok_iff (hs : s.Closed) (hh : s.Has n) : s.treeOf n = .ok t ↔ s.Shows n t := by
  refine ⟨shows_of_treeOf, fun ⟨k, hk⟩ => ?_⟩
  have hsome := isSome_treeWithin_size hs hh (Option.isSome_iff_exists.mpr ⟨t, hk⟩)
  obtain ⟨u, hu⟩ := Option.isSome_iff_exists.mp hsome
  rw [treeOf, hu, Shows.unique ⟨_, hu⟩ ⟨k, hk⟩]

/-! ### Stores without cycles -/

/-- No node contains itself. -/
def Acyclic (s : Store) : Prop := ∀ n p, s.walk n p = some n → p = []

/-- Going down from a node comes to an end, as there are only so many nodes. -/
theorem Acyclic.wellFounded (h : s.Acyclic) :
    WellFounded fun b a : {n // s.Has n} => ∃ p ≠ [], s.walk a p = some b.1 := by
  have hfinite : Finite {n // s.Has n} := by
    refine Finite.of_injective (fun n => (⟨n.1.index, n.2⟩ : Fin s.nodes.size)) fun a b hab => ?_
    exact Subtype.ext (congrArg NodeId.mk (Fin.mk.inj hab))
  have htrans : IsTrans {n // s.Has n} fun b a => ∃ p ≠ [], s.walk a p = some b.1 := by
    refine ⟨fun a b c ⟨p, hp, hab⟩ ⟨q, hq, hbc⟩ => ⟨q ++ p, fun hnil => ?_, ?_⟩⟩
    · exact hq (List.append_eq_nil_iff.mp hnil).1
    · rw [walk_append, hbc]
      exact hab
  have hirrefl : Std.Irrefl fun b a : {n // s.Has n} => ∃ p ≠ [], s.walk a p = some b.1 :=
    ⟨fun a ⟨p, hp, ha⟩ => hp (h a.1 p ha)⟩
  exact Finite.wellFounded_of_trans_of_irrefl _

/-- Every node has a tree if and only if none contains itself. -/
theorem acyclic_iff (hs : s.Closed) : s.Acyclic ↔ ∀ n, s.Has n → ∃ t, s.Shows n t := by
  constructor
  · intro h n hn
    -- from the items to the container
    refine h.wellFounded.induction (C := fun n => ∃ t, s.Shows n.1 t) ⟨n, hn⟩ fun n ih => ?_
    refine exists_shows fun c hc => ?_
    obtain ⟨j, hj⟩ := List.mem_iff_getElem?.mp hc
    exact ih ⟨c, hs.has_child hc⟩ ⟨[j], List.cons_ne_nil j [], walk_cons.mpr ⟨c, hj, rfl⟩⟩
  · intro h n p hp
    by_cases hn : s.Has n
    · obtain ⟨t, ht⟩ := h n hn
      exact ht.walk_self hp
    · -- what does not exist has no items
      obtain ⟨t, ht⟩ := exists_shows (s := s) (n := n) fun c hc =>
        have ⟨_, hl, _⟩ := exists_list_of_child hc
        absurd (has_of_content hl) hn
      exact ht.walk_self hp

theorem Acyclic.exists_treeOf (h : s.Acyclic) (hs : s.Closed) (hn : s.Has n) :
    ∃ t, s.treeOf n = .ok t :=
  ((acyclic_iff hs).mp h n hn).imp fun _ => (treeOf_eq_ok_iff hs hn).mpr

/-- Where the tree of every node is found, none contains itself. -/
theorem acyclic_of_treeOf (hs : s.Closed) (h : ∀ i < s.nodes.size, (s.treeOf ⟨i⟩).isOk) :
    s.Acyclic := by
  refine (acyclic_iff hs).mpr fun ⟨i⟩ hi => ?_
  have hok := h i hi
  cases ht : s.treeOf ⟨i⟩ with
  | error e => rw [ht] at hok; cases hok
  | ok t => exact ⟨t, shows_of_treeOf ht⟩

end Store

end JsonDocument
