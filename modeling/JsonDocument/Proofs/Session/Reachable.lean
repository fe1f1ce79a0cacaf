import JsonDocument.Proofs.Session.Steps

/-!
# Proofs — Session — reachable sessions

Every step but the two that put a node itself into a list works with copies (`Step.Copies`).  The
sessions that such steps lead to are sound: their stores are, and their names stand for what exists.

* `Session.Sound`: the invariant, which `Sound.run` keeps.
* `Session.Reachable`: the sessions that steps with copies lead to.
* `Reachable.refines_trees`: what the operations on nodes do in a reachable session.
-/

namespace JsonDocument

namespace Session

variable {w : Session} {n : NodeId} {name : Text}

/-! ### The invariant -/

/-- The store is sound and the names stand for what exists. -/
structure Sound (w : Session) : Prop where
  store : w.store.Sound
  node_exists : ∀ m ∈ w.nodeNames, w.store.Has m.2
  list_exists : ∀ m ∈ w.listNames, w.store.HasList m.2

theorem Sound.has (hw : w.Sound) (h : w.node name = .ok n) : w.store.Has n :=
  hw.node_exists _ (mem_of_node h)

theorem Sound.closed (hw : w.Sound) : w.Closed :=
  ⟨hw.store.toClosed, hw.node_exists, hw.list_exists⟩

/-- A step that works with copies keeps a session sound. -/
theorem Sound.run {step : Step} (hw : w.Sound) (hstep : step.Copies) : (w.run step).2.Sound := by
  obtain ⟨hclosed, -, hcopying⟩ := hw.closed.leads step
  exact ⟨(hcopying hstep).sound hw.store hclosed.store, hclosed.node_exists, hclosed.list_exists⟩

/-! ### Reachable sessions -/

/-- The sessions that steps with copies lead to. -/
inductive Reachable : Session → Prop where
  | empty : Reachable .empty
  | run {w : Session} {step : Step} (h : Reachable w) (hstep : step.Copies) :
      Reachable (w.run step).2

theorem Reachable.sound (h : w.Reachable) : w.Sound := by
  induction h with
  | empty =>
      exact ⟨Store.sound_empty, fun _ hm => absurd hm List.not_mem_nil,
        fun _ hm => absurd hm List.not_mem_nil⟩
  | run _ hstep ih => exact ih.run hstep

/-! ### Operations on trees -/

/-- What the operations on nodes do to trees, whether or not `v` contains `n` or `n` contains `v`.
They succeed exactly for the kind of node they are for.  The tree of `n` is then replaced by what
comes of the trees before the call, in every document that contains `n` and nowhere else.  The node
that results is the one that is stored: a change to it shows in `n`. -/
theorem Reachable.refines_trees (hw : w.Reachable) {v : NodeId} (hn : w.store.Has n)
    (hv : w.store.Has v) : ∃ t u, w.store.treeOf n = .ok t ∧ w.store.treeOf v = .ok u ∧
      ((∃ r, w.store.pushBack n v = .ok r) ↔ t.kind = .array) ∧
      (∀ s c, w.store.pushBack n v = .ok (s, c) → ∃ ts, t = .array ts ∧
        w.store.Replaces s n (.array (ts ++ [u])) ∧
        (∃ l ns, s.elementsOf n = .ok (l, ns ++ [c])) ∧
        ∀ s' x, s.Replaces s' c x → s'.treeOf n = .ok (.array (ts ++ [x]))) ∧
      (∀ key, (∃ r, w.store.put n key v = .ok r) ↔ t.kind = .object) ∧
      (∀ key s c, w.store.put n key v = .ok (s, c) → ∃ ms, t = .object ms ∧
        w.store.Replaces s n (.object (Members.put key u ms)) ∧
        s.find? n key = some c ∧
        ∀ s' x, s.Replaces s' c x → s'.treeOf n = .ok (.object (Members.put key x ms))) ∧
      (∀ key, (∃ r, w.store.entry n key = .ok r) ↔ t.kind = .object) ∧
      (∀ key s c, w.store.entry n key = .ok (s, c) → ∃ ms, t = .object ms ∧
        w.store.Replaces s n
          (.object (if key ∈ Members.keys ms then ms else ms ++ [(key, .null)])) ∧
        (key ∈ Members.keys ms → s = w.store) ∧ s.find? n key = some c ∧
        ∀ s' x, s.Replaces s' c x → s'.treeOf n = .ok (.object (Members.put key x ms))) ∧
      ∃ s, w.store.assign n v = .ok s ∧ w.store.Replaces s n u ∧
        ∀ value keep, w.node value = .ok v → ∃ a w',
          w.act n (.assign value (some keep)) = .ok (a, w') ∧ w'.store = s ∧
          w'.node keep = .ok n := by
  have hs := hw.sound.store
  obtain ⟨t, ht⟩ := hs.treeOf hn
  obtain ⟨u, hu⟩ := hs.treeOf hv
  have htree : ∀ {t'}, w.store.treeOf n = .ok t' → t = t' := fun h =>
    Except.ok.inj (ht.symm.trans h)
  have hvalue : ∀ {u'}, w.store.treeOf v = .ok u' → u = u' := fun h =>
    Except.ok.inj (hu.symm.trans h)
  have hkind := ((Store.treeOf_eq_ok_iff hs.toClosed hn).mp ht).kindOf
  refine ⟨t, u, ht, hu, hkind ▸ Store.exists_pushBack_iff hu, fun s c h => ?_,
    fun key => hkind ▸ Store.exists_put_iff hu, fun key s c h => ?_,
    fun key => hkind ▸ Store.exists_entry_iff, fun key s c h => ?_, ?_⟩
  · obtain ⟨ts, u', hts, hu', hch, l, ns, hns⟩ := hs.pushBack h
    obtain rfl := hvalue hu'
    exact ⟨ts, htree hts, hch.toReplaces, ⟨l, ns, hns⟩,
      fun s' x hr => hr.last_element hch.sound.toClosed hch.self hns⟩
  · obtain ⟨ms, u', hms, hu', hch, hf⟩ := hs.put h
    obtain rfl := hvalue hu'
    refine ⟨ms, htree hms, hch.toReplaces, hf, fun s' x hr => ?_⟩
    rw [hr.member hch.sound.toClosed hch.self hf, Members.put_put]
  · obtain ⟨ms, hms, hch, hsame, hf⟩ := hs.entry h
    refine ⟨ms, htree hms, hch.toReplaces, hsame, hf, fun s' x hr => ?_⟩
    rw [hr.member hch.sound.toClosed hch.self hf, Members.put_entry]
  · obtain ⟨s, h⟩ := Store.exists_assign hu
    obtain ⟨u', hu', hch⟩ := hs.assign hn h
    obtain rfl := hvalue hu'
    refine ⟨s, h, hch.toReplaces, fun value keep hvn => ?_⟩
    refine ⟨_, { w with store := s }.keepNode n (some keep), bind_eq_ok.mpr ⟨v, hvn,
      bind_eq_ok.mpr ⟨s, h, bind_eq_ok.mpr ⟨u, hch.self, rfl⟩⟩⟩, rfl, node_keepNode⟩

/-- An array that is appended to itself gets its old tree as its element. -/
theorem refines_trees_push_self :
    Reachable (empty.run (.array [] none)).2 ∧ (empty.run (.array [] none)).2.store.Has ⟨0⟩ ∧
      ∃ s c, (empty.run (.array [] none)).2.store.pushBack ⟨0⟩ ⟨0⟩ = .ok (s, c) ∧
        s.treeOf ⟨0⟩ = .ok (.array [.array []]) := by
  have hw : Reachable (empty.run (.array [] none)).2 := .run .empty trivial
  have hn : (empty.run (.array [] none)).2.store.Has ⟨0⟩ := by decide
  obtain ⟨t, u, ht, hu, -, hpush, -⟩ := hw.refines_trees hn hn
  have hself : (empty.run (.array [] none)).2.store.treeOf ⟨0⟩ = .ok (.array []) := rfl
  have hrun : (empty.run (.array [] none)).2.store.pushBack ⟨0⟩ ⟨0⟩ =
      .ok (⟨#[.list ⟨0⟩, .list ⟨1⟩], #[.elements [⟨1⟩], .elements []]⟩, ⟨1⟩) := rfl
  obtain ⟨ts, rfl, hr, -⟩ := hpush _ _ hrun
  obtain rfl := Except.ok.inj (hself.symm.trans hu)
  obtain rfl := Json.array.inj (Except.ok.inj (hself.symm.trans ht))
  exact ⟨hw, hn, _, _, hrun, hr.self⟩

end Session

end JsonDocument
