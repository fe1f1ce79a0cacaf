import JsonDocument.Proofs.Session.Steps

/-!
# Proofs — Session — copies stay independent

A copy owns what is below it, even where its original has items that other nodes have too.  Steps
that copy leave it so: nothing below the copy gets a second place, and nothing that was there before
comes to be below it.  As a step touches only what it works on (`Closed.leads`), what is done to the
copy does not show in a node apart from it, nor the other way round.

* `Store.IsCopy`: what a copy is when it has been made.
* `Session.Takes`, `Session.Stores`: the steps that take in copies, and the copies that they store.
* `Store.OwnsTree`, `Closed.ownsTree_after`: a copy goes on to own its tree through such steps.
* `copies_stay_independent`: from any session, whatever nodes are shared in it.
-/

namespace JsonDocument

namespace Store

variable {s s' : Store} {n c x m : NodeId} {u : Json} {into : Option NodeId}

/-! ### New copies -/

/-- `c` is a copy of `n` that the change from `s` to `s'` has made and put into `into`, or nowhere
if there is no such node. -/
structure IsCopy (s s' : Store) (n c : NodeId) (into : Option NodeId) : Prop where
  /-- The copy has the tree of its original. -/
  tree : ∃ t, s.treeOf n = .ok t ∧ s'.treeOf c = .ok t
  /-- The copy and what is below it are new. -/
  new : ∀ {m}, s'.Reaches c m → ¬ s.Has m
  /-- What is below the copy is there once. -/
  once : ∀ {m}, s'.Reaches c m → ∃! p, s'.walk c p = some m
  /-- The copy and what is below it are in one list at most, at one index. -/
  placed : ∀ {m l l'} {i j : Nat}, s'.Reaches c m → (s'.items l).nodes[i]? = some m →
    (s'.items l').nodes[j]? = some m → l = l' ∧ i = j
  inside : ∀ k ∈ into, c ∈ s'.children k
  loose : into = none → ∀ l, c ∉ (s'.items l).nodes
  /-- Only what is below the copy and what leads to where it is leads to anything below it. -/
  alone : ∀ {m x}, s'.Reaches c m → s'.Reaches x m →
    s'.Reaches c x ∨ ∃ k ∈ into, s'.Reaches x k
  /-- Only what leads to where the copy is gets another tree. -/
  others : ∀ {x}, s.Has x → (∀ k ∈ into, ¬ s.Reaches x k) → s'.treeOf x = s.treeOf x

theorem StoresCopy.isCopy (h : StoresCopy s s' into c u) (hs : s.Closed) (hn : s.treeOf n = .ok u) :
    s.IsCopy s' n c into where
  tree := ⟨u, hn, h.treeOf⟩
  new := h.not_has_of_reaches
  once := fun ⟨p, hp⟩ => ⟨p, hp, fun _ hq => h.owns.walk_unique h.touches.closed h.shows hq hp⟩
  placed hm := (h.copying.new_placed (h.not_has_of_reaches hm)).index_unique
  inside := h.inside
  loose := h.loose
  alone {m x} hm hx := by
    rcases h.owns.reaches_or h.touches.closed hx hm with hx | hx
    · rcases h.exists_into hx with rfl | hk
      · exact .inl (reaches_self s' x)
      · exact .inr hk
    · exact .inl hx
  others hx hk := h.touches.treeOf hs hx fun m hm hin => hk m hin hm

/-- The node stands for a tree, and nothing below it has a second place. -/
structure OwnsTree (s : Store) (c : NodeId) : Prop where
  has : s.Has c
  owns : s.Owns c
  has_tree : ∃ t, s.Shows c t

end Store

namespace Session

variable {w : Session} {n c x m : NodeId} {s : Store} {into : Option NodeId} {step : Step}
  {t : Json}

/-! ### Steps that make copies -/

/-- The step is to take in a copy of `n`. -/
inductive Takes (w : Session) (n : NodeId) : Step → Prop where
  | clone {on keep} (hn : w.node on = .ok n) : Takes w n (.act on (.clone keep))
  | pushBack {on value keep k} (hk : w.node on = .ok k) (hkind : w.store.kindOf k = .array)
      (hn : w.node value = .ok n) : Takes w n (.act on (.pushBack value keep))
  | put {on key value keep k} (hk : w.node on = .ok k) (hkind : w.store.kindOf k = .object)
      (hn : w.node value = .ok n) : Takes w n (.act on (.put key value keep))
  | array {values keep ns} (hns : values.mapM w.node = .ok ns) (hn : n ∈ ns) :
      Takes w n (.array values keep)
  | object {members keep ms} {key : Text}
      (hms : members.mapM (fun m => (w.node m.2).map (m.1, ·)) = .ok ms) (hn : (key, n) ∈ ms) :
      Takes w n (.object members keep)

/-- The step makes the store `s`, in which `c` is a copy of `n`, stored in `into` if there is such a
node. -/
inductive Stores (w : Session) (n : NodeId) : Step → Option NodeId → Store → NodeId → Prop where
  | clone {on keep s c} (hn : w.node on = .ok n) (h : w.store.clone n = .ok (s, c)) :
      Stores w n (.act on (.clone keep)) none s c
  | pushBack {on value keep k s c} (hk : w.node on = .ok k) (hn : w.node value = .ok n)
      (h : w.store.pushBack k n = .ok (s, c)) :
      Stores w n (.act on (.pushBack value keep)) (some k) s c
  | put {on key value keep k s c} (hk : w.node on = .ok k) (hn : w.node value = .ok n)
      (h : w.store.put k key n = .ok (s, c)) :
      Stores w n (.act on (.put key value keep)) (some k) s c
  | array {values keep ns k s c} {j : Nat} (hns : values.mapM w.node = .ok ns)
      (h : w.store.array ns = .ok (s, k)) (hn : ns[j]? = some n)
      (hc : (s.children k)[j]? = some c) : Stores w n (.array values keep) (some k) s c
  | object {members keep ms k s c} {key : Text} {j : Nat}
      (hms : members.mapM (fun m => (w.node m.2).map (m.1, ·)) = .ok ms)
      (h : w.store.object ms = .ok (s, k)) (hn : ms[j]? = some (key, n))
      (hc : (s.children k)[j]? = some c) : Stores w n (.object members keep) (some k) s c

/-- If there are no cycles, every copy that is to be taken in is made. -/
theorem Takes.exists_stores (h : w.Takes n step) (hw : w.Closed) (ha : w.store.Acyclic) :
    ∃ into s c, w.Stores n step into s c := by
  have htree : ∀ {name m}, w.node name = .ok m → ∃ t, w.store.treeOf m = .ok t := fun hm =>
    ha.exists_treeOf hw.store (hw.has hm)
  cases h with
  | clone hn =>
      obtain ⟨t, ht⟩ := htree hn
      obtain ⟨r, hr⟩ := Store.exists_clone ht
      exact ⟨_, _, _, .clone hn hr⟩
  | pushBack hk hkind hn =>
      obtain ⟨t, ht⟩ := htree hn
      obtain ⟨r, hr⟩ := (Store.exists_pushBack_iff ht).mpr hkind
      exact ⟨_, _, _, .pushBack hk hn hr⟩
  | put hk hkind hn =>
      obtain ⟨t, ht⟩ := htree hn
      obtain ⟨r, hr⟩ := (Store.exists_put_iff ht).mpr hkind
      exact ⟨_, _, _, .put hk hn hr⟩
  | @array values keep ns hns hn =>
      have htrees : ∀ m ∈ ns, ∃ t, w.store.treeOf m = .ok t := fun m hm =>
        let ⟨_, _, hname⟩ := exists_of_mem_mapM hns hm
        htree hname
      obtain ⟨⟨s, k⟩, hr⟩ := Store.exists_array htrees
      obtain ⟨j, c, hj, hc⟩ := Store.exists_item_of_array hw.store hr hn
      exact ⟨_, _, _, .array hns hr hj hc⟩
  | @object members keep ms key hms hn =>
      have htrees : ∀ m ∈ ms, ∃ t, w.store.treeOf m.2 = .ok t := fun m hm => by
        obtain ⟨m', -, hm'⟩ := exists_of_mem_mapM hms hm
        cases hname : w.node m'.2 with
        | error e => rw [hname] at hm'; cases hm'
        | ok d => rw [hname] at hm'; cases hm'; exact htree hname
      obtain ⟨⟨s, k⟩, hr⟩ := Store.exists_object htrees
      obtain ⟨j, c, hj, hc⟩ := Store.exists_item_of_object hw.store hr hn
      exact ⟨_, _, _, .object hms hr hj hc⟩

theorem Stores.storesCopy (h : w.Stores n step into s c) (hw : w.Closed) :
    ∃ u, w.store.treeOf n = .ok u ∧ w.store.StoresCopy s into c u := by
  cases h with
  | clone hn h => exact Store.storesCopy_clone hw.store h
  | pushBack hk hn h => exact Store.storesCopy_pushBack hw.store h
  | put hk hn h => exact Store.storesCopy_put hw.store h
  | array hns h hn hc => exact Store.storesCopy_array hw.store h hn hc
  | object hms h hn hc => exact Store.storesCopy_object hw.store h hn hc

/-- A step that comes to a node with a tree leads to the store that the node is in. -/
theorem store_run_of_answerNode (keep : Option Text) (r : Store × NodeId)
    (h : (w.perform step).outcome = w.answerNode keep r) (ht : r.1.treeOf r.2 = .ok t) :
    (w.run step).2.store = r.1 := by
  have hanswer : (w.perform step).outcome =
      .ok (.text t.compact, { w with store := r.1 }.keepNode r.2 keep) := by
    rw [h, answerNode, ht]
    rfl
  unfold run
  split
  · next warnings a w' hstep =>
      rw [hstep] at hanswer
      cases hanswer
      exact store_keepNode
  · next warnings e hstep =>
      rw [hstep] at hanswer
      cases hanswer

theorem Stores.run (h : w.Stores n step into s c) (hw : w.Closed) : (w.run step).2.store = s := by
  obtain ⟨u, -, hcopy⟩ := h.storesCopy hw
  cases h with
  | @clone on keep _ _ hn h =>
      refine store_run_of_answerNode keep (s, c) ?_ hcopy.treeOf
      simp only [perform, Logged.ofExcept, act, hn, h, bind, Except.bind]
  | @pushBack on value keep k _ _ hk hn h =>
      refine store_run_of_answerNode keep (s, c) ?_ hcopy.treeOf
      simp only [perform, Logged.ofExcept, act, hk, hn, h, bind, Except.bind]
  | @put on key value keep k _ _ hk hn h =>
      refine store_run_of_answerNode keep (s, c) ?_ hcopy.treeOf
      simp only [perform, Logged.ofExcept, act, hk, hn, h, bind, Except.bind]
  | @array values keep ns k _ _ j hns h hn hc =>
      obtain ⟨us, -, hk⟩ := Store.array_spec hw.store h
      refine store_run_of_answerNode keep (s, k) ?_ hk.treeOf
      simp only [perform, Logged.ofExcept, hns, h, bind, Except.bind]
  | @object members keep ms k _ _ key j hms h hn hc =>
      obtain ⟨us, -, hk⟩ := Store.object_spec hw.store h
      refine store_run_of_answerNode keep (s, k) ?_ hk.treeOf
      simp only [perform, Logged.ofExcept, hms, h, bind, Except.bind]

/-! ### Runs after a copy has been made -/

/-- A step that copies leaves a node the owner of its tree, which it may change. -/
theorem Closed.ownsTree_run (hw : w.Closed) (hstep : step.Copies) (hc : w.store.OwnsTree c) :
    (w.run step).2.store.OwnsTree c := by
  obtain ⟨hclosed, htouches, hcopying⟩ := hw.leads step
  obtain ⟨t, ht⟩ := hc.has_tree
  exact ⟨htouches.has hc.has, (hcopying hstep).owns hc.owns,
    (hcopying hstep).exists_tree hclosed.store ht⟩

theorem Closed.ownsTree_after {steps : List Step} (hw : w.Closed)
    (hsteps : ∀ step ∈ steps, step.Copies) (hc : w.store.OwnsTree c) :
    (w.after steps).store.OwnsTree c := by
  induction steps generalizing w with
  | nil => exact hc
  | cons step steps ih =>
      obtain ⟨hstep, hsteps⟩ := List.forall_mem_cons.mp hsteps
      exact ih (hw.leads step).closed hsteps (hw.ownsTree_run hstep hc)

/-- A step works on one node at most. -/
theorem Closed.target_unique (hw : w.Closed) (hm : w.Targets step m) (hx : w.Targets step x) :
    m = x := by
  cases step with
  | act on action => exact Except.ok.inj (hm.symm.trans hx)
  | write on settings => exact Except.ok.inj (hm.symm.trans hx)
  | edit on e =>
      obtain ⟨l, hl, hm⟩ := hm
      obtain ⟨l', hl', hx⟩ := hx
      obtain rfl := Except.ok.inj (hl.symm.trans hl')
      exact hw.store.one_owner hm hx
  | create recipe keep => exact hm.elim
  | array values keep => exact hm.elim
  | object members keep => exact hm.elim

/-- A step that works on nothing below a node leaves its tree as it is. -/
theorem Closed.treeOf_run (hw : w.Closed) (hx : w.store.Has x)
    (h : ∀ m, w.Targets step m → ¬ w.store.Reaches x m) :
    (w.run step).2.store.treeOf x = w.store.treeOf x :=
  (hw.leads step).touches.treeOf hw.store hx fun m hm ht => h m ht hm

/-- A step that works below an owner leaves the trees apart from it as they are. -/
theorem Closed.treeOf_run_apart (hw : w.Closed) (hc : w.store.Owns c) (hx : w.store.Has x)
    (hm : w.Targets step m) (hcm : w.store.Reaches c m) (hbelow : ¬ w.store.Reaches c x)
    (habove : ¬ w.store.Reaches x c) : (w.run step).2.store.treeOf x = w.store.treeOf x := by
  refine hw.treeOf_run hx fun m' hm' hxm => ?_
  obtain rfl := hw.target_unique hm hm'
  exact (hc.reaches_or hw.store hxm hcm).elim habove hbelow

/-- **Copies stay independent.**  In a session that any steps have led to, whatever nodes they have
put into lists themselves, a step makes a copy of what it takes in if there are no cycles.  Where it
does, the copy has the tree of its original and new nodes of its own (`Store.IsCopy`).  After any
further steps that copy, it still has a tree; a step that works neither on the copy nor on a node
below it leaves that tree as it is, and one that does leaves the tree of every node as it is that is
neither below the copy nor contains it. -/
theorem copies_stay_independent (start : List Step) (n : NodeId) (step : Step) :
    let w := empty.after start
    (w.Takes n step → w.store.Acyclic → ∃ into s c, w.Stores n step into s c) ∧
    ∀ into s c, w.Stores n step into s c →
      (w.run step).2.store = s ∧ w.store.IsCopy s n c into ∧
      ∀ later, (∀ step ∈ later, step.Copies) →
        let w' := (w.run step).2.after later
        (∃ t, w'.store.treeOf c = .ok t) ∧
        ∀ next,
          ((∀ m, w'.Targets next m → ¬ w'.store.Reaches c m) →
            (w'.run next).2.store.treeOf c = w'.store.treeOf c) ∧
          ((∃ m, w'.Targets next m ∧ w'.store.Reaches c m) →
            ∀ x, w'.store.Has x → ¬ w'.store.Reaches c x → ¬ w'.store.Reaches x c →
              (w'.run next).2.store.treeOf x = w'.store.treeOf x) := by
  intro w
  have hw : w.Closed := closed_empty.after start
  refine ⟨fun h ha => h.exists_stores hw ha, fun into s c h => ?_⟩
  obtain ⟨u, hu, hcopy⟩ := h.storesCopy hw
  have hrun : (w.run step).2.store = s := h.run hw
  refine ⟨hrun, hcopy.isCopy hw.store hu, fun later hlater => ?_⟩
  intro w'
  have hw₁ : (w.run step).2.Closed := (hw.leads step).closed
  have hw' : w'.Closed := hw₁.after later
  have hc₁ : (w.run step).2.store.OwnsTree c := hrun ▸ ⟨hcopy.has, hcopy.owns, _, hcopy.shows⟩
  have hc : w'.store.OwnsTree c := hw₁.ownsTree_after hlater hc₁
  refine ⟨?_, fun next => ⟨hw'.treeOf_run hc.has, ?_⟩⟩
  · obtain ⟨t, ht⟩ := hc.has_tree
    exact ⟨t, (Store.treeOf_eq_ok_iff hw'.store hc.has).mpr ht⟩
  · rintro ⟨m, hm, hcm⟩ x hx hbelow habove
    exact hw'.treeOf_run_apart hc.owns hx hm hcm hbelow habove

/-- The array `a` gets the node of `b` itself twice, through its live list. -/
def sharedRun : List Step :=
  [.array [] (some [97]), .array [] (some [98]), .act [97] (.elements (some [108])),
    .edit [108] (.push none [98]), .edit [108] (.push none [98])]

/-- The array `a` is appended to itself; the copy is kept as `c`. -/
def pushSelf : Step := .act [97] (.pushBack [97] (some [99]))

/-- A copy of `b` is appended to `c`; it is kept as `d`. -/
def pushCopy : Step := .act [99] (.pushBack [98] (some [100]))

/-- The session in which `a` has been appended to itself. -/
def copiedSession : Session := ((empty.after sharedRun).run pushSelf).2

/-- The copy `c` does not change with `b`, which its original has twice, nor `b` with what is in
`c`. -/
theorem copies_stay_independent_shared :
    (empty.after sharedRun).Takes ⟨0⟩ pushSelf ∧ (empty.after sharedRun).store.Acyclic ∧
      (empty.after sharedRun).Stores ⟨0⟩ pushSelf (some ⟨0⟩) copiedSession.store ⟨4⟩ ∧
      (empty.after sharedRun).store.IsCopy copiedSession.store ⟨0⟩ ⟨4⟩ (some ⟨0⟩) ∧
      ((copiedSession.after [pushCopy]).run (.act [98] (.pushBack [97] none))).2.store.treeOf ⟨4⟩ =
        .ok (.array [.array [], .array [], .array []]) ∧
      ((copiedSession.after [pushCopy]).run
        (.act [100] (.pushBack [97] none))).2.store.treeOf ⟨1⟩ = .ok (.array []) := by
  have hw : (empty.after sharedRun).Closed := closed_empty.after sharedRun
  have hacyclic : (empty.after sharedRun).store.Acyclic :=
    Store.acyclic_of_treeOf hw.store (by decide)
  have htakes : (empty.after sharedRun).Takes ⟨0⟩ pushSelf := .pushBack rfl rfl rfl
  have hstored : (empty.after sharedRun).Stores ⟨0⟩ pushSelf (some ⟨0⟩) copiedSession.store ⟨4⟩ :=
    .pushBack rfl rfl rfl
  have hpush : ∀ step ∈ [pushCopy], step.Copies := List.forall_mem_singleton.mpr trivial
  obtain ⟨-, hcopies⟩ := copies_stay_independent sharedRun ⟨0⟩ pushSelf
  obtain ⟨-, hcopy, hlater⟩ := hcopies _ _ _ hstored
  obtain ⟨-, hnext⟩ := hlater [pushCopy] hpush
  -- what was there before the copy is not below it, neither at once nor later
  have hbelow : ¬ (copiedSession.after [pushCopy]).store.Reaches ⟨4⟩ ⟨1⟩ := fun hr => by
    have hold : copiedSession.store.Has ⟨1⟩ := by decide
    have hleads : copiedSession.Leads pushCopy (copiedSession.after [pushCopy]) :=
      (hw.leads pushSelf).closed.leads pushCopy
    exact hcopy.new ((hleads.copying trivial).reaches hold hr).2 (by decide)
  have habove : ¬ (copiedSession.after [pushCopy]).store.Reaches ⟨1⟩ ⟨4⟩ := by
    rintro ⟨p, hp⟩
    cases p with
    | nil => cases hp
    | cons i p => cases hp
  refine ⟨htakes, hacyclic, hstored, hcopy, ?_, ?_⟩
  · refine ((hnext (.act [98] (.pushBack [97] none))).1 fun m hm => ?_).trans rfl
    obtain rfl : (⟨1⟩ : NodeId) = m := Except.ok.inj hm
    exact hbelow
  · have hd : ∃ m, (copiedSession.after [pushCopy]).Targets (.act [100] (.pushBack [97] none)) m ∧
        (copiedSession.after [pushCopy]).store.Reaches ⟨4⟩ m := ⟨⟨5⟩, rfl, [2], rfl⟩
    exact ((hnext _).2 hd ⟨1⟩ (by decide) hbelow habove).trans rfl

end Session

end JsonDocument
