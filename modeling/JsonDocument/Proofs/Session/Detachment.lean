import JsonDocument.Proofs.Session.Independence

/-!
# Proofs — Session — live lists that are left behind

A live list is the list of the node that it was handed out for, until something is assigned to that
node.  An assignment gives the node a list of its own, below which everything is new, and no node
has the old list any more.  Then the two have nothing in common: neither side leads to the other,
and steps that copy keep them apart.

* `Store.HandsOut`, `Session.Spares`: the list that is handed out for a node, and the steps that
  assign nothing to the node.
* `Store.Detached`: what holds of a node and its old list once something has been assigned, kept by
  steps that copy (`Closed.detached_after`).
* `assign_detaches_lists`: from any session, whatever nodes are shared in it.
-/

namespace JsonDocument

namespace Store

variable {s s' : Store} {n m v x d : NodeId} {l k : ListId} {i : Items} {u : Json}

/-! ### Lists that are handed out -/

/-- The list is handed out for the node. -/
def HandsOut (s : Store) (n : NodeId) (l : ListId) : Prop :=
  (∃ ns, s.elementsOf n = .ok (l, ns)) ∨ ∃ ms, s.membersOf n = .ok (l, ms)

theorem handsOut_iff : s.HandsOut n l ↔ s.content n = .list l := by
  constructor
  · rintro (⟨ns, h⟩ | ⟨ms, h⟩)
    · exact (elementsOf_eq_ok_iff.mp h).1
    · exact (membersOf_eq_ok_iff.mp h).1
  · intro h
    cases hi : s.items l with
    | elements ns => exact .inl ⟨ns, elementsOf_eq_ok_iff.mpr ⟨h, hi⟩⟩
    | members ms => exact .inr ⟨ms, membersOf_eq_ok_iff.mpr ⟨h, hi⟩⟩

/-- The node is an item of the list or below one. -/
def Below (s : Store) (l : ListId) (x : NodeId) : Prop :=
  ∃ d ∈ (s.items l).nodes, s.Reaches d x

theorem Reaches.trans (h : s.Reaches n m) (h' : s.Reaches m x) : s.Reaches n x := by
  obtain ⟨p, hp⟩ := h
  obtain ⟨q, hq⟩ := h'
  exact ⟨p ++ q, by rw [walk_append, hp]; exact hq⟩

theorem Closed.has_of_below (hs : s.Closed) (hx : s.Below l x) : s.Has x :=
  let ⟨_, hd, hr⟩ := hx
  hs.has_of_reaches (hs.node_exists hd) hr

/-- Without cycles nothing in the list of a node leads back to it. -/
theorem Acyclic.not_reaches_of_below (ha : s.Acyclic) (hl : s.content n = .list l)
    (hx : s.Below l x) : ¬ s.Reaches x n := by
  obtain ⟨d, hd, hdx⟩ := hx
  intro hr
  rw [← children_of_list hl] at hd
  obtain ⟨j, hj⟩ := List.mem_iff_getElem?.mp hd
  obtain ⟨p, hp⟩ := hdx.trans hr
  exact List.cons_ne_nil j p (ha n (j :: p) (walk_cons.mpr ⟨d, hj, hp⟩))

/-! ### What an assignment leaves behind -/

/-- The node owns its tree, no node has the list any more, and the node does not lead to what has
been in the list or below it in `s₀`, nor that to the node. -/
structure Detached (s₀ : Store) (n : NodeId) (l : ListId) (s : Store) : Prop where
  owner : s.OwnsTree n
  hasList : s.HasList l
  free : ∀ m, s.content m ≠ .list l
  items : (s.items l).nodes ⊆ (s₀.items l).nodes
  has : ∀ {x}, s₀.Below l x → s.Has x
  above : ∀ {x}, s₀.Below l x → ¬ s.Reaches x n
  below : ∀ {x}, s₀.Below l x → ¬ s.Reaches n x

theorem detached_assign (hs : s.Closed) (ha : s.Acyclic) (hl : s.content n = .list l)
    (h : s.assign n v = .ok s') : s.Detached n l s' := by
  have hn := has_of_content hl
  have hlist := hs.list_exists hl
  obtain ⟨htouches, hcopying⟩ := copying_assign hs hn h
  obtain ⟨u, -, hshows, hnew, hfresh, hitems⟩ := assign_spec hs hn h
  -- a path from the node begins with something new
  have hdown : ∀ {x}, s'.Reaches n x → x ≠ n → ¬ s.Has x := by
    rintro x ⟨p, hp⟩ hne
    cases p with
    | nil => exact absurd (Option.some.inj hp).symm hne
    | cons j p =>
        obtain ⟨c, hc, hp⟩ := walk_cons.mp hp
        exact hcopying.not_has_of_reaches (hnew c (List.mem_of_getElem? hc)) ⟨p, hp⟩
  have habove : ∀ {x}, s.Below l x → ¬ s'.Reaches x n := fun hx hr =>
    ha.not_reaches_of_below hl hx (hcopying.reaches hn hr).2
  refine ⟨⟨htouches.has hn, fun d hd hne => hcopying.new_placed (hdown hd hne), u, hshows⟩,
    htouches.hasList hlist, fun m hm => ?_, fun d hd => by rwa [hitems l hlist] at hd,
    fun hx => htouches.has (hs.has_of_below hx), habove, fun {x} hx hr => ?_⟩
  · obtain rfl := hs.one_owner (hcopying.old_owner hlist hm) hl
    exact hfresh l hm hlist
  · refine hdown hr ?_ (hs.has_of_below hx)
    rintro rfl
    exact habove hx (reaches_self s' x)

end Store

namespace Session

variable {w w' : Session} {n m x : NodeId} {l : ListId} {s s₀ : Store} {step : Step}

/-! ### Steps on a node and on its list -/

/-- The step assigns something to the node. -/
def Assigns (w : Session) (step : Step) (n : NodeId) : Prop :=
  ∃ on value keep a, step = .act on (.assign value keep) ∧ w.node on = .ok n ∧
    (w.run step).1.outcome = .ok a

/-- None of the steps assigns anything to the node. -/
def Spares (w : Session) (n : NodeId) : List Step → Prop
  | [] => True
  | step :: steps => ¬ w.Assigns step n ∧ (w.run step).2.Spares n steps

/-- The step edits the list. -/
def Edits (w : Session) (step : Step) (l : ListId) : Prop :=
  ∃ on e, step = .edit on e ∧ w.list on = .ok l

/-- A node has another content only after an assignment. -/
theorem Alters.content (h : w.Alters step s) (hw : w.Closed) (hn : w.store.Has n)
    (hstep : ∀ on value keep, step = .act on (.assign value keep) → w.node on ≠ .ok n) :
    s.content n = w.store.content n := by
  have hs := hw.store
  cases h with
  | nothing => rfl
  | made hv => exact (Store.grow_spec hs _).1.content hn
  | received hk hv h =>
      obtain ⟨hl, hi, hc⟩ := h
      exact (Store.grow_spec hs _).1.content hn
  | @assigned on value keep k _ _ hk h =>
      obtain ⟨u, -, h⟩ := bind_eq_ok.mp h
      cases h
      have hne : n ≠ k := fun he => hstep on value keep rfl (he ▸ hk)
      rw [Store.content_setContent hne]
      exact (Store.growContent_spec hs u).1.content hn
  | edited hl hi hsub => rfl

theorem Closed.content_run (hw : w.Closed) (hn : w.store.Has n) (hstep : ¬ w.Assigns step n) :
    (w.run step).2.store.content n = w.store.content n := by
  cases hrun : (w.run step).1.outcome with
  | error e => rw [run_of_error hrun]
  | ok a =>
      refine (alters_run w step).content hw hn ?_
      rintro on value keep rfl hon
      exact hstep ⟨on, value, keep, a, rfl, hon, hrun⟩

theorem Closed.content_after {steps : List Step} (hw : w.Closed) (hn : w.store.Has n)
    (hsteps : w.Spares n steps) : (w.after steps).store.content n = w.store.content n := by
  induction steps generalizing w with
  | nil => rfl
  | cons step steps ih =>
      have hleads := hw.leads step
      exact (ih hleads.closed (hleads.touches.has hn) hsteps.2).trans (hw.content_run hn hsteps.1)

/-- A list that no node has is changed by edits alone, and by a step that copies it gets no node. -/
theorem Alters.items_of_free (h : w.Alters step s) (hw : w.Closed) (hl : w.store.HasList l)
    (hfree : ∀ m, w.store.content m ≠ .list l) :
    (¬ w.Edits step l → s.items l = w.store.items l) ∧
      (step.Copies → (s.items l).nodes ⊆ (w.store.items l).nodes) := by
  have hs := hw.store
  suffices s.items l = w.store.items l ∨ w.Edits step l ∧
      (step.Copies → (s.items l).nodes ⊆ (w.store.items l).nodes) by
    rcases this with h | ⟨hedit, hsub⟩
    · exact ⟨fun _ => h, fun _ => by rw [h]; exact List.Subset.refl _⟩
    · exact ⟨fun hnot => absurd hedit hnot, hsub⟩
  cases h with
  | nothing => exact .inl rfl
  | made hv => exact .inl ((Store.grow_spec hs _).1.items hl)
  | received hk hv h =>
      obtain ⟨hl', hi, hc⟩ := h
      rw [Store.items_setItems fun he => hfree _ (he ▸ hl')]
      exact .inl ((Store.grow_spec hs _).1.items hl)
  | assigned hk h =>
      obtain ⟨u, -, -, -, -, hitems⟩ := Store.assign_spec hs (hw.has hk) h
      exact .inl (hitems l hl)
  | @edited on e l' i hl' hi hsub =>
      by_cases he : l = l'
      · subst he
        rw [Store.items_setItems_self hl]
        exact .inr ⟨⟨on, e, rfl, hl'⟩, fun hstep => (hsub hstep).subset⟩
      · exact .inl (Store.items_setItems he)

/-! ### Steps after an assignment -/

theorem Closed.detached_run (hw : w.Closed) (hstep : step.Copies)
    (hd : s₀.Detached n l w.store) : s₀.Detached n l (w.run step).2.store := by
  obtain ⟨hclosed, htouches, hcopying⟩ := hw.leads step
  have hcopying := hcopying hstep
  exact {
    owner := hw.ownsTree_run hstep hd.owner
    hasList := htouches.hasList hd.hasList
    free := fun m hm => hd.free m (hcopying.old_owner hd.hasList hm)
    items := List.Subset.trans
      (((alters_run w step).items_of_free hw hd.hasList hd.free).2 hstep) hd.items
    has := fun hx => htouches.has (hd.has hx)
    above := fun hx hr => hd.above hx (hcopying.reaches hd.owner.has hr).2
    below := fun hx hr => hd.below hx (hcopying.reaches (hd.has hx) hr).2 }

theorem Closed.detached_after {steps : List Step} (hw : w.Closed)
    (hsteps : ∀ step ∈ steps, step.Copies) (hd : s₀.Detached n l w.store) :
    s₀.Detached n l (w.after steps).store := by
  induction steps generalizing w with
  | nil => exact hd
  | cons step steps ih =>
      obtain ⟨hstep, hsteps⟩ := List.forall_mem_cons.mp hsteps
      exact ih (hw.leads step).closed hsteps (hw.detached_run hstep hd)

/-- A step on a list that no node has works on no node. -/
theorem Edits.not_targets (h : w.Edits step l) (hfree : ∀ m, w.store.content m ≠ .list l) :
    ¬ w.Targets step m := by
  obtain ⟨on, e, rfl, hl⟩ := h
  rintro ⟨l', hl', hm⟩
  obtain rfl := Except.ok.inj (hl.symm.trans hl')
  exact hfree m hm

section Detached

variable (hw : w.Closed) (hd : s₀.Detached n l w.store)
include hw hd

/-- Neither an edit of the old list nor a change to what has been in it or below it shows in the
node. -/
theorem Closed.treeOf_run_of_below
    (hstep : w.Edits step l ∨ ∃ x m, s₀.Below l x ∧ w.store.Reaches x m ∧ w.Targets step m) :
    (w.run step).2.store.treeOf n = w.store.treeOf n := by
  refine hw.treeOf_run hd.owner.has fun m hm hr => ?_
  rcases hstep with hedit | ⟨x, m', hx, hxm, hm'⟩
  · exact hedit.not_targets hd.free hm
  · obtain rfl := hw.target_unique hm hm'
    exact (hd.owner.owns.reaches_or hw.store hxm hr).elim (hd.above hx) (hd.below hx)

/-- A change to the node or below it shows neither in the old list nor in what has been in it. -/
theorem Closed.items_run_of_target (hm : w.Targets step m) (hr : w.store.Reaches n m) :
    (w.run step).2.store.items l = w.store.items l ∧
      ∀ x, s₀.Below l x → (w.run step).2.store.treeOf x = w.store.treeOf x := by
  refine ⟨((alters_run w step).items_of_free hw hd.hasList hd.free).1 fun hedit => ?_,
    fun x hx => ?_⟩
  · exact hedit.not_targets hd.free hm
  · exact hw.treeOf_run_apart hd.owner.owns (hd.has hx) hm hr (hd.below hx) (hd.above hx)

end Detached

/-- An assignment succeeds wherever the value has a tree, and answers with it. -/
theorem Closed.run_assign {on value : Text} {v : NodeId} {u : Json} (hw : w.Closed)
    (hn : w.node on = .ok n) (hv : w.node value = .ok v) (hu : w.store.treeOf v = .ok u)
    (keep : Option Text) :
    ∃ s, w.store.assign n v = .ok s ∧ s.treeOf n = .ok u ∧
      w.run (.act on (.assign value keep)) =
        (⟨[], .ok (.text u.compact)⟩, { w with store := s }.keepNode n keep) := by
  obtain ⟨s, hs⟩ := Store.exists_assign hu (n := n)
  obtain ⟨u', hu', hshows, -⟩ := Store.assign_spec hw.store (hw.has hn) hs
  obtain rfl := Except.ok.inj (hu.symm.trans hu')
  have htouches := (Store.copying_assign hw.store (hw.has hn) hs).1
  have htree := (Store.treeOf_eq_ok_iff htouches.closed (htouches.has (hw.has hn))).mpr hshows
  refine ⟨s, hs, htree, ?_⟩
  simp only [run, perform, Logged.ofExcept, act, answerNode, hn, hv, hs, htree, bind, Except.bind,
    pure, Except.pure]

/-- **An assignment leaves live lists behind.**  In a session that any steps have led to, whatever
nodes they have put into lists themselves, a list that is handed out for a node is the one that is
handed out for it, with its items, through all further steps that assign nothing to the node.

If there are no cycles, an assignment to the node succeeds, whatever node `m` is assigned: the node
itself, one in the list, or one that contains the node.  The node has the old tree of `m` then.
After any further steps that copy, the list is not the one that is handed out and has got no items.
An edit of it leaves the tree of the node as it is, and so does a step that works on what has been
in the list, on what has been below that, or on what has come to be below that; and a step that
works on the node, or on what is below it, leaves the list and the trees of these as they are. -/
theorem assign_detaches_lists (start : List Step) (n : NodeId) (l : ListId) :
    let w := empty.after start
    w.store.HandsOut n l →
      (∀ steps, w.Spares n steps →
        let s := (w.after steps).store
        s.HandsOut n l ∧ s.children n = (s.items l).nodes ∧
        (∀ k ns, s.elementsOf n = .ok (k, ns) → k = l ∧ s.items l = .elements ns) ∧
        ∀ k ms, s.membersOf n = .ok (k, ms) → k = l ∧ s.items l = .members ms) ∧
      (w.store.Acyclic → ∀ on value keep m, w.node on = .ok n → w.node value = .ok m →
        let r := w.run (.act on (.assign value keep))
        ∃ u, w.store.treeOf m = .ok u ∧ r.1.outcome = .ok (.text u.compact) ∧
          r.2.store.treeOf n = .ok u ∧
          ∀ later, (∀ step ∈ later, step.Copies) →
            let w' := r.2.after later
            ¬ w'.store.HandsOut n l ∧ (w'.store.items l).nodes ⊆ (w.store.items l).nodes ∧
            ∀ next,
              ((w'.Edits next l ∨
                  ∃ x y, w.store.Below l x ∧ w'.store.Reaches x y ∧ w'.Targets next y) →
                (w'.run next).2.store.treeOf n = w'.store.treeOf n) ∧
              (∀ y, w'.Targets next y → w'.store.Reaches n y →
                (w'.run next).2.store.items l = w'.store.items l ∧
                ∀ x, w.store.Below l x →
                  (w'.run next).2.store.treeOf x = w'.store.treeOf x)) := by
  intro w hout
  have hw : w.Closed := closed_empty.after start
  have hl := Store.handsOut_iff.mp hout
  have hn := Store.has_of_content hl
  refine ⟨fun steps hsteps => ?_, fun ha on value keep m hon hvalue => ?_⟩
  · intro s
    have hl' : s.content n = .list l := (hw.content_after hn hsteps).trans hl
    refine ⟨Store.handsOut_iff.mpr hl', Store.children_of_list hl', fun k ns h => ?_,
      fun k ms h => ?_⟩
    · obtain ⟨hk, hi⟩ := Store.elementsOf_eq_ok_iff.mp h
      obtain rfl := Content.list.inj (hk.symm.trans hl')
      exact ⟨rfl, hi⟩
    · obtain ⟨hk, hi⟩ := Store.membersOf_eq_ok_iff.mp h
      obtain rfl := Content.list.inj (hk.symm.trans hl')
      exact ⟨rfl, hi⟩
  · intro r
    obtain ⟨u, hu⟩ := ha.exists_treeOf hw.store (hw.has hvalue)
    obtain ⟨s, hs, htree, hrun⟩ := hw.run_assign hon hvalue hu keep
    have hr : r.2.store = s := (congrArg (·.2.store) hrun).trans store_keepNode
    have hr' : r.2.Closed := (hw.leads _).closed
    have hd : w.store.Detached n l r.2.store := hr ▸ Store.detached_assign hw.store ha hl hs
    refine ⟨u, hu, congrArg (·.1.outcome) hrun, hr ▸ htree, fun later hlater => ?_⟩
    intro w'
    have hw' : w'.Closed := hr'.after later
    have hd' : w.store.Detached n l w'.store := hr'.detached_after hlater hd
    refine ⟨fun h => hd'.free n (Store.handsOut_iff.mp h), hd'.items, fun next =>
      ⟨fun h => hw'.treeOf_run_of_below hd' h, fun y hy hy' => hw'.items_run_of_target hd' hy hy'⟩⟩

/-- The array `a` has the array `b` as its element; its live list is `l`. -/
def heldRun : List Step :=
  [.array [] (some [97]), .act [97] (.pushBack [97] (some [98])),
    .act [97] (.elements (some [108]))]

/-- The session in which `a` has then been made what `b` is. -/
def detachedSession : Session := ((empty.after heldRun).run (.act [97] (.assign [98] none))).2

/-- Up to the assignment `l` is the list of `a`.  What is then put into `b`, which is still in `l`,
does not show in `a`, nor does clearing `l`, and what is appended to `a` does not get into `l`. -/
theorem assign_detaches_lists_item :
    (empty.after heldRun).store.HandsOut ⟨0⟩ ⟨0⟩ ∧ (empty.after heldRun).store.Acyclic ∧
      (empty.after heldRun).Spares ⟨0⟩ [.edit [108] .reverse] ∧
      ((empty.after heldRun).after [.edit [108] .reverse]).store.children ⟨0⟩ = [⟨1⟩] ∧
      detachedSession.store.treeOf ⟨0⟩ = .ok (.array []) ∧
      (detachedSession.run (.act [98] (.pushBack [98] none))).2.store.treeOf ⟨0⟩ =
        .ok (.array []) ∧
      ((detachedSession.after [.act [98] (.pushBack [98] none)]).run
        (.edit [108] .clear)).2.store.treeOf ⟨0⟩ = .ok (.array []) ∧
      ((detachedSession.after [.act [98] (.pushBack [98] none)]).run
        (.act [97] (.pushBack [98] none))).2.store.items ⟨0⟩ = .elements [⟨1⟩] := by
  have hout : (empty.after heldRun).store.HandsOut ⟨0⟩ ⟨0⟩ := .inl ⟨_, rfl⟩
  have hw : (empty.after heldRun).Closed := closed_empty.after heldRun
  have hacyclic : (empty.after heldRun).store.Acyclic :=
    Store.acyclic_of_treeOf hw.store (by decide)
  have hspares : (empty.after heldRun).Spares ⟨0⟩ [.edit [108] .reverse] :=
    ⟨fun ⟨_, _, _, _, h, _⟩ => (nomatch h), trivial⟩
  have hpush : ∀ step ∈ [Step.act [98] (.pushBack [98] none)], step.Copies :=
    List.forall_mem_singleton.mpr trivial
  have hbelow : (empty.after heldRun).store.Below ⟨0⟩ ⟨1⟩ :=
    ⟨⟨1⟩, List.mem_singleton_self _, Store.reaches_self _ _⟩
  obtain ⟨hheld, hdetached⟩ := assign_detaches_lists heldRun ⟨0⟩ ⟨0⟩ hout
  obtain ⟨-, hchildren, -⟩ := hheld _ hspares
  obtain ⟨u, hu, -, htree, hlater⟩ := hdetached hacyclic [97] [98] none ⟨1⟩ rfl rfl
  obtain rfl : Json.array [] = u := Except.ok.inj (rfl.symm.trans hu)
  obtain ⟨-, -, hat⟩ := hlater [] fun _ h => absurd h List.not_mem_nil
  obtain ⟨-, -, hnext⟩ := hlater _ hpush
  refine ⟨hout, hacyclic, hspares, hchildren.trans rfl, htree, ?_, ?_, ?_⟩
  · have hself := (hat (.act [98] (.pushBack [98] none))).1
    exact (hself (.inr ⟨⟨1⟩, ⟨1⟩, hbelow, Store.reaches_self _ _, rfl⟩)).trans htree
  · exact ((hnext _).1 (.inl ⟨[108], .clear, rfl, rfl⟩)).trans rfl
  · have hself := (hnext (.act [97] (.pushBack [98] none))).2
    exact (hself ⟨0⟩ rfl (Store.reaches_self _ _)).1.trans rfl

end Session

end JsonDocument
