import JsonDocument.Session
import JsonDocument.Proofs.Store.Copies
import JsonDocument.Proofs.Store.Edits

/-!
# Proofs — Session — what a step does

All that a step does to the store of a session, said once for every kind of step.  A step touches
the node that it acts on, or the node whose list it edits, and no other; all but the two that put a
node itself into a list work with copies.

* `Step.Copies`: the step puts no node itself into a list.
* `Session.Alters`, `Session.Goes`: the ways in which a step can change the store and the names;
  `goes_run` goes through the steps, and what is said of all steps is derived from it.
* `Session.Targets`: the nodes that a step works on.
* `Session.Leads`, `Closed.leads`: what a step leads to from a session whose names stand for what
  exists.
* `Session.after`: the session after steps taken one after the other.
-/

namespace JsonDocument

/-- The step puts no node itself into a list. -/
def Step.Copies : Step → Prop
  | .edit _ (.push _ _) | .edit _ (.replace _ _ _) => False
  | _ => True

/-! ### Names -/

section Names

variable {α : Type} {name : Text} {a : α} {l : List (Text × α)} {m : Text × α}

theorem mem_keepUnder (h : m ∈ keepUnder name a l) : m = (name, a) ∨ m ∈ l := by
  induction l with
  | nil => exact .inl (List.mem_singleton.mp h)
  | cons b l ih =>
      rw [keepUnder] at h
      split at h
      · exact (List.mem_cons.mp h).imp_right (List.mem_cons_of_mem _)
      · split at h
        · exact List.mem_cons.mp h
        · rcases List.mem_cons.mp h with rfl | h
          · exact .inr (List.mem_cons_self ..)
          · exact (ih h).imp_right (List.mem_cons_of_mem _)

theorem lookup_keepUnder : (keepUnder name a l).lookup name = some a := by
  induction l with
  | nil => exact List.lookup_cons_self
  | cons b l ih =>
      rw [keepUnder]
      split
      · exact List.lookup_cons_self
      · next hne =>
          split
          · exact List.lookup_cons_self
          · rw [Members.lookup_cons, if_neg hne]
            exact ih

end Names

namespace Session

variable {w w' : Session} {s : Store} {n : NodeId} {l : ListId} {i : Items} {a : Answer}
  {name on : Text} {keep : Option Text} {step : Step}

theorem mem_of_node (h : w.node name = .ok n) : (name, n) ∈ w.nodeNames := by
  unfold node at h
  split at h
  · next hn =>
      cases h
      exact List.mem_of_getElem? (Members.getElem?_place hn)
  · cases h

theorem mem_of_list (h : w.list name = .ok l) : (name, l) ∈ w.listNames := by
  unfold list at h
  split at h
  · next hl =>
      cases h
      exact List.mem_of_getElem? (Members.getElem?_place hl)
  · cases h

theorem node_keepNode : (w.keepNode n (some name)).node name = .ok n := by
  unfold node keepNode
  rw [lookup_keepUnder]

@[simp] theorem store_keepNode : (w.keepNode n keep).store = w.store := by
  cases keep <;> rfl

@[simp] theorem store_keepList : (w.keepList l keep).store = w.store := by
  cases keep <;> rfl

/-! ### Closed sessions -/

/-- Nothing in the store refers to what does not exist, and no name stands for it. -/
structure Closed (w : Session) : Prop where
  store : w.store.Closed
  node_exists : ∀ m ∈ w.nodeNames, w.store.Has m.2
  list_exists : ∀ m ∈ w.listNames, w.store.HasList m.2

theorem Closed.has (hw : w.Closed) (h : w.node name = .ok n) : w.store.Has n :=
  hw.node_exists _ (mem_of_node h)

theorem Closed.hasList (hw : w.Closed) (h : w.list name = .ok l) : w.store.HasList l :=
  hw.list_exists _ (mem_of_list h)

theorem Closed.withStore (hw : w.Closed) (hs : s.Closed) (hc : w.store.Covers s) :
    Closed { w with store := s } :=
  ⟨hs, fun m hm => hc.has (hw.node_exists m hm), fun m hm => hc.hasList (hw.list_exists m hm)⟩

theorem Closed.keepNode (hw : w.Closed) (hn : w.store.Has n) : (w.keepNode n keep).Closed := by
  cases keep with
  | none => exact hw
  | some name =>
      refine ⟨hw.store, fun m hm => ?_, hw.list_exists⟩
      rcases mem_keepUnder hm with rfl | hm
      · exact hn
      · exact hw.node_exists m hm

theorem Closed.keepList (hw : w.Closed) (hl : w.store.HasList l) : (w.keepList l keep).Closed := by
  cases keep with
  | none => exact hw
  | some name =>
      refine ⟨hw.store, hw.node_exists, fun m hm => ?_⟩
      rcases mem_keepUnder hm with rfl | hm
      · exact hl
      · exact hw.list_exists m hm

/-! ### What a step does -/

/-- The tree that a step makes a new node for has been given to it or is made up of the trees of
nodes. -/
inductive Brings (w : Session) : Step → Json → Prop where
  | built {recipe : Recipe} {keep : Option Text} {v : Json} (h : recipe.build = .ok v) :
      Brings w (.create recipe keep) v
  | null {on : Text} {action : Action} : Brings w (.act on action) .null
  | copy {on : Text} {action : Action} {n : NodeId} {v : Json} (h : w.store.treeOf n = .ok v) :
      Brings w (.act on action) v
  | array {values : List Text} {keep : Option Text} {vs : List Json}
      (h : ∀ v ∈ vs, ∃ n, w.store.treeOf n = .ok v) : Brings w (.array values keep) (.array vs)
  | object {members : List (Text × Text)} {keep : Option Text} {ms : List (Text × Json)}
      (h : ∀ m ∈ ms, ∃ n, w.store.treeOf n = .ok m.2) : Brings w (.object members keep) (.object ms)

/-- What a step makes of the store. -/
inductive Alters (w : Session) : Step → Store → Prop where
  | nothing {step : Step} : Alters w step w.store
  | made {step : Step} {v : Json} (hv : w.Brings step v) : Alters w step (w.store.grow v).1
  | received {on : Text} {action : Action} {n c : NodeId} {v : Json} {s : Store}
      (hn : w.node on = .ok n) (hv : w.Brings (.act on action) v)
      (h : w.store.Receives n v s c) : Alters w (.act on action) s
  | assigned {on value : Text} {keep : Option Text} {n m : NodeId} {s : Store}
      (hn : w.node on = .ok n) (h : w.store.assign n m = .ok s) :
      Alters w (.act on (.assign value keep)) s
  | edited {on : Text} {e : Edit} {l : ListId} {i : Items} (hl : w.list on = .ok l)
      (hi : ∀ c ∈ i.nodes, c ∈ (w.store.items l).nodes ∨ ∃ name, w.node name = .ok c)
      (hsub : (Step.edit on e).Copies → i.nodes.Subperm (w.store.items l).nodes) :
      Alters w (.edit on e) (w.store.setItems l i)

/-- An edit that brings no node into the list. -/
theorem Alters.edited_of_subperm {e : Edit} (hl : w.list on = .ok l)
    (hi : i.nodes.Subperm (w.store.items l).nodes) :
    w.Alters (.edit on e) (w.store.setItems l i) :=
  .edited hl (fun _ hc => .inl (hi.subset hc)) fun _ => hi

/-- What a step makes of the session: besides the store, a node or the list of a node may have got a
name. -/
inductive Goes (w : Session) (step : Step) : Session → Prop where
  | on {s : Store} (hs : w.Alters step s) : Goes w step { w with store := s }
  | kept {s : Store} {n : NodeId} {keep : Option Text} (hs : w.Alters step s)
      (hn : w.Closed → s.Has n) : Goes w step ({ w with store := s }.keepNode n keep)
  | handed {n : NodeId} {l : ListId} {keep : Option Text} (hl : w.store.content n = .list l) :
      Goes w step (w.keepList l keep)

theorem Goes.stays : w.Goes step w := .on .nothing

theorem Goes.answerNode {r : Store × NodeId} (hs : w.Alters step r.1) (hn : w.Closed → r.1.Has r.2)
    (h : w.answerNode keep r = .ok (a, w')) : w.Goes step w' := by
  obtain ⟨v, -, h⟩ := bind_eq_ok.mp h
  cases h
  exact .kept hs hn

theorem Goes.answerNode? {o : Option NodeId} (hs : w.Alters step s)
    (hn : ∀ n, o = some n → w.Closed → s.Has n) (h : w.answerNode? keep s o = .ok (a, w')) :
    w.Goes step w' := by
  cases o with
  | none => cases h; exact .stays
  | some n => exact .answerNode hs (hn n rfl) h

/-- A new node for a tree. -/
theorem Goes.answerGrow {v : Json} (hv : w.Brings step v)
    (h : w.answerNode keep (w.store.grow v) = .ok (a, w')) : w.Goes step w' :=
  .answerNode (.made hv) (fun hw => (Store.grow_spec hw.store v).2.1.has) h

/-- A new node that is put into the list of the node that the step acts on. -/
theorem Goes.answerReceived {c : NodeId} {v : Json} {action : Action} (hn : w.node on = .ok n)
    (hv : w.Brings (.act on action) v) (hr : w.store.Receives n v s c)
    (h : w.answerNode keep (s, c) = .ok (a, w')) : w.Goes (.act on action) w' :=
  .answerNode (.received hn hv hr) (fun hw => (hr.storesCopy hw.store).has) h

/-- An action on a node. -/
theorem goes_of_act {action : Action} (hn : w.node on = .ok n)
    (h : w.act n action = .ok (a, w')) : w.Goes (.act on action) w' := by
  cases action with
  | «alias» keep => exact .answerNode .nothing (fun hw => hw.has hn) h
  | clone keep =>
      obtain ⟨r, hr, h⟩ := bind_eq_ok.mp h
      obtain ⟨u, hu, rfl⟩ := Store.clone_eq_ok hr
      exact .answerGrow (.copy hu) h
  | pushBack value keep =>
      obtain ⟨v, -, h⟩ := bind_eq_ok.mp h
      obtain ⟨r, hr, h⟩ := bind_eq_ok.mp h
      obtain ⟨u, hu, hr⟩ := Store.receives_pushBack hr
      exact .answerReceived hn (.copy hu) hr h
  | entry key keep =>
      obtain ⟨⟨s, c⟩, hr, h⟩ := bind_eq_ok.mp h
      rcases Store.receives_entry hr with ⟨rfl, hc⟩ | hr
      · exact .answerNode .nothing (fun hw => hw.store.has_of_find? hc) h
      · exact .answerReceived hn .null hr h
  | put key value keep =>
      obtain ⟨v, -, h⟩ := bind_eq_ok.mp h
      obtain ⟨r, hr, h⟩ := bind_eq_ok.mp h
      obtain ⟨u, hu, hr⟩ := Store.receives_put hr
      exact .answerReceived hn (.copy hu) hr h
  | assign value keep =>
      obtain ⟨v, -, h⟩ := bind_eq_ok.mp h
      obtain ⟨s, hs, h⟩ := bind_eq_ok.mp h
      refine .answerNode (.assigned hn hs) (fun hw => ?_) h
      exact (Store.copying_assign hw.store (hw.has hn) hs).1.has (hw.has hn)
  | find key keep => exact .answerNode? .nothing (fun c hc hw => hw.store.has_of_find? hc) h
  | elements keep =>
      obtain ⟨⟨l, ns⟩, hns, h⟩ := bind_eq_ok.mp h
      cases h
      exact .handed (Store.elementsOf_eq_ok_iff.mp hns).1
  | members keep =>
      obtain ⟨⟨l, ms⟩, hms, h⟩ := bind_eq_ok.mp h
      cases h
      exact .handed (Store.membersOf_eq_ok_iff.mp hms).1
  | equals other =>
      obtain ⟨_, -, h⟩ := bind_eq_ok.mp h
      obtain ⟨_, -, h⟩ := bind_eq_ok.mp h
      obtain ⟨_, -, h⟩ := bind_eq_ok.mp h
      cases h
      exact .stays
  | same _ | number | string | double | int64 | plain =>
      obtain ⟨_, -, h⟩ := bind_eq_ok.mp h
      cases h
      exact .stays
  | kind | bool _ => cases h; exact .stays

/-- An edit of a list. -/
theorem goes_of_edit {e : Edit} (hl : w.list on = .ok l) (h : w.edit l e = .ok (a, w')) :
    w.Goes (.edit on e) w' := by
  cases e with
  | node j keep =>
      refine .answerNode? .nothing (fun c hc hw => ?_) h
      exact hw.store.node_exists (Items.mem_of_node? hc)
  | keys =>
      obtain ⟨_, -, h⟩ := bind_eq_ok.mp h
      cases h
      exact .stays
  | length => cases h; exact .stays
  | push key value =>
      obtain ⟨v, hv, h⟩ := bind_eq_ok.mp h
      obtain ⟨i, hi, h⟩ := bind_eq_ok.mp h
      cases h
      refine .on (.edited hl (fun c hc => ?_) False.elim)
      rw [Items.nodes_push hi] at hc
      refine (List.mem_append.mp hc).imp_right fun hc => ⟨value, ?_⟩
      rwa [List.mem_singleton.mp hc]
  | pop keep =>
      refine .answerNode? (.edited_of_subperm hl Items.subperm_remove) (fun c hc hw => ?_) h
      exact hw.store.node_exists (Items.mem_of_node? hc)
  | replace j key value =>
      rw [Session.edit] at h
      split at h
      · cases h; exact .stays
      · obtain ⟨v, hv, h⟩ := bind_eq_ok.mp h
        obtain ⟨i, hi, h⟩ := bind_eq_ok.mp h
        cases h
        refine .on (.edited hl (fun c hc => ?_) False.elim)
        refine (Items.mem_replace hi hc).imp_right fun hc => ⟨value, ?_⟩
        rwa [hc]
  | rename j key =>
      rw [Session.edit] at h
      split at h
      · cases h; exact .stays
      · obtain ⟨i, hi, h⟩ := bind_eq_ok.mp h
        cases h
        refine .on (.edited_of_subperm hl ?_)
        rw [Items.nodes_rename hi]
  | remove j =>
      rw [Session.edit] at h
      split at h
      · cases h; exact .stays
      · cases h
        exact .on (.edited_of_subperm hl Items.subperm_remove)
  | reverse => cases h; exact .on (.edited_of_subperm hl Items.subperm_reverse)
  | clear => cases h; exact .on (.edited_of_subperm hl Items.subperm_clear)

theorem goes_of_perform (h : (w.perform step).outcome = .ok (a, w')) : w.Goes step w' := by
  cases step with
  | create recipe keep =>
      obtain ⟨v, hv, h⟩ := bind_eq_ok.mp h
      exact .answerGrow (.built hv) h
  | array values keep =>
      obtain ⟨ns, -, h⟩ := bind_eq_ok.mp h
      obtain ⟨r, hr, h⟩ := bind_eq_ok.mp h
      obtain ⟨vs, hvs, hr⟩ := bind_eq_ok.mp hr
      cases hr
      refine .answerGrow (.array fun v hv => ?_) h
      obtain ⟨n, -, hn⟩ := exists_of_mem_mapM hvs hv
      exact ⟨n, hn⟩
  | object members keep =>
      obtain ⟨ns, -, h⟩ := bind_eq_ok.mp h
      obtain ⟨r, hr, h⟩ := bind_eq_ok.mp h
      obtain ⟨us, hus, hr⟩ := bind_eq_ok.mp hr
      cases hr
      refine .answerGrow (.object fun u hu => ?_) h
      obtain ⟨m, -, hm⟩ := exists_of_mem_mapM hus hu
      obtain ⟨v, hv, rfl⟩ := map_eq_ok.mp hm
      exact ⟨m.2, hv⟩
  | act on action =>
      obtain ⟨n, hn, h⟩ := bind_eq_ok.mp h
      exact goes_of_act hn h
  | write on settings =>
      obtain ⟨n, -, h⟩ := outcome_bind_eq_ok.mp h
      obtain ⟨v, -, h⟩ := outcome_bind_eq_ok.mp h
      obtain ⟨t, -, h⟩ := outcome_bind_eq_ok.mp h
      cases h
      exact .stays
  | edit on e =>
      obtain ⟨l, hl, h⟩ := bind_eq_ok.mp h
      exact goes_of_edit hl h

/-- **What a step does**, whether it succeeds or fails. -/
theorem goes_run (w : Session) (step : Step) : w.Goes step (w.run step).2 := by
  unfold Session.run
  split
  · next warnings answer w' h => exact goes_of_perform (congrArg Logged.outcome h)
  · exact .stays

theorem Goes.store (h : w.Goes step w') : w.Alters step w'.store := by
  cases h with
  | on hs => exact hs
  | kept hs hn => rwa [store_keepNode]
  | handed hl =>
      rw [store_keepList]
      exact .nothing

theorem alters_run (w : Session) (step : Step) : w.Alters step (w.run step).2.store :=
  (goes_run w step).store

/-! ### What a step leads to -/

/-- The step acts on the node or edits its list. -/
def Targets (w : Session) (step : Step) (n : NodeId) : Prop :=
  match step with
  | .act on _ | .write on _ => w.node on = .ok n
  | .edit on _ => ∃ l, w.list on = .ok l ∧ w.store.content n = .list l
  | .create _ _ | .array _ _ | .object _ _ => False

theorem Alters.touches (h : w.Alters step s) (hw : w.Closed) :
    w.store.Touches s (w.Targets step) := by
  have hs := hw.store
  cases h with
  | nothing => exact .refl hs
  | made hv => exact (Store.grow_spec hs _).1.touches hs
  | received hn hv h =>
      exact (h.storesCopy hs).touches.mono fun _ hm => Option.some.inj hm ▸ hn
  | assigned hn h =>
      exact (Store.copying_assign hs (hw.has hn) h).1.mono fun _ hm => hm ▸ hn
  | edited hl hi hsub =>
      refine (Store.Touches.refl hs).setItems (fun c hc => ?_) fun _ hm => ⟨_, hl, hm⟩
      rcases hi c hc with hc | ⟨_, hc⟩
      · exact hs.node_exists hc
      · exact hw.has hc

theorem Alters.copying (h : w.Alters step s) (hw : w.Closed) (hstep : step.Copies) :
    w.store.Copying s := by
  have hs := hw.store
  cases h with
  | nothing => exact .refl hs
  | made hv => exact (Store.grow_spec hs _).1.copying hs
  | received hn hv h => exact (h.storesCopy hs).copying
  | assigned hn h => exact (Store.copying_assign hs (hw.has hn) h).2
  | edited hl hi hsub =>
      exact (Store.Copying.refl hs).setItems hs (hw.hasList hl) (hsub hstep) List.nodup_nil
        fun _ hc => absurd hc List.not_mem_nil

/-- What a step leads to is closed, and only what the step works on is touched; a step that copies
brings nothing into a list that is not new. -/
structure Leads (w : Session) (step : Step) (w' : Session) : Prop where
  closed : w'.Closed
  touches : w.store.Touches w'.store (w.Targets step)
  copying : step.Copies → w.store.Copying w'.store

theorem Goes.closed (h : w.Goes step w') (hw : w.Closed) : w'.Closed := by
  cases h with
  | on hs =>
      have ht := hs.touches hw
      exact hw.withStore ht.closed ht.toCovers
  | kept hs hn =>
      have ht := hs.touches hw
      exact (hw.withStore ht.closed ht.toCovers).keepNode (hn hw)
  | handed hl => exact hw.keepList (hw.store.list_exists hl)

theorem Closed.leads (hw : w.Closed) (step : Step) : w.Leads step (w.run step).2 :=
  have h := goes_run w step
  ⟨h.closed hw, h.store.touches hw, h.store.copying hw⟩

/-! ### Runs -/

/-- The session after steps taken one after the other. -/
def after (w : Session) (steps : List Step) : Session :=
  steps.foldl (fun w step => (w.run step).2) w

theorem closed_empty : empty.Closed :=
  ⟨Store.sound_empty.toClosed, fun _ hm => absurd hm List.not_mem_nil,
    fun _ hm => absurd hm List.not_mem_nil⟩

theorem Closed.after (hw : w.Closed) (steps : List Step) : (w.after steps).Closed := by
  induction steps generalizing w with
  | nil => exact hw
  | cons step steps ih => exact ih (hw.leads step).closed

end Session

end JsonDocument
