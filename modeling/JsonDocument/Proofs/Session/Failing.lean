import JsonDocument.Proofs.Session.InPlace
import JsonDocument.Proofs.Store.Operations

/-!
# Proofs — Session — steps that fail

A step that fails in place may leave new nodes behind, those of the parts of a value that it has
built before one could not be built, but all that there has been is as before.  It looks at
everything that can fail before it writes to a node or a list that exists.

* `Session.StoresIn`: the actions that store something, each in nodes of one kind.
* `Closed.act_eq_error_iff`: they fail for the kind of the node alone.
* `failed_steps_change_nothing`: all steps, in every session without cycles.
-/

namespace JsonDocument.Session

variable {w : Session} {n : NodeId} {k : Kind} {e : Fault} {action : Action} {on : Text}
  {keep : Option Text}

/-! ### Actions that store something -/

/-- The action stores something in nodes of this kind, and what it is to store is there. -/
inductive StoresIn (w : Session) : Action → Kind → Prop where
  | pushBack {value : Text} {keep : Option Text} {v : NodeId} (hv : w.node value = .ok v) :
      StoresIn w (.pushBack value keep) .array
  | entry {key : Text} {keep : Option Text} : StoresIn w (.entry key keep) .object
  | put {key value : Text} {keep : Option Text} {v : NodeId} (hv : w.node value = .ok v) :
      StoresIn w (.put key value keep) .object

/-- Answering does not fail where there is a tree to answer with. -/
theorem answerNode_eq_error_iff {x : Except Fault (Store × NodeId)}
    (hx : ∀ s c, x = .ok (s, c) → ∃ t, s.treeOf c = .ok t) :
    x >>= w.answerNode keep = .error e ↔ x = .error e :=
  bind_eq_error_iff fun ⟨s, c⟩ hsc =>
    let ⟨t, ht⟩ := hx s c hsc
    ⟨_, bind_eq_ok.mpr ⟨t, ht, rfl⟩⟩

/-- What is to be stored is refused for the kind of the node alone. -/
theorem Closed.act_eq_error_iff (hw : w.Closed) (ha : w.store.Acyclic)
    (h : w.StoresIn action k) :
    w.act n action = .error e ↔ w.store.kindOf n ≠ k ∧ e = .wrongKind k (w.store.kindOf n) := by
  have hs := hw.store
  cases h with
  | @pushBack value keep v hv =>
      obtain ⟨t, ht⟩ := ha.exists_treeOf hs (hw.has hv)
      have hact : w.act n (.pushBack value keep) =
          w.store.pushBack n v >>= w.answerNode keep := by rw [act, hv]; rfl
      rw [hact, answerNode_eq_error_iff, Store.pushBack_eq_error_iff ht,
        Store.elementsOf_eq_error_iff]
      intro s c h
      obtain ⟨u, -, hcopy⟩ := Store.storesCopy_pushBack hs h
      exact ⟨u, hcopy.treeOf⟩
  | @entry key keep =>
      rw [act, answerNode_eq_error_iff, Store.entry_eq_error_iff, Store.membersOf_eq_error_iff]
      intro s c h
      rcases Store.receives_entry h with ⟨rfl, hc⟩ | hr
      · exact ha.exists_treeOf hs (hs.has_of_find? hc)
      · exact ⟨.null, (hr.storesCopy hs).treeOf⟩
  | @put key value keep v hv =>
      obtain ⟨t, ht⟩ := ha.exists_treeOf hs (hw.has hv)
      have hact : w.act n (.put key value keep) =
          w.store.put n key v >>= w.answerNode keep := by rw [act, hv]; rfl
      rw [hact, answerNode_eq_error_iff, Store.put_eq_error_iff ht, Store.membersOf_eq_error_iff]
      intro s c h
      obtain ⟨u, -, hcopy⟩ := Store.storesCopy_put hs h
      exact ⟨u, hcopy.treeOf⟩

theorem run_act_eq_error_iff (hn : w.node on = .ok n) :
    (w.run (.act on action)).1.outcome = .error e ↔ w.act n action = .error e := by
  have hperform : w.perform (.act on action) = .ofExcept (w.act n action) := by
    rw [perform, hn]
    rfl
  rw [run, hperform]
  cases w.act n action with
  | error e' => exact ⟨fun h => congrArg _ (Except.error.inj h), fun h => h ▸ rfl⟩
  | ok r => constructor <;> intro h <;> cases h

/-! ### All steps -/

/-- **A failed step changes nothing.**  In every session without cycles that any steps have led to,
whatever nodes they have put into lists themselves, a step taken in place comes to what it comes to
otherwise, with the same warnings, and leads to the same session if it succeeds.  If it fails, then
every name stands for what it has stood for, every node has the content and the tree that it has
had, and every list its items.  Appending, storing under a key and asking for the node under a key
fail just if the node is of another kind than they are for, and the fault names both kinds. -/
theorem failed_steps_change_nothing (start : List Step) (step : Step) :
    let w := empty.after start
    w.store.Acyclic →
      let r := (InPlace.perform step).run w
      r.1 = (w.run step).1 ∧
      (∀ a, r.1.outcome = .ok a → r.2 = (w.run step).2) ∧
      (∀ e, r.1.outcome = .error e →
        (w.run step).2 = w ∧ r.2.nodeNames = w.nodeNames ∧ r.2.listNames = w.listNames ∧
        (∀ n, w.store.Has n → r.2.store.content n = w.store.content n ∧
          r.2.store.treeOf n = w.store.treeOf n) ∧
        ∀ l, w.store.HasList l → r.2.store.items l = w.store.items l) ∧
      ∀ on action n k, step = .act on action → w.node on = .ok n → w.StoresIn action k →
        ∀ e, r.1.outcome = .error e ↔
          w.store.kindOf n ≠ k ∧ e = .wrongKind k (w.store.kindOf n) := by
  intro w ha r
  have hw : w.Closed := closed_empty.after start
  obtain ⟨houtcome, hsession⟩ :=
    perform_eq_run hw (fun n hn => ha.exists_treeOf hw.store hn) step
  refine ⟨houtcome, fun a hok => ?_, fun e he => ?_, ?_⟩
  · rcases hsession with h | ⟨e, -, he, -⟩
    · exact h
    · exact nomatch hok.symm.trans ((congrArg Logged.outcome houtcome).trans he)
  · have hrun : (w.run step).2 = w :=
      run_of_error ((congrArg Logged.outcome houtcome).symm.trans he)
    obtain ⟨s, hk, hs, hr⟩ : ∃ s, w.store.Keeps s ∧ s.Closed ∧ r.2 = { w with store := s } := by
      rcases hsession with h | ⟨e, s, -, h⟩
      · exact ⟨w.store, .refl _, hw.store, h.trans hrun⟩
      · exact ⟨s, h⟩
    rw [hr]
    refine ⟨hrun, rfl, rfl, fun n hn => ⟨hk.content hn, ?_⟩, fun l hl => hk.items hl⟩
    obtain ⟨t, ht⟩ := ha.exists_treeOf hw.store hn
    exact (hk.treeOf hw.store hs hn ht).trans ht.symm
  · rintro on action n k rfl hn hk e
    rw [houtcome, run_act_eq_error_iff hn, hw.act_eq_error_iff ha hk]

/-- The array `a` has the string `b` itself as its element. -/
def failingRun : List Step :=
  [.array [] (some [97]), .create (.string [120]) (some [98]),
    .act [97] (.elements (some [108])), .edit [108] (.push none [98])]

/-- An array whose second element cannot be built. -/
def unbuilt : Step :=
  .create (.array [.bool true, .double ⟨0x7FF0000000000000⟩]) (some [98])

/-- The first element of the array has become a node, but `b` is what it has been; and nothing can
be appended to it. -/
theorem failed_steps_change_nothing_unbuilt :
    let w := empty.after failingRun
    let r := (InPlace.perform unbuilt).run w
    w.store.Acyclic ∧ r.1.outcome = .error (.notFinite ⟨0x7FF0000000000000⟩) ∧
      ¬ w.store.Has ⟨2⟩ ∧ r.2.store.treeOf ⟨2⟩ = .ok (.bool true) ∧
      r.2.nodeNames = w.nodeNames ∧ r.2.store.treeOf ⟨0⟩ = .ok (.array [.string [120]]) ∧
      ((InPlace.perform (.act [98] (.pushBack [97] none))).run w).1.outcome =
        .error (.wrongKind .array .string) := by
  intro w r
  have hacyclic : w.store.Acyclic :=
    Store.acyclic_of_treeOf (closed_empty.after failingRun).store (by decide)
  have hfault : r.1.outcome = .error (.notFinite ⟨0x7FF0000000000000⟩) := rfl
  obtain ⟨-, -, hfailed, -⟩ := failed_steps_change_nothing failingRun unbuilt hacyclic
  obtain ⟨-, hnames, -, htrees, -⟩ := hfailed _ hfault
  obtain ⟨-, htree⟩ := htrees ⟨0⟩ (by decide)
  obtain ⟨-, -, -, hrefused⟩ :=
    failed_steps_change_nothing failingRun (.act [98] (.pushBack [97] none)) hacyclic
  exact ⟨hacyclic, hfault, by decide, rfl, hnames, htree.trans rfl,
    (hrefused [98] _ ⟨1⟩ .array rfl rfl (.pushBack rfl) _).mpr ⟨by decide, rfl⟩⟩

end JsonDocument.Session
