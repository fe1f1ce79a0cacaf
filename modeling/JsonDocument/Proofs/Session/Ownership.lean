import JsonDocument.Proofs.Session.Reachable

/-!
# Proofs — Session — containers own their items

A step that copies keeps the session sound (`Sound.run`), so a run of such steps from the empty
session does (`reachable_after`).  In a sound store a node is in one list at most, whether or not a
node still has that list, so no value that has been stored is shared, and no container holds itself.

* `reachable_after`: runs of steps that copy lead to reachable sessions.
* `containers_own_items`: one place for every node, one owner for every list, and no cycles.
-/

namespace JsonDocument.Session

variable {w : Session}

theorem reachable_after {steps : List Step} (hw : w.Reachable)
    (hsteps : ∀ step ∈ steps, step.Copies) : (w.after steps).Reachable := by
  induction steps generalizing w with
  | nil => exact hw
  | cons step steps ih =>
      obtain ⟨hstep, hsteps⟩ := List.forall_mem_cons.mp hsteps
      exact ih (hw.run hstep) hsteps

/-- **Containers own their items.**  After any run in which no node itself is put into a list, a
node is at one index of one list at most, counting the lists that no node has any more; so it is one
item of one container.  No path leads from a node back to it, a list is the content of one node at
most, and what names stand for exists, with a tree for every node. -/
theorem containers_own_items (steps : List Step) (hsteps : ∀ step ∈ steps, step.Copies) :
    let w := empty.after steps
    (∀ l l' d (i j : Nat), (w.store.items l).nodes[i]? = some d →
      (w.store.items l').nodes[j]? = some d → l = l' ∧ i = j) ∧
    (∀ a b d (i j : Nat), (w.store.children a)[i]? = some d →
      (w.store.children b)[j]? = some d → a = b ∧ i = j) ∧
    w.store.Acyclic ∧
    (∀ a b l, w.store.content a = .list l → w.store.content b = .list l → a = b) ∧
    (∀ name n, w.node name = .ok n → w.store.Has n ∧ ∃ t, w.store.treeOf n = .ok t) ∧
    ∀ name l, w.list name = .ok l → w.store.HasList l := by
  intro w
  have hw : w.Sound := (reachable_after .empty hsteps).sound
  have hplaced := Store.unshared_iff.mp hw.store.toUnshared
  refine ⟨fun _ _ d _ _ hi hj => (hplaced d).index_unique hi hj,
    fun _ _ _ _ _ ha hb => hw.store.slot_unique ha hb, ?_,
    fun _ _ _ ha hb => hw.store.one_owner ha hb, fun _ n hn => ?_,
    fun _ _ hl => hw.closed.hasList hl⟩
  · exact (Store.acyclic_iff hw.store.toClosed).mpr fun n hn => hw.store.has_tree hn
  · exact ⟨hw.has hn, hw.store.treeOf (hw.has hn)⟩

/-- The array `a` is appended to itself, then to the element that this has made, and becomes what
that element is while its old list `l` is still held. -/
def nestedRun : List Step :=
  [.array [] (some [97]), .act [97] (.pushBack [97] (some [98])),
    .act [98] (.pushBack [97] (some [99])), .act [97] (.elements (some [108])),
    .act [97] (.assign [98] none), .edit [108] .reverse]

/-- The one item of `a` is in no other container, and `a` does not contain itself. -/
theorem containers_own_items_nested :
    (∀ step ∈ nestedRun, step.Copies) ∧
      (empty.after nestedRun).store.children ⟨0⟩ = [⟨5⟩] ∧
      (∀ (b : NodeId) (j : Nat), ((empty.after nestedRun).store.children b)[j]? = some ⟨5⟩ →
        b = ⟨0⟩ ∧ j = 0) ∧
      ∀ p, (empty.after nestedRun).store.walk ⟨0⟩ p = some ⟨0⟩ → p = [] := by
  have hcopies : ∀ step ∈ nestedRun, step.Copies := by
    simp [nestedRun, Step.Copies]
  have hitem : (empty.after nestedRun).store.children ⟨0⟩ = [⟨5⟩] := rfl
  obtain ⟨-, hslot, hcycle, -⟩ := containers_own_items nestedRun hcopies
  refine ⟨hcopies, hitem, fun b j hb => ?_, fun p => hcycle ⟨0⟩ p⟩
  exact hslot b ⟨0⟩ ⟨5⟩ j 0 hb (by rw [hitem]; rfl)

end JsonDocument.Session
