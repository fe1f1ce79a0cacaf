import JsonDocument.Proofs.Store.Operations
import JsonDocument.Proofs.Store.Copies

/-!
# Proofs — Store — places in a tree

A path through a store is a path through the tree of the node where it starts: it ends at a node
whose tree is the one at that place (`Shows.at?_of_walk`).  So a tree that is replaced at the place
of a node is another tree, unless what is put there is what was there (`replaceAt_ne`).

A value can be stored under a key at once, or by asking for the node under the key and making that
node what the value is.  The node is made first, so a value that contains the object is then copied
with the new member in it.

* `Json.at?`: the tree at the end of a path.
* `Json.at?_replaceAt`: what is put in a place is there.
* `Sound.treeOf_entry`: the trees of nodes once a member has been asked for.
* `Sound.entry_assign`: what the second way leaves in the object.
-/

namespace JsonDocument

namespace Json

/-- The tree at the end of a path, which names an item at each step. -/
def at? : Json → List Nat → Option Json
  | v, [] => some v
  | v, i :: p => v.items[i]?.bind fun x => x.at? p

variable {v x new : Json} {i : Nat} {p : List Nat}

theorem items_replaceAt :
    (v.replaceAt (i :: p) new).items = v.items.modify i fun x => x.replaceAt p new := by
  cases v with
  | null | bool | number | string => exact (List.modify_nil ..).symm
  | array xs => rw [replaceAt, items, items]
  | object ms =>
      rw [replaceAt, items, items]
      exact Members.map_modify (by intro m; rfl) ms i

/-- What is put in a place is there. -/
theorem at?_replaceAt (h : v.at? p = some x) : (v.replaceAt p new).at? p = some new := by
  induction p generalizing v with
  | nil => rw [replaceAt, at?]
  | cons i p ih =>
      rw [at?, Option.bind_eq_some_iff] at h
      obtain ⟨y, hy, h⟩ := h
      rw [at?, items_replaceAt, List.getElem?_modify_eq, hy]
      exact ih h

/-- A tree in which something else is put in a place is another tree. -/
theorem replaceAt_ne (h : v.at? p = some x) (hx : new ≠ x) : v.replaceAt p new ≠ v := by
  intro heq
  have hnew : (v.replaceAt p new).at? p = some new := at?_replaceAt h
  rw [heq, h] at hnew
  exact hx (Option.some.inj hnew).symm

end Json

namespace Store

variable {s s' : Store} {n m v c : NodeId} {t u : Json} {p : List Nat} {key : Text}
  {us : List (Text × Json)}

/-- At the end of a path there is the tree of the node at its end. -/
theorem Shows.at?_of_walk (ht : s.Shows m t) (hp : s.walk m p = some n) (hu : s.Shows n u) :
    t.at? p = some u := by
  induction p generalizing m t with
  | nil =>
      cases hp
      rw [ht.unique hu, Json.at?]
  | cons i p ih =>
      obtain ⟨c, hc, hp⟩ := walk_cons.mp hp
      obtain ⟨x, hx, hshows⟩ := forall₂_getElem? ht.forall₂_items hc
      rw [Json.at?, hx]
      exact ih hshows hp

/-! ### Storing under a key in two steps -/

theorem SameAt.membersOf (h : SameAt s s' n) : s'.membersOf n = s.membersOf n := by
  unfold Store.membersOf
  rw [h.1]
  cases hc : s.content n with
  | scalar v => rfl
  | list l => simp only [h.2 l hc]

theorem mem_children_of_find? (h : s.find? n key = some c) : c ∈ s.children n := by
  obtain ⟨l, ms, hl, hi, hc⟩ := find?_eq_some_iff.mp h
  exact List.mem_of_getElem? (getElem?_children hl hi (Members.getElem?_place hc))

/-- The tree of a node once a member has been asked for.  A node that contains the object contains
it with the member, where that is new; the others stay as they are. -/
theorem Sound.treeOf_entry (hs : s.Sound) (ho : s.treeOf n = .ok (.object us))
    (h : s.entry n key = .ok (s', c)) (hv : s.Has v) (hu : s.treeOf v = .ok u) :
    (key ∈ Members.keys us ∨ ¬ s.Reaches v n → s'.treeOf v = .ok u) ∧
      (key ∉ Members.keys us → ∀ p, s.walk v p = some n →
        s'.treeOf v = .ok (u.replaceAt p (.object (us ++ [(key, .null)])))) := by
  obtain ⟨us', hus', hch, hsame, -⟩ := hs.entry h
  obtain rfl := Json.object.inj (Except.ok.inj (hus'.symm.trans ho))
  refine ⟨?_, fun hnew p hp => ?_⟩
  · rintro (hold | hout)
    · rw [hsame hold, hu]
    · rw [hch.outside v hv hout, hu]
  · rw [if_neg hnew] at hch
    exact hch.inside v p u hv hp hu

/-- A member is asked for and its node made what `v` is: it is then the node under the key, with the
tree that `v` has when the node is there. -/
theorem Sound.entry_assign (hs : s.Sound) (hn : s.Has n) (ho : s.treeOf n = .ok (.object us))
    (hv : s.Has v) (key : Text) : ∃ s₁ c u s₂, s.entry n key = .ok (s₁, c) ∧ s₁.treeOf v = .ok u ∧
      s₁.assign c v = .ok s₂ ∧ s₂.find? n key = some c ∧ s₂.treeOf c = .ok u ∧
      s₂.treeOf n = .ok (.object (Members.put key u us)) := by
  have hkind : s.kindOf n = .object := ((treeOf_eq_ok_iff hs.toClosed hn).mp ho).kindOf
  have hexists : ∃ r, s.entry n key = .ok r := exists_entry_iff.mpr hkind
  obtain ⟨⟨s₁, c⟩, hentry⟩ := hexists
  obtain ⟨us', hus', hch, -, hf⟩ := hs.entry hentry
  obtain rfl := Json.object.inj (Except.ok.inj (hus'.symm.trans ho))
  have hs₁ := hch.sound
  have hc : s₁.Has c := hs₁.toClosed.has_of_find? hf
  obtain ⟨u, hu⟩ := hs₁.treeOf (hch.has hv)
  obtain ⟨s₂, hassign⟩ := exists_assign hu (n := c)
  obtain ⟨u', hu', hch'⟩ := hs₁.assign hc hassign
  obtain rfl := Except.ok.inj (hu.symm.trans hu')
  refine ⟨s₁, c, u, s₂, hentry, hu, hassign, ?_, hch'.self, ?_⟩
  · -- the object is not the node in it, so its members stay
    obtain ⟨t, ht⟩ := hs₁.has_tree (hch.has hn)
    have hne : n ≠ c := by
      rintro rfl
      exact ht.not_reaches (mem_children_of_find? hf) (reaches_self s₁ n)
    obtain ⟨htouches, -⟩ := copying_assign hs₁.toClosed hc hassign
    rw [find?, (htouches.same (hch.has hn) hne).membersOf]
    exact hf
  · rw [hch'.member hs₁.toClosed hch.self hf, Members.put_entry]

end Store

end JsonDocument
