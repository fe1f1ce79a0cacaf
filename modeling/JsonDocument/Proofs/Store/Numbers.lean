import JsonDocument.Proofs.Building
import JsonDocument.Proofs.Store.Copies

/-!
# Proofs — Store — the numbers of a store

A number gets into a store with the tree that a new node is made for, and from then on it is copied
with the trees of nodes.  So a store in which every number is one of the grammar stays so, as long
as the trees that come from outside are of that kind.

* `Store.NumbersValid`: every number in the store is one of the grammar.
* `NumbersValid.treeOf`: the trees of nodes have valid numbers then.
* `NumbersValid.grow`: a new node for a tree with valid numbers.
* `NumbersValid.setItems`, `NumbersValid.assign`: other items in a list, the content of a copy.
-/

namespace JsonDocument

/-- What is no number, or a number of the grammar. -/
def Content.NumberValid (k : Content) : Prop := ∀ t, k = .scalar (.number t) → IsLiteral t

namespace Store

/-- Every number in the store is one of the grammar. -/
def NumbersValid (s : Store) : Prop := ∀ n, (s.content n).NumberValid

variable {s s' : Store} {n value : NodeId} {l : ListId} {i : Items} {k : Content} {v : Json}

theorem numbersValid_empty : empty.NumbersValid := fun _ _ h => nomatch h

/-! ### Cells -/

theorem numberValid_of_not_has (h : ¬ s.Has n) : (s.content n).NumberValid := by
  rw [content_of_not_has h]
  exact fun _ h => nomatch h

theorem NumbersValid.addNode (hs : s.NumbersValid) (hk : k.NumberValid) :
    (s.addNode k).1.NumbersValid := by
  intro n
  by_cases hn : (s.addNode k).1.Has n
  · rcases has_addNode.mp hn with hn | rfl
    · rw [content_addNode hn]
      exact hs n
    · rw [content_addNode_self]
      exact hk
  · exact numberValid_of_not_has hn

theorem NumbersValid.setContent (hs : s.NumbersValid) (hk : k.NumberValid) :
    (s.setContent n k).NumbersValid := by
  intro m
  by_cases hm : m = n
  · subst hm
    by_cases hn : s.Has m
    · rw [content_setContent_self hn]
      exact hk
    · exact numberValid_of_not_has (mt has_setContent.mp hn)
  · rw [content_setContent hm]
    exact hs m

/-- Lists hold no numbers. -/
theorem NumbersValid.addList (hs : s.NumbersValid) : (s.addList i).1.NumbersValid := hs

theorem NumbersValid.setItems (hs : s.NumbersValid) : (s.setItems l i).NumbersValid := hs

/-! ### Trees -/

theorem NumbersValid.shows (hs : s.NumbersValid) (h : s.Shows n v) : v.NumbersValid := by
  -- from the items to the container
  refine h.induction (P := fun _ t => t.NumbersValid) fun n t ht ih => ?_
  rw [shows_iff] at ht
  cases hk : s.content n with
  | scalar x =>
      rw [hk] at ht
      cases ht
      cases x with
      | number t => exact hs n t hk
      | null | bool _ | string _ => trivial
  | list l =>
      rw [hk] at ht
      rw [children_of_list hk] at ih
      cases hi : s.items l with
      | elements ns =>
          rw [hi] at ih
          rw [Depicts, hi] at ht
          cases ht with
          | elements h =>
              refine Json.numbersValid_array.mpr fun x hx => ?_
              obtain ⟨c, hc, hshow⟩ := exists_of_forall₂ h.flip hx
              exact ih c hc x hshow
      | members ms =>
          rw [hi] at ih
          rw [Depicts, hi] at ht
          cases ht with
          | members h =>
              refine Json.numbersValid_object.mpr fun u hu => ?_
              obtain ⟨m, hm, -, hshow⟩ := exists_of_forall₂ h.flip hu
              exact ih m.2 (List.mem_map_of_mem hm) u.2 hshow

theorem NumbersValid.treeOf (hs : s.NumbersValid) (h : s.treeOf n = .ok v) : v.NumbersValid :=
  hs.shows (shows_of_treeOf h)

/-! ### New nodes for trees -/

mutual

theorem NumbersValid.growContent {s : Store} (hs : s.NumbersValid) : (v : Json) → v.NumbersValid →
    (s.growContent v).1.NumbersValid ∧ (s.growContent v).2.NumberValid
  | .number _, hv => ⟨hs, fun _ h => by cases h; exact hv⟩
  | .null, _ | .bool _, _ | .string _, _ => ⟨hs, fun _ h => nomatch h⟩
  | .array xs, hv => ⟨(hs.growElements xs hv).addList, fun _ h => nomatch h⟩
  | .object ms, hv => ⟨(hs.growMembers ms hv).addList, fun _ h => nomatch h⟩

theorem NumbersValid.growElements {s : Store} (hs : s.NumbersValid) : (xs : List Json) →
    (Json.array xs).NumbersValid → (s.growElements xs).1.NumbersValid
  | [], _ => hs
  | x :: xs, hv =>
      let ⟨hg, hk⟩ := hs.growContent x hv.1
      (hg.addNode hk).growElements xs hv.2

theorem NumbersValid.growMembers {s : Store} (hs : s.NumbersValid) :
    (ms : List (Text × Json)) → (Json.object ms).NumbersValid → (s.growMembers ms).1.NumbersValid
  | [], _ => hs
  | (_, x) :: ms, hv =>
      let ⟨hg, hk⟩ := hs.growContent x hv.2.1
      (hg.addNode hk).growMembers ms hv.2.2

end

/-- A new node for a tree with valid numbers. -/
theorem NumbersValid.grow (hs : s.NumbersValid) (hv : v.NumbersValid) :
    (s.grow v).1.NumbersValid :=
  let ⟨hg, hk⟩ := hs.growContent v hv
  hg.addNode hk

/-- A node gets the content of a copy. -/
theorem NumbersValid.assign (hs : s.NumbersValid) (h : s.assign n value = .ok s') :
    s'.NumbersValid := by
  obtain ⟨v, hv, h⟩ := bind_eq_ok.mp h
  cases h
  obtain ⟨hg, hk⟩ := hs.growContent v (hs.treeOf hv)
  exact hg.setContent hk

end Store

end JsonDocument
