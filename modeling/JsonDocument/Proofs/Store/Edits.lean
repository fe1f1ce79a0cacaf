import Mathlib.Data.List.Perm.Subperm
import JsonDocument.Store.Items
import JsonDocument.Proofs.Members

/-!
# Proofs — Store — editing a live list

Taking items out, putting them in another order and giving members other keys bring no node into a
list that was not there.  Appending and replacing bring one.

* `Items.nodes_rename`, `Items.subperm_remove`, `Items.subperm_reverse`, `Items.subperm_clear`: the
  nodes after an edit are among those before.
* `Items.nodes_push`, `Items.mem_replace`: the nodes after one that brings a node.
-/

namespace JsonDocument.Items

variable {i : Items} {index : Nat} {c : NodeId}

theorem mem_of_node? {j : Int} (h : i.node? j = some c) : c ∈ i.nodes := by
  obtain ⟨k, -, hk⟩ := Option.bind_eq_some_iff.mp h
  exact List.mem_of_getElem? hk

theorem nodes_push {key : Option Text} {n : NodeId} {i' : Items} (h : i.push key n = .ok i') :
    i'.nodes = i.nodes ++ [n] := by
  cases i <;> cases key <;> cases h
  · rfl
  · exact List.map_append ..

theorem mem_replace {key : Option Text} {n : NodeId} {i' : Items}
    (h : i.replace index key n = .ok i') (hc : c ∈ i'.nodes) : c ∈ i.nodes ∨ c = n := by
  cases i <;> cases key <;> cases h
  · exact List.mem_or_eq_of_mem_set hc
  · rw [nodes, List.map_set] at hc
    exact List.mem_or_eq_of_mem_set hc

theorem nodes_remove : (i.remove index).nodes = i.nodes.eraseIdx index := by
  cases i with
  | elements ns => rfl
  | members ms => exact (List.eraseIdx_map ..).symm

theorem nodes_reverse : i.reverse.nodes = i.nodes.reverse := by
  cases i with
  | elements ns => rfl
  | members ms => exact List.map_reverse ..

theorem nodes_clear : i.clear.nodes = [] := by
  cases i <;> rfl

/-- Another key leaves the nodes as they are. -/
theorem nodes_rename {i' : Items} {key : Text} (h : i.rename index key = .ok i') :
    i'.nodes = i.nodes := by
  cases i with
  | elements ns => cases h
  | members ms =>
      cases h
      refine (Members.map_modify (h := id) ?_ ms index).trans (List.modify_id ..)
      exact fun _ => rfl

theorem subperm_remove : (i.remove index).nodes.Subperm i.nodes := by
  rw [nodes_remove]
  exact (List.eraseIdx_sublist ..).subperm

theorem subperm_reverse : i.reverse.nodes.Subperm i.nodes := by
  rw [nodes_reverse]
  exact (List.reverse_perm _).subperm

theorem subperm_clear : i.clear.nodes.Subperm i.nodes := by
  rw [nodes_clear]
  exact List.nil_subperm

end JsonDocument.Items
