import JsonDocument.Proofs.Session.Steps
import JsonDocument.Proofs.Store.Objects

/-!
# Proofs — Session — objects are maps with repeated keys

An object is a list of members, of which the first with a key counts.  What is said of such lists
holds of the objects in every session, for the stores of sessions are closed whatever is shared.

* `objects_are_maps`: what storing under a key and asking for one do, alone and in sequences.
-/

namespace JsonDocument.Session

/-- **Objects are maps with repeated keys.**  In a session that any steps have led to, with nodes
that are shared or contain themselves or not, storing under a key puts a copy of the value in the
place of the first member with the key, or at the end where there is none, and leaves the other
members as they are, at their places, and what is found under other keys.  Asking for a key does
the same with null, where there is none.  With values that neither are nor contain the object, calls
one after the other do to its members what they do to lists of keys and trees; of two values under
one key the second counts; and two values under different keys may be stored in either order, before
any other calls, without a difference to what is found, nor to the members, unless both keys are
new. -/
theorem objects_are_maps (steps : List Step) :
    let s := (empty.after steps).store
    ∀ n l ms, s.membersOf n = .ok (l, ms) →
      (∀ key v u, s.treeOf v = .ok u → ∃ s' c ms', s.put n key v = .ok (s', c) ∧
        s'.membersOf n = .ok (l, ms') ∧ s'.find? n key = some c ∧ s'.treeOf c = .ok u ∧
        Members.keys ms' =
          (if key ∈ Members.keys ms then Members.keys ms else Members.keys ms ++ [key]) ∧
        (∀ i m, i ≠ Members.place key ms → ms[i]? = some m →
          ms'[i]? = some m ∧ s'.treeOf m.2 = s.treeOf m.2) ∧
        ∀ other ≠ key, s'.find? n other = s.find? n other ∧
          (s'.find? n other).map s'.treeOf = (s.find? n other).map s.treeOf) ∧
      (∀ key, ∃ s' c, s.entry n key = .ok (s', c) ∧ s'.find? n key = some c ∧
        (key ∈ Members.keys ms → s' = s) ∧
        (key ∉ Members.keys ms → s'.treeOf c = .ok .null ∧
          s'.membersOf n = .ok (l, ms ++ [(key, c)]) ∧
          ∀ m ∈ ms, s'.treeOf m.2 = s.treeOf m.2)) ∧
      (∀ ups, (∀ up ∈ ups, up.Apart s n) → ∃ s', s.updates n ups = .ok s' ∧
        s'.memberTrees n = Update.applyAll s.treeOf ups (s.memberTrees n)) ∧
      (∀ key v w, (Update.put key v).Apart s n → (Update.put key w).Apart s n →
        ∃ s₁ s₂, s.updates n [.put key v, .put key w] = .ok s₁ ∧
          s.updates n [.put key w] = .ok s₂ ∧ s₁.treeOf n = s₂.treeOf n) ∧
      ∀ key other v w later, key ≠ other → (Update.put key v).Apart s n →
        (Update.put other w).Apart s n → (∀ up ∈ later, up.Apart s n) →
        ∃ s₁ s₂, s.updates n (.put key v :: .put other w :: later) = .ok s₁ ∧
          s.updates n (.put other w :: .put key v :: later) = .ok s₂ ∧
          (∀ k, (s₁.find? n k).map s₁.treeOf = (s₂.find? n k).map s₂.treeOf) ∧
          (s₁.memberTrees n = s₂.memberTrees n ↔
            key ∈ Members.keys ms ∨ other ∈ Members.keys ms) := by
  intro s n l ms hms
  have hs : s.Closed := (closed_empty.after steps).store
  refine ⟨fun key v u hu => ?_, fun key => ?_, fun ups hups => ?_,
    fun key v w hv hw => Store.put_twice hs hms hv hw,
    fun key other v w later hkey hv hw hlater => Store.put_commute hs hms hkey hv hw hlater⟩
  · obtain ⟨s', c, hput, hcopy, hms'⟩ := Store.put_spec hs hms key hu
    have hfind : s'.find? n key = some c := by
      rw [Store.find?_of_membersOf hms', Members.lookup_put_self]
    refine ⟨s', c, _, hput, hms', hfind, hcopy.treeOf, Members.keys_put key c ms,
      fun i m hi hm => ?_, fun other hother => ⟨?_, ?_⟩⟩
    · have hm' := Members.getElem?_put_of_ne (a := c) hi hm
      exact ⟨hm', hcopy.treeOf_member hs hms hms' (List.mem_of_getElem? hm)
        (List.mem_of_getElem? hm')⟩
    · rw [Store.find?_of_membersOf hms', Store.find?_of_membersOf hms,
        Members.lookup_put_of_ne hother]
    · rw [← Store.lookup_memberTrees, ← Store.lookup_memberTrees, hcopy.memberTrees hs hms hms',
        Members.lookup_put_of_ne hother]
  · rcases Store.entry_spec hs hms key with ⟨c, hc, hentry⟩ | ⟨hnew, s', c, hentry, hcopy, hms'⟩
    · exact ⟨s, c, hentry, (Store.find?_of_membersOf hms).trans hc, fun _ => rfl,
        fun hnew => absurd (Members.mem_keys_of_lookup hc) hnew⟩
    · have hfind : s'.find? n key = some c := by
        rw [Store.find?_of_membersOf hms', Members.lookup_put_self]
      rw [Members.put_of_not_mem hnew] at hms'
      exact ⟨s', c, hentry, hfind, fun hold => absurd hold hnew, fun _ => ⟨hcopy.treeOf, hms',
        fun m hm => hcopy.treeOf_member hs hms hms' hm (List.mem_append_left _ hm)⟩⟩
  · obtain ⟨s', -, hrun, -, -, htrees⟩ := Store.exists_updates hs hms hups
    exact ⟨s', hrun, htrees⟩

/-- The object `o` has the key `k` twice, with `j` between. -/
def repeatedRun : List Step :=
  [.create .null (some [120]), .create (.bool true) (some [121]),
    .object [([107], [120]), ([106], [120]), ([107], [121])] (some [111])]

/-- One of the keys `k` and `i` is there, so they may be stored in either order. -/
theorem objects_are_maps_repeated :
    let s := (empty.after repeatedRun).store
    s.membersOf ⟨5⟩ = .ok (⟨0⟩, [([107], ⟨2⟩), ([106], ⟨3⟩), ([107], ⟨4⟩)]) ∧
      (Update.put [107] ⟨1⟩).Apart s ⟨5⟩ ∧ (Update.put [105] ⟨0⟩).Apart s ⟨5⟩ ∧
      ∃ s₁ s₂, s.updates ⟨5⟩ [.put [107] ⟨1⟩, .put [105] ⟨0⟩] = .ok s₁ ∧
        s.updates ⟨5⟩ [.put [105] ⟨0⟩, .put [107] ⟨1⟩] = .ok s₂ ∧
        s₁.memberTrees ⟨5⟩ = s₂.memberTrees ⟨5⟩ := by
  intro s
  have hms : s.membersOf ⟨5⟩ = .ok (⟨0⟩, [([107], ⟨2⟩), ([106], ⟨3⟩), ([107], ⟨4⟩)]) := rfl
  -- the values are scalars, from which no path leads on
  have hscalar : ∀ m : NodeId, m = ⟨0⟩ ∨ m = ⟨1⟩ → ¬ s.Reaches m ⟨5⟩ := by
    rintro m (rfl | rfl) ⟨p, hp⟩ <;> cases p <;> cases hp
  have hk : (Update.put [107] ⟨1⟩).Apart s ⟨5⟩ := ⟨by decide, hscalar _ (.inr rfl), _, rfl⟩
  have hi : (Update.put [105] ⟨0⟩).Apart s ⟨5⟩ := ⟨by decide, hscalar _ (.inl rfl), _, rfl⟩
  obtain ⟨-, -, -, -, hcommute⟩ := objects_are_maps repeatedRun _ _ _ hms
  obtain ⟨s₁, s₂, hrun₁, hrun₂, -, hsame⟩ := hcommute [107] [105] _ _ [] (by decide) hk hi
    (List.forall_mem_nil _)
  exact ⟨hms, hk, hi, s₁, s₂, hrun₁, hrun₂, hsame.mpr (.inl (by decide))⟩

end JsonDocument.Session
