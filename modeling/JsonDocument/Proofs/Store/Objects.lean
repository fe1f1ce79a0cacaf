import JsonDocument.Proofs.Store.Copies

/-!
# Proofs — Store — objects by their keys

A call that stores under a key, or asks for one, changes the members of an object as the same call
changes a list of keys and trees (`exists_update`).  This holds in every closed store: the tree of a
member that stays does not depend on the other members, even where it contains the object, for then
it has none before and none after (`Touches.treeOf_item`).  A value that neither is nor contains the
object keeps its tree through such calls, so many of them are understood by what they do to the list
alone (`exists_updates`).

* `Store.memberTrees`: the keys of an object, each with the tree of its node.
* `Update`, `Update.apply`: a call, and what it does to such a list.
* `put_spec`, `entry_spec`, `StoresCopy.memberTrees`: what one call does.
* `exists_updates`: what calls do one after the other.
* `put_twice`, `put_commute`: two values under one key, and under two.
-/

namespace JsonDocument

/-- A call that changes an object under a key. -/
inductive Update where
  | put (key : Text) (value : NodeId)
  | entry (key : Text)

namespace Update

/-- What a call makes of the members of an object, where `trees` says what a value stands for. -/
def apply (trees : NodeId → Except Fault Json) :
    Update → List (Text × Except Fault Json) → List (Text × Except Fault Json)
  | put key value, ms => Members.put key (trees value) ms
  | entry key, ms => if key ∈ Members.keys ms then ms else Members.put key (.ok .null) ms

/-- What calls make of them, one after the other. -/
def applyAll (trees : NodeId → Except Fault Json) :
    List Update → List (Text × Except Fault Json) → List (Text × Except Fault Json)
  | [], ms => ms
  | up :: ups, ms => applyAll trees ups (up.apply trees ms)

/-- The value has a tree, and neither is nor contains the node. -/
def Apart (s : Store) (n : NodeId) : Update → Prop
  | put _ value => s.Has value ∧ ¬ s.Reaches value n ∧ ∃ t, s.treeOf value = .ok t
  | entry _ => True

/-! ### Calls on lists of members -/

variable {trees trees' : NodeId → Except Fault Json} {ms ms' : List (Text × Except Fault Json)}

theorem applyAll_congr {ups : List Update}
    (h : ∀ up ∈ ups, ∀ ms, up.apply trees ms = up.apply trees' ms) :
    applyAll trees ups ms = applyAll trees' ups ms := by
  induction ups generalizing ms with
  | nil => rfl
  | cons up ups ih =>
      obtain ⟨hup, hups⟩ := List.forall_mem_cons.mp h
      rw [applyAll, applyAll, hup, ih hups]

/-- What is found after a call depends on what was found before it. -/
theorem lookup_apply_congr (h : ∀ k, ms.lookup k = ms'.lookup k) (up : Update) (k : Text) :
    (up.apply trees ms).lookup k = (up.apply trees ms').lookup k := by
  cases up with
  | put key v => exact Members.lookup_put_congr h k
  | entry key =>
      have hkeys : key ∈ Members.keys ms ↔ key ∈ Members.keys ms' := by
        rw [← not_iff_not, ← Members.lookup_eq_none_iff, ← Members.lookup_eq_none_iff, h]
      rw [apply, apply]
      by_cases hm : key ∈ Members.keys ms
      · rw [if_pos hm, if_pos (hkeys.mp hm), h]
      · rw [if_neg hm, if_neg (mt hkeys.mpr hm)]
        exact Members.lookup_put_congr h k

theorem lookup_applyAll_congr (h : ∀ k, ms.lookup k = ms'.lookup k) (ups : List Update)
    (k : Text) : (applyAll trees ups ms).lookup k = (applyAll trees ups ms').lookup k := by
  induction ups generalizing ms ms' with
  | nil => exact h k
  | cons up ups ih => exact ih (lookup_apply_congr h up)

/-- Keys stay where they are. -/
theorem keys_prefix_apply (up : Update) (ms : List (Text × Except Fault Json)) :
    Members.keys ms <+: Members.keys (up.apply trees ms) := by
  cases up with
  | put key v => exact Members.keys_prefix_put
  | entry key =>
      rw [apply]
      split
      · exact List.prefix_rfl
      · exact Members.keys_prefix_put

theorem keys_prefix_applyAll (ups : List Update) (ms : List (Text × Except Fault Json)) :
    Members.keys ms <+: Members.keys (applyAll trees ups ms) := by
  induction ups generalizing ms with
  | nil => exact List.prefix_rfl
  | cons up ups ih => exact (keys_prefix_apply up ms).trans (ih (up.apply trees ms))

/-- Two calls that store under different keys come to the same list in either order, unless both add
a member; for then the order shows in the keys, whatever comes after. -/
theorem applyAll_put_comm_iff {key other : Text} {a b : Except Fault Json} (h : key ≠ other)
    (later : List Update) :
    applyAll trees later (Members.put other b (Members.put key a ms)) =
        applyAll trees later (Members.put key a (Members.put other b ms)) ↔
      key ∈ Members.keys ms ∨ other ∈ Members.keys ms := by
  constructor
  · intro heq
    by_contra hnew
    obtain ⟨hk, ho⟩ := not_or.mp hnew
    have hfirst : Members.keys ms ++ [key, other] <+:
        Members.keys (applyAll trees later (Members.put other b (Members.put key a ms))) :=
      Members.keys_put_put h hk ho ▸ keys_prefix_applyAll later _
    have hsecond : Members.keys ms ++ [other, key] <+:
        Members.keys (applyAll trees later (Members.put key a (Members.put other b ms))) :=
      Members.keys_put_put h.symm ho hk ▸ keys_prefix_applyAll later _
    rw [← heq] at hsecond
    have hprefix := List.prefix_of_prefix_length_le hfirst hsecond (by simp)
    have hsame := hprefix.eq_of_length (by simp)
    exact h (List.cons.inj (List.append_cancel_left hsame)).1
  · intro hm
    rw [Members.put_comm h hm]

end Update

namespace Store

variable {s s' : Store} {n n' v w c : NodeId} {l l' : ListId} {key other : Text} {t u : Json}
  {ms ms' : List (Text × NodeId)}

/-! ### The members of an object -/

/-- The members of an object, each with the tree of its node; what is no object has none. -/
def memberTrees (s : Store) (n : NodeId) : List (Text × Except Fault Json) :=
  match s.membersOf n with
  | .ok (_, ms) => ms.map (Prod.map id s.treeOf)
  | .error _ => []

theorem memberTrees_eq (hms : s.membersOf n = .ok (l, ms)) :
    s.memberTrees n = ms.map (Prod.map id s.treeOf) := by
  rw [memberTrees, hms]

theorem keys_memberTrees (hms : s.membersOf n = .ok (l, ms)) :
    Members.keys (s.memberTrees n) = Members.keys ms := by
  rw [memberTrees_eq hms, Members.keys_map]

theorem lookup_memberTrees : (s.memberTrees n).lookup key = (s.find? n key).map s.treeOf := by
  unfold memberTrees find?
  cases s.membersOf n with
  | error e => rfl
  | ok r => exact Members.lookup_map s.treeOf r.2

theorem find?_of_membersOf (hms : s.membersOf n = .ok (l, ms)) :
    s.find? n key = ms.lookup key := by
  rw [find?, hms]

theorem mem_children (hms : s.membersOf n = .ok (l, ms)) {m : Text × NodeId} (hm : m ∈ ms) :
    m.2 ∈ s.children n := by
  obtain ⟨hl, hi⟩ := membersOf_eq_ok_iff.mp hms
  rw [children_of_list hl, hi]
  exact List.mem_map_of_mem hm

/-- The trees of the members make up the tree of the object. -/
theorem treeOf_object_iff (hs : s.Closed) (hms : s.membersOf n = .ok (l, ms)) :
    s.treeOf n = .ok t ↔
      ∃ us, t = .object us ∧ s.memberTrees n = us.map (Prod.map id .ok) := by
  obtain ⟨hl, hi⟩ := membersOf_eq_ok_iff.mp hms
  have hmember : ∀ m ∈ ms, ∀ u : Text × Json,
      (m.1 = u.1 ∧ s.Shows m.2 u.2) ↔ Prod.map id s.treeOf m = Prod.map id .ok u := by
    intro m hm u
    rw [← treeOf_eq_ok_iff hs (hs.has_child (mem_children hms hm)), Prod.ext_iff]
    exact Iff.rfl
  rw [treeOf_eq_ok_iff hs (has_of_content hl), shows_iff, hl, Depicts, hi, memberTrees_eq hms]
  constructor
  · rintro (_ | h)
    refine ⟨_, rfl, ?_⟩
    rw [← List.forall₂_eq_eq_eq, List.forall₂_map_left_iff, List.forall₂_map_right_iff]
    exact forall₂_imp_mem h fun m hm u => (hmember m hm u).mp
  · rintro ⟨us, rfl, h⟩
    rw [← List.forall₂_eq_eq_eq, List.forall₂_map_left_iff, List.forall₂_map_right_iff] at h
    exact .members (forall₂_imp_mem h fun m hm u => (hmember m hm u).mpr)

/-- Objects with the same members have the same tree, or none. -/
theorem treeOf_of_memberTrees (hs : s.Closed) (hs' : s'.Closed)
    (hms : s.membersOf n = .ok (l, ms)) (hms' : s'.membersOf n' = .ok (l', ms'))
    (h : s'.memberTrees n' = s.memberTrees n) : s'.treeOf n' = s.treeOf n := by
  refine treeOf_congr fun t => ?_
  rw [treeOf_object_iff hs' hms', treeOf_object_iff hs hms, h]

/-! ### One update -/

theorem membersOf_grow (hs : s.Closed) (hms : s.membersOf n = .ok (l, ms)) (u : Json)
    (ms' : List (Text × NodeId)) :
    ((s.grow u).1.setItems l (.members ms')).membersOf n = .ok (l, ms') := by
  obtain ⟨hl, -⟩ := membersOf_eq_ok_iff.mp hms
  obtain ⟨hg, -⟩ := grow_spec hs u
  exact membersOf_eq_ok_iff.mpr ⟨(hg.content (has_of_content hl)).trans hl,
    items_setItems_self (hg.hasList (hs.list_exists hl))⟩

/-- Storing under a key puts a new node with the tree of the value there. -/
theorem put_spec (hs : s.Closed) (hms : s.membersOf n = .ok (l, ms)) (key : Text)
    (hu : s.treeOf v = .ok u) :
    ∃ s' c, s.put n key v = .ok (s', c) ∧ StoresCopy s s' (some n) c u ∧
      s'.membersOf n = .ok (l, Members.put key c ms) :=
  ⟨_, _, bind_eq_ok.mpr ⟨_, hms, bind_eq_ok.mpr ⟨u, hu, rfl⟩⟩, storesCopy_member hs hms key u,
    membersOf_grow hs hms u _⟩

/-- The node under a key is found, or a new one with null is put there. -/
theorem entry_spec (hs : s.Closed) (hms : s.membersOf n = .ok (l, ms)) (key : Text) :
    (∃ c, ms.lookup key = some c ∧ s.entry n key = .ok (s, c)) ∨
      (key ∉ Members.keys ms ∧ ∃ s' c, s.entry n key = .ok (s', c) ∧
        StoresCopy s s' (some n) c .null ∧ s'.membersOf n = .ok (l, Members.put key c ms)) := by
  cases hf : ms.lookup key with
  | some c => exact .inl ⟨c, rfl, bind_eq_ok.mpr ⟨_, hms, by simp only [hf]; rfl⟩⟩
  | none =>
      have hnew := Members.lookup_eq_none_iff.mp hf
      refine .inr ⟨hnew, _, _, bind_eq_ok.mpr ⟨_, hms, ?_⟩, storesCopy_member hs hms key .null,
        membersOf_grow hs hms .null _⟩
      simp only [hf, Members.put_of_not_mem hnew]
      rfl

/-- A new node under a key leaves the trees of the other members as they are. -/
theorem StoresCopy.treeOf_member (h : StoresCopy s s' (some n) c u) (hs : s.Closed)
    (hms : s.membersOf n = .ok (l, ms)) (hms' : s'.membersOf n = .ok (l, ms'))
    {m : Text × NodeId} (hm : m ∈ ms) (hm' : m ∈ ms') : s'.treeOf m.2 = s.treeOf m.2 :=
  h.touches_container.treeOf_item hs (mem_children hms hm) (mem_children hms' hm')

theorem StoresCopy.memberTrees (h : StoresCopy s s' (some n) c u) (hs : s.Closed)
    (hms : s.membersOf n = .ok (l, ms)) (hms' : s'.membersOf n = .ok (l, Members.put key c ms)) :
    s'.memberTrees n = Members.put key (.ok u) (s.memberTrees n) := by
  rw [memberTrees_eq hms, memberTrees_eq hms', ← h.treeOf]
  exact Members.map_put_congr fun m hm hm' => h.treeOf_member hs hms hms' hm hm'

/-- What a call does to an object. -/
def update (s : Store) (n : NodeId) : Update → Except Fault Store
  | .put key value => (s.put n key value).map Prod.fst
  | .entry key => (s.entry n key).map Prod.fst

/-- What calls do to an object, one after the other. -/
def updates (s : Store) (n : NodeId) : List Update → Except Fault Store
  | [] => .ok s
  | up :: ups => s.update n up >>= fun s => s.updates n ups

variable {up : Update} {ups : List Update}

/-- A call changes the members of an object, and nothing but them. -/
theorem exists_update (hs : s.Closed) (hms : s.membersOf n = .ok (l, ms)) (h : up.Apart s n) :
    ∃ s' ms', s.update n up = .ok s' ∧ Touches s s' (· = n) ∧ s'.membersOf n = .ok (l, ms') ∧
      s'.memberTrees n = up.apply s.treeOf (s.memberTrees n) := by
  cases up with
  | put key v =>
      obtain ⟨-, -, u, hu⟩ := h
      obtain ⟨s', c, hput, hcopy, hms'⟩ := put_spec hs hms key hu
      refine ⟨s', _, map_eq_ok.mpr ⟨_, hput, rfl⟩, hcopy.touches_container, hms', ?_⟩
      rw [hcopy.memberTrees hs hms hms', Update.apply, hu]
  | entry key =>
      rw [Update.apply, keys_memberTrees hms]
      rcases entry_spec hs hms key with ⟨c, hc, hentry⟩ | ⟨hnew, s', c, hentry, hcopy, hms'⟩
      · refine ⟨s, ms, map_eq_ok.mpr ⟨_, hentry, rfl⟩, .refl hs, hms, ?_⟩
        rw [if_pos (Members.mem_keys_of_lookup hc)]
      · refine ⟨s', _, map_eq_ok.mpr ⟨_, hentry, rfl⟩, hcopy.touches_container, hms', ?_⟩
        rw [if_neg hnew, hcopy.memberTrees hs hms hms']

/-- A value apart from the object stays so, with its tree. -/
theorem Touches.apart (h : Touches s s' (· = n)) (hs : s.Closed) (hup : up.Apart s n) :
    up.Apart s' n ∧ ∀ ms, up.apply s'.treeOf ms = up.apply s.treeOf ms := by
  cases up with
  | entry key => exact ⟨trivial, fun _ => rfl⟩
  | put key v =>
      obtain ⟨hv, hr, hu⟩ := hup
      have htree := h.treeOf_of_not_reaches hs hv hr
      exact ⟨⟨h.has hv, mt (h.reaches_iff hs hv).mp hr, htree ▸ hu⟩, fun ms => by
        rw [Update.apply, Update.apply, htree]⟩

/-- Calls one after the other change the members in that order. -/
theorem exists_updates (hs : s.Closed) (hms : s.membersOf n = .ok (l, ms))
    (h : ∀ up ∈ ups, up.Apart s n) :
    ∃ s' ms', s.updates n ups = .ok s' ∧ s'.Closed ∧ s'.membersOf n = .ok (l, ms') ∧
      s'.memberTrees n = Update.applyAll s.treeOf ups (s.memberTrees n) := by
  induction ups generalizing s ms with
  | nil => exact ⟨s, ms, rfl, hs, hms, rfl⟩
  | cons up ups ih =>
      obtain ⟨hup, hups⟩ := List.forall_mem_cons.mp h
      obtain ⟨s₁, ms₁, hrun, htouches, hms₁, htrees⟩ := exists_update hs hms hup
      obtain ⟨s', ms', hruns, hs', hms', htrees'⟩ := ih htouches.closed hms₁
        fun up hup => (htouches.apart hs (hups up hup)).1
      refine ⟨s', ms', bind_eq_ok.mpr ⟨s₁, hrun, hruns⟩, hs', hms', ?_⟩
      rw [htrees', Update.applyAll, ← htrees]
      exact Update.applyAll_congr fun up hup => (htouches.apart hs (hups up hup)).2

/-! ### Two updates -/

/-- Of two values that are stored under one key the second counts. -/
theorem put_twice (hs : s.Closed) (hms : s.membersOf n = .ok (l, ms))
    (hv : (Update.put key v).Apart s n) (hw : (Update.put key w).Apart s n) :
    ∃ s₁ s₂, s.updates n [.put key v, .put key w] = .ok s₁ ∧ s.updates n [.put key w] = .ok s₂ ∧
      s₁.treeOf n = s₂.treeOf n := by
  obtain ⟨s₁, ms₁, hrun₁, hs₁, hms₁, htrees₁⟩ := exists_updates hs hms
    (List.forall_mem_cons.mpr ⟨hv, List.forall_mem_singleton.mpr hw⟩)
  obtain ⟨s₂, ms₂, hrun₂, hs₂, hms₂, htrees₂⟩ := exists_updates hs hms
    (List.forall_mem_singleton.mpr hw)
  refine ⟨s₁, s₂, hrun₁, hrun₂, treeOf_of_memberTrees hs₂ hs₁ hms₂ hms₁ ?_⟩
  rw [htrees₁, htrees₂]
  exact Members.put_put

/-- Two values that are stored under different keys, in either order and before any other calls. -/
theorem put_commute {later : List Update} (hs : s.Closed) (hms : s.membersOf n = .ok (l, ms))
    (hkey : key ≠ other) (hv : (Update.put key v).Apart s n) (hw : (Update.put other w).Apart s n)
    (hlater : ∀ up ∈ later, up.Apart s n) :
    ∃ s₁ s₂, s.updates n (.put key v :: .put other w :: later) = .ok s₁ ∧
      s.updates n (.put other w :: .put key v :: later) = .ok s₂ ∧
      (∀ k, (s₁.find? n k).map s₁.treeOf = (s₂.find? n k).map s₂.treeOf) ∧
      (s₁.memberTrees n = s₂.memberTrees n ↔ key ∈ Members.keys ms ∨ other ∈ Members.keys ms) := by
  obtain ⟨s₁, -, hrun₁, -, -, htrees₁⟩ := exists_updates hs hms
    (List.forall_mem_cons.mpr ⟨hv, List.forall_mem_cons.mpr ⟨hw, hlater⟩⟩)
  obtain ⟨s₂, -, hrun₂, -, -, htrees₂⟩ := exists_updates hs hms
    (List.forall_mem_cons.mpr ⟨hw, List.forall_mem_cons.mpr ⟨hv, hlater⟩⟩)
  refine ⟨s₁, s₂, hrun₁, hrun₂, fun k => ?_, ?_⟩
  · rw [← lookup_memberTrees, ← lookup_memberTrees, htrees₁, htrees₂]
    exact Update.lookup_applyAll_congr (Members.lookup_put_comm hkey) later k
  · rw [htrees₁, htrees₂, ← keys_memberTrees hms]
    exact Update.applyAll_put_comm_iff hkey later

end Store

end JsonDocument
