import Mathlib.Data.List.Forall2
import Mathlib.Data.List.Perm.Subperm
import JsonDocument.Members

/-!
# Proofs — Members — the place of a key

The first occurrence of a key has a place in the list of members, and `Members.put` changes the
member at that place.

* `place`: where the first occurrence of a key is.
* `getElem?_place`, `modify_place`: lookup and replacement as what happens at that place.
* `put_put`, `put_comm`: of two replacements under one key the second counts, and two under
  different keys commute.
-/

namespace JsonDocument.Members

variable {α β : Type} {key : Text} {a b : α} {ms : List (Text × α)}

/-- The place of the first member with a key; the length where no member has it. -/
def place (key : Text) (ms : List (Text × α)) : Nat := (keys ms).idxOf key

theorem place_cons {k : Text} :
    place key ((k, a) :: ms) = if k = key then 0 else place key ms + 1 := by
  simp only [place, keys, List.map_cons, List.idxOf_cons, beq_iff_eq, Bool.cond_eq_ite]

theorem lookup_eq_none_iff : ms.lookup key = none ↔ key ∉ keys ms := by
  induction ms with
  | nil => simp [keys]
  | cons m ms ih =>
      obtain ⟨k, a⟩ := m
      rw [lookup_cons, keys, List.map_cons, List.mem_cons, not_or]
      by_cases h : k = key
      · simp [h]
      · rw [if_neg h, ih]
        exact ⟨fun hm => ⟨Ne.symm h, hm⟩, And.right⟩

theorem mem_keys_of_lookup (h : ms.lookup key = some a) : key ∈ keys ms := by
  refine Decidable.byContradiction fun hm => ?_
  rw [lookup_eq_none_iff.mpr hm] at h
  cases h

/-! ### Lookup and replacement at the place -/

theorem getElem?_place (h : ms.lookup key = some a) : ms[place key ms]? = some (key, a) := by
  induction ms with
  | nil => cases h
  | cons m ms ih =>
      obtain ⟨k, b⟩ := m
      rw [lookup_cons] at h
      rw [place_cons]
      by_cases hk : k = key
      · rw [if_pos hk] at h ⊢
        cases h
        rw [List.getElem?_cons_zero, hk]
      · rw [if_neg hk] at h ⊢
        exact ih h

theorem modify_place (h : key ∈ keys ms) :
    ms.modify (place key ms) (fun m => (m.1, a)) = put key a ms := by
  induction ms with
  | nil => exact absurd h List.not_mem_nil
  | cons m ms ih =>
      obtain ⟨k, b⟩ := m
      rw [place_cons, put]
      by_cases hk : k = key
      · rw [if_pos hk, if_pos hk, List.modify_zero_cons, hk]
      · rw [if_neg hk, if_neg hk, List.modify_succ_cons]
        rw [keys, List.map_cons, List.mem_cons] at h
        exact congrArg _ (ih (h.resolve_left (Ne.symm hk)))

theorem put_of_not_mem (h : key ∉ keys ms) : put key a ms = ms ++ [(key, a)] := by
  induction ms with
  | nil => rfl
  | cons m ms ih =>
      obtain ⟨k, b⟩ := m
      rw [keys, List.map_cons, List.mem_cons, not_or] at h
      rw [put, if_neg (Ne.symm h.1), ih h.2, List.cons_append]

/-- Apart from the place of the key all members stay. -/
theorem getElem?_put_of_ne {m : Text × α} {i : Nat} (hi : i ≠ place key ms) (hm : ms[i]? = some m) :
    (put key a ms)[i]? = some m := by
  by_cases h : key ∈ keys ms
  · rw [← modify_place h, List.getElem?_modify_ne _ _ hi.symm, hm]
  · obtain ⟨hlt, -⟩ := List.getElem?_eq_some_iff.mp hm
    rw [put_of_not_mem h, List.getElem?_append_left hlt, hm]

/-- Replacement looks at the first members alone. -/
theorem lookup_put_congr {ms' : List (Text × α)} (h : ∀ k, ms.lookup k = ms'.lookup k) (k : Text) :
    (put key a ms).lookup k = (put key a ms').lookup k := by
  by_cases hk : k = key
  · rw [hk, lookup_put_self, lookup_put_self]
  · rw [lookup_put_of_ne hk, lookup_put_of_ne hk, h]

/-- What is stored can be told from the members. -/
theorem put_inj : put key a ms = put key b ms ↔ a = b := by
  refine ⟨fun h => ?_, fun h => by rw [h]⟩
  have hfound : (put key a ms).lookup key = some b := by rw [h, lookup_put_self]
  exact Option.some.inj ((lookup_put_self key a ms).symm.trans hfound)

theorem keys_prefix_put : keys ms <+: keys (put key a ms) := by
  rw [keys_put]
  split
  · exact List.prefix_rfl
  · exact List.prefix_append _ _

/-! ### Two replacements -/

/-- Where both add a member the keys come in the order of the replacements. -/
theorem keys_put_put {other : Text} (h : key ≠ other) (hk : key ∉ keys ms) (ho : other ∉ keys ms) :
    keys (put other b (put key a ms)) = keys ms ++ [key, other] := by
  have hkeys : keys (put key a ms) = keys ms ++ [key] := by rw [keys_put, if_neg hk]
  have ho' : other ∉ keys ms ++ [key] := by
    rw [List.mem_append, List.mem_singleton]
    exact not_or.mpr ⟨ho, h.symm⟩
  rw [keys_put, hkeys, if_neg ho', List.append_assoc, List.singleton_append]

theorem put_put : put key b (put key a ms) = put key b ms := by
  induction ms with
  | nil => simp [put]
  | cons m ms ih =>
      obtain ⟨k, c⟩ := m
      by_cases h : k = key
      · simp [put, h]
      · simp [put, h, ih]

/-- Replacements under two keys commute, unless both add a member. -/
theorem put_comm {other : Text} (h : key ≠ other) (hm : key ∈ keys ms ∨ other ∈ keys ms) :
    put other b (put key a ms) = put key a (put other b ms) := by
  induction ms with
  | nil => exact absurd hm (not_or.mpr ⟨List.not_mem_nil, List.not_mem_nil⟩)
  | cons m ms ih =>
      obtain ⟨k, c⟩ := m
      by_cases hk : k = key
      · subst hk
        simp [put, h]
      · by_cases ho : k = other
        · subst ho
          simp [put, hk]
        · simp only [keys, List.map_cons, List.mem_cons, Ne.symm hk, Ne.symm ho, false_or] at hm
          simp [put, hk, ho, ih hm]

/-- In either order the same is found. -/
theorem lookup_put_comm {other : Text} (h : key ≠ other) (k : Text) :
    (put other b (put key a ms)).lookup k = (put key a (put other b ms)).lookup k := by
  by_cases hk : k = key
  · rw [hk, lookup_put_of_ne h, lookup_put_self, lookup_put_self]
  · rw [lookup_put_of_ne hk]
    by_cases ho : k = other
    · rw [ho, lookup_put_self, lookup_put_self]
    · rw [lookup_put_of_ne ho, lookup_put_of_ne ho, lookup_put_of_ne hk]

/-- A member that is added where there is none is the one that is replaced. -/
theorem put_entry :
    put key b (if key ∈ keys ms then ms else ms ++ [(key, a)]) = put key b ms := by
  split
  · rfl
  · next h => rw [← put_of_not_mem h, put_put]

/-! ### Other values under the same keys -/

theorem keys_map (f : α → β) (ms : List (Text × α)) : keys (ms.map (Prod.map id f)) = keys ms := by
  rw [keys, List.map_map]
  rfl

theorem lookup_map (f : α → β) (ms : List (Text × α)) :
    (ms.map (Prod.map id f)).lookup key = (ms.lookup key).map f := by
  induction ms with
  | nil => rfl
  | cons m ms ih =>
      obtain ⟨k, b⟩ := m
      rw [List.map_cons, Prod.map_apply, id_eq, lookup_cons, lookup_cons, ih]
      split <;> rfl

/-- What is stored is mapped, and of the others only those that stay. -/
theorem map_put_congr {f g : α → β} (h : ∀ m ∈ ms, m ∈ put key a ms → f m.2 = g m.2) :
    (put key a ms).map (Prod.map id f) = put key (f a) (ms.map (Prod.map id g)) := by
  induction ms with
  | nil => rfl
  | cons m ms ih =>
      obtain ⟨k, c⟩ := m
      rw [List.map_cons, Prod.map_apply, id_eq, put]
      rw [put] at h ⊢
      split
      · next hk =>
          rw [if_pos hk] at h
          refine congrArg (_ :: ·) (List.map_congr_left fun m hm => ?_)
          exact congrArg (m.1, ·) (h m (List.mem_cons_of_mem _ hm) (List.mem_cons_of_mem _ hm))
      · next hk =>
          rw [if_neg hk] at h
          have hc : f c = g c := h (k, c) List.mem_cons_self List.mem_cons_self
          rw [List.map_cons, Prod.map_apply, id_eq, hc, ih fun m hm hm' =>
            h m (List.mem_cons_of_mem _ hm) (List.mem_cons_of_mem _ hm')]

theorem put_map (f : α → β) (a : α) (ms : List (Text × α)) :
    put key (f a) (ms.map (Prod.map id f)) = (put key a ms).map (Prod.map id f) :=
  (map_put_congr fun _ _ _ => rfl).symm

/-! ### The values -/

/-- What is done to one member is done to what it is mapped to. -/
theorem map_modify {f : α → α} {g : α → β} {h : β → β} (hfg : ∀ a, g (f a) = h (g a))
    (as : List α) (i : Nat) : (as.modify i f).map g = (as.map g).modify i h := by
  refine List.ext_getElem? fun j => ?_
  simp only [List.getElem?_map, List.getElem?_modify]
  cases as[j]? with
  | none => rfl
  | some a => by_cases hj : i = j <;> simp [hj, hfg]

/-- One value more than there were, or one in the place of another. -/
theorem subperm_put : ((put key a ms).map Prod.snd).Subperm (a :: ms.map Prod.snd) := by
  induction ms with
  | nil => exact .refl _
  | cons m ms ih =>
      obtain ⟨k, c⟩ := m
      rw [put, List.map_cons]
      split
      · exact ((List.sublist_cons_self c _).cons_cons a).subperm
      · exact ((List.subperm_cons c).mpr ih).trans (List.Perm.swap a c _).subperm

theorem mem_put (h : b ∈ (put key a ms).map Prod.snd) : b ∈ ms.map Prod.snd ∨ b = a :=
  (List.mem_cons.mp (subperm_put.subset h)).symm

theorem nodup_put (h : (ms.map Prod.snd).Nodup) (ha : a ∉ ms.map Prod.snd) :
    ((put key a ms).map Prod.snd).Nodup := by
  have hput : ((put key a ms).map Prod.snd).Subperm (a :: ms.map Prod.snd) := subperm_put
  obtain ⟨l, hp, hsub⟩ := hput
  exact hp.nodup_iff.mp ((List.nodup_cons.mpr ⟨ha, h⟩).sublist hsub)

theorem forall₂_put {R : α → β → Prop} {x : β} {us : List (Text × β)}
    (h : List.Forall₂ (fun m u => m.1 = u.1 ∧ R m.2 u.2) ms us) (hx : R a x) :
    List.Forall₂ (fun m u => m.1 = u.1 ∧ R m.2 u.2) (put key a ms) (put key x us) := by
  induction h with
  | nil => exact .cons ⟨rfl, hx⟩ .nil
  | @cons m u ms us hm hs ih =>
      obtain ⟨k, c⟩ := m
      obtain ⟨k', y⟩ := u
      obtain ⟨rfl, hy⟩ := hm
      rw [put, put]
      by_cases hk : k = key
      · rw [if_pos hk, if_pos hk]
        exact .cons ⟨rfl, hx⟩ hs
      · rw [if_neg hk, if_neg hk]
        exact .cons ⟨rfl, hy⟩ ih

theorem keys_of_forall₂ {R : α → β → Prop} {us : List (Text × β)}
    (h : List.Forall₂ (fun m u => m.1 = u.1 ∧ R m.2 u.2) ms us) : keys ms = keys us := by
  induction h with
  | nil => rfl
  | cons hm _ ih => exact congrArg₂ List.cons hm.1 ih

end JsonDocument.Members
