import JsonDocument.Proofs.Session.Ownership
import JsonDocument.Proofs.Store.Places

/-!
# Proofs — Session — two ways to store under a key

A value may be stored under a key at once, or the node under the key may be asked for and then made
what the value is.  In a session of steps that copy, both ways leave the object with the same tree,
but for one case: where the key is new and the value is the object or contains it, the second way
copies the value when the new member is already there.

* `Reachable.put_eq_entry_assign_iff`: when the two ways agree, and what they differ by otherwise.
-/

namespace JsonDocument.Session

variable {w : Session} {n v : NodeId}

/-- **Two ways to store under a key.**  Both ways succeed on every object, whatever `v` is, and each
leaves its copy of `v` as the node under the key.  The object has the same tree after both just if
it has had the key, or is neither `v` nor contained in it.  Where the key is new and a path leads
from `v` to the object, there is one such path; the first copy has the old tree of the object at its
end, and the second copy is the first with the new member, which is still null, as the last one
there. -/
theorem Reachable.put_eq_entry_assign_iff (hw : w.Reachable) (key : Text)
    (hn : w.store.kindOf n = .object) (hv : w.store.Has v) :
    ∃ us u u' s₁ c₁ s c₂ s₂,
      w.store.treeOf n = .ok (.object us) ∧ w.store.treeOf v = .ok u ∧
      w.store.put n key v = .ok (s₁, c₁) ∧
      w.store.entry n key = .ok (s, c₂) ∧ s.assign c₂ v = .ok s₂ ∧
      s₁.find? n key = some c₁ ∧ s₁.treeOf c₁ = .ok u ∧
      s₂.find? n key = some c₂ ∧ s₂.treeOf c₂ = .ok u' ∧
      s₁.treeOf n = .ok (.object (Members.put key u us)) ∧
      s₂.treeOf n = .ok (.object (Members.put key u' us)) ∧
      (s₁.treeOf n = s₂.treeOf n ↔ key ∈ Members.keys us ∨ ¬ w.store.Reaches v n) ∧
      (key ∉ Members.keys us → ∀ p, w.store.walk v p = some n →
        (∀ q, w.store.walk v q = some n → q = p) ∧ u.at? p = some (.object us) ∧
          u' = u.replaceAt p (.object (us ++ [(key, .null)]))) := by
  have hs := hw.sound.store
  obtain ⟨u, hu⟩ := hs.treeOf hv
  have hput : ∃ r, w.store.put n key v = .ok r := (Store.exists_put_iff hu).mpr hn
  obtain ⟨⟨s₁, c₁⟩, hput⟩ := hput
  obtain ⟨us, x, hus, hx, hch, hf⟩ := hs.put hput
  obtain rfl := Except.ok.inj (hu.symm.trans hx)
  obtain ⟨l, hms⟩ := Store.exists_membersOf_iff.mpr hn
  have hhas : w.store.Has n := Store.has_of_content (Store.membersOf_eq_ok_iff.mp hms).1
  obtain ⟨s, c₂, u', s₂, hentry, hu', hassign, hf', hcopy', htree'⟩ :=
    hs.entry_assign hhas hus hv key
  obtain ⟨hsame, hchanged⟩ := hs.treeOf_entry hus hentry hv hu
  obtain ⟨x, hx, hcopy⟩ := Store.storesCopy_put hs.toClosed hput
  obtain rfl := Except.ok.inj (hu.symm.trans hx)
  have hplace : ∀ p, w.store.walk v p = some n → u.at? p = some (.object us) := fun p hp =>
    ((Store.treeOf_eq_ok_iff hs.toClosed hv).mp hu).at?_of_walk hp
      ((Store.treeOf_eq_ok_iff hs.toClosed hhas).mp hus)
  have hgrown : ∀ p, key ∉ Members.keys us → w.store.walk v p = some n →
      u' = u.replaceAt p (.object (us ++ [(key, .null)])) := fun p hnew hp =>
    Except.ok.inj (hu'.symm.trans (hchanged hnew p hp))
  refine ⟨us, u, u', s₁, c₁, s, c₂, s₂, hus, hu, hput, hentry, hassign, hf, hcopy.treeOf, hf',
    hcopy', hch.self, htree', ?_, fun hnew p hp => ⟨fun q hq => hs.walk_unique hv hq hp,
      hplace p hp, hgrown p hnew hp⟩⟩
  rw [hch.self, htree', Except.ok.injEq, Json.object.injEq, Members.put_inj]
  constructor
  · intro heq
    by_contra hnot
    obtain ⟨hnew, hreach⟩ := not_or.mp hnot
    obtain ⟨p, hp⟩ := not_not.mp hreach
    -- the copies have different trees where the object was
    refine Json.replaceAt_ne (hplace p hp) ?_ ((hgrown p hnew hp).symm.trans heq.symm)
    simp
  · exact fun hkeep => Except.ok.inj ((hsame hkeep).symm.trans hu')

/-- The array `a` contains the object `o`, which is empty. -/
def containedRun : List Step :=
  [.object [] (some [98]), .array [] (some [97]), .act [97] (.pushBack [98] (some [111]))]

/-- Stored in `o` under a new key, `a` is copied as it is; the node under the key that is made what
`a` is gets that key with null in the copy of `o`. -/
theorem put_eq_entry_assign_contained :
    let w := empty.after containedRun
    w.Reachable ∧ w.store.kindOf ⟨2⟩ = .object ∧ w.store.Has ⟨1⟩ ∧
      ∃ s₁ c₁ s c₂ s₂, w.store.put ⟨2⟩ [107] ⟨1⟩ = .ok (s₁, c₁) ∧
        w.store.entry ⟨2⟩ [107] = .ok (s, c₂) ∧ s.assign c₂ ⟨1⟩ = .ok s₂ ∧
        s₁.treeOf c₁ = .ok (.array [.object []]) ∧
        s₂.treeOf c₂ = .ok (.array [.object [([107], .null)]]) ∧
        s₁.treeOf ⟨2⟩ ≠ s₂.treeOf ⟨2⟩ := by
  intro w
  have hw : w.Reachable := reachable_after .empty (by simp [containedRun, Step.Copies])
  have hn : w.store.kindOf ⟨2⟩ = .object := rfl
  have hv : w.store.Has ⟨1⟩ := by decide
  obtain ⟨us, u, u', s₁, c₁, s, c₂, s₂, hus, hu, hput, hentry, hassign, -, hcopy, -, hcopy', -, -,
    hiff, hgrown⟩ := hw.put_eq_entry_assign_iff [107] hn hv
  obtain rfl : [] = us := Json.object.inj (Except.ok.inj (rfl.symm.trans hus))
  obtain rfl : .array [.object []] = u := Except.ok.inj (rfl.symm.trans hu)
  obtain ⟨-, -, rfl⟩ := hgrown List.not_mem_nil [0] rfl
  refine ⟨hw, hn, hv, s₁, c₁, s, c₂, s₂, hput, hentry, hassign, hcopy, hcopy', fun heq => ?_⟩
  exact (hiff.mp heq).elim List.not_mem_nil fun hout => hout ⟨[0], rfl⟩

end JsonDocument.Session
