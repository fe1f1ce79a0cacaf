import JsonDocument.Document
import JsonDocument.Proofs.Fault
import JsonDocument.Proofs.Number.Literal
import JsonDocument.Proofs.Plain.Listing
import JsonDocument.Proofs.Rewriting

/-!
# Proofs — built trees

Where the numbers of a tree come from.  A number that is read is one of the grammar, and so is one
that is made of a double or an integer; only a literal that a recipe takes as it is given may be
anything.

* `Plain.numbersValid_toJson`, `Document.numbersValid_read`: trees of plain data and of inputs.
* `Recipe.inductionOn`, `Recipe.buildElements_eq`, `Recipe.buildMembers_eq`: recipes item by item.
* `Recipe.Checked`: the recipe takes no literal as it is given.
* `Recipe.exists_build_iff`: such recipes build the trees with valid numbers.
-/

namespace JsonDocument

variable {v : Json}

/-! ### Trees with valid numbers -/

namespace Json

theorem numbersValid_array {xs : List Json} :
    (array xs).NumbersValid ↔ ∀ x ∈ xs, x.NumbersValid := by
  induction xs with
  | nil => exact ⟨fun _ _ h => absurd h List.not_mem_nil, fun _ => trivial⟩
  | cons x xs ih =>
      rw [List.forall_mem_cons, ← ih]
      exact Iff.rfl

theorem numbersValid_object {ms : List (Text × Json)} :
    (object ms).NumbersValid ↔ ∀ m ∈ ms, m.2.NumbersValid := by
  induction ms with
  | nil => exact ⟨fun _ _ h => absurd h List.not_mem_nil, fun _ => trivial⟩
  | cons m ms ih =>
      rw [List.forall_mem_cons, ← ih]
      exact and_iff_right trivial

/-- A finite double has a valid number. -/
theorem numbersValid_ofDouble {x : Binary64} (h : ofDouble x = .ok v) : v.NumbersValid := by
  unfold ofDouble at h
  split at h
  · cases h; exact isLiteral_write _ _
  · cases h

end Json

/-! ### Inputs -/

theorem numbersValid_of_readDocument {d : Nat} {b : Bytes} (h : readDocument d b = .ok v) :
    v.NumbersValid :=
  Json.EachText.imp (fun _ => id) (fun _ _ => trivial) v
    (document_of_readDocument h).1.eachText

theorem Document.numbersValid_read {input : Bytes} {settings : Given}
    (h : (Document.read input settings).outcome = .ok v) : v.NumbersValid := by
  obtain ⟨o, -, h⟩ := outcome_bind_eq_ok.mp h
  exact numbersValid_of_readDocument (mapError_eq_ok.mp h)

/-! ### Plain data -/

theorem mem_of_firstRefusal {α : Type} {rs : List (Except Refusal α)} {as : List α} {a : α}
    (h : firstRefusal rs = .ok as) (ha : a ∈ as) : .ok a ∈ rs := by
  induction rs generalizing as with
  | nil => cases h; exact absurd ha List.not_mem_nil
  | cons r rs ih =>
      cases r with
      | error e => cases h
      | ok b =>
          obtain ⟨bs, hbs, rfl⟩ := map_eq_ok.mp h
          rcases List.mem_cons.mp ha with rfl | ha
          · exact List.mem_cons_self ..
          · exact List.mem_cons_of_mem _ (ih hbs ha)

namespace Plain

mutual

/-- The document of plain data has valid numbers. -/
theorem numbersValid_toJson : (x : Plain) → {v : Json} → x.toJson = .ok v → v.NumbersValid
  | .null, _, h | .bool _, _, h | .string _, _, h => by cases h; trivial
  | .double x, _, h => by
      rw [toJson] at h
      split at h
      · cases h; exact isLiteral_write _ _
      · cases h
  | .integer n, _, h => by cases h; exact isLiteral_ofInt n
  | .array xs, _, h => by
      obtain ⟨vs, hvs, rfl⟩ := map_eq_ok.mp h
      exact Json.numbersValid_array.mpr fun v hv =>
        numbersValid_toJsonItems xs (mem_of_firstRefusal hvs hv)
  | .record es, _, h => by
      obtain ⟨ms, hms, rfl⟩ := map_eq_ok.mp h
      refine Json.numbersValid_object.mpr fun m hm => ?_
      obtain ⟨e, he, hm⟩ := List.mem_map.mp (mem_of_firstRefusal hms hm)
      obtain ⟨v, hv, rfl⟩ := map_eq_ok.mp hm
      have hmem := Record.mem_entries (List.mem_map_of_mem he)
      rw [hv] at hmem
      exact numbersValid_toJsonEntries es hmem
  | .foreign _, _, h => by cases h

theorem numbersValid_toJsonItems : (xs : List Plain) → {v : Json} →
    .ok v ∈ toJsonItems xs → v.NumbersValid
  | [], _, h => absurd h List.not_mem_nil
  | x :: xs, _, h =>
      (List.mem_cons.mp h).elim (fun h => numbersValid_toJson x h.symm)
        (numbersValid_toJsonItems xs)

theorem numbersValid_toJsonEntries : (es : List (Text × Plain)) → {v : Json} →
    .ok v ∈ (toJsonEntries es).map Prod.snd → v.NumbersValid
  | [], _, h => absurd h List.not_mem_nil
  | (_, x) :: es, _, h =>
      (List.mem_cons.mp h).elim (fun h => numbersValid_toJson x h.symm)
        (numbersValid_toJsonEntries es)

end

end Plain

/-! ### Recipes -/

namespace Recipe

/-- Induction over recipes, for all elements of an array and all members of an object at once. -/
theorem inductionOn {P : Recipe → Prop} (r : Recipe) (null : P .null) (bool : ∀ b, P (.bool b))
    (string : ∀ t, P (.string t)) (literal : ∀ t, P (.literal t)) (double : ∀ x, P (.double x))
    (input : ∀ bytes, P (.input bytes)) (plain : ∀ data, P (.plain data))
    (array : ∀ rs, (∀ r ∈ rs, P r) → P (.array rs))
    (object : ∀ ms, (∀ m ∈ ms, P m.2) → P (.object ms)) : P r :=
  @Recipe.rec P (fun rs => ∀ r ∈ rs, P r) (fun ms => ∀ m ∈ ms, P m.2) (fun m => P m.2)
    null bool string literal double input plain array object
    (fun _ h => absurd h List.not_mem_nil) (fun _ _ hr hrs => List.forall_mem_cons.mpr ⟨hr, hrs⟩)
    (fun _ h => absurd h List.not_mem_nil) (fun _ _ hm hms => List.forall_mem_cons.mpr ⟨hm, hms⟩)
    (fun _ _ h => h) r

theorem buildElements_eq (rs : List Recipe) : buildElements rs = rs.mapM build := by
  induction rs with
  | nil => rfl
  | cons r rs ih =>
      rw [buildElements, List.mapM_cons, ih]
      cases r.build with
      | error e => rfl
      | ok v => cases rs.mapM build <;> rfl

theorem buildMembers_eq (ms : List (Text × Recipe)) :
    buildMembers ms = ms.mapM fun m => m.2.build.map (m.1, ·) := by
  induction ms with
  | nil => rfl
  | cons m ms ih =>
      obtain ⟨k, r⟩ := m
      rw [buildMembers, List.mapM_cons, ih]
      cases r.build with
      | error e => rfl
      | ok v => cases ms.mapM fun m => m.2.build.map (m.1, ·) <;> rfl

mutual

/-- The recipe takes no literal as it is given. -/
def Checked : Recipe → Prop
  | literal _ => False
  | array rs => CheckedElements rs
  | object ms => CheckedMembers ms
  | null | bool _ | string _ | double _ | input _ | plain _ => True

def CheckedElements : List Recipe → Prop
  | [] => True
  | r :: rs => Checked r ∧ CheckedElements rs

def CheckedMembers : List (Text × Recipe) → Prop
  | [] => True
  | (_, r) :: ms => Checked r ∧ CheckedMembers ms

end

theorem buildElements_cons {r : Recipe} {rs : List Recipe} {vs : List Json} :
    buildElements (r :: rs) = .ok vs ↔
      ∃ v vs', r.build = .ok v ∧ buildElements rs = .ok vs' ∧ vs = v :: vs' := by
  rw [buildElements]
  cases r.build with
  | error e => exact ⟨fun h => (nomatch h), fun ⟨_, _, h, _⟩ => (nomatch h)⟩
  | ok v =>
      simp only [map_eq_ok, Except.ok.injEq]
      exact ⟨fun ⟨vs', h, he⟩ => ⟨v, vs', rfl, h, he.symm⟩,
        fun ⟨_, vs', hv, h, he⟩ => ⟨vs', h, by rw [hv, he]⟩⟩

theorem buildMembers_cons {k : Text} {r : Recipe} {ms : List (Text × Recipe)}
    {us : List (Text × Json)} :
    buildMembers ((k, r) :: ms) = .ok us ↔
      ∃ v us', r.build = .ok v ∧ buildMembers ms = .ok us' ∧ us = (k, v) :: us' := by
  rw [buildMembers]
  cases r.build with
  | error e => exact ⟨fun h => (nomatch h), fun ⟨_, _, h, _⟩ => (nomatch h)⟩
  | ok v =>
      simp only [map_eq_ok, Except.ok.injEq]
      exact ⟨fun ⟨us', h, he⟩ => ⟨v, us', rfl, h, he.symm⟩,
        fun ⟨_, us', hv, h, he⟩ => ⟨us', h, by rw [hv, he]⟩⟩

mutual

/-- A recipe that takes no literal as it is given builds trees with valid numbers. -/
theorem numbersValid_build : (r : Recipe) → {v : Json} → r.Checked → r.build = .ok v →
    v.NumbersValid
  | .null, _, _, h | .bool _, _, _, h | .string _, _, _, h => by cases h; trivial
  | .literal _, _, hr, _ => hr.elim
  | .double _, _, _, h => Json.numbersValid_ofDouble h
  | .input _, _, _, h => Document.numbersValid_read h
  | .plain data, _, _, h => data.numbersValid_toJson (mapError_eq_ok.mp h)
  | .array rs, _, hr, h => by
      obtain ⟨vs, hvs, rfl⟩ := map_eq_ok.mp h
      exact Json.numbersValid_array.mpr (numbersValid_buildElements rs hr hvs)
  | .object ms, _, hr, h => by
      obtain ⟨us, hus, rfl⟩ := map_eq_ok.mp h
      exact Json.numbersValid_object.mpr (numbersValid_buildMembers ms hr hus)

theorem numbersValid_buildElements : (rs : List Recipe) → {vs : List Json} →
    CheckedElements rs → buildElements rs = .ok vs → ∀ v ∈ vs, v.NumbersValid
  | [], _, _, h => by cases h; exact fun _ h => absurd h List.not_mem_nil
  | r :: rs, _, hr, h => by
      obtain ⟨v, vs, hv, hvs, rfl⟩ := buildElements_cons.mp h
      exact List.forall_mem_cons.mpr
        ⟨numbersValid_build r hr.1 hv, numbersValid_buildElements rs hr.2 hvs⟩

theorem numbersValid_buildMembers : (ms : List (Text × Recipe)) → {us : List (Text × Json)} →
    CheckedMembers ms → buildMembers ms = .ok us → ∀ u ∈ us, u.2.NumbersValid
  | [], _, _, h => by cases h; exact fun _ h => absurd h List.not_mem_nil
  | (_, r) :: ms, _, hr, h => by
      obtain ⟨v, us, hv, hus, rfl⟩ := buildMembers_cons.mp h
      exact List.forall_mem_cons.mpr
        ⟨numbersValid_build r hr.1 hv, numbersValid_buildMembers ms hr.2 hus⟩

end

/-- A literal of the grammar is what an input that is only this literal builds. -/
theorem build_input_literal {t : Text} (ht : IsLiteral t) :
    (input (Utf8.encode t)).build = .ok (.number t) := by
  have hwrite : t = (Json.number t).write .compact := (List.append_nil t).symm
  have hread : readDocument (512 : Nat) (Utf8.encode t) = .ok (.number t) := by
    conv_lhs => rw [hwrite]
    exact readDocument_of_fits (show (Json.number t).NumbersValid from ht) (Nat.zero_le _) trivial _
  exact outcome_bind_eq_ok.mpr ⟨⟨512⟩, rfl, mapError_eq_ok.mpr hread⟩

mutual

/-- A tree with valid numbers is built without a literal as it is given, however deep it is. -/
theorem exists_build : (v : Json) → v.NumbersValid → ∃ r : Recipe, r.Checked ∧ r.build = .ok v
  | .null, _ => ⟨.null, trivial, rfl⟩
  | .bool b, _ => ⟨.bool b, trivial, rfl⟩
  | .string t, _ => ⟨.string t, trivial, rfl⟩
  | .number _, hv => ⟨.input _, trivial, build_input_literal hv⟩
  | .array xs, hv =>
      let ⟨rs, hrs, hbuild⟩ := exists_buildElements xs (Json.numbersValid_array.mp hv)
      ⟨.array rs, hrs, map_eq_ok.mpr ⟨xs, hbuild, rfl⟩⟩
  | .object ms, hv =>
      let ⟨rs, hrs, hbuild⟩ := exists_buildMembers ms (Json.numbersValid_object.mp hv)
      ⟨.object rs, hrs, map_eq_ok.mpr ⟨ms, hbuild, rfl⟩⟩

theorem exists_buildElements : (vs : List Json) → (∀ v ∈ vs, v.NumbersValid) →
    ∃ rs, CheckedElements rs ∧ buildElements rs = .ok vs
  | [], _ => ⟨[], trivial, rfl⟩
  | v :: vs, hvs => by
      obtain ⟨hv, hvs⟩ := List.forall_mem_cons.mp hvs
      obtain ⟨r, hr, hbuild⟩ := exists_build v hv
      obtain ⟨rs, hrs, hbuilds⟩ := exists_buildElements vs hvs
      exact ⟨r :: rs, ⟨hr, hrs⟩, buildElements_cons.mpr ⟨v, vs, hbuild, hbuilds, rfl⟩⟩

theorem exists_buildMembers : (ms : List (Text × Json)) → (∀ m ∈ ms, m.2.NumbersValid) →
    ∃ rs, CheckedMembers rs ∧ buildMembers rs = .ok ms
  | [], _ => ⟨[], trivial, rfl⟩
  | (k, v) :: ms, hms => by
      obtain ⟨hv, hms⟩ := List.forall_mem_cons.mp hms
      obtain ⟨r, hr, hbuild⟩ := exists_build v hv
      obtain ⟨rs, hrs, hbuilds⟩ := exists_buildMembers ms hms
      exact ⟨(k, r) :: rs, ⟨hr, hrs⟩, buildMembers_cons.mpr ⟨v, ms, hbuild, hbuilds, rfl⟩⟩

end

/-- Recipes that take no literal as it is given build all trees with valid numbers and no others;
so what an input is read as, under any settings, is among what they build. -/
theorem exists_build_iff {v : Json} :
    (∃ r : Recipe, r.Checked ∧ r.build = .ok v) ↔ v.NumbersValid :=
  ⟨fun ⟨r, hr, h⟩ => r.numbersValid_build hr h, exists_build v⟩

end Recipe

end JsonDocument
