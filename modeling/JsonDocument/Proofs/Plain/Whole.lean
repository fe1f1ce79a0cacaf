import JsonDocument.Proofs.Plain.Holes

/-!
# Proofs — Plain — data that happens to have no holes

Data may be given place by place even if there is no hole in it.  It is then converted as the plain
data that it is: what is refused is the same, and what is made of it is the same document.

* `Agree`: results of the two conversions.
* `Sparse.convert_agrees`: data without holes, beside `Plain.toJson`.
-/

namespace JsonDocument

variable {α β : Type}

/-! ### Results that agree -/

/-- The same refusal, or results of which the one is what `φ` makes of the other. -/
inductive Agree (φ : α → Option β) : Except Refusal α → Except Refusal β → Prop where
  | error (r : Refusal) : Agree φ (.error r) (.error r)
  | ok {a : α} {b : β} (h : φ a = some b) : Agree φ (.ok a) (.ok b)

section

variable {γ δ : Type} {φ : α → Option β} {x : Except Refusal α} {y : Except Refusal β}

theorem Agree.map {ψ : γ → Option δ} {f : α → γ} {g : β → δ} (h : Agree φ x y)
    (hψ : ∀ a b, φ a = some b → ψ (f a) = some (g b)) : Agree ψ (x.map f) (y.map g) := by
  cases h with
  | error r => exact .error r
  | ok h => exact .ok (hψ _ _ h)

theorem Agree.map_left {ψ : γ → Option β} (f : α → γ) (h : Agree φ x y)
    (hψ : ∀ a, ψ (f a) = φ a) : Agree ψ (x.map f) y := by
  cases h with
  | error r => exact .error r
  | ok h => exact .ok ((hψ _).trans h)

/-- Lists whose parts agree have results that agree. -/
theorem agree_firstRefusal {f : γ → Except Refusal α} {g : δ → Except Refusal β} {cs : List γ}
    {ds : List δ} (h : List.Forall₂ (fun c d => Agree φ (f c) (g d)) cs ds) :
    Agree (List.mapM φ) (firstRefusal (cs.map f)) (firstRefusal (ds.map g)) := by
  induction h with
  | nil => exact .ok rfl
  | @cons c d cs ds hcd _ ih =>
      rw [List.map_cons, List.map_cons]
      generalize f c = x at hcd
      generalize g d = y at hcd
      cases hcd with
      | error r => exact .error r
      | ok hb => exact ih.map fun as bs hbs => by rw [List.mapM_cons, hb, hbs]; rfl

theorem present_eq_some_iff {e : Text × Option α} {f : Text × α} :
    present e = some f ↔ e = Prod.map id some f := by
  obtain ⟨k, x⟩ := e
  obtain ⟨k', a⟩ := f
  rw [present, Option.map_eq_some_iff]
  simp [and_comm]

end

namespace Sparse

variable {d : Sparse}

/-! ### Data without holes -/

theorem plain?_array (xs : List (Option Sparse)) :
    (array xs).plain? = (xs.mapM fun x : Option Sparse => x.bind plain?).map .array := by
  have hplaces : plainPlaces xs = xs.map fun x : Option Sparse => x.bind plain? :=
    eq_map rfl (fun x xs => by cases x <;> rfl) xs
  rw [plain?, hplaces, List.mapM_map]
  rfl

theorem plain?_record (es : List (Text × Sparse)) :
    (record es).plain? = (es.mapM (present ∘ Prod.map id plain?)).map .record := by
  have hentries : plainEntries es = es.map (Prod.map id plain?) := eq_map rfl (fun _ _ => rfl) es
  rw [plain?, hentries, List.mapM_map]

/-- Data without holes is converted as plain data is, however it is given. -/
theorem convert_agrees {e : Plain} (h : d.plain? = some e) :
    Agree Ragged.json? d.convert e.toJson := by
  induction d using inductionOn generalizing e with
  | whole d =>
      cases h
      rw [convert]
      cases d.toJson with
      | error r => exact .error r
      | ok v => exact .ok rfl
  | array xs ih =>
      rw [plain?_array, Option.map_eq_some_iff] at h
      obtain ⟨ys, hys, rfl⟩ := h
      rw [mapM_eq_some_iff] at hys
      rw [convert_array, Plain.toJson_array]
      have hplaces : List.Forall₂ (fun x y => Agree (fun z : Option Ragged => z.bind Ragged.json?)
          (convertPlace x) y.toJson) xs ys := by
        refine forall₂_imp_mem hys fun x hx y hy => ?_
        cases x with
        | none => cases hy
        | some x => exact (ih x hx hy).map_left some fun _ => rfl
      exact (agree_firstRefusal hplaces).map fun zs vs hzs => by rw [Ragged.json?_array, hzs]; rfl
  | record es ih =>
      rw [plain?_record, Option.map_eq_some_iff] at h
      obtain ⟨fs, hfs, rfl⟩ := h
      rw [mapM_eq_some_iff] at hfs
      have hmap : es.map (Prod.map id plain?) = fs.map (Prod.map id some) := by
        rw [← List.forall₂_eq_eq_eq, List.forall₂_map_left_iff, List.forall₂_map_right_iff]
        exact hfs.imp fun e f hf => by rw [← present_eq_some_iff]; exact hf
      -- the values do not matter for what is listed
      have hentries : List.Forall₂ (fun e f => Prod.map id plain? e = Prod.map id some f)
          (Record.entries es) (Record.entries fs) := by
        rw [← List.forall₂_map_right_iff (f := Prod.map id some),
          ← List.forall₂_map_left_iff (f := Prod.map id plain?), List.forall₂_eq_eq_eq,
          ← Record.entries_map, hmap, Record.entries_map]
      rw [convert_record, Plain.toJson_record]
      have hmembers : List.Forall₂ (fun e f => Agree (present ∘ Prod.map id Ragged.json?)
          (keyed (Prod.map id convert e)) (keyed (Prod.map id Plain.toJson f)))
          (Record.entries es) (Record.entries fs) := by
        refine forall₂_imp_mem hentries fun e he f hef => ?_
        obtain ⟨hkey, hplain⟩ := Prod.ext_iff.mp hef
        obtain ⟨e', he', heq⟩ := List.mem_map.mp (Record.mem_entries (List.mem_map_of_mem he))
        have hagree := ih e' he' ((congrArg plain? heq).trans hplain)
        rw [heq] at hagree
        exact hagree.map fun v w hw => present_eq_some_iff.mpr (Prod.ext hkey hw)
      exact (agree_firstRefusal hmembers).map fun ms us hms => by rw [Ragged.json?_object, hms]; rfl

end Sparse

end JsonDocument
