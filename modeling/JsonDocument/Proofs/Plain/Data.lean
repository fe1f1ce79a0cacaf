import JsonDocument.Plain.Convert
import JsonDocument.Proofs.Plain.Listing

/-!
# Proofs — Plain — data and documents item by item

What is done to plain data and to documents is done to each item of an array and to each entry of a
record, so it is a map over the lists (`eq_map`); what is said of all items is said of each of them
(`iff_forall`), and is proved through `inductionOn`.

* `Plain.settled`, `Plain.Settled`: data whose records are given as they are listed.
* `Plain.Portable`: numbers are finite doubles, and nothing is foreign.
* `Plain.toJson_record`, `Json.toPlain_object`: the entries and members that come out.
-/

namespace JsonDocument

variable {α β γ : Type}

/-! ### Lists of results -/

/-- If each part of a list has a result, the list has. -/
theorem exists_firstRefusal {f : β → Except Refusal α} {g : α → γ} {h : β → γ} {bs : List β}
    (hbs : ∀ b ∈ bs, ∃ a, f b = .ok a ∧ g a = h b) :
    ∃ as, firstRefusal (bs.map f) = .ok as ∧ as.map g = bs.map h := by
  induction bs with
  | nil => exact ⟨[], rfl, rfl⟩
  | cons b bs ih =>
      obtain ⟨⟨a, hf, hg⟩, hbs⟩ := List.forall_mem_cons.mp hbs
      obtain ⟨as, hfs, hgs⟩ := ih hbs
      refine ⟨a :: as, ?_, congrArg₂ List.cons hg hgs⟩
      rw [List.map_cons, hf, firstRefusal, hfs]
      rfl

theorem firstRefusal_map {f : β → Except Refusal α} {h : β → α} {bs : List β}
    (hbs : ∀ b ∈ bs, f b = .ok (h b)) : firstRefusal (bs.map f) = .ok (bs.map h) := by
  obtain ⟨as, hfs, hgs⟩ := exists_firstRefusal (g := fun a => a) fun b hb => ⟨h b, hbs b hb, rfl⟩
  rw [hfs, ← hgs, List.map_id']

/-- The first refusal, passed on as another failure. -/
theorem mapError_firstRefusal {ε : Type} (F : Refusal → ε) (f : β → Except Refusal α)
    (bs : List β) :
    (firstRefusal (bs.map f)).mapError F = bs.mapM fun b => (f b).mapError F := by
  induction bs with
  | nil => rfl
  | cons b bs ih =>
      rw [List.map_cons, List.mapM_cons, ← ih]
      cases f b with
      | error r => rfl
      | ok a => rw [firstRefusal]; cases firstRefusal (bs.map f) <;> rfl

/-- What takes a list item by item is a map. -/
theorem eq_map {F : List α → List β} {f : α → β} (hnil : F [] = [])
    (hcons : ∀ a as, F (a :: as) = f a :: F as) (as : List α) : F as = as.map f := by
  induction as with
  | nil => exact hnil
  | cons a as ih => rw [hcons, ih, List.map_cons]

/-- What a list is said to be item by item is so of each item. -/
theorem iff_forall {F : List α → Prop} {P : α → Prop} (hnil : F [])
    (hcons : ∀ a as, F (a :: as) ↔ P a ∧ F as) (as : List α) : F as ↔ ∀ a ∈ as, P a := by
  induction as with
  | nil => exact iff_of_true hnil (List.forall_mem_nil P)
  | cons a as ih => rw [hcons, ih, List.forall_mem_cons]

theorem map_eq_self_iff {f : α → α} {as : List α} : as.map f = as ↔ ∀ a ∈ as, f a = a := by
  rw [← List.map_inj_left, List.map_id']

namespace Plain

/-! ### Plain data -/

/-- Induction over plain data, for all items of an array and all entries of a record at once. -/
theorem inductionOn {P : Plain → Prop} (d : Plain) (null : P .null) (bool : ∀ b, P (.bool b))
    (double : ∀ x, P (.double x)) (integer : ∀ n, P (.integer n)) (string : ∀ t, P (.string t))
    (array : ∀ xs, (∀ x ∈ xs, P x) → P (.array xs))
    (record : ∀ es, (∀ e ∈ es, P e.2) → P (.record es)) (foreign : ∀ k, P (.foreign k)) : P d :=
  @Plain.rec P (fun xs => ∀ x ∈ xs, P x) (fun es => ∀ e ∈ es, P e.2) (fun e => P e.2)
    null bool double integer string array record foreign
    (fun _ h => absurd h List.not_mem_nil) (fun _ _ hx hxs => List.forall_mem_cons.mpr ⟨hx, hxs⟩)
    (fun _ h => absurd h List.not_mem_nil) (fun _ _ he hes => List.forall_mem_cons.mpr ⟨he, hes⟩)
    (fun _ _ h => h) d

mutual

/-- Plain data as it is listed: every record, at every depth, by its entries in their order. -/
def settled : Plain → Plain
  | array xs => .array (settledItems xs)
  | record es => .record (Record.entries (settledEntries es))
  | d => d

def settledItems : List Plain → List Plain
  | [] => []
  | x :: xs => settled x :: settledItems xs

def settledEntries : List (Text × Plain) → List (Text × Plain)
  | [] => []
  | (k, x) :: es => (k, settled x) :: settledEntries es

end

mutual

/-- All data in it that is neither an array nor a record has the property `L`, and the keys of every
record have `K`. -/
def Each (L : Plain → Prop) (K : List Text → Prop) : Plain → Prop
  | array xs => EachItem L K xs
  | record es => K (Members.keys es) ∧ EachEntry L K es
  | d => L d

def EachItem (L : Plain → Prop) (K : List Text → Prop) : List Plain → Prop
  | [] => True
  | x :: xs => Each L K x ∧ EachItem L K xs

def EachEntry (L : Plain → Prop) (K : List Text → Prop) : List (Text × Plain) → Prop
  | [] => True
  | (_, x) :: es => Each L K x ∧ EachEntry L K es

end

/-- A number that is a finite double, or no number and nothing foreign. -/
def PortableScalar : Plain → Prop
  | double x => x.isFinite = true
  | integer _ | foreign _ => False
  | _ => True

/-- Every number is a finite double, and nothing is foreign. -/
def Portable (d : Plain) : Prop := d.Each PortableScalar fun _ => True

/-- Every record, at every depth, is given as it is listed. -/
def Settled (d : Plain) : Prop := d.Each (fun _ => True) Record.Listed

section

variable {L : Plain → Prop} {K : List Text → Prop} {xs : List Plain} {es : List (Text × Plain)}

theorem each_array : (array xs).Each L K ↔ ∀ x ∈ xs, x.Each L K := by
  rw [Each]
  exact iff_forall trivial (fun _ _ => Iff.rfl) xs

theorem each_record :
    (record es).Each L K ↔ K (Members.keys es) ∧ ∀ e ∈ es, e.2.Each L K := by
  rw [Each]
  exact and_congr_right' (iff_forall trivial (fun _ _ => Iff.rfl) es)

theorem portable_array : (array xs).Portable ↔ ∀ x ∈ xs, x.Portable := each_array

theorem portable_record : (record es).Portable ↔ ∀ e ∈ es, e.2.Portable :=
  each_record.trans (and_iff_right trivial)

theorem settled_array_iff : (array xs).Settled ↔ ∀ x ∈ xs, x.Settled := each_array

theorem settled_record_iff :
    (record es).Settled ↔ Record.Listed (Members.keys es) ∧ ∀ e ∈ es, e.2.Settled := each_record

end

theorem settledItems_eq (xs : List Plain) : settledItems xs = xs.map settled :=
  eq_map rfl (fun _ _ => rfl) xs

theorem settledEntries_eq (es : List (Text × Plain)) :
    settledEntries es = es.map (Prod.map id settled) :=
  eq_map rfl (fun _ _ => rfl) es

theorem toJsonItems_eq (xs : List Plain) : toJsonItems xs = xs.map toJson :=
  eq_map rfl (fun _ _ => rfl) xs

theorem toJsonEntries_eq (es : List (Text × Plain)) :
    toJsonEntries es = es.map (Prod.map id toJson) :=
  eq_map rfl (fun _ _ => rfl) es

theorem settled_array (xs : List Plain) : (array xs).settled = .array (xs.map settled) := by
  rw [settled, settledItems_eq]

theorem settled_record (es : List (Text × Plain)) :
    (record es).settled = .record ((Record.entries es).map (Prod.map id settled)) := by
  rw [settled, settledEntries_eq, Record.entries_map]

theorem toJson_array (xs : List Plain) :
    (array xs).toJson = (firstRefusal (xs.map toJson)).map .array := by
  rw [toJson, toJsonItems_eq]

theorem toJson_record (es : List (Text × Plain)) :
    (record es).toJson = (firstRefusal ((Record.entries es).map (keyed ∘ Prod.map id toJson))).map
      .object := by
  rw [toJson, toJsonEntries_eq, Record.entries_map, List.map_map]

end Plain

namespace Json

/-! ### Documents -/

/-- Induction over trees, for all elements of an array and all members of an object at once. -/
theorem inductionOn {P : Json → Prop} (v : Json) (null : P .null) (bool : ∀ b, P (.bool b))
    (number : ∀ t, P (.number t)) (string : ∀ t, P (.string t))
    (array : ∀ xs, (∀ x ∈ xs, P x) → P (.array xs))
    (object : ∀ ms, (∀ m ∈ ms, P m.2) → P (.object ms)) : P v :=
  @Json.rec P (fun xs => ∀ x ∈ xs, P x) (fun ms => ∀ m ∈ ms, P m.2) (fun m => P m.2)
    null bool number string array object
    (fun _ h => absurd h List.not_mem_nil) (fun _ _ hx hxs => List.forall_mem_cons.mpr ⟨hx, hxs⟩)
    (fun _ h => absurd h List.not_mem_nil) (fun _ _ hm hms => List.forall_mem_cons.mpr ⟨hm, hms⟩)
    (fun _ _ h => h) v

theorem toPlainElements_eq (xs : List Json) : toPlainElements xs = xs.map toPlain :=
  eq_map rfl (fun _ _ => rfl) xs

theorem toPlainMembers_eq (ms : List (Text × Json)) :
    toPlainMembers ms = ms.map (Prod.map id toPlain) :=
  eq_map rfl (fun _ _ => rfl) ms

theorem toPlain_array (xs : List Json) : (array xs).toPlain = .array (xs.map toPlain) := by
  rw [toPlain, toPlainElements_eq]

theorem toPlain_object (ms : List (Text × Json)) :
    (object ms).toPlain =
      .record ((Record.arranged (Members.firsts ms)).map (Prod.map id toPlain)) := by
  rw [toPlain, toPlainMembers_eq, Record.arranged_firsts_map]

/-- The data of a document is given as it is listed. -/
theorem settled_toPlain (v : Json) : v.toPlain.Settled := by
  induction v using inductionOn with
  | null | bool | number | string => trivial
  | array xs ih =>
      rw [toPlain_array, Plain.settled_array_iff, List.forall_mem_map]
      exact ih
  | object ms ih =>
      rw [toPlain_object, Plain.settled_record_iff, List.forall_mem_map, Members.keys_map]
      exact ⟨Record.listed_arranged_firsts ms,
        fun m hm => ih m (Record.arranged_firsts_subset ms hm)⟩

end Json

end JsonDocument
