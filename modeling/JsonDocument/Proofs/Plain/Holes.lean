import Mathlib.Data.List.Lex
import JsonDocument.Plain.Sparse
import JsonDocument.Proofs.Plain.Refusing

/-!
# Proofs — Plain — data with holes

Nothing is made of data just if there is something in it, at whatever depth, that no document can
hold; a hole is no such thing.  A place is named by the positions on the way to it, those in a
record in the order in which it lists its keys; places are in lexicographic order, so what is met
first on a way through the data stands in the least place, and that is what is reported.  Where
there are holes what is made is a tree, but no document.

* `Sparse.at?`: what stands in a place.
* `Sparse.Becomes`: data beside what is made of it, apart from what stands in its places.
* `Sparse.convert_ok`, `Sparse.convert_error`: one step into data.
* `Sparse.rel_at?`: what stands in the places of the data and of what is made of it.
* `Sparse.json?_eq_none_iff`: holes in the data, and what is then made of it.
* `Sparse.convert_refuses_first`: all data.
-/

namespace JsonDocument

/-! ### Trees in which elements may be missing -/

namespace Ragged

/-- The places of an array, and those of the members of an object. -/
def places : Ragged → List (Option Ragged)
  | whole v => v.items.map fun x => some (whole x)
  | array xs => xs
  | object ms => (ms.map Prod.snd).map some

/-- What stands at the end of a path, which names a place at each step. -/
def at? : Ragged → List Nat → Option Ragged
  | v, [] => some v
  | v, i :: p => v.places[i]?.join.bind fun x => x.at? p

theorem json?_array (xs : List (Option Ragged)) :
    (array xs).json? = (xs.mapM fun x : Option Ragged => x.bind json?).map .array := by
  have hplaces : jsonPlaces xs = xs.map fun x : Option Ragged => x.bind json? :=
    eq_map rfl (fun x xs => by cases x <;> rfl) xs
  rw [json?, hplaces, List.mapM_map]
  rfl

theorem json?_object (ms : List (Text × Ragged)) :
    (object ms).json? = (ms.mapM (present ∘ Prod.map id json?)).map .object := by
  have hmembers : jsonMembers ms = ms.map (Prod.map id json?) := eq_map rfl (fun _ _ => rfl) ms
  rw [json?, hmembers, List.mapM_map]

/-- A tree is no document just if an element is missing in it, or something in it is none. -/
theorem json?_eq_none_iff (v : Ragged) :
    v.json? = none ↔ none ∈ v.places ∨ ∃ y, some y ∈ v.places ∧ y.json? = none := by
  cases v with
  | whole v => simp [json?, places]
  | array xs =>
      rw [json?_array, Option.map_eq_none_iff, mapM_eq_none_iff, places]
      constructor
      · rintro ⟨_ | y, hy, h⟩
        · exact .inl hy
        · exact .inr ⟨y, hy, h⟩
      · rintro (h | ⟨y, hy, h⟩)
        · exact ⟨none, h, rfl⟩
        · exact ⟨some y, hy, h⟩
  | object ms =>
      rw [json?_object, Option.map_eq_none_iff, mapM_eq_none_iff, places]
      constructor
      · rintro ⟨m, hm, h⟩
        exact .inr ⟨m.2, List.mem_map_of_mem (List.mem_map_of_mem hm), Option.map_eq_none_iff.mp h⟩
      · rintro (h | ⟨y, hy, h⟩)
        · simp at h
        · obtain ⟨m, hm, rfl⟩ : ∃ m ∈ ms, m.2 = y := by simpa using hy
          exact ⟨m, hm, Option.map_eq_none_iff.mpr h⟩

end Ragged

namespace Sparse

variable {d x : Sparse} {v : Ragged} {r : Refusal} {p q : List Nat} {message : String}
  {wanted : Kind}

/-! ### Places -/

/-- The places of an array, and those of what a record has under its keys, as it lists them. -/
def places : Sparse → List (Option Sparse)
  | whole d => d.items.map fun x => some (whole x)
  | array xs => xs
  | record es => ((Record.entries es).map Prod.snd).map some

/-- What stands at the end of a path, which names a place at each step. -/
def at? : Sparse → List Nat → Option Sparse
  | d, [] => some d
  | d, i :: p => d.places[i]?.join.bind fun x => x.at? p

theorem inductionOn {P : Sparse → Prop} (d : Sparse) (whole : ∀ d, P (.whole d))
    (array : ∀ xs, (∀ x, some x ∈ xs → P x) → P (.array xs))
    (record : ∀ es, (∀ e ∈ es, P e.2) → P (.record es)) : P d :=
  @Sparse.rec P (fun xs => ∀ x, some x ∈ xs → P x) (fun es => ∀ e ∈ es, P e.2)
    (fun o => ∀ x, o = some x → P x) (fun e => P e.2) whole array record
    (fun _ h => absurd h List.not_mem_nil)
    (fun _ _ hx hxs _ h => (List.mem_cons.mp h).elim (fun h => hx _ h.symm) (hxs _))
    (fun _ h => absurd h List.not_mem_nil) (fun _ _ he hes => List.forall_mem_cons.mpr ⟨he, hes⟩)
    (fun _ h => nomatch h) (fun _ hx _ h => Option.some.inj h ▸ hx) (fun _ _ h => h) d

/-- Induction over data, for all that stands in its places at once. -/
theorem inductionOnPlaces {P : Sparse → Prop} (d : Sparse)
    (places : ∀ d : Sparse, (∀ x, some x ∈ d.places → P x) → P d) : P d := by
  induction d using inductionOn with
  | whole d =>
      induction d using Plain.inductionOnItems with
      | items d ih =>
          refine places _ fun x hx => ?_
          obtain ⟨y, hy, h⟩ := List.mem_map.mp hx
          exact Option.some.inj h ▸ ih y hy
  | array xs ih => exact places _ ih
  | record es ih =>
      refine places _ fun x hx => ?_
      obtain ⟨y, hy, h⟩ := List.mem_map.mp hx
      obtain ⟨e, he, rfl⟩ := List.mem_map.mp (Record.mem_entries hy)
      exact Option.some.inj h ▸ ih e he

/-! ### One step -/

/-- What is made of a place. -/
def convertPlace : Option Sparse → Except Refusal (Option Ragged)
  | none => .ok none
  | some x => x.convert.map some

theorem convert_array (xs : List (Option Sparse)) :
    (array xs).convert = (firstRefusal (xs.map convertPlace)).map .array := by
  have hplaces : convertPlaces xs = xs.map convertPlace :=
    eq_map rfl (fun x xs => by cases x <;> rfl) xs
  rw [convert, hplaces]

theorem convert_record (es : List (Text × Sparse)) :
    (record es).convert =
      (firstRefusal ((Record.entries es).map (keyed ∘ Prod.map id convert))).map .object := by
  have hentries : convertEntries es = es.map (Prod.map id convert) := eq_map rfl (fun _ _ => rfl) es
  rw [convert, hentries, Record.entries_map, List.map_map]

/-- Data beside what is made of it, apart from what stands in its places.  Nothing is made of a
hole, and of everything else something. -/
inductive Becomes : Sparse → Ragged → Prop where
  | whole {d : Plain} {v : Json} (h : d.Becomes v) : Becomes (.whole d) (.whole v)
  | array {xs : List (Option Sparse)} {ys : List (Option Ragged)}
      (h : ys.map Option.isSome = xs.map Option.isSome) : Becomes (.array xs) (.array ys)
  | record {es : List (Text × Sparse)} {ms : List (Text × Ragged)}
      (h : Record.ListingOf (Members.keys es) (Members.keys ms)) :
      Becomes (.record es) (.object ms)

theorem isSome_of_convertPlace {x : Option Sparse} {y : Option Ragged}
    (h : convertPlace x = .ok y) : y.isSome = x.isSome := by
  cases x with
  | none => cases h; rfl
  | some x =>
      obtain ⟨v, -, rfl⟩ := map_eq_ok.mp h
      rfl

/-- Data of which something is made: so it is of all that stands in its places. -/
theorem convert_ok (h : d.convert = .ok v) :
    d.Becomes v ∧ List.Forall₂ (fun x y => convertPlace x = .ok y) d.places v.places := by
  cases d with
  | whole d =>
      obtain ⟨v, hv, rfl⟩ := map_eq_ok.mp h
      obtain ⟨hbecomes, hitems⟩ := Plain.toJson_ok hv
      refine ⟨.whole hbecomes, ?_⟩
      rw [places, Ragged.places, List.forall₂_map_left_iff, List.forall₂_map_right_iff]
      exact hitems.imp fun x y hy => by rw [convertPlace, convert, hy]; rfl
  | array xs =>
      rw [convert_array] at h
      obtain ⟨ys, hys, rfl⟩ := map_eq_ok.mp h
      have hplaces := forall₂_of_firstRefusal hys
      refine ⟨.array ?_, hplaces⟩
      rw [← List.forall₂_eq_eq_eq, List.forall₂_map_left_iff, List.forall₂_map_right_iff]
      exact (hplaces.imp fun x y hy => isSome_of_convertPlace hy).flip
  | record es =>
      rw [convert_record] at h
      obtain ⟨ms, hms, rfl⟩ := map_eq_ok.mp h
      obtain ⟨hkeys, hitems⟩ := members_of_firstRefusal hms
      refine ⟨.record ?_, ?_⟩
      · rw [hkeys]
        exact Record.listingOf_entries es
      · rw [places, Ragged.places, List.forall₂_map_left_iff, List.forall₂_map_right_iff]
        exact hitems.imp fun x y hy => by rw [convertPlace, hy]; rfl

/-- Data of which nothing is made is refused itself, or for what stands in the first of its places
of which nothing is made. -/
theorem convert_error (h : d.convert = .error r) :
    (∃ x, d = whole x ∧ x.Unfit r.message r.expected) ∨
      ∃ (i : Nat) (x : Sparse), d.places[i]? = some (some x) ∧ x.convert = .error r ∧
        ∀ j < i, ∀ y, d.places[j]? = some (some y) → ∃ v, y.convert = .ok v := by
  cases d with
  | whole d =>
      rcases Plain.toJson_error (map_eq_error.mp h) with hunfit | ⟨i, x, hx, hr, hbefore⟩
      · exact .inl ⟨d, rfl, hunfit⟩
      · refine .inr ⟨i, whole x, ?_, map_eq_error.mpr hr, fun j hj y hy => ?_⟩
        · rw [places, List.getElem?_map, hx]
          rfl
        · rw [places, List.getElem?_map, Option.map_eq_some_iff] at hy
          obtain ⟨z, hz, hy⟩ := hy
          obtain ⟨v, hv⟩ := hbefore j hj z hz
          exact ⟨.whole v, Option.some.inj hy ▸ map_eq_ok.mpr ⟨v, hv, rfl⟩⟩
  | array xs =>
      rw [convert_array] at h
      obtain ⟨i, x, hx, hr, hbefore⟩ := exists_of_firstRefusal (map_eq_error.mp h)
      cases x with
      | none => cases hr
      | some x =>
          refine .inr ⟨i, x, hx, map_eq_error.mp hr, fun j hj y hy => ?_⟩
          obtain ⟨v, hv⟩ := hbefore j hj _ hy
          obtain ⟨v, hv, -⟩ := map_eq_ok.mp hv
          exact ⟨v, hv⟩
  | record es =>
      rw [convert_record, firstRefusal_keyed] at h
      obtain ⟨i, x, hx, hr, hbefore⟩ :=
        exists_of_firstRefusal (map_eq_error.mp (map_eq_error.mp h))
      refine .inr ⟨i, x, ?_, hr, fun j hj y hy => ?_⟩
      · rw [places, List.getElem?_map, hx]
        rfl
      · rw [places, List.getElem?_map, Option.map_eq_some_iff] at hy
        obtain ⟨z, hz, hy⟩ := hy
        exact Option.some.inj hy ▸ hbefore j hj z hz

/-! ### All places -/

/-- What is made of data has its places, and in each what is made of the data there. -/
theorem rel_at? (h : d.convert = .ok v) (p : List Nat) :
    Option.Rel Becomes (d.at? p) (v.at? p) := by
  induction p generalizing d v with
  | nil => exact .some (convert_ok h).1
  | cons i p ih =>
      have hplaces := (convert_ok h).2
      rw [at?, Ragged.at?]
      cases hx : d.places[i]? with
      | none =>
          have hy : v.places[i]? = none := by
            rw [List.getElem?_eq_none_iff, ← hplaces.length_eq]
            exact List.getElem?_eq_none_iff.mp hx
          rw [hy]
          exact .none
      | some x =>
          obtain ⟨y, hy, hxy⟩ := forall₂_getElem? hplaces hx
          rw [hy]
          cases x with
          | none => cases hxy; exact .none
          | some x =>
              obtain ⟨y, hv, rfl⟩ := map_eq_ok.mp hxy
              exact ih hv

/-- In data of which something is made nothing is refused. -/
theorem not_unfit_at? (h : d.convert = .ok v) {x : Plain} (hx : d.at? p = some (whole x)) :
    ¬ x.Unfit message wanted := by
  intro hunfit
  have hrel := rel_at? h p
  rw [hx] at hrel
  cases hy : v.at? p with
  | none => rw [hy] at hrel; nomatch hrel
  | some y =>
      rw [hy] at hrel
      cases hrel with
      | some hb =>
          cases hb with
          | whole hb => exact hunfit.not_becomes hb

/-- What stands at the end of a path is refused, and nothing that stands before it is. -/
structure FirstRefused (d : Sparse) (p : List Nat) (message : String) (wanted : Kind) : Prop where
  refused : ∃ x, d.at? p = some (whole x) ∧ x.Unfit message wanted
  least : ∀ q y message wanted, d.at? q = some (whole y) → y.Unfit message wanted → p ≤ q

/-- What is refused first in the first of the places of which nothing is made is refused first in
the data. -/
theorem FirstRefused.of_place {i : Nat} (h : x.FirstRefused p message wanted)
    (hx : d.places[i]? = some (some x))
    (hbefore : ∀ j < i, ∀ y, d.places[j]? = some (some y) → ∃ v, y.convert = .ok v) :
    d.FirstRefused (i :: p) message wanted := by
  obtain ⟨y, hy, hunfit⟩ := h.refused
  refine ⟨⟨y, ?_, hunfit⟩, fun q z message wanted hq hz => ?_⟩
  · rw [at?, hx]
    exact hy
  cases q with
  | nil =>
      -- what has places is not refused itself
      cases hq
      rw [places, hz.items_eq_nil] at hx
      nomatch hx
  | cons j q =>
      rw [at?, Option.bind_eq_some_iff] at hq
      obtain ⟨c, hc, hq⟩ := hq
      rw [Option.join_eq_some_iff] at hc
      rcases Nat.lt_trichotomy i j with hij | rfl | hij
      · exact (List.cons_lt_cons_iff.mpr (.inl hij)).le
      · rw [hx] at hc
        cases hc
        exact List.cons_le_cons i (h.least q z _ _ hq hz)
      · obtain ⟨v, hv⟩ := hbefore j hij c hc
        exact absurd hz (not_unfit_at? hv hq)

/-- Of data of which nothing is made, what is refused first is reported. -/
theorem exists_firstRefused (h : d.convert = .error r) :
    ∃ p, d.FirstRefused p r.message r.expected := by
  induction d using inductionOnPlaces with
  | places d ih =>
      rcases convert_error h with ⟨x, rfl, hunfit⟩ | ⟨i, x, hx, hr, hbefore⟩
      · exact ⟨[], ⟨x, rfl, hunfit⟩, fun q _ _ _ _ _ => not_lt.mp (List.not_lt_nil q)⟩
      · obtain ⟨p, hp⟩ := ih x (List.mem_of_getElem? hx) hr
        exact ⟨i :: p, hp.of_place hx hbefore⟩

/-! ### Holes -/

/-- There is a hole in the data, at whatever depth. -/
def Holed (d : Sparse) : Prop := ∃ p x, d.at? p = some x ∧ none ∈ x.places

theorem holed_iff : d.Holed ↔ none ∈ d.places ∨ ∃ x, some x ∈ d.places ∧ x.Holed := by
  constructor
  · rintro ⟨_ | ⟨i, p⟩, y, hy, hnone⟩
    · cases hy
      exact .inl hnone
    · rw [at?, Option.bind_eq_some_iff] at hy
      obtain ⟨x, hx, hy⟩ := hy
      rw [Option.join_eq_some_iff] at hx
      exact .inr ⟨x, List.mem_of_getElem? hx, p, y, hy, hnone⟩
  · rintro (hnone | ⟨x, hx, p, y, hy, hnone⟩)
    · exact ⟨[], d, rfl, hnone⟩
    · obtain ⟨i, hi⟩ := List.mem_iff_getElem?.mp hx
      exact ⟨i :: p, y, by rw [at?, hi]; exact hy, hnone⟩

/-- What is made of data is a document just if there is no hole in the data. -/
theorem json?_eq_none_iff (h : d.convert = .ok v) : v.json? = none ↔ d.Holed := by
  induction d using inductionOnPlaces generalizing v with
  | places d ih =>
      have hplaces := (convert_ok h).2
      rw [v.json?_eq_none_iff, holed_iff]
      constructor
      · rintro (hnone | ⟨y, hy, hjson⟩)
        · obtain ⟨x, hx, hxy⟩ := exists_of_forall₂ hplaces.flip hnone
          cases x with
          | none => exact .inl hx
          | some x =>
              obtain ⟨z, -, hz⟩ := map_eq_ok.mp hxy
              nomatch hz
        · obtain ⟨x, hx, hxy⟩ := exists_of_forall₂ hplaces.flip hy
          cases x with
          | none => nomatch hxy
          | some x =>
              obtain ⟨z, hconvert, hz⟩ := map_eq_ok.mp hxy
              cases hz
              exact .inr ⟨x, hx, (ih x hx hconvert).mp hjson⟩
      · rintro (hnone | ⟨x, hx, hholed⟩)
        · obtain ⟨y, hy, hxy⟩ := exists_of_forall₂ hplaces hnone
          cases hxy
          exact .inl hy
        · obtain ⟨y, hy, hxy⟩ := exists_of_forall₂ hplaces hx
          obtain ⟨z, hconvert, rfl⟩ := map_eq_ok.mp hxy
          exact .inr ⟨z, hy, (ih x hx hconvert).mpr hholed⟩

/-- **What is refused is what is met first, and holes are passed over.**  Nothing is made of data
just if something in it is refused, at whatever depth: a double that is no finite number, something
absent, a function, a symbol, or an object of a class of its own.  What is then reported, with the
kind of value that was wanted instead, is said of the one that stands first, where the places of an
array are in their order and those of a record in the order in which it lists its keys.  All other
data becomes a tree place for place: scalars become scalars of their kind, arrays have an element
for each item, and records a member for each key, with the keys in the order of listing.  Holes are
not refused; they are places without an element, and the tree is a document just if there are none.
The order of listing does not depend on the code, and under each key a record has what was assigned
to it last. -/
theorem convert_refuses_first (d : Sparse) :
    ((∃ r, d.convert = .error r) ↔
      ∃ p x message wanted, d.at? p = some (whole x) ∧ x.Unfit message wanted) ∧
    (∀ r, d.convert = .error r → ∃ p, d.FirstRefused p r.message r.expected) ∧
    (∀ v, d.convert = .ok v → (∀ p, Option.Rel Becomes (d.at? p) (v.at? p)) ∧
      (v.json? = none ↔ d.Holed)) ∧
    ∀ es : List (Text × Sparse),
      Record.ListingOf (Members.keys es) (Members.keys (Record.entries es)) ∧
        ∀ key, (Record.entries es).lookup key = es.reverse.lookup key := by
  refine ⟨⟨?_, ?_⟩, fun r => exists_firstRefused, fun v h => ⟨rel_at? h, json?_eq_none_iff h⟩,
    fun es => ⟨Record.listingOf_entries es, fun key => Record.lookup_entries es⟩⟩
  · rintro ⟨r, hr⟩
    obtain ⟨p, ⟨x, hx, hunfit⟩, -⟩ := exists_firstRefused hr
    exact ⟨p, x, _, _, hx, hunfit⟩
  · rintro ⟨p, x, message, wanted, hx, hunfit⟩
    cases h : d.convert with
    | error r => exact ⟨r, rfl⟩
    | ok v => exact absurd hunfit (not_unfit_at? h hx)

/-- Of the keys `9` is listed first, with what was assigned to it last, then `10`, then `b`; the
hole under `10` is passed over. -/
example : (record [(Text.ofString "b", whole (.foreign .symbol)),
    (Text.ofString "10", array [none, some (whole (.foreign .function))]),
    (Text.ofString "9", whole (.foreign .absent)), (Text.ofString "9", whole .null)]).convert =
      .error (.foreign .function) := by cbv

/-- An array with nothing in its first place and one in its second. -/
def holedArray : Sparse := array [none, some (whole (.double ⟨0x3FF0000000000000⟩))]

/-- Of an array with a hole nothing is reported, and what is made of it is no document. -/
theorem holed_array_no_document :
    ¬ ∀ d : Sparse, (∃ r, d.convert = .error r) ∨ ∃ v t, d.convert = .ok v ∧ v.json? = some t := by
  intro h
  have hconvert : holedArray.convert =
      .ok (.array [none, some (.whole (.number (Literal.shortest ⟨0x3FF0000000000000⟩)))]) := rfl
  rcases h holedArray with ⟨r, hr⟩ | ⟨v, t, hv, ht⟩
  · rw [hconvert] at hr
    nomatch hr
  · rw [hconvert] at hv
    cases hv
    nomatch ht

end Sparse

end JsonDocument
