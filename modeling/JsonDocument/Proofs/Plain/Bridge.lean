import JsonDocument.Proofs.Building
import JsonDocument.Proofs.Number.Shortest
import JsonDocument.Proofs.Plain.Data
import JsonDocument.Proofs.Writer

/-!
# Proofs — Plain — from plain data to a document and back

Both ways through the bridge, at every depth.  Plain data whose numbers are finite doubles
(`Plain.Portable`) becomes a document, and comes back as it was: with the same doubles, and with
every record listed as it was listed before (`Plain.settled`).  A document always becomes plain
data and a document again.  What does not come back is said by `Json.Canonical`: repeated keys,
keys out of the order of listing, and literals other than those written for their doubles.

* `Plain.toPlain_toJson`: plain data comes back.
* `Json.toJson_toPlain`: the document that comes back is `Json.canonical`.
* `Json.survives_iff_canonical`: which documents come back as they were.
-/

namespace JsonDocument

/-! ### Plain data comes back -/

namespace Plain

/-- Whatever is portable as it was assigned is so as it is listed. -/
theorem Portable.settled {d : Plain} (h : d.Portable) : d.settled.Portable := by
  induction d using inductionOn with
  | null | bool | string => trivial
  | double | integer | foreign => exact h
  | array xs ih =>
      rw [settled_array, portable_array, List.forall_mem_map]
      exact fun x hx => ih x hx (portable_array.mp h x hx)
  | record es ih =>
      rw [settled_record, portable_record, List.forall_mem_map]
      intro e he
      obtain ⟨e', he', heq⟩ := List.mem_map.mp (Record.mem_entries (List.mem_map_of_mem he))
      have hportable := ih e' he' (portable_record.mp h e' he')
      rwa [heq] at hportable

/-- What is given as it is listed is listed so. -/
theorem Settled.eq {d : Plain} (h : d.Settled) : d.settled = d := by
  induction d using inductionOn with
  | null | bool | double | integer | string | foreign => rfl
  | array xs ih =>
      rw [settled_array, map_eq_self_iff.mpr fun x hx => ih x hx (settled_array_iff.mp h x hx)]
  | record es ih =>
      obtain ⟨hlisted, hes⟩ := settled_record_iff.mp h
      have hvalues : es.map (Prod.map id settled) = es :=
        map_eq_self_iff.mpr fun e he => Prod.ext rfl (ih e he (hes e he))
      rw [settled_record, Record.entries_eq_self hlisted, hvalues]

theorem exists_toJson {d : Plain} (h : d.settled.Portable) :
    ∃ v, d.toJson = .ok v ∧ v.toPlain = d.settled := by
  induction d using inductionOn with
  | null => exact ⟨.null, rfl, rfl⟩
  | bool b => exact ⟨.bool b, rfl, rfl⟩
  | string t => exact ⟨.string t, rfl, rfl⟩
  | double x =>
      have hx : x.isFinite = true := h
      exact ⟨.number (Literal.shortest x), if_pos hx,
        congrArg Plain.double (Literal.toDouble_shortest hx .zero)⟩
  | integer | foreign => exact h.elim
  | array xs ih =>
      rw [settled_array, portable_array, List.forall_mem_map] at h
      obtain ⟨vs, hvs, hplain⟩ := exists_firstRefusal fun x hx => ih x hx (h x hx)
      refine ⟨.array vs, by rw [toJson_array, hvs]; rfl, ?_⟩
      rw [Json.toPlain_array, hplain, settled_array]
  | record es ih =>
      rw [settled_record, portable_record, List.forall_mem_map] at h
      have hes : ∀ e ∈ Record.entries es, ∃ m, (keyed ∘ Prod.map id toJson) e = .ok m ∧
          Prod.map id Json.toPlain m = Prod.map id Plain.settled e := by
        intro e he
        obtain ⟨e', he', heq⟩ := List.mem_map.mp (Record.mem_entries (List.mem_map_of_mem he))
        obtain ⟨v, hv, hplain⟩ := ih e' he' (heq ▸ h e he)
        rw [heq] at hv hplain
        exact ⟨(e.1, v), map_eq_ok.mpr ⟨v, hv, rfl⟩, Prod.ext rfl hplain⟩
      obtain ⟨ms, hms, hplain⟩ := exists_firstRefusal hes
      -- the members have the keys of the entries, so their order is that of listing
      have hlisted : Record.Listed (Members.keys ms) := by
        rw [← Members.keys_map Json.toPlain, hplain, Members.keys_map]
        exact Record.listed_entries es
      refine ⟨.object ms, by rw [toJson_record, hms]; rfl, ?_⟩
      rw [Json.toPlain_object, Record.arranged_firsts_eq_self hlisted, hplain, settled_record]

/-- **Plain data comes back.**  Portable data has a document, and the document has the data as it is
listed: the same doubles bit for bit, the same items, and the same keys in the same order.  Data
that is given as it is listed comes back as it was given. -/
theorem toPlain_toJson {d : Plain} (h : d.settled.Portable) :
    ∃ v, d.toJson = .ok v ∧ v.toPlain = d.settled ∧ v.toPlain.Settled ∧
      (d.Settled → v.toPlain = d) := by
  obtain ⟨v, hv, hplain⟩ := exists_toJson h
  exact ⟨v, hv, hplain, v.settled_toPlain, fun hsettled => hplain.trans hsettled.eq⟩

/-- One key assigned twice and indices behind other keys, one of which is too large for an index;
negative zero, the smallest double and half a surrogate pair. -/
def scattered : Plain :=
  .record [(Text.ofString "__proto__", .null), (Text.ofString "4294967295", .string [0xD800]),
    (Text.ofString "10", .array [.double ⟨0x8000000000000000⟩, .record [([], .double ⟨1⟩)]]),
    (Text.ofString "9", .bool true), (Text.ofString "__proto__", .double ⟨0x3FB999999999999A⟩)]

/-- The entries of that record. -/
def scatteredListing : Plain :=
  .record [(Text.ofString "9", .bool true),
    (Text.ofString "10", .array [.double ⟨0x8000000000000000⟩, .record [([], .double ⟨1⟩)]]),
    (Text.ofString "__proto__", .double ⟨0x3FB999999999999A⟩),
    (Text.ofString "4294967295", .string [0xD800])]

/-- They come back. -/
theorem toPlain_toJson_scattered :
    scattered.settled = scatteredListing ∧ scattered.settled.Portable ∧
      ∃ v, scattered.toJson = .ok v ∧ v.toPlain = scatteredListing ∧ v.toPlain.Settled := by
  have hlisting : scattered.settled = scatteredListing := by cbv
  have hportable : scattered.Portable :=
    ⟨trivial, trivial, trivial, ⟨rfl, ⟨trivial, rfl, trivial⟩, trivial⟩, trivial, rfl, trivial⟩
  obtain ⟨v, hv, hplain, hsettled, -⟩ := toPlain_toJson hportable.settled
  exact ⟨hlisting, hportable.settled, v, hv, hplain.trans hlisting, hsettled⟩

end Plain

/-! ### Which documents come back -/

namespace Json

mutual

/-- Every object has its keys in the order of listing and none twice, and every number has the
literal that is written for its double. -/
def Canonical : Json → Prop
  | null | bool _ | string _ => True
  | number t => (Plain.double (Literal.toDouble .zero t)).toJson = .ok (.number t)
  | array xs => CanonicalElements xs
  | object ms => Record.Listed (Members.keys ms) ∧ CanonicalMembers ms

def CanonicalElements : List Json → Prop
  | [] => True
  | x :: xs => Canonical x ∧ CanonicalElements xs

def CanonicalMembers : List (Text × Json) → Prop
  | [] => True
  | (_, x) :: ms => Canonical x ∧ CanonicalMembers ms

end

mutual

/-- The document that comes back. -/
def canonical : Json → Json
  | number t => .number (Literal.shortest (Literal.toDouble .zero t))
  | array xs => .array (canonicalElements xs)
  | object ms => .object (Record.arranged (Members.firsts (canonicalMembers ms)))
  | v => v

def canonicalElements : List Json → List Json
  | [] => []
  | x :: xs => canonical x :: canonicalElements xs

def canonicalMembers : List (Text × Json) → List (Text × Json)
  | [] => []
  | (k, x) :: ms => (k, canonical x) :: canonicalMembers ms

end

theorem canonicalElements_iff {xs : List Json} : CanonicalElements xs ↔ ∀ x ∈ xs, x.Canonical :=
  iff_forall trivial (fun _ _ => Iff.rfl) xs

theorem canonicalMembers_iff {ms : List (Text × Json)} :
    CanonicalMembers ms ↔ ∀ m ∈ ms, m.2.Canonical :=
  iff_forall trivial (fun _ _ => Iff.rfl) ms

theorem canonicalElements_eq (xs : List Json) : canonicalElements xs = xs.map canonical :=
  eq_map rfl (fun _ _ => rfl) xs

theorem canonicalMembers_eq (ms : List (Text × Json)) :
    canonicalMembers ms = ms.map (Prod.map id canonical) :=
  eq_map rfl (fun _ _ => rfl) ms

theorem canonical_array (xs : List Json) : (array xs).canonical = .array (xs.map canonical) := by
  rw [canonical, canonicalElements_eq]

theorem canonical_object (ms : List (Text × Json)) :
    (object ms).canonical =
      .object ((Record.arranged (Members.firsts ms)).map (Prod.map id canonical)) := by
  rw [canonical, canonicalMembers_eq, Record.arranged_firsts_map]

/-- A literal that has no double stands for zero, so it has a finite one. -/
theorem isFinite_value (t : Text) : (Literal.toDouble .zero t).isFinite = true :=
  Literal.isFinite_toDouble (by decide) t

/-- Every document becomes plain data and a document again. -/
theorem toJson_toPlain (v : Json) : v.toPlain.toJson = .ok v.canonical := by
  induction v using inductionOn with
  | null | bool | string => rfl
  | number t => rw [toPlain, Plain.toJson, if_pos (isFinite_value t), canonical]
  | array xs ih =>
      have hxs : firstRefusal (xs.map (Plain.toJson ∘ toPlain)) = .ok (xs.map canonical) :=
        firstRefusal_map ih
      rw [toPlain_array, Plain.toJson_array, List.map_map, hxs, canonical_array]
      rfl
  | object ms ih =>
      have hms : firstRefusal ((Record.arranged (Members.firsts ms)).map
          (keyed ∘ Prod.map id Plain.toJson ∘ Prod.map id toPlain)) =
            .ok ((Record.arranged (Members.firsts ms)).map (Prod.map id canonical)) := by
        refine firstRefusal_map fun m hm => map_eq_ok.mpr ⟨m.2.canonical, ?_, rfl⟩
        exact ih m (Record.arranged_firsts_subset ms hm)
      rw [toPlain_object, Plain.toJson_record, Record.entries_map,
        Record.entries_eq_self (Record.listed_arranged_firsts ms), List.map_map,
        Function.comp_assoc, hms, canonical_object]
      rfl

theorem canonical_eq_self_iff (v : Json) : v.canonical = v ↔ v.Canonical := by
  induction v using inductionOn with
  | null | bool | string => exact ⟨fun _ => trivial, fun _ => rfl⟩
  | number t =>
      rw [Canonical, Plain.toJson, if_pos (isFinite_value t), Except.ok.injEq, canonical]
  | array xs ih =>
      rw [canonical_array, array.injEq, map_eq_self_iff, Canonical, canonicalElements_iff]
      exact forall₂_congr ih
  | object ms ih =>
      have hvalues : ms.map (Prod.map id canonical) = ms ↔ ∀ m ∈ ms, m.2.Canonical := by
        rw [map_eq_self_iff]
        exact forall₂_congr fun m hm => Prod.ext_iff.trans ((and_iff_right rfl).trans (ih m hm))
      rw [canonical_object, object.injEq, Canonical, canonicalMembers_iff, ← hvalues]
      constructor
      · intro h
        have hlisted : Record.Listed (Members.keys ms) := by
          rw [← h, Members.keys_map]
          exact Record.listed_arranged_firsts ms
        rw [Record.arranged_firsts_eq_self hlisted] at h
        exact ⟨hlisted, h⟩
      · rintro ⟨hlisted, h⟩
        rw [Record.arranged_firsts_eq_self hlisted, h]

theorem canonical_canonical (v : Json) : v.canonical.Canonical := by
  induction v using inductionOn with
  | null | bool | string => trivial
  | number t =>
      have hfinite := isFinite_value t
      rw [canonical, Canonical, Literal.toDouble_shortest hfinite, Plain.toJson, if_pos hfinite]
  | array xs ih =>
      rw [canonical_array, Canonical, canonicalElements_iff, List.forall_mem_map]
      exact ih
  | object ms ih =>
      rw [canonical_object, Canonical, canonicalMembers_iff, List.forall_mem_map, Members.keys_map]
      exact ⟨Record.listed_arranged_firsts ms,
        fun m hm => ih m (Record.arranged_firsts_subset ms hm)⟩

/-- Every document becomes plain data and a document again.  That document is the first one just if
the first one is canonical; and it is canonical itself, so a second time nothing changes. -/
theorem survives_iff_canonical (v : Json) :
    ∃ w, v.toPlain.toJson = .ok w ∧ (w.equals v = true ↔ v.Canonical) ∧ w.Canonical ∧
      w.toPlain.toJson = .ok w := by
  have hcanonical := canonical_canonical v
  refine ⟨v.canonical, toJson_toPlain v, ?_, hcanonical, ?_⟩
  · rw [equals_iff]
    exact canonical_eq_self_iff v
  · rw [toJson_toPlain, (canonical_eq_self_iff _).mpr hcanonical]

/-- Zero keeps its sign in the literal that is written for it. -/
example : (number [0x2D, 0x30]).Canonical := rfl

end Json

end JsonDocument
