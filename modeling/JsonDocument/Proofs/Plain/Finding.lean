import JsonDocument.Proofs.Plain.Data
import JsonDocument.Proofs.Plain.Entries
import JsonDocument.Proofs.Session.Steps
import JsonDocument.Proofs.Store.Objects
import JsonDocument.Proofs.Store.Places

/-!
# Proofs — Plain — what is found in a document and in its data

A document and its plain data are looked into in the same way: by the index of an element, or by a
key, under which a document has the first of its members and a record its one entry.  At the end of
every path there is the data of what there is in the document (`follow?_toPlain`), so what is said
of one object and its record (`Json.EntriesOf`) is so at every depth.

* `Json.follow?`, `Plain.follow?`: what is found at the end of a path.
* `Json.EntriesOf`: the entries that an object has to have; `Json.Mirrors`, the same for every kind.
* `toPlain_agrees_with_find`: documents agree with their data.
-/

namespace JsonDocument

/-! ### Paths -/

/-- A step into a document or into plain data. -/
inductive Access where
  /-- To an element of an array. -/
  | element (index : Nat)
  /-- To what an object or a record has under a key. -/
  | member (key : Text)

/-- What is found in plain data; a record has one entry for a key. -/
def Plain.access? : Plain → Access → Option Plain
  | .array xs, .element i => xs[i]?
  | .record es, .member key => (Record.entries es).lookup key
  | _, _ => none

/-- What is found in a document; an object has its first member for a key. -/
def Json.access? : Json → Access → Option Json
  | .array xs, .element i => xs[i]?
  | v, .member key => v.find? key
  | _, .element _ => none

/-- What is found at the end of a path. -/
def Plain.follow? (d : Plain) (path : List Access) : Option Plain := path.foldlM Plain.access? d

/-- What is found at the end of a path. -/
def Json.follow? (v : Json) (path : List Access) : Option Json := path.foldlM Json.access? v

namespace Json

variable {v x : Json} {ms : List (Text × Json)} {es : List (Text × Plain)}

/-! ### One object -/

/-- The entries that an object with the members `ms` has: one for each key, indices first and the
others in order of first occurrence, each with the data of what is found. -/
structure EntriesOf (ms : List (Text × Json)) (es : List (Text × Plain)) : Prop where
  /-- The entries are in the order in which they are listed. -/
  listed : Record.entries es = es
  keys : ∃ ns : List Nat, ns.Pairwise (· < ·) ∧
    (∀ n, n ∈ ns ↔ n ≤ 4294967294 ∧ Text.ofString (toString n) ∈ Members.keys ms) ∧
    Members.keys es = ns.map (fun n => Text.ofString (toString n)) ++
      (Members.keys ms).eraseDups.filter fun k => (Record.index? k).isNone
  nodup : (Members.keys es).Nodup
  mem_keys : ∀ key, key ∈ Members.keys es ↔ key ∈ Members.keys ms
  lookup : ∀ key, es.lookup key = ((object ms).find? key).map toPlain

theorem entriesOf_toPlain (ms : List (Text × Json)) : EntriesOf ms
    ((Record.arranged (Members.firsts ms)).map (Prod.map id toPlain)) := by
  have hkeys : Members.keys ((Record.arranged (Members.firsts ms)).map (Prod.map id toPlain)) =
      Members.keys (Record.arranged (Members.firsts ms)) := Members.keys_map toPlain _
  have h := Record.listingOf_arranged (Members.nodup_keys_firsts ms) (Members.keys_firsts ms)
  refine ⟨?_, hkeys ▸ h.ordered, hkeys ▸ h.nodup, hkeys ▸ h.mem_iff, fun key => ?_⟩
  · rw [Record.entries_map, Record.entries_eq_self (Record.listed_arranged_firsts ms)]
  · rw [Members.lookup_map, Record.lookup_arranged (Members.nodup_keys_firsts ms),
      Members.lookup_firsts]
    rfl

/-- What the data of a document has to be. -/
inductive Mirrors : Json → Plain → Prop where
  | null : Mirrors .null .null
  | bool (b : Bool) : Mirrors (.bool b) (.bool b)
  | number (t : Text) : Mirrors (.number t) (.double (Literal.toDouble .zero t))
  | string (t : Text) : Mirrors (.string t) (.string t)
  | array (xs : List Json) : Mirrors (.array xs) (.array (xs.map toPlain))
  | object {ms : List (Text × Json)} {es : List (Text × Plain)} (h : EntriesOf ms es) :
      Mirrors (.object ms) (.record es)

theorem mirrors_toPlain (v : Json) : v.Mirrors v.toPlain := by
  cases v with
  | null => exact .null
  | bool b => exact .bool b
  | number t => exact .number t
  | string t => exact .string t
  | array xs => rw [toPlain_array]; exact .array xs
  | object ms => rw [toPlain_object]; exact .object (entriesOf_toPlain ms)

/-! ### Every depth -/

theorem access?_toPlain (v : Json) (a : Access) :
    v.toPlain.access? a = (v.access? a).map toPlain := by
  cases v with
  | null | bool | number | string => cases a <;> rfl
  | array xs =>
      rw [toPlain_array]
      cases a with
      | element i => exact List.getElem?_map
      | member key => rfl
  | object ms =>
      have h := entriesOf_toPlain ms
      rw [toPlain_object]
      cases a with
      | element i => rfl
      | member key => rw [Plain.access?, h.listed, h.lookup, access?]

/-- At the end of a path there is the data of what there is in the document. -/
theorem follow?_toPlain (v : Json) (path : List Access) :
    v.toPlain.follow? path = (v.follow? path).map toPlain := by
  unfold follow? Plain.follow?
  induction path generalizing v with
  | nil => rfl
  | cons a path ih =>
      rw [List.foldlM_cons, List.foldlM_cons, access?_toPlain]
      cases v.access? a with
      | none => rfl
      | some x => exact ih x

end Json

/-! ### Live documents -/

/-- What is found in a node is what is found in its tree. -/
theorem Store.Closed.find?_treeOf {s : Store} {n : NodeId} {v : Json} (hs : s.Closed)
    (h : s.treeOf n = .ok v) (key : Text) :
    (s.find? n key).map s.treeOf = (v.find? key).map .ok := by
  cases hms : s.membersOf n with
  | ok r =>
      obtain ⟨us, rfl, htrees⟩ := (treeOf_object_iff hs hms).mp h
      rw [← lookup_memberTrees, htrees]
      exact Members.lookup_map _ us
  | error e =>
      have hkind := (shows_of_treeOf h).kindOf
      have hnone : v.find? key = none := by
        cases v with
        | null | bool | number | string | array => rfl
        | object ms =>
            obtain ⟨r, hr⟩ := exists_membersOf_iff.mpr hkind
            rw [hms] at hr
            cases hr
      rw [hnone, find?, hms]
      rfl

open Json in
/-- **The data of a document agrees with what is found in it.**  On every path the data is that of
what the document has there.  Everywhere in the document scalars and arrays are kept, with a number
as its double, and a record has the distinct keys of the members, array indices first and ascending
and the others in order of first occurrence, and under each key the data of the member that is
found; no key is treated otherwise.  A node with this tree is converted to this data, and what is
found in it under a key is a node whose tree is the one that is found in the document. -/
theorem toPlain_agrees_with_find (v : Json) :
    (∀ path, v.toPlain.follow? path = (v.follow? path).map toPlain) ∧
    (∀ p x, v.at? p = some x → x.Mirrors x.toPlain) ∧
    (∀ key n, Record.index? key = some n ↔ n ≤ 4294967294 ∧ Text.ofString (toString n) = key) ∧
    ∀ start n, let w := Session.empty.after start
      w.store.treeOf n = .ok v →
        (∀ on, w.node on = .ok n → (w.run (.act on .plain)).1.outcome = .ok (.plain v.toPlain)) ∧
        ∀ key, (w.store.find? n key).map w.store.treeOf = (v.find? key).map .ok := by
  refine ⟨follow?_toPlain v, fun p x _ => mirrors_toPlain x,
    fun key n => Record.index?_eq_some_iff, fun start n => ?_⟩
  intro w htree
  have hw : w.Closed := Session.closed_empty.after start
  refine ⟨fun on hon => ?_, hw.store.find?_treeOf htree⟩
  simp only [Session.run, Session.perform, Logged.ofExcept, Session.act, hon, htree, bind,
    Except.bind, pure, Except.pure]

/-- Repeated keys below a key. -/
def innerMembers : List (Text × Json) :=
  [(Text.ofString "toString", .bool false), (Text.ofString "toString", .null)]

/-- Repeated keys, one of which is an index, before an index that is smaller. -/
def repeatedMembers : List (Text × Json) :=
  [(Text.ofString "10", .null), (Text.ofString "__proto__", .bool true),
    (Text.ofString "10", .bool false), (Text.ofString "__proto__", .null),
    (Text.ofString "9", .object innerMembers)]

/-- The entries of the data. -/
def repeatedEntries : List (Text × Plain) :=
  [(Text.ofString "9", .record [(Text.ofString "toString", .bool false)]),
    (Text.ofString "10", .null), (Text.ofString "__proto__", .bool true)]

/-- The object is made and kept as `a`. -/
def repeatedRun : List Step :=
  [.create (.object [(Text.ofString "10", .null), (Text.ofString "__proto__", .bool true),
    (Text.ofString "10", .bool false), (Text.ofString "__proto__", .null),
    (Text.ofString "9", .object [(Text.ofString "toString", .bool false),
      (Text.ofString "toString", .null)])]) (some [97])]

/-- In the data each key has its first value, also below the keys, and that is what the node `a` is
converted to. -/
theorem toPlain_agrees_with_find_repeated :
    (Json.object repeatedMembers).toPlain = .record repeatedEntries ∧
      repeatedEntries.lookup (Text.ofString "10") = some .null ∧
      (Json.object repeatedMembers).toPlain.follow?
        [.member (Text.ofString "9"), .member (Text.ofString "toString")] = some (.bool false) ∧
      ((Session.empty.after repeatedRun).run (.act [97] .plain)).1.outcome =
        .ok (.plain (.record repeatedEntries)) := by
  have hinner : (Json.object innerMembers).toPlain =
      .record [(Text.ofString "toString", .bool false)] := by
    have hfirsts : Members.firsts innerMembers = [(Text.ofString "toString", .bool false)] := rfl
    rw [Json.toPlain_object, hfirsts, Record.arranged, List.mergeSort_singleton]
    rfl
  have hplain : (Json.object repeatedMembers).toPlain = .record repeatedEntries := by
    have hfirsts : Members.firsts repeatedMembers = [(Text.ofString "10", .null),
      (Text.ofString "__proto__", .bool true), (Text.ofString "9", .object innerMembers)] := rfl
    have harranged : Record.arranged [(Text.ofString "10", Json.null),
        (Text.ofString "__proto__", .bool true), (Text.ofString "9", .object innerMembers)] =
      [(Text.ofString "9", .object innerMembers), (Text.ofString "10", .null),
        (Text.ofString "__proto__", .bool true)] := by cbv
    rw [Json.toPlain_object, hfirsts, harranged]
    change Plain.record [(Text.ofString "9", (Json.object innerMembers).toPlain), _, _] = _
    rw [hinner]
    rfl
  obtain ⟨hfollow, hmirrors, -, hlive⟩ := toPlain_agrees_with_find (.object repeatedMembers)
  obtain ⟨hconverted, -⟩ := hlive repeatedRun ⟨7⟩ rfl
  have hentries := hmirrors [] _ rfl
  rw [hplain] at hentries
  refine ⟨hplain, ?_, (hfollow _).trans rfl, (hconverted [97] rfl).trans (by rw [hplain])⟩
  cases hentries with
  | object h => exact (h.lookup _).trans rfl

end JsonDocument
