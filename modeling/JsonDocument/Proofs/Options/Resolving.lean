import JsonDocument.Proofs.Options.Fields
import JsonDocument.Proofs.Plain.Entries
import JsonDocument.Proofs.Store.Trees

/-!
# Proofs — Options — settings from what is given

Of what is given only the fields of the schema count, each by itself, whatever stands beside it and
in whichever order, and whether it is listed or not.  The keys that are listed and not known are
warned of whether this succeeds or not, and in the order in which what is given lists them.

* `Gives`: what is given under each key.
* `Schema.Resolves`: what resolving settings comes to, clause by clause.
* `Schema.Checks`: all that a schema must do for this; `Schema.Checks.resolves` concludes it, and
  another schema needs no more.
* `checks_read`, `checks_write`: the schemas do.
* `resolve_goes_by_fields`: all settings.
-/

namespace JsonDocument

variable {α : Type}

/-- The key of a field. -/
def Field.key (f : Field) : Text := Text.ofString f.name

/-! ### What is given -/

/-- What is given under each key, by nothing and by objects.  What was assigned to a key last
counts, and own entries before all else that is found in an object. -/
inductive Gives : Given → (Text → Option Plain) → Prop where
  | nothing : Gives .nothing fun _ => none
  | object (own hidden : List (Text × Plain)) :
      Gives (.object own hidden) fun key =>
        (own.reverse.lookup key).or (hidden.reverse.lookup key)

/-- The entries that what is given lists. -/
def Given.own : Given → List (Text × Plain)
  | nothing | null => []
  | object own _ | other _ own => own

/-- The settings for reading by field, in the order of the schema. -/
def ReadOptions.values (o : ReadOptions) : List (Field × Setting) :=
  [(.maxDepth, .integer o.maxDepth)]

/-- The settings for writing by field, in the order of the schema. -/
def WriteOptions.values (o : WriteOptions) : List (Field × Setting) :=
  [(.pretty, .truth o.pretty), (.indent, .integer o.indent),
    (.escapeSolidus, .truth o.escapeSolidus)]

/-- An object of these fields with these values, in this order and with nothing else. -/
def Represents (o : Given) (values : List (Field × Setting)) : Prop :=
  ∃ es, o = .object es [] ∧
    List.Forall₂ (fun p e => e.1 = p.1.key ∧ p.1.Takes e.2 p.2) values es

namespace Schema

variable {s : Schema α} {values : α → List (Field × Setting)} {o : Given}
  {given : Text → Option Plain}

/-- A key is known if it is that of a field or a name that every record answers to. -/
def Known (s : Schema α) (key : Text) : Prop :=
  key ∈ s.fields.map Field.key ∨ key ∈ inheritedNames.map Text.ofString

instance (s : Schema α) (key : Text) : Decidable (s.Known key) :=
  inferInstanceAs (Decidable (_ ∨ _))

/-- What resolving settings comes to, where `values` are those of a result by field. -/
structure Resolves (s : Schema α) (values : α → List (Field × Setting)) (o : Given) :
    Prop where
  /-- It succeeds just if what is given has fields, or is nothing, and each field has a value. -/
  succeeds : (∃ r, (s.resolve o).2 = .ok r) ↔
    ∃ given, Gives o given ∧ ∀ f ∈ s.fields, ∃ a, f.Yields (given f.key) a
  /-- The result has the value of each field, what is given for it or its default. -/
  result : ∀ r, (values r).map Prod.fst = s.fields ∧ ((s.resolve o).2 = .ok r ↔
    ∃ given, Gives o given ∧ ∀ p ∈ values r, p.1.Yields (given p.1.key) p.2)
  /-- What stands beside the fields, and in which order, does not matter. -/
  fieldsOnly : ∀ o' given given', Gives o given → Gives o' given' →
    (∀ f ∈ s.fields, given' f.key = given f.key) → (s.resolve o').2 = (s.resolve o).2
  /-- A result can be given again; it is then the result, and nothing is warned of. -/
  again : ∀ r, (s.resolve o).2 = .ok r → (∃ d, Represents d (values r)) ∧
    ∀ d, Represents d (values r) → s.resolve d = ([], .ok r)
  /-- What is found wrong is reported field by field in the order of the schema; where what is given
  has no fields, that is reported alone. -/
  fails : ∀ e, (s.resolve o).2 = .error e → ∃ issues, e = .invalid issues ∧
    ((∃ given, ∃ found : Field → List String, Gives o given ∧
        (∀ f ∈ s.fields, f.Finds (given f.key) (found f)) ∧
        issues.map Issue.reported = s.fields.flatMap fun f => (found f).map (f.name, ·)) ∨
      ∃ name own, o = .other name own ∧ issues.map Issue.reported =
        [("", "Invalid input: expected object, received " ++ name)])
  /-- There is a warning for each key that is not known, in the order of listing. -/
  warns : ∃ ks, Record.ListingOf (Members.keys o.own) ks ∧
    (s.resolve o).1.map (fun w => (w.message, w.key)) =
      (ks.filter fun k => ¬ s.Known k).map ("[json] Ignoring unknown " ++ s.subject ++ " option", ·)

/-! ### Schemas -/

/-- The check of a schema goes by its fields, each of which is judged by itself. -/
structure Checks (s : Schema α) (values : α → List (Field × Setting)) : Prop where
  nodup : s.fields.Nodup
  fields : ∀ r, (values r).map Prod.fst = s.fields
  ok : ∀ given r, s.check given = .ok r ↔ ∀ p ∈ values r, p.1.Yields (given p.1) p.2
  complete : ∀ given, (∀ f ∈ s.fields, ∃ a, f.Yields (given f) a) → ∃ r, s.check given = .ok r
  issues : ∀ given, ∃ found : Field → List String, (∀ f ∈ s.fields, f.Finds (given f) (found f)) ∧
    (issuesOf (s.check given)).map Issue.reported =
      s.fields.flatMap fun f => (found f).map (f.name, ·)
  congr : ∀ given given', (∀ f ∈ s.fields, given' f = given f) → s.check given' = s.check given

theorem issuesOf_map {β : Type} (g : α → β) (r : Checked α) : issuesOf (r.map g) = issuesOf r := by
  cases r <;> rfl

theorem checks_read : ReadOptions.schema.Checks ReadOptions.values := by
  have hdepth := fun o => show Judged .maxDepth o .integer
    (checkField 512 (checkInteger .maxDepth 1 .notPositive) o) from judged_integer rfl rfl o
  refine ⟨by decide, fun r => rfl, fun given r => ?_, fun given h => ?_, fun given => ?_,
    fun given given' h => ?_⟩
  · simp only [ReadOptions.values, List.forall_mem_singleton, ← (hdepth _).ok]
    rw [ReadOptions.schema, map_eq_ok]
    constructor
    · rintro ⟨n, hn, rfl⟩
      exact hn
    · exact fun h => ⟨_, h, rfl⟩
  · obtain ⟨a, ha⟩ := h .maxDepth (List.mem_singleton.mpr rfl)
    obtain ⟨n, hn⟩ := (hdepth _).complete a ha
    exact ⟨⟨n⟩, map_eq_ok.mpr ⟨n, hn, rfl⟩⟩
  · obtain ⟨messages, hfinds, hmessages⟩ := (hdepth (given .maxDepth)).issues
    refine ⟨fun _ => messages, ?_, ?_⟩
    · exact List.forall_mem_singleton.mpr hfinds
    · rw [ReadOptions.schema, issuesOf_map, hmessages]
      exact (List.append_nil _).symm
  · rw [ReadOptions.schema]
    simp only [h .maxDepth (List.mem_singleton.mpr rfl)]

/-- The results of the fields together: a result just if none of them is a failure. -/
def joined (pretty : Checked Bool) (indent : Checked Nat) (escapeSolidus : Checked Bool) :
    Checked WriteOptions :=
  match pretty, indent, escapeSolidus with
  | .ok pretty, .ok indent, .ok escapeSolidus => .ok ⟨pretty, indent, escapeSolidus⟩
  | _, _, _ => .error (issuesOf pretty ++ issuesOf indent ++ issuesOf escapeSolidus)

section

variable (p e : Checked Bool) (i : Checked Nat)

theorem joined_eq_ok {r : WriteOptions} :
    joined p i e = .ok r ↔ p = .ok r.pretty ∧ i = .ok r.indent ∧ e = .ok r.escapeSolidus := by
  obtain ⟨pretty, indent, escapeSolidus⟩ := r
  cases p <;> cases i <;> cases e <;> simp [joined]

theorem issuesOf_joined : issuesOf (joined p i e) = issuesOf p ++ issuesOf i ++ issuesOf e := by
  cases p <;> cases i <;> cases e <;> rfl

theorem check_write (given : Field → Option Plain) :
    WriteOptions.schema.check given =
      joined (checkField false (checkBool .pretty) (given .pretty))
        (checkField 2 (checkInteger .indent 0 .negative) (given .indent))
        (checkField false (checkBool .escapeSolidus) (given .escapeSolidus)) := rfl

end

theorem checks_write : WriteOptions.schema.Checks WriteOptions.values := by
  have hpretty := judged_truth (f := .pretty) rfl (d := false) rfl
  have hindent := fun o => show Judged .indent o .integer
    (checkField 2 (checkInteger .indent 0 .negative) o) from judged_integer rfl rfl o
  have hescape := judged_truth (f := .escapeSolidus) rfl (d := false) rfl
  have hfields : ∀ P : Field → Prop,
      (∀ f ∈ WriteOptions.schema.fields, P f) ↔ P .pretty ∧ P .indent ∧ P .escapeSolidus := by
    simp [WriteOptions.schema]
  refine ⟨by decide, fun r => rfl, fun given r => ?_, fun given h => ?_, fun given => ?_,
    fun given given' h => ?_⟩
  · rw [check_write, joined_eq_ok, (hpretty _).ok, (hindent _).ok, (hescape _).ok]
    simp [WriteOptions.values]
  · obtain ⟨⟨a, ha⟩, ⟨b, hb⟩, ⟨c, hc⟩⟩ := (hfields _).mp h
    obtain ⟨pretty, hp⟩ := (hpretty _).complete a ha
    obtain ⟨indent, hi⟩ := (hindent _).complete b hb
    obtain ⟨escapeSolidus, he⟩ := (hescape _).complete c hc
    exact ⟨⟨pretty, indent, escapeSolidus⟩, (joined_eq_ok ..).mpr ⟨hp, hi, he⟩⟩
  · obtain ⟨ps, hps, hp⟩ := (hpretty (given .pretty)).issues
    obtain ⟨is, his, hi⟩ := (hindent (given .indent)).issues
    obtain ⟨es, hes, he⟩ := (hescape (given .escapeSolidus)).issues
    refine ⟨fun | .pretty => ps | .indent => is | _ => es, (hfields _).mpr ⟨hps, his, hes⟩, ?_⟩
    rw [check_write, issuesOf_joined, List.map_append, List.map_append, hp, hi, he]
    simp [WriteOptions.schema]
  · obtain ⟨hp, hi, he⟩ := (hfields _).mp h
    rw [check_write, check_write, hp, hi, he]

/-! ### Keys -/

theorem knows_iff {key : Text} : s.knows key = true ↔ s.Known key := by
  rw [knows, List.any_append, Bool.or_eq_true, List.any_eq_true, List.any_eq_true, Known,
    List.mem_map, List.mem_map]
  simp [Field.key]

theorem warnings_eq (own : List (Text × Plain)) : s.warnings own =
    ((Members.keys (Record.entries own)).filter fun k => ¬ s.Known k).map (⟨s.subject, ·⟩) := by
  have hknown : (fun k => !s.knows k) = fun k => decide (¬ s.Known k) := by
    funext k
    rw [Bool.eq_iff_iff, Bool.not_eq_true', decide_eq_true_iff, ← knows_iff, Bool.not_eq_true]
  rw [warnings, hknown]

theorem resolve_warnings (ho : o ≠ .null) : (s.resolve o).1 = s.warnings o.own := by
  cases o with
  | null => exact absurd rfl ho
  | object | other => rfl
  | nothing =>
      have hentries : Record.entries ([] : List (Text × Plain)) = [] := List.mergeSort_nil
      rw [Given.own, warnings, hentries]
      rfl

/-! ### Outcomes -/

/-- Where something is given for fields the check of the schema decides. -/
theorem outcome_of_gives (h : Gives o given) :
    (s.resolve o).2 = (s.check fun f => given f.key).mapError .invalid := by
  cases h with
  | nothing => rfl
  | object own hidden =>
      have hfield : Given.field own hidden = fun f =>
          (own.reverse.lookup f.key).or (hidden.reverse.lookup f.key) := by
        funext f
        rw [Given.field, Record.lookup_entries, Record.lookup_entries]
        rfl
      rw [resolve, hfield]

/-- All else that can be given but null is no object. -/
theorem gives_or_other (ho : o ≠ .null) :
    (∃ given, Gives o given) ∨ ∃ name own, o = .other name own := by
  cases o with
  | null => exact absurd rfl ho
  | nothing => exact .inl ⟨_, .nothing⟩
  | object own hidden => exact .inl ⟨_, .object own hidden⟩
  | other name own => exact .inr ⟨name, own, rfl⟩

theorem Checks.result (h : s.Checks values) (ho : o ≠ .null) (r : α) :
    (s.resolve o).2 = .ok r ↔
      ∃ given, Gives o given ∧ ∀ p ∈ values r, p.1.Yields (given p.1.key) p.2 := by
  constructor
  · intro hr
    rcases gives_or_other ho with ⟨given, hg⟩ | ⟨name, own, rfl⟩
    · rw [outcome_of_gives hg, mapError_eq_ok, h.ok] at hr
      exact ⟨given, hg, hr⟩
    · nomatch hr
  · rintro ⟨given, hg, hr⟩
    rw [outcome_of_gives hg, mapError_eq_ok, h.ok]
    exact hr

theorem Checks.succeeds (h : s.Checks values) (ho : o ≠ .null) :
    (∃ r, (s.resolve o).2 = .ok r) ↔
      ∃ given, Gives o given ∧ ∀ f ∈ s.fields, ∃ a, f.Yields (given f.key) a := by
  constructor
  · rintro ⟨r, hr⟩
    obtain ⟨given, hg, hr⟩ := (h.result ho r).mp hr
    refine ⟨given, hg, fun f hf => ?_⟩
    rw [← h.fields r, List.mem_map] at hf
    obtain ⟨p, hp, rfl⟩ := hf
    exact ⟨p.2, hr p hp⟩
  · rintro ⟨given, hg, hfields⟩
    obtain ⟨r, hr⟩ := h.complete _ hfields
    exact ⟨r, by rw [outcome_of_gives hg, hr]; rfl⟩

theorem Checks.fails (h : s.Checks values) (ho : o ≠ .null) {e : OptionsError}
    (he : (s.resolve o).2 = .error e) : ∃ issues, e = .invalid issues ∧
      ((∃ given, ∃ found : Field → List String, Gives o given ∧
        (∀ f ∈ s.fields, f.Finds (given f.key) (found f)) ∧
        issues.map Issue.reported = s.fields.flatMap fun f => (found f).map (f.name, ·)) ∨
      ∃ name own, o = .other name own ∧ issues.map Issue.reported =
        [("", "Invalid input: expected object, received " ++ name)]) := by
  rcases gives_or_other ho with ⟨given, hg⟩ | ⟨name, own, rfl⟩
  · obtain ⟨found, hfound, hissues⟩ := h.issues fun f => given f.key
    rw [outcome_of_gives hg] at he
    cases hcheck : s.check fun f => given f.key with
    | ok r => rw [hcheck] at he; nomatch he
    | error issues =>
        rw [hcheck] at he hissues
        cases he
        exact ⟨issues, rfl, .inl ⟨given, found, hg, hfound, hissues⟩⟩
  · cases he
    exact ⟨_, rfl, .inr ⟨name, own, rfl, rfl⟩⟩

/-! ### Results given again -/

theorem keys_of_represented {vs : List (Field × Setting)} {es : List (Text × Plain)}
    (h : List.Forall₂ (fun p e => e.1 = p.1.key ∧ p.1.Takes e.2 p.2) vs es) :
    Members.keys es = vs.map fun p => p.1.key := by
  induction h with
  | nil => rfl
  | cons hp _ ih => exact congrArg₂ List.cons hp.1 ih

theorem key_injective : Function.Injective Field.key := by
  intro f g h
  cases f <;> cases g <;> first | rfl | exact absurd h (by decide)

/-- Values that fields take can be given, and come out again. -/
theorem Checks.again (h : s.Checks values) {r : α} (hr : ∀ p ∈ values r, ∃ v, p.1.Takes v p.2) :
    (∃ d, Represents d (values r)) ∧
      ∀ d, Represents d (values r) → s.resolve d = ([], .ok r) := by
  constructor
  · obtain ⟨es, hes⟩ := exists_forall₂
      (R := fun p (e : Text × Plain) => e.1 = p.1.key ∧ p.1.Takes e.2 p.2)
      fun p hp => (hr p hp).elim fun v hv => ⟨(p.1.key, v), rfl, hv⟩
    exact ⟨.object es [], es, rfl, hes⟩
  · rintro d ⟨es, rfl, hes⟩
    have hkeys : Members.keys es = s.fields.map Field.key := by
      rw [keys_of_represented hes, ← h.fields r, List.map_map]
      rfl
    have hnodup : (Members.keys es.reverse).Nodup := by
      have hes : (Members.keys es).Nodup := by
        rw [hkeys]
        exact h.nodup.map key_injective
      rwa [Members.keys, List.map_reverse, List.nodup_reverse]
    have hwarnings : s.warnings es = [] := by
      rw [warnings_eq, List.map_eq_nil_iff, List.filter_eq_nil_iff]
      intro k hk
      rw [decide_eq_true_iff, not_not]
      exact .inl (hkeys ▸ ((Record.listingOf_entries es).mem_iff k).mp hk)
    have hok : (s.resolve (.object es [])).2 = .ok r := by
      rw [outcome_of_gives (.object es []), mapError_eq_ok, h.ok]
      intro p hp
      obtain ⟨e, he, hkey, htakes⟩ := exists_of_forall₂ hes hp
      have hlookup : es.reverse.lookup p.1.key = some e.2 :=
        (Members.lookup_eq_some_iff_mem hnodup).mpr (List.mem_reverse.mpr (hkey ▸ he))
      rw [hlookup]
      exact .given htakes
    exact Prod.ext hwarnings hok

/-- Where the check of a schema goes by its fields, resolving does. -/
theorem Checks.resolves (h : s.Checks values) (ho : o ≠ .null) : s.Resolves values o where
  succeeds := h.succeeds ho
  result r := ⟨h.fields r, h.result ho r⟩
  fieldsOnly o' given given' hg hg' hfields := by
    rw [outcome_of_gives hg, outcome_of_gives hg', h.congr _ _ hfields]
  again r hr := by
    obtain ⟨given, -, hyields⟩ := (h.result ho r).mp hr
    exact h.again fun p hp => (hyields p hp).exists_taken
  fails e he := h.fails ho he
  warns := by
    refine ⟨_, Record.listingOf_entries o.own, ?_⟩
    rw [resolve_warnings ho, warnings_eq, List.map_map]
    rfl

end Schema

/-- **Settings go by their fields.**  Whatever is given but null, settings for reading and for
writing are resolved just if it is nothing, or has fields of which each is missing, absent or taken:
the depth as an integer from 1, the indent as one from 0, both up to `2 ^ 53 - 1`, and the others as
truth values.  The settings have what is given and else the defaults, and do not depend on other
keys or on the order of keys; given again they come out again, without a warning.  Where this fails
what is wrong is reported in the order of the schema.  Either way there is one warning for each key
that is listed, that is no field and that is no name to which every record answers, in the order of
listing. -/
theorem resolve_goes_by_fields (o : Given) (ho : o ≠ .null) :
    ReadOptions.schema.Resolves ReadOptions.values o ∧
      WriteOptions.schema.Resolves WriteOptions.values o :=
  ⟨Schema.checks_read.resolves ho, Schema.checks_write.resolves ho⟩

/-- What an object lists: keys that are no settings, and two of the wrong kind. -/
def ownSettings : List (Text × Plain) :=
  [(Text.ofString "zeta", .null), (Text.ofString "indent", .double ⟨0x3FF8000000000000⟩),
    (Text.ofString "10", .null), (Text.ofString "toString", .null), (Text.ofString "9", .null),
    (Text.ofString "pretty", .string [])]

/-- What it has from its class: more of both kinds, and one key again. -/
def hiddenSettings : List (Text × Plain) :=
  [(Text.ofString "maxDepth", .double ⟨0x433FFFFFFFFFFFFF⟩), (Text.ofString "eta", .null),
    (Text.ofString "pretty", .bool true)]

/-- Documents are read with the depth that the object has from its class, and only of what it lists
is warned; they are not written, and what is wrong is reported in the order of the schema. -/
theorem resolve_goes_by_fields_hidden :
    Given.object ownSettings hiddenSettings ≠ .null ∧
      (ReadOptions.schema.resolve (.object ownSettings hiddenSettings)).2 =
        .ok ⟨9007199254740991⟩ ∧
      (ReadOptions.schema.resolve (.object ownSettings hiddenSettings)).1.map
          (fun w => (w.message, w.key)) =
        ["9", "10", "zeta", "indent", "pretty"].map
          ("[json] Ignoring unknown parse option", Text.ofString ·) ∧
      ∃ issues,
        (WriteOptions.schema.resolve (.object ownSettings hiddenSettings)).2 =
          .error (.invalid issues) ∧
        issues.map Issue.reported =
          [("pretty", "Invalid input: expected boolean, received string"),
            ("indent", "Invalid input: expected int, received number")] := by
  have hobject : Given.object ownSettings hiddenSettings ≠ .null := nofun
  have hgives : Gives (.object ownSettings hiddenSettings) fun key =>
    (ownSettings.reverse.lookup key).or (hiddenSettings.reverse.lookup key) := .object _ _
  obtain ⟨hread, hwrite⟩ := resolve_goes_by_fields _ hobject
  have hpretty : Field.pretty.Finds ((ownSettings.reverse.lookup (Field.key .pretty)).or
      (hiddenSettings.reverse.lookup (Field.key .pretty)))
      ["Invalid input: expected boolean, received string"] := .notTruth rfl nofun nofun
  refine ⟨hobject, ?_, ?_, ?_⟩
  · obtain ⟨hfinite, hvalue⟩ := Binary64.toInt?_eq_some_iff.mp
      (show Binary64.toInt? ⟨0x433FFFFFFFFFFFFF⟩ = some 9007199254740991 by decide +kernel)
    refine (hread.result _).2.mpr ⟨_, hgives, List.forall_mem_singleton.mpr ?_⟩
    exact .given (.integer rfl hfinite hvalue (by decide) le_rfl)
  · obtain ⟨ks, hks, hwarns⟩ := hread.warns
    have hlisted : ks = ["9", "10", "zeta", "indent", "toString", "pretty"].map Text.ofString :=
      (hks.unique (Record.listingOf_entries ownSettings)).trans (by cbv)
    rw [hwarns, hlisted]
    decide
  · cases houtcome : (WriteOptions.schema.resolve (.object ownSettings hiddenSettings)).2 with
    | ok r =>
        obtain ⟨given, hg, hyields⟩ := (hwrite.result r).2.mp houtcome
        cases hg
        exact absurd (hyields (.pretty, .truth r.pretty) (.head _)) hpretty.not_yields
    | error e =>
        obtain ⟨issues, rfl, ⟨given, found, hg, hfound, hissues⟩ | ⟨name, own, hother, -⟩⟩ :=
          hwrite.fails e houtcome
        · cases hg
          have hindent : found .indent = ["Invalid input: expected int, received number"] := by
            refine (hfound .indent (by decide)).unique (.fraction rfl rfl fun n hn => ?_)
            have h : Binary64.toInt? ⟨0x3FF8000000000000⟩ = none := by decide +kernel
            rw [Binary64.toInt?_eq_some_iff.mpr ⟨rfl, hn⟩] at h
            exact absurd h (Option.some_ne_none n)
          have hescape : found .escapeSolidus = [] :=
            (hfound .escapeSolidus (by decide)).unique (.nothing .missing)
          refine ⟨issues, rfl, hissues.trans ?_⟩
          simp [WriteOptions.schema, (hfound .pretty (by decide)).unique hpretty, hindent, hescape,
            Field.name]
        · cases hother

end JsonDocument
