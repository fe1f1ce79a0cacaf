import JsonDocument.Proofs.Reader.Extension
import JsonDocument.Proofs.Session.Steps
import JsonDocument.Proofs.Store.Numbers
import JsonDocument.Proofs.Writer

/-!
# Proofs — Session — numbers stay valid

Only a literal that a step takes as it is given can be no number of the grammar.  Without such a
step every number in a session is valid, whatever else is done in it, and so the text that is
written for a node is read as its tree, or refused for one of the two reasons for which any written
tree may be: its nesting, or a high surrogate that is not paired.

* `Step.Checked`: the step takes no literal as it is given.
* `numbersValid_run`: what a step keeps.
* `written_reads_back`: what is written in a session of such steps.
-/

namespace JsonDocument

/-- The step takes no literal as it is given. -/
def Step.Checked : Step → Prop
  | .create recipe _ => recipe.Checked
  | .array _ _ | .object _ _ | .act _ _ | .write _ _ | .edit _ _ => True

/-- A written tree with valid numbers is read back, or refused where it is nested too deeply or has
a high surrogate that is not paired. -/
theorem readDocument_written {v : Json} (hv : v.NumbersValid) (o : WriteOptions) (d : Int) :
    readDocument d (Utf8.encode (v.write o)) = .ok v ∨
      ∃ e, readDocument d (Utf8.encode (v.write o)) = .error e ∧ e.reason.Lossy ∧
        (d < v.nesting ∨ ¬ v.HighsPaired) := by
  rw [readDocument_toNat]
  by_cases hfits : v.nesting ≤ d.toNat ∧ v.HighsPaired
  · exact .inl (readDocument_of_fits hv hfits.1 hfits.2 o)
  · have hroom : (0 : Int) ≤ d.toNat := Int.natCast_nonneg _
    have hlossy : ¬ ((v.nesting : Int) ≤ d.toNat ∧ v.HighsPaired) := by rwa [Int.ofNat_le]
    obtain ⟨stop, hstop, hr⟩ :=
      (Reader.run_writeTo o v 0 d.toNat [] [] hv hroom (Reader.avoids_nil _)).2 hlossy
    refine .inr ⟨⟨stop.reason, _⟩, by rw [readDocument_eq, Json.write, hstop]; rfl, hr, ?_⟩
    refine (not_and_or.mp hfits).imp_left fun hn => ?_
    omega

namespace Session

variable {w : Session} {s : Store} {step : Step}

/-! ### What a step keeps -/

theorem Brings.numbersValid {v : Json} (h : w.Brings step v) (hw : w.store.NumbersValid)
    (hstep : step.Checked) : v.NumbersValid := by
  cases h with
  | built h => exact Recipe.numbersValid_build _ hstep h
  | null => trivial
  | copy h => exact hw.treeOf h
  | array h =>
      refine Json.numbersValid_array.mpr fun v hv => ?_
      obtain ⟨n, hn⟩ := h v hv
      exact hw.treeOf hn
  | object h =>
      refine Json.numbersValid_object.mpr fun m hm => ?_
      obtain ⟨n, hn⟩ := h m hm
      exact hw.treeOf hn

theorem Alters.numbersValid (h : w.Alters step s) (hw : w.store.NumbersValid)
    (hstep : step.Checked) : s.NumbersValid := by
  cases h with
  | nothing => exact hw
  | made hv => exact hw.grow (hv.numbersValid hw hstep)
  | received hn hv h =>
      cases h with
      | mk hl hi hc => exact (hw.grow (hv.numbersValid hw hstep)).setItems
  | assigned hn h => exact hw.assign h
  | edited hl hi hsub => exact hw.setItems

theorem numbersValid_run (hw : w.store.NumbersValid) (hstep : step.Checked) :
    (w.run step).2.store.NumbersValid :=
  (alters_run w step).numbersValid hw hstep

theorem numbersValid_after {steps : List Step} (hw : w.store.NumbersValid)
    (hsteps : ∀ step ∈ steps, step.Checked) : (w.after steps).store.NumbersValid := by
  induction steps generalizing w with
  | nil => exact hw
  | cons step steps ih =>
      obtain ⟨hstep, hsteps⟩ := List.forall_mem_cons.mp hsteps
      exact ih (numbersValid_run hw hstep) hsteps

/-! ### What is written -/

/-- A step that writes a node answers with the text of its tree in some layout. -/
theorem written_of_run {on : Text} {settings : Given} {t : Text}
    (h : (w.run (.write on settings)).1.outcome = .ok (.text t)) :
    ∃ n v o, w.node on = .ok n ∧ w.store.treeOf n = .ok v ∧ t = v.write o := by
  unfold Session.run at h
  split at h
  · next hrun =>
      obtain ⟨n, hn, hrun⟩ := outcome_bind_eq_ok.mp (congrArg Logged.outcome hrun)
      obtain ⟨v, hv, hrun⟩ := outcome_bind_eq_ok.mp hrun
      obtain ⟨t', ht, hrun⟩ := outcome_bind_eq_ok.mp hrun
      obtain ⟨o, -, ht⟩ := outcome_bind_eq_ok.mp ht
      cases ht
      cases hrun
      cases h
      exact ⟨n, v, o, hn, hv, rfl⟩
  · cases h

/-- **What is written is read back.**  After any run in which no step takes a literal as it is
given, every number of every tree is one of the grammar, and the text that is written for a tree, in
any layout, is read as that tree; it is refused only for a nesting above the limit or for a high
surrogate that is not paired, and only where the tree has such a thing.  If there are no cycles,
every named node has a tree, and what a step writes is the text of such a tree.  The steps create
whatever an input is read as, under any settings. -/
theorem written_reads_back (steps : List Step) (hsteps : ∀ step ∈ steps, step.Checked) :
    let w := empty.after steps
    (∀ n v, w.store.treeOf n = .ok v → v.NumbersValid ∧ ∀ (o : WriteOptions) (d : Int),
      readDocument d (Utf8.encode (v.write o)) = .ok v ∨
        ∃ e, readDocument d (Utf8.encode (v.write o)) = .error e ∧ e.reason.Lossy ∧
          (d < v.nesting ∨ ¬ v.HighsPaired)) ∧
    (w.store.Acyclic → ∀ name n, w.node name = .ok n → ∃ v, w.store.treeOf n = .ok v) ∧
    (∀ on settings t, (w.run (.write on settings)).1.outcome = .ok (.text t) →
      ∃ n v o, w.node on = .ok n ∧ w.store.treeOf n = .ok v ∧ t = v.write o) ∧
    ∀ input settings v, (Document.read input settings).outcome = .ok v →
      ∃ r : Recipe, r.build = .ok v ∧ ∀ keep, (Step.create r keep).Checked := by
  intro w
  have hw : w.Closed := closed_empty.after steps
  have hnumbers : w.store.NumbersValid := numbersValid_after Store.numbersValid_empty hsteps
  refine ⟨fun n v hv => ⟨hnumbers.treeOf hv, readDocument_written (hnumbers.treeOf hv)⟩,
    fun ha name n hn => ?_, fun on settings t => written_of_run, fun input settings v hv => ?_⟩
  · exact ha.exists_treeOf hw.store (hw.has hn)
  · obtain ⟨r, hr, hbuild⟩ := Recipe.exists_build_iff.mpr (Document.numbersValid_read hv)
    exact ⟨r, hbuild, fun _ => hr⟩

/-- The array `a` of a double and an integer gets the double `b` through its live list. -/
def numberedRun : List Step :=
  [.create (.plain (.array [.double ⟨0x444B1AE4D6E2EF50⟩, .integer (-12)])) (some [97]),
    .create (.double ⟨0x3FE0000000000000⟩) (some [98]), .act [97] (.elements (some [108])),
    .edit [108] (.push none [98])]

/-- What `a` stands for then: `[1e+21,-12,0.5]`. -/
def numberedTree : Json :=
  .array [.number [0x31, 0x65, 0x2B, 0x32, 0x31], .number [0x2D, 0x31, 0x32],
    .number [0x30, 0x2E, 0x35]]

/-- Neither the exponent nor the fraction is in the way of reading the array back. -/
theorem written_reads_back_doubles :
    (∀ step ∈ numberedRun, step.Checked) ∧
      (empty.after numberedRun).store.treeOf ⟨2⟩ = .ok numberedTree ∧ numberedTree.NumbersValid ∧
      readDocument 1 (Utf8.encode numberedTree.compact) = .ok numberedTree := by
  have hsteps : ∀ step ∈ numberedRun, step.Checked := by
    simp [numberedRun, Step.Checked, Recipe.Checked]
  have htree : (empty.after numberedRun).store.treeOf ⟨2⟩ = .ok numberedTree := by
    have hequals : ((empty.after numberedRun).store.treeOf ⟨2⟩).toOption.any
        (·.equals numberedTree) = true := by decide +kernel
    cases h : (empty.after numberedRun).store.treeOf ⟨2⟩ with
    | error e => rw [h] at hequals; cases hequals
    | ok v => rw [h] at hequals; exact congrArg _ ((v.equals_iff _).mp hequals)
  obtain ⟨hread, -⟩ := written_reads_back numberedRun hsteps
  obtain ⟨hvalid, hread⟩ := hread _ _ htree
  refine ⟨hsteps, htree, hvalid, (hread .compact 1).resolve_right ?_⟩
  rintro ⟨-, -, -, hdeep | hpaired⟩
  · exact absurd hdeep (by decide)
  · exact hpaired ⟨trivial, trivial, trivial, trivial⟩

end Session

end JsonDocument
