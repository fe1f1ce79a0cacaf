import JsonDocument.Session.InPlace
import JsonDocument.Proofs.Building
import JsonDocument.Proofs.Plain.Data
import JsonDocument.Proofs.Session.Steps
import JsonDocument.Proofs.Store.Objects

/-!
# Proofs — Session — steps taken in place

A step taken in place comes to what `Session.run` says, though it changes the session while it goes
on.  Each part of a step is set against the part of `Session.perform` that it is for: where that has
a result, the part in place ends with it and in the same session; where that has a fault, the part
in place ends with it too, and what there has been before is kept.  Building a value is the one
place where something is changed before the last thing that can fail, and what it changes is new.

* `Session.Agrees`: what is said of each part.
* `Session.Raises`: what is said of the parts that build; `Plain.raises`, `Recipe.raises`.
* `agrees_act`, `agrees_edit`, `agrees_perform`: actions, edits and steps, where there are no
  cycles.
* `perform_eq_run`: the same with warnings.
-/

namespace JsonDocument

open InPlace

variable {α β : Type} {w w' : Session} {s s₀ : Store} {n : NodeId} {a : α} {e : Fault} {t : Json}
  {keep : Option Text} {step : Step}

/-! ### Agreement -/

namespace InPlace

theorem run_bind (x : InPlace α) (f : α → InPlace β) : (x >>= f).run w =
    match x.run w with
    | (⟨warnings, .ok a⟩, w') =>
        (⟨warnings ++ ((f a).run w').1.warnings, ((f a).run w').1.outcome⟩, ((f a).run w').2)
    | (⟨warnings, .error e⟩, w') => (⟨warnings, .error e⟩, w') := rfl

theorem bind_of_ok {x : InPlace α} {f : α → InPlace β} (h : x.run w = (⟨[], .ok a⟩, w')) :
    (x >>= f).run w = (f a).run w' := by
  rw [run_bind, h]
  rfl

theorem bind_of_error {x : InPlace α} {f : α → InPlace β} (h : x.run w = (⟨[], .error e⟩, w')) :
    (x >>= f).run w = (⟨[], .error e⟩, w') := by
  rw [run_bind, h]

theorem run_get {g : Session → α} {f : α → InPlace β} :
    ((look fun w => .ok (g w)) >>= f).run w = (f (g w)).run w := rfl

theorem run_look {f : Session → Except Fault α} {r : Except Fault α} (h : f w = r) :
    (look f).run w = (⟨[], r⟩, w) :=
  congrArg (fun r => (Logged.ofExcept r, w)) h

end InPlace

namespace Session

/-- What a computation on `w` comes to is the expected result; or it is the expected fault, and all
that exists in `w` is as it was. -/
def Agrees (w : Session) (x : Logged α × Session) : Except Fault (α × Session) → Prop
  | .ok (a, w') => x = (⟨[], .ok a⟩, w')
  | .error e => ∃ s, w.store.Keeps s ∧ s.Closed ∧ x = (⟨[], .error e⟩, { w with store := s })

theorem Agrees.of_keeps {x : Logged α × Session} {r : Except Fault (α × Session)}
    (hk : w.store.Keeps s) (h : Agrees { w with store := s } x r) : Agrees w x r := by
  cases r with
  | ok r => exact h
  | error e =>
      obtain ⟨s', hs', hx⟩ := h
      exact ⟨s', hk.trans hs', hx⟩

theorem Agrees.bind_error {x : InPlace α} {f : α → InPlace β}
    (h : Agrees w (x.run w) (.error e)) : Agrees w ((x >>= f).run w) (.error e) := by
  obtain ⟨s, hk, hs, hx⟩ := h
  exact ⟨s, hk, hs, bind_of_error hx⟩

/-- A look at the session, and then what the rest comes to. -/
theorem agrees_look {f : Session → Except Fault α} {g : α → InPlace β}
    {h : α → Except Fault (β × Session)} (hs : w.store.Closed)
    (hg : ∀ a, f w = .ok a → Agrees w ((g a).run w) (h a)) :
    Agrees w ((look f >>= g).run w) (f w >>= h) := by
  cases hf : f w with
  | ok a =>
      rw [bind_of_ok (run_look hf)]
      exact hg a hf
  | error e => exact ⟨w.store, .refl _, hs, bind_of_error (run_look hf)⟩

/-- The result of a change to the store, and the session after it. -/
def withStore (w : Session) (r : Store × α) : α × Session := (r.2, { w with store := r.1 })

/-! ### Building -/

/-- The computation grows the tree `r` in any session with what is in `s₀`, or fails as `r` does. -/
def Raises (s₀ : Store) (x : InPlace Content) (r : Except Fault Json) : Prop :=
  ∀ w : Session, s₀.Keeps w.store → w.store.Closed →
    Agrees w (x.run w) (r.map fun v => w.withStore (w.store.growContent v))

theorem raises_growContent (v : Json) : Raises s₀ (growContent v) (.ok v) := fun _ _ _ => rfl

theorem raises_fail (e : Fault) : Raises s₀ (InPlace.fail e) (.error e) := fun w _ hs =>
  ⟨w.store, .refl _, hs, rfl⟩

theorem raises_look (r : Except Fault Json) :
    Raises s₀ (look (fun _ => r) >>= growContent) r := by
  intro w _ hs
  cases r with
  | ok v => rfl
  | error e => exact ⟨w.store, .refl _, hs, rfl⟩

/-- One more node in front: where its tree is grown the rest decides.  `F` grows a list, here of
values or of members, one after the other. -/
theorem agrees_cons {γ δ : Type} {x : InPlace Content} {r : Except Fault Json}
    {xs : InPlace (List γ)} {rs rrs : Except Fault (List δ)} {F : Store → List δ → Store × List γ}
    {p : NodeId → γ} {q : Json → δ}
    (hF : ∀ s v ds, F s (q v :: ds) =
      ((F (s.grow v).1 ds).1, p (s.grow v).2 :: (F (s.grow v).1 ds).2))
    (hrrs : rrs = r >>= fun v => rs >>= fun ds => pure (q v :: ds))
    (hx : Raises s₀ x r) (hk : s₀.Keeps w.store) (hw : w.store.Closed)
    (hxs : ∀ w : Session, s₀.Keeps w.store → w.store.Closed →
      Agrees w (xs.run w) (rs.map fun ds => w.withStore (F w.store ds))) :
    Agrees w ((do
        let c ← x
        let n ← change (·.addNode c)
        let ns ← xs
        return p n :: ns).run w)
      (rrs.map fun ds => w.withStore (F w.store ds)) := by
  have hx := hx w hk hw
  subst hrrs
  cases r with
  | error e => exact hx.bind_error
  | ok v =>
      have hspec := (Store.grow_spec hw v).1
      have hxs := hxs { w with store := (w.store.grow v).1 } (hk.trans hspec.toKeeps)
        (hspec.closed hw)
      rw [bind_of_ok hx]
      change Agrees w ((xs >>= fun ns => pure (p (w.store.grow v).2 :: ns)).run
        { w with store := (w.store.grow v).1 }) _
      cases rs with
      | error e => exact .of_keeps hspec.toKeeps hxs.bind_error
      | ok ds =>
          have hlist : (Except.ok v >>= fun v => Except.ok ds >>= fun ds => pure (q v :: ds)) =
              (Except.ok (q v :: ds) : Except Fault (List δ)) := rfl
          rw [hlist, Except.map, hF]
          exact bind_of_ok hxs

section Lists

variable {ε : Type} {f : ε → InPlace Content} {g : ε → Except Fault Json} {es : List ε}
  (h : ∀ e ∈ es, Raises s₀ (f e) (g e))
include h

/-- One node after the other: the first fault ends it. -/
theorem agrees_addNodes (hk : s₀.Keeps w.store) (hw : w.store.Closed) :
    Agrees w ((addNodes (es.map f)).run w)
      ((es.mapM g).map fun vs => w.withStore (w.store.growElements vs)) := by
  induction es generalizing w with
  | nil => rfl
  | cons e es ih =>
      obtain ⟨he, hes⟩ := List.forall_mem_cons.mp h
      exact agrees_cons (q := id) (fun _ _ _ => rfl) List.mapM_cons he hk hw fun _ => ih hes

theorem agrees_addMembers (k : ε → Text) (hk : s₀.Keeps w.store) (hw : w.store.Closed) :
    Agrees w ((addMembers (es.map fun e => (k e, f e))).run w)
      ((es.mapM fun e => (g e).map (k e, ·)).map fun ms =>
        w.withStore (w.store.growMembers ms)) := by
  induction es generalizing w with
  | nil => rfl
  | cons e es ih =>
      obtain ⟨he, hes⟩ := List.forall_mem_cons.mp h
      refine agrees_cons (q := (k e, ·)) (fun _ _ _ => rfl) ?_ he hk hw fun _ => ih hes
      rw [List.mapM_cons]
      cases g e <;> rfl

theorem raises_addArray : Raises s₀ (addArray (es.map f)) ((es.mapM g).map .array) := by
  intro w hk hw
  have hnodes := agrees_addNodes h hk hw
  cases hm : es.mapM g with
  | error e =>
      rw [hm] at hnodes
      exact hnodes.bind_error
  | ok vs =>
      rw [hm] at hnodes
      exact bind_of_ok hnodes

theorem raises_addObject (k : ε → Text) : Raises s₀ (addObject (es.map fun e => (k e, f e)))
    ((es.mapM fun e => (g e).map (k e, ·)).map .object) := by
  intro w hk hw
  have hmembers := agrees_addMembers h k hk hw
  cases hm : es.mapM fun e => (g e).map (k e, ·) with
  | error e =>
      rw [hm] at hmembers
      exact hmembers.bind_error
  | ok ms =>
      rw [hm] at hmembers
      exact bind_of_ok hmembers

end Lists

end Session

/-- Plain data is grown as its document is, up to the first thing that no document can hold. -/
theorem Plain.raises (d : Plain) : Session.Raises s₀ d.raise (d.toJson.mapError .refused) := by
  induction d using inductionOn with
  | null => exact Session.raises_growContent .null
  | bool b => exact Session.raises_growContent (.bool b)
  | double x =>
      rw [raise, toJson]
      split
      · exact Session.raises_growContent _
      · exact Session.raises_fail _
  | integer n => exact Session.raises_growContent _
  | string t => exact Session.raises_growContent (.string t)
  | array xs ih =>
      have hitems : raiseItems xs = xs.map raise := eq_map rfl (fun _ _ => rfl) xs
      rw [raise, hitems, toJson_array, mapError_map, mapError_firstRefusal]
      exact Session.raises_addArray ih
  | record es ih =>
      have hentries : raiseEntries es = es.map (Prod.map id raise) := eq_map rfl (fun _ _ => rfl) es
      have hkeyed : ∀ e : Text × Plain, ((keyed ∘ Prod.map id toJson) e).mapError Fault.refused =
          (e.2.toJson.mapError .refused).map (e.1, ·) := fun e => mapError_map e.2.toJson
      rw [raise, hentries, Record.entries_map, toJson_record, mapError_map, mapError_firstRefusal,
        funext hkeyed]
      refine Session.raises_addObject (fun e he => ?_) Prod.fst
      obtain ⟨e', he', heq⟩ := List.mem_map.mp (Record.mem_entries (List.mem_map_of_mem he))
      exact heq ▸ ih e' he'
  | foreign k => exact Session.raises_fail _

namespace Recipe

/-- A recipe is grown as the tree that it builds is, up to the first fault. -/
theorem raises (r : Recipe) : Session.Raises s₀ r.raise r.build := by
  induction r using inductionOn with
  | null => exact Session.raises_growContent .null
  | bool b => exact Session.raises_growContent (.bool b)
  | string t => exact Session.raises_growContent (.string t)
  | literal t => exact Session.raises_growContent (.number t)
  | double x => exact Session.raises_look (Json.ofDouble x)
  | input bytes => exact Session.raises_look (Document.read bytes .nothing).outcome
  | plain data => exact data.raises
  | array rs ih =>
      have helements : raiseElements rs = rs.map raise := eq_map rfl (fun _ _ => rfl) rs
      rw [raise, helements, build, buildElements_eq]
      exact Session.raises_addArray ih
  | object ms ih =>
      have hmembers : raiseMembers ms = ms.map fun m => (m.1, m.2.raise) :=
        eq_map rfl (fun _ _ => rfl) ms
      rw [raise, hmembers, build, buildMembers_eq]
      exact Session.raises_addObject ih Prod.fst

end Recipe

namespace Session

/-! ### Steps -/

theorem agrees_answerNode (h : s.treeOf n = .ok t) :
    Agrees w ((InPlace.answerNode keep n).run { w with store := s })
      (w.answerNode keep (s, n)) := by
  have hanswer : w.answerNode keep (s, n) =
      .ok (.text t.compact, { w with store := s }.keepNode n keep) := by
    rw [answerNode, h]
    rfl
  rw [hanswer]
  exact bind_of_ok (run_look h)

/-- What is grown gets a node, which is answered. -/
theorem agrees_answerGrow {x : InPlace Content} {r : Except Fault Json}
    (hx : Raises w.store x r) (hw : w.Closed) :
    Agrees w ((do
        let c ← x
        let n ← change (·.addNode c)
        InPlace.answerNode keep n).run w)
      (r >>= fun v => w.answerNode keep (w.store.grow v)) := by
  have hx := hx w (.refl _) hw.store
  cases r with
  | error e => exact hx.bind_error
  | ok v =>
      rw [bind_of_ok hx]
      exact agrees_answerNode (Store.storesCopy_grow hw.store v).treeOf

theorem copy_eq (h : w.store.treeOf n = .ok t) :
    (copy n).run w = (⟨[], .ok (w.store.grow t).2⟩, { w with store := (w.store.grow t).1 }) := by
  have hcontent : (copyContent n).run w = (⟨[], .ok (w.store.growContent t).2⟩,
      { w with store := (w.store.growContent t).1 }) := bind_of_ok (run_look h)
  exact bind_of_ok hcontent

/-- What only looks changes nothing. -/
theorem agrees_of_look {f : Session → Except Fault α} {r : Except Fault (α × Session)}
    (hs : w.store.Closed) (hf : f w = r.map Prod.fst) (hr : ∀ a w', r = .ok (a, w') → w' = w) :
    Agrees w ((look f).run w) r := by
  cases r with
  | error e => exact ⟨w.store, .refl _, hs, run_look hf⟩
  | ok r =>
      obtain ⟨a, w'⟩ := r
      obtain rfl := hr a w' rfl
      exact run_look hf

theorem agrees_answerNode? {o : Option NodeId}
    (h : ∀ n, o = some n → ∃ t, w.store.treeOf n = .ok t) :
    Agrees w ((InPlace.answerNode? keep o).run w) (w.answerNode? keep w.store o) := by
  cases o with
  | none => rfl
  | some n =>
      obtain ⟨t, ht⟩ := h n rfl
      exact agrees_answerNode ht

section Acyclic

variable (hw : w.Closed) (htree : ∀ n, w.store.Has n → ∃ t, w.store.treeOf n = .ok t)
include hw htree

theorem agrees_act (hn : w.store.Has n) (action : Action) :
    Agrees w ((InPlace.act n action).run w) (w.act n action) := by
  have hs := hw.store
  obtain ⟨t, ht⟩ := htree n hn
  cases action with
  | «alias» keep => exact agrees_answerNode ht
  | clone keep =>
      have hclone : w.store.clone n = .ok (w.store.grow t) := by rw [Store.clone, ht]; rfl
      rw [Session.act, hclone]
      rw [InPlace.act, bind_of_ok (copy_eq ht)]
      exact agrees_answerNode (Store.storesCopy_grow hs t).treeOf
  | pushBack value keep =>
      refine agrees_look hs fun v hv => ?_
      obtain ⟨u, hu⟩ := htree v (hw.has hv)
      rw [Store.pushBack, bind_assoc]
      refine agrees_look hs fun r hns => ?_
      obtain ⟨l, ns⟩ := r
      dsimp only
      rw [bind_of_ok (copy_eq hu)]
      have hpush : w.store.pushBack n v = .ok ((w.store.grow u).1.setItems l
          (.elements (ns ++ [(w.store.grow u).2])), (w.store.grow u).2) :=
        bind_eq_ok.mpr ⟨_, hns, bind_eq_ok.mpr ⟨u, hu, rfl⟩⟩
      obtain ⟨u', -, hcopy⟩ := Store.storesCopy_pushBack hs hpush
      rw [hu]
      exact agrees_answerNode hcopy.treeOf
  | entry key keep =>
      rw [Session.act, Store.entry, bind_assoc]
      refine agrees_look hs fun r hms => ?_
      obtain ⟨l, ms⟩ := r
      dsimp only
      cases hf : ms.lookup key with
      | some c =>
          have hc : w.store.Has c :=
            hs.has_of_find? ((Store.find?_of_membersOf hms).trans hf)
          obtain ⟨u, hu⟩ := htree c hc
          exact agrees_answerNode hu
      | none =>
          -- the new member at the end is the one that replacement would add
          have hcopy := Store.storesCopy_member hs hms key .null
          rw [Members.put_of_not_mem (Members.lookup_eq_none_iff.mp hf)] at hcopy
          exact agrees_answerNode hcopy.treeOf
  | put key value keep =>
      refine agrees_look hs fun v hv => ?_
      obtain ⟨u, hu⟩ := htree v (hw.has hv)
      rw [Store.put, bind_assoc]
      refine agrees_look hs fun r hms => ?_
      obtain ⟨l, ms⟩ := r
      dsimp only
      rw [bind_of_ok (copy_eq hu), hu]
      exact agrees_answerNode (Store.storesCopy_member hs hms key u).treeOf
  | assign value keep =>
      refine agrees_look hs fun v hv => ?_
      obtain ⟨u, hu⟩ := htree v (hw.has hv)
      obtain ⟨s, hassign⟩ := Store.exists_assign hu (n := n)
      have hself := Store.treeOf_assign hs hn hassign
      have hcontent : (copyContent v).run w = (⟨[], .ok (w.store.growContent u).2⟩,
          { w with store := (w.store.growContent u).1 }) := bind_of_ok (run_look hu)
      rw [bind_of_ok hcontent, Store.assign, hu]
      obtain ⟨u', hu', hs'⟩ := bind_eq_ok.mp hassign
      obtain rfl := Except.ok.inj (hu.symm.trans hu')
      cases hs'
      exact agrees_answerNode (hself.trans hu)
  | find key keep =>
      rw [InPlace.act, run_get]
      exact agrees_answerNode? fun c hc => htree c (hs.has_of_find? hc)
  | elements keep =>
      refine agrees_look hs fun r hns => ?_
      obtain ⟨l, ns⟩ := r
      rfl
  | members keep =>
      refine agrees_look hs fun r hms => ?_
      obtain ⟨l, ms⟩ := r
      rfl
  | equals other =>
      refine agrees_of_look hs rfl fun a w' h => ?_
      obtain ⟨_, -, h⟩ := bind_eq_ok.mp h
      obtain ⟨_, -, h⟩ := bind_eq_ok.mp h
      obtain ⟨_, -, h⟩ := bind_eq_ok.mp h
      cases h
      rfl
  | same _ | number | string | double | int64 | plain =>
      refine agrees_of_look hs rfl fun a w' h => ?_
      obtain ⟨_, -, h⟩ := bind_eq_ok.mp h
      cases h
      rfl
  | kind | bool _ => exact agrees_of_look hs rfl fun a w' h => by cases h; rfl

theorem agrees_edit {on : Text} {l : ListId} (hl : w.list on = .ok l) (e : Edit) :
    Agrees w ((InPlace.edit l e).run w) (w.edit l e) := by
  have hs := hw.store
  cases e with
  | node j keep =>
      rw [InPlace.edit, run_get]
      exact agrees_answerNode? fun c hc => htree c (hs.node_exists (Items.mem_of_node? hc))
  | keys =>
      refine agrees_of_look hs rfl fun a w' h => ?_
      obtain ⟨_, -, h⟩ := bind_eq_ok.mp h
      cases h
      rfl
  | length => exact agrees_of_look hs rfl fun a w' h => by cases h; rfl
  | push key value =>
      refine agrees_look hs fun v hv => ?_
      exact agrees_look hs fun i hi => rfl
  | pop keep =>
      rw [InPlace.edit, run_get, Session.edit]
      dsimp only
      cases hc : (w.store.items l).node? ((w.store.items l).length - 1 : Nat) with
      | none => rfl
      | some c =>
          -- the node is still there, and nothing that it leads to has got anything new
          have hsub : ((w.store.items l).remove ((w.store.items l).length - 1)).nodes.Subperm
              (w.store.items l).nodes := Items.subperm_remove
          have halters : w.Alters (.edit on (.pop keep)) _ := .edited_of_subperm hl hsub
          have hhas := hs.node_exists (Items.mem_of_node? hc)
          obtain ⟨t, ht⟩ := htree c hhas
          obtain ⟨u, hu⟩ := (halters.copying hw trivial).exists_tree (halters.touches hw).closed
            (Store.shows_of_treeOf ht)
          exact agrees_answerNode
            ((Store.treeOf_eq_ok_iff (halters.touches hw).closed hhas).mpr hu)
  | replace j key value =>
      rw [InPlace.edit, run_get, Session.edit]
      cases Items.inRange? (w.store.items l).length j with
      | none => rfl
      | some j =>
          refine agrees_look hs fun v hv => ?_
          exact agrees_look hs fun i hi => rfl
  | rename j key =>
      rw [InPlace.edit, run_get, Session.edit]
      cases Items.inRange? (w.store.items l).length j with
      | none => rfl
      | some j => exact agrees_look hs fun i hi => rfl
  | remove j =>
      rw [InPlace.edit, run_get, Session.edit]
      cases Items.inRange? (w.store.items l).length j with
      | none => rfl
      | some j => rfl
  | reverse => rfl
  | clear => rfl

/-- What the step comes to without warnings. -/
theorem agrees_perform (hstep : ∀ on settings, step ≠ .write on settings) :
    Agrees w ((InPlace.perform step).run w) (w.perform step).outcome := by
  have hs := hw.store
  have hraises : ∀ {name n}, w.node name = .ok n →
      Raises w.store (copyContent n) (w.store.treeOf n) := by
    intro name n hn w₁ hk hw₁
    obtain ⟨t, ht⟩ := htree n (hw.has hn)
    rw [ht, copyContent, bind_of_ok (run_look (hk.treeOf hs hw₁ (hw.has hn) ht))]
    rfl
  cases step with
  | create recipe keep => exact agrees_answerGrow recipe.raises hw
  | array values keep =>
      refine agrees_look hs fun ns hns => ?_
      have hx : Raises w.store (addArray (ns.map copyContent))
          ((ns.mapM w.store.treeOf).map .array) := raises_addArray fun n hn =>
        let ⟨_, _, hname⟩ := exists_of_mem_mapM hns hn
        hraises hname
      have hanswer : (w.store.array ns >>= w.answerNode keep) =
          (ns.mapM w.store.treeOf).map .array >>= fun v => w.answerNode keep (w.store.grow v) := by
        rw [Store.array]
        cases ns.mapM w.store.treeOf <;> rfl
      change Agrees w _ (w.store.array ns >>= w.answerNode keep)
      rw [hanswer]
      exact agrees_answerGrow hx hw
  | object members keep =>
      refine agrees_look hs fun ms hms => ?_
      have hx : Raises w.store (addObject (ms.map fun m => (m.1, copyContent m.2)))
          ((ms.mapM fun m => (w.store.treeOf m.2).map (m.1, ·)).map .object) := by
        refine raises_addObject (fun m hm => ?_) Prod.fst
        obtain ⟨_, _, hname⟩ := exists_of_mem_mapM hms hm
        obtain ⟨n, hn, rfl⟩ := map_eq_ok.mp hname
        exact hraises hn
      have hanswer : (w.store.object ms >>= w.answerNode keep) =
          (ms.mapM fun m => (w.store.treeOf m.2).map (m.1, ·)).map .object >>= fun v =>
            w.answerNode keep (w.store.grow v) := by
        rw [Store.object]
        cases ms.mapM fun m => (w.store.treeOf m.2).map (m.1, ·) <;> rfl
      change Agrees w _ (w.store.object ms >>= w.answerNode keep)
      rw [hanswer]
      exact agrees_answerGrow hx hw
  | act on action => exact agrees_look hs fun n hn => agrees_act hw htree (hw.has hn) action
  | write on settings => exact absurd rfl (hstep on settings)
  | edit on e => exact agrees_look hs fun l hl => agrees_edit hw htree hl e

/-- Settings are resolved before anything is written, and then nothing fails. -/
theorem perform_write (on : Text) (settings : Given) :
    (InPlace.perform (.write on settings)).run w = w.run (.write on settings) := by
  unfold run
  cases hn : w.node on with
  | error e =>
      rw [InPlace.perform, bind_of_error (run_look hn), Session.perform, hn]
      rfl
  | ok n =>
      obtain ⟨t, ht⟩ := htree n (hw.has hn)
      have hperform : w.perform (.write on settings) =
          (do return (.text (← Document.write t settings), w)) := by
        simp only [Session.perform, hn, ht, Logged.ofExcept, bind, Logged.andThen, List.nil_append]
      rw [InPlace.perform, bind_of_ok (run_look hn), hperform, Document.write]
      generalize WriteOptions.schema.logged settings = settled
      obtain ⟨warnings, outcome⟩ := settled
      cases outcome with
      | error e => rfl
      | ok o =>
          have htext : (look (·.store.treeOf n) >>= fun v => pure (Answer.text (v.write o))).run w =
              (⟨[], .ok (.text (t.write o))⟩, w) := bind_of_ok (run_look ht)
          rw [run_bind]
          simp only [ofLogged, htext]
          simp only [bind, Logged.andThen, pure, List.append_nil]

/-- **Steps taken in place.**  They come to what they come to otherwise, warnings included, and lead
to the same session, unless they fail; then what there has been is kept. -/
theorem perform_eq_run (step : Step) :
    ((InPlace.perform step).run w).1 = (w.run step).1 ∧
      (((InPlace.perform step).run w).2 = (w.run step).2 ∨
        ∃ e s, (w.run step).1.outcome = .error e ∧ w.store.Keeps s ∧ s.Closed ∧
          ((InPlace.perform step).run w).2 = { w with store := s }) := by
  by_cases hwrite : ∃ on settings, step = .write on settings
  · obtain ⟨on, settings, rfl⟩ := hwrite
    rw [perform_write hw htree]
    exact ⟨rfl, .inl rfl⟩
  · have hstep : ∀ on settings, step ≠ .write on settings := fun on settings h =>
      hwrite ⟨on, settings, h⟩
    have hagrees := agrees_perform hw htree hstep
    have hwarnings : (w.perform step).warnings = [] := by
      cases step with
      | write on settings => exact absurd rfl (hstep on settings)
      | _ => rfl
    unfold run
    generalize w.perform step = r at hagrees hwarnings
    obtain ⟨warnings, outcome⟩ := r
    subst hwarnings
    cases outcome with
    | ok r =>
        rw [hagrees]
        exact ⟨rfl, .inl rfl⟩
    | error e =>
        obtain ⟨s, hk, hs, hx⟩ := hagrees
        rw [hx]
        exact ⟨rfl, .inr ⟨e, s, rfl, hk, hs, rfl⟩⟩

end Acyclic

end Session

end JsonDocument
