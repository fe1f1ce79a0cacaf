import JsonDocument.Document
import JsonDocument.Store.Items

/-!
# Session — steps on live documents

A session is a store with names for nodes and for live lists.  A step works on what its names stand
for and may keep a node or a list under a name.  A step that fails changes nothing.

* `Step`: what can be done.
* `Session.perform`: the answer and the session after it, or the fault.
* `Session.run`, `Session.trace`: the answer or the fault to one step or to many, and the session
  that goes on.
* `Session.texts`: what every named node stands for.
-/

namespace JsonDocument

/-! ### Steps -/

/-- What can be done with a node; `keep` names the node that results. -/
inductive Action where
  | alias (keep : Option Text)
  | clone (keep : Option Text)
  | pushBack (value : Text) (keep : Option Text)
  | entry (key : Text) (keep : Option Text)
  | put (key : Text) (value : Text) (keep : Option Text)
  | assign (value : Text) (keep : Option Text)
  | find (key : Text) (keep : Option Text)
  | equals (other : Text)
  | same (other : Text)
  | kind
  | bool (fallback : Bool)
  | number
  | string
  | double
  | int64
  | plain
  /-- The live list of an array. -/
  | elements (keep : Option Text)
  /-- The live list of an object. -/
  | members (keep : Option Text)

/-- What can be done with a live list; `keep` names the node that results. -/
inductive Edit where
  | node (index : Int) (keep : Option Text)
  | keys
  | length
  | push (key : Option Text) (value : Text)
  | pop (keep : Option Text)
  | replace (index : Int) (key : Option Text) (value : Text)
  | rename (index : Int) (key : Text)
  | remove (index : Int)
  | reverse
  | clear

/-- One step. -/
inductive Step where
  | create (recipe : Recipe) (keep : Option Text)
  | array (values : List Text) (keep : Option Text)
  | object (members : List (Text × Text)) (keep : Option Text)
  | act (on : Text) (action : Action)
  | write (on : Text) (settings : Given)
  | edit (on : Text) (edit : Edit)

/-- What a step answers. -/
inductive Answer where
  | nothing
  | text (text : Text)
  | texts (texts : List Text)
  | flag (value : Bool)
  | count (value : Nat)
  | double (value : Binary64)
  | integer (value : Int)
  | plain (data : Plain)

/-! ### Sessions -/

/-- Keeps a value under a name; names are in order. -/
def keepUnder {α : Type} (name : Text) (a : α) : List (Text × α) → List (Text × α)
  | [] => [(name, a)]
  | (k, b) :: rest =>
      if k = name then (name, a) :: rest
      else if name < k then (name, a) :: (k, b) :: rest
      else (k, b) :: keepUnder name a rest

/-- A store with names for nodes and for lists. -/
structure Session where
  store : Store
  nodeNames : List (Text × NodeId)
  listNames : List (Text × ListId)

namespace Session

def empty : Session := ⟨.empty, [], []⟩

/-- The node under a name. -/
def node (w : Session) (name : Text) : Except Fault NodeId :=
  match w.nodeNames.lookup name with
  | some n => .ok n
  | none => .error (.unknownName name)

/-- The list under a name. -/
def list (w : Session) (name : Text) : Except Fault ListId :=
  match w.listNames.lookup name with
  | some l => .ok l
  | none => .error (.unknownName name)

def keepNode (w : Session) (n : NodeId) : Option Text → Session
  | none => w
  | some name => { w with nodeNames := keepUnder name n w.nodeNames }

def keepList (w : Session) (l : ListId) : Option Text → Session
  | none => w
  | some name => { w with listNames := keepUnder name l w.listNames }

/-- Answers with the text of a node, which is kept, in a store. -/
def answerNode (w : Session) (keep : Option Text) (r : Store × NodeId) :
    Except Fault (Answer × Session) := do
  let v ← r.1.treeOf r.2
  return (.text v.compact, { w with store := r.1 }.keepNode r.2 keep)

/-- Answers with the text of a node, which is kept, or with nothing where there is none. -/
def answerNode? (w : Session) (keep : Option Text) (s : Store) :
    Option NodeId → Except Fault (Answer × Session)
  | none => .ok (.nothing, w)
  | some n => w.answerNode keep (s, n)

/-- What an action on a node comes to. -/
def act (w : Session) (n : NodeId) : Action → Except Fault (Answer × Session)
  | .alias keep => w.answerNode keep (w.store, n)
  | .clone keep => do w.answerNode keep (← w.store.clone n)
  | .pushBack value keep => do w.answerNode keep (← w.store.pushBack n (← w.node value))
  | .entry key keep => do w.answerNode keep (← w.store.entry n key)
  | .put key value keep => do w.answerNode keep (← w.store.put n key (← w.node value))
  | .assign value keep => do w.answerNode keep (← w.store.assign n (← w.node value), n)
  | .find key keep => w.answerNode? keep w.store (w.store.find? n key)
  | .equals other => do
      let a ← w.store.treeOf n
      let b ← w.store.treeOf (← w.node other)
      return (.flag (a.equals b), w)
  | .same other => do return (.flag (n == (← w.node other)), w)
  | .kind => .ok (.text (Text.ofString (w.store.kindOf n).name), w)
  | .bool fallback => .ok (.flag (w.store.boolOf fallback n), w)
  | .number => do return (.text (← w.store.numberOf n), w)
  | .string => do return (.text (← w.store.stringOf n), w)
  | .double => do return (.double (Literal.toDouble .zero (← w.store.numberOf n)), w)
  | .int64 => do return (.integer (Literal.toInt64 0 (← w.store.numberOf n)), w)
  | .plain => do return (.plain (← w.store.treeOf n).toPlain, w)
  | .elements keep => do
      let (l, ns) ← w.store.elementsOf n
      return (.count ns.length, w.keepList l keep)
  | .members keep => do
      let (l, ms) ← w.store.membersOf n
      return (.count ms.length, w.keepList l keep)

/-- The session in which a list holds other items. -/
def withItems (w : Session) (l : ListId) (i : Items) : Session :=
  { w with store := w.store.setItems l i }

/-- What an edit of a list comes to. -/
def edit (w : Session) (l : ListId) : Edit → Except Fault (Answer × Session)
  | .node index keep => w.answerNode? keep w.store ((w.store.items l).node? index)
  | .keys => do return (.texts (← (w.store.items l).keys), w)
  | .length => .ok (.count (w.store.items l).length, w)
  | .push key value => do
      let i ← (w.store.items l).push key (← w.node value)
      return (.count i.length, w.withItems l i)
  | .pop keep =>
      let i := w.store.items l
      let last := i.length - 1
      w.answerNode? keep (w.store.setItems l (i.remove last)) (i.node? last)
  | .replace index key value =>
      match Items.inRange? (w.store.items l).length index with
      | none => .ok (.nothing, w)
      | some index => do
          let i ← (w.store.items l).replace index key (← w.node value)
          return (.count i.length, w.withItems l i)
  | .rename index key =>
      match Items.inRange? (w.store.items l).length index with
      | none => .ok (.nothing, w)
      | some index => do return (.flag true, w.withItems l (← (w.store.items l).rename index key))
  | .remove index =>
      match Items.inRange? (w.store.items l).length index with
      | none => .ok (.count (w.store.items l).length, w)
      | some index =>
          let i := (w.store.items l).remove index
          .ok (.count i.length, w.withItems l i)
  | .reverse =>
      let i := (w.store.items l).reverse
      .ok (.count i.length, w.withItems l i)
  | .clear =>
      let i := (w.store.items l).clear
      .ok (.count i.length, w.withItems l i)

/-- What a step comes to. -/
def perform (w : Session) : Step → Logged (Answer × Session)
  | .create recipe keep => .ofExcept do w.answerNode keep (w.store.grow (← recipe.build))
  | .array values keep => .ofExcept do
      w.answerNode keep (← w.store.array (← values.mapM w.node))
  | .object members keep => .ofExcept do
      let ms ← members.mapM fun m => (w.node m.2).map (m.1, ·)
      w.answerNode keep (← w.store.object ms)
  | .act on action => .ofExcept do w.act (← w.node on) action
  | .write on settings => do
      let n ← Logged.ofExcept (w.node on)
      let v ← Logged.ofExcept (w.store.treeOf n)
      let t ← Document.write v settings
      return (.text t, w)
  | .edit on edit => .ofExcept do w.edit (← w.list on) edit

/-- The answer or the fault, with the warnings, and the session that goes on. -/
def run (w : Session) (step : Step) : Logged Answer × Session :=
  match w.perform step with
  | ⟨warnings, .ok (answer, w')⟩ => (⟨warnings, .ok answer⟩, w')
  | ⟨warnings, .error e⟩ => (⟨warnings, .error e⟩, w)

/-- The answers to steps taken one after the other, each with the session after it. -/
def trace (w : Session) : List Step → List (Logged Answer × Session)
  | [] => []
  | step :: steps =>
      let r := w.run step
      r :: r.2.trace steps

/-- The text of every named node, in order of their names. -/
def texts (w : Session) : Except Fault (List (Text × Text)) :=
  w.nodeNames.mapM fun m => (w.store.treeOf m.2).map fun v => (m.1, v.compact)

/-- A step that fails leaves the session as it is. -/
theorem run_of_error {w : Session} {step : Step} {e : Fault}
    (h : (w.run step).1.outcome = .error e) : (w.run step).2 = w := by
  unfold run at h ⊢
  split
  · simp_all
  · rfl

end Session

end JsonDocument
