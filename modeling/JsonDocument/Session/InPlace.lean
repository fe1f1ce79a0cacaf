import JsonDocument.Session

/-!
# Session — steps taken in place

`Session.run` forgets what a step that fails has done before it has failed.  A step may also be
taken in place: it looks, checks, copies and writes in its order, each time in the session as it is
by then, and where it fails the session stays as it has become.  Values are built node by node, so a
part that cannot be built leaves the nodes of the parts before it.

* `InPlace`: computations that change a session in place.
* `Recipe.raise`, `Plain.raise`: new nodes for a value, made while it is built.
* `InPlace.act`, `InPlace.edit`, `InPlace.perform`: actions, edits and steps.
-/

namespace JsonDocument

/-- A computation that changes a session in place: it ends with an outcome and with the session as
it has become, also where the outcome is a fault. -/
structure InPlace (α : Type) where
  run : Session → Logged α × Session

namespace InPlace

variable {α β : Type}

/-- Goes on with a result where there is one; nothing is taken back where there is none. -/
def andThen (x : InPlace α) (f : α → InPlace β) : InPlace β where
  run w :=
    match x.run w with
    | (⟨warnings, .ok a⟩, w') =>
        let r := (f a).run w'
        (⟨warnings ++ r.1.warnings, r.1.outcome⟩, r.2)
    | (⟨warnings, .error e⟩, w') => (⟨warnings, .error e⟩, w')

instance : Monad InPlace where
  pure a := ⟨fun w => (⟨[], .ok a⟩, w)⟩
  bind := andThen

/-! ### Single changes -/

/-- Looks at the session, and fails where it finds a fault. -/
def look (f : Session → Except Fault α) : InPlace α := ⟨fun w => (.ofExcept (f w), w)⟩

def fail (e : Fault) : InPlace α := look fun _ => .error e

/-- Changes the store. -/
def change (f : Store → Store × α) : InPlace α :=
  ⟨fun w => (⟨[], .ok (f w.store).2⟩, { w with store := (f w.store).1 })⟩

/-- Changes the names. -/
def rename (f : Session → Session) : InPlace Unit := ⟨fun w => (⟨[], .ok ()⟩, f w)⟩

/-- Comes to an outcome that the session does not matter to. -/
def ofLogged (x : Logged α) : InPlace α := ⟨fun w => (x, w)⟩

def setItems (l : ListId) (i : Items) : InPlace Unit := change fun s => (s.setItems l i, ())

/-! ### New nodes -/

/-- New nodes for contents that are made one after the other. -/
def addNodes : List (InPlace Content) → InPlace (List NodeId)
  | [] => pure []
  | x :: xs => do
      let c ← x
      let n ← change (·.addNode c)
      let ns ← addNodes xs
      return n :: ns

/-- New nodes for contents that are made one after the other, each under a key. -/
def addMembers : List (Text × InPlace Content) → InPlace (List (Text × NodeId))
  | [] => pure []
  | (k, x) :: ms => do
      let c ← x
      let n ← change (·.addNode c)
      let ns ← addMembers ms
      return (k, n) :: ns

/-- A new list of such nodes. -/
def addArray (xs : List (InPlace Content)) : InPlace Content := do
  let ns ← addNodes xs
  let l ← change (·.addList (.elements ns))
  return .list l

/-- A new list of such members. -/
def addObject (ms : List (Text × InPlace Content)) : InPlace Content := do
  let ns ← addMembers ms
  let l ← change (·.addList (.members ns))
  return .list l

/-- What a new node for a tree is. -/
def growContent (v : Json) : InPlace Content := change (·.growContent v)

/-- What a copy of a node is. -/
def copyContent (n : NodeId) : InPlace Content := do
  let v ← look (·.store.treeOf n)
  growContent v

/-- A copy of a node. -/
def copy (n : NodeId) : InPlace NodeId := do
  let c ← copyContent n
  change (·.addNode c)

end InPlace

open InPlace

namespace Plain

mutual

/-- What a new node for plain data is. -/
def raise : Plain → InPlace Content
  | null => growContent .null
  | bool b => growContent (.bool b)
  | double x =>
      if x.isFinite then growContent (.number (Literal.shortest x))
      else fail (.refused (.notFinite x))
  | integer n => growContent (.number (Decimal.ofInt n))
  | string t => growContent (.string t)
  | array xs => addArray (raiseItems xs)
  | record es => addObject (Record.entries (raiseEntries es))
  | foreign k => fail (.refused (.foreign k))

def raiseItems : List Plain → List (InPlace Content)
  | [] => []
  | x :: xs => raise x :: raiseItems xs

def raiseEntries : List (Text × Plain) → List (Text × InPlace Content)
  | [] => []
  | (k, x) :: es => (k, raise x) :: raiseEntries es

end

end Plain

namespace Recipe

mutual

/-- What a new node for a tree that is built is. -/
def raise : Recipe → InPlace Content
  | null => growContent .null
  | bool b => growContent (.bool b)
  | string t => growContent (.string t)
  | literal t => growContent (.number t)
  | double x => do
      let v ← look fun _ => Json.ofDouble x
      growContent v
  | input bytes => do
      let v ← look fun _ => (Document.read bytes .nothing).outcome
      growContent v
  | plain data => data.raise
  | array rs => addArray (raiseElements rs)
  | object ms => addObject (raiseMembers ms)

def raiseElements : List Recipe → List (InPlace Content)
  | [] => []
  | r :: rs => raise r :: raiseElements rs

def raiseMembers : List (Text × Recipe) → List (Text × InPlace Content)
  | [] => []
  | (k, r) :: ms => (k, raise r) :: raiseMembers ms

end

end Recipe

namespace InPlace

/-! ### Steps -/

/-- Answers with the text of a node, which is kept. -/
def answerNode (keep : Option Text) (n : NodeId) : InPlace Answer := do
  let v ← look (·.store.treeOf n)
  rename (·.keepNode n keep)
  return .text v.compact

/-- Answers with the text of a node, which is kept, or with nothing where there is none. -/
def answerNode? (keep : Option Text) : Option NodeId → InPlace Answer
  | none => pure .nothing
  | some n => answerNode keep n

/-- An action on a node. -/
def act (n : NodeId) : Action → InPlace Answer
  | .alias keep => answerNode keep n
  | .clone keep => do
      let c ← copy n
      answerNode keep c
  | .pushBack value keep => do
      let v ← look (·.node value)
      let (l, ns) ← look (·.store.elementsOf n)
      let c ← copy v
      setItems l (.elements (ns ++ [c]))
      answerNode keep c
  | .entry key keep => do
      let (l, ms) ← look (·.store.membersOf n)
      match ms.lookup key with
      | some c => answerNode keep c
      | none => do
          let c ← change (·.grow .null)
          setItems l (.members (ms ++ [(key, c)]))
          answerNode keep c
  | .put key value keep => do
      let v ← look (·.node value)
      let (l, ms) ← look (·.store.membersOf n)
      let c ← copy v
      setItems l (.members (Members.put key c ms))
      answerNode keep c
  | .assign value keep => do
      let v ← look (·.node value)
      let c ← copyContent v
      change fun s => (s.setContent n c, ())
      answerNode keep n
  | .find key keep => do
      let c ← look fun w => .ok (w.store.find? n key)
      answerNode? keep c
  | .elements keep => do
      let (l, ns) ← look (·.store.elementsOf n)
      rename (·.keepList l keep)
      return .count ns.length
  | .members keep => do
      let (l, ms) ← look (·.store.membersOf n)
      rename (·.keepList l keep)
      return .count ms.length
  -- the others only look
  | action => look fun w => (w.act n action).map Prod.fst

/-- An edit of a list. -/
def edit (l : ListId) : Edit → InPlace Answer
  | .node index keep => do
      let i ← look fun w => .ok (w.store.items l)
      answerNode? keep (i.node? index)
  | .push key value => do
      let n ← look (·.node value)
      let i ← look fun w => (w.store.items l).push key n
      setItems l i
      return .count i.length
  | .pop keep => do
      let i ← look fun w => .ok (w.store.items l)
      let last := i.length - 1
      match i.node? last with
      | none => return .nothing
      | some c => do
          setItems l (i.remove last)
          answerNode keep c
  | .replace index key value => do
      let i ← look fun w => .ok (w.store.items l)
      match Items.inRange? i.length index with
      | none => return .nothing
      | some index => do
          let n ← look (·.node value)
          let i ← look fun _ => i.replace index key n
          setItems l i
          return .count i.length
  | .rename index key => do
      let i ← look fun w => .ok (w.store.items l)
      match Items.inRange? i.length index with
      | none => return .nothing
      | some index => do
          let i ← look fun _ => i.rename index key
          setItems l i
          return .flag true
  | .remove index => do
      let i ← look fun w => .ok (w.store.items l)
      match Items.inRange? i.length index with
      | none => return .count i.length
      | some index => do
          let i := i.remove index
          setItems l i
          return .count i.length
  | .reverse => do
      let i ← look fun w => .ok (w.store.items l).reverse
      setItems l i
      return .count i.length
  | .clear => do
      let i ← look fun w => .ok (w.store.items l).clear
      setItems l i
      return .count i.length
  -- the others only look
  | e => look fun w => (w.edit l e).map Prod.fst

/-- A step. -/
def perform : Step → InPlace Answer
  | .create recipe keep => do
      let c ← recipe.raise
      let n ← change (·.addNode c)
      answerNode keep n
  | .array values keep => do
      let ns ← look fun w => values.mapM w.node
      let c ← addArray (ns.map copyContent)
      let n ← change (·.addNode c)
      answerNode keep n
  | .object members keep => do
      let ms ← look fun w => members.mapM fun m => (w.node m.2).map (m.1, ·)
      let c ← addObject (ms.map fun m => (m.1, copyContent m.2))
      let n ← change (·.addNode c)
      answerNode keep n
  | .act on action => do
      let n ← look (·.node on)
      act n action
  | .write on settings => do
      let n ← look (·.node on)
      let o ← ofLogged (WriteOptions.schema.logged settings)
      let v ← look (·.store.treeOf n)
      return .text (v.write o)
  | .edit on e => do
      let l ← look (·.list on)
      edit l e

end InPlace

end JsonDocument
