import JsonDocument.Fault
import JsonDocument.Members

/-!
# Store — live documents

A store holds nodes, which are values that can change, and lists, which hold the items of arrays and
objects.  A node is a scalar or has a list; the list says which kind of container the node is.
Nodes and lists have identities of their own: a node may be given another list, and then the old
list lives on without it.

* `Store.treeOf`: the tree that a node stands for now; a node that contains itself has none.
* `Store.grow`: a new node for a tree, with new nodes and lists for all below it.
* `Store.pushBack`, `Store.entry`, `Store.put`, `Store.assign`: the ways to change a node.  What is
  stored is a copy, taken before anything changes.
-/

namespace JsonDocument

/-- The identity of a node. -/
structure NodeId where
  index : Nat
  deriving DecidableEq, Repr

/-- The identity of a list. -/
structure ListId where
  index : Nat
  deriving DecidableEq, Repr

/-- A value without items. -/
inductive Scalar where
  | null
  | bool (value : Bool)
  | number (literal : Text)
  | string (text : Text)
  deriving DecidableEq, Repr

/-- What a node is. -/
inductive Content where
  | scalar (value : Scalar)
  | list (items : ListId)
  deriving DecidableEq, Repr

/-- What a list holds: the elements of an array or the members of an object. -/
inductive Items where
  | elements (nodes : List NodeId)
  | members (nodes : List (Text × NodeId))
  deriving DecidableEq, Repr

/-- All nodes and lists, by their identities. -/
structure Store where
  nodes : Array Content
  lists : Array Items

namespace Scalar

def toJson : Scalar → Json
  | null => .null
  | bool b => .bool b
  | number t => .number t
  | string t => .string t

end Scalar

namespace Items

def kind : Items → Kind
  | elements _ => .array
  | members _ => .object

end Items

namespace Store

def empty : Store := ⟨#[], #[]⟩

/-! ### Cells -/

/-- What a node is; one that does not exist counts as null. -/
def content (s : Store) (n : NodeId) : Content := s.nodes[n.index]?.getD (.scalar .null)

/-- What a list holds; one that does not exist counts as empty. -/
def items (s : Store) (l : ListId) : Items := s.lists[l.index]?.getD (.elements [])

def addNode (s : Store) (c : Content) : Store × NodeId :=
  ({ s with nodes := s.nodes.push c }, ⟨s.nodes.size⟩)

def addList (s : Store) (i : Items) : Store × ListId :=
  ({ s with lists := s.lists.push i }, ⟨s.lists.size⟩)

def setContent (s : Store) (n : NodeId) (c : Content) : Store :=
  { s with nodes := s.nodes.setIfInBounds n.index c }

def setItems (s : Store) (l : ListId) (i : Items) : Store :=
  { s with lists := s.lists.setIfInBounds l.index i }

/-! ### Trees -/

/-- The tree of a node, if no path through it is longer than `fuel` nodes. -/
def treeWithin (s : Store) : (fuel : Nat) → NodeId → Option Json
  | 0, _ => none
  | fuel + 1, n =>
      match s.content n with
      | .scalar v => some v.toJson
      | .list l =>
          match s.items l with
          | .elements ns => (ns.mapM (s.treeWithin fuel)).map .array
          | .members ms =>
              (ms.mapM fun m => (s.treeWithin fuel m.2).map (m.1, ·)).map .object

/-- The tree of a node.  A path without repetition is no longer than there are nodes, so only a
node that contains itself has no tree. -/
def treeOf (s : Store) (n : NodeId) : Except Fault Json :=
  match s.treeWithin s.nodes.size n with
  | some v => .ok v
  | none => .error .cyclic

mutual

/-- What a new node for a tree is, with new nodes and lists for all below it. -/
def growContent (s : Store) : Json → Store × Content
  | .null => (s, .scalar .null)
  | .bool b => (s, .scalar (.bool b))
  | .number t => (s, .scalar (.number t))
  | .string t => (s, .scalar (.string t))
  | .array xs =>
      let (s, ns) := growElements s xs
      let (s, l) := s.addList (.elements ns)
      (s, .list l)
  | .object ms =>
      let (s, ns) := growMembers s ms
      let (s, l) := s.addList (.members ns)
      (s, .list l)

def growElements (s : Store) : List Json → Store × List NodeId
  | [] => (s, [])
  | x :: xs =>
      let (s, c) := growContent s x
      let (s, n) := s.addNode c
      let (s, ns) := growElements s xs
      (s, n :: ns)

def growMembers (s : Store) : List (Text × Json) → Store × List (Text × NodeId)
  | [] => (s, [])
  | (k, x) :: ms =>
      let (s, c) := growContent s x
      let (s, n) := s.addNode c
      let (s, ns) := growMembers s ms
      (s, (k, n) :: ns)

end

/-- A new node for a tree. -/
def grow (s : Store) (v : Json) : Store × NodeId :=
  let (s, c) := s.growContent v
  s.addNode c

/-- A new node with the tree of another. -/
def clone (s : Store) (n : NodeId) : Except Fault (Store × NodeId) :=
  (s.treeOf n).map s.grow

/-! ### Nodes by kind -/

def kindOf (s : Store) (n : NodeId) : Kind :=
  match s.content n with
  | .scalar v => v.toJson.kind
  | .list l => (s.items l).kind

/-- The literal of a number. -/
def numberOf (s : Store) (n : NodeId) : Except Fault Text :=
  match s.content n with
  | .scalar (.number t) => .ok t
  | _ => .error (.wrongKind .number (s.kindOf n))

/-- The text of a string. -/
def stringOf (s : Store) (n : NodeId) : Except Fault Text :=
  match s.content n with
  | .scalar (.string t) => .ok t
  | _ => .error (.wrongKind .string (s.kindOf n))

/-- The truth value of a boolean, or `fallback` for any other kind. -/
def boolOf (s : Store) (fallback : Bool) (n : NodeId) : Bool :=
  match s.content n with
  | .scalar (.bool b) => b
  | _ => fallback

/-- The list of an array and what it holds. -/
def elementsOf (s : Store) (n : NodeId) : Except Fault (ListId × List NodeId) :=
  match s.content n with
  | .list l =>
      match s.items l with
      | .elements ns => .ok (l, ns)
      | .members _ => .error (.wrongKind .array .object)
  | .scalar v => .error (.wrongKind .array v.toJson.kind)

/-- The list of an object and what it holds. -/
def membersOf (s : Store) (n : NodeId) : Except Fault (ListId × List (Text × NodeId)) :=
  match s.content n with
  | .list l =>
      match s.items l with
      | .elements _ => .error (.wrongKind .object .array)
      | .members ms => .ok (l, ms)
  | .scalar v => .error (.wrongKind .object v.toJson.kind)

/-- The node of a member's first occurrence; a node that is no object has no members. -/
def find? (s : Store) (n : NodeId) (key : Text) : Option NodeId :=
  match s.membersOf n with
  | .ok (_, ms) => ms.lookup key
  | .error _ => none

/-! ### Changes -/

/-- Appends a copy of `value` to an array; the node is the copy. -/
def pushBack (s : Store) (n value : NodeId) : Except Fault (Store × NodeId) := do
  let (l, ns) ← s.elementsOf n
  let v ← s.treeOf value
  let (s, c) := s.grow v
  return (s.setItems l (.elements (ns ++ [c])), c)

/-- The node of a member of an object, which gets a new last member with null if it has none. -/
def entry (s : Store) (n : NodeId) (key : Text) : Except Fault (Store × NodeId) := do
  let (l, ms) ← s.membersOf n
  match ms.lookup key with
  | some c => return (s, c)
  | none =>
      let (s, c) := s.grow .null
      return (s.setItems l (.members (ms ++ [(key, c)])), c)

/-- Stores a copy of `value` under the first occurrence of a key, or in a new last member; the node
is the copy. -/
def put (s : Store) (n : NodeId) (key : Text) (value : NodeId) : Except Fault (Store × NodeId) := do
  let (l, ms) ← s.membersOf n
  let v ← s.treeOf value
  let (s, c) := s.grow v
  return (s.setItems l (.members (Members.put key c ms)), c)

/-- Makes a node what a copy of `value` is. -/
def assign (s : Store) (n value : NodeId) : Except Fault Store := do
  let v ← s.treeOf value
  let (s, c) := s.growContent v
  return s.setContent n c

/-- A new array of copies. -/
def array (s : Store) (values : List NodeId) : Except Fault (Store × NodeId) := do
  let vs ← values.mapM s.treeOf
  return s.grow (.array vs)

/-- A new object of copies under keys. -/
def object (s : Store) (members : List (Text × NodeId)) : Except Fault (Store × NodeId) := do
  let ms ← members.mapM fun m => (s.treeOf m.2).map (m.1, ·)
  return s.grow (.object ms)

end Store

end JsonDocument
