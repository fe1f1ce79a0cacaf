import JsonDocument.Store

/-!
# Store — the items of a list

Reading and editing what a live list holds.  An edit puts a node itself into a list and takes no
copy.  Indices below zero or from the length up are out of range.
-/

namespace JsonDocument.Items

/-- An index into a list of a given length, if it is in range. -/
def inRange? (length : Nat) (index : Int) : Option Nat :=
  if 0 ≤ index ∧ index < length then some index.toNat else none

def length : Items → Nat
  | elements ns => ns.length
  | members ms => ms.length

/-- The nodes in order. -/
def nodes : Items → List NodeId
  | elements ns => ns
  | members ms => ms.map Prod.snd

/-- The node at an index. -/
def node? (i : Items) (index : Int) : Option NodeId :=
  (inRange? i.length index).bind (i.nodes[·]?)

/-- The keys of an object's members. -/
def keys : Items → Except Fault (List Text)
  | elements _ => .error (.wrongKind .object .array)
  | members ms => .ok (Members.keys ms)

/-- Appends a node, under a key to an object. -/
def push (key : Option Text) (n : NodeId) : Items → Except Fault Items
  | elements ns =>
      match key with
      | none => .ok (.elements (ns ++ [n]))
      | some _ => .error (.wrongKind .object .array)
  | members ms =>
      match key with
      | none => .error (.wrongKind .array .object)
      | some k => .ok (.members (ms ++ [(k, n)]))

/-- Puts a node, under a key in an object, in the place of an item. -/
def replace (index : Nat) (key : Option Text) (n : NodeId) : Items → Except Fault Items
  | elements ns =>
      match key with
      | none => .ok (.elements (ns.set index n))
      | some _ => .error (.wrongKind .object .array)
  | members ms =>
      match key with
      | none => .error (.wrongKind .array .object)
      | some k => .ok (.members (ms.set index (k, n)))

/-- Gives a member another key. -/
def rename (index : Nat) (key : Text) : Items → Except Fault Items
  | elements _ => .error (.wrongKind .object .array)
  | members ms => .ok (.members (ms.modify index fun m => (key, m.2)))

/-- Takes an item out. -/
def remove (index : Nat) : Items → Items
  | elements ns => .elements (ns.eraseIdx index)
  | members ms => .members (ms.eraseIdx index)

def reverse : Items → Items
  | elements ns => .elements ns.reverse
  | members ms => .members ms.reverse

def clear : Items → Items
  | elements _ => .elements []
  | members _ => .members []

end JsonDocument.Items
