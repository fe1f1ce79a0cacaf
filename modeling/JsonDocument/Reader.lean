import JsonDocument.Reader.Step

/-!
# Reader — documents

A reader reads one document from its input: a value with blanks around it and nothing else.  It may
be asked again; it then goes on from where it stopped, with the room it had left there, whether it
found a document or failed.

* `Reader.read`: the next document or failure, and the reader after it.
* `readDocument`: what a new reader finds.
-/

namespace JsonDocument

/-- A reader that has passed `position` bytes, has `unread` before it and may open `room` more
containers inside one another. -/
structure Reader where
  position : Nat
  unread : Bytes
  room : Int

namespace Reader

/-- A reader at the start of its input. -/
def ofBytes (maxDepth : Int) (input : Bytes) : Reader := ⟨0, input, maxDepth⟩

/-- How far along the place is at which `rest` is unread. -/
def offset (r : Reader) (rest : Bytes) : Nat := r.position + (r.unread.length - rest.length)

/-- Reads on: the document or the failure, and the reader after it. -/
def read (r : Reader) : Except Failure Json × Reader :=
  match run ⟨r.room, [], .wanted, r.unread⟩ with
  | (.ok v, room) => (.ok v, ⟨r.offset [], [], room⟩)
  | (.error e, room) => (.error ⟨e.reason, r.offset e.found⟩, ⟨r.offset e.unread, e.unread, room⟩)

/-- What a reader finds when it is asked again and again. -/
def readTimes : Nat → Reader → List (Except Failure Json)
  | 0, _ => []
  | n + 1, r => r.read.1 :: readTimes n r.read.2

end Reader

/-- The document that an input holds, with at most `maxDepth` containers inside one another. -/
def readDocument (maxDepth : Int) (input : Bytes) : Except Failure Json :=
  (Reader.ofBytes maxDepth input).read.1

end JsonDocument
