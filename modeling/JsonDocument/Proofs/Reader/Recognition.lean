import JsonDocument.Proofs.Reader.Consumed
import JsonDocument.Reader

/-!
# Proofs — Reader — recognition

A new reader accepts exactly the documents of the grammar whose nesting is within its limit, and it
gives the tree that the grammar derives.

* `readDocument_eq`: what a new reader finds, by the run that it makes.
* `readDocument_eq_ok_iff`: acceptance and the grammar are the same.
* `document_functional`: the grammar derives no more than one tree of a text.
-/

namespace JsonDocument
open JsonDocument.Reader JsonDocument.Grammar

/-- What a new reader finds is what its run comes to, with the place of a failure as an offset. -/
theorem readDocument_eq (d : Int) (b : Bytes) :
    readDocument d b =
      (run ⟨d, [], .wanted, b⟩).1.mapError fun e => ⟨e.reason, b.length - e.found.length⟩ := by
  unfold readDocument Reader.read
  simp only [ofBytes, offset, Nat.zero_add]
  split
  · next h => rw [h]; rfl
  · next h => rw [h]; rfl

theorem readDocument_eq_ok {d : Int} {b : Bytes} {v : Json} :
    readDocument d b = .ok v ↔ (run ⟨d, [], .wanted, b⟩).1 = .ok v := by
  rw [readDocument_eq]
  cases (run ⟨d, [], .wanted, b⟩).1 with
  | error e => exact ⟨fun h => (nomatch h), fun h => (nomatch h)⟩
  | ok x => exact ⟨fun h => by cases h; rfl, fun h => by cases h; rfl⟩

/-- With nothing open, the value that is held is the document at the end of the input. -/
theorem run_complete (room : Int) (v : Json) : run ⟨room, [], .held v, []⟩ = (.ok v, room) :=
  run_held room [] v []

/-- A document within the limit is accepted. -/
theorem readDocument_of_document {d : Nat} {b : Bytes} {v : Json} (h : Document b v)
    (hn : v.nesting ≤ d) : readDocument d b = .ok v := by
  have hrun : run ⟨d, [], .wanted, b ++ []⟩ = run ⟨d, [], .held v, []⟩ :=
    run_element h (by omega) (avoids_nil _)
  rw [List.append_nil, run_complete] at hrun
  rw [readDocument_eq_ok, hrun]

/-- What is accepted is a document within the limit. -/
theorem document_of_readDocument {d : Nat} {b : Bytes} {v : Json} (h : readDocument d b = .ok v) :
    Document b v ∧ v.nesting ≤ d := by
  rw [readDocument_eq_ok] at h
  exact document_of_run (.start d) (Prod.ext h rfl)

/-- **Recognition.**  The reader accepts exactly the documents of the grammar within its limit, each
with the tree that the grammar derives. -/
theorem readDocument_eq_ok_iff (d : Nat) (b : Bytes) (v : Json) :
    readDocument d b = .ok v ↔ Document b v ∧ v.nesting ≤ d :=
  ⟨document_of_readDocument, fun h => readDocument_of_document h.1 h.2⟩

/-- The grammar derives no more than one tree of a text. -/
theorem document_functional {b : Bytes} {v v' : Json} (h : Document b v) (h' : Document b v') :
    v = v' := by
  have h₁ := readDocument_of_document (d := max v.nesting v'.nesting) h (by omega)
  have h₂ := readDocument_of_document (d := max v.nesting v'.nesting) h' (by omega)
  exact Except.ok.inj (h₁.symm.trans h₂)

end JsonDocument
