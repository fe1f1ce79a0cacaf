import JsonDocument.Proofs.RoundTrip

/-!
# Proofs — rewriting documents

Whatever is read can be written and read again.  The grammar derives literals of numbers and texts
with paired high surrogates only: a raw character above the basic plane spells a whole pair, and so
does an escaped high surrogate, which goes with an escaped low one.  Nothing that stands beside
another part of a string can come between the halves.

* `Grammar.Body.highsPaired`: what stands between the quotes of a string.
* `Grammar.Value.eachText`: the texts of a tree that the grammar derives.
* `readDocument_rewritable`: the tree of an input is read back from its text.
-/

namespace JsonDocument

namespace Grammar

/-! ### Strings -/

/-- A character in front leaves a text paired, or unpaired. -/
theorem highsPaired_ofCodePoint {c : Nat} (hc : IsScalarValue c) (t : Text) :
    (Text.ofCodePoint c ++ t).HighsPaired ↔ t.HighsPaired := by
  unfold IsScalarValue at hc
  unfold Text.ofCodePoint
  split
  · refine Text.highsPaired_cons fun hu => ?_
    rw [CodeUnit.isHigh_iff, UInt16.toNat_ofNat'] at hu
    omega
  · refine Text.highsPaired_pair ?_
    rw [CodeUnit.isLow_iff, UInt16.toNat_ofNat']
    omega

theorem not_isHigh_of_mem_shortEscapes {b : UInt8} {u : CodeUnit} (h : (b, u) ∈ shortEscapes) :
    ¬ u.isHigh := by
  have : ∀ e ∈ shortEscapes, ¬ e.2.isHigh := by
    simp [shortEscapes, CodeUnit.isHigh, Surrogate.isHigh]
  exact this (b, u) h

/-- What an escape stands for leaves a text paired. -/
theorem Escape.highsPaired {x : Bytes} {u : Text} (h : Escape x u) {t : Text}
    (ht : t.HighsPaired) : (u ++ t).HighsPaired := by
  cases h with
  | short h => exact (Text.highsPaired_cons (not_isHigh_of_mem_shortEscapes h)).mpr ht
  | unit _ hu => exact (Text.highsPaired_cons hu).mpr ht
  | pair _ _ _ hv => exact (Text.highsPaired_pair hv).mpr ht

theorem Body.highsPaired {s : Bytes} {t : Text} (h : Body s t) : t.HighsPaired := by
  induction h with
  | nil => trivial
  | raw hc _ ih => exact (highsPaired_ofCodePoint hc.1 _).mpr ih
  | escape hx _ ih => exact hx.highsPaired ih

theorem Quoted.highsPaired {s : Bytes} {t : Text} : Quoted s t → t.HighsPaired
  | .mk h => h.highsPaired

theorem Label.highsPaired {s : Bytes} {key : Text} : Label s key → key.HighsPaired
  | .mk _ hk _ => hk.highsPaired

/-! ### Trees -/

mutual

/-- The texts of a tree that the grammar derives. -/
theorem Value.eachText {s : Bytes} {v : Json} :
    Value s v → v.EachText IsLiteral Text.HighsPaired
  | .null | .true | .false => trivial
  | .number h => ⟨_, h, rfl⟩
  | .string h => h.highsPaired
  | .emptyArray _ | .emptyObject _ => trivial
  | .array h => h.eachText
  | .object h => h.eachText

theorem Element.eachText {s : Bytes} {v : Json} :
    Element s v → v.EachText IsLiteral Text.HighsPaired
  | .mk _ h _ => h.eachText

theorem Elements.eachText {s : Bytes} {xs : List Json} :
    Elements s xs → Json.EachTextOfElements IsLiteral Text.HighsPaired xs
  | .one h => ⟨h.eachText, trivial⟩
  | .cons h h' => ⟨h.eachText, h'.eachText⟩

theorem Members.eachText {s : Bytes} {ms : List (Text × Json)} :
    Members s ms → Json.EachTextOfMembers IsLiteral Text.HighsPaired ms
  | .one hk h => ⟨hk.highsPaired, h.eachText, trivial⟩
  | .cons hk h h' => ⟨hk.highsPaired, h.eachText, h'.eachText⟩

end

end Grammar

/-! ### Reading again -/

/-- A tree that fits is read back from its text. -/
theorem readDocument_of_fits {v : Json} {d : Nat} (hv : v.NumbersValid) (hn : v.nesting ≤ d)
    (hp : v.HighsPaired) (o : WriteOptions) : readDocument d (Utf8.encode (v.write o)) = .ok v := by
  have hrun := (Reader.run_writeTo o v 0 d [] [] hv (by omega) (Reader.avoids_nil _)).1
    ⟨by omega, hp⟩
  rw [readDocument_eq_ok, Json.write, hrun]
  exact congrArg Prod.fst (run_complete d v)

/-- **Rewriting.**  In the tree of an input every number is one of the grammar, every high surrogate
is followed at once by a low one, and the nesting is within the limit.  So in any layout it is
written as a text that is read as the same tree under the same limit. -/
theorem readDocument_rewritable {d : Nat} {b : Bytes} {v : Json} (h : readDocument d b = .ok v) :
    v.NumbersValid ∧ v.HighsPaired ∧ v.nesting ≤ d ∧
      ∀ o : WriteOptions, readDocument d (Utf8.encode (v.write o)) = .ok v := by
  obtain ⟨hdoc, hn⟩ := document_of_readDocument h
  have htexts := Grammar.Element.eachText hdoc
  have hv : v.NumbersValid := Json.EachText.imp (fun _ => id) (fun _ _ => trivial) v htexts
  have hp : v.HighsPaired := Json.EachText.imp (fun _ _ => trivial) (fun _ => id) v htexts
  exact ⟨hv, hp, hn, readDocument_of_fits hv hn hp⟩

/-- An escaped pair is written as a pair, on a line of its own, and read again. -/
theorem readDocument_rewritable_pair :
    readDocument 1 [0x5B, 0x22, 0x5C, 0x75, 0x64, 0x38, 0x33, 0x64,
      0x5C, 0x75, 0x64, 0x65, 0x30, 0x30, 0x22, 0x5D] = .ok (.array [.string [0xD83D, 0xDE00]]) ∧
      readDocument 1 (Utf8.encode ((Json.array [.string [0xD83D, 0xDE00]]).write
        ⟨true, 2, false⟩)) = .ok (.array [.string [0xD83D, 0xDE00]]) := by
  have hhigh : Grammar.HexUnit [0x64, 0x38, 0x33, 0x64] 0xD83D :=
    .mk (.lower (n := 13) (by decide) (by decide)) (.decimal (n := 8) (by decide))
      (.decimal (n := 3) (by decide)) (.lower (n := 13) (by decide) (by decide))
  have hlow : Grammar.HexUnit [0x64, 0x65, 0x30, 0x30] 0xDE00 :=
    .mk (.lower (n := 13) (by decide) (by decide)) (.lower (n := 14) (by decide) (by decide))
      (.decimal (n := 0) (by decide)) (.decimal (n := 0) (by decide))
  have hdoc : Grammar.Document [0x5B, 0x22, 0x5C, 0x75, 0x64, 0x38, 0x33, 0x64,
      0x5C, 0x75, 0x64, 0x65, 0x30, 0x30, 0x22, 0x5D] (.array [.string [0xD83D, 0xDE00]]) :=
    .of_value (.array (.one (.of_value (.string (.mk
      (.escape (.pair hhigh (by decide) hlow (by decide)) .nil))))))
  have h := readDocument_of_document (d := 1) hdoc (by decide)
  obtain ⟨-, -, -, hwrite⟩ := readDocument_rewritable h
  exact ⟨h, hwrite ⟨true, 2, false⟩⟩

end JsonDocument
