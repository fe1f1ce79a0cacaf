import JsonDocument.Proofs.Reader.Viability

/-!
# Proofs — Reader — the spelling of a string

The reader decodes the raw bytes of a string in runs, late, and puts the units of escapes between
them.  Here a string is read in one pass instead: what stands before its closing quote is a sequence
of tokens, each a raw character, a short escape or an escape by number, and the text is what the
tokens stand for, one after the other.  No token looks at its neighbours; the sequence as a whole
must only see to it that an escape for a high surrogate has one for a low surrogate right behind it.
So a character may be spelled in any of its ways, whatever stands around it.

The halves of an escaped pair always name a code point that there is, so among all the failures of a
reader that of a code point is never reported.

* `Grammar.Token`, `Grammar.HighsFollowed`: the tokens of a string, and their one condition.
* `Grammar.Spelling`: the ways to spell one character.
* `ne_codePoint_of_run`: what is never reported.
* `scanBody_one_pass`: what is read, and from any spelling.
-/

namespace JsonDocument

namespace Grammar

/-! ### Tokens -/

/-- A raw character, a short escape, or an escape by number. -/
inductive Token where
  | raw (c : Nat) (h : Raw c)
  | short (b : UInt8) (u : CodeUnit) (h : (b, u) ∈ shortEscapes)
  | numbered (x : Bytes) (u : CodeUnit) (h : HexUnit x u)

namespace Token

/-- How the token is written. -/
def bytes : Token → Bytes
  | raw c _ => Utf8.encodePoint c
  | short b _ _ => [0x5C, b]
  | numbered x _ _ => 0x5C :: 0x75 :: x

/-- What it stands for. -/
def units : Token → Text
  | raw c _ => Text.ofCodePoint c
  | short _ u _ => [u]
  | numbered _ u _ => [u]

/-- Whether it is an escape for a high surrogate. -/
def Opens : Token → Prop
  | numbered _ u _ => u.isHigh
  | _ => False

/-- Whether it is an escape for a low surrogate. -/
def Closes : Token → Prop
  | numbered _ u _ => u.isLow
  | _ => False

end Token

/-- Every escape for a high surrogate has one for a low surrogate right behind it. -/
def HighsFollowed : List Token → Prop
  | [] => True
  | k :: ks => (k.Opens → ∃ k' ∈ ks.head?, k'.Closes) ∧ HighsFollowed ks

variable {x : Bytes} {t : Text} {ks : List Token}

theorem HighsFollowed.cons {k : Token} (hk : ¬ k.Opens) (h : HighsFollowed ks) :
    HighsFollowed (k :: ks) := ⟨fun ho => absurd ho hk, h⟩

/-- A body is made of tokens. -/
theorem exists_tokens_of_body (h : Body x t) :
    ∃ ks, HighsFollowed ks ∧ x = ks.flatMap Token.bytes ∧ t = ks.flatMap Token.units := by
  induction h with
  | nil => exact ⟨[], trivial, rfl, rfl⟩
  | @raw c _ _ hc _ ih =>
      obtain ⟨ks, hks, rfl, rfl⟩ := ih
      exact ⟨.raw c hc :: ks, hks.cons id, rfl, rfl⟩
  | escape he _ ih =>
      obtain ⟨ks, hks, rfl, rfl⟩ := ih
      cases he with
      | @short b u h => exact ⟨.short b u h :: ks, hks.cons id, rfl, rfl⟩
      | @unit x u h hu => exact ⟨.numbered x u h :: ks, hks.cons hu, rfl, rfl⟩
      | @pair x y u v h hu h' hv =>
          have hks' : HighsFollowed (.numbered y v h' :: ks) :=
            hks.cons (CodeUnit.not_isHigh_of_isLow hv)
          refine ⟨.numbered x u h :: .numbered y v h' :: ks, ⟨fun _ => ⟨_, rfl, hv⟩, hks'⟩, ?_, rfl⟩
          simp [Token.bytes]

theorem exists_of_closes {k : Token} (h : k.Closes) :
    ∃ y v hy, k = .numbered y v hy ∧ v.isLow := by
  cases k with
  | numbered y v hy => exact ⟨y, v, hy, rfl, h⟩
  | _ => cases h

/-- Tokens make up a body. -/
theorem body_of_tokens : ∀ ks : List Token, HighsFollowed ks →
    Body (ks.flatMap Token.bytes) (ks.flatMap Token.units)
  | [], _ => .nil
  | .raw _ hc :: ks, h => .raw hc (body_of_tokens ks h.2)
  | .short _ _ hb :: ks, h => .escape (.short hb) (body_of_tokens ks h.2)
  | [.numbered x u hx], h => by
      have hu : ¬ u.isHigh := by
        intro hu
        obtain ⟨_, hn, -⟩ := h.1 hu
        cases hn
      exact .escape (.unit hx hu) .nil
  | .numbered x u hx :: k :: ks, h => by
      by_cases hu : u.isHigh
      · -- the escape behind it is the other half of the pair
        obtain ⟨_, ⟨⟩, hc⟩ := h.1 hu
        obtain ⟨y, v, hy, rfl, hv⟩ := exists_of_closes hc
        have := Body.escape (.pair hx hu hy hv) (body_of_tokens ks h.2.2)
        simpa [Token.bytes, Token.units] using this
      · exact .escape (.unit hx hu) (body_of_tokens (k :: ks) h.2)

/-! ### Characters -/

/-- The ways to spell a character, which may be a low surrogate: raw, or by an escape for its unit
or for its pair of units. -/
inductive Spelling : Bytes → Nat → Prop where
  | raw {c : Nat} (h : Raw c) : Spelling (Utf8.encodePoint c) c
  | escaped {x : Bytes} {c : Nat} (h : Escape x (Text.ofCodePoint c)) : Spelling (0x5C :: x) c

/-- Characters that are spelled one after the other, each in any of its ways. -/
inductive Spellings : Bytes → List Nat → Prop where
  | nil : Spellings [] []
  | cons {x s : Bytes} {c : Nat} {cs : List Nat} (hc : Spelling x c) (h : Spellings s cs) :
      Spellings (x ++ s) (c :: cs)

/-- Spelled characters make up a body, with the units of the characters as its text. -/
theorem Spellings.body {cs : List Nat} (h : Spellings x cs) :
    Body x (cs.flatMap Text.ofCodePoint) := by
  induction h with
  | nil => exact .nil
  | cons hc _ ih =>
      cases hc with
      | raw hc => exact .raw hc ih
      | escaped he => exact .escape he ih

end Grammar

namespace Reader
open JsonDocument.Grammar

variable {s r : Bytes} {t : Text} {e : Stop}

/-! ### Where a run stops -/

theorem ne_codePoint_at {reason : Reason} (h : reason ≠ .codePoint) (s : Bytes) :
    (Stop.at reason s).reason ≠ .codePoint := h

theorem ne_codePoint_of_inString {reason : Reason} (h : reason.InString) : reason ≠ .codePoint := by
  rintro rfl
  exact absurd h (by decide)

theorem ne_codePoint_of_pointing {reason : Reason} (h : reason.Pointing) : reason ≠ .codePoint := by
  rintro rfl
  exact absurd h (by decide)

/-- No other failure has the message of a code point. -/
theorem message_ne_of_ne_codePoint {reason : Reason} (h : reason ≠ .codePoint) :
    reason.message ≠ "Invalid unicode codepoint" := by
  revert h
  cases reason <;> decide

variable {room room' : Int} {stack : List Frame}

theorem reason_of_scanDigits {reason : Reason} (h : scanDigits reason s = .error e) :
    e.reason = reason := by
  unfold scanDigits at h
  split at h
  · cases h; rfl
  · cases h

theorem reason_of_scanInteger (h : scanInteger s = .error e) : e.reason = .number := by
  unfold scanInteger at h
  split at h
  · cases h; rfl
  split at h
  · cases h
  · exact reason_of_scanDigits h

theorem reason_of_scanFraction (h : scanFraction s = .error e) : e.reason = .fraction := by
  unfold scanFraction at h
  split at h
  · cases h
  split at h
  · split at h
    next hd => cases h; exact reason_of_scanDigits hd
    cases h
  · cases h

theorem reason_of_scanExponent (h : scanExponent s = .error e) : e.reason = .exponent := by
  unfold scanExponent at h
  split at h
  · cases h
  split at h
  · split at h
    next hd => cases h; exact reason_of_scanDigits hd
    cases h
  · cases h

theorem pointing_of_scanNumber (h : scanNumber s = .error e) : e.reason.Pointing := by
  unfold scanNumber at h
  split at h
  next hi => cases h; rw [reason_of_scanInteger hi]; decide
  split at h
  next hf => cases h; rw [reason_of_scanFraction hf]; decide
  split at h
  next hx => cases h; rw [reason_of_scanExponent hx]; decide
  cases h

theorem ne_codePoint_of_scanKey (h : scanKey s = .error e) : e.reason ≠ .codePoint := by
  unfold scanKey at h
  split at h
  next hk =>
    cases h
    unfold scanString at hk
    split at hk
    · cases hk; exact ne_codePoint_at (by decide) _
    split at hk
    · exact ne_codePoint_of_inString (inString_of_scanBody hk)
    · cases hk; exact ne_codePoint_at (by decide) _
  split at h
  · cases h
  · cases h; exact ne_codePoint_at (by decide) _

theorem ne_codePoint_of_scanWord {α : Type} {word : Bytes} {a : α}
    (h : scanWord word a s = .error e) : e.reason ≠ .codePoint := by
  unfold scanWord at h
  split at h
  · cases h
  · cases h; exact ne_codePoint_at (by decide) _

theorem ne_codePoint_of_nextMember {read : List (Text × Json)}
    (h : nextMember room stack read s = .halt (.error e) room') : e.reason ≠ .codePoint := by
  unfold nextMember at h
  split at h
  · cases h
  next hk => cases h; exact ne_codePoint_of_scanKey hk

theorem ne_codePoint_of_start (h : start room stack s = .halt (.error e) room') :
    e.reason ≠ .codePoint := by
  cases s with
  | nil => cases h; exact ne_codePoint_at (by decide) _
  | cons b s =>
      simp only [start] at h
      split at h
      · exact ne_codePoint_of_scanWord (leaf_eq_error h)
      split at h
      · exact ne_codePoint_of_scanWord (leaf_eq_error h)
      split at h
      · exact ne_codePoint_of_scanWord (leaf_eq_error h)
      split at h
      · exact ne_codePoint_of_inString (inString_of_scanBody (leaf_eq_error h))
      split at h
      · unfold openObject at h
        split at h
        · cases h; exact ne_codePoint_at (by decide) _
        split at h
        · cases h
        · exact ne_codePoint_of_nextMember h
      split at h
      · unfold openArray at h
        split at h
        · cases h; exact ne_codePoint_at (by decide) _
        split at h <;> cases h
      split at h
      · exact ne_codePoint_of_pointing (pointing_of_scanNumber (leaf_eq_error h))
      · cases h; exact ne_codePoint_at (by decide) _

theorem ne_codePoint_of_resume {v : Json} (h : resume room v stack s = .halt (.error e) room') :
    e.reason ≠ .codePoint := by
  unfold resume at h
  split at h
  · cases h
  · cases h; exact ne_codePoint_at (by decide) _
  · cases h; exact ne_codePoint_at (by decide) _
  · split at h
    · cases h
    split at h
    · cases h
    · cases h; exact ne_codePoint_at (by decide) _
  · cases h; exact ne_codePoint_at (by decide) _
  · split at h
    · cases h
    split at h
    · exact ne_codePoint_of_nextMember h
    · cases h; exact ne_codePoint_at (by decide) _

theorem ne_codePoint_of_step {st : State} (h : step st = .halt (.error e) room') :
    e.reason ≠ .codePoint := by
  unfold step at h
  split at h
  · exact ne_codePoint_of_start h
  · exact ne_codePoint_of_resume h

theorem ne_codePoint_of_run {st : State} (h : (run st).1 = .error e) : e.reason ≠ .codePoint := by
  fun_induction run st with
  | case1 _ _ _ ih => exact ih h
  | case2 st result room' hs =>
      cases h
      exact ne_codePoint_of_step hs

/-- However often a reader is asked, it reports no code point. -/
theorem ne_codePoint_of_read {r : Reader} {e : Failure} (h : r.read.1 = .error e) :
    e.reason ≠ .codePoint := by
  unfold read at h
  split at h
  · cases h
  next hr => cases h; exact ne_codePoint_of_run (congrArg Prod.fst hr)

/-! ### Strings in one pass -/

/-- **One pass.**  A string is read exactly if what stands before its closing quote is a sequence of
tokens in which every escape for a high surrogate has one for a low surrogate right behind it, and
then its text is what the tokens stand for; characters may be spelled in any of their ways and give
the same text; and neither a string nor a reader ever fails for its code point. -/
theorem scanBody_one_pass :
    (∀ s t r, scanBody s = .ok (t, r) ↔ ∃ ks, HighsFollowed ks ∧
      s = ks.flatMap Token.bytes ++ 0x22 :: r ∧ t = ks.flatMap Token.units) ∧
    (∀ cs x y, Spellings x cs → Spellings y cs → ∀ r,
      scanBody (x ++ 0x22 :: r) = .ok (cs.flatMap Text.ofCodePoint, r) ∧
      scanBody (y ++ 0x22 :: r) = .ok (cs.flatMap Text.ofCodePoint, r)) ∧
    (∀ s e, scanBody s = .error e → e.reason.message ≠ "Invalid unicode codepoint") ∧
    ∀ (r : Reader) e, r.read.1 = .error e → e.reason.message ≠ "Invalid unicode codepoint" := by
  refine ⟨fun s t r => ?_, fun cs x y hx hy r => ?_,
    fun s e h => message_ne_of_ne_codePoint (ne_codePoint_of_inString (inString_of_scanBody h)),
    fun r e h => message_ne_of_ne_codePoint (ne_codePoint_of_read h)⟩
  · rw [scanBody_eq_ok_iff]
    constructor
    · rintro ⟨x, rfl, hx⟩
      obtain ⟨ks, hks, rfl, rfl⟩ := exists_tokens_of_body hx
      exact ⟨ks, hks, rfl, rfl⟩
    · rintro ⟨ks, hks, rfl, rfl⟩
      exact ⟨_, rfl, body_of_tokens ks hks⟩
  · exact ⟨scanBody_append hx.body r, scanBody_append hy.body r⟩

end Reader

end JsonDocument
