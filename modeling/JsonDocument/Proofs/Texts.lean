import JsonDocument.Proofs.Grammar
import JsonDocument.Proofs.Text.Paired

/-!
# Proofs — the texts of a tree

A tree carries texts: the literals of its numbers, its strings and the keys of its objects.  Nothing
in a tree says that the literals are numbers, or that the surrogates of the other texts are paired;
both are properties that a tree may have, at every depth (`Json.EachText`).

* `Json.NumbersValid`: every literal is a number of the grammar.
* `Json.HighsPaired`: in every string and key the high surrogates are paired.
-/

namespace JsonDocument

/-- The text of a number of the grammar. -/
def IsLiteral (t : Text) : Prop := ∃ n, Grammar.IsNumber n ∧ t = Grammar.asciiText n

namespace Json

mutual

/-- Every literal of a tree has the property `N`, and every string and key has `S`. -/
def EachText (N S : Text → Prop) : Json → Prop
  | null => True
  | bool _ => True
  | number t => N t
  | string t => S t
  | array xs => EachTextOfElements N S xs
  | object ms => EachTextOfMembers N S ms

def EachTextOfElements (N S : Text → Prop) : List Json → Prop
  | [] => True
  | x :: xs => EachText N S x ∧ EachTextOfElements N S xs

def EachTextOfMembers (N S : Text → Prop) : List (Text × Json) → Prop
  | [] => True
  | (k, x) :: ms => S k ∧ EachText N S x ∧ EachTextOfMembers N S ms

end

mutual

theorem EachText.imp {N N' S S' : Text → Prop} (hN : ∀ t, N t → N' t) (hS : ∀ t, S t → S' t) :
    (v : Json) → EachText N S v → EachText N' S' v
  | .null | .bool _ => id
  | .number t => hN t
  | .string t => hS t
  | .array xs => EachTextOfElements.imp hN hS xs
  | .object ms => EachTextOfMembers.imp hN hS ms

theorem EachTextOfElements.imp {N N' S S' : Text → Prop} (hN : ∀ t, N t → N' t)
    (hS : ∀ t, S t → S' t) : (xs : List Json) → EachTextOfElements N S xs →
      EachTextOfElements N' S' xs
  | [] => id
  | x :: xs => And.imp (EachText.imp hN hS x) (EachTextOfElements.imp hN hS xs)

theorem EachTextOfMembers.imp {N N' S S' : Text → Prop} (hN : ∀ t, N t → N' t)
    (hS : ∀ t, S t → S' t) : (ms : List (Text × Json)) → EachTextOfMembers N S ms →
      EachTextOfMembers N' S' ms
  | [] => id
  | (k, x) :: ms =>
      And.imp (hS k) (And.imp (EachText.imp hN hS x) (EachTextOfMembers.imp hN hS ms))

end

/-- Every number of the tree is written as the grammar says. -/
def NumbersValid (v : Json) : Prop := v.EachText IsLiteral fun _ => True

/-- In every string and key each high surrogate is followed at once by a low one. -/
def HighsPaired (v : Json) : Prop := v.EachText (fun _ => True) Text.HighsPaired

end Json

end JsonDocument
