import JsonDocument.Proofs.Reader.Runs
import JsonDocument.Proofs.Text.Escape
import JsonDocument.Proofs.Texts
import JsonDocument.Writer

/-!
# Proofs — Writer — what a text says of its tree

A written text says which tree it was written for, even one that no reader takes back.  The first
unit of a value says which kind it is of; a number ends where no unit of a number follows, a string
at the first quote that is not escaped, and the items of a container at its closing bracket, which
is no comma.  So a value and the text behind it are told from the two of them together
(`writeTo_injective`), under any layout.

* `Json.equals_iff`: equal trees are the same tree.
* `Kind.ofLead?`, `exists_lead`: the kind of a value from its first unit.
* `EndsDigits`: a text that does not go on with a number.
* `write_eq_write_iff`: texts are the same exactly for equal trees.
-/

namespace JsonDocument

/-! ### Equal trees -/

namespace Json

mutual

/-- Equal trees are the same tree. -/
theorem equals_iff : ∀ v v' : Json, v.equals v' = true ↔ v = v'
  | .null, v' => by cases v' <;> simp [equals]
  | .bool b, v' => by cases v' <;> simp [equals]
  | .number t, v' => by cases v' <;> simp [equals]
  | .string t, v' => by cases v' <;> simp [equals]
  | .array xs, v' => by cases v' <;> simp [equals, equalElements_iff xs]
  | .object ms, v' => by cases v' <;> simp [equals, equalMembers_iff ms]

theorem equalElements_iff : ∀ xs ys : List Json, equalElements xs ys = true ↔ xs = ys
  | [], ys => by cases ys <;> simp [equalElements]
  | x :: xs, ys => by cases ys <;> simp [equalElements, equals_iff x, equalElements_iff xs]

theorem equalMembers_iff : ∀ ms ns : List (Text × Json), equalMembers ms ns = true ↔ ms = ns
  | [], ns => by cases ns <;> simp [equalMembers]
  | (k, x) :: ms, ns => by
      cases ns <;> simp [equalMembers, equals_iff x, equalMembers_iff ms, Prod.ext_iff, and_assoc]

end

end Json

variable {o : WriteOptions} {level level' : Nat} {rest rest' : Text} {v v' : Json}

/-! ### Numbers -/

/-- A unit that occurs in numbers. -/
def numberUnit (u : CodeUnit) : Bool :=
  decide (0x30 ≤ u ∧ u ≤ 0x39) || u == 0x2B || u == 0x2D || u == 0x2E || u == 0x45 || u == 0x65

/-- No number goes on in the text. -/
def EndsDigits (t : Text) : Prop := ∀ u ∈ t.head?, numberUnit u = false

theorem endsDigits_nil : EndsDigits [] := fun _ h => nomatch h

theorem endsDigits_cons {u : CodeUnit} {t : Text} : EndsDigits (u :: t) ↔ numberUnit u = false :=
  ⟨fun h => h u rfl, fun h _ hu => Option.some.inj hu ▸ h⟩

theorem numberUnit_of_isDigit {b : UInt8} (h : Grammar.IsDigit b) :
    numberUnit b.toUInt16 = true := by
  have : (0x30 : UInt16) ≤ b.toUInt16 ∧ b.toUInt16 ≤ 0x39 := h
  rw [numberUnit, decide_eq_true this]
  rfl

theorem IsLiteral.numberUnit {t : Text} (h : IsLiteral t) : ∀ u ∈ t, numberUnit u = true := by
  obtain ⟨n, hn, rfl⟩ := h
  intro u hu
  obtain ⟨b, hb, rfl⟩ := List.mem_map.mp hu
  refine hn.forall_mem (P := fun b => JsonDocument.numberUnit b.toUInt16 = true)
    (fun _ => numberUnit_of_isDigit) ?_ b hb
  simp [JsonDocument.numberUnit]

/-- A number is told from what follows it. -/
theorem IsLiteral.append_injective {t t' : Text} (ht : IsLiteral t) (ht' : IsLiteral t')
    (hr : EndsDigits rest) (hr' : EndsDigits rest') (h : t ++ rest = t' ++ rest') :
    t = t' ∧ rest = rest' := by
  have hfront : ∀ {t r : Text}, IsLiteral t → EndsDigits r →
      (t ++ r).takeWhile JsonDocument.numberUnit = t := by
    intro t r ht hr
    rw [List.takeWhile_append_of_pos ht.numberUnit]
    cases r with
    | nil => rw [List.takeWhile_nil, List.append_nil]
    | cons u r => rw [List.takeWhile_cons_of_neg (by rw [hr u rfl]; decide), List.append_nil]
  have hn : t = t' := by rw [← hfront ht hr, h, hfront ht' hr']
  subst hn
  exact ⟨rfl, List.append_cancel_left h⟩

/-! ### The first unit -/

/-- The kind of the values that start with a unit. -/
def Kind.ofLead? (u : CodeUnit) : Option Kind :=
  if u = 0x6E then some .null
  else if u = 0x74 || u = 0x66 then some .bool
  else if u = 0x22 then some .string
  else if u = 0x5B then some .array
  else if u = 0x7B then some .object
  else if numberUnit u then some .number
  else none

theorem Kind.ofLead?_of_numberUnit {u : CodeUnit} (h : numberUnit u = true) :
    Kind.ofLead? u = some .number := by
  have hne : ∀ c : CodeUnit, numberUnit c = false → u ≠ c := by
    rintro c hc rfl
    rw [hc] at h
    cases h
  simp only [ofLead?, hne 0x6E rfl, hne 0x74 rfl, hne 0x66 rfl, hne 0x22 rfl, hne 0x5B rfl,
    hne 0x7B rfl, h, decide_false, Bool.or_self, Bool.false_eq_true, if_false, if_true]

theorem IsLiteral.exists_head {t : Text} (h : IsLiteral t) : ∃ u s, t = u :: s := by
  obtain ⟨n, hn, rfl⟩ := h
  obtain ⟨b, n, rfl, -⟩ := Reader.exists_head_of_isNumber hn
  exact ⟨_, _, rfl⟩

/-- The first unit of a value tells its kind. -/
theorem exists_lead (hv : v.NumbersValid) (o : WriteOptions) (level : Nat) (rest : Text) :
    ∃ u s, v.writeTo o level rest = u :: s ∧ Kind.ofLead? u = some v.kind := by
  unfold Json.writeTo
  split
  · exact ⟨_, _, rfl, rfl⟩
  · exact ⟨_, _, rfl, rfl⟩
  · exact ⟨_, _, rfl, rfl⟩
  · next t =>
      have ht : IsLiteral t := hv
      obtain ⟨u, s, rfl⟩ := ht.exists_head
      exact ⟨u, _, rfl, Kind.ofLead?_of_numberUnit (ht.numberUnit u (List.mem_cons_self ..))⟩
  · exact ⟨_, _, rfl, rfl⟩
  · exact ⟨_, _, rfl, rfl⟩
  · exact ⟨_, _, rfl, rfl⟩
  · exact ⟨_, _, rfl, rfl⟩
  · exact ⟨_, _, rfl, rfl⟩

theorem kind_eq_of_writeTo (hv : v.NumbersValid) (hv' : v'.NumbersValid)
    (h : v.writeTo o level rest = v'.writeTo o level rest') : v.kind = v'.kind := by
  obtain ⟨u, s, hs, hu⟩ := exists_lead hv o level rest
  obtain ⟨u', s', hs', hu'⟩ := exists_lead hv' o level rest'
  rw [hs, hs'] at h
  obtain ⟨rfl, -⟩ := List.cons.inj h
  exact Option.some.inj (hu.symm.trans hu')

/-! ### Layout -/

theorem lineBreak_injective (h : o.lineBreak level rest = o.lineBreak level rest') :
    rest = rest' := by
  unfold WriteOptions.lineBreak at h
  split at h
  · exact List.append_cancel_left (List.cons.inj h).2
  · exact h

/-- A line starts with its line break, or there is none. -/
theorem exists_head_lineBreak (o : WriteOptions) (level : Nat) (u : CodeUnit) (s : Text) :
    ∃ c s', o.lineBreak level (u :: s) = c :: s' ∧ (c = 0x0A ∨ c = u) := by
  unfold WriteOptions.lineBreak
  split
  · exact ⟨_, _, rfl, .inl rfl⟩
  · exact ⟨_, _, rfl, .inr rfl⟩

theorem endsDigits_lineBreak {u : CodeUnit} {s : Text} (h : numberUnit u = false) :
    EndsDigits (o.lineBreak level (u :: s)) := by
  obtain ⟨c, s', hs, hc⟩ := exists_head_lineBreak o level u s
  rw [hs, endsDigits_cons]
  rcases hc with rfl | rfl
  · rfl
  · exact h

/-- No line starts with a unit that neither ends a line nor starts what is on it. -/
theorem lineBreak_ne {u c : CodeUnit} {s t : Text} (hc : c ≠ 0x0A) (hu : c ≠ u) :
    o.lineBreak level (u :: s) ≠ c :: t := by
  intro h
  obtain ⟨d, s', hs, hd⟩ := exists_head_lineBreak o level u s
  rw [hs] at h
  obtain ⟨rfl, -⟩ := List.cons.inj h
  exact hd.elim hc hu

/-- A string is told from what follows its closing quote. -/
theorem quoted_injective {t t' : Text} (h : o.quoted t rest = o.quoted t' rest') :
    t = t' ∧ rest = rest' :=
  Escape.encode_quote_injective (List.cons.inj h).2

theorem label_injective {key key' : Text} (h : o.label key rest = o.label key' rest') :
    key = key' ∧ rest = rest' := by
  obtain ⟨hk, hr⟩ := quoted_injective h
  refine ⟨hk, ?_⟩
  split at hr
  · exact (List.cons.inj (List.cons.inj hr).2).2
  · exact (List.cons.inj hr).2

/-! ### Values -/

theorem endsDigits_writeElements {xs : List Json} :
    EndsDigits (Json.writeElements o level xs (o.lineBreak level' (0x5D :: rest))) := by
  cases xs with
  | nil => exact endsDigits_lineBreak rfl
  | cons x xs => exact endsDigits_cons.mpr rfl

theorem endsDigits_writeMembers {ms : List (Text × Json)} :
    EndsDigits (Json.writeMembers o level ms (o.lineBreak level' (0x7D :: rest))) := by
  cases ms with
  | nil => exact endsDigits_lineBreak rfl
  | cons m ms => exact endsDigits_cons.mpr rfl

/-- An empty array does not go on like one with an element. -/
theorem lineBreak_writeTo_ne (hv : v.NumbersValid) (s : Text) :
    o.lineBreak level (v.writeTo o level rest) ≠ 0x5D :: s := by
  obtain ⟨u, s', hs, hu⟩ := exists_lead hv o level rest
  rw [hs]
  refine lineBreak_ne (by decide) ?_
  rintro rfl
  cases hu

theorem lineBreak_label_ne {key s : Text} :
    o.lineBreak level (o.label key rest) ≠ 0x7D :: s :=
  lineBreak_ne (by decide) (by decide)

mutual

/-- A value and what follows it are told from the text of both. -/
theorem writeTo_injective (o : WriteOptions) : ∀ (v v' : Json) (level : Nat) (rest rest' : Text),
    v.NumbersValid → v'.NumbersValid → EndsDigits rest → EndsDigits rest' →
      v.writeTo o level rest = v'.writeTo o level rest' → v = v' ∧ rest = rest'
  | .null, v', level, rest, rest', hv, hv', _, _, h => by
      have hk := kind_eq_of_writeTo hv hv' h
      cases v' with
      | null => exact ⟨rfl, List.append_cancel_left h⟩
      | _ => cases hk
  | .bool b, v', level, rest, rest', hv, hv', _, _, h => by
      have hk := kind_eq_of_writeTo hv hv' h
      cases v' with
      | bool b' =>
          cases b <;> cases b'
          · exact ⟨rfl, List.append_cancel_left h⟩
          · cases h
          · cases h
          · exact ⟨rfl, List.append_cancel_left h⟩
      | _ => cases hk
  | .number t, v', level, rest, rest', hv, hv', hr, hr', h => by
      have hk := kind_eq_of_writeTo hv hv' h
      cases v' with
      | number t' =>
          obtain ⟨rfl, hrest⟩ := IsLiteral.append_injective hv hv' hr hr' h
          exact ⟨rfl, hrest⟩
      | _ => cases hk
  | .string t, v', level, rest, rest', hv, hv', _, _, h => by
      have hk := kind_eq_of_writeTo hv hv' h
      cases v' with
      | string t' =>
          obtain ⟨rfl, hrest⟩ := quoted_injective h
          exact ⟨rfl, hrest⟩
      | _ => cases hk
  | .array [], v', level, rest, rest', hv, hv', _, _, h => by
      have hk := kind_eq_of_writeTo hv hv' h
      cases v' with
      | array ys =>
          cases ys with
          | nil => exact ⟨rfl, (List.cons.inj (List.cons.inj h).2).2⟩
          | cons y ys => exact absurd (List.cons.inj h).2.symm (lineBreak_writeTo_ne hv'.1 rest)
      | _ => cases hk
  | .array (x :: xs), v', level, rest, rest', hv, hv', _, _, h => by
      have hk := kind_eq_of_writeTo hv hv' h
      cases v' with
      | array ys =>
          cases ys with
          | nil => exact absurd (List.cons.inj h).2 (lineBreak_writeTo_ne hv.1 rest')
          | cons y ys =>
              obtain ⟨rfl, hs⟩ := writeTo_injective o x y _ _ _ hv.1 hv'.1
                endsDigits_writeElements endsDigits_writeElements
                (lineBreak_injective (List.cons.inj h).2)
              obtain ⟨rfl, hrest⟩ := writeElements_injective o xs ys _ _ _ _ hv.2 hv'.2 hs
              exact ⟨rfl, hrest⟩
      | _ => cases hk
  | .object [], v', level, rest, rest', hv, hv', _, _, h => by
      have hk := kind_eq_of_writeTo hv hv' h
      cases v' with
      | object ns =>
          cases ns with
          | nil => exact ⟨rfl, (List.cons.inj (List.cons.inj h).2).2⟩
          | cons n ns => exact absurd (List.cons.inj h).2.symm lineBreak_label_ne
      | _ => cases hk
  | .object ((k, x) :: ms), v', level, rest, rest', hv, hv', _, _, h => by
      have hk := kind_eq_of_writeTo hv hv' h
      cases v' with
      | object ns =>
          cases ns with
          | nil => exact absurd (List.cons.inj h).2 lineBreak_label_ne
          | cons n ns =>
              obtain ⟨l, y⟩ := n
              obtain ⟨rfl, hx⟩ := label_injective (lineBreak_injective (List.cons.inj h).2)
              obtain ⟨rfl, hs⟩ := writeTo_injective o x y _ _ _ hv.2.1 hv'.2.1
                endsDigits_writeMembers endsDigits_writeMembers hx
              obtain ⟨rfl, hrest⟩ := writeMembers_injective o ms ns _ _ _ _ hv.2.2 hv'.2.2 hs
              exact ⟨rfl, hrest⟩
      | _ => cases hk

/-- The elements after the first end at the closing bracket. -/
theorem writeElements_injective (o : WriteOptions) :
    ∀ (xs ys : List Json) (level level' : Nat) (rest rest' : Text),
      Json.EachTextOfElements IsLiteral (fun _ => True) xs →
      Json.EachTextOfElements IsLiteral (fun _ => True) ys →
      Json.writeElements o level xs (o.lineBreak level' (0x5D :: rest)) =
        Json.writeElements o level ys (o.lineBreak level' (0x5D :: rest')) →
      xs = ys ∧ rest = rest'
  | [], [], _, _, _, _, _, _, h => ⟨rfl, (List.cons.inj (lineBreak_injective h)).2⟩
  | [], _ :: _, _, _, _, _, _, _, h => absurd h (lineBreak_ne (by decide) (by decide))
  | _ :: _, [], _, _, _, _, _, _, h => absurd h.symm (lineBreak_ne (by decide) (by decide))
  | x :: xs, y :: ys, _, _, _, _, hxs, hys, h => by
      obtain ⟨rfl, hs⟩ := writeTo_injective o x y _ _ _ hxs.1 hys.1 endsDigits_writeElements
        endsDigits_writeElements (lineBreak_injective (List.cons.inj h).2)
      obtain ⟨rfl, hrest⟩ := writeElements_injective o xs ys _ _ _ _ hxs.2 hys.2 hs
      exact ⟨rfl, hrest⟩

/-- The members after the first end at the closing brace. -/
theorem writeMembers_injective (o : WriteOptions) :
    ∀ (ms ns : List (Text × Json)) (level level' : Nat) (rest rest' : Text),
      Json.EachTextOfMembers IsLiteral (fun _ => True) ms →
      Json.EachTextOfMembers IsLiteral (fun _ => True) ns →
      Json.writeMembers o level ms (o.lineBreak level' (0x7D :: rest)) =
        Json.writeMembers o level ns (o.lineBreak level' (0x7D :: rest')) →
      ms = ns ∧ rest = rest'
  | [], [], _, _, _, _, _, _, h => ⟨rfl, (List.cons.inj (lineBreak_injective h)).2⟩
  | [], _ :: _, _, _, _, _, _, _, h => absurd h (lineBreak_ne (by decide) (by decide))
  | _ :: _, [], _, _, _, _, _, _, h => absurd h.symm (lineBreak_ne (by decide) (by decide))
  | (k, x) :: ms, (l, y) :: ns, _, _, _, _, hms, hns, h => by
      obtain ⟨rfl, hx⟩ := label_injective (lineBreak_injective (List.cons.inj h).2)
      obtain ⟨rfl, hs⟩ := writeTo_injective o x y _ _ _ hms.2.1 hns.2.1 endsDigits_writeMembers
        endsDigits_writeMembers hx
      obtain ⟨rfl, hrest⟩ := writeMembers_injective o ms ns _ _ _ _ hms.2.2 hns.2.2 hs
      exact ⟨rfl, hrest⟩

end

/-! ### Whole texts -/

theorem write_injective (hv : v.NumbersValid) (hv' : v'.NumbersValid)
    (h : v.write o = v'.write o) : v = v' :=
  (writeTo_injective o v v' 0 [] [] hv hv' endsDigits_nil endsDigits_nil h).1

/-- **Texts and trees.**  Under any layout two trees with valid numbers have the same text exactly
if they are equal, whether or not their surrogates are paired.  Equal trees are the same tree, so
equality is an equivalence, and comparing texts without blanks is as good. -/
theorem write_eq_write_iff (o : WriteOptions) {v v' : Json} (hv : v.NumbersValid)
    (hv' : v'.NumbersValid) :
    (v.write o = v'.write o ↔ v.equals v' = true) ∧ (v.equals v' = true ↔ v = v') ∧
      (v.compact = v'.compact ↔ v.equals v' = true) ∧
      Equivalence fun a b : Json => a.equals b = true := by
  have hwrite : ∀ o, v.write o = v'.write o ↔ v.equals v' = true := fun o =>
    ⟨fun h => (Json.equals_iff v v').mpr (write_injective hv hv' h),
      fun h => congrArg (Json.write o) ((Json.equals_iff v v').mp h)⟩
  refine ⟨hwrite o, Json.equals_iff v v', hwrite .compact, ?_⟩
  simp only [Json.equals_iff]
  exact eq_equivalence

/-- A lone high surrogate is not written like a lone low one. -/
theorem write_lone_surrogates_ne :
    (Json.array [.number [0x30], .string [0xD800]]).NumbersValid ∧
      (Json.array [.number [0x30], .string [0xDC00]]).NumbersValid ∧
      (Json.array [.number [0x30], .string [0xD800]]).write .compact ≠
        (Json.array [.number [0x30], .string [0xDC00]]).write .compact := by
  have hzero : IsLiteral [0x30] := ⟨[0x30], .mk (.inl rfl) .zero .none .none, rfl⟩
  have hv : (Json.array [.number [0x30], .string [0xD800]]).NumbersValid :=
    ⟨hzero, trivial, trivial⟩
  have hv' : (Json.array [.number [0x30], .string [0xDC00]]).NumbersValid :=
    ⟨hzero, trivial, trivial⟩
  refine ⟨hv, hv', fun h => ?_⟩
  have heq := (write_eq_write_iff .compact hv hv').1.mp h
  exact absurd heq (by decide)

end JsonDocument
