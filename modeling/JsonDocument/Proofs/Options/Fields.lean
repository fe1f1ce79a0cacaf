import JsonDocument.Options
import JsonDocument.Proofs.Fault
import JsonDocument.Proofs.Number.Integers

/-!
# Proofs — Options — what a field takes

A field takes truth values, or integers from a least one up to `2 ^ 53 - 1` (`Field.Takes`).  Where
nothing is given for it the field has its default, which it takes itself; what it does not take is
found wrong, each thing with a message of its own (`Field.Finds`).

* `Field.Yields`: the value that a field has.
* `Field.Finds.eq_nil_iff`, `Field.Finds.unique`: where it has none, what is found is determined.
* `Judged`: the check of a field agrees with this.
* `judged_integer`, `judged_truth`: both families of checks do.
* `Field.Yields.exists_taken`: the value of a field can be given for it.
-/

namespace JsonDocument

/-- The value of a field. -/
inductive Setting where
  | integer (value : Nat)
  | truth (value : Bool)

namespace Field

/-! ### What is given for a field -/

/-- The least integer that a field takes, with what is said of smaller ones.  Fields without one
take truth values. -/
def bound? : Field → Option (Nat × String)
  | maxDepth => some (1, "Too small: expected number to be >0")
  | indent => some (0, "Too small: expected number to be >=0")
  | pretty | escapeSolidus => none

/-- The value of a field for which nothing is given. -/
def default : Field → Setting
  | maxDepth => .integer 512
  | indent => .integer 2
  | pretty | escapeSolidus => .truth false

/-- What can be given for a field, with the value that it stands for. -/
inductive Takes (f : Field) : Plain → Setting → Prop where
  | integer {least : Nat} {below : String} {x : Binary64} {n : Nat}
      (hf : f.bound? = some (least, below)) (hx : x.isFinite) (hn : x.value = n)
      (hlow : least ≤ n) (hhigh : n ≤ 9007199254740991) : Takes f (.double x) (.integer n)
  | truth (hf : f.bound? = none) (b : Bool) : Takes f (.bool b) (.truth b)

/-- The value of a field: what is given for it, or the default if that is nothing. -/
inductive Yields (f : Field) : Option Plain → Setting → Prop where
  | missing : Yields f none f.default
  | absent : Yields f (some (.foreign .absent)) f.default
  | given {v : Plain} {a : Setting} (h : f.Takes v a) : Yields f (some v) a

/-- What is wrong with what is given for a field. -/
inductive Finds (f : Field) : Option Plain → List String → Prop where
  | nothing {v : Option Plain} {a : Setting} (h : f.Yields v a) : Finds f v []
  | notTruth {v : Plain} (hf : f.bound? = none) (ha : v ≠ .foreign .absent)
      (hv : ∀ b, v ≠ .bool b) :
      Finds f (some v) ["Invalid input: expected boolean, received " ++ v.name]
  | notNumber {least : Nat} {below : String} {v : Plain} (hf : f.bound? = some (least, below))
      (ha : v ≠ .foreign .absent) (hv : ∀ x, v = .double x → x.isFinite = false) :
      Finds f (some v) ["Invalid input: expected number, received " ++ v.name]
  | fraction {least : Nat} {below : String} {x : Binary64} (hf : f.bound? = some (least, below))
      (hx : x.isFinite) (hn : ∀ n : ℤ, x.value ≠ n) :
      Finds f (some (.double x)) ["Invalid input: expected int, received number"]
  | tooLarge {least : Nat} {below : String} {x : Binary64} {n : ℤ}
      (hf : f.bound? = some (least, below)) (hx : x.isFinite) (hn : x.value = n)
      (hhigh : 9007199254740991 < n) :
      Finds f (some (.double x)) ["Too big: expected int to be <=9007199254740991"]
  | tooSmall {least : Nat} {below : String} {x : Binary64} {n : ℤ}
      (hf : f.bound? = some (least, below)) (hx : x.isFinite) (hn : x.value = n)
      (hlow : n < -9007199254740991) :
      Finds f (some (.double x)) ["Too small: expected int to be >=-9007199254740991", below]
  | below {least : Nat} {below : String} {x : Binary64} {n : ℤ}
      (hf : f.bound? = some (least, below)) (hx : x.isFinite) (hn : x.value = n)
      (hlow : -9007199254740991 ≤ n) (hbound : n < least) : Finds f (some (.double x)) [below]

end Field

/-- An issue as it is reported. -/
def Issue.reported (i : Issue) : String × String := (i.path, i.cause.message)

/-! ### Checks of fields -/

/-- The result of checking what is given for a field: the value that it yields, or the issues of all
that is wrong with it. -/
structure Judged {α : Type} (f : Field) (v : Option Plain) (setting : α → Setting)
    (r : Checked α) : Prop where
  ok : ∀ a, r = .ok a ↔ f.Yields v (setting a)
  complete : ∀ a, f.Yields v a → ∃ b, r = .ok b
  issues : ∃ messages, f.Finds v messages ∧
    (issuesOf r).map Issue.reported = messages.map (f.name, ·)

variable {f : Field} {o : Option Plain} {v : Plain} {a b : Setting} {message : String}
  {messages messages' : List String}

/-- A field has one value. -/
theorem Field.Yields.unique (ha : f.Yields o a) (hb : f.Yields o b) : a = b := by
  cases ha with
  | missing => cases hb; rfl
  | absent =>
      cases hb with
      | absent => rfl
      | given h => nomatch h
  | given ha =>
      cases ha with
      | integer hf hx hn hlow hhigh =>
          cases hb with
          | given hb =>
              cases hb with
              | integer hf' hx' hn' hlow' hhigh' =>
                  rw [hn, Nat.cast_inj] at hn'
                  rw [hn']
      | truth hf b' =>
          cases hb with
          | given hb => cases hb; rfl

theorem Field.least_le_one {least : Nat} {below : String} (hf : f.bound? = some (least, below)) :
    least ≤ 1 := by
  cases f with
  | maxDepth | indent => cases hf; decide
  | pretty | escapeSolidus => nomatch hf

/-- In a field that takes integers what is taken is an integer within its bounds. -/
theorem Field.Takes.integer_of_bound {least : Nat} {below : String}
    (hf : f.bound? = some (least, below)) (h : f.Takes v a) :
    ∃ x n, v = .double x ∧ x.isFinite ∧ x.value = ((n : ℕ) : ℤ) ∧
      least ≤ n ∧ n ≤ 9007199254740991 := by
  cases h with
  | integer hf' hx hn hlow hhigh =>
      rw [hf] at hf'
      cases hf'
      exact ⟨_, _, rfl, hx, hn, hlow, hhigh⟩
  | truth hf' => rw [hf] at hf'; nomatch hf'

/-- What is found wrong yields nothing. -/
theorem Field.Finds.not_yields (h : f.Finds o (message :: messages)) : ¬ f.Yields o a := by
  intro hy
  cases h with
  | notTruth hf ha hv =>
      cases hy with
      | absent => exact ha rfl
      | given h =>
          cases h with
          | integer hf' => rw [hf] at hf'; nomatch hf'
          | truth _ b => exact hv b rfl
  | notNumber hf ha hv =>
      cases hy with
      | absent => exact ha rfl
      | given h =>
          obtain ⟨x, n, rfl, hx, -⟩ := h.integer_of_bound hf
          exact nomatch hx.symm.trans (hv x rfl)
  | fraction hf hx hn =>
      cases hy with
      | given h =>
          obtain ⟨x, n, hv, -, hvalue, -⟩ := h.integer_of_bound hf
          cases hv
          exact hn n hvalue
  | tooLarge hf hx hn hout | tooSmall hf hx hn hout | below hf hx hn _ hout =>
      -- the same integer within the bounds and outside
      cases hy with
      | given h =>
          obtain ⟨x, n, hv, -, hvalue, hlow, hhigh⟩ := h.integer_of_bound hf
          cases hv
          rw [hn, Int.cast_inj] at hvalue
          omega

/-- Something is wrong just where there is no value. -/
theorem Field.Finds.eq_nil_iff (h : f.Finds o messages) : messages = [] ↔ ∃ a, f.Yields o a := by
  constructor
  · rintro rfl
    cases h with
    | nothing h => exact ⟨_, h⟩
  · rintro ⟨a, ha⟩
    cases messages with
    | nil => rfl
    | cons => exact absurd ha h.not_yields

/-- What is found wrong with a value is determined. -/
theorem Field.Finds.unique (h : f.Finds o messages) (h' : f.Finds o messages') :
    messages = messages' := by
  by_cases hy : ∃ a, f.Yields o a
  · rw [h.eq_nil_iff.mpr hy, h'.eq_nil_iff.mpr hy]
  cases h with
  | nothing h => exact absurd ⟨_, h⟩ hy
  | _ =>
      cases h' with
      | nothing h' => exact absurd ⟨_, h'⟩ hy
      -- both are of one kind, or what they say of the value cannot both be
      | _ => grind only [Int.cast_inj, → least_le_one]

section

variable {α : Type} {setting : α → Setting} {d : α} {issues : List Issue}

theorem judged_ok (hset : Function.Injective setting) (h : f.Yields o (setting d)) :
    Judged f o setting (.ok d) := by
  refine ⟨fun a => ?_, fun _ _ => ⟨d, rfl⟩, [], .nothing h, rfl⟩
  rw [Except.ok.injEq]
  constructor
  · rintro rfl
    exact h
  · intro ha
    exact hset (h.unique ha)

theorem judged_error (h : f.Finds o (message :: messages))
    (hissues : issues.map Issue.reported = (message :: messages).map (f.name, ·)) :
    Judged f o setting (.error issues) :=
  ⟨fun _ => ⟨fun ha => (nomatch ha), fun ha => absurd ha h.not_yields⟩,
    fun _ ha => absurd ha h.not_yields, _, h, hissues⟩

/-- Where nothing is given no check is made. -/
theorem judged_checkField (hset : Function.Injective setting) (hd : f.default = setting d)
    {check : Plain → Checked α}
    (h : ∀ v, v ≠ .foreign .absent → Judged f (some v) setting (check v)) (o : Option Plain) :
    Judged f o setting (checkField d check o) := by
  unfold checkField
  split
  · exact judged_ok hset (hd ▸ .missing)
  · exact judged_ok hset (hd ▸ .absent)
  · next v ha => exact h v ha

theorem judged_truth (hf : f.bound? = none) {d : Bool} (hd : f.default = .truth d)
    (o : Option Plain) : Judged f o .truth (checkField d (checkBool f) o) := by
  refine judged_checkField (fun a b h => Setting.truth.inj h) hd (fun v ha => ?_) o
  unfold checkBool
  split
  · next b => exact judged_ok (fun a b h => Setting.truth.inj h) (.given (.truth hf b))
  · next hv => exact judged_error (.notTruth hf ha fun b hb => hv b hb) rfl

/-- What is wrong with an integer: it is too large, or too small even for a safe one, or smaller
than the least one, or nothing is. -/
theorem integerCauses_cases (least : Nat) (below : Cause) (n : ℤ) :
    (9007199254740991 < n ∧ integerCauses least below n = [.tooLarge]) ∨
    (n < -9007199254740991 ∧ integerCauses least below n = [.tooSmall, below]) ∨
    (-9007199254740991 ≤ n ∧ n < least ∧ integerCauses least below n = [below]) ∨
    (least ≤ n ∧ n ≤ 9007199254740991 ∧ integerCauses least below n = []) := by
  have hsafe : maxSafe = 9007199254740991 := rfl
  unfold integerCauses
  rw [hsafe]
  by_cases hhigh : 9007199254740991 < n
  · rw [if_pos hhigh]
    exact .inl ⟨hhigh, rfl⟩
  rw [if_neg hhigh]
  by_cases hlow : n < -9007199254740991
  · rw [if_pos hlow, if_pos (by omega)]
    exact .inr (.inl ⟨hlow, rfl⟩)
  rw [if_neg hlow]
  by_cases hbound : n < least
  · rw [if_pos hbound]
    exact .inr (.inr (.inl ⟨not_lt.mp hlow, hbound, rfl⟩))
  · rw [if_neg hbound]
    exact .inr (.inr (.inr ⟨not_lt.mp hbound, not_lt.mp hhigh, rfl⟩))

theorem judged_integer {least d : Nat} {below : Cause}
    (hf : f.bound? = some (least, below.message)) (hd : f.default = .integer d)
    (o : Option Plain) :
    Judged f o .integer (checkField d (checkInteger f least below) o) := by
  have hset : Function.Injective Setting.integer := fun a b h => Setting.integer.inj h
  refine judged_checkField hset hd (fun v ha => ?_) o
  cases v with
  | null | bool | integer | string | array | record | foreign =>
      exact judged_error (.notNumber hf ha (fun _ h => nomatch h)) rfl
  | double x =>
      rw [checkInteger]
      split
      · next hx =>
          cases hn : x.toInt? with
          | none =>
              refine judged_error (.fraction hf hx fun n hvalue => ?_) rfl
              rw [Binary64.toInt?_eq_some_iff.mpr ⟨hx, hvalue⟩] at hn
              nomatch hn
          | some n =>
              obtain ⟨-, hvalue⟩ := Binary64.toInt?_eq_some_iff.mp hn
              rcases integerCauses_cases least below n with
                ⟨hhigh, h⟩ | ⟨hlow, h⟩ | ⟨hlow, hbound, h⟩ | ⟨hlow, hhigh, h⟩
              · simp only [h]
                exact judged_error (.tooLarge hf hx hvalue hhigh) rfl
              · simp only [h]
                exact judged_error (.tooSmall hf hx hvalue hlow) rfl
              · simp only [h]
                exact judged_error (.below hf hx hvalue hlow hbound) rfl
              · simp only [h]
                refine judged_ok hset (.given (.integer hf hx ?_ ?_ ?_))
                · rw [hvalue, ← Int.cast_natCast, Int.toNat_of_nonneg (by omega)]
                · omega
                · omega
      · next hx =>
          refine judged_error (.notNumber hf ha fun y hy => ?_) rfl
          cases hy
          exact Bool.eq_false_iff.mpr hx

end

/-! ### Values that are given back -/

/-- The value of a field can be given for it; so can its default. -/
theorem Field.Yields.exists_taken (h : f.Yields o a) : ∃ v, f.Takes v a := by
  have hinteger : ∀ {least below n}, f.bound? = some (least, below) → least ≤ n → n ≤ 512 →
      ∃ v, f.Takes v (.integer n) := by
    intro least below n hf hlow hhigh
    have habs : |(n : ℤ)| ≤ 2 ^ 53 := by rw [Nat.abs_cast]; omega
    obtain ⟨x, hx, hvalue⟩ := Binary64.exists_integer habs
    exact ⟨.double x, .integer hf hx hvalue hlow (by omega)⟩
  have hdefault : ∃ v, f.Takes v f.default := by
    cases f with
    | maxDepth => exact hinteger rfl (by decide) le_rfl
    | indent => exact hinteger rfl (by decide) (by decide)
    | pretty => exact ⟨.bool false, .truth rfl false⟩
    | escapeSolidus => exact ⟨.bool false, .truth rfl false⟩
  cases h with
  | missing | absent => exact hdefault
  | given h => exact ⟨_, h⟩

end JsonDocument
