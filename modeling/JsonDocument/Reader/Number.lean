import JsonDocument.Reader.Scan

/-!
# Reader — numbers

A number is a sign, an integer without leading zeros, a fraction and an exponent, of which only the
integer must be there.  Its literal is kept as it stands.
-/

namespace JsonDocument.Reader

/-- The digits at the front, of which there must be one. -/
def scanDigits (reason : Reason) (s : Bytes) : Scan Bytes :=
  match s.takeWhile isDigit with
  | [] => .error (.at reason s)
  | ds => .ok (ds, s.dropWhile isDigit)

/-- A minus sign, if there is one. -/
def scanMinus : Bytes → Bytes × Bytes
  | [] => ([], [])
  | b :: s => if b = 0x2D then ([b], s) else ([], b :: s)

/-- A sign of an exponent, if there is one. -/
def scanSign : Bytes → Bytes × Bytes
  | [] => ([], [])
  | b :: s => if b = 0x2B || b = 0x2D then ([b], s) else ([], b :: s)

/-- A zero by itself, or digits that do not start with zero. -/
def scanInteger : Bytes → Scan Bytes
  | [] => .error (.at .number [])
  | b :: s => if b = 0x30 then .ok ([b], s) else scanDigits .number (b :: s)

/-- A point and digits, or nothing where there is no point. -/
def scanFraction : Bytes → Scan Bytes
  | [] => .ok ([], [])
  | b :: s =>
      if b = 0x2E then
        match scanDigits .fraction s with
        | .error e => .error e
        | .ok (ds, r) => .ok (b :: ds, r)
      else .ok ([], b :: s)

/-- The letter `e` of either case, a sign that may be missing, and digits; or nothing where there
is no such letter. -/
def scanExponent : Bytes → Scan Bytes
  | [] => .ok ([], [])
  | b :: s =>
      if b = 0x65 || b = 0x45 then
        match scanDigits .exponent (scanSign s).2 with
        | .error e => .error e
        | .ok (ds, r) => .ok (b :: (scanSign s).1 ++ ds, r)
      else .ok ([], b :: s)

/-- The literal of a number. -/
def scanNumber (s : Bytes) : Scan Text :=
  match scanInteger (scanMinus s).2 with
  | .error e => .error e
  | .ok (integer, r) =>
      match scanFraction r with
      | .error e => .error e
      | .ok (fraction, r) =>
          match scanExponent r with
          | .error e => .error e
          | .ok (exponent, r) =>
              .ok (textOf ((scanMinus s).1 ++ integer ++ fraction ++ exponent), r)

/-! ### What is read and what is left make up the input -/

theorem eq_append_of_scanDigits {reason : Reason} {s ds r : Bytes}
    (h : scanDigits reason s = .ok (ds, r)) : s = ds ++ r ∧ ds ≠ [] := by
  simp only [scanDigits] at h
  split at h
  · cases h
  · next hne =>
      cases h
      exact ⟨List.takeWhile_append_dropWhile.symm, hne⟩

theorem eq_append_scanMinus (s : Bytes) : s = (scanMinus s).1 ++ (scanMinus s).2 := by
  cases s with
  | nil => rfl
  | cons b s => simp only [scanMinus]; split <;> rfl

theorem eq_append_scanSign (s : Bytes) : s = (scanSign s).1 ++ (scanSign s).2 := by
  cases s with
  | nil => rfl
  | cons b s => simp only [scanSign]; split <;> rfl

theorem eq_append_of_scanInteger {s ds r : Bytes} (h : scanInteger s = .ok (ds, r)) :
    s = ds ++ r ∧ ds ≠ [] := by
  cases s with
  | nil => cases h
  | cons b s =>
      simp only [scanInteger] at h
      split at h
      · cases h; exact ⟨rfl, by simp⟩
      · exact eq_append_of_scanDigits h

theorem eq_append_of_scanFraction {s ds r : Bytes} (h : scanFraction s = .ok (ds, r)) :
    s = ds ++ r := by
  cases s with
  | nil => cases h; rfl
  | cons b s =>
      simp only [scanFraction] at h
      split at h
      · split at h
        · cases h
        · next hd => cases h; exact congrArg (b :: ·) (eq_append_of_scanDigits hd).1
      · cases h; rfl

theorem eq_append_of_scanExponent {s ds r : Bytes} (h : scanExponent s = .ok (ds, r)) :
    s = ds ++ r := by
  cases s with
  | nil => cases h; rfl
  | cons b s =>
      simp only [scanExponent] at h
      split at h
      · split at h
        · cases h
        · next hd =>
            cases h
            have hs := eq_append_scanSign s
            rw [(eq_append_of_scanDigits hd).1] at hs
            simp [← hs]
      · cases h; rfl

/-- A literal takes up one byte at least. -/
theorem scanNumber_shorter {s r : Bytes} {t : Text} (h : scanNumber s = .ok (t, r)) :
    r.length < s.length := by
  simp only [scanNumber] at h
  split at h
  · cases h
  · next h₁ =>
      split at h
      · cases h
      · next h₂ =>
          split at h
          · cases h
          · next h₃ =>
              cases h
              have e₀ := congrArg List.length (eq_append_scanMinus s)
              have e₁ := congrArg List.length (eq_append_of_scanInteger h₁).1
              have e₂ := congrArg List.length (eq_append_of_scanFraction h₂)
              have e₃ := congrArg List.length (eq_append_of_scanExponent h₃)
              have := List.length_pos_iff.mpr (eq_append_of_scanInteger h₁).2
              simp only [List.length_append] at e₀ e₁ e₂ e₃
              omega

end JsonDocument.Reader
