import JsonDocument.Text

/-!
# Text — hexadecimal digits

Digits are read in either case and written in upper case.
-/

namespace JsonDocument.Hex

/-- The value of an ASCII hexadecimal digit, of either case. -/
def value? (n : Int) : Option Nat :=
  if 0x30 ≤ n ∧ n ≤ 0x39 then some (n - 0x30).toNat
  else if 0x61 ≤ n ∧ n ≤ 0x66 then some (n - 0x61 + 10).toNat
  else if 0x41 ≤ n ∧ n ≤ 0x46 then some (n - 0x41 + 10).toNat
  else none

/-- The digit for a value below sixteen. -/
def digit (n : Nat) : CodeUnit := UInt16.ofNat (if n < 10 then 0x30 + n else 0x41 + (n - 10))

/-- The four digits of a code unit. -/
def ofCodeUnit (u : CodeUnit) : Text :=
  [digit (u.toNat / 0x1000), digit (u.toNat / 0x100 % 0x10), digit (u.toNat / 0x10 % 0x10),
    digit (u.toNat % 0x10)]

theorem value?_lt {n : Int} {d : Nat} (h : value? n = some d) : d < 16 := by
  simp only [value?] at h
  split at h
  · cases h; omega
  · split at h
    · cases h; omega
    · split at h
      · cases h; omega
      · cases h

theorem value?_digit {n : Nat} (h : n < 16) : value? (digit n).toNat = some n := by
  have : ∀ m : Fin 16, value? (digit m).toNat = some m.val := by decide
  exact this ⟨n, h⟩

end JsonDocument.Hex
