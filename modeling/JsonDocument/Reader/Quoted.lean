import JsonDocument.Reader.Scan
import JsonDocument.Text.Hex

/-!
# Reader — strings

The body of a string is made of runs of raw bytes and of escapes, up to the closing quote.  A run
is decoded as UTF-8 where it ends, at a quote or a backslash; a run that ends at a control character
or with the input is not decoded.  An escape by number that names the first half of a pair must be
followed at once by one that names the second; a second half may stand alone.
-/

namespace JsonDocument.Reader

/-! ### Escapes -/

/-- The unit that a one-letter escape stands for. -/
def shortEscape? (b : UInt8) : Option CodeUnit :=
  if b = 0x22 then some 0x22
  else if b = 0x5C then some 0x5C
  else if b = 0x2F then some 0x2F
  else if b = 0x62 then some 0x08
  else if b = 0x66 then some 0x0C
  else if b = 0x6E then some 0x0A
  else if b = 0x72 then some 0x0D
  else if b = 0x74 then some 0x09
  else none

/-- The unit named by four hexadecimal digits. -/
def hexUnit? (a b c d : UInt8) : Option CodeUnit :=
  match Hex.value? a.toNat, Hex.value? b.toNat, Hex.value? c.toNat, Hex.value? d.toNat with
  | some a, some b, some c, some d => some (UInt16.ofNat (a * 0x1000 + b * 0x100 + c * 0x10 + d))
  | _, _, _, _ => none

/-- Four hexadecimal digits. -/
def scanHex : Bytes → Scan CodeUnit
  | a :: b :: c :: d :: s =>
      match hexUnit? a b c d with
      | some u => .ok (u, s)
      | none => .error (.at .hex (a :: b :: c :: d :: s))
  | s => .error (.at .unfinishedHex s)

/-- The digits of the second half of a pair whose first half is `high`. -/
def scanLowHalf (high : CodeUnit) (s : Bytes) : Scan Text :=
  match scanHex s with
  | .error e => .error e
  | .ok (low, r) =>
      if low.isLow then
        if Utf8.width (high.pair low) = 0 then .error (.at .codePoint r)
        else .ok (Text.ofCodePoint (high.pair low), r)
      else .error (.at .notALowSurrogate r)

/-- An escape by number, after its `u`; the first half of a pair takes the second with it. -/
def scanNumbered (s : Bytes) : Scan Text :=
  match scanHex s with
  | .error e => .error e
  | .ok (u, r) =>
      if u.isHigh then
        match after? [0x5C, 0x75] r with
        | some r => scanLowHalf u r
        | none => .error (.at .missingLowSurrogate r)
      else .ok ([u], r)

/-- An escape, after its backslash. -/
def scanEscape : Bytes → Scan Text
  | [] => .error (.at .unfinishedEscape [])
  | b :: s =>
      match shortEscape? b with
      | some u => .ok ([u], s)
      | none => if b = 0x75 then scanNumbered s else .error (.at .escape s)

theorem scanHex_shorter {s r : Bytes} {u : CodeUnit} (h : scanHex s = .ok (u, r)) :
    r.length < s.length := by
  unfold scanHex at h
  split at h
  · split at h
    · cases h; simp only [List.length_cons]; omega
    · cases h
  · cases h

theorem scanLowHalf_shorter {high : CodeUnit} {s r : Bytes} {t : Text}
    (h : scanLowHalf high s = .ok (t, r)) : r.length < s.length := by
  unfold scanLowHalf at h
  split at h
  · cases h
  · next hx =>
      split at h
      · split at h
        · cases h
        · cases h; exact scanHex_shorter hx
      · cases h

theorem scanNumbered_shorter {s r : Bytes} {t : Text} (h : scanNumbered s = .ok (t, r)) :
    r.length < s.length := by
  unfold scanNumbered at h
  split at h
  · cases h
  · next hx =>
      split at h
      · split at h
        · next ha =>
            have hr := congrArg List.length (eq_append_of_after? ha)
            have hl := scanLowHalf_shorter h
            have := scanHex_shorter hx
            simp only [List.length_append] at hr
            omega
        · cases h
      · cases h; exact scanHex_shorter hx

theorem scanEscape_shorter {s r : Bytes} {t : Text} (h : scanEscape s = .ok (t, r)) :
    r.length < s.length := by
  unfold scanEscape at h
  split at h
  · cases h
  · split at h
    · cases h; simp
    · split at h
      · exact Nat.lt_succ_of_lt (scanNumbered_shorter h)
      · cases h

/-! ### The body -/

/-- A byte that stands for itself in a string: no control character, quote or backslash. -/
def isRaw (b : UInt8) : Bool := decide (0x20 ≤ b.toNat) && b != 0x22 && b != 0x5C

/-- The text of the run of raw bytes at the front of `s`, for a reader that has come to `r`. -/
def decodeRun (s r : Bytes) : Except Stop Text :=
  match Utf8.decode (s.takeWhile isRaw) with
  | some t => .ok t
  | none => .error ⟨.utf8, s, r⟩

theorem length_dropWhile_le (p : UInt8 → Bool) (s : Bytes) : (s.dropWhile p).length ≤ s.length :=
  (List.dropWhile_sublist p).length_le

/-- The body of a string and its closing quote. -/
def scanBody (s : Bytes) : Scan Text :=
  match _hs : s.dropWhile isRaw with
  | [] => .error (.at .unfinishedString [])
  | b :: r =>
      if b = 0x22 then
        match decodeRun s r with
        | .error e => .error e
        | .ok t => .ok (t, r)
      else if b = 0x5C then
        match decodeRun s r with
        | .error e => .error e
        | .ok t =>
            match _he : scanEscape r with
            | .error e => .error e
            | .ok (u, r') =>
                match scanBody r' with
                | .error e => .error e
                | .ok (v, r'') => .ok (t ++ u ++ v, r'')
      else .error (.at .controlCharacter r)
termination_by s.length
decreasing_by
  have h₁ := length_dropWhile_le isRaw s
  have h₂ := scanEscape_shorter _he
  rw [_hs, List.length_cons] at h₁
  omega

theorem scanBody_shorter {s r : Bytes} {t : Text} (h : scanBody s = .ok (t, r)) :
    r.length < s.length := by
  fun_induction scanBody s generalizing t r with
  | case1 => cases h
  | case2 => cases h
  | case3 s r' t' ht hs =>
      have := length_dropWhile_le isRaw s
      rw [hs, List.length_cons] at this
      cases h
      omega
  | case4 => cases h
  | case5 => cases h
  | case6 => cases h
  | case7 s r₀ t₀ ht u r₁ he v r₂ hv hs hq ih =>
      have h₁ := length_dropWhile_le isRaw s
      have h₂ := scanEscape_shorter he
      rw [hs, List.length_cons] at h₁
      have h₃ := ih hv
      cases h
      omega
  | case8 => cases h

/-- A string with its two quotes. -/
def scanString : Bytes → Scan Text
  | [] => .error (.at .missingKey [])
  | b :: s => if b = 0x22 then scanBody s else .error (.at .missingKey (b :: s))

theorem scanString_shorter {s r : Bytes} {t : Text} (h : scanString s = .ok (t, r)) :
    r.length < s.length := by
  unfold scanString at h
  split at h
  · cases h
  · split at h
    · exact Nat.lt_succ_of_lt (scanBody_shorter h)
    · cases h

end JsonDocument.Reader
