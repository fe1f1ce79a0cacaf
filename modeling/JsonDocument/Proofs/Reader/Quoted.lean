import JsonDocument.Proofs.Reader.Number
import JsonDocument.Proofs.Text.Paired
import JsonDocument.Reader.Quoted

/-!
# Proofs — Reader — strings

The scanner of a string's body decodes whole runs of raw bytes.  Here it is taken apart character by
character, which is how the grammar spells a body: a raw character or an escape in front of a body
puts its text in front of the body's text (`scanBody_raw`, `scanBody_escape`).

* `exists_of_scanBody`: what is scanned is a body with its closing quote.
* `scanBody_append`: a body with its closing quote is scanned, whatever follows.
-/

namespace JsonDocument.Reader
open JsonDocument.Grammar

/-! ### Hexadecimal digits -/

theorem hexDigit_of_value? {b : UInt8} {n : Nat} (h : Hex.value? b.toNat = some n) :
    HexDigit b n := by
  have hb : ∀ m, m = b.toNat → UInt8.ofNat m = b := fun m hm => Utf8.ofNat_eq hm
  simp only [Hex.value?] at h
  split at h
  · simp only [Option.some.injEq] at h
    have := HexDigit.decimal (n := n) (by omega)
    rwa [hb _ (by omega)] at this
  split at h
  · simp only [Option.some.injEq] at h
    have := HexDigit.lower (n := n) (by omega) (by omega)
    rwa [hb _ (by omega)] at this
  split at h
  · simp only [Option.some.injEq] at h
    have := HexDigit.upper (n := n) (by omega) (by omega)
    rwa [hb _ (by omega)] at this
  · cases h

theorem value?_of_hexDigit {b : UInt8} {n : Nat} (h : HexDigit b n) :
    Hex.value? b.toNat = some n := by
  cases h with
  | decimal h =>
      rw [Utf8.toNat_ofNat (by omega), Hex.value?, if_pos (by omega), Option.some.injEq]
      omega
  | lower h₁ h₂ =>
      rw [Utf8.toNat_ofNat (by omega), Hex.value?, if_neg (by omega), if_pos (by omega),
        Option.some.injEq]
      omega
  | upper h₁ h₂ =>
      rw [Utf8.toNat_ofNat (by omega), Hex.value?, if_neg (by omega), if_neg (by omega),
        if_pos (by omega), Option.some.injEq]
      omega

theorem exists_of_scanHex {s r : Bytes} {u : CodeUnit} (h : scanHex s = .ok (u, r)) :
    ∃ x, s = x ++ r ∧ HexUnit x u := by
  unfold scanHex at h
  split at h
  · next a b c d s =>
      split at h
      · next hu =>
          cases h
          unfold hexUnit? at hu
          split at hu
          · next ha hb hc hd =>
              cases hu
              exact ⟨[a, b, c, d], rfl, .mk (hexDigit_of_value? ha) (hexDigit_of_value? hb)
                (hexDigit_of_value? hc) (hexDigit_of_value? hd)⟩
          · cases hu
      · cases h
  · cases h

theorem scanHex_append {x : Bytes} {u : CodeUnit} (h : HexUnit x u) (r : Bytes) :
    scanHex (x ++ r) = .ok (u, r) := by
  cases h with
  | mk ha hb hc hd =>
      simp only [List.cons_append, List.nil_append, scanHex, hexUnit?, value?_of_hexDigit ha,
        value?_of_hexDigit hb, value?_of_hexDigit hc, value?_of_hexDigit hd]

/-! ### Escapes -/

theorem shortEscape?_eq_some_iff {b : UInt8} {u : CodeUnit} :
    shortEscape? b = some u ↔ (b, u) ∈ shortEscapes := by
  unfold shortEscape?
  simp only [shortEscapes, List.mem_cons, Prod.mk.injEq, List.not_mem_nil, or_false]
  constructor
  · intro h
    repeat' split at h
    all_goals simp_all
  · rintro (⟨rfl, rfl⟩ | ⟨rfl, rfl⟩ | ⟨rfl, rfl⟩ | ⟨rfl, rfl⟩ | ⟨rfl, rfl⟩ | ⟨rfl, rfl⟩ |
      ⟨rfl, rfl⟩ | ⟨rfl, rfl⟩) <;> rfl

theorem exists_of_scanEscape {s r : Bytes} {t : Text} (h : scanEscape s = .ok (t, r)) :
    ∃ x, s = x ++ r ∧ Escape x t := by
  unfold scanEscape at h
  split at h
  · cases h
  next b s =>
  split at h
  · next u hu => cases h; exact ⟨[b], rfl, .short (shortEscape?_eq_some_iff.mp hu)⟩
  split at h
  · next hb =>
      unfold scanNumbered at h
      split at h
      · cases h
      next u r₁ hu' =>
      obtain ⟨x, rfl, hx⟩ := exists_of_scanHex hu'
      split at h
      · next hu =>
          split at h
          · next r₂ ha =>
              unfold scanLowHalf at h
              split at h
              · cases h
              next v r₃ hv' =>
              obtain ⟨y, rfl, hy⟩ := exists_of_scanHex hv'
              split at h
              · next hv =>
                  split at h
                  · cases h
                  · cases h
                    rw [eq_append_of_after? ha, hb, Text.ofCodePoint_pair hu hv]
                    exact ⟨_, by simp, .pair hx hu hy hv⟩
              · cases h
          · cases h
      · next hu => cases h; rw [hb]; exact ⟨_, rfl, .unit hx hu⟩
  · cases h

/-- The halves of a pair name a code point that there is. -/
theorem width_pair_ne_zero {u v : CodeUnit} (hu : u.isHigh) (hv : v.isLow) :
    Utf8.width (u.pair v) ≠ 0 := by
  have := CodeUnit.pair_bounds hu hv
  grind [Utf8.width]

theorem scanEscape_append {x : Bytes} {t : Text} (h : Escape x t) (r : Bytes) :
    scanEscape (x ++ r) = .ok (t, r) := by
  have hu : shortEscape? 0x75 = none := rfl
  cases h with
  | short h =>
      simp only [List.cons_append, List.nil_append, scanEscape, shortEscape?_eq_some_iff.mpr h]
  | unit h hu' =>
      rw [List.cons_append, scanEscape, hu]
      simp only [if_pos, scanNumbered, scanHex_append h, if_neg hu']
  | @pair x y u v h hu' h' hv =>
      have hw := width_pair_ne_zero hu' hv
      have ha := after?_append [0x5C, 0x75] (y ++ r)
      simp only [List.cons_append, List.nil_append] at ha
      rw [List.append_assoc, List.cons_append, scanEscape, hu]
      simp only [List.cons_append, if_pos, scanNumbered, scanHex_append h, if_pos hu', ha,
        scanLowHalf, scanHex_append h', if_pos hv, if_neg hw, Text.ofCodePoint_pair hu' hv]

/-! ### Raw characters -/

theorem isRaw_iff {b : UInt8} :
    isRaw b = true ↔ 0x20 ≤ b.toNat ∧ b.toNat ≠ 0x22 ∧ b.toNat ≠ 0x5C := by
  simp only [isRaw, Bool.and_eq_true, decide_eq_true_eq, bne_iff_ne, ne_eq, Utf8.eq_iff_toNat,
    UInt8.reduceToNat, and_assoc]

/-- A character stands for itself exactly if its bytes do. -/
theorem raw_iff {c : Nat} (hc : IsScalarValue c) :
    Raw c ↔ ∀ b ∈ Utf8.encodePoint c, isRaw b = true := by
  have hb : c ≤ 0x10FFFF := by unfold IsScalarValue at hc; omega
  have ht : ∀ n, n < 0x100 → (UInt8.ofNat n).toNat = n := fun n => Utf8.toNat_ofNat
  simp only [Raw, hc, true_and, Utf8.encodePoint]
  -- only a character of one byte can be the quote, the backslash or a control character
  split
  · simp only [List.mem_singleton, forall_eq, isRaw_iff, ht c (by omega)]
  split
  · refine iff_of_true (by omega) ?_
    simp only [List.mem_cons, List.not_mem_nil, or_false, forall_eq_or_imp, forall_eq, isRaw_iff]
    rw [ht _ (by omega), ht _ (by omega)]
    omega
  split
  · refine iff_of_true (by omega) ?_
    simp only [List.mem_cons, List.not_mem_nil, or_false, forall_eq_or_imp, forall_eq, isRaw_iff]
    rw [ht _ (by omega), ht _ (by omega), ht _ (by omega)]
    omega
  · refine iff_of_true (by omega) ?_
    simp only [List.mem_cons, List.not_mem_nil, or_false, forall_eq_or_imp, forall_eq, isRaw_iff]
    rw [ht _ (by omega), ht _ (by omega), ht _ (by omega), ht _ (by omega)]
    omega

theorem encodePoint_ne_nil (c : Nat) : Utf8.encodePoint c ≠ [] := by
  unfold Utf8.encodePoint
  repeat' split
  all_goals exact List.cons_ne_nil _ _

/-- Raw bytes that are well-formed UTF-8 are raw characters. -/
theorem body_append_of_decode {x s : Bytes} {u t : Text} (hx : ∀ b ∈ x, isRaw b = true)
    (h : Utf8.decode x = some u) (hs : Body s t) : Body (x ++ s) (u ++ t) := by
  match x with
  | [] => cases h; exact hs
  | a :: x =>
      obtain ⟨c, x', u', hc, he, hx', rfl⟩ := Utf8.exists_of_decode h
      have hl : x'.length < x.length + 1 := by
        have := congrArg List.length he
        have := List.length_pos_iff.mpr (encodePoint_ne_nil c)
        simp only [List.length_cons, List.length_append] at *
        omega
      rw [he, List.append_assoc, List.append_assoc]
      rw [he] at hx
      refine .raw ((raw_iff hc).mpr fun b hb => hx b (List.mem_append_left _ hb)) ?_
      exact body_append_of_decode (fun b hb => hx b (List.mem_append_right _ hb)) hx' hs
termination_by x.length

/-! ### Bodies -/

theorem isRaw_of_mem_takeWhile {s : Bytes} : ∀ b ∈ s.takeWhile isRaw, isRaw b = true :=
  fun _ hb => List.mem_takeWhile_imp hb

theorem decode_of_decodeRun {s r : Bytes} {t : Text} (h : decodeRun s r = .ok t) :
    Utf8.decode (s.takeWhile isRaw) = some t := by
  unfold decodeRun at h
  split at h
  · next h' => cases h; exact h'
  · cases h

/-- What is scanned is a body with its closing quote. -/
theorem exists_of_scanBody {s r : Bytes} {t : Text} (h : scanBody s = .ok (t, r)) :
    ∃ x, s = x ++ 0x22 :: r ∧ Body x t := by
  fun_induction scanBody s generalizing t r with
  | case1 => cases h
  | case2 => cases h
  | case3 s r' t' ht hs =>
      cases h
      refine ⟨s.takeWhile isRaw, by rw [← hs, List.takeWhile_append_dropWhile], ?_⟩
      have := body_append_of_decode isRaw_of_mem_takeWhile (decode_of_decodeRun ht) .nil
      rwa [List.append_nil, List.append_nil] at this
  | case4 => cases h
  | case5 => cases h
  | case6 => cases h
  | case7 s r₀ t₀ ht u r₁ he v r₂ hv hs hq ih =>
      cases h
      obtain ⟨x, hx, hxu⟩ := exists_of_scanEscape he
      obtain ⟨y, hy, hyv⟩ := ih hv
      refine ⟨s.takeWhile isRaw ++ (0x5C :: x ++ y), ?_, ?_⟩
      · calc s = s.takeWhile isRaw ++ s.dropWhile isRaw := List.takeWhile_append_dropWhile.symm
          _ = _ := by rw [hs, hx, hy]; simp
      · rw [List.append_assoc]
        exact body_append_of_decode isRaw_of_mem_takeWhile (decode_of_decodeRun ht)
          (.escape hxu hyv)
  | case8 => cases h

/-- The recursion of `scanBody`, without the proofs that it ends. -/
theorem scanBody_eq (s : Bytes) :
    scanBody s = match s.dropWhile isRaw with
      | [] => .error (.at .unfinishedString [])
      | b :: r =>
          if b = 0x22 then (decodeRun s r).map (·, r)
          else if b = 0x5C then
            match decodeRun s r with
            | .error e => .error e
            | .ok t =>
                match scanEscape r with
                | .error e => .error e
                | .ok (u, r') => (scanBody r').map fun p => (t ++ u ++ p.1, p.2)
          else .error (.at .controlCharacter r) := by
  rw [scanBody]
  split
  · next hs => rw [hs]
  · next b r hs =>
      rw [hs]
      simp only
      split
      · cases decodeRun s r <;> rfl
      split
      · cases decodeRun s r with
        | error e => rfl
        | ok t =>
            simp only
            split
            · next he => rw [he]
            · next u r' he =>
                rw [he]
                simp only
                cases scanBody r' <;> rfl
      · rfl

/-- A closing quote ends the body. -/
theorem scanBody_quote (r : Bytes) : scanBody (0x22 :: r) = .ok ([], r) := by
  rw [scanBody_eq]; rfl

/-- An escape in front of a body. -/
theorem scanBody_escape (s : Bytes) :
    scanBody (0x5C :: s) = match scanEscape s with
      | .error e => .error e
      | .ok (u, r) => (scanBody r).map fun p => (u ++ p.1, p.2) := by
  rw [scanBody_eq]; rfl

theorem decodeRun_raw {c : Nat} (hc : Raw c) (s r : Bytes) :
    decodeRun (Utf8.encodePoint c ++ s) r =
      match decodeRun s r with
      | .error e => .error ⟨e.reason, Utf8.encodePoint c ++ s, e.unread⟩
      | .ok t => .ok (Text.ofCodePoint c ++ t) := by
  unfold decodeRun
  rw [List.takeWhile_append_of_pos ((raw_iff hc.1).mp hc), Utf8.decode_encodePoint hc.1]
  cases Utf8.decode (s.takeWhile isRaw) <;> rfl

/-- A raw character in front of a body; only a run that is no UTF-8 is reported at another place. -/
theorem scanBody_raw {c : Nat} (hc : Raw c) {s : Bytes}
    (hs : ∀ e, scanBody s = .error e → e.reason ≠ .utf8) :
    scanBody (Utf8.encodePoint c ++ s) =
      (scanBody s).map fun p => (Text.ofCodePoint c ++ p.1, p.2) := by
  rw [scanBody_eq s] at hs ⊢
  rw [scanBody_eq, List.dropWhile_append_of_pos ((raw_iff hc.1).mp hc)]
  split
  · rfl
  next b r hb =>
  rw [hb] at hs
  simp only [decodeRun_raw hc] at hs ⊢
  -- a longer run that is no UTF-8 is reported from its own start, so that case is left out
  have hd : ∀ e, decodeRun s r = .error e → e.reason = .utf8 := by
    intro e he
    unfold decodeRun at he
    split at he <;> cases he
    rfl
  split
  · next hq =>
      simp only [if_pos hq] at hs
      cases h : decodeRun s r with
      | error e => exact absurd (hd e h) (hs e (by rw [h]; rfl))
      | ok t => rfl
  split
  · next hq he =>
      simp only [if_neg hq, if_pos he] at hs
      cases h : decodeRun s r with
      | error e => exact absurd (hd e h) (hs e (by rw [h]))
      | ok t =>
          simp only
          cases scanEscape r with
          | error e => rfl
          | ok p =>
              simp only [List.append_assoc]
              cases scanBody p.2 <;> rfl
  · rfl

/-- A body with its closing quote is scanned, whatever follows. -/
theorem scanBody_append {x : Bytes} {t : Text} (h : Body x t) (r : Bytes) :
    scanBody (x ++ 0x22 :: r) = .ok (t, r) := by
  induction h with
  | nil => exact scanBody_quote r
  | raw hc _ ih =>
      rw [List.append_assoc, scanBody_raw hc (by rw [ih]; exact fun _ h => nomatch h), ih]
      rfl
  | escape hx _ ih =>
      rw [List.append_assoc, List.cons_append, scanBody_escape, scanEscape_append hx]
      simp only [ih]
      rfl

/-- What is scanned is a body with its closing quote, and nothing else is. -/
theorem scanBody_eq_ok_iff {s r : Bytes} {t : Text} :
    scanBody s = .ok (t, r) ↔ ∃ x, s = x ++ 0x22 :: r ∧ Body x t := by
  refine ⟨exists_of_scanBody, ?_⟩
  rintro ⟨x, rfl, hx⟩
  exact scanBody_append hx r

end JsonDocument.Reader
