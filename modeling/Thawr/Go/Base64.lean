/-
  Thawr.Go.Base64 — `base64.StdEncoding`: `EncodeToString` and `DecodeString`.

  Decoding skips carriage returns and line feeds wherever they stand, wants padding to a
  multiple of four and at the end only, and ignores the bits of the last character that
  no byte takes (the encoding is not `Strict`).
-/

import Thawr.Go.Bytes

namespace Thawr.Go.Base64

def charVal (c : UInt8) : Option Nat :=
  if 65 ≤ c ∧ c ≤ 90 then some (c.toNat - 65)
  else if 97 ≤ c ∧ c ≤ 122 then some (c.toNat - 97 + 26)
  else if 48 ≤ c ∧ c ≤ 57 then some (c.toNat - 48 + 52)
  else if c = 43 then some 62
  else if c = 47 then some 63
  else none

def valChar (n : Nat) : UInt8 :=
  if n < 26 then UInt8.ofNat (65 + n)
  else if n < 52 then UInt8.ofNat (97 + (n - 26))
  else if n < 62 then UInt8.ofNat (48 + (n - 52))
  else if n = 62 then 43 else 47

def decodeQuads : Str → Option (List UInt8)
  | [] => some []
  | [a, b, 61, 61] => do
    let x ← charVal a
    let y ← charVal b
    return [UInt8.ofNat (x * 4 + y / 16)]
  | [a, b, c, 61] => do
    let x ← charVal a
    let y ← charVal b
    let z ← charVal c
    return [UInt8.ofNat (x * 4 + y / 16), UInt8.ofNat (y % 16 * 16 + z / 4)]
  | a :: b :: c :: d :: s => do
    let x ← charVal a
    let y ← charVal b
    let z ← charVal c
    let w ← charVal d
    let rest ← decodeQuads s
    return UInt8.ofNat (x * 4 + y / 16) :: UInt8.ofNat (y % 16 * 16 + z / 4) :: UInt8.ofNat (z % 4 * 64 + w) :: rest
  | _ => none

def decodeString (s : Str) : Option (List UInt8) := decodeQuads (s.filter fun c => c != 10 && c != 13)

def encodeToString : List UInt8 → Str
  | [] => []
  | [a] => [valChar (a.toNat / 4), valChar (a.toNat % 4 * 16), 61, 61]
  | [a, b] => [valChar (a.toNat / 4), valChar (a.toNat % 4 * 16 + b.toNat / 16), valChar (b.toNat % 16 * 4), 61]
  | a :: b :: c :: s =>
    valChar (a.toNat / 4) :: valChar (a.toNat % 4 * 16 + b.toNat / 16) ::
      valChar (b.toNat % 16 * 4 + c.toNat / 64) :: valChar (c.toNat % 64) :: encodeToString s

/-- `base64.RawURLEncoding`: two other characters and no padding. -/
def rawURLEncodeToString (b : List UInt8) : Str :=
  ((encodeToString b).filter (· != 61)).map fun c => if c = 43 then 45 else if c = 47 then 95 else c

/-! ## Decoding what was encoded -/

theorem charVal_valChar {n : Nat} (h : n < 64) : charVal (valChar n) = some n := by
  have : ∀ n : Fin 64, charVal (valChar n) = some n.val := by decide +kernel
  exact this ⟨n, h⟩

/-- A character of the alphabet is printable and is not padding. -/
theorem valChar_plain {n : Nat} (h : n < 64) : valChar n ≠ 61 ∧ 32 < valChar n ∧ valChar n < 127 := by
  have : ∀ n : Fin 64, valChar n ≠ 61 ∧ 32 < valChar n ∧ valChar n < 127 := by decide +kernel
  exact this ⟨n, h⟩

theorem ofNat_eq {a : UInt8} {n : Nat} (h : n = a.toNat) : UInt8.ofNat n = a := by
  rw [h, UInt8.ofNat_toNat]

theorem decodeQuads_encode (b : List UInt8) : decodeQuads (encodeToString b) = some b := by
  induction b using encodeToString.induct with
  | case1 => rfl
  | case2 a =>
    have ha := a.toNat_lt
    have h2 : a.toNat % 4 * 16 < 64 := by omega
    rw [encodeToString, decodeQuads, charVal_valChar (by omega), charVal_valChar h2]
    exact congrArg some (congrArg (· :: []) (ofNat_eq (by omega)))
  | case3 a b =>
    have ha := a.toNat_lt
    have hb := b.toNat_lt
    have h2 : a.toNat % 4 * 16 + b.toNat / 16 < 64 := by omega
    have h3 : b.toNat % 16 * 4 < 64 := by omega
    rw [encodeToString, decodeQuads, charVal_valChar (by omega), charVal_valChar h2, charVal_valChar h3]
    · show some [_, _] = some [a, b]
      rw [ofNat_eq (a := a) (by omega), ofNat_eq (a := b) (by omega)]
    · intro h
      exact absurd h (valChar_plain h3).1
  | case4 a b c s ih =>
    have ha := a.toNat_lt
    have hb := b.toNat_lt
    have hc := c.toNat_lt
    have h2 : a.toNat % 4 * 16 + b.toNat / 16 < 64 := by omega
    have h3 : b.toNat % 16 * 4 + c.toNat / 64 < 64 := by omega
    have h4 : c.toNat % 64 < 64 := by omega
    rw [encodeToString, decodeQuads, charVal_valChar (by omega), charVal_valChar h2, charVal_valChar h3, charVal_valChar h4, ih]
    · show some (_ :: _ :: _ :: s) = some (a :: b :: c :: s)
      rw [ofNat_eq (a := a) (by omega), ofNat_eq (a := b) (by omega), ofNat_eq (a := c) (by omega)]
    · intro _ h
      exact absurd h (valChar_plain h4).1
    · intro h
      exact absurd h (valChar_plain h4).1

/-- An encoded text is printable, with no white space. -/
theorem encode_plain (b : List UInt8) : ∀ c ∈ encodeToString b, 32 < c ∧ c < 127 := by
  have hpad : (32 : UInt8) < 61 ∧ (61 : UInt8) < 127 := by decide
  induction b using encodeToString.induct with
  | case1 => simp [encodeToString]
  | case2 a =>
    have ha := a.toNat_lt
    simp only [encodeToString, List.forall_mem_cons]
    exact ⟨(valChar_plain (by omega)).2, (valChar_plain (by omega)).2, hpad, hpad, by simp⟩
  | case3 a b =>
    have ha := a.toNat_lt
    have hb := b.toNat_lt
    simp only [encodeToString, List.forall_mem_cons]
    exact ⟨(valChar_plain (by omega)).2, (valChar_plain (by omega)).2, (valChar_plain (by omega)).2, hpad, by simp⟩
  | case4 a b c s ih =>
    have ha := a.toNat_lt
    have hb := b.toNat_lt
    have hc := c.toNat_lt
    simp only [encodeToString, List.forall_mem_cons]
    exact ⟨(valChar_plain (by omega)).2, (valChar_plain (by omega)).2, (valChar_plain (by omega)).2,
      (valChar_plain (by omega)).2, ih⟩

theorem decode_encode (b : List UInt8) : decodeString (encodeToString b) = some b := by
  have hfilter : (encodeToString b).filter (fun c => c != 10 && c != 13) = encodeToString b := by
    -- decoding skips nothing of it
    refine List.filter_eq_self.mpr fun c hc => ?_
    have hlt := (encode_plain b c hc).1
    have h10 : c ≠ 10 := fun he => absurd (he ▸ hlt) (by decide)
    have h13 : c ≠ 13 := fun he => absurd (he ▸ hlt) (by decide)
    simp [h10, h13]
  unfold decodeString
  rw [hfilter, decodeQuads_encode]

end Thawr.Go.Base64
