/-
  Thawr.Go.Runes — the runes of a string (`unicode/utf8`), as a `range` over it reads them, and
  their lower case (`unicode.ToLower`, `strings.ToLower`).

  A byte that begins no rune, and one whose rune is cut short, is read as U+FFFD and one byte
  long. A string is lowered rune by rune. The table of the runes outside ASCII is the one of
  Unicode 15: two of them have a lower case in ASCII, U+0130 and U+212A, and no other has
  (`lowerRune_high`).
-/

import Thawr.Go.Bytes

namespace Thawr.Go

def runeError : Nat := 0xFFFD

/-- How many bytes follow a first byte, and the bounds of the next one. -/
def leads (c : UInt8) : Option (Nat × UInt8 × UInt8) :=
  if 0xC2 ≤ c ∧ c ≤ 0xDF then some (1, 0x80, 0xBF)
  else if c = 0xE0 then some (2, 0xA0, 0xBF)
  else if c = 0xED then some (2, 0x80, 0x9F)
  else if 0xE1 ≤ c ∧ c ≤ 0xEF then some (2, 0x80, 0xBF)
  else if c = 0xF0 then some (3, 0x90, 0xBF)
  else if 0xF1 ≤ c ∧ c ≤ 0xF3 then some (3, 0x80, 0xBF)
  else if c = 0xF4 then some (3, 0x80, 0x8F)
  else none

def continues (c : UInt8) : Bool := 0x80 ≤ c && c ≤ 0xBF

/-- `utf8.DecodeRuneInString` of `c :: s`: the rune, and how many bytes of `s` it takes. -/
def decodeRune (c : UInt8) (s : Str) : Nat × Nat :=
  if c < 0x80 then (c.toNat, 0)
  else
    match leads c, s with
    | some (1, lo, hi), b :: _ => if lo ≤ b ∧ b ≤ hi then (c.toNat % 32 * 64 + b.toNat % 64, 1) else (runeError, 0)
    | some (2, lo, hi), b :: d :: _ =>
      if lo ≤ b ∧ b ≤ hi ∧ continues d then ((c.toNat % 16 * 64 + b.toNat % 64) * 64 + d.toNat % 64, 2) else (runeError, 0)
    | some (3, lo, hi), b :: d :: e :: _ =>
      if lo ≤ b ∧ b ≤ hi ∧ continues d ∧ continues e then
        (((c.toNat % 8 * 64 + b.toNat % 64) * 64 + d.toNat % 64) * 64 + e.toNat % 64, 3)
      else (runeError, 0)
    | _, _ => (runeError, 0)

def runesFrom : Nat → Str → List Nat
  | _, [] => []
  | skip + 1, _ :: s => runesFrom skip s
  | 0, c :: s => (decodeRune c s).1 :: runesFrom (decodeRune c s).2 s

def runes (s : Str) : List Nat := runesFrom 0 s

theorem runesFrom_drop (s : Str) (skip : Nat) : runesFrom skip s = runes (s.drop skip) := by
  induction s generalizing skip with
  | nil => cases skip with
    | zero => rfl
    | succ skip => rfl
  | cons c s ih => cases skip with
    | zero => rfl
    | succ skip => exact ih skip

theorem runes_cons (c : UInt8) (s : Str) : runes (c :: s) = (decodeRune c s).1 :: runes (s.drop (decodeRune c s).2) := by
  rw [← runesFrom_drop]
  rfl

/-! ## Lower case -/

def lowerByte (c : UInt8) : UInt8 := if 65 ≤ c ∧ c ≤ 90 then c + 32 else c

/-- The runes outside ASCII that have a lower case: from the first to the second in steps of
    the third, with the lower case of the first; and single ones with theirs. -/
def caseRanges : List (Nat × Nat × Nat × Nat) :=
  [(0xC0, 0xD6, 1, 0xE0), (0xD8, 0xDE, 1, 0xF8), (0x100, 0x12E, 2, 0x101), (0x132, 0x136, 2, 0x133),
   (0x139, 0x147, 2, 0x13A), (0x14A, 0x176, 2, 0x14B), (0x179, 0x17D, 2, 0x17A), (0x182, 0x184, 2, 0x183),
   (0x189, 0x18A, 1, 0x256), (0x1A0, 0x1A4, 2, 0x1A1), (0x1B1, 0x1B2, 1, 0x28A), (0x1B3, 0x1B5, 2, 0x1B4),
   (0x1CB, 0x1DB, 2, 0x1CC), (0x1DE, 0x1EE, 2, 0x1DF), (0x1F2, 0x1F4, 2, 0x1F3), (0x1F8, 0x21E, 2, 0x1F9),
   (0x222, 0x232, 2, 0x223), (0x246, 0x24E, 2, 0x247), (0x370, 0x372, 2, 0x371), (0x388, 0x38A, 1, 0x3AD),
   (0x38E, 0x38F, 1, 0x3CD), (0x391, 0x3A1, 1, 0x3B1), (0x3A3, 0x3AB, 1, 0x3C3), (0x3D8, 0x3EE, 2, 0x3D9),
   (0x3FD, 0x3FF, 1, 0x37B), (0x400, 0x40F, 1, 0x450), (0x410, 0x42F, 1, 0x430), (0x460, 0x480, 2, 0x461),
   (0x48A, 0x4BE, 2, 0x48B), (0x4C1, 0x4CD, 2, 0x4C2), (0x4D0, 0x52E, 2, 0x4D1), (0x531, 0x556, 1, 0x561),
   (0x10A0, 0x10C5, 1, 0x2D00), (0x13A0, 0x13EF, 1, 0xAB70), (0x13F0, 0x13F5, 1, 0x13F8),
   (0x1C90, 0x1CBA, 1, 0x10D0), (0x1CBD, 0x1CBF, 1, 0x10FD), (0x1E00, 0x1E94, 2, 0x1E01),
   (0x1EA0, 0x1EFE, 2, 0x1EA1), (0x1F08, 0x1F0F, 1, 0x1F00), (0x1F18, 0x1F1D, 1, 0x1F10),
   (0x1F28, 0x1F2F, 1, 0x1F20), (0x1F38, 0x1F3F, 1, 0x1F30), (0x1F48, 0x1F4D, 1, 0x1F40),
   (0x1F59, 0x1F5F, 2, 0x1F51), (0x1F68, 0x1F6F, 1, 0x1F60), (0x1F88, 0x1F8F, 1, 0x1F80),
   (0x1F98, 0x1F9F, 1, 0x1F90), (0x1FA8, 0x1FAF, 1, 0x1FA0), (0x1FB8, 0x1FB9, 1, 0x1FB0),
   (0x1FBA, 0x1FBB, 1, 0x1F70), (0x1FC8, 0x1FCB, 1, 0x1F72), (0x1FD8, 0x1FD9, 1, 0x1FD0),
   (0x1FDA, 0x1FDB, 1, 0x1F76), (0x1FE8, 0x1FE9, 1, 0x1FE0), (0x1FEA, 0x1FEB, 1, 0x1F7A),
   (0x1FF8, 0x1FF9, 1, 0x1F78), (0x1FFA, 0x1FFB, 1, 0x1F7C), (0x2160, 0x216F, 1, 0x2170),
   (0x24B6, 0x24CF, 1, 0x24D0), (0x2C00, 0x2C2F, 1, 0x2C30), (0x2C67, 0x2C6B, 2, 0x2C68), (0x2C7E, 0x2C7F, 1, 0x23F),
   (0x2C80, 0x2CE2, 2, 0x2C81), (0x2CEB, 0x2CED, 2, 0x2CEC), (0xA640, 0xA66C, 2, 0xA641),
   (0xA680, 0xA69A, 2, 0xA681), (0xA722, 0xA72E, 2, 0xA723), (0xA732, 0xA76E, 2, 0xA733),
   (0xA779, 0xA77B, 2, 0xA77A), (0xA77E, 0xA786, 2, 0xA77F), (0xA790, 0xA792, 2, 0xA791),
   (0xA796, 0xA7A8, 2, 0xA797), (0xA7B4, 0xA7C2, 2, 0xA7B5), (0xA7C7, 0xA7C9, 2, 0xA7C8),
   (0xA7D6, 0xA7D8, 2, 0xA7D7), (0xFF21, 0xFF3A, 1, 0xFF41), (0x10400, 0x10427, 1, 0x10428),
   (0x104B0, 0x104D3, 1, 0x104D8), (0x10570, 0x1057A, 1, 0x10597), (0x1057C, 0x1058A, 1, 0x105A3),
   (0x1058C, 0x10592, 1, 0x105B3), (0x10594, 0x10595, 1, 0x105BB), (0x10C80, 0x10CB2, 1, 0x10CC0),
   (0x118A0, 0x118BF, 1, 0x118C0), (0x16E40, 0x16E5F, 1, 0x16E60), (0x1E900, 0x1E921, 1, 0x1E922)] ++
  [(0x130, 0x69), (0x178, 0xFF), (0x181, 0x253), (0x186, 0x254), (0x187, 0x188), (0x18B, 0x18C), (0x18E, 0x1DD),
   (0x18F, 0x259), (0x190, 0x25B), (0x191, 0x192), (0x193, 0x260), (0x194, 0x263), (0x196, 0x269), (0x197, 0x268),
   (0x198, 0x199), (0x19C, 0x26F), (0x19D, 0x272), (0x19F, 0x275), (0x1A6, 0x280), (0x1A7, 0x1A8), (0x1A9, 0x283),
   (0x1AC, 0x1AD), (0x1AE, 0x288), (0x1AF, 0x1B0), (0x1B7, 0x292), (0x1B8, 0x1B9), (0x1BC, 0x1BD), (0x1C4, 0x1C6),
   (0x1C5, 0x1C6), (0x1C7, 0x1C9), (0x1C8, 0x1C9), (0x1CA, 0x1CC), (0x1F1, 0x1F3), (0x1F6, 0x195), (0x1F7, 0x1BF),
   (0x220, 0x19E), (0x23A, 0x2C65), (0x23B, 0x23C), (0x23D, 0x19A), (0x23E, 0x2C66), (0x241, 0x242), (0x243, 0x180),
   (0x244, 0x289), (0x245, 0x28C), (0x376, 0x377), (0x37F, 0x3F3), (0x386, 0x3AC), (0x38C, 0x3CC), (0x3CF, 0x3D7),
   (0x3F4, 0x3B8), (0x3F7, 0x3F8), (0x3F9, 0x3F2), (0x3FA, 0x3FB), (0x4C0, 0x4CF), (0x10C7, 0x2D27),
   (0x10CD, 0x2D2D), (0x1E9E, 0xDF), (0x1FBC, 0x1FB3), (0x1FCC, 0x1FC3), (0x1FEC, 0x1FE5), (0x1FFC, 0x1FF3),
   (0x2126, 0x3C9), (0x212A, 0x6B), (0x212B, 0xE5), (0x2132, 0x214E), (0x2183, 0x2184), (0x2C60, 0x2C61),
   (0x2C62, 0x26B), (0x2C63, 0x1D7D), (0x2C64, 0x27D), (0x2C6D, 0x251), (0x2C6E, 0x271), (0x2C6F, 0x250),
   (0x2C70, 0x252), (0x2C72, 0x2C73), (0x2C75, 0x2C76), (0x2CF2, 0x2CF3), (0xA77D, 0x1D79), (0xA78B, 0xA78C),
   (0xA78D, 0x265), (0xA7AA, 0x266), (0xA7AB, 0x25C), (0xA7AC, 0x261), (0xA7AD, 0x26C), (0xA7AE, 0x26A),
   (0xA7B0, 0x29E), (0xA7B1, 0x287), (0xA7B2, 0x29D), (0xA7B3, 0xAB53), (0xA7C4, 0xA794), (0xA7C5, 0x282),
   (0xA7C6, 0x1D8E), (0xA7D0, 0xA7D1), (0xA7F5, 0xA7F6)].map fun (r, low) => (r, r, 1, low)

def lowerRune (r : Nat) : Nat :=
  if r < 128 then if 65 ≤ r ∧ r ≤ 90 then r + 32 else r
  else
    match caseRanges.find? fun (first, last, step, _) => first ≤ r && r ≤ last && (r - first) % step == 0 with
    | some (first, _, _, low) => low + (r - first)
    | none => r

/-- `utf8.AppendRune`; what is no rune is written as U+FFFD. -/
def encodeRune (r : Nat) : Str :=
  let tail (k : Nat) : UInt8 := .ofNat (0x80 + r / 64 ^ k % 64)
  if r < 0x80 then [.ofNat r]
  else if r < 0x800 then [.ofNat (0xC0 + r / 64), tail 0]
  else if (0xD800 ≤ r ∧ r < 0xE000) ∨ 0x110000 ≤ r then [0xEF, 0xBF, 0xBD]
  else if r < 0x10000 then [.ofNat (0xE0 + r / 64 ^ 2), tail 1, tail 0]
  else [.ofNat (0xF0 + r / 64 ^ 3), tail 2, tail 1, tail 0]

def toLower (s : Str) : Str := (runes s).flatMap fun r => encodeRune (lowerRune r)

/-! ## ASCII -/

theorem lowerRune_byte {c : UInt8} (h : c.toNat < 128) : lowerRune c.toNat = (lowerByte c).toNat := by
  unfold lowerRune lowerByte
  rw [if_pos h]
  simp only [UInt8.le_iff_toNat_le, UInt8.reduceToNat]
  split_ifs with hcap
  · rw [UInt8.toNat_add]
    exact (Nat.mod_eq_of_lt (show c.toNat + 32 < 256 by omega)).symm
  · rfl

theorem lowerByte_lt {c : UInt8} (h : c.toNat < 128) : (lowerByte c).toNat < 128 := by
  rw [← lowerRune_byte h, lowerRune, if_pos h]
  split_ifs with hcap
  · omega
  · exact h

theorem encodeRune_byte {c : UInt8} (h : c.toNat < 128) : encodeRune c.toNat = [c] := by
  unfold encodeRune
  rw [if_pos h, UInt8.ofNat_toNat]

/-- A byte of ASCII is a rune. -/
theorem runes_byte {c : UInt8} (h : c.toNat < 128) (s : Str) : runes (c :: s) = c.toNat :: runes s := by
  have hrune : decodeRune c s = (c.toNat, 0) := by
    unfold decodeRune
    exact if_pos (UInt8.lt_iff_toNat_lt.mpr h)
  rw [runes_cons, hrune, List.drop_zero]

theorem toLower_ascii {s : Str} (h : ∀ c ∈ s, c.toNat < 128) : toLower s = s.map lowerByte := by
  induction s with
  | nil => rfl
  | cons c s ih =>
    rw [List.forall_mem_cons] at h
    unfold toLower at ih ⊢
    rw [runes_byte h.1, List.flatMap_cons, ih h.2, lowerRune_byte h.1, encodeRune_byte (lowerByte_lt h.1)]
    rfl

/-! ## Runes outside ASCII -/

theorem caseRanges_low : lowerRune 0x130 = 0x69 ∧ lowerRune 0x212A = 0x6B ∧
    ∀ x ∈ caseRanges, 128 ≤ x.2.2.2 ∨ x = (0x130, 0x130, 1, 0x69) ∨ x = (0x212A, 0x212A, 1, 0x6B) := by
  decide +kernel

theorem lowerRune_high {r : Nat} (h : 128 ≤ r) (hdotted : r ≠ 0x130) (hkelvin : r ≠ 0x212A) : 128 ≤ lowerRune r := by
  unfold lowerRune
  rw [if_neg (Nat.not_lt.mpr h)]
  split
  · rename_i first last step low hfind
    have hin := List.find?_some hfind
    simp only [Bool.and_eq_true, decide_eq_true_eq] at hin
    rcases caseRanges_low.2.2 _ (List.mem_of_find?_eq_some hfind) with hlow | heq | heq
    · exact Nat.le_add_right_of_le hlow
    · cases heq
      omega
    · cases heq
      omega
  · exact h

theorem encodeRune_high {r : Nat} (h : 128 ≤ r) : encodeRune r ≠ [] ∧ ∀ b ∈ encodeRune r, 128 ≤ b.toNat := by
  have hbyte : ∀ {n : Nat}, 128 ≤ n → n < 256 → 128 ≤ (UInt8.ofNat n).toNat := by
    intro n hn hlt
    rw [UInt8.toNat_ofNat_of_lt' hlt]
    exact hn
  have htail : ∀ k, 128 ≤ (UInt8.ofNat (0x80 + r / 64 ^ k % 64)).toNat := fun k => hbyte (by omega) (by omega)
  unfold encodeRune
  simp only
  rw [if_neg (Nat.not_lt.mpr h)]
  split_ifs with h2 hbad h3
  · refine ⟨List.cons_ne_nil _ _, ?_⟩
    simp only [List.forall_mem_cons, List.not_mem_nil, false_imp_iff, implies_true, and_true]
    exact ⟨hbyte (by omega) (by omega), htail 0⟩
  · simp
  · refine ⟨List.cons_ne_nil _ _, ?_⟩
    simp only [List.forall_mem_cons, List.not_mem_nil, false_imp_iff, implies_true, and_true]
    exact ⟨hbyte (by omega) (by omega), htail 1, htail 0⟩
  · refine ⟨List.cons_ne_nil _ _, ?_⟩
    simp only [List.forall_mem_cons, List.not_mem_nil, false_imp_iff, implies_true, and_true]
    exact ⟨hbyte (by omega) (by omega), htail 2, htail 1, htail 0⟩

end Thawr.Go
