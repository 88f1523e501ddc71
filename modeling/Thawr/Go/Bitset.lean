/-
  Thawr.Go.Bitset — sets of small numbers as bits of 64-bit words.

  A number is at bit `i % 64` of word `i / 64`. The lemmas say what each operation does to
  membership; a caller needs no others.
-/

import Mathlib.Data.List.Basic

namespace Thawr.Go

structure Bitset where
  words : List UInt64

namespace Bitset

def new (n : Nat) : Bitset := ⟨List.replicate ((n + 63) / 64) 0⟩

def bit (i : Nat) : UInt64 := 1 <<< UInt64.ofNat (i % 64)

def set (b : Bitset) (i : Nat) : Bitset := ⟨b.words.modify (i / 64) (· ||| bit i)⟩

def has (b : Bitset) (i : Nat) : Bool := b.words.getD (i / 64) 0 &&& bit i != 0

def or (b c : Bitset) : Bitset := ⟨List.zipWith (· ||| ·) b.words c.words⟩

theorem bit_toBitVec (i : Nat) : (bit i).toBitVec = BitVec.twoPow 64 (i % 64) := by
  have hmod : ((UInt64.ofNat (i % 64)).toBitVec % (64 : BitVec 64)).toNat = i % 64 := by
    simp
  rw [bit, UInt64.toBitVec_shiftLeft, BitVec.twoPow, BitVec.shiftLeft_eq', hmod]
  rfl

/-- Masking with a bit tests it. -/
theorem and_bit (w : UInt64) (i : Nat) : (w &&& bit i != 0) = w.toBitVec.getLsbD (i % 64) := by
  have hlt : i % 64 < 64 := Nat.mod_lt _ (by decide)
  have hand : (w &&& bit i).toBitVec = if w.toBitVec.getLsbD (i % 64) then BitVec.twoPow 64 (i % 64) else 0#64 := by
    rw [UInt64.toBitVec_and, bit_toBitVec, BitVec.and_twoPow]
  cases hb : w.toBitVec.getLsbD (i % 64) with
  | true =>
    rw [hb, if_pos rfl] at hand
    rw [bne_iff_ne]
    intro h0
    rw [h0] at hand
    have hbit := congrArg (fun v => v.getLsbD (i % 64)) hand
    simp [hlt] at hbit
  | false =>
    rw [hb, if_neg Bool.false_ne_true] at hand
    have h0 : w &&& bit i = 0 := UInt64.toBitVec_inj.mp hand
    rw [h0]
    rfl

theorem has_eq (b : Bitset) (i : Nat) : b.has i = (b.words.getD (i / 64) 0).toBitVec.getLsbD (i % 64) := and_bit _ i

@[simp] theorem length_new (n : Nat) : (new n).words.length = (n + 63) / 64 := by simp [new]

@[simp] theorem length_set (b : Bitset) (i : Nat) : (b.set i).words.length = b.words.length := by simp [set]

theorem has_new (n i : Nat) : (new n).has i = false := by
  rw [has_eq]
  have h0 : (new n).words.getD (i / 64) 0 = 0 := by
    simp only [new, List.getD_eq_getElem?_getD, List.getElem?_replicate]
    split <;> rfl
  rw [h0]
  simp

theorem has_set {b : Bitset} {i : Nat} (hi : i / 64 < b.words.length) (j : Nat) :
    (b.set i).has j = (b.has j || decide (j = i)) := by
  rw [has_eq, has_eq, set]
  simp only [List.getD_eq_getElem?_getD, List.getElem?_modify]
  by_cases hw : i / 64 = j / 64
  · have hj : j / 64 < b.words.length := hw ▸ hi
    have hlt : i % 64 < 64 := Nat.mod_lt _ (by decide)
    have hbit : (BitVec.twoPow 64 (i % 64)).getLsbD (j % 64) = decide (j = i) := by grind
    simp only [hw, if_pos, List.getElem?_eq_getElem hj, Option.map_eq_map, Option.map_some, Option.getD_some,
      UInt64.toBitVec_or, BitVec.getLsbD_or, bit_toBitVec, hbit]
  · have hne : j ≠ i := fun he => hw (by rw [he])
    simp [hw, hne]

theorem has_or {b c : Bitset} (h : b.words.length = c.words.length) (i : Nat) : (b.or c).has i = (b.has i || c.has i) := by
  rw [has_eq, has_eq, has_eq, or]
  simp only [List.getD_eq_getElem?_getD, List.getElem?_zipWith]
  by_cases hi : i / 64 < b.words.length
  · simp [List.getElem?_eq_getElem hi, List.getElem?_eq_getElem (h ▸ hi)]
  · grind

theorem length_or {b c : Bitset} (h : b.words.length = c.words.length) : (b.or c).words.length = b.words.length := by
  simp [or, h]

end Bitset

end Thawr.Go
