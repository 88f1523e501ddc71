/-
  Thawr.Go.Access — reads of a byte slice that can be out of range.

  Every access says whether it stays within the length of the slice; one that does not panics in
  Go (a slice expression only past the capacity, so this is stricter). A decoder written with
  these reads is safe when it never ends with `outOfRange`.
-/

import Thawr.Go.Bytes

namespace Thawr.Go.Access

inductive Panic where
  | outOfRange

def index (b : List UInt8) (i : Nat) : Except Panic UInt8 := found b[i]? .outOfRange

def slice (b : List UInt8) (lo hi : Nat) : Except Panic (List UInt8) :=
  if lo ≤ hi ∧ hi ≤ b.length then .ok ((b.drop lo).take (hi - lo)) else .error .outOfRange

def uint16 (b : List UInt8) : Except Panic UInt16 := do
  let lo ← index b 1
  let hi ← index b 0
  return UInt16.ofNat (hi.toNat * 256 + lo.toNat)

def array (n : Nat) (b : List UInt8) : Except Panic (Arr n) := if n ≤ b.length then .ok (Arr.at n b 0) else .error .outOfRange

section

variable {b : List UInt8} {i lo hi : Nat}

theorem index_ok (h : i < b.length) : index b i = .ok (b.getD i 0) := by
  unfold index found
  rw [List.getElem?_eq_getElem h, List.getD_eq_getElem?_getD, List.getElem?_eq_getElem h]
  rfl

theorem slice_ok (hle : lo ≤ hi) (h : hi ≤ b.length) : slice b lo hi = .ok ((b.drop lo).take (hi - lo)) := if_pos ⟨hle, h⟩

theorem sliceFrom_ok (h : lo ≤ b.length) : slice b lo b.length = .ok (b.drop lo) := by
  rw [slice_ok h (Nat.le_refl _), List.take_of_length_le (by rw [List.length_drop])]

/-- Two bytes of a slice as a number. -/
theorem uint16_slice (hhi : hi = lo + 2) (h : hi ≤ b.length) :
    (slice b lo hi).bind uint16 = .ok (UInt16.ofNat ((b.getD lo 0).toNat * 256 + (b.getD (lo + 1) 0).toNat)) := by
  subst hhi
  have hlen : ((b.drop lo).take 2).length = 2 := by
    rw [List.length_take, List.length_drop]
    omega
  have hat : ∀ i < 2, ((b.drop lo).take 2).getD i 0 = b.getD (lo + i) 0 := by grind
  rw [slice_ok (by omega) h, Nat.add_sub_cancel_left]
  change uint16 ((b.drop lo).take 2) = _
  unfold uint16
  rw [index_ok (by omega), index_ok (by omega), hat 0 (by decide), hat 1 (by decide)]
  rfl

/-- Bytes of a slice as an array. -/
theorem array_slice {n : Nat} (hhi : hi = lo + n) (h : hi ≤ b.length) : (slice b lo hi).bind (array n) = .ok (Arr.at n b lo) := by
  subst hhi
  have hlen : ((b.drop lo).take n).length = n := by
    rw [List.length_take, List.length_drop]
    omega
  rw [slice_ok (by omega) h, Nat.add_sub_cancel_left]
  change array n ((b.drop lo).take n) = _
  unfold array
  rw [if_pos (by omega)]
  congr 1
  refine Arr.ext ?_
  rw [Arr.bytes_at (by omega), Arr.bytes_at h, List.drop_zero, List.take_take, Nat.min_self]

end

end Thawr.Go.Access
