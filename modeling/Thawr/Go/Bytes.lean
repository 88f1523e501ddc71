/-
  Thawr.Go.Bytes — Go's strings, byte arrays and maps, as far as the models need them.

  A Go string is a sequence of bytes with no promise of UTF-8, so `Str` is a list of
  bytes and a literal is written through `str`. `[n]byte` is `Arr n`: the length is
  part of the value. A map is a `Finmap`; `range` visits its entries in an order the
  language leaves open, so a function that ranges over a map takes the order as an
  argument and `Ranges m l` says that `l` is one of the orders `m` can be visited in.
  `sort.Slice` is not stable: a function that sorts with it takes any `SliceSort`.
-/

import Mathlib.Data.Finmap
import Mathlib.Data.List.Sort

namespace Thawr.Go

abbrev Str := List UInt8

def str (s : String) : Str := s.toUTF8.data.toList

structure Arr (n : Nat) where
  bytes : List UInt8
  size : bytes.length = n
  deriving DecidableEq

@[ext] theorem Arr.ext {n : Nat} {a b : Arr n} (h : a.bytes = b.bytes) : a = b := by
  cases a; cases b; cases h; rfl

def Arr.zero (n : Nat) : Arr n := ⟨List.replicate n 0, List.length_replicate⟩

instance (n : Nat) : Inhabited (Arr n) := ⟨Arr.zero n⟩

def Arr.of? (n : Nat) (b : List UInt8) : Option (Arr n) := if h : b.length = n then some ⟨b, h⟩ else none

/-- `[n]byte(b[i:i+n])` of a slice that reaches that far. -/
def Arr.at (n : Nat) (b : List UInt8) (i : Nat) : Arr n := ⟨(b.drop i ++ List.replicate n 0).take n, by simp⟩

theorem Arr.at_append {n i : Nat} {l r : List UInt8} (a : Arr n) (h : l.length = i) : Arr.at n (l ++ (a.bytes ++ r)) i = a := by
  refine Arr.ext ?_
  simp [Arr.at, ← h, a.size]

theorem Arr.bytes_at {n i : Nat} {b : List UInt8} (h : i + n ≤ b.length) : (Arr.at n b i).bytes = (b.drop i).take n := by
  have hlen : n ≤ (b.drop i).length := by
    rw [List.length_drop]
    omega
  exact List.take_append_of_le_length hlen

/-! ## Big-endian numbers -/

def beNat (b : List UInt8) : Nat := b.foldl (fun acc c => acc * 256 + c.toNat) 0

/-- The low `n` bytes of `x`, most significant first. -/
def beBytes : Nat → Nat → List UInt8
  | 0, _ => []
  | n + 1, x => beBytes n (x / 256) ++ [UInt8.ofNat (x % 256)]

theorem beBytes_length (n x : Nat) : (beBytes n x).length = n := by
  induction n generalizing x with
  | zero => rfl
  | succ n ih => simp [beBytes, ih]

def Arr.ofNat (n x : Nat) : Arr n := ⟨beBytes n x, beBytes_length n x⟩

def Arr.toNat {n : Nat} (a : Arr n) : Nat := beNat a.bytes

@[simp] theorem beNat_append_singleton (b : List UInt8) (c : UInt8) : beNat (b ++ [c]) = beNat b * 256 + c.toNat := by
  simp [beNat, List.foldl_append]

theorem beNat_append (b c : List UInt8) : beNat (b ++ c) = beNat b * 256 ^ c.length + beNat c := by
  induction c using List.reverseRecOn with
  | nil => simp [beNat]
  | append_singleton c x ih =>
    rw [← List.append_assoc, beNat_append_singleton, beNat_append_singleton, ih, List.length_append, List.length_singleton,
      Nat.pow_succ, Nat.add_mul, Nat.mul_assoc, Nat.add_assoc]

theorem beNat_cons (x : UInt8) (b : List UInt8) : beNat (x :: b) = x.toNat * 256 ^ b.length + beNat b := by
  rw [show x :: b = [x] ++ b from rfl, beNat_append]
  simp [beNat]

theorem beNat_beBytes {n x : Nat} (h : x < 256 ^ n) : beNat (beBytes n x) = x := by
  induction n generalizing x with
  | zero =>
    rw [Nat.pow_zero] at h
    simp [beBytes, beNat]
    omega
  | succ n ih =>
    have hdiv : x / 256 < 256 ^ n := Nat.div_lt_of_lt_mul (by rw [Nat.pow_succ] at h; omega)
    rw [beBytes, beNat_append_singleton, ih hdiv, UInt8.toNat_ofNat', Nat.mod_mod_of_dvd _ (by decide)]
    omega

theorem Arr.toNat_ofNat {n x : Nat} (h : x < 256 ^ n) : (Arr.ofNat n x).toNat = x := beNat_beBytes h

theorem beNat_lt (b : List UInt8) : beNat b < 256 ^ b.length := by
  induction b using List.reverseRecOn with
  | nil => simp [beNat]
  | append_singleton b c ih =>
    have hc := c.toNat_lt
    rw [beNat_append_singleton, List.length_append, List.length_singleton, Nat.pow_succ]
    omega

/-- Byte strings of one length are determined by the number they spell. -/
theorem beNat_inj {b c : List UInt8} (hl : b.length = c.length) (h : beNat b = beNat c) : b = c := by
  induction b using List.reverseRecOn generalizing c with
  | nil => exact (List.eq_nil_of_length_eq_zero hl.symm).symm
  | append_singleton b x ih =>
    rcases List.eq_nil_or_concat c with rfl | ⟨d, y, rfl⟩
    · simp at hl
    · rw [beNat_append_singleton, List.concat_eq_append, beNat_append_singleton] at h
      have hx := x.toNat_lt
      have hy := y.toNat_lt
      have hd : b = d := ih (by simpa using hl) (by omega)
      have hxy : x = y := UInt8.toNat_inj.mp (by omega)
      rw [hd, hxy, List.concat_eq_append]

theorem Arr.toNat_inj {n : Nat} {a b : Arr n} (h : a.toNat = b.toNat) : a = b :=
  Arr.ext (beNat_inj (a.size.trans b.size.symm) h)

/-! ## Cutting and trimming -/

def cut (s : Str) (sep : UInt8) : Option (Str × Str) :=
  match s with
  | [] => none
  | c :: t => if c = sep then some ([], t) else (cut t sep).map fun x => (c :: x.1, x.2)

/-- `s[:i]` and `s[i+1:]` for `i := strings.LastIndex(s, sep)`. -/
def cutLast (s : Str) (sep : UInt8) : Option (Str × Str) :=
  match s with
  | [] => none
  | c :: t =>
    match cutLast t sep with
    | some x => some (c :: x.1, x.2)
    | none => if c = sep then some ([], t) else none

def split (s : Str) (sep : UInt8) : List Str :=
  match s with
  | [] => [[]]
  | c :: t =>
    if c = sep then [] :: split t sep
    else match split t sep with
      | [] => [[c]]
      | p :: ps => (c :: p) :: ps

theorem split_eq (s : Str) (sep : UInt8) : split s sep = s.splitOn sep := by
  induction s with
  | nil => rfl
  | cons c s ih =>
    obtain ⟨p, ps, hp⟩ := List.exists_cons_of_ne_nil (List.splitOn_ne_nil sep s)
    rw [split, List.splitOn_cons_eq_if_modifyHead, ih, hp]
    simp only [beq_iff_eq, List.modifyHead_cons]

theorem split_ne_nil (s : Str) (sep : UInt8) : split s sep ≠ [] := split_eq s sep ▸ List.splitOn_ne_nil sep s

/-- How many bytes the white space `s` starts with takes, 0 when it starts with none:
    the ASCII spaces and the code points Unicode calls White_Space. -/
def spaceWidth : Str → Nat
  | 0xC2 :: b :: _ => if b = 0x85 ∨ b = 0xA0 then 2 else 0
  | 0xE1 :: 0x9A :: 0x80 :: _ => 3
  | 0xE2 :: 0x80 :: c :: _ => if (0x80 ≤ c ∧ c ≤ 0x8A) ∨ c = 0xA8 ∨ c = 0xA9 ∨ c = 0xAF then 3 else 0
  | 0xE2 :: 0x81 :: 0x9F :: _ => 3
  | 0xE3 :: 0x80 :: 0x80 :: _ => 3
  | c :: _ => if (9 ≤ c ∧ c ≤ 13) ∨ c = 32 then 1 else 0
  | [] => 0

/-- `spaceWidth` read from the end; the argument is the string reversed. -/
def spaceWidthRev : Str → Nat
  | b :: 0xC2 :: _ => if b = 0x85 ∨ b = 0xA0 then 2 else if (9 ≤ b ∧ b ≤ 13) ∨ b = 32 then 1 else 0
  | 0x80 :: 0x9A :: 0xE1 :: _ => 3
  | 0x9F :: 0x81 :: 0xE2 :: _ => 3
  | 0x80 :: 0x80 :: 0xE3 :: _ => 3
  | c :: 0x80 :: 0xE2 :: _ =>
    if (0x80 ≤ c ∧ c ≤ 0x8A) ∨ c = 0xA8 ∨ c = 0xA9 ∨ c = 0xAF then 3
    else if (9 ≤ c ∧ c ≤ 13) ∨ c = 32 then 1 else 0
  | c :: _ => if (9 ≤ c ∧ c ≤ 13) ∨ c = 32 then 1 else 0
  | [] => 0

def trimBy (width : Str → Nat) : Nat → Str → Str
  | 0, s => s
  | n + 1, s => if width s = 0 then s else trimBy width n (s.drop (width s))

def trimSpace (s : Str) : Str :=
  let l := trimBy spaceWidth s.length s
  (trimBy spaceWidthRev l.length l.reverse).reverse

def trimSuffix (s suffix : Str) : Str := if suffix <:+ s then s.take (s.length - suffix.length) else s

/-! ## Decimal numbers -/

def isDigit (c : UInt8) : Bool := 48 ≤ c && c ≤ 57

def digitsVal (s : Str) : Nat := s.foldl (fun acc c => acc * 10 + (c.toNat - 48)) 0

/-- `strconv.ParseUint(s, 10, w)`: digits only, and the number fits `w` bits. -/
def parseUint (w : Nat) (s : Str) : Option Nat :=
  if s ≠ [] ∧ s.all isDigit ∧ digitsVal s < 2 ^ w then some (digitsVal s) else none

theorem parseUint_lt {w n : Nat} {s : Str} (h : parseUint w s = some n) : n < 2 ^ w := by
  unfold parseUint at h
  split at h
  · rename_i hs
    cases h
    exact hs.2.2
  · cases h

/-- `strconv.Atoi`: digits after an optional sign, and the number fits 64 bits. -/
def atoi : Str → Option Int
  | 43 :: s => (parseUint 63 s).map Int.ofNat
  | 45 :: s => if s = str "9223372036854775808" then some (-2 ^ 63) else (parseUint 63 s).map fun n => -Int.ofNat n
  | s => (parseUint 63 s).map Int.ofNat

/-- A number below 1000 in decimal, as `netip` writes octets and prefix lengths. -/
def dec (n : Nat) : Str :=
  (if 100 ≤ n then [UInt8.ofNat (48 + n / 100)] else []) ++
    (if 10 ≤ n then [UInt8.ofNat (48 + n / 10 % 10)] else []) ++ [UInt8.ofNat (48 + n % 10)]

def decimal (n : Nat) : Str := (Nat.toDigits 10 n).map fun c => UInt8.ofNat c.toNat

theorem decimal_digits (n : Nat) : ∀ c ∈ decimal n, isDigit c = true := by
  intro c hc
  obtain ⟨d, hd, rfl⟩ := List.mem_map.mp hc
  have hdigit := Nat.isDigit_of_mem_toDigits (by decide) (by decide) hd
  simp only [Char.isDigit, Bool.and_eq_true, decide_eq_true_eq, ge_iff_le, UInt32.le_iff_toNat_le] at hdigit
  have hd48 : 48 ≤ d.toNat := hdigit.1
  have hd57 : d.toNat ≤ 57 := hdigit.2
  have hnat : (UInt8.ofNat d.toNat).toNat = d.toNat := by
    rw [UInt8.toNat_ofNat']
    omega
  simp only [isDigit, Bool.and_eq_true, decide_eq_true_eq, UInt8.le_iff_toNat_le, hnat]
  exact ⟨hd48, hd57⟩

theorem decimal_ne_nil (n : Nat) : decimal n ≠ [] := by
  unfold decimal
  rw [ne_eq, List.map_eq_nil_iff]
  exact Nat.toDigits_ne_nil

/-! ## Maps and sorting -/

abbrev GoMap (κ ν : Type) := Finmap (fun _ : κ => ν)

/-- The entries of `m` in one of the orders a `range` may visit them in. -/
def Ranges {κ ν : Type} (m : GoMap κ ν) (l : List (Σ _ : κ, ν)) : Prop := (l : Multiset (Σ _ : κ, ν)) = m.entries

instance {κ ν : Type} [DecidableEq κ] [DecidableEq ν] (m : GoMap κ ν) (l : List (Σ _ : κ, ν)) : Decidable (Ranges m l) :=
  inferInstanceAs (Decidable (_ = _))

/-- What is found after an insertion is the new entry, or was there before. -/
theorem of_lookup_insert {κ ν : Type} [DecidableEq κ] {m : GoMap κ ν} {k k' : κ} {v w : ν}
    (h : (m.insert k v).lookup k' = some w) :
    k' = k ∧ w = v ∨ k' ≠ k ∧ m.lookup k' = some w := by
  by_cases hk : k' = k
  · rw [hk, Finmap.lookup_insert] at h
    exact .inl ⟨hk, (Option.some.inj h).symm⟩
  · rw [Finmap.lookup_insert_of_ne _ hk] at h
    exact .inr ⟨hk, h⟩

/-- An insertion at a new key keeps what is there. -/
theorem lookup_insert_new {κ ν : Type} [DecidableEq κ] {m : GoMap κ ν} {k k' : κ} {v w : ν} (hnew : m.lookup k = none)
    (h : m.lookup k' = some w) : (m.insert k v).lookup k' = some w := by
  rw [Finmap.lookup_insert_of_ne _ fun hk => ?_, h]
  rw [hk, hnew] at h
  cases h

theorem Ranges.mem_iff {κ ν : Type} [DecidableEq κ] {m : GoMap κ ν} {l : List (Σ _ : κ, ν)} (h : Ranges m l)
    (k : κ) (v : ν) : (⟨k, v⟩ : Σ _ : κ, ν) ∈ l ↔ m.lookup k = some v := by
  rw [Finmap.lookup_eq_some_iff, ← h, Multiset.mem_coe]

/-- What `sort.Slice` may be: a permutation in which nothing is less than what stands
    before it; elements that compare equal come in any order. -/
structure SliceSort {α : Type} (less : α → α → Bool) where
  run : List α → List α
  perm : ∀ l, (run l).Perm l
  sorted : ∀ l, (run l).Pairwise fun a b => less b a = false

def SliceSort.byText {α : Type} (key : α → Str) : SliceSort fun a b => decide (key a < key b) where
  run := List.insertionSort fun a b => key a ≤ key b
  perm := List.perm_insertionSort _
  sorted l := by
    have : Std.Total fun a b : α => key a ≤ key b := ⟨fun a b => List.le_total _ _⟩
    have : IsTrans α fun a b : α => key a ≤ key b := ⟨fun a b c => List.le_trans⟩
    refine (List.pairwise_insertionSort (fun a b : α => key a ≤ key b) l).imp ?_
    intro a b h
    exact decide_eq_false h

theorem SliceSort.mem_iff {α : Type} {less : α → α → Bool} (S : SliceSort less) {a : α} {l : List α} :
    a ∈ S.run l ↔ a ∈ l := (S.perm l).mem_iff

/-- Two lists in one strict order with the same elements are the same list. -/
theorem sorted_ext {α : Type} {R : α → α → Prop} (hasymm : ∀ a b, R a b → ¬R b a) {l m : List α} (hl : l.Pairwise R)
    (hm : m.Pairwise R) (h : ∀ x, x ∈ l ↔ x ∈ m) : l = m := by
  have hne : ∀ a b, R a b → a ≠ b := fun a b hab he => hasymm a b hab (he ▸ hab)
  have hperm : l.Perm m := (List.perm_ext_iff_of_nodup (hl.imp (hne _ _)) (hm.imp (hne _ _))).mpr h
  exact hperm.eq_of_pairwise (fun a b _ _ hab hba => absurd hba (hasymm a b hab)) hl hm

/-! ## Errors

A call that may fail is an `Except`, and `if err != nil { return err }` after it a bind. -/

theorem bind_ok {ε α β : Type} {x : Except ε α} {f : α → Except ε β} {b : β} :
    (x >>= f) = .ok b ↔ ∃ a, x = .ok a ∧ f a = .ok b := by
  cases x with
  | error e => simp [bind, Except.bind]
  | ok a => simp [bind, Except.bind]

theorem map_ok {ε α β : Type} {x : Except ε α} {f : α → β} {b : β} : x.map f = .ok b ↔ ∃ a, x = .ok a ∧ f a = b := by
  cases x with
  | error e => simp [Except.map]
  | ok a => simp [Except.map]

theorem mapError_ok {ε δ α : Type} {x : Except ε α} {f : ε → δ} {a : α} : x.mapError f = .ok a ↔ x = .ok a := by
  cases x with
  | error e => simp [Except.mapError]
  | ok b => simp [Except.mapError]

theorem mem_filterMap_toOption {α β ε : Type} {f : α → Except ε β} {l : List α} {y : β} :
    y ∈ l.filterMap (fun x => (f x).toOption) ↔ ∃ x ∈ l, f x = .ok y := by
  simp only [List.mem_filterMap]
  refine exists_congr fun x => and_congr_right fun _ => ?_
  cases f x <;> simp [Except.toOption]

def check {ε : Type} (ok : Bool) (e : ε) : Except ε Unit := if ok then .ok () else .error e

def found {ε α : Type} (x : Option α) (e : ε) : Except ε α := x.elim (.error e) .ok

theorem ite_error_ok {α ε : Type} {c : Prop} [Decidable c] {e : ε} {x : Except ε α} {v : α} :
    (if c then .error e else x) = .ok v ↔ ¬c ∧ x = .ok v := by
  split <;> simp [*]

theorem check_ok {ε : Type} {ok : Bool} {e : ε} {u : Unit} : check ok e = .ok u ↔ ok = true := by
  cases ok with
  | false => simp [check]
  | true => simp [check]

theorem found_ok {ε α : Type} {x : Option α} {e : ε} {a : α} : found x e = .ok a ↔ x = some a := by
  cases x with
  | none => simp [found]
  | some b => simp [found]

/-! ## Loops -/

/-- What a `for range` loop keeps: `I` relates the elements visited so far to the state, holds
    before the loop and is kept by its body. -/
theorem loop_inv {α σ : Type} {f : σ → α → σ} {I : List α → σ → Prop} {s : σ} {all : List α} (h0 : I [] s)
    (hstep : ∀ l a t, a ∈ all → I l t → I (l ++ [a]) (f t a)) : I all (all.foldl f s) := by
  suffices h : ∀ l, (∀ a ∈ l, a ∈ all) → I l (l.foldl f s) from h all fun _ ha => ha
  intro l
  induction l using List.reverseRecOn with
  | nil => exact fun _ => h0
  | append_singleton l a ih => grind

end Thawr.Go
