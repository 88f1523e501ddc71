/-
  Thawr.Go.Text6 — the text of an IPv6 address.

  `String` writes the eight groups in hex and `::` for the longest run of zero groups;
  `ParseAddr` reads the groups before and after the `::` and puts the zeros back. Proved: it
  reads back what `String` wrote of the groups (`ipv6Bytes_string6`). An address of either family
  without a zone is written in digits, hex digits, dots and colons (`string_bytes`).
-/

import Thawr.Go.Prefixes

namespace Thawr.Go.Netip

/-! ## Hex groups -/

theorem hexVal_hexDigit {d : Nat} (h : d < 16) : hexVal (hexDigit d) = some d := by
  revert d
  decide

def Ends (t : Str) : Prop := t = [] ∨ ∃ u, t = 58 :: u

theorem hexGroup_ends {t : Str} (h : Ends t) (off acc : Nat) : hexGroup t off acc = some (acc, off, t) := by
  rcases h with rfl | ⟨u, rfl⟩
  · rfl
  · rfl

theorem hexGroup_digit {d off acc : Nat} (h : d < 16) (hoff : off ≤ 3) (s : Str) :
    hexGroup (hexDigit d :: s) off acc = hexGroup s (off + 1) (acc * 16 + d) := by
  rw [hexGroup, hexVal_hexDigit h]
  simp only
  rw [if_neg (by omega)]

/-- A group is read as the number it was written for. -/
theorem hexGroup_hex {n : Nat} (hn : n < 65536) {t : Str} (ht : Ends t) :
    ∃ k, hexGroup (hex n ++ t) 0 0 = some (n, k + 1, t) := by
  have hlast : n % 16 < 16 := Nat.mod_lt _ (by decide)
  unfold hex
  rcases Nat.lt_or_ge n 0x10 with h1 | h1
  · rw [if_neg (by omega), if_neg (by omega), if_neg (by omega)]
    refine ⟨0, ?_⟩
    rw [List.nil_append, List.nil_append, List.nil_append, List.singleton_append, hexGroup_digit hlast (by omega),
      hexGroup_ends ht,
      show 0 * 16 + n % 16 = n by omega]
  · rcases Nat.lt_or_ge n 0x100 with h2 | h2
    · rw [if_neg (by omega), if_neg (by omega), if_pos h1]
      refine ⟨1, ?_⟩
      simp only [List.nil_append, List.cons_append]
      rw [hexGroup_digit (by omega) (by omega), hexGroup_digit hlast (by omega), hexGroup_ends ht,
        show (0 * 16 + n / 0x10 % 16) * 16 + n % 16 = n by omega]
    · rcases Nat.lt_or_ge n 0x1000 with h3 | h3
      · rw [if_neg (by omega), if_pos h2, if_pos h1]
        refine ⟨2, ?_⟩
        simp only [List.nil_append, List.cons_append]
        rw [hexGroup_digit (by omega) (by omega), hexGroup_digit (by omega) (by omega), hexGroup_digit hlast (by omega),
          hexGroup_ends ht, show ((0 * 16 + n / 0x100 % 16) * 16 + n / 0x10 % 16) * 16 + n % 16 = n by omega]
      · rw [if_pos h3, if_pos h2, if_pos h1]
        refine ⟨3, ?_⟩
        simp only [List.nil_append, List.cons_append]
        rw [hexGroup_digit (by omega) (by omega), hexGroup_digit (by omega) (by omega), hexGroup_digit (by omega) (by omega),
          hexGroup_digit hlast (by omega), hexGroup_ends ht,
          show (((0 * 16 + n / 0x1000) * 16 + n / 0x100 % 16) * 16 + n / 0x10 % 16) * 16 + n % 16 = n by omega]

/-- A group starts with a hex digit. -/
theorem hex_cons (n : Nat) (hn : n < 65536) : ∃ d s, d < 16 ∧ hex n = hexDigit d :: s := by
  unfold hex
  split
  · exact ⟨_, _, by omega, rfl⟩
  · split
    · exact ⟨_, _, Nat.mod_lt _ (by decide), rfl⟩
    · split
      · exact ⟨_, _, Nat.mod_lt _ (by decide), rfl⟩
      · exact ⟨_, _, Nat.mod_lt _ (by decide), rfl⟩

def groupBytes (n : Nat) : List UInt8 := [UInt8.ofNat (n / 256), UInt8.ofNat (n % 256)]

section

variable {n fuel : Nat} {ip : List UInt8} {ell : Option Nat}

theorem parseGroups_last (hn : n < 65536) : parseGroups (fuel + 1) (hex n) ip ell = some (ip ++ groupBytes n, ell) := by
  obtain ⟨k, hk⟩ := hexGroup_hex hn (t := []) (.inl rfl)
  rw [List.append_nil] at hk
  rw [parseGroups, hk]
  rfl

/-- One colon, with the text of the next group after it. -/
theorem parseGroups_next (hn : n < 65536) {c : UInt8} (hc : c ≠ 58) (u : Str) :
    parseGroups (fuel + 1) (hex n ++ 58 :: c :: u) ip ell = parseGroups fuel (c :: u) (ip ++ groupBytes n) ell := by
  obtain ⟨k, hk⟩ := hexGroup_hex hn (t := 58 :: c :: u) (.inr ⟨_, rfl⟩)
  rw [parseGroups, hk]
  simp only
  rw [if_neg (show ¬(58 :: c :: u).head? = some 46 by simp)]
  split
  · rename_i h
    cases h
  · rename_i h
    cases h
  · rename_i h
    injection h with _ h
    injection h with h
    exact absurd h hc
  · rename_i h
    cases h
    rfl
  · rename_i h
    exact absurd rfl (h _)

theorem parseGroups_colon (hn : n < 65536) {m : Nat} (hm : m < 65536) (u : Str) :
    parseGroups (fuel + 1) (hex n ++ 58 :: (hex m ++ u)) ip ell = parseGroups fuel (hex m ++ u) (ip ++ groupBytes n) ell := by
  obtain ⟨d, s, hd, hs⟩ := hex_cons m hm
  have hne : hexDigit d ≠ 58 := by
    intro he
    have := hexDigit_plain hd
    rw [he] at this
    cases this
  rw [hs, List.cons_append]
  exact parseGroups_next hn hne _

theorem parseGroups_ellipsis (hn : n < 65536) (more : Str) :
    parseGroups (fuel + 1) (hex n ++ 58 :: 58 :: more) ip none =
      if more = [] then some (ip ++ groupBytes n, some (ip ++ groupBytes n).length)
      else parseGroups fuel more (ip ++ groupBytes n) (some (ip ++ groupBytes n).length) := by
  obtain ⟨k, hk⟩ := hexGroup_hex hn (t := 58 :: 58 :: more) (.inr ⟨_, rfl⟩)
  rw [parseGroups, hk]
  rfl

end

/-! ## The groups of an address -/

section

variable {b : List UInt8} {zs ze : Nat}

theorem drop_group (hl : b.length = 16) {i : Nat} (hi : i < 8) :
    b.drop (2 * i) = groupBytes (group b i) ++ b.drop (2 * (i + 1)) := by
  have hlen : (b.drop (2 * i)).length = 16 - 2 * i := by rw [List.length_drop, hl]
  have hnext : b.drop (2 * (i + 1)) = (b.drop (2 * i)).drop 2 := by rw [List.drop_drop, Nat.mul_succ]
  rw [hnext]
  unfold group
  match hd : b.drop (2 * i) with
  | [] =>
    rw [hd, List.length_nil] at hlen
    omega
  | [x] =>
    rw [hd, List.length_singleton] at hlen
    omega
  | x :: y :: rest =>
    have hx := x.toNat_lt
    have hy := y.toNat_lt
    have hval : beNat ((x :: y :: rest).take 2) = x.toNat * 256 + y.toNat := by simp [beNat]
    rw [hval, groupBytes, show (x.toNat * 256 + y.toNat) / 256 = x.toNat by omega,
      show (x.toNat * 256 + y.toNat) % 256 = y.toNat by omega, UInt8.ofNat_toNat, UInt8.ofNat_toNat]
    rfl

theorem drop_zeros (hl : b.length = 16) (k : Nat) : ∀ {i : Nat}, i + k ≤ 8 → (∀ m, i ≤ m → m < i + k → group b m = 0) →
    b.drop (2 * i) = List.replicate (2 * k) 0 ++ b.drop (2 * (i + k)) := by
  induction k with
  | zero =>
    intro i _ _
    rfl
  | succ k ih =>
    intro i hi hzero
    rw [drop_group hl (by omega), hzero i (Nat.le_refl i) (by omega), ih (by omega) fun m h1 h2 => hzero m (by omega) (by omega),
      show i + 1 + k = i + (k + 1) by omega, show 2 * (k + 1) = 2 * k + 1 + 1 by omega]
    rfl

theorem groupsFrom_end (n : Nat) {i : Nat} (hi : 8 ≤ i) : groupsFrom b zs ze n i = [] := by
  cases n with
  | zero => rfl
  | succ n =>
    rw [groupsFrom, if_pos hi]

theorem groupsFrom_next (n : Nat) {i : Nat} (hi : i < 8) (hz : i ≠ zs) (hpos : 0 < i) :
    groupsFrom b zs ze (n + 1) i = 58 :: (hex (group b i) ++ groupsFrom b zs ze n (i + 1)) := by
  rw [groupsFrom, if_neg (by omega), if_neg hz, if_pos hpos]
  rfl

/-- Groups without a `::` among them. -/
theorem parseGroups_from (hl : b.length = 16) (k : Nat) : ∀ {j n fuel : Nat} {ip : List UInt8} {ell : Option Nat}, j + k = 7 →
    k ≤ n → k < fuel → (∀ i, j < i → i < 8 → i ≠ zs) →
    parseGroups fuel (hex (group b j) ++ groupsFrom b zs ze n (j + 1)) ip ell = some (ip ++ b.drop (2 * j), ell) := by
  induction k with
  | zero =>
    intro j n fuel ip ell hj _ hfuel _
    obtain ⟨fuel, rfl⟩ : ∃ f, fuel = f + 1 := ⟨fuel - 1, by omega⟩
    have hrest : b.drop (2 * (j + 1)) = [] := List.drop_eq_nil_of_le (by omega)
    rw [groupsFrom_end n (by omega), List.append_nil, parseGroups_last (group_lt b j), drop_group hl (by omega),
      hrest, List.append_nil]
  | succ k ih =>
    intro j n fuel ip ell hj hn hfuel hz
    obtain ⟨fuel, rfl⟩ : ∃ f, fuel = f + 1 := ⟨fuel - 1, by omega⟩
    obtain ⟨n, rfl⟩ : ∃ m, n = m + 1 := ⟨n - 1, by omega⟩
    rw [groupsFrom_next n (by omega) (hz _ (by omega) (by omega)) (by omega), parseGroups_colon (group_lt b j) (group_lt b _),
      ih (by omega) (by omega) (by omega) fun i hi => hz i (by omega), drop_group hl (show j < 8 by omega), List.append_assoc]

/-- What the `::` leaves to read. -/
theorem parseGroups_rest (hl : b.length = 16) (hlt : zs < ze) (hze : ze < 8) {n fuel : Nat} {ip : List UInt8} {ell : Option Nat}
    (hn : 7 - ze ≤ n) (hfuel : 7 - ze < fuel) :
    parseGroups fuel (hex (group b ze) ++ groupsFrom b zs ze n (ze + 1)) ip ell = some (ip ++ b.drop (2 * ze), ell) :=
  parseGroups_from hl (7 - ze) (by omega) hn hfuel fun i hi _ => by omega

/-- Groups with the `::` after them. -/
theorem parseGroups_to (hl : b.length = 16) (hlt : zs < ze) (hze : ze ≤ 8) (k : Nat) : ∀ {j n fuel : Nat} {ip : List UInt8},
    j + k + 1 = zs → 7 - j ≤ n → 8 - j ≤ fuel →
    parseGroups fuel (hex (group b j) ++ groupsFrom b zs ze n (j + 1)) ip none =
      some (ip ++ (b.drop (2 * j)).take (2 * (k + 1)) ++ b.drop (2 * ze), some (ip.length + 2 * (k + 1))) := by
  induction k with
  | zero =>
    intro j n fuel ip hj hn hfuel
    obtain ⟨fuel, rfl⟩ : ∃ f, fuel = f + 1 := ⟨fuel - 1, by omega⟩
    obtain ⟨n, rfl⟩ : ∃ m, n = m + 1 := ⟨n - 1, by omega⟩
    have hfirst : (b.drop (2 * j)).take (2 * (0 + 1)) = groupBytes (group b j) := by
      rw [drop_group hl (by omega)]
      exact List.take_left' rfl
    have htext : groupsFrom b zs ze (n + 1) (j + 1) =
        58 :: 58 :: (if 8 ≤ ze then [] else hex (group b ze) ++ groupsFrom b zs ze n (ze + 1)) := by
      rw [groupsFrom, if_neg (by omega), if_pos (by omega)]
      rfl
    rw [htext, parseGroups_ellipsis (group_lt b j), hfirst]
    rcases Nat.lt_or_ge ze 8 with h8 | h8
    · obtain ⟨d, s, -, hs⟩ := hex_cons _ (group_lt b ze)
      rw [if_neg (show ¬8 ≤ ze by omega), if_neg (by rw [hs]; simp), parseGroups_rest hl hlt h8 (by omega) (by omega)]
      simp [groupBytes]
    · rw [if_pos h8, if_pos rfl, List.drop_eq_nil_of_le (show b.length ≤ 2 * ze by omega), List.append_nil]
      simp [groupBytes]
  | succ k ih =>
    intro j n fuel ip hj hn hfuel
    obtain ⟨fuel, rfl⟩ : ∃ f, fuel = f + 1 := ⟨fuel - 1, by omega⟩
    obtain ⟨n, rfl⟩ : ∃ m, n = m + 1 := ⟨n - 1, by omega⟩
    have hfirst : (b.drop (2 * j)).take (2 * (k + 1 + 1)) = groupBytes (group b j) ++
      (b.drop (2 * (j + 1))).take (2 * (k + 1)) := by
      rw [drop_group hl (by omega), show 2 * (k + 1 + 1) =
        (groupBytes (group b j)).length + 2 * (k + 1) by simp [groupBytes]; omega,
        List.take_length_add_append]
    rw [groupsFrom_next n (by omega) (by omega) (by omega), parseGroups_colon (group_lt b j) (group_lt b _),
      ih (by omega) (by omega) (by omega), hfirst]
    simp [groupBytes]
    omega

/-! ## The longest run of zero groups -/

theorem zeroRun_spec (n : Nat) : ∀ {i : Nat}, i ≤ 8 → i + zeroRun b n i ≤ 8 ∧ ∀ m, i ≤ m → m < i + zeroRun b n i →
    group b m = 0 := by
  induction n with
  | zero =>
    intro i hi
    exact ⟨hi, fun m h1 h2 => by rw [zeroRun] at h2; omega⟩
  | succ n ih =>
    intro i hi
    rw [zeroRun]
    split
    · rename_i hz
      obtain ⟨hle, hzero⟩ := ih (i := i + 1) hz.1
      grind
    · exact ⟨hi, fun m h1 h2 => by omega⟩

/-- No run, or one of zero groups. -/
theorem longestRun_spec (b : List UInt8) :
    longestRun b = (255, 255) ∨ ((longestRun b).1 < (longestRun b).2 ∧ (longestRun b).2 ≤ 8 ∧
      ∀ m, (longestRun b).1 ≤ m → m < (longestRun b).2 → group b m = 0) := by
  unfold longestRun
  refine loop_inv (I := fun _ r => r = (255, 255) ∨ (r.1 < r.2 ∧ r.2 ≤ 8 ∧ ∀ m, r.1 ≤ m → m < r.2 → group b m = 0)) (.inl rfl) ?_
  intro l i r hi hr
  simp only
  split
  · rename_i hlong
    obtain ⟨hle, hzero⟩ := zeroRun_spec (b := b) 8 (Nat.le_of_lt (List.mem_range.mp hi))
    exact .inr ⟨by omega, hle, hzero⟩
  · exact hr

end

/-! ## Reading an address back -/

def addrByte (c : UInt8) : Bool := isDigit c || (97 ≤ c && c ≤ 102) || c == 46 || c == 58

theorem hex_bytes {n : Nat} (hn : n < 65536) : ∀ c ∈ hex n, addrByte c = true := by
  have hdigit : ∀ d, d < 16 → addrByte (hexDigit d) = true := by decide
  have h1 := hdigit (n / 0x1000) (by omega)
  have h2 := hdigit (n / 0x100 % 16) (by omega)
  have h3 := hdigit (n / 0x10 % 16) (by omega)
  have h4 := hdigit (n % 16) (by omega)
  unfold hex
  split <;> split <;> split <;> simp [h1, h2, h3, h4]

theorem groupsFrom_bytes (b : List UInt8) (zs ze n : Nat) : ∀ i, ∀ c ∈ groupsFrom b zs ze n i, addrByte c = true := by
  induction n with
  | zero =>
    intro i c hc
    cases hc
  | succ n ih =>
    intro i
    rw [groupsFrom]
    have hcolon : ∀ c ∈ [(58 : UInt8), 58], addrByte c = true := by decide +kernel
    split
    · exact fun c hc => absurd hc List.not_mem_nil
    · split
      · refine List.forall_mem_append.mpr ⟨hcolon, ?_⟩
        split
        · exact fun c hc => absurd hc List.not_mem_nil
        · exact List.forall_mem_append.mpr ⟨hex_bytes (group_lt b ze), ih _⟩
      · refine List.forall_mem_append.mpr ⟨List.forall_mem_append.mpr ⟨?_, hex_bytes (group_lt b i)⟩, ih _⟩
        grind

theorem addrByte_ne {c d : UInt8} (hc : addrByte c = true) (hd : addrByte d = false) : c ≠ d := by
  rintro rfl
  rw [hc] at hd
  cases hd

theorem cut_none {s : Str} {sep : UInt8} (h : ∀ c ∈ s, c ≠ sep) : cut s sep = none := by
  induction s with
  | nil => rfl
  | cons c s ih =>
    rw [List.forall_mem_cons] at h
    rw [cut, if_neg h.1, ih h.2]
    rfl

/-- The zeros come back where the `::` stood. -/
theorem expand_zeros {b : List UInt8} (hl : b.length = 16) {zs ze : Nat} (hlt : zs < ze) (hze : ze ≤ 8)
    (hzero : ∀ m, zs ≤ m → m < ze → group b m = 0) : expand (b.take (2 * zs) ++ b.drop (2 * ze)) (some (2 * zs)) = some b := by
  have htake : (b.take (2 * zs)).length = 2 * zs := by
    rw [List.length_take]
    omega
  have hlen : (b.take (2 * zs) ++ b.drop (2 * ze)).length = 16 - 2 * (ze - zs) := by
    rw [List.length_append, htake, List.length_drop]
    omega
  have hrun := drop_zeros hl (ze - zs) (by omega) fun m h1 h2 => hzero m h1 (by omega)
  rw [show zs + (ze - zs) = ze by omega] at hrun
  rw [expand, if_pos (by omega), hlen, show 16 - (16 - 2 * (ze - zs)) = 2 * (ze - zs) by omega, List.take_left' htake,
    List.drop_left' htake, List.append_assoc, ← hrun, List.take_append_drop]

/-- A text that does not start with a colon, and one that starts with `::`. -/
theorem ipv6Bytes_groups {s : Str} {x : List UInt8 × Option Nat} {b : Arr 16} (hs : ∀ u, s ≠ 58 :: u)
    (hp : parseGroups 8 s [] none = some x) (he : expand x.1 x.2 = some b.bytes) : ipv6Bytes s = some b := by
  unfold ipv6Bytes
  split
  · exact absurd rfl (hs _)
  · exact absurd rfl (hs _)
  · simp [hp, he, Arr.of?, b.size]

theorem ipv6Bytes_ellipsis {u : Str} {x : List UInt8 × Option Nat} {b : Arr 16} (hu : u ≠ [])
    (hp : parseGroups 8 u [] (some 0) = some x) (he : expand x.1 x.2 = some b.bytes) : ipv6Bytes (58 :: 58 :: u) = some b := by
  unfold ipv6Bytes
  split
  · rename_i h
    injection h with _ h
    injection h with _ h
    exact absurd h hu
  · rename_i h
    cases h
    simp [hp, he, Arr.of?, b.size]
  · rename_i h
    exact absurd rfl (h _)

theorem hex_append_ne {n : Nat} (hn : n < 65536) (t u : Str) : hex n ++ t ≠ 58 :: u := by
  obtain ⟨d, s, hd, hs⟩ := hex_cons n hn
  rw [hs, List.cons_append]
  intro h
  injection h with h
  have := hexDigit_plain hd
  rw [h] at this
  cases this

theorem ipv6Bytes_string6 (b : Arr 16) : ipv6Bytes (string6 b.bytes) = some b := by
  have hl := b.size
  have hrun := longestRun_spec b.bytes
  unfold string6
  simp only
  generalize longestRun b.bytes = r at hrun ⊢
  obtain ⟨zs, ze⟩ := r
  -- with the `::` further on or nowhere, the first group comes first
  have hfirst : zs ≠ 0 → groupsFrom b.bytes zs ze 8 0 = hex (group b.bytes 0) ++ groupsFrom b.bytes zs ze 7 1 := by
    intro hz
    rw [groupsFrom, if_neg (by omega), if_neg (Ne.symm hz)]
    rfl
  rcases hrun with hnone | ⟨hlt, hze, hzero⟩
  · cases hnone
    rw [hfirst (by decide)]
    refine ipv6Bytes_groups (hex_append_ne (group_lt _ _) _)
      (parseGroups_from hl 7 rfl (by omega) (by omega) fun i _ hi => by omega) ?_
    rw [List.nil_append]
    exact if_pos hl
  · simp only at hlt hze hzero
    have hexpand := expand_zeros hl hlt hze hzero
    cases zs with
    | zero =>
      rw [groupsFrom, if_neg (by omega), if_pos rfl]
      rcases Nat.lt_or_ge ze 8 with h8 | h8
      · rw [if_neg (by omega)]
        obtain ⟨d, s, -, hs⟩ := hex_cons _ (group_lt b.bytes ze)
        exact ipv6Bytes_ellipsis (by rw [hs]; simp) (parseGroups_rest hl hlt h8 (by omega) (by omega)) hexpand
      · rw [if_pos h8]
        obtain rfl : ze = 8 := by omega
        rw [List.drop_eq_nil_of_le (by omega)] at hexpand
        have hempty : expand [] (some 0) = some b.bytes := hexpand
        simp [ipv6Bytes, hempty, Arr.of?, b.size]
    | succ k =>
      rw [hfirst (by omega)]
      refine ipv6Bytes_groups (hex_append_ne (group_lt _ _) _) (parseGroups_to hl hlt hze k (by omega) (by omega) (by omega)) ?_
      simpa using hexpand

theorem dots_bytes (b : List UInt8) : ∀ c ∈ dots b, addrByte c = true := by
  have hdec : ∀ x : UInt8, ∀ c ∈ dec x.toNat, addrByte c = true := by
    intro x c hc
    obtain ⟨h1, h2⟩ := dec_digits (show x.toNat < 1000 by have := x.toNat_lt; omega) c hc
    simp [addrByte, isDigit, h1, h2]
  unfold dots
  induction b with
  | nil =>
    intro c hc
    cases hc
  | cons x b ih =>
    cases b with
    | nil => simpa [List.intercalate] using hdec x
    | cons y b =>
      rw [List.map_cons, List.map_cons, List.intercalate_cons_cons]
      refine List.forall_mem_append.mpr ⟨List.forall_mem_append.mpr ⟨hdec x, by decide +kernel⟩, ih⟩

/-- An address without a zone is written in digits, hex digits, dots and colons. -/
theorem string_bytes {a : Addr} (hv : a.isValid = true) (hz : a.zone = []) : ∀ c ∈ a.string, addrByte c = true := by
  cases a with
  | zero => cases hv
  | v4 b => exact dots_bytes _
  | v6 b z =>
    cases hz
    unfold Addr.string
    simp only [zoned, if_true, List.append_nil]
    split
    · exact List.forall_mem_append.mpr ⟨by decide +kernel, dots_bytes _⟩
    · exact groupsFrom_bytes _ _ _ _ _

end Thawr.Go.Netip
