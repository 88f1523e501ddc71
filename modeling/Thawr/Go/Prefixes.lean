/-
  Thawr.Go.Prefixes — how `net/netip` prefixes compare.

  Proved: what lies in a prefix inside another lies in the other (`contains_trans`); a
  full-length prefix contains exactly its own address (`single_contains`); prefixes overlap
  exactly when an address is in both (`overlaps_iff`), and an IPv4 prefix lies in another exactly
  when it is no shorter and its address does (`inside_iff`).
-/

import Thawr.Go.Netip

namespace Thawr.Go

/-! ## Cutting at the last separator -/

theorem cutLast_none {s : Str} {sep : UInt8} (h : sep ∉ s) : cutLast s sep = none := by
  induction s with
  | nil => rfl
  | cons c t ih =>
    simp only [List.mem_cons, not_or] at h
    rw [cutLast, ih h.2]
    show (if c = sep then some ([], t) else none) = none
    rw [if_neg (fun he => h.1 he.symm)]

theorem cutLast_append {s t : Str} {sep : UInt8} (h : sep ∉ t) : cutLast (s ++ sep :: t) sep = some (s, t) := by
  induction s with
  | nil =>
    show cutLast (sep :: t) sep = _
    rw [cutLast, cutLast_none h]
    simp
  | cons c s ih =>
    show cutLast (c :: (s ++ sep :: t)) sep = _
    rw [cutLast, ih]

/-! ## Decimals below 1000 -/

theorem dec_digits {n : Nat} (hn : n < 1000) : ∀ c ∈ dec n, 48 ≤ c ∧ c ≤ 57 := by
  have hdigit : ∀ d < 10, (48 : UInt8) ≤ UInt8.ofNat (48 + d) ∧ UInt8.ofNat (48 + d) ≤ 57 := by decide
  intro c hc
  simp only [dec, List.mem_append, List.mem_singleton] at hc
  grind

theorem parseUint_dec {n w : Nat} (hn : n < 1000) (hw : n < 2 ^ w) : parseUint w (dec n) = some n := by
  have hall : (dec n).all isDigit = true := by
    rw [List.all_eq_true]
    intro c hc
    obtain ⟨h1, h2⟩ := dec_digits hn c hc
    simp [isDigit, h1, h2]
  have hval : digitsVal (dec n) = n := by
    have h1 : (48 + n / 100) % 256 - 48 = n / 100 := by omega
    have h2 : (48 + n / 10 % 10) % 256 - 48 = n / 10 % 10 := by omega
    have h3 : (48 + n % 10) % 256 - 48 = n % 10 := by omega
    by_cases h100 : 100 ≤ n
    · have h10 : 10 ≤ n := by omega
      simp [dec, digitsVal, h100, h10]
      omega
    · by_cases h10 : 10 ≤ n
      · simp [dec, digitsVal, h100, h10]
        omega
      · simp [dec, digitsVal, h100, h10]
        omega
  have hne : dec n ≠ [] := by simp [dec]
  rw [parseUint, hval, if_pos ⟨hne, hall, hw⟩]

/-- A decimal of more than one digit does not start with a zero. -/
theorem dec_no_leading_zero {n : Nat} (hn : n < 1000) : ¬(1 < (dec n).length ∧ (dec n).head? = some 48) := by
  intro h
  have hdigit : ∀ d < 10, 0 < d → UInt8.ofNat d ≠ 0 := by decide
  by_cases h100 : 100 ≤ n
  · simp [dec, h100] at h
    exact hdigit (n / 100) (by omega) (by omega) h
  · by_cases h10 : 10 ≤ n
    · simp [dec, h100, h10] at h
      exact hdigit (n / 10 % 10) (by omega) (by omega) h
    · simp [dec, h100, h10] at h

end Thawr.Go

namespace Thawr.Go.Netip

/-! ## Prefixes the library makes -/

/-- What a prefix of an IPv4 address is, as the library makes them. -/
def Prefix.IsV4 (p : Prefix) : Prop := ∃ b n, n ≤ 32 ∧ p = ⟨.v4 b, n + 1⟩

/-- A valid prefix has a valid address without zone and no more bits than the address. -/
def Prefix.WellFormed (p : Prefix) : Prop :=
  p.isValid = true → p.ip.isValid = true ∧ p.ip.zone = [] ∧ p.bits ≤ p.ip.bitLen

theorem wellFormed_prefixFrom (a : Addr) (n : Nat) : (prefixFrom a n).WellFormed := by
  intro h
  unfold prefixFrom at h ⊢
  by_cases hv : a.isValid = true ∧ n ≤ a.bitLen
  · rw [if_pos hv]
    obtain ⟨hvalid, hbits⟩ := hv
    cases a with
    | zero => cases hvalid
    | v4 b => exact ⟨rfl, rfl, hbits⟩
    | v6 b z => exact ⟨rfl, rfl, hbits⟩
  · rw [if_neg hv] at h
    cases h

variable {a : Addr} {p : Prefix}

theorem bits_prefixFrom {n : Nat} (h : (prefixFrom a n).isValid = true) : (prefixFrom a n).bits = n := by
  unfold prefixFrom at h ⊢
  by_cases hv : a.isValid = true ∧ n ≤ a.bitLen
  · rw [if_pos hv]
    rfl
  · rw [if_neg hv] at h
    cases h

theorem Prefix.wellFormed_masked (p : Prefix) : p.masked.WellFormed := by
  unfold Prefix.masked
  split
  · exact wellFormed_prefixFrom _ _
  · intro h
    cases h

/-- `ParsePrefix` makes a prefix of an address and no more bits than it has. -/
theorem parsePrefix_ok {s : Str} (h : parsePrefix s = some p) : ∃ a n, n ≤ a.bitLen ∧ p = prefixFrom a n := by
  simp only [parsePrefix, Option.bind_eq_bind, Option.bind_eq_some_iff] at h
  obtain ⟨x, -, ip, -, h⟩ := h
  obtain ⟨-, h⟩ := Option.ite_none_left_eq_some.mp h
  obtain ⟨-, h⟩ := Option.ite_none_left_eq_some.mp h
  obtain ⟨n, -, h⟩ := Option.bind_eq_some_iff.mp h
  grind

theorem parsePrefix_isV4 {s : Str} (h : parsePrefix s = some p) (h4 : p.ip.is4 = true) : p.IsV4 := by
  obtain ⟨a, n, hn, rfl⟩ := parsePrefix_ok h
  cases a with
  | zero => cases h4
  | v6 b z => cases h4
  | v4 b =>
    refine ⟨b, n, hn, ?_⟩
    unfold prefixFrom
    rw [if_pos ⟨rfl, hn⟩]
    rfl

theorem Prefix.WellFormed.isV4 (h : p.WellFormed) (hv : p.isValid = true) (h4 : p.ip.is4 = true) : p.IsV4 := by
  obtain ⟨-, -, hbits⟩ := h hv
  obtain ⟨a, n⟩ := p
  cases a with
  | zero => cases h4
  | v6 b z => cases h4
  | v4 b =>
    cases n with
    | zero => cases hv
    | succ n => exact ⟨b, n, hbits, rfl⟩

theorem Prefix.IsV4.wellFormed (h : p.IsV4) : p.WellFormed := by
  obtain ⟨b, n, hn, rfl⟩ := h
  exact fun _ => ⟨rfl, rfl, hn⟩

theorem Prefix.IsV4.valid (h : p.IsV4) : p.isValid = true := by
  obtain ⟨b, n, hn, rfl⟩ := h
  exact decide_eq_true (Nat.succ_pos n)

/-! ## A prefix inside another -/

/-- What `q` contains, `p` contains, where `p` is no longer and contains the address of `q`. -/
theorem contains_trans {q : Prefix} {x : Addr} (hbits : p.bits ≤ q.bits) (hpq : p.contains q.ip = true)
    (hqx : q.contains x = true) : p.contains x = true := by
  simp only [Prefix.contains, Bool.and_eq_true, beq_iff_eq] at hpq hqx ⊢
  obtain ⟨⟨⟨⟨hp, -⟩, -⟩, hlen⟩, heq⟩ := hpq
  obtain ⟨⟨⟨⟨-, hz⟩, hx⟩, hlen'⟩, heq'⟩ := hqx
  refine ⟨⟨⟨⟨hp, hz⟩, hx⟩, hlen.trans hlen'⟩, ?_⟩
  -- the bits `p` compares are the first of those `q` compares
  have hsplit : 2 ^ (x.bitLen - p.bits) = 2 ^ (x.bitLen - q.bits) * 2 ^ ((x.bitLen - p.bits) - (x.bitLen - q.bits)) := by
    rw [← Nat.pow_add]
    congr 1
    omega
  rw [← hlen', heq, hlen', hsplit, ← Nat.div_div_eq_div_mul, heq', Nat.div_div_eq_div_mul]

theorem zone_nil (h : a.zone = []) : a.withoutZone = a := by
  cases a with
  | zero => rfl
  | v4 b => rfl
  | v6 b z => rw [show z = [] from h]; rfl

theorem prefixFrom_ip {n : Nat} (hz : a.zone = []) : (prefixFrom a n).ip = a := zone_nil hz

/-- The prefix of one address. -/
theorem single_eq (ha : a.isValid = true) (hz : a.zone = []) : prefixFrom a a.bitLen = ⟨a, a.bitLen + 1⟩ := by
  have hbits : (prefixFrom a a.bitLen).bitsPlusOne = a.bitLen + 1 := if_pos ⟨ha, Nat.le_refl _⟩
  rw [← hbits]
  exact congrArg (Prefix.mk · (prefixFrom a a.bitLen).bitsPlusOne) (prefixFrom_ip (n := a.bitLen) hz)

/-- The prefix of all bits of an address contains that address alone. -/
theorem single_contains {x : Addr} (ha : a.isValid = true) (hz : a.zone = []) :
    (prefixFrom a a.bitLen).contains x = true ↔ x = a := by
  rw [single_eq ha hz]
  simp only [Prefix.contains, Prefix.isValid, Prefix.bits, Nat.add_one_sub_one, Nat.zero_lt_succ, decide_true, Bool.true_and,
    Bool.and_eq_true, beq_iff_eq]
  constructor
  · intro h
    obtain ⟨⟨⟨hzone, -⟩, hlen⟩, hnum⟩ := h
    rw [hlen, Nat.sub_self, Nat.pow_zero, Nat.div_one, Nat.div_one] at hnum
    cases a with
    | zero => cases ha
    | v4 b =>
      cases x with
      | zero => cases hlen
      | v4 c => rw [Arr.toNat_inj (show b.toNat = c.toNat from hnum)]
      | v6 c z => cases hlen
    | v6 b z =>
      cases x with
      | zero => cases hlen
      | v4 c => cases hlen
      | v6 c z' => rw [Arr.toNat_inj (show b.toNat = c.toNat from hnum), show z = [] from hz, show z' = [] from hzone]
  · intro h
    rw [h]
    exact ⟨⟨⟨hz, ha⟩, rfl⟩, rfl⟩

theorem contains_plain (h : p.contains a = true) : a.isValid = true ∧ a.zone = [] := by
  simp only [Prefix.contains, Bool.and_eq_true, beq_iff_eq] at h
  exact ⟨h.1.1.2, h.1.1.1.2⟩

theorem contains_isValid (h : p.contains a = true) : p.isValid = true := by
  simp only [Prefix.contains, Bool.and_eq_true] at h
  exact h.1.1.1.1

/-- Valid addresses of one length are of one family. -/
theorem is6_eq_iff {c : Addr} (ha : a.isValid = true) (hc : c.isValid = true) : a.bitLen = c.bitLen ↔ a.is6 = c.is6 := by
  cases a <;> cases c <;> simp_all [Addr.bitLen, Addr.is6, Addr.isValid]

theorem contains_is6 (hp : p.WellFormed) (h : p.contains a = true) : a.is6 = p.ip.is6 :=
  (is6_eq_iff (contains_plain h).1 (hp (contains_isValid h)).1).mp (contains_family h).symm

theorem Addr.num_lt (a : Addr) : a.num < 2 ^ a.bitLen := by
  cases a with
  | zero => decide
  | v4 b =>
    have h := beNat_lt b.bytes
    rw [b.size] at h
    exact h
  | v6 b z =>
    have h := beNat_lt b.bytes
    rw [b.size] at h
    exact h

/-- A prefix of no bits contains every address of its family. -/
theorem contains_of_zero_bits (hv : p.isValid = true) (hbits : p.bits = 0) (ha : a.isValid = true)
    (hz : a.zone = []) (hlen : p.ip.bitLen = a.bitLen) : p.contains a = true := by
  have hp := p.ip.num_lt
  rw [hlen] at hp
  simp [Prefix.contains, hv, hz, ha, hlen, hbits, Nat.div_eq_of_lt hp, Nat.div_eq_of_lt a.num_lt]

/-! ## Masked prefixes -/

theorem Addr.mask_bitLen (a : Addr) (n : Nat) : (a.mask n).bitLen = a.bitLen ∧ (a.mask n).isValid = a.isValid := by
  cases a with
  | zero => simp [Addr.mask]
  | v4 b => simp [Addr.mask, Addr.bitLen, Addr.isValid]
  | v6 b z => simp [Addr.mask, Addr.bitLen, Addr.isValid]

/-- What is left of a number after its low bits are cleared. -/
theorem toNat_ofNat_floor {k : Nat} (b : Arr k) (m : Nat) :
    (Arr.ofNat k (b.toNat / 2 ^ m * 2 ^ m)).toNat = b.toNat / 2 ^ m * 2 ^ m := by
  refine Arr.toNat_ofNat (Nat.lt_of_le_of_lt (Nat.div_mul_le_self _ _) ?_)
  have h := beNat_lt b.bytes
  rw [b.size] at h
  exact h

theorem Addr.mask_mask (a : Addr) (n : Nat) : (a.mask n).mask n = a.mask n := by
  cases a with
  | zero => rfl
  | v4 b =>
    simp only [Addr.mask, toNat_ofNat_floor]
    rw [Nat.mul_div_cancel _ (Nat.two_pow_pos _)]
  | v6 b z =>
    simp only [Addr.mask, toNat_ofNat_floor]
    rw [Nat.mul_div_cancel _ (Nat.two_pow_pos _)]

/-- Only an address without its zone has all its bits. -/
theorem Addr.mask_bitLen_self (hz : a.zone = []) : a.mask a.bitLen = a := by
  have hid : ∀ {k : Nat} (b : Arr k), Arr.ofNat k (b.toNat / 2 ^ 0 * 2 ^ 0) = b := by
    intro k b
    refine Arr.toNat_inj ?_
    rw [toNat_ofNat_floor, Nat.pow_zero, Nat.div_one, Nat.mul_one]
  cases a with
  | zero => rfl
  | v4 b => exact congrArg Addr.v4 (hid b)
  | v6 b z =>
    rw [show z = [] from hz]
    exact congrArg (Addr.v6 · []) (hid b)

theorem Prefix.WellFormed.masked_eq (h : p.WellFormed) (hv : p.isValid = true) :
    p.masked = ⟨p.ip.mask p.bits, p.bits + 1⟩ := by
  obtain ⟨hvalid, -, hbits⟩ := h hv
  unfold Prefix.masked prefixFrom
  rw [if_pos hv, (p.ip.mask_bitLen p.bits).1, (p.ip.mask_bitLen p.bits).2, if_pos ⟨hvalid, hbits⟩]
  cases p.ip with
  | zero => rfl
  | v4 b => rfl
  | v6 b z => rfl

theorem Prefix.WellFormed.masked_masked (h : p.WellFormed) : p.masked.masked = p.masked := by
  by_cases hv : p.isValid = true
  · have hp := h.masked_eq hv
    rw [p.wellFormed_masked.masked_eq (by rw [hp]; rfl), hp]
    exact congrArg (Prefix.mk · _) (p.ip.mask_mask p.bits)
  · rw [show p.masked = Prefix.none from if_neg hv]
    rfl

theorem single_masked (ha : a.isValid = true) (hz : a.zone = []) :
    (prefixFrom a a.bitLen).masked = prefixFrom a a.bitLen := by
  rw [(wellFormed_prefixFrom a a.bitLen).masked_eq (by rw [single_eq ha hz]; rfl), single_eq ha hz]
  exact congrArg (Prefix.mk · _) (Addr.mask_bitLen_self hz)

/-- The first bits of an address stay when the others are cleared. -/
theorem Addr.mask_num_div (a : Addr) (n : Nat) : (a.mask n).num / 2 ^ (a.bitLen - n) = a.num / 2 ^ (a.bitLen - n) := by
  cases a with
  | zero => rfl
  | v4 b =>
    simp only [Addr.mask, Addr.num, Addr.bitLen, toNat_ofNat_floor]
    rw [Nat.mul_div_cancel _ (Nat.two_pow_pos _)]
  | v6 b z =>
    simp only [Addr.mask, Addr.num, Addr.bitLen, toNat_ofNat_floor]
    rw [Nat.mul_div_cancel _ (Nat.two_pow_pos _)]

/-- Addresses of one family with the same first bits are masked to the same address. -/
theorem Addr.mask_congr {c : Addr} {n : Nat} (hlen : c.bitLen = a.bitLen)
    (h : c.num / 2 ^ (a.bitLen - n) = a.num / 2 ^ (a.bitLen - n)) : c.mask n = a.mask n := by
  cases a with
  | zero =>
    cases c with
    | zero => rfl
    | v4 b => cases hlen
    | v6 b z => cases hlen
  | v4 b =>
    cases c with
    | zero => cases hlen
    | v4 b' => exact congrArg (fun k => Addr.v4 (Arr.ofNat 4 (k * 2 ^ (32 - n)))) h
    | v6 b' z => cases hlen
  | v6 b z =>
    cases c with
    | zero => cases hlen
    | v4 b' => cases hlen
    | v6 b' z' => exact congrArg (fun k => Addr.v6 (Arr.ofNat 16 (k * 2 ^ (128 - n))) []) h

/-! ## Prefixes that overlap -/

section

variable {p o : Prefix} {a : Addr}

theorem Prefix.WellFormed.contains_ip (h : p.WellFormed) (hv : p.isValid = true) : p.contains p.ip = true := by
  obtain ⟨hvalid, hz, -⟩ := h hv
  simp [Prefix.contains, hv, hvalid, hz]

/-- Where two prefixes have an address in common, the shorter has the address of the longer. -/
theorem contains_of_common (ho : o.WellFormed) (hbits : p.bits ≤ o.bits) (hp : p.contains a = true)
    (hoa : o.contains a = true) : p.contains o.ip = true := by
  have hov := contains_isValid hoa
  obtain ⟨hvalid, hz, -⟩ := ho hov
  -- the prefix of `a` with the length of `o` stands between the two
  have hmid : (Prefix.mk a o.bitsPlusOne).contains o.ip = true := by
    simp only [Prefix.contains, Bool.and_eq_true, beq_iff_eq] at hoa ⊢
    obtain ⟨⟨-, hlen⟩, hnum⟩ := hoa
    exact ⟨⟨⟨⟨hov, hz⟩, hvalid⟩, hlen.symm⟩, by rw [hlen]; exact hnum.symm⟩
  exact contains_trans (q := ⟨a, o.bitsPlusOne⟩) hbits hp hmid

theorem overlaps_comm : p.overlaps o = o.overlaps p := by
  simp only [Prefix.overlaps, Nat.min_comm p.bits, Bool.beq_comm (a := p.ip.is4), BEq.comm (a := p),
    BEq.comm (a := p.ip.mask _), Bool.and_comm p.isValid]

/-- The shorter of two prefixes that overlap contains the address of the longer. -/
theorem contains_of_overlaps (hp : p.WellFormed) (ho : o.WellFormed) (hbits : p.bits ≤ o.bits)
    (h : p.overlaps o = true) : p.contains o.ip = true := by
  simp only [Prefix.overlaps, Nat.min_eq_left hbits, Bool.and_eq_true, Bool.or_eq_true, beq_iff_eq] at h
  obtain ⟨⟨hpv, hov⟩, h⟩ := h
  obtain ⟨hpip, hpz, -⟩ := hp hpv
  obtain ⟨hoip, hoz, -⟩ := ho hov
  rcases h with rfl | ⟨h4, hmask⟩
  · exact hp.contains_ip hpv
  · have hlen : p.ip.bitLen = o.ip.bitLen := by
      cases hpa : p.ip <;> cases hoa : o.ip <;> simp_all [Addr.is4, Addr.bitLen, Addr.isValid]
    rcases hmask with hzero | hmask
    · exact contains_of_zero_bits hpv hzero hoip hoz hlen
    · have hnum := congrArg (fun x : Addr => x.num / 2 ^ (o.ip.bitLen - p.bits)) hmask
      rw [Addr.mask_num_div, ← hlen, Addr.mask_num_div, hlen] at hnum
      simp only [Prefix.contains, hpv, hoz, hoip, hlen, hnum, beq_self_eq_true, Bool.and_self]

/-- A prefix overlaps the longer ones, and the full-length ones, whose address it contains. -/
theorem overlaps_of_contains (hov : o.isValid = true) (hbits : p.bits ≤ o.bits ∨ o.ip.bitLen ≤ o.bits)
    (h : p.contains o.ip = true) : p.overlaps o = true := by
  simp only [Prefix.contains, Bool.and_eq_true, beq_iff_eq] at h
  obtain ⟨⟨⟨⟨hpv, -⟩, -⟩, hlen⟩, hnum⟩ := h
  have hsame : o.ip.bitLen - min p.bits o.bits = o.ip.bitLen - p.bits := by omega
  have hmask : p.ip.mask (min p.bits o.bits) = o.ip.mask (min p.bits o.bits) := Addr.mask_congr hlen (by rw [hsame, hnum])
  have h4 : p.ip.is4 = o.ip.is4 := by
    cases hpa : p.ip <;> cases hoa : o.ip <;> simp_all [Addr.bitLen, Addr.is4]
  simp [Prefix.overlaps, hpv, hov, hmask, h4]

/-- The prefix of one address overlaps the prefixes that contain it. -/
theorem single_overlaps (h : p.contains a = true) : (prefixFrom a a.bitLen).overlaps p = true := by
  obtain ⟨ha, hz⟩ := contains_plain h
  rw [single_eq ha hz, overlaps_comm]
  exact overlaps_of_contains (decide_eq_true (Nat.succ_pos _)) (.inr (Nat.le_refl _)) h

/-- Prefixes overlap exactly when some address is in both. -/
theorem overlaps_iff (hp : p.WellFormed) (ho : o.WellFormed) :
    p.overlaps o = true ↔ ∃ a, p.contains a = true ∧ o.contains a = true := by
  constructor
  · intro h
    have hv : p.isValid = true ∧ o.isValid = true := by
      simp only [Prefix.overlaps, Bool.and_eq_true] at h
      exact h.1
    rcases Nat.le_total p.bits o.bits with hbits | hbits
    · exact ⟨o.ip, contains_of_overlaps hp ho hbits h, ho.contains_ip hv.2⟩
    · exact ⟨p.ip, hp.contains_ip hv.1, contains_of_overlaps ho hp hbits (overlaps_comm ▸ h)⟩
  · intro h
    obtain ⟨a, hpa, hoa⟩ := h
    rcases Nat.le_total p.bits o.bits with hbits | hbits
    · exact overlaps_of_contains (contains_isValid hoa) (.inl hbits) (contains_of_common ho hbits hpa hoa)
    · rw [overlaps_comm]
      exact overlaps_of_contains (contains_isValid hpa) (.inl hbits) (contains_of_common hp hbits hoa hpa)

theorem v4_contains {b : Arr 4} {n x : Nat} (hx : x < 2 ^ 32) :
    (Prefix.mk (.v4 b) (n + 1)).contains (.v4 (Arr.ofNat 4 x)) = true ↔ b.toNat / 2 ^ (32 - n) = x / 2 ^ (32 - n) := by
  have hnum : (Arr.ofNat 4 x).toNat = x := Arr.toNat_ofNat hx
  simp [Prefix.contains, Prefix.isValid, Prefix.bits, hnum, Addr.zone, Addr.isValid, Addr.bitLen, Addr.num]

/-- A prefix has an address that a longer one has not. -/
theorem exists_outside (hp : p.IsV4) (ho : o.IsV4) (hbits : p.bits < o.bits) :
    ∃ a, p.contains a = true ∧ o.contains a = false := by
  obtain ⟨b, n, hn, rfl⟩ := hp
  obtain ⟨c, m, hm, rfl⟩ := ho
  have hbits : n < m := hbits
  obtain ⟨first, hfirst⟩ : ∃ x, x = b.toNat / 2 ^ (32 - n) * 2 ^ (32 - n) := ⟨_, rfl⟩
  have hb : b.toNat < 2 ^ 32 := (Addr.v4 b).num_lt
  have hstep : 2 ^ (32 - m) < 2 ^ (32 - n) := Nat.pow_lt_pow_right (by decide) (by omega)
  have hin : ∀ x < 2 ^ (32 - n), b.toNat / 2 ^ (32 - n) = (first + x) / 2 ^ (32 - n) := by
    intro x hx
    rw [hfirst, Nat.mul_comm, Nat.mul_add_div (Nat.two_pow_pos _), Nat.div_eq_of_lt hx, Nat.add_zero]
  have hlt : ∀ x < 2 ^ (32 - n), first + x < 2 ^ 32 := by
    intro x hx
    have hdiv : (first + x) / 2 ^ (32 - n) < 2 ^ n := by
      rw [← hin x hx]
      refine Nat.div_lt_of_lt_mul ?_
      rw [← Nat.pow_add, Nat.sub_add_cancel hn]
      exact hb
    have hmul := (Nat.div_lt_iff_lt_mul (Nat.two_pow_pos _)).mp hdiv
    rwa [← Nat.pow_add, Nat.add_sub_cancel' hn] at hmul
  -- two addresses of `p` a network of the length of `o` apart are not both in `o`
  have hzero : 0 < 2 ^ (32 - n) := Nat.two_pow_pos _
  by_cases h0 : (Prefix.mk (.v4 c) (m + 1)).contains (.v4 (Arr.ofNat 4 (first + 0))) = true
  · refine ⟨.v4 (Arr.ofNat 4 (first + 2 ^ (32 - m))), (v4_contains (hlt _ hstep)).mpr (hin _ hstep), ?_⟩
    rw [← Bool.not_eq_true, v4_contains (hlt _ hstep), (v4_contains (hlt 0 hzero)).mp h0, Nat.add_zero,
      Nat.add_div_right _ (Nat.two_pow_pos _)]
    exact (Nat.lt_succ_self _).ne
  · exact ⟨.v4 (Arr.ofNat 4 (first + 0)), (v4_contains (hlt 0 hzero)).mpr (hin 0 hzero), Bool.not_eq_true _ |>.mp h0⟩

/-- A prefix lies in another exactly when it is no shorter and its address does. -/
theorem inside_iff (hp : p.IsV4) (ho : o.IsV4) :
    (∀ a, p.contains a = true → o.contains a = true) ↔ o.bits ≤ p.bits ∧ o.contains p.ip = true := by
  constructor
  · intro h
    refine ⟨Nat.not_lt.mp fun hlt => ?_, h _ (hp.wellFormed.contains_ip hp.valid)⟩
    obtain ⟨a, hin, hout⟩ := exists_outside hp ho hlt
    rw [h a hin] at hout
    cases hout
  · intro h a ha
    exact contains_trans h.1 h.2 ha

end

end Thawr.Go.Netip
