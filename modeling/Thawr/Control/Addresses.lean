/-
  Thawr.Control.Addresses — the overlay addresses of peers (`internal/control/allocator.go`,
  `internal/control/ipv6.go`).

  A peer gets the lowest free host address of the IPv4 overlay, and the IPv6 address that has
  the IPv4 one in its last 32 bits.

  Proved: what `nextAddress` returns is a host address that is not allocated
  (`nextAddress_ok`), and it fails only when every host address is (`nextAddress_exhausted`).
  For every IPv4 prefix the result is the least address strictly between the hub's and the
  broadcast address that is free, and the loop ends on its own condition after climbing by one
  each turn (`nextAddress_least`).
-/

import Thawr.Go.AddrText

namespace Thawr.Control

open Go Netip

/-- `IPv6For`: the /64 of the prefix with the IPv4 address in its last 32 bits. -/
def ipv6For (p : Prefix) (v4 : Addr) : Addr :=
  if p.isValid = false ∨ p.ip.is6 = false ∨ p.ip.is4In6 = true ∨ p.bits ≠ 64 then .zero
  else
    match p.masked.ip, v4.unmap with
    | .v6 m _, .v4 b => .v6 ⟨m.bytes.take 12 ++ b.bytes, by simp [m.size, b.size]⟩ []
    | _, _ => .zero

section

variable {p : Prefix} {b c : Arr 4}

/-- Where one IPv4 address has an IPv6 address, all have, with the same first 12 bytes. -/
theorem ipv6For_eq (h : (ipv6For p (.v4 b)).isValid = true) :
    p.isValid = true ∧ ∃ m : Arr 16, ∀ c : Arr 4, ∃ d : Arr 16,
      ipv6For p (.v4 c) = .v6 d [] ∧ d.bytes = m.bytes.take 12 ++ c.bytes := by
  unfold ipv6For at h ⊢
  by_cases hp : p.isValid = false ∨ p.ip.is6 = false ∨ p.ip.is4In6 = true ∨ p.bits ≠ 64
  · rw [if_pos hp] at h
    cases h
  · rw [if_neg hp] at h
    refine ⟨by simpa using fun hv => hp (.inl hv), ?_⟩
    cases hm : p.masked.ip with
    | zero =>
      rw [hm] at h
      cases h
    | v4 m =>
      rw [hm] at h
      cases h
    | v6 m z =>
      refine ⟨m, fun c => ?_⟩
      rw [if_neg hp]
      exact ⟨_, rfl, rfl⟩

theorem is6_ipv6For (h : (ipv6For p (.v4 b)).isValid = true) : (ipv6For p (.v4 b)).is6 = true := by
  obtain ⟨-, m, hm⟩ := ipv6For_eq h
  obtain ⟨d, hd, -⟩ := hm b
  rw [hd]
  rfl

theorem ipv6For_inj (h : (ipv6For p (.v4 b)).isValid = true) (he : ipv6For p (.v4 b) = ipv6For p (.v4 c)) : b = c := by
  obtain ⟨-, m, hm⟩ := ipv6For_eq h
  obtain ⟨d, hd, hbytes⟩ := hm b
  obtain ⟨e, he', hbytes'⟩ := hm c
  rw [hd, he'] at he
  injection he with hde
  rw [hde, hbytes'] at hbytes
  exact Arr.ext (List.append_cancel_left hbytes).symm

def Is64 (p : Prefix) : Prop := p.isValid = true ∧ p.ip.is6 = true ∧ p.ip.is4In6 = false ∧ p.bits = 64

/-- The two halves of 16 bytes. -/
theorem beNat_halves {l : List UInt8} (h : l.length = 16) :
    beNat l = beNat (l.take 8) * 2 ^ 64 + beNat (l.drop 8) ∧ beNat (l.drop 8) < 2 ^ 64 := by
  have hlen : (l.drop 8).length = 8 := by rw [List.length_drop, h]
  have hlt := beNat_lt (l.drop 8)
  rw [hlen] at hlt
  refine ⟨?_, hlt⟩
  conv_lhs => rw [← List.take_append_drop 8 l, beNat_append, hlen]
  rfl

/-- The addresses of a /64: the prefix masked, which leaves zeros in its second half, with the
    IPv4 address at the end. -/
theorem Is64.bytes (h : Is64 p) (b : Arr 4) :
    ∃ m c : Arr 16, Control.ipv6For p (.v4 b) = .v6 c [] ∧ c.bytes = m.bytes.take 12 ++ b.bytes ∧
      m.toNat = p.ip.num / 2 ^ 64 * 2 ^ 64 := by
  obtain ⟨hv, h6, hm, hbits⟩ := h
  unfold Control.ipv6For
  rw [if_neg (by simp [hv, h6, hm, hbits])]
  unfold Prefix.masked
  rw [if_pos hv]
  cases hip : p.ip with
  | zero => simp [hip, Addr.is6] at h6
  | v4 c => simp [hip, Addr.is6] at h6
  | v6 c z =>
    rw [hbits]
    exact ⟨_, _, rfl, rfl, toNat_ofNat_floor c 64⟩

/-- Derived addresses lie in the prefix. -/
theorem Is64.contains (h : Is64 p) (b : Arr 4) : p.contains (Control.ipv6For p (.v4 b)) = true := by
  obtain ⟨m, c, hc, hbytes, hm⟩ := h.bytes b
  obtain ⟨hv, h6, -, hbits⟩ := h
  have hhalf := beNat_halves c.size
  have hhalf' := beNat_halves m.size
  have htake : c.bytes.take 8 = m.bytes.take 8 := by
    rw [hbytes, List.take_append_of_le_length (by rw [List.length_take, m.size]; decide), List.take_take]
    rfl
  have hlen : p.ip.bitLen = 128 := by
    cases hip : p.ip with
    | zero => simp [hip, Addr.is6] at h6
    | v4 c => simp [hip, Addr.is6] at h6
    | v6 c z => rfl
  have hnum : p.ip.num / 2 ^ 64 = (Addr.v6 c []).num / 2 ^ 64 := by
    change _ = beNat c.bytes / _
    unfold Arr.toNat at hm
    rw [htake] at hhalf
    omega
  rw [hc]
  unfold Prefix.contains
  rw [hv, hbits, hlen]
  exact beq_iff_eq.mpr hnum

theorem Is64.ipv6For (h : Is64 p) (b : Arr 4) :
    ∃ c, Control.ipv6For p (.v4 b) = .v6 c [] ∧ (Addr.v6 c []).is4In6 = false := by
  obtain ⟨m, c, hc, hbytes, hm⟩ := h.bytes b
  refine ⟨c, hc, beq_eq_false_iff_ne.mpr fun he => ?_⟩
  have hzeros : m.bytes.drop 8 = List.replicate 8 0 := by
    refine beNat_inj (by rw [List.length_drop, m.size]; rfl) ?_
    have hhalf := beNat_halves m.size
    unfold Arr.toNat at hm
    rw [show beNat (List.replicate 8 0) = 0 by decide]
    omega
  -- bytes 8 to 11 are zeros, an IPv4-mapped address has 255 there
  rw [hbytes, List.take_left' (by rw [List.length_take, m.size]; rfl)] at he
  have hdrop := congrArg (List.drop 8) he
  rw [List.drop_take, hzeros] at hdrop
  exact absurd hdrop (by decide)

/-- The text of a derived address parses back to it. -/
theorem Is64.parse (h : Is64 p) (b : Arr 4) : parseAddr (Control.ipv6For p (.v4 b)).string =
    some (Control.ipv6For p (.v4 b)) := by
  obtain ⟨c, hc, -⟩ := h.ipv6For b
  rw [hc, parseAddr_string rfl]

end

def addrString (a : Addr) : Str := if a.isValid then a.string else []

/-! ## `NextAddress` -/

inductive AllocErr where
  /-- "control: allocator supports IPv4 only, got %s" -/
  | notIPv4 (overlay : Str)
  /-- "control: overlay address space exhausted" -/
  | exhausted
  deriving DecidableEq

/-- `lastAddr`: the broadcast address of an IPv4 prefix. -/
def lastAddr (p : Prefix) : Addr :=
  match p.ip with
  | .v4 b => .v4 (Arr.ofNat 4 (b.toNat ||| (2 ^ (32 - p.bits) - 1)))
  | _ => .zero

def nextFree (p : Prefix) (used : List Addr) (broadcast : Addr) : Nat → Addr → Option Addr
  | 0, _ => none
  | fuel + 1, a =>
    if a.isValid && p.contains a && a.less broadcast then
      if used.contains a then nextFree p used broadcast fuel a.next else some a
    else none

def nextAddress (overlay : Prefix) (allocated : List Addr) : Except AllocErr Addr :=
  if overlay.ip.is4 = false then .error (.notIPv4 overlay.string)
  else
    let p := overlay.masked
    let used := allocated.map (·.unmap)
    let hub := p.ip.next
    let broadcast := lastAddr p
    -- there are fewer candidates than addresses between the hub's and the last
    match nextFree p used broadcast (broadcast.num - hub.num) hub.next with
    | none => .error .exhausted
    | some a => .ok a

/-- A host address of the overlay: not the network's, the hub's or the broadcast address. -/
def Host (overlay : Prefix) (a : Addr) : Prop :=
  overlay.contains a = true ∧ overlay.masked.ip.num + 2 ≤ a.num ∧ a.less (lastAddr overlay.masked) = true

section

variable {p : Prefix} {used : List Addr} {broadcast a x : Addr} {fuel : Nat}

theorem nextFree_some (h : nextFree p used broadcast fuel a = some x) :
    a.isValid = true ∧ a.num ≤ x.num ∧ p.contains x = true ∧ x.less broadcast = true ∧ x ∉ used := by
  induction fuel generalizing a with
  | zero => cases h
  | succ fuel ih =>
    unfold nextFree at h
    split at h
    · rename_i hin
      simp only [Bool.and_eq_true] at hin
      split at h
      · obtain ⟨hv, hle, hrest⟩ := ih h
        have := (Addr.next_num hv).1
        exact ⟨hin.1.1, by omega, hrest⟩
      · grind
    · cases h

theorem less_num {a b : Addr} (hlen : a.bitLen = b.bitLen) (hz : a.zone = []) (hz' : b.zone = []) :
    a.less b = true ↔ a.num < b.num := by
  unfold Addr.less
  grind

/-- Past an IPv4 address below another one there is a next address. -/
theorem next_v4 {b : Arr 4} (h : b.toNat + 1 < 2 ^ 32) : (Addr.v4 b).next = .v4 (Arr.ofNat 4 (b.toNat + 1)) := if_pos h

/-- From its start the loop passes no address below the last that is not in use. -/
theorem nextFree_le {b c l : Arr 4} (hfuel : l.toNat ≤ b.toNat + fuel) (hp : p.ip.num ≤ b.toNat)
    (hc : p.contains (.v4 c) = true) (hlt : c.toNat < l.toNat) (hle : b.toNat ≤ c.toNat) :
    Addr.v4 c ∈ used ∨ ∃ x, nextFree p used (.v4 l) fuel (.v4 b) = some x ∧ x.num ≤ c.toNat := by
  induction fuel generalizing b with
  | zero => omega
  | succ fuel ih =>
    have hcontains : p.contains (.v4 b) = true := by
      simp only [Prefix.contains, Bool.and_eq_true, beq_iff_eq] at hc ⊢
      exact ⟨⟨⟨⟨hc.1.1.1.1, rfl⟩, rfl⟩, hc.1.2⟩,
        Nat.le_antisymm (Nat.div_le_div_right hp) (Nat.le_trans (Nat.div_le_div_right hle) (Nat.le_of_eq hc.2.symm))⟩
    have hless : (Addr.v4 b).less (.v4 l) = true := by
      rw [less_num (by rfl) (by rfl) (by rfl)]
      exact Nat.lt_of_le_of_lt hle hlt
    unfold nextFree
    rw [hcontains, hless, if_pos (by rfl)]
    split
    · rename_i hused
      rcases Nat.lt_or_eq_of_le hle with hlt' | heq
      · have hbound : c.toNat < 2 ^ 32 := (Addr.v4 c).num_lt
        rw [next_v4 (by omega)]
        have hnum : (Arr.ofNat 4 (b.toNat + 1)).toNat = b.toNat + 1 := Arr.toNat_ofNat (Nat.lt_of_le_of_lt hlt' hbound)
        exact ih (by omega) (by omega) (by omega)
      · rw [← Arr.toNat_inj heq]
        exact .inl (by simpa using hused)
    · exact .inr ⟨_, rfl, hle⟩

end

section

variable {overlay : Prefix} {allocated : List Addr} {a : Addr}

theorem contains_masked (h : overlay.WellFormed) : overlay.masked.contains a = overlay.contains a := by
  by_cases hv : overlay.isValid = true
  · rw [h.masked_eq hv, Bool.eq_iff_iff]
    have hnum : overlay.ip.bitLen = a.bitLen →
        (overlay.ip.mask overlay.bits).num / 2 ^ (a.bitLen - overlay.bits) = overlay.ip.num / 2 ^ (a.bitLen - overlay.bits) := by
      intro hlen
      rw [← hlen]
      exact Addr.mask_num_div _ _
    have hbits : (Prefix.mk (overlay.ip.mask overlay.bits) (overlay.bits + 1)).bits = overlay.bits := rfl
    have hvalid : (Prefix.mk (overlay.ip.mask overlay.bits) (overlay.bits + 1)).isValid = true := by simp [Prefix.isValid]
    simp only [Prefix.contains, Bool.and_eq_true, beq_iff_eq, (Addr.mask_bitLen _ _).1, hbits, hvalid, hv]
    grind
  · rw [show overlay.masked = Prefix.none from if_neg hv]
    simp only [Prefix.contains, Bool.not_eq_true _ |>.mp hv, Bool.false_and, show Prefix.none.isValid = false from rfl]

theorem nextAddress_ok (hw : overlay.WellFormed) (h : nextAddress overlay allocated = .ok a) :
    (∃ b, a = .v4 b) ∧ Host overlay a ∧ a ∉ allocated.map (·.unmap) := by
  obtain ⟨h4, h⟩ := ite_error_ok.mp h
  simp only at h
  split at h
  · cases h
  · rename_i x hx
    cases h
    obtain ⟨hv, hle, hin, hless, hused⟩ := nextFree_some hx
    rw [contains_masked hw] at hin
    have hnext := (Addr.next_num hv).1
    have hhub : overlay.masked.ip.next.isValid = true := by
      cases hn : overlay.masked.ip.next with
      | zero =>
        rw [hn] at hv
        cases hv
      | v4 b => rfl
      | v6 b z => rfl
    have hnet := (Addr.next_num hhub).1
    refine ⟨?_, ⟨hin, by omega, hless⟩, hused⟩
    have hlen := contains_family hin
    cases a with
    | zero => simp [Prefix.contains, Addr.isValid] at hin
    | v4 b => exact ⟨b, rfl⟩
    | v6 b z =>
      cases ho : overlay.ip with
      | zero => simp [ho, Addr.is4] at h4
      | v4 c => simp [ho, Addr.bitLen] at hlen
      | v6 c z => simp [ho, Addr.is4] at h4

/-- The allocator masks the overlay itself. -/
theorem nextAddress_masked (hw : overlay.WellFormed) (h : nextAddress overlay.masked allocated = .ok a) :
    nextAddress overlay allocated = .ok a := by
  unfold nextAddress at h ⊢
  rw [hw.masked_masked] at h
  obtain ⟨h4, h⟩ := ite_error_ok.mp h
  have h4' : ¬overlay.ip.is4 = false := by
    by_cases hv : overlay.isValid = true
    · rw [hw.masked_eq hv] at h4
      cases hip : overlay.ip with
      | zero => simp [hip, Addr.mask, Addr.is4] at h4
      | v4 b => simp [Addr.is4]
      | v6 b z => simp [hip, Addr.mask, Addr.is4] at h4
    · rw [show overlay.masked = Prefix.none from if_neg hv] at h4
      exact absurd rfl h4
  rw [if_neg h4']
  exact h

/-- A host address is allocated, or the allocator returns an address that is not above it. -/
theorem nextAddress_host {b : Arr 4} (hw : overlay.WellFormed) (hb : Host overlay (.v4 b)) :
    Addr.v4 b ∈ allocated.map (·.unmap) ∨ ∃ a, nextAddress overlay allocated = .ok a ∧ a.num ≤ b.toNat := by
  obtain ⟨hin, hnum, hless⟩ := hb
  have hlen : overlay.ip.bitLen = 32 := contains_family hin
  have h4 : ¬overlay.ip.is4 = false := by
    cases hip : overlay.ip with
    | zero => simp [hip, Addr.bitLen] at hlen
    | v4 c => simp [Addr.is4]
    | v6 c z => simp [hip, Addr.bitLen] at hlen
  unfold nextAddress
  rw [if_neg h4]
  cases hip : overlay.masked.ip with
  | zero => simp [lastAddr, hip, Addr.less, Addr.bitLen] at hless
  | v6 m z => simp [lastAddr, hip, Addr.less, Addr.bitLen] at hless
  | v4 m =>
    obtain ⟨l, hl⟩ : ∃ l, lastAddr overlay.masked = .v4 l := by
      unfold lastAddr
      rw [hip]
      exact ⟨_, rfl⟩
    rw [hip] at hnum
    rw [hl, less_num (by rfl) (by rfl) (by rfl)] at hless
    have hlt : b.toNat < 2 ^ 32 := (Addr.v4 b).num_lt
    have hmb : m.toNat + 2 ≤ b.toNat := hnum
    have hbl : b.toNat < l.toNat := hless
    have hhub : (Arr.ofNat 4 (m.toNat + 1)).toNat = m.toNat + 1 := Arr.toNat_ofNat (by omega)
    have hfirst : (Arr.ofNat 4 (m.toNat + 1 + 1)).toNat = m.toNat + 1 + 1 := Arr.toNat_ofNat (by omega)
    simp only
    rw [hip, hl, next_v4 (by omega), next_v4 (by omega), hhub,
      show (Addr.v4 l).num - (Addr.v4 (Arr.ofNat 4 (m.toNat + 1))).num = l.toNat - (m.toNat + 1) from congrArg _ hhub]
    have hfuel : l.toNat ≤ (Arr.ofNat 4 (m.toNat + 1 + 1)).toNat + (l.toNat - (m.toNat + 1)) := by omega
    have hstart : overlay.masked.ip.num ≤ (Arr.ofNat 4 (m.toNat + 1 + 1)).toNat := by
      rw [hip, hfirst]
      exact Nat.le_add_right m.toNat 2
    refine (nextFree_le hfuel hstart (contains_masked hw ▸ hin) hbl (by omega)).imp_right ?_
    rintro ⟨x, hx, hle⟩
    rw [hx]
    exact ⟨x, rfl, hle⟩

/-- The allocator fails only when every host address is allocated. -/
theorem nextAddress_exhausted {b : Arr 4} (hw : overlay.WellFormed) (h : nextAddress overlay allocated = .error .exhausted)
    (hb : Host overlay (.v4 b)) : Addr.v4 b ∈ allocated.map (·.unmap) := by
  rcases nextAddress_host hw hb with hused | ⟨a, ha, -⟩
  · exact hused
  · rw [h] at ha
    cases ha

/-- A host address is none of the three the allocator skips. -/
theorem Host.ne (h : Host overlay a) :
    a ≠ overlay.masked.ip ∧ a ≠ overlay.masked.ip.next ∧ a ≠ lastAddr overlay.masked := by
  obtain ⟨hin, hnum, hless⟩ := h
  refine ⟨?_, ?_, ?_⟩
  · intro he
    rw [he] at hnum
    omega
  · intro he
    have hvalid := (contains_plain hin).1
    rw [he] at hvalid hnum
    have := (Addr.next_num hvalid).1
    omega
  · intro he
    rw [← he] at hless
    unfold Addr.less at hless
    grind

/-- Where there are host addresses, the hub's is there too. -/
theorem Host.hub {b : Arr 4} (h : Host overlay (.v4 b)) :
    ∃ c, overlay.masked.ip.next = .v4 c ∧ overlay.contains (.v4 c) = true := by
  obtain ⟨hin, hnum, -⟩ := h
  have hlen : overlay.ip.bitLen = 32 := contains_family hin
  have hlt : b.toNat < 2 ^ 32 := Addr.num_lt (.v4 b)
  obtain ⟨n, hn, hdiv⟩ : ∃ n, overlay.masked.ip = .v4 n ∧
      n.toNat / 2 ^ (32 - overlay.bits) = overlay.ip.num / 2 ^ (32 - overlay.bits) := by
    unfold Prefix.masked
    rw [if_pos (contains_isValid hin)]
    cases hip : overlay.ip with
    | zero => simp [hip, Addr.bitLen] at hlen
    | v6 c z => simp [hip, Addr.bitLen] at hlen
    | v4 c => exact ⟨_, rfl, Addr.mask_num_div (.v4 c) overlay.bits⟩
  rw [hn] at hnum ⊢
  have hnum : n.toNat + 2 ≤ b.toNat := hnum
  refine ⟨_, next_v4 (by omega), ?_⟩
  have hnext : (Addr.v4 (Arr.ofNat 4 (n.toNat + 1))).num = n.toNat + 1 := by
    rw [← next_v4 (by omega)]
    exact (Addr.next_num (by rw [next_v4 (by omega)]; rfl)).1
  simp only [Prefix.contains, Bool.and_eq_true, beq_iff_eq] at hin ⊢
  refine ⟨⟨hin.1.1, hlen⟩, ?_⟩
  rw [hnext]
  -- the hub's address lies between the network's and the peer's
  have hlow := Nat.div_le_div_right (c := 2 ^ (32 - overlay.bits)) (Nat.le_succ n.toNat)
  have hhigh := Nat.div_le_div_right (c := 2 ^ (32 - overlay.bits)) (show n.toNat + 1 ≤ b.toNat by omega)
  have hb : overlay.ip.num / 2 ^ (32 - overlay.bits) = b.toNat / 2 ^ (32 - overlay.bits) := hin.2
  exact Nat.le_antisymm (hdiv ▸ hlow) (hb ▸ hhigh)

end

/-! ## The lowest free address -/

/-- The numbers of the network and broadcast addresses of an IPv4 prefix. -/
def network (p : Prefix) : Nat := p.ip.num / 2 ^ (32 - p.bits) * 2 ^ (32 - p.bits)

def broadcastNum (p : Prefix) : Nat := network p + (2 ^ (32 - p.bits) - 1)

/-- An IPv4 address strictly between the hub's address and the broadcast address that no
    allocated address is, an IPv4-mapped one counting as its IPv4 address. -/
def FreeHost (p : Prefix) (allocated : List Addr) (a : Addr) : Prop :=
  ∃ c : Arr 4, a = .v4 c ∧ network p + 1 < c.toNat ∧ c.toNat < broadcastNum p ∧ ∀ x ∈ allocated, x.unmap ≠ a

/-- The loop of `NextAddress` without fuel: from `a` it ends with `r`, and every turn goes on to
    the address one higher. -/
inductive Climbs (p : Prefix) (used : List Addr) (broadcast : Addr) : Addr → Option Addr → Prop
  | stop {a : Addr} : (a.isValid && p.contains a && a.less broadcast) = false → Climbs p used broadcast a none
  | found {a : Addr} : (a.isValid && p.contains a && a.less broadcast) = true → a ∉ used → Climbs p used broadcast a (some a)
  | next {a : Addr} {r : Option Addr} : (a.isValid && p.contains a && a.less broadcast) = true → a ∈ used →
      a.next.num = a.num + 1 → Climbs p used broadcast a.next r → Climbs p used broadcast a r

section

variable {p : Prefix} {used : List Addr} {fuel : Nat}

/-- With fuel for every address below the last, the loop runs to its end. -/
theorem nextFree_climbs {b l : Arr 4} (hfuel : l.toNat ≤ b.toNat + fuel) :
    Climbs p used (.v4 l) (.v4 b) (nextFree p used (.v4 l) fuel (.v4 b)) := by
  have hless : (Addr.v4 b).less (.v4 l) = true ↔ b.toNat < l.toNat := less_num (by rfl) (by rfl) (by rfl)
  induction fuel generalizing b with
  | zero =>
    refine .stop (Bool.and_eq_false_iff.mpr (.inr (Bool.not_eq_true _ |>.mp fun h => ?_)))
    have := hless.mp h
    omega
  | succ fuel ih =>
    unfold nextFree
    split
    · rename_i hin
      split
      · rename_i hused
        have hlt := hless.mp (Bool.and_eq_true_iff.mp hin).2
        have hl : l.toNat < 2 ^ 32 := (Addr.v4 l).num_lt
        have hnext := next_v4 (b := b) (by omega)
        have hnum : (Arr.ofNat 4 (b.toNat + 1)).toNat = b.toNat + 1 := Arr.toNat_ofNat (Nat.lt_of_le_of_lt hlt hl)
        refine .next hin (by simpa using hused) (by rw [hnext]; exact hnum) ?_
        rw [hnext]
        exact ih (by omega) (less_num (by rfl) (by rfl) (by rfl))
      · rename_i hused
        exact .found hin (by simpa using hused)
    · rename_i hin
      exact .stop (Bool.not_eq_true _ |>.mp hin)

end

section

variable {overlay : Prefix} {allocated : List Addr}

/-- The network and broadcast addresses of an IPv4 prefix as the allocator computes them. -/
theorem lastAddr_v4 (hp : overlay.IsV4) :
    ∃ m l : Arr 4, overlay.masked.ip = .v4 m ∧ m.toNat = network overlay ∧ lastAddr overlay.masked = .v4 l ∧
      l.toNat = broadcastNum overlay := by
  obtain ⟨b, n, hn, rfl⟩ := hp
  have hwf : Prefix.WellFormed ⟨.v4 b, n + 1⟩ := fun _ => ⟨rfl, rfl, hn⟩
  have hb : b.toNat < 2 ^ 32 := (Addr.v4 b).num_lt
  have hpow : 2 ^ n * 2 ^ (32 - n) = 2 ^ 32 := by
    rw [← Nat.pow_add]
    congr 1
    omega
  have hpos := Nat.two_pow_pos (32 - n)
  -- the host bits are clear below the network's, so setting them all adds them
  have hquot : b.toNat / 2 ^ (32 - n) + 1 ≤ 2 ^ n := by
    rw [Nat.succ_le_iff, Nat.div_lt_iff_lt_mul hpos, hpow]
    exact hb
  have hlast : (b.toNat / 2 ^ (32 - n) + 1) * 2 ^ (32 - n) ≤ 2 ^ 32 := by
    rw [← hpow]
    exact Nat.mul_le_mul_right _ hquot
  rw [Nat.succ_mul] at hlast
  have hor : b.toNat / 2 ^ (32 - n) * 2 ^ (32 - n) ||| (2 ^ (32 - n) - 1) =
      b.toNat / 2 ^ (32 - n) * 2 ^ (32 - n) + (2 ^ (32 - n) - 1) := by
    rw [Nat.mul_comm, ← Nat.two_pow_add_eq_or_of_lt (by omega)]
  have hmask := toNat_ofNat_floor b (32 - n)
  unfold lastAddr
  rw [hwf.masked_eq rfl]
  refine ⟨_, _, rfl, hmask, rfl, ?_⟩
  change (Arr.ofNat 4 ((Arr.ofNat 4 (b.toNat / 2 ^ (32 - n) * 2 ^ (32 - n))).toNat ||| (2 ^ (32 - n) - 1))).toNat =
    b.toNat / 2 ^ (32 - n) * 2 ^ (32 - n) + (2 ^ (32 - n) - 1)
  rw [hmask, hor]
  exact Arr.toNat_ofNat (by omega)

/-- The host addresses of an IPv4 prefix, by number. -/
theorem host_iff (hp : overlay.IsV4) (c : Arr 4) :
    Host overlay (.v4 c) ↔ network overlay + 1 < c.toNat ∧ c.toNat < broadcastNum overlay := by
  obtain ⟨m, l, hm, hnet, hl, hlast⟩ := lastAddr_v4 hp
  unfold Host
  rw [hm, hl, less_num (by rfl) (by rfl) (by rfl)]
  change _ ∧ m.toNat + 2 ≤ c.toNat ∧ c.toNat < l.toNat ↔ _
  rw [hnet, hlast]
  constructor
  · intro h
    exact ⟨h.2.1, h.2.2⟩
  · intro h
    refine ⟨?_, h.1, h.2⟩
    obtain ⟨b, n, hn, rfl⟩ := hp
    have hpos := Nat.two_pow_pos (32 - n)
    have hlow : b.toNat / 2 ^ (32 - n) * 2 ^ (32 - n) + 1 < c.toNat := h.1
    have hhigh : c.toNat < b.toNat / 2 ^ (32 - n) * 2 ^ (32 - n) + (2 ^ (32 - n) - 1) := h.2
    have hdiv : c.toNat / 2 ^ (32 - n) = b.toNat / 2 ^ (32 - n) := by
      refine Nat.div_eq_of_lt_le (by omega) ?_
      rw [Nat.succ_mul]
      omega
    simp only [Prefix.contains, Bool.and_eq_true, beq_iff_eq]
    exact ⟨⟨⟨⟨rfl, rfl⟩, rfl⟩, rfl⟩, hdiv.symm⟩

theorem freeHost_iff (hp : overlay.IsV4) (c : Arr 4) :
    FreeHost overlay allocated (.v4 c) ↔ Host overlay (.v4 c) ∧ Addr.v4 c ∉ allocated.map (·.unmap) := by
  rw [host_iff hp]
  have hfree : (∀ x ∈ allocated, x.unmap ≠ .v4 c) ↔ Addr.v4 c ∉ allocated.map (·.unmap) := by simp
  constructor
  · rintro ⟨d, hd, hlow, hhigh, hused⟩
    cases hd
    exact ⟨⟨hlow, hhigh⟩, hfree.mp hused⟩
  · intro h
    exact ⟨c, rfl, h.1.1, h.1.2, hfree.mpr h.2⟩

/-- No free host is below what the allocator returns. -/
theorem nextAddress_le (hp : overlay.IsV4) {a c : Addr} (h : nextAddress overlay allocated = .ok a)
    (hc : FreeHost overlay allocated c) : a.num ≤ c.num := by
  obtain ⟨b, rfl, -⟩ := id hc
  obtain ⟨hhost, hused⟩ := (freeHost_iff hp b).mp hc
  rcases nextAddress_host hp.wellFormed hhost with hin | ⟨x, hx, hle⟩
  · exact absurd hin hused
  · rw [h] at hx
    cases hx
    exact hle

/-- The loop of `NextAddress` ends with what `nextAddress` returns. -/
theorem nextAddress_climbs (hp : overlay.IsV4) (allocated : List Addr) :
    ∃ r, Climbs overlay.masked (allocated.map (·.unmap)) (lastAddr overlay.masked) overlay.masked.ip.next.next r ∧
      nextAddress overlay allocated = r.elim (.error .exhausted) .ok := by
  obtain ⟨m, l, hm, hnet, hl, hlast⟩ := lastAddr_v4 hp
  refine ⟨nextFree overlay.masked (allocated.map (·.unmap)) (lastAddr overlay.masked)
    ((lastAddr overlay.masked).num - overlay.masked.ip.next.num) overlay.masked.ip.next.next, ?_, ?_⟩
  · rw [hm, hl]
    by_cases hroom : m.toNat + 2 < 2 ^ 32
    · have hhub : (Arr.ofNat 4 (m.toNat + 1)).toNat = m.toNat + 1 := Arr.toNat_ofNat (by omega)
      have hfirst : (Arr.ofNat 4 (m.toNat + 1 + 1)).toNat = m.toNat + 1 + 1 := Arr.toNat_ofNat (by omega)
      rw [next_v4 (by omega), next_v4 (by omega), hhub]
      refine nextFree_climbs ?_
      simp only [Addr.num, hhub]
      omega
    · -- the prefix ends the address space: there is no address after the hub's
      have hnone : (Addr.v4 m).next.next = .zero := by
        by_cases hlast : m.toNat + 1 < 2 ^ 32
        · have hhub : (Arr.ofNat 4 (m.toNat + 1)).toNat = m.toNat + 1 := Arr.toNat_ofNat (by omega)
          rw [next_v4 hlast]
          exact if_neg (by omega)
        · rw [show (Addr.v4 m).next = .zero from if_neg hlast]
          rfl
      have hend : ∀ fuel, nextFree overlay.masked (allocated.map (·.unmap)) (.v4 l) fuel .zero = none := by
        intro fuel
        cases fuel with
        | zero => rfl
        | succ fuel => rfl
      rw [hnone, hend]
      exact .stop rfl
  · have h4 : ¬overlay.ip.is4 = false := by
      obtain ⟨b, n, -, rfl⟩ := hp
      intro h
      cases h
    unfold nextAddress
    grind

theorem nextAddress_least (hp : overlay.IsV4) (allocated : List Addr) :
    (∀ a, nextAddress overlay allocated = .ok a ↔
      FreeHost overlay allocated a ∧ ∀ c, FreeHost overlay allocated c → a.num ≤ c.num) ∧
    (nextAddress overlay allocated = .error .exhausted ↔ ¬∃ a, FreeHost overlay allocated a) ∧
    ∃ r, Climbs overlay.masked (allocated.map (·.unmap)) (lastAddr overlay.masked) overlay.masked.ip.next.next r ∧
      nextAddress overlay allocated = r.elim (.error .exhausted) .ok := by
  have hwf := hp.wellFormed
  have hclimb := nextAddress_climbs hp allocated
  have hfree : ∀ a, nextAddress overlay allocated = .ok a → FreeHost overlay allocated a := by
    intro a ha
    obtain ⟨⟨b, rfl⟩, hhost, hused⟩ := nextAddress_ok hwf ha
    exact (freeHost_iff hp b).mpr ⟨hhost, hused⟩
  have hnone : nextAddress overlay allocated = .error .exhausted → ¬∃ a, FreeHost overlay allocated a := by
    rintro h ⟨a, ha⟩
    obtain ⟨c, rfl, -⟩ := id ha
    obtain ⟨hhost, hused⟩ := (freeHost_iff hp c).mp ha
    exact hused (nextAddress_exhausted hwf h hhost)
  refine ⟨fun a => ⟨fun h => ⟨hfree a h, fun c hc => nextAddress_le hp h hc⟩, ?_⟩, ⟨hnone, ?_⟩, hclimb⟩
  · intro h
    obtain ⟨r, -, hr⟩ := hclimb
    cases r with
    | none => exact absurd ⟨a, h.1⟩ (hnone hr)
    | some x =>
      -- both are least, so they are one address
      obtain ⟨c, hc, -⟩ := id h.1
      obtain ⟨d, hd, -⟩ := id (hfree x hr)
      have heq : c.toNat = d.toNat := by
        have h1 := h.2 x (hfree x hr)
        have h2 := nextAddress_le hp hr h.1
        rw [hc, hd] at h1 h2
        exact Nat.le_antisymm h1 h2
      rw [hr, hc, hd, Arr.toNat_inj heq]
      rfl
  · intro h
    obtain ⟨r, -, hr⟩ := hclimb
    cases r with
    | none => exact hr
    | some x => exact absurd ⟨x, hfree x hr⟩ h

/-- 10.0.0.0/29 with its first two host addresses given out, one of them in its mapped form:
    the next is 10.0.0.4. -/
theorem nextAddress_least_third :
    FreeHost ⟨.v4 (Arr.ofNat 4 0x0a000000), 30⟩ [.v4 (Arr.ofNat 4 0x0a000002), .v6 (Arr.ofNat 16 0xffff0a000003) []]
      (.v4 (Arr.ofNat 4 0x0a000004)) := by
  refine ((nextAddress_least ?_ _).1 _ |>.mp ?_).1
  · exact ⟨_, 29, by decide, rfl⟩
  · decide +kernel

end

end Thawr.Control
