/-
  Thawr.Wg.Nft — the kernel packet filter (`internal/wg/nft_linux.go`).

  `buildRuleset` writes a filter set as nftables chains: the input or forward chain of the
  set's hook, and for a router a forward chain and a chain that masquerades. The expressions
  are those of `Nft.Eval`. Sets are anonymous, so a lookup holds its elements.

  Proved: which packets each group of expressions lets through, for well-formed packets
  (`tests_source`, `tests_protoPorts`).
-/

import Thawr.Nft.Eval
import Thawr.Wg.Packets
import Thawr.Go.Prefixes

namespace Thawr.Wg

open Go Netip Nft

def asSlice : Addr → List UInt8
  | .zero => []
  | .v4 b => b.bytes
  | .v6 b _ => b.bytes

def ifname (n : Str) : List UInt8 := (n ++ List.replicate 16 0).take 16

def prefixMask : Nat → Nat → List UInt8
  | _, 0 => []
  | bits, n + 1 =>
    if 8 ≤ bits then 0xff :: prefixMask (bits - 8) n
    else if 0 < bits then (0xff <<< UInt8.ofNat (8 - bits)) :: prefixMask 0 n
    else 0 :: prefixMask 0 n

def family (a : Addr) : List Expr := [.meta_ .nfproto, .cmpEq [if a.is6 then 10 else 2]]

def saddr (a : Addr) : Expr := if a.is6 then .payload .network 8 16 else .payload .network 12 4

def daddr (a : Addr) : Expr := if a.is6 then .payload .network 24 16 else .payload .network 16 4

def prefixMatch (p : Prefix) : List Expr :=
  if p.bits = p.ip.bitLen then [.cmpEq (asSlice p.ip)]
  else [.bitwise (prefixMask p.bits (p.ip.bitLen / 8)) (List.replicate (if p.ip.is6 then 16 else 4) 0),
    .cmpEq (asSlice p.masked.ip)]

def protocolsOf (proto : Str) (lo hi : UInt16) (v6 : Bool) : List UInt8 :=
  let icmp := if v6 then 58 else 1
  if proto = protoTCP then [6]
  else if proto = protoUDP then [17]
  else if proto = protoICMP then [icmp]
  else [6, 17] ++ if lo ≤ 1 ∧ hi = 65535 then [icmp] else []

def bigEndian16 (x : UInt16) : List UInt8 := beBytes 2 x.toNat

def protoPorts (proto : UInt8) (lo hi : UInt16) : List Expr :=
  [.meta_ .l4proto, .cmpEq [proto]] ++
    if proto = 1 ∨ proto = 58 then []
    else .payload .transport 2 2 :: if lo = hi then [.cmpEq (bigEndian16 lo)] else [.range (bigEndian16 lo) (bigEndian16 hi)]

/-- `established`: matches packets of flows the kernel already accepted. -/
def established : List Expr := [.ctState, .bitwise (native32 6) (native32 0), .cmpNeq (native32 0), .verdict .accept]

def accept : List Expr := [.verdict .accept]

def countDrop : List Expr := [.counter, .verdict .drop]

def FilterSet.locals (set : FilterSet) : List Addr := [set.localIP, set.localIP6].filter (·.isValid)

/-- The rule for the visible addresses of a family; none when there are none. -/
def visibleExprs (visible : List Addr) (unspecified : Addr) (proto echo : UInt8) : List (List Expr) :=
  let elems := (visible.filter fun a => a.is4 == unspecified.is4 && !a.is4In6).map asSlice
  if elems = [] then []
  else [family unspecified ++ [saddr unspecified, .lookup elems] ++ [.meta_ .l4proto, .cmpEq [proto]] ++
    [.payload .transport 0 1, .cmpEq [echo]] ++ accept]

def ipv4Unspecified : Addr := .v4 (Arr.zero 4)
def ipv6Unspecified : Addr := .v6 (Arr.zero 16) []

/-- `addVisible`: accepts echo requests from the visible addresses. -/
def addVisible (visible : List Addr) : List (List Expr) :=
  visibleExprs visible ipv4Unspecified 1 8 ++ visibleExprs visible ipv6Unspecified 58 128

def ruleExprs (r : FilterRule) : List (List Expr) :=
  if r.src.isValid = false ∨ (r.dst.isValid = true ∧ r.dst.is6 ≠ r.src.ip.is6) then []
  else (protocolsOf r.proto r.lo r.hi r.src.ip.is6).map fun proto =>
    family r.src.ip ++ saddr r.src.ip :: prefixMatch r.src ++
      (if r.dst.isValid then [daddr r.dst, .cmpEq (asSlice r.dst)] else []) ++ protoPorts proto r.lo r.hi ++ accept

def forwardExprs (iface : List UInt8) (r : ForwardRule) : List (List Expr) :=
  if r.src.isValid = false ∨ r.dst.isValid = false ∨ r.dst.ip.is6 ≠ r.src.ip.is6 then []
  else (protocolsOf r.proto r.lo r.hi r.src.ip.is6).map fun proto =>
    [.meta_ .iifname, .cmpEq iface] ++ (family r.src.ip ++ saddr r.src.ip :: prefixMatch r.src) ++
      (if 0 < r.dst.bits then daddr r.dst.ip :: prefixMatch r.dst else []) ++ protoPorts proto r.lo r.hi ++ accept

/-- The rule of one masqueraded destination. -/
def masqueradeExprs (set : FilterSet) (dst : Prefix) : Option (List Expr) :=
  let src := if dst.ip.is6 then set.masqueradeFrom6 else set.masqueradeFrom
  -- without the overlay's IPv6 prefix there is no rule for IPv6 at all
  if dst.ip.is6 = true ∧ src.isValid = false then none
  else some ([.meta_ .oifname, .cmpNeq (ifname set.interface)] ++ family dst.ip ++
    (if src.isValid = true ∧ src.ip.is6 = dst.ip.is6 then saddr src.ip :: prefixMatch src else []) ++
      (if 0 < dst.bits then daddr dst.ip :: prefixMatch dst else []) ++ [.masq])

def forwardName : Str := str "forward"

def routerForward (set : FilterSet) : Chain where
  name := forwardName
  kind := .filter
  hook := .forward
  policy := .drop
  rules := ([.meta_ .iifname, .cmpNeq (ifname set.interface)] ++ [.meta_ .oifname, .cmpNeq (ifname set.interface)] ++ accept) ::
    established :: set.forward.flatMap (forwardExprs (ifname set.interface)) ++ [countDrop]

def buildRouterChains (set : FilterSet) : List Chain × Nat :=
  (routerForward set :: (if set.masquerade = [] then [] else
      [⟨str "postrouting", .nat, .postrouting, .accept, set.masquerade.filterMap (masqueradeExprs set)⟩]),
    (set.forward.flatMap (forwardExprs (ifname set.interface))).length)

def localExprs (a : Addr) : List Expr := family a ++ [daddr a, .cmpEq (asSlice a)] ++ accept

/-- The rule for a range of ICMPv6 types: errors, or neighbour discovery. -/
def icmp6Exprs (lo hi : UInt8) : List Expr :=
  family ipv6Unspecified ++ [.meta_ .l4proto, .cmpEq [58]] ++ [.payload .transport 0 1, .range [lo] [hi]] ++ accept

def chainRules (set : FilterSet) : List (List Expr) :=
  ([.meta_ (if set.hook = .forward then .oifname else .iifname), .cmpNeq (ifname set.interface)] ++ accept) ::
    (if set.hook = .forward then set.locals.map localExprs else []) ++
    established :: icmp6Exprs 1 4 :: icmp6Exprs 133 137 :: addVisible set.visible ++ set.rules.flatMap ruleExprs

def ownChain (set : FilterSet) : Chain where
  name := if set.hook = .forward then forwardName else str "input"
  kind := .filter
  hook := if set.hook = .forward then .forward else .input
  policy := .drop
  rules := chainRules set ++ [countDrop]

/-- `buildRuleset`: the chains, with the name of the chain that counts drops and the number
    of policy rules. -/
def buildRuleset (set : FilterSet) : List Chain × Str × Nat :=
  if set.routerOnly then ((buildRouterChains set).1, forwardName, (buildRouterChains set).2)
  else
    let count := (set.rules.flatMap ruleExprs).length
    if set.hook = .input ∧ (set.forward ≠ [] ∨ set.masquerade ≠ []) then
      (ownChain set :: (buildRouterChains set).1, (ownChain set).name, count + (buildRouterChains set).2)
    else ([ownChain set], (ownChain set).name, count)

/-! ## Prefixes -/

theorem length_prefixMask (bits n : Nat) : (prefixMask bits n).length = n := by
  induction n generalizing bits with
  | zero => rfl
  | succ n ih =>
    unfold prefixMask
    split
    · simp [ih]
    · split <;> simp [ih]

/-- One byte of the mask, of fewer than 8 bits. -/
theorem and_mask_byte {bits : Nat} (h : bits < 8) (c : UInt8) :
    (c &&& if 0 < bits then 0xff <<< UInt8.ofNat (8 - bits) else 0).toNat = c.toNat / 2 ^ (8 - bits) * 2 ^ (8 - bits) := by
  have hall : ∀ bits : Fin 8, ∀ x : Fin 256, (UInt8.ofFin x &&& if 0 < bits.val then
    0xff <<< UInt8.ofNat (8 - bits.val) else 0).toNat =
      x.val / 2 ^ (8 - bits.val) * 2 ^ (8 - bits.val) := by decide +kernel
  exact hall ⟨bits, h⟩ c.toFin

/-- Masking clears the bits after the first `bits`. -/
theorem beNat_mask (b : List UInt8) (bits : Nat) (h : bits ≤ 8 * b.length) :
    beNat (List.zipWith (· &&& ·) b (prefixMask bits b.length)) =
      beNat b / 2 ^ (8 * b.length - bits) * 2 ^ (8 * b.length - bits) := by
  induction b generalizing bits with
  | nil => simp [beNat]
  | cons c b ih =>
    have hpow : (256 : Nat) ^ b.length = 2 ^ (8 * b.length) := by rw [show 256 = 2 ^ 8 from rfl, ← Nat.pow_mul]
    have hlen : ∀ bits, (List.zipWith (· &&& ·) b (prefixMask bits b.length)).length = b.length := by
      intro bits
      simp [length_prefixMask]
    rw [List.length_cons] at h ⊢
    unfold prefixMask
    by_cases h8 : 8 ≤ bits
    · rw [if_pos h8, List.zipWith_cons_cons, beNat_cons, beNat_cons, hlen, ih (bits - 8) (by omega)]
      -- the cleared bits are all in the rest
      have hm : 8 * (b.length + 1) - bits = 8 * b.length - (bits - 8) := by omega
      have hsplit : c.toNat * 256 ^ b.length =
          2 ^ (8 * b.length - (bits - 8)) * (c.toNat * 2 ^ (8 * b.length - (8 * b.length - (bits - 8)))) := by
        rw [hpow, Nat.mul_left_comm, ← Nat.pow_add]
        congr 2
        omega
      have hff : c &&& 0xff = c := UInt8.and_neg_one
      rw [hff, hm, hsplit, Nat.mul_add_div (Nat.two_pow_pos _), Nat.add_mul]
      congr 1
      exact Nat.mul_comm _ _
    · have htail : beNat (List.zipWith (· &&& ·) b (prefixMask 0 b.length)) = 0 := by
        rw [ih 0 (Nat.zero_le _), Nat.sub_zero, ← hpow, Nat.div_eq_of_lt (beNat_lt b), Nat.zero_mul]
      have hmask : (if 0 < bits then (0xff <<< UInt8.ofNat (8 - bits)) :: prefixMask 0 b.length else 0 :: prefixMask 0 b.length) =
          (if 0 < bits then 0xff <<< UInt8.ofNat (8 - bits) else 0) :: prefixMask 0 b.length := by
        split <;> rfl
      have hm : 8 * (b.length + 1) - bits = 8 * b.length + (8 - bits) := by omega
      rw [if_neg h8, hmask, List.zipWith_cons_cons, beNat_cons, beNat_cons, hlen, htail, and_mask_byte (by omega), hm,
        Nat.pow_add,
        ← hpow, ← Nat.div_div_eq_div_mul, Nat.mul_comm c.toNat, Nat.mul_add_div (Nat.pow_pos (by decide)),
        Nat.div_eq_of_lt (beNat_lt b), Nat.add_zero, Nat.add_zero, Nat.mul_assoc, Nat.mul_comm (256 ^ _)]

theorem xor_zeros (b : List UInt8) : List.zipWith (· ^^^ ·) b (List.replicate b.length 0) = b := by
  induction b with
  | nil => rfl
  | cons c b ih => simp [List.replicate_succ, ih]

/-- The masked comparison is that of the first bits. -/
theorem mask_eq_iff {n bits : Nat} (x y : Arr n) (h : bits ≤ 8 * n) :
    (List.zipWith (· ^^^ ·) (List.zipWith (· &&& ·) x.bytes (prefixMask bits n)) (List.replicate n 0)).take n =
        beBytes n (y.toNat / 2 ^ (8 * n - bits) * 2 ^ (8 * n - bits)) ↔
      y.toNat / 2 ^ (8 * n - bits) = x.toNat / 2 ^ (8 * n - bits) := by
  have hlen : (List.zipWith (· &&& ·) x.bytes (prefixMask bits n)).length = n := by simp [length_prefixMask, x.size]
  have hxor := xor_zeros (List.zipWith (· &&& ·) x.bytes (prefixMask bits n))
  rw [hlen] at hxor
  rw [hxor, List.take_of_length_le (Nat.le_of_eq hlen)]
  have hx : beNat (List.zipWith (· &&& ·) x.bytes (prefixMask bits n)) = x.toNat / 2 ^ (8 * n - bits) * 2 ^ (8 * n - bits) := by
    have hmask := beNat_mask x.bytes bits (by rw [x.size]; exact h)
    rw [x.size] at hmask
    exact hmask
  have hy : beNat (beBytes n (y.toNat / 2 ^ (8 * n - bits) * 2 ^ (8 * n - bits))) =
    y.toNat / 2 ^ (8 * n - bits) * 2 ^ (8 * n - bits) := by
    refine beNat_beBytes (Nat.lt_of_le_of_lt (Nat.div_mul_le_self _ _) ?_)
    have hlt := beNat_lt y.bytes
    rwa [y.size] at hlt
  constructor
  · intro he
    rw [← he, hx] at hy
    exact (Nat.eq_of_mul_eq_mul_right (Nat.two_pow_pos _) hy).symm
  · intro he
    refine beNat_inj (hlen.trans (beBytes_length _ _).symm) ?_
    rw [hx, hy, he]

/-- `prefixMatch` is `Contains`, for an address of the prefix's family. -/
theorem testsAt_prefixMatch {k : Pkt} {p : Prefix} {a : Addr} (hp : p.WellFormed) (hv : p.isValid = true) (ha : a.isValid = true)
    (hz : a.zone = []) (hfam : a.is6 = p.ip.is6) : TestsAt k (prefixMatch p) (asSlice a) (p.contains a = true) := by
  obtain ⟨hip, hpz, hbits⟩ := hp hv
  have hmasked : p.masked.ip = p.ip.mask p.bits := by
    unfold Prefix.masked prefixFrom
    rw [if_pos hv]
    cases p.ip <;> rfl
  -- the two families differ in the number of bytes only
  have hbytes : ∀ {n : Nat} (x y : Arr n), p.ip.bitLen = 8 * n → asSlice a = x.bytes → asSlice p.ip = y.bytes →
      (if p.ip.is6 then 16 else 4) = n → asSlice (p.ip.mask p.bits) =
        beBytes n (y.toNat / 2 ^ (8 * n - p.bits) * 2 ^ (8 * n - p.bits)) →
      (p.contains a = true ↔ y.toNat / 2 ^ (8 * n - p.bits) = x.toNat / 2 ^ (8 * n - p.bits)) →
      TestsAt k (prefixMatch p) (asSlice a) (p.contains a = true) := by
    intro n x y hlen hx hy hn hm hc
    unfold prefixMatch
    rw [hmasked, hx, hm, hn, hlen, Nat.mul_div_cancel_left _ (by decide)]
    by_cases hfull : p.bits = 8 * n
    · rw [if_pos hfull, hy]
      refine (testsAt_cmpEq _ _).iff ?_
      rw [hc, hfull, Nat.sub_self, Nat.pow_zero, Nat.div_one, Nat.div_one, y.size, List.take_of_length_le (Nat.le_of_eq x.size)]
      exact ⟨fun h => by rw [show y.toNat = beNat y.bytes from rfl, ← h]; rfl, fun h => by rw [Arr.toNat_inj h]⟩
    · rw [if_neg hfull]
      refine testsAt_bitwise ((testsAt_cmpEq _ _).iff ?_)
      rw [beBytes_length, hc]
      exact mask_eq_iff x y (hlen ▸ hbits)
  cases hpip : p.ip with
  | zero =>
    rw [hpip] at hip
    cases hip
  | v4 y =>
    cases a with
    | zero => cases ha
    | v6 x z =>
      rw [hpip] at hfam
      cases hfam
    | v4 x =>
      refine hbytes x y (by rw [hpip]; rfl) rfl (by rw [hpip]; rfl) (by rw [hpip]; rfl) (by rw [hpip]; rfl) ?_
      simp [Prefix.contains, hv, hpip, Addr.zone, Addr.isValid, Addr.bitLen, Addr.num]
  | v6 y zy =>
    cases a with
    | zero => cases ha
    | v4 x =>
      rw [hpip] at hfam
      cases hfam
    | v6 x z =>
      refine hbytes x y (by rw [hpip]; rfl) rfl (by rw [hpip]; rfl) (by rw [hpip]; rfl) (by rw [hpip]; rfl) ?_
      simp [Prefix.contains, hv, hpip, show z = [] from hz, Addr.zone, Addr.isValid, Addr.bitLen, Addr.num]

/-! ## What the expressions test of a packet -/

/-- A well-formed packet as the kernel's hooks see it. -/
def kernelView (b : List UInt8) (proto : UInt8) (src : Addr) (off : Nat) (iif oif : Str) (ct : UInt32) : Pkt where
  iif := iif
  oif := oif
  nfproto := if src.is6 then 10 else 2
  l4proto := proto
  network := b
  transport := b.drop off
  ct := ct

section

variable {b : List UInt8} {proto : UInt8} {src dst : Addr} {off : Nat} {iif oif : Str} {ct : UInt32} {es : List Expr} {P : Prop}

theorem tests_family (a : Addr) : Tests (kernelView b proto src off iif oif ct) (family a) (src.is6 = a.is6) := by
  refine tests_meta .nfproto ((testsAt_cmpEq _ _).iff ?_)
  show List.take 1 [if src.is6 then 10 else 2] = [if a.is6 then 10 else 2] ↔ src.is6 = a.is6
  cases src.is6 <;> cases a.is6 <;> decide

theorem tests_l4proto (q : UInt8) : Tests (kernelView b proto src off iif oif ct) [.meta_ .l4proto, .cmpEq [q]] (proto = q) := by
  refine tests_meta .l4proto ((testsAt_cmpEq _ _).iff ?_)
  show [proto] = [q] ↔ proto = q
  simp

theorem tests_saddr (h : IsWhole b proto src dst off) {a : Addr} (hfam : src.is6 = a.is6)
    (hes : TestsAt (kernelView b proto src off iif oif ct) es (asSlice src) P) :
    Tests (kernelView b proto src off iif oif ct) (saddr a :: es) P := by
  unfold saddr
  rw [← hfam]
  cases h.ip with
  | v4 h4 =>
    have hlen : 12 + 4 ≤ b.length := by
      have := h4.least
      have := h4.length
      omega
    refine tests_payload hlen ?_
    show TestsAt _ es ((b.drop 12).take 4) P
    rw [← Arr.bytes_at hlen, h4.src]
    exact hes
  | v6 h6 =>
    have hlen : 8 + 16 ≤ b.length := by
      have := h6.least
      omega
    refine tests_payload hlen ?_
    show TestsAt _ es ((b.drop 8).take 16) P
    rw [← Arr.bytes_at hlen, h6.src]
    exact hes

theorem tests_daddr (h : IsWhole b proto src dst off) {a : Addr} (hfam : src.is6 = a.is6)
    (hes : TestsAt (kernelView b proto src off iif oif ct) es (asSlice dst) P) :
    Tests (kernelView b proto src off iif oif ct) (daddr a :: es) P := by
  unfold daddr
  rw [← hfam]
  cases h.ip with
  | v4 h4 =>
    have hlen : 16 + 4 ≤ b.length := by
      have := h4.least
      have := h4.length
      omega
    refine tests_payload hlen ?_
    show TestsAt _ es ((b.drop 16).take 4) P
    rw [← Arr.bytes_at hlen, h4.dst]
    exact hes
  | v6 h6 =>
    have hlen : 24 + 16 ≤ b.length := by
      have := h6.least
      omega
    refine tests_payload hlen ?_
    show TestsAt _ es ((b.drop 24).take 16) P
    rw [← Arr.bytes_at hlen, h6.dst]
    exact hes

/-- The comparison of a whole address. -/
theorem asSlice_iff {x a : Addr} (hx : x.isValid = true) (hz : x.zone = []) (hfam : x.is6 = a.is6) (ha : a.isValid = true) :
    (asSlice x).take (asSlice a).length = asSlice a ↔ a.withoutZone = x := by
  cases a with
  | zero => cases ha
  | v4 c =>
    cases x with
    | zero => cases hx
    | v6 d z => cases hfam
    | v4 d =>
      simp only [asSlice, Addr.withoutZone, Addr.v4.injEq, c.size, List.take_of_length_le (Nat.le_of_eq d.size)]
      exact ⟨fun h => Arr.ext h.symm, fun h => by rw [h]⟩
  | v6 c zc =>
    cases x with
    | zero => cases hx
    | v4 d => cases hfam
    | v6 d z =>
      rw [show z = [] from hz]
      simp only [asSlice, Addr.withoutZone, Addr.v6.injEq, and_true, c.size, List.take_of_length_le (Nat.le_of_eq d.size)]
      exact ⟨fun h => Arr.ext h.symm, fun h => by rw [h]⟩

/-- The tests of a prefix on the source. -/
theorem tests_source (h : IsWhole b proto src dst off) {p : Prefix} (hp : p.WellFormed) (hv : p.isValid = true) :
    Tests (kernelView b proto src off iif oif ct) (family p.ip ++ (saddr p.ip :: prefixMatch p)) (p.contains src = true) := by
  obtain ⟨⟨hvalid, hzone⟩, -⟩ := h.plain
  refine ((tests_family p.ip).append fun hfam =>
    tests_saddr h hfam (testsAt_prefixMatch hp hv hvalid hzone hfam)).iff (and_iff_right_of_imp (contains_is6 hp))

/-- The tests of the type of an ICMP packet. -/
theorem tests_type (h : IsWhole b proto src dst off) (hproto : proto = 1 ∨ proto = 58)
    (hes : TestsAt (kernelView b proto src off iif oif ct) es [byteAt b off] P) :
    Tests (kernelView b proto src off iif oif ct) (.payload .transport 0 1 :: es) P := by
  have hlen : off < b.length := by
    have htransport := h.transport
    rcases hproto with rfl | rfl
    · rw [show transportLen 1 = 8 from rfl] at htransport
      omega
    · rw [show transportLen 58 = 8 from rfl] at htransport
      omega
  have hone : (b.drop off).take 1 = [byteAt b off] := by
    rw [List.drop_eq_getElem_cons hlen, List.take_succ_cons, List.take_zero]
    simp [byteAt, List.getD_eq_getElem?_getD, hlen]
  have hpayload : 0 + 1 ≤ (b.drop off).length := by
    rw [List.length_drop]
    omega
  refine tests_payload hpayload ?_
  show TestsAt _ es ((b.drop off).take 1) P
  rw [hone]
  exact hes

/-- A packet of a new connection is no reply. -/
theorem established_none (hct : ct &&& 6 = 0) : verdictOf (kernelView b proto src off iif oif ct) established = none := by
  have hbits : ct.toUInt8 &&& 6 = 0 := by
    rw [show (6 : UInt8) = (6 : UInt32).toUInt8 from rfl, ← UInt32.toUInt8_and, hct]
    rfl
  have hzero : List.zipWith (· ^^^ ·) (List.zipWith (· &&& ·) (native32 ct) (native32 6)) (native32 0) = native32 0 := by
    rw [show native32 6 = [6, 0, 0, 0] by decide, show native32 0 = [0, 0, 0, 0] by decide]
    simp [native32, hbits]
  simp [verdictOf, established, exec, step, kernelView, hzero]

/-- The tests of an interface's name. -/
theorem tests_name (key : MetaKey) (hkey : key = .iifname ∨ key = .oifname) (name : Str) :
    Tests (kernelView b proto src off iif oif ct) [.meta_ key, .cmpNeq (ifname name)]
      ((kernelView b proto src off iif oif ct).load key ≠ ifname name) := by
  refine tests_meta key ((testsAt_cmpNeq _ _).iff ?_)
  have hlen : ∀ n : Str, (name16 n).length = (ifname name).length := fun n => by simp [name16, ifname]
  rcases hkey with rfl | rfl
  · show (name16 iif).take _ ≠ _ ↔ name16 iif ≠ _
    rw [List.take_of_length_le (Nat.le_of_eq (hlen iif))]
  · show (name16 oif).take _ ≠ _ ↔ name16 oif ≠ _
    rw [List.take_of_length_le (Nat.le_of_eq (hlen oif))]

/-- The 16-bit number at an offset of the transport header. -/
theorem be16_toNat {i : Nat} (h : off + i + 2 ≤ b.length) : beNat (((b.drop off).drop i).take 2) = (be16 b (off + i)).toNat := by
  rw [List.drop_drop]
  have hlen : 2 ≤ (b.drop (off + i)).length := by
    rw [List.length_drop]
    omega
  have hx := byteAt_drop b (off + i) 0
  have hy := byteAt_drop b (off + i) 1
  rcases hd : b.drop (off + i) with _ | ⟨x, _ | ⟨y, r⟩⟩
  · rw [hd] at hlen
    simp at hlen
  · rw [hd] at hlen
    simp at hlen
  · rw [hd, Nat.add_zero] at hx
    rw [hd] at hy
    have hxlt := x.toNat_lt
    have hylt := y.toNat_lt
    unfold be16
    rw [← hx, ← hy]
    simp [byteAt, beNat]
    omega

theorem beNat_bigEndian16 (x : UInt16) : beNat (bigEndian16 x) = x.toNat := beNat_beBytes x.toNat_lt

theorem icmp_or_ports {q : UInt8} (h : q ∈ [6, 17, 1, 58]) : (q = 1 ∨ q = 58) ∨ q = 6 ∨ q = 17 := by
  simp only [List.mem_cons, List.not_mem_nil, or_false] at h
  rcases h with h | h | h
  · exact .inr (.inl h)
  · exact .inr (.inr h)
  · exact .inl h

/-- A port in the register is compared with one port or with a range. -/
theorem testsAt_ports {k : Pkt} {reg : List UInt8} {x : UInt16} (hlen : reg.length = 2) (hx : beNat reg = x.toNat)
    (lo hi : UInt16) :
    TestsAt k (if lo = hi then [.cmpEq (bigEndian16 lo)] else [.range (bigEndian16 lo) (bigEndian16 hi)]) reg
      (lo ≤ x ∧ x ≤ hi) := by
  have hbe : (bigEndian16 lo).length = 2 := beBytes_length _ _
  by_cases heq : lo = hi
  · rw [if_pos heq, ← heq]
    refine (testsAt_cmpEq _ _).iff ?_
    rw [hbe, List.take_of_length_le (Nat.le_of_eq hlen)]
    constructor
    · intro he
      rw [he, beNat_bigEndian16] at hx
      rw [UInt16.toNat_inj.mp hx]
      exact ⟨UInt16.le_refl _, UInt16.le_refl _⟩
    · intro he
      refine beNat_inj (hlen.trans hbe.symm) ?_
      rw [hx, beNat_bigEndian16, UInt16.le_antisymm he.1 he.2]
  · rw [if_neg heq]
    refine (testsAt_range _ _ _).iff ?_
    rw [hbe, List.take_of_length_le (Nat.le_of_eq hlen), hx, beNat_bigEndian16, beNat_bigEndian16, UInt16.le_iff_toNat_le,
      UInt16.le_iff_toNat_le]

theorem ports_within (h : IsWhole b proto src dst off) (hp : proto = 6 ∨ proto = 17) : off + 2 + 2 ≤ b.length := by
  have hlen : 8 ≤ transportLen proto := by
    rcases hp with rfl | rfl <;> decide
  have htransport := h.transport
  omega

theorem tests_protoPorts (h : IsWhole b proto src dst off) {q : UInt8} (hq : q ∈ [6, 17, 1, 58]) (lo hi : UInt16) :
    Tests (kernelView b proto src off iif oif ct) (protoPorts q lo hi)
      (proto = q ∧ (q = 1 ∨ q = 58 ∨ (lo ≤ be16 b (off + 2) ∧ be16 b (off + 2) ≤ hi))) := by
  unfold protoPorts
  refine (tests_l4proto q).append fun hproto => ?_
  by_cases hicmp : q = 1 ∨ q = 58
  · rw [if_pos hicmp]
    intro reg
    exact .inl ⟨by rw [← or_assoc]; exact .inl hicmp, reg, rfl⟩
  · have hports : q = 6 ∨ q = 17 := (icmp_or_ports hq).resolve_left hicmp
    have hlen : off + 2 + 2 ≤ b.length := ports_within h (hproto ▸ hports)
    have hpayload : 2 + 2 ≤ (b.drop off).length := by
      rw [List.length_drop]
      omega
    have htwo : (((b.drop off).drop 2).take 2).length = 2 := by
      rw [List.length_take, List.length_drop]
      omega
    rw [if_neg hicmp]
    refine tests_payload hpayload ?_
    rw [← or_assoc, or_iff_right hicmp]
    exact testsAt_ports htwo (be16_toNat hlen) lo hi

end

end Thawr.Wg
