/-
  Thawr.Wg.Kernel — what the kernel filter lets pass (`internal/wg/nft_linux.go`).

  The chains of `buildRuleset` evaluated on a well-formed packet that belongs to no flow. The
  prefixes of a set are the library's, and only a router of a userspace tunnel skips the input
  chain, always with the input hook (`routerNAT.set` of `internal/wg/forward_linux.go`).

  Proved: what the chain on a set's own hook accepts (`ownChain_accept`), what a router's
  forward chain accepts (`routerForward_accept`), and which of the two decides on each hook
  (`passes_input`, `passes_forward_input`, `passes_forward_hub`).
-/

import Thawr.Wg.Nft

namespace Thawr.Wg

open Go Netip Nft

/-! ## What the chains accept -/

structure FilterSet.WellFormed (set : FilterSet) : Prop where
  rules : ∀ r ∈ set.rules, r.src.WellFormed
  forward : ∀ r ∈ set.forward, r.src.WellFormed ∧ r.dst.WellFormed
  routerOnly : set.routerOnly = true → set.hook = .input

/-- The protocol and ports of a rule, as the kernel's rules have them. -/
def KernelPorts (p : Packet) (proto : Str) (lo hi : UInt16) : Prop :=
  p.proto ∈ protocolsOf proto lo hi p.src.is6 ∧ (p.isICMP = true ∨ (lo ≤ p.dport ∧ p.dport ≤ hi))

def EchoRequest (p : Packet) : Prop :=
  (p.src.is6 = false ∧ p.proto = 1 ∧ p.sport = 8) ∨ (p.src.is6 = true ∧ p.proto = 58 ∧ p.sport = 128)

def KernelVisible (visible : List Addr) (p : Packet) : Prop :=
  EchoRequest p ∧ ∃ a ∈ visible, a.is4In6 = false ∧ a.withoutZone = p.src

def KernelRule (r : FilterRule) (p : Packet) : Prop :=
  r.src.contains p.src = true ∧ (r.dst.isValid = true → r.dst.withoutZone = p.dst) ∧ KernelPorts p r.proto r.lo r.hi

def KernelForward (r : ForwardRule) (p : Packet) : Prop :=
  r.src.contains p.src = true ∧ r.dst.contains p.dst = true ∧ KernelPorts p r.proto r.lo r.hi

/-- What a set's own chain accepts of the packets it filters. -/
def KernelNew (set : FilterSet) (p : Packet) : Prop :=
  (p.src.is6 = true ∧ p.icmp6Always = true) ∨ KernelVisible set.visible p ∨ ∃ r ∈ set.rules, KernelRule r p

section

variable {b : List UInt8} {proto : UInt8} {src dst : Addr} {off : Nat} {iif oif : Str} {ct : UInt32} {set : FilterSet}

theorem protocolsOf_subset (t : Str) (lo hi : UInt16) (v6 : Bool) : protocolsOf t lo hi v6 ⊆ [6, 17, 1, 58] := by
  unfold protocolsOf
  cases v6 <;> repeat' split
  all_goals decide

theorem isICMP_iff {p : Packet} : p.isICMP = true ↔ p.proto = 1 ∨ p.proto = 58 := by simp [Packet.isICMP]

/-- The rules of one group of protocols accept by protocol and port. -/
theorem protocols_accept (h : IsWhole b proto src dst off) {t : Str} {lo hi : UInt16} {v6 : Bool} {es : List Expr} {P : Prop}
    (hes : Tests (kernelView b proto src off iif oif ct) es P) (hv6 : P → src.is6 = v6) :
    (∃ rule ∈ (protocolsOf t lo hi v6).map fun q => es ++ protoPorts q lo hi ++ accept,
        verdictOf (kernelView b proto src off iif oif ct) rule = some .accept) ↔
      P ∧ KernelPorts (readPacket b proto src dst off) t lo hi := by
  have hrule : ∀ q ∈ protocolsOf t lo hi v6,
      (verdictOf (kernelView b proto src off iif oif ct) (es ++ protoPorts q lo hi ++ accept) = some .accept ↔
        P ∧ proto = q ∧ (q = 1 ∨ q = 58 ∨ (lo ≤ be16 b (off + 2) ∧ be16 b (off + 2) ≤ hi))) := fun q hq =>
    (hes.append fun _ => tests_protoPorts h (protocolsOf_subset t lo hi v6 hq) lo hi).accept
  have hports : proto ∈ protocolsOf t lo hi v6 →
      (((readPacket b proto src dst off).isICMP = true ∨
          (lo ≤ (readPacket b proto src dst off).dport ∧ (readPacket b proto src dst off).dport ≤ hi)) ↔
        (proto = 1 ∨ proto = 58 ∨ (lo ≤ be16 b (off + 2) ∧ be16 b (off + 2) ≤ hi))) := by
    intro hq
    rw [isICMP_iff, readPacket_proto, or_assoc]
    rcases icmp_or_ports (protocolsOf_subset t lo hi v6 hq) with hp | hp
    · rcases hp with hp | hp
      · simp [hp]
      · simp [hp]
    · rw [readPacket_dport hp]
  simp only [List.mem_map, exists_exists_and_eq_and]
  unfold KernelPorts
  rw [readPacket_proto, readPacket_src]
  grind

theorem ruleExprs_accept (h : IsWhole b proto src dst off) {r : FilterRule} (hr : r.src.WellFormed) :
    (∃ rule ∈ ruleExprs r, verdictOf (kernelView b proto src off iif oif ct) rule = some .accept) ↔
      KernelRule r (readPacket b proto src dst off) := by
  unfold KernelRule ruleExprs
  rw [readPacket_src, readPacket_dst]
  by_cases hguard : r.src.isValid = false ∨ (r.dst.isValid = true ∧ r.dst.is6 ≠ r.src.ip.is6)
  · rw [if_pos hguard]
    constructor
    · intro hx
      obtain ⟨rule, hrule, -⟩ := hx
      cases hrule
    · intro hx
      obtain ⟨hc, hd, -⟩ := hx
      rcases hguard with hinv | ⟨hdv, hne⟩
      · rw [contains_isValid hc] at hinv
        cases hinv
      · refine absurd ?_ hne
        rw [← contains_is6 hr hc, ← h.same_family, ← hd hdv]
        cases r.dst <;> rfl
  · rw [if_neg hguard]
    rw [not_or, Bool.not_eq_false] at hguard
    have hdst : r.src.contains src = true → Tests (kernelView b proto src off iif oif ct)
        (if r.dst.isValid then [daddr r.dst, .cmpEq (asSlice r.dst)] else [])
          (r.dst.isValid = true → r.dst.withoutZone = dst) := by
      intro hc
      by_cases hdv : r.dst.isValid = true
      · have hfam : src.is6 = r.dst.is6 := by
          rw [contains_is6 hr hc]
          by_contra hne
          exact hguard.2 ⟨hdv, fun he => hne he.symm⟩
        obtain ⟨-, hvalid, hzone⟩ := h.plain
        rw [if_pos hdv]
        refine (tests_daddr h hfam (testsAt_cmpEq _ _)).iff ?_
        rw [asSlice_iff hvalid hzone (h.same_family.trans hfam) hdv]
        exact ⟨fun he _ => he, fun he => he hdv⟩
      · rw [if_neg hdv]
        exact fun reg => .inl ⟨fun hv => absurd hv hdv, reg, rfl⟩
    rw [protocols_accept h ((tests_source h hr hguard.1).append hdst) fun hP => contains_is6 hr hP.1, and_assoc]

theorem forwardExprs_accept (h : IsWhole b proto src dst off) {r : ForwardRule} (hsrc : r.src.WellFormed)
    (hdst : r.dst.WellFormed) :
    (∃ rule ∈ forwardExprs (name16 iif) r, verdictOf (kernelView b proto src off iif oif ct) rule = some .accept) ↔
      KernelForward r (readPacket b proto src dst off) := by
  unfold KernelForward forwardExprs
  rw [readPacket_src, readPacket_dst]
  by_cases hguard : r.src.isValid = false ∨ r.dst.isValid = false ∨ r.dst.ip.is6 ≠ r.src.ip.is6
  · rw [if_pos hguard]
    constructor
    · intro hx
      obtain ⟨rule, hrule, -⟩ := hx
      cases hrule
    · intro hx
      obtain ⟨hc, hd, -⟩ := hx
      rcases hguard with hinv | hinv | hne
      · rw [contains_isValid hc] at hinv
        cases hinv
      · rw [contains_isValid hd] at hinv
        cases hinv
      · refine absurd ?_ hne
        rw [← contains_is6 hsrc hc, ← contains_is6 hdst hd, h.same_family]
  · rw [if_neg hguard]
    simp only [not_or, Bool.not_eq_false, not_not] at hguard
    obtain ⟨hsv, hdv, hsame⟩ := hguard
    obtain ⟨-, hvalid, hzone⟩ := h.plain
    have hiif : Tests (kernelView b proto src off iif oif ct) [.meta_ .iifname, .cmpEq (name16 iif)] True := by
      refine tests_meta .iifname ((testsAt_cmpEq _ _).iff (iff_true_intro ?_))
      exact List.take_length
    have hto : r.src.contains src = true → Tests (kernelView b proto src off iif oif ct)
        (if 0 < r.dst.bits then daddr r.dst.ip :: prefixMatch r.dst else []) (r.dst.contains dst = true) := by
      intro hc
      have hfam : src.is6 = r.dst.ip.is6 := (contains_is6 hsrc hc).trans hsame.symm
      by_cases hbits : 0 < r.dst.bits
      · rw [if_pos hbits]
        exact tests_daddr h hfam (testsAt_prefixMatch hdst hdv hvalid hzone (h.same_family.trans hfam))
      · -- a prefix of no bits contains every address of its family
        rw [if_neg hbits]
        have hlen := (is6_eq_iff (hdst hdv).1 hvalid).mpr (h.same_family.trans hfam).symm
        have hall := contains_of_zero_bits hdv (Nat.le_zero.mp (Nat.not_lt.mp hbits)) hvalid hzone hlen
        exact fun reg => .inl ⟨hall, reg, rfl⟩
    rw [protocols_accept h ((hiif.append fun _ => tests_source h hsrc hsv).append fun hP => hto hP.2)
      fun hP => contains_is6 hsrc hP.1.2, true_and, and_assoc]

/-- The bytes of the source are among the elements exactly when its address is, zones apart. -/
theorem mem_elems (h : IsWhole b proto src dst off) {visible : List Addr} {u : Addr} (hu : u.isValid = true)
    (hfam : src.is6 = u.is6) :
    asSlice src ∈ (visible.filter fun a => a.is4 == u.is4 && !a.is4In6).map asSlice ↔
      ∃ a ∈ visible, a.is4In6 = false ∧ a.withoutZone = src := by
  have hslice : ∀ a : Addr, ((a.is4 == u.is4) = true ∧ asSlice a = asSlice src) ↔ a.withoutZone = src := by
    intro a
    cases h.ip with
    | v4 h4 =>
      cases u with
      | zero => cases hu
      | v6 _ _ => cases hfam
      | v4 _ =>
        cases a with
        | zero => simp [Addr.is4, Addr.withoutZone]
        | v6 _ _ => simp [Addr.is4, Addr.withoutZone]
        | v4 x =>
          simp only [Addr.is4, beq_self_eq_true, true_and, asSlice, Addr.withoutZone, Addr.v4.injEq]
          exact ⟨Arr.ext, fun he => by rw [he]⟩
    | v6 h6 =>
      rename_i s d
      cases u with
      | zero => cases hu
      | v4 _ => cases hfam
      | v6 _ _ =>
        cases a with
        | zero =>
          have hne : s.bytes ≠ [] := by
            intro he
            have hsize := s.size
            rw [he] at hsize
            cases hsize
          simp [Addr.is4, Addr.withoutZone, asSlice, hne.symm]
        | v4 _ => simp [Addr.is4, Addr.withoutZone]
        | v6 x z =>
          simp only [Addr.is4, beq_self_eq_true, true_and, asSlice, Addr.withoutZone, Addr.v6.injEq, and_true]
          exact ⟨Arr.ext, fun he => by rw [he]⟩
  grind

theorem visibleExprs_accept (h : IsWhole b proto src dst off) {visible : List Addr} {u : Addr} (hu : u.isValid = true)
    {q echo : UInt8}
    (hq : q = 1 ∨ q = 58) :
    (∃ rule ∈ visibleExprs visible u q echo, verdictOf (kernelView b proto src off iif oif ct) rule = some .accept) ↔
      (src.is6 = u.is6 ∧ proto = q ∧ byteAt b off = echo) ∧ ∃ a ∈ visible, a.is4In6 = false ∧ a.withoutZone = src := by
  unfold visibleExprs
  simp only
  by_cases helems : (visible.filter fun a => a.is4 == u.is4 && !a.is4In6).map asSlice = []
  · rw [if_pos helems]
    constructor
    · intro hx
      obtain ⟨rule, hrule, -⟩ := hx
      cases hrule
    · intro hx
      obtain ⟨⟨hfam, -⟩, hmem⟩ := hx
      rw [← mem_elems h hu hfam, helems] at hmem
      cases hmem
  · rw [if_neg helems]
    simp only [List.mem_singleton, exists_eq_left]
    refine ((((tests_family u).append fun hfam => tests_saddr h hfam (testsAt_lookup _ _)).append fun _ =>
      tests_l4proto q).append fun hP => tests_type h (hP.2 ▸ hq) (testsAt_cmpEq _ _)).accept.trans ?_
    simp only [List.length_singleton, List.take_succ_cons, List.take_zero, List.cons.injEq, and_true]
    constructor
    · intro hx
      obtain ⟨⟨⟨hfam, hmem⟩, hproto⟩, htype⟩ := hx
      exact ⟨⟨hfam, hproto, htype⟩, (mem_elems h hu hfam).mp hmem⟩
    · intro hx
      obtain ⟨⟨hfam, hproto, htype⟩, hmem⟩ := hx
      exact ⟨⟨⟨hfam, (mem_elems h hu hfam).mpr hmem⟩, hproto⟩, htype⟩

theorem addVisible_accept (h : IsWhole b proto src dst off) {visible : List Addr} :
    (∃ rule ∈ addVisible visible, verdictOf (kernelView b proto src off iif oif ct) rule = some .accept) ↔
      KernelVisible visible (readPacket b proto src dst off) := by
  have htype : ∀ t : UInt8, proto = 1 ∨ proto = 58 →
      ((readPacket b proto src dst off).sport = t.toUInt16 ↔ byteAt b off = t) := by
    intro t hproto
    rw [readPacket_type hproto, UInt8.toUInt16_inj]
  have hecho : EchoRequest (readPacket b proto src dst off) ↔
      (src.is6 = false ∧ proto = 1 ∧ byteAt b off = 8) ∨ (src.is6 = true ∧ proto = 58 ∧ byteAt b off = 128) := by
    unfold EchoRequest
    rw [readPacket_src, readPacket_proto]
    refine or_congr (and_congr_right fun _ => and_congr_right fun hp => ?_)
      (and_congr_right fun _ => and_congr_right fun hp => ?_)
    · exact htype 8 (.inl hp)
    · exact htype 128 (.inr hp)
  unfold KernelVisible addVisible
  simp only [List.mem_append, or_and_right, exists_or]
  rw [visibleExprs_accept h rfl (.inl rfl), visibleExprs_accept h rfl (.inr rfl), ← or_and_right, hecho, readPacket_src]
  rfl

/-- The rule for a range of ICMPv6 types. -/
theorem icmp6_accept (h : IsWhole b proto src dst off) (lo hi : UInt8) :
    verdictOf (kernelView b proto src off iif oif ct) (icmp6Exprs lo hi) = some .accept ↔
      src.is6 = true ∧ proto = 58 ∧ lo ≤ byteAt b off ∧ byteAt b off ≤ hi := by
  refine (((tests_family ipv6Unspecified).append fun _ => tests_l4proto 58).append fun hP =>
    tests_type h (.inr hP.2) (testsAt_range _ _ _)).accept.trans ?_
  rw [and_assoc, UInt8.le_iff_toNat_le, UInt8.le_iff_toNat_le]
  simp [beNat, ipv6Unspecified, Addr.is6]

theorem locals_accept (h : IsWhole b proto src dst off) {a : Addr} (ha : a.isValid = true) :
    verdictOf (kernelView b proto src off iif oif ct) (localExprs a) = some .accept ↔
      a.withoutZone = dst := by
  obtain ⟨-, hvalid, hzone⟩ := h.plain
  refine ((tests_family a).append fun hfam => tests_daddr h hfam (testsAt_cmpEq _ _)).accept.trans ?_
  constructor
  · intro hx
    exact (asSlice_iff hvalid hzone (h.same_family.trans hx.1) ha).mp hx.2
  · intro hx
    have hfam : src.is6 = a.is6 := by
      rw [← h.same_family, ← hx]
      cases a <;> rfl
    exact ⟨hfam, (asSlice_iff hvalid hzone (h.same_family.trans hfam) ha).mpr hx⟩

theorem icmp6Always_iff (h : proto = 1 ∨ proto = 58) :
    (readPacket b proto src dst off).icmp6Always = true ↔
      proto = 58 ∧ ((1 ≤ byteAt b off ∧ byteAt b off ≤ 4) ∨ (133 ≤ byteAt b off ∧ byteAt b off ≤ 137)) := by
  unfold Packet.icmp6Always
  rw [readPacket_proto, readPacket_type h]
  simp only [Bool.and_eq_true, Bool.or_eq_true, beq_iff_eq, decide_eq_true_eq, UInt16.le_iff_toNat_le, UInt8.le_iff_toNat_le,
    UInt8.toNat_toUInt16]
  rfl

/-! ## The chains -/

@[simp] theorem drop_not_mem_family (a : Addr) : .verdict .drop ∉ family a := by simp [family]

@[simp] theorem drop_ne_saddr (a : Addr) : .verdict .drop ≠ saddr a := by
  unfold saddr
  split <;> simp

@[simp] theorem drop_ne_daddr (a : Addr) : .verdict .drop ≠ daddr a := by
  unfold daddr
  split <;> simp

@[simp] theorem drop_not_mem_prefixMatch (p : Prefix) : .verdict .drop ∉ prefixMatch p := by
  unfold prefixMatch
  split <;> simp

@[simp] theorem drop_not_mem_protoPorts (q : UInt8) (lo hi : UInt16) : .verdict .drop ∉ protoPorts q lo hi := by
  unfold protoPorts
  repeat' split
  all_goals simp

theorem drop_not_mem_ruleExprs (r : FilterRule) : ∀ rule ∈ ruleExprs r, .verdict .drop ∉ rule := by
  intro rule hrule
  unfold ruleExprs at hrule
  split at hrule
  · cases hrule
  · obtain ⟨q, -, rfl⟩ := List.mem_map.mp hrule
    split <;> simp [accept]

theorem drop_not_mem_forwardExprs (iface : List UInt8) (r : ForwardRule) :
    ∀ rule ∈ forwardExprs iface r, .verdict .drop ∉ rule := by
  intro rule hrule
  unfold forwardExprs at hrule
  split at hrule
  · cases hrule
  · obtain ⟨q, -, rfl⟩ := List.mem_map.mp hrule
    split <;> simp [accept]

theorem drop_not_mem_visibleExprs (visible : List Addr) (u : Addr) (q echo : UInt8) :
    ∀ rule ∈ visibleExprs visible u q echo, .verdict .drop ∉ rule := by
  intro rule hrule
  unfold visibleExprs at hrule
  simp only at hrule
  split at hrule
  · cases hrule
  · rw [List.mem_singleton.mp hrule]
    simp [accept]

theorem drop_not_mem_chainRules (set : FilterSet) : ∀ rule ∈ chainRules set, .verdict .drop ∉ rule := by
  intro rule hrule
  unfold chainRules at hrule
  simp only [List.mem_cons, List.mem_append, List.mem_flatMap, addVisible] at hrule
  rcases hrule with ((h | h) | h | h | h | h | h) | ⟨r, -, h⟩
  · rw [h]
    simp [accept]
  · split at h
    · obtain ⟨a, -, rfl⟩ := List.mem_map.mp h
      simp [localExprs, accept]
    · cases h
  · rw [h]
    simp [established]
  · rw [h]
    simp [icmp6Exprs, accept]
  · rw [h]
    simp [icmp6Exprs, accept]
  · exact drop_not_mem_visibleExprs _ _ _ _ rule h
  · exact drop_not_mem_visibleExprs _ _ _ _ rule h
  · exact drop_not_mem_ruleExprs r rule h

/-- What a set's own chain accepts. -/
theorem ownChain_accept (hset : set.WellFormed) (h : IsWhole b proto src dst off) (hct : ct &&& 6 = 0) :
    (ownChain set).run (kernelView b proto src off iif oif ct) = .accept ↔
      name16 (if set.hook = .forward then oif else iif) ≠ ifname set.interface ∨
        (set.hook = .forward ∧ ∃ a ∈ set.locals, a.withoutZone = dst) ∨ KernelNew set (readPacket b proto src dst off) := by
  rw [run_accept rfl (drop_not_mem_chainRules set)]
  unfold chainRules KernelNew
  have hname : verdictOf (kernelView b proto src off iif oif ct)
      ([.meta_ (if set.hook = .forward then .oifname else .iifname), .cmpNeq (ifname set.interface)] ++ accept) = some .accept ↔
        name16 (if set.hook = .forward then oif else iif) ≠ ifname set.interface := by
    refine (tests_name _ ?_ _).accept.trans ?_
    · split
      · exact .inr rfl
      · exact .inl rfl
    · split <;> rfl
  have hlocals : (∃ rule ∈ if set.hook = .forward then set.locals.map localExprs else [],
      verdictOf (kernelView b proto src off iif oif ct) rule = some .accept) ↔
        set.hook = .forward ∧ ∃ a ∈ set.locals, a.withoutZone = dst := by
    by_cases hf : set.hook = .forward
    · simp only [hf, if_true, List.mem_map, exists_exists_and_eq_and, true_and]
      refine exists_congr fun a => and_congr_right fun ha => locals_accept h ?_
      exact (List.mem_filter.mp ha).2
    · simp [hf]
  have hrules : (∃ rule ∈ set.rules.flatMap ruleExprs, verdictOf (kernelView b proto src off iif oif ct) rule = some .accept) ↔
      ∃ r ∈ set.rules, KernelRule r (readPacket b proto src dst off) := by
    rw [accepts_flatMap]
    exact exists_congr fun r => and_congr_right fun hr => ruleExprs_accept h (hset.rules r hr)
  have hicmp : (verdictOf (kernelView b proto src off iif oif ct) (icmp6Exprs 1 4) = some .accept ∨
      verdictOf (kernelView b proto src off iif oif ct) (icmp6Exprs 133 137) = some .accept) ↔
        src.is6 = true ∧ (readPacket b proto src dst off).icmp6Always = true := by
    rw [icmp6_accept h, icmp6_accept h, ← and_or_left, ← and_or_left]
    by_cases hp : proto = 58
    · rw [icmp6Always_iff (.inr hp)]
    · simp [hp, Packet.icmp6Always]
  simp only [List.mem_cons, List.mem_append, or_and_right, exists_or, exists_eq_left]
  rw [hname, hlocals, addVisible_accept h, hrules, established_none hct, readPacket_src, ← hicmp]
  simp only [reduceCtorEq, false_or, or_assoc]

/-- What a router's forward chain accepts of what enters over the interface. -/
theorem routerForward_accept (hset : set.WellFormed) (h : IsWhole b proto src dst off) (hct : ct &&& 6 = 0) :
    (routerForward set).run (kernelView b proto src off set.interface oif ct) = .accept ↔
      ∃ r ∈ set.forward, KernelForward r (readPacket b proto src dst off) := by
  have hnames : verdictOf (kernelView b proto src off set.interface oif ct) ([.meta_ .iifname, .cmpNeq (ifname set.interface)] ++
      [.meta_ .oifname, .cmpNeq (ifname set.interface)] ++ accept) ≠ some .accept := by
    intro hx
    exact (((tests_name .iifname (.inl rfl) _).append fun _ => tests_name .oifname (.inr rfl) _).accept.mp hx).1 rfl
  rw [run_accept rfl ?_]
  · simp only [List.mem_cons, or_and_right, exists_or, exists_eq_left, hnames, established_none hct, reduceCtorEq, false_or]
    rw [accepts_flatMap]
    exact exists_congr fun r => and_congr_right fun hr => forwardExprs_accept h (hset.forward r hr).1 (hset.forward r hr).2
  · intro rule hrule
    simp only [List.mem_cons, List.mem_flatMap] at hrule
    rcases hrule with h | h | ⟨r, -, h⟩
    · rw [h]
      simp [accept]
    · rw [h]
      simp [established]
    · exact drop_not_mem_forwardExprs _ r rule h

/-- On the input hook only the set's own chain decides. -/
theorem passes_input (hhook : set.hook = .input) (honly : set.routerOnly = false) (k : Pkt) :
    passes (buildRuleset set).1 .input k = true ↔ (ownChain set).run k = .accept := by
  have hrouter : passes (buildRouterChains set).1 .input k = true := by
    unfold passes buildRouterChains
    split <;> rfl
  unfold buildRuleset
  rw [honly]
  simp only [Bool.false_eq_true, if_false]
  split
  · rw [passes, List.all_cons, ← passes, hrouter, Bool.and_true]
    simp [ownChain, hhook]
  · simp [passes, ownChain, hhook]

def FilterSet.Router (set : FilterSet) : Prop := set.routerOnly = true ∨ set.forward ≠ [] ∨ set.masquerade ≠ []

/-- On the forward hook a client's packets are decided by the router's chain, if there is one. -/
theorem passes_forward_input (hhook : set.hook = .input) (k : Pkt) :
    passes (buildRuleset set).1 .forward k = true ↔ (set.Router → (routerForward set).run k = .accept) := by
  have hrouter : passes (buildRouterChains set).1 .forward k = true ↔ (routerForward set).run k = .accept := by
    have hfirst : (routerForward set).hook = .forward ∧ (routerForward set).kind = .filter := ⟨rfl, rfl⟩
    unfold passes buildRouterChains
    split <;> simp [hfirst]
  have hown : (ownChain set).hook = .input := by simp [ownChain, hhook]
  unfold buildRuleset FilterSet.Router
  by_cases honly : set.routerOnly = true
  · simp [honly, hrouter]
  · by_cases hr : set.forward ≠ [] ∨ set.masquerade ≠ []
    · simp only [honly, hhook, hr, and_self, if_true, Bool.false_eq_true, if_false, or_true, true_imp_iff]
      rw [passes, List.all_cons, ← passes, ← hrouter]
      simp [hown]
    · simp only [honly, hr, and_false, Bool.false_eq_true, if_false, or_self, false_imp_iff, iff_true]
      simp [passes, hown]

/-- On the forward hook a hub's packets are decided by its own chain. -/
theorem passes_forward_hub (hset : set.WellFormed) (hhook : set.hook = .forward) (k : Pkt) :
    passes (buildRuleset set).1 .forward k = true ↔ (ownChain set).run k = .accept := by
  have honly : set.routerOnly = false := by
    cases ho : set.routerOnly with
    | false => rfl
    | true =>
      rw [hset.routerOnly ho] at hhook
      cases hhook
  simp [buildRuleset, honly, hhook, passes, ownChain]

end

end Thawr.Wg
