/-
  Thawr.Wg.Backends — the kernel filter and the userspace filter of one set
  (`internal/wg/nft_linux.go` against `internal/wg/filter.go`).

  Both see the same well-formed packet, which belongs to no flow. They agree on the ordinary
  part of what they accept (`Ordinary`); the kernel filter also takes a protocol it does not
  know for any, ignores zones, and the userspace filter does not look at the family of ICMP
  (`KernelOnly`, `UserOnly`).

  Proved: for a packet for this host the two decide alike exactly when neither difference
  shows (`input_agrees_iff`). The kernel forwards no more than the userspace filter accepts
  exactly when a router's chains are installed and, on a hub, the packet does not leave by
  another interface (`forward_within_iff`).
-/

import Thawr.Wg.Kernel

namespace Thawr.Wg

open Go Netip Nft

section

variable {b : List UInt8} {proto : UInt8} {src dst : Addr} {off : Nat} {iif oif : Str} {ct : UInt32} {set : FilterSet}

/-! ## Where the two differ -/

def known (proto : Str) : Bool := [protoAny, protoTCP, protoUDP, protoICMP].contains proto

/-- What the kernel filter takes a rule's protocol for. -/
def kernelProto (proto : Str) : Str := if known proto then proto else protoAny

def MixedICMP (p : Packet) : Prop := (p.proto = 58 ∧ p.src.is6 = false) ∨ (p.proto = 1 ∧ p.src.is6 = true)

variable {p : Packet} {t : Str} {lo hi : UInt16}

theorem portsAllow_cases :
    portsAllow p t lo hi = true ↔
      (p.isICMP = true ∧ (t = protoICMP ∨ (t = protoAny ∧ lo ≤ 1 ∧ hi = 65535))) ∨
        (((p.proto = 6 ∧ (t = protoTCP ∨ t = protoAny)) ∨ (p.proto = 17 ∧ (t = protoUDP ∨ t = protoAny))) ∧
          lo ≤ p.dport ∧ p.dport ≤ hi) := by
  unfold portsAllow
  by_cases hicmp : p.isICMP = true
  · have hp := isICMP_iff.mp hicmp
    have h6 : p.proto ≠ 6 := by rcases hp with hp | hp <;> rw [hp] <;> decide
    have h17 : p.proto ≠ 17 := by rcases hp with hp | hp <;> rw [hp] <;> decide
    simp [hicmp, h6, h17, and_assoc]
  · rw [if_neg hicmp]
    simp only [hicmp, Bool.false_eq_true, false_and, false_or]
    split
    · rename_i hp
      simp only [Bool.or_eq_true, Bool.and_eq_true, beq_iff_eq] at hp
      simp [hp]
    · rename_i hp
      simp only [Bool.or_eq_true, Bool.and_eq_true, beq_iff_eq] at hp
      simp [hp]

theorem known_iff : known t = true ↔ t = protoAny ∨ t = protoTCP ∨ t = protoUDP ∨ t = protoICMP := by simp [known]

theorem portsAllow_known (h : portsAllow p t lo hi = true) : known t = true := by
  rw [known_iff]
  rcases portsAllow_cases.mp h with ⟨-, ht | ⟨ht, -⟩⟩ | ⟨⟨-, ht | ht⟩ | ⟨-, ht | ht⟩, -⟩ <;> simp [ht]

/-- An unknown protocol opens to the kernel what any does. -/
theorem mem_protocolsOf_iff {v6 : Bool} {q : UInt8} :
    q ∈ protocolsOf t lo hi v6 ↔
      (q = 6 ∧ (kernelProto t = protoTCP ∨ kernelProto t = protoAny)) ∨
        (q = 17 ∧ (kernelProto t = protoUDP ∨ kernelProto t = protoAny)) ∨
        ((q = if v6 then 58 else 1) ∧ (kernelProto t = protoICMP ∨ (kernelProto t = protoAny ∧ lo ≤ 1 ∧ hi = 65535))) := by
  have hne : protoTCP ≠ protoAny ∧ protoUDP ≠ protoAny ∧ protoICMP ≠ protoAny ∧ protoTCP ≠ protoUDP ∧ protoTCP ≠ protoICMP ∧
      protoUDP ≠ protoICMP := by decide
  obtain ⟨hta, hua, hia, htu, hti, hui⟩ := hne
  unfold protocolsOf
  by_cases htcp : t = protoTCP
  · have hk : kernelProto t = protoTCP := by rw [htcp]; decide
    rw [hk, if_pos htcp]
    simp [hta, htu, hti]
  · by_cases hudp : t = protoUDP
    · have hk : kernelProto t = protoUDP := by rw [hudp]; decide
      rw [hk, if_neg htcp, if_pos hudp]
      simp [hua, htu.symm, hui]
    · by_cases hicmp : t = protoICMP
      · have hk : kernelProto t = protoICMP := by rw [hicmp]; decide
        rw [hk, if_neg htcp, if_neg hudp, if_pos hicmp]
        simp [hia, hti.symm, hui.symm]
      · have hk : kernelProto t = protoAny := by
          unfold kernelProto
          split
          · rename_i hknown
            simpa [htcp, hudp, hicmp] using known_iff.mp hknown
          · rfl
        grind

/-- Unknown protocols apart, the two backends agree on the ports a rule opens. -/
theorem kernelPorts_iff :
    KernelPorts p t lo hi ↔ ¬MixedICMP p ∧ portsAllow p (kernelProto t) lo hi = true := by
  have hicmp : (p.proto = if p.src.is6 then 58 else 1) ↔ ¬MixedICMP p ∧ p.isICMP = true := by
    unfold MixedICMP
    rw [isICMP_iff]
    cases p.src.is6 with
    | false => grind
    | true => grind
  have hports : p.proto = 6 ∨ p.proto = 17 → ¬MixedICMP p ∧ ¬p.isICMP = true := by
    intro hp
    unfold MixedICMP
    rw [isICMP_iff]
    rcases hp with hp | hp <;> simp [hp]
  unfold KernelPorts
  rw [mem_protocolsOf_iff, portsAllow_cases, hicmp]
  grind

/-! ## New connections -/

def Echo (p : Packet) : Prop := p.isICMP = true ∧ p.sport = p.echoRequest

/-- An ICMP error the userspace filter accepts from visible peers. -/
def ICMPError (p : Packet) : Prop := p.proto = 1 ∧ (p.sport = 3 ∨ p.sport = 11 ∨ p.sport = 12)

def UserRule (r : FilterRule) (p : Packet) : Prop :=
  r.src.contains p.src = true ∧ (r.dst.isValid = true → r.dst = p.dst) ∧ portsAllow p r.proto r.lo r.hi = true

def UserForward (r : ForwardRule) (p : Packet) : Prop :=
  r.src.contains p.src = true ∧ r.dst.contains p.dst = true ∧ portsAllow p r.proto r.lo r.hi = true

/-- A rule whose protocol is unknown, or whose destination has a zone, lets a packet through
    the kernel filter. -/
def UnusualRule (r : FilterRule) (p : Packet) : Prop :=
  (known r.proto = false ∨ r.dst.zone ≠ []) ∧ r.src.contains p.src = true ∧
    (r.dst.isValid = true → r.dst.withoutZone = p.dst) ∧ portsAllow p (kernelProto r.proto) r.lo r.hi = true

/-- What both filters accept. -/
def Ordinary (set : FilterSet) (p : Packet) : Prop :=
  ¬MixedICMP p ∧ (p.icmp6Always = true ∨ (Echo p ∧ p.src ∈ set.visible ∧ p.src.is4In6 = false) ∨ ∃ r ∈ set.rules, UserRule r p)

/-- What the kernel filter accepts besides: an echo request from a visible address with a
    zone, and what an unusual rule opens. -/
def KernelOnly (set : FilterSet) (p : Packet) : Prop :=
  ¬MixedICMP p ∧ ((Echo p ∧ ∃ a ∈ set.visible, a.is4In6 = false ∧ a.zone ≠ [] ∧ a.withoutZone = p.src) ∨
    ∃ r ∈ set.rules, UnusualRule r p)

/-- What the userspace filter accepts besides: ICMP errors from visible addresses, an echo
    request from a visible address that is IPv4-mapped, and ICMP over the other family. -/
def UserOnly (set : FilterSet) (p : Packet) : Prop :=
  (p.src ∈ set.visible ∧ (ICMPError p ∨ (Echo p ∧ (MixedICMP p ∨ p.src.is4In6 = true)))) ∨
    (MixedICMP p ∧ (p.icmp6Always = true ∨ ∃ r ∈ set.rules, UserRule r p))

theorem echoRequest_iff : EchoRequest p ↔ ¬MixedICMP p ∧ Echo p := by
  unfold EchoRequest MixedICMP Echo Packet.echoRequest
  rw [isICMP_iff]
  grind

theorem plain_withoutZone {a x : Addr} (hx : x.zone = []) : a.withoutZone = x ↔ a = x ∨ (a.zone ≠ [] ∧ a.withoutZone = x) := by
  by_cases hz : a.zone = []
  · rw [zone_nil hz]
    simp [hz]
  · grind

theorem isValid_of_zone {a : Addr} (h : a.zone ≠ []) : a.isValid = true := by
  cases a with
  | zero => exact absurd rfl h
  | v4 b => rfl
  | v6 b z => rfl

theorem kernelRule_iff {r : FilterRule} (hdst : p.dst.zone = []) :
    KernelRule r p ↔ ¬MixedICMP p ∧ (UserRule r p ∨ UnusualRule r p) := by
  have hopens : KernelRule r p ↔ ¬MixedICMP p ∧ r.src.contains p.src = true ∧ (r.dst.isValid = true → r.dst.withoutZone = p.dst) ∧
      portsAllow p (kernelProto r.proto) r.lo r.hi = true := by
    unfold KernelRule
    rw [kernelPorts_iff, and_left_comm (b := ¬MixedICMP p), and_left_comm (b := ¬MixedICMP p)]
  rw [hopens]
  refine and_congr_right fun _ => ?_
  by_cases hu : known r.proto = false ∨ r.dst.zone ≠ []
  · -- what an unusual rule opens is closed to the userspace filter
    have hno : ¬UserRule r p := by
      intro h
      obtain ⟨-, hd, hports⟩ := h
      rcases hu with hk | hz
      · rw [portsAllow_known hports] at hk
        cases hk
      · exact hz (hd (isValid_of_zone hz) ▸ hdst)
    unfold UnusualRule
    simp only [hno, hu, false_or, true_and]
  · have hno : ¬UnusualRule r p := fun h => hu h.1
    simp only [not_or, Bool.not_eq_false, not_not] at hu
    have hproto : kernelProto r.proto = r.proto := if_pos hu.1
    unfold UserRule
    rw [hproto, zone_nil hu.2]
    simp only [hno, or_false]

/-- The kernel filter accepts the ordinary part and its own. -/
theorem kernelNew_iff (hsrc : p.src.zone = []) (hdst : p.dst.zone = []) :
    KernelNew set p ↔ Ordinary set p ∨ KernelOnly set p := by
  have halways : p.src.is6 = true ∧ p.icmp6Always = true ↔ ¬MixedICMP p ∧ p.icmp6Always = true := by
    refine and_congr_left fun h => ?_
    have h58 : p.proto = 58 := by
      simp only [Packet.icmp6Always, Bool.and_eq_true, beq_iff_eq] at h
      exact h.1
    simp [MixedICMP, h58]
  have hvisible : KernelVisible set.visible p ↔ ¬MixedICMP p ∧ ((Echo p ∧ p.src ∈ set.visible ∧ p.src.is4In6 = false) ∨
      (Echo p ∧ ∃ a ∈ set.visible, a.is4In6 = false ∧ a.zone ≠ [] ∧ a.withoutZone = p.src)) := by
    unfold KernelVisible
    rw [echoRequest_iff, and_assoc, ← and_or_left]
    refine and_congr_right fun _ => and_congr_right fun _ => ?_
    constructor
    · intro h
      obtain ⟨a, ha, h4, he⟩ := h
      rcases (plain_withoutZone hsrc).mp he with rfl | ⟨hz, he⟩
      · exact .inl ⟨ha, h4⟩
      · exact .inr ⟨a, ha, h4, hz, he⟩
    · intro h
      rcases h with ⟨ha, h4⟩ | ⟨a, ha, h4, -, he⟩
      · exact ⟨p.src, ha, h4, zone_nil hsrc⟩
      · exact ⟨a, ha, h4, he⟩
  have hrules : (∃ r ∈ set.rules, KernelRule r p) ↔ ¬MixedICMP p ∧
    ((∃ r ∈ set.rules, UserRule r p) ∨ ∃ r ∈ set.rules, UnusualRule r p) := by
    simp only [kernelRule_iff hdst, ← exists_or, ← and_or_left]
    grind
  unfold KernelNew Ordinary KernelOnly
  grind

/-- What the userspace filter decides by on a packet for this host, or on the hub. -/
def UserNew (set : FilterSet) (p : Packet) : Prop :=
  p.icmp6Always = true ∨ (p.src ∈ set.visible ∧ (Echo p ∨ ICMPError p)) ∨ ∃ r ∈ set.rules, UserRule r p

theorem rulesAllow_user : rulesAllow set p = true ↔ ∃ r ∈ set.rules, UserRule r p := by
  unfold rulesAllow UserRule
  grind

theorem forwardAllows_user : forwardAllows set p = true ↔ ∃ r ∈ set.forward, UserForward r p := by
  unfold forwardAllows UserForward
  simp only [List.any_eq_true, Bool.and_eq_true, and_assoc]

theorem decideNew_user (h : set.hook = .input → set.localIP.isValid = true → isLocal set p.dst = true) :
    PacketFilter.decideNew set p = true ↔ UserNew set p := by
  have hbranch : (set.hook == .input && set.localIP.isValid && !isLocal set p.dst) = false := by grind
  have htypes : (p.proto == 1 && (p.sport == 8 || p.sport == 3 || p.sport == 11 || p.sport == 12) || p.proto == 58 &&
    p.sport == 128) = true ↔
      Echo p ∨ ICMPError p := by
    unfold Echo ICMPError Packet.echoRequest
    rw [isICMP_iff]
    grind
  unfold PacketFilter.decideNew UserNew
  rw [hbranch, if_neg Bool.false_ne_true, Bool.or_eq_true, Bool.or_eq_true, Bool.and_eq_true, htypes, rulesAllow_user,
    List.contains_iff_mem,
    or_assoc]

/-- The userspace filter accepts the ordinary part and its own. -/
theorem userNew_iff : UserNew set p ↔ Ordinary set p ∨ UserOnly set p := by
  unfold UserNew Ordinary UserOnly
  constructor
  · intro h
    by_cases hm : MixedICMP p
    · rcases h with ha | ⟨hv, he | hi⟩ | hr
      · exact .inr (.inr ⟨hm, .inl ha⟩)
      · exact .inr (.inl ⟨hv, .inr ⟨he, .inl hm⟩⟩)
      · exact .inr (.inl ⟨hv, .inl hi⟩)
      · exact .inr (.inr ⟨hm, .inr hr⟩)
    · rcases h with ha | ⟨hv, he | hi⟩ | hr
      · exact .inl ⟨hm, .inl ha⟩
      · cases h4 : p.src.is4In6 with
        | false => exact .inl ⟨hm, .inr (.inl ⟨he, hv, rfl⟩)⟩
        | true => exact .inr (.inl ⟨hv, .inr ⟨he, .inr rfl⟩⟩)
      · exact .inr (.inl ⟨hv, .inl hi⟩)
      · exact .inl ⟨hm, .inr (.inr hr)⟩
  · intro h
    rcases h with ⟨-, ha | ⟨he, hv, -⟩ | hr⟩ | ⟨hv, hi | ⟨he, -⟩⟩ | ⟨-, ha | hr⟩
    · exact .inl ha
    · exact .inr (.inl ⟨hv, .inl he⟩)
    · exact .inr (.inr hr)
    · exact .inr (.inl ⟨hv, .inr hi⟩)
    · exact .inr (.inl ⟨hv, .inl he⟩)
    · exact .inl ha
    · exact .inr (.inr hr)

/-- What a set's own chain accepts of a well-formed packet. -/
theorem ownChain_new (hset : set.WellFormed) (h : IsWhole b proto src dst off) (hct : ct &&& 6 = 0) :
    (ownChain set).run (kernelView b proto src off iif oif ct) = .accept ↔
      name16 (if set.hook = .forward then oif else iif) ≠ ifname set.interface ∨
        (set.hook = .forward ∧ ∃ a ∈ set.locals, a.withoutZone = dst) ∨
          Ordinary set (readPacket b proto src dst off) ∨ KernelOnly set (readPacket b proto src dst off) := by
  obtain ⟨⟨-, hsz⟩, -, hdz⟩ := h.plain
  have hs : (readPacket b proto src dst off).src.zone = [] := by rw [readPacket_src, hsz]
  have hd : (readPacket b proto src dst off).dst.zone = [] := by rw [readPacket_dst, hdz]
  rw [ownChain_accept hset h hct, kernelNew_iff hs hd]

/-- What the userspace filter accepts of a well-formed packet on the side of the set's hook:
    for this host on a client, for another on the hub. -/
theorem allow_user (h : IsWhole b proto src dst off) (hside : set.hook = .input ↔ isLocal set dst = true)
    {f : PacketFilter} {now : Int}
    (hf : f.set = some set) (hflow : NoFlow f now b) :
    (f.allow now b).2 = true ↔ Ordinary set (readPacket b proto src dst off) ∨ UserOnly set (readPacket b proto src dst off) := by
  have hbypass : (set.hook == .forward && isLocal set (readPacket b proto src dst off).dst) = false := by
    rw [readPacket_dst]
    grind
  rw [allow_new hf (parsePacket_whole h) hflow, hbypass, Bool.false_or, decideNew_user (fun hin _ => ?_), userNew_iff]
  rw [readPacket_dst]
  exact hside.mp hin

/-! ## Packets for this host -/

/-- For a packet that arrives over the interface for this host, the two backends decide alike
    exactly when it is an ordinary one or neither accepts it for its own reasons alone. -/
theorem input_agrees_iff (hset : set.WellFormed) (hhook : set.hook = .input) (honly : set.routerOnly = false)
    (h : IsWhole b proto src dst off) (hlocal : isLocal set dst = true) (hct : ct &&& 6 = 0) {f : PacketFilter} {now : Int}
    (hf : f.set = some set) (hflow : NoFlow f now b) :
    passes (buildRuleset set).1 .input (kernelView b proto src off set.interface oif ct) = (f.allow now b).2 ↔
      Ordinary set (readPacket b proto src dst off) ∨
        (KernelOnly set (readPacket b proto src dst off) ↔ UserOnly set (readPacket b proto src dst off)) := by
  have hkernel : passes (buildRuleset set).1 .input (kernelView b proto src off set.interface oif ct) = true ↔
      Ordinary set (readPacket b proto src dst off) ∨ KernelOnly set (readPacket b proto src dst off) := by
    have hname : name16 set.interface = ifname set.interface := rfl
    rw [passes_input hhook honly, ownChain_new hset h hct]
    simp [hhook, hname]
  rw [Bool.eq_iff_iff, hkernel, allow_user h ⟨fun _ => hlocal, fun _ => hhook⟩ hf hflow]
  by_cases ho : Ordinary set (readPacket b proto src dst off)
  · simp [ho]
  · simp [ho]

end

def syn22 (dst : Arr 4) : List UInt8 :=
  [0x45, 0, 0, 40, 0, 0, 0, 0, 64, 6, 0, 0, 10, 0, 0, 1] ++ (dst.bytes ++
    [0xc0, 0, 0, 22, 0, 0, 0, 0, 0, 0, 0, 0, 0x50, 2, 0, 0, 0, 0, 0, 0])

def client : Addr := .v4 (Arr.ofNat 4 0x0a000001)

def host : Addr := .v4 (Arr.ofNat 4 0x0a000002)

def sshOver (proto : Str) : FilterSet where
  interface := str "thawr0"
  localIP := host
  rules := [{ src := prefixFrom client 32, proto := proto, lo := 22, hi := 22 }]

theorem sshOver_wellFormed (proto : Str) : (sshOver proto).WellFormed where
  rules r hr := by
    rw [List.mem_singleton.mp hr]
    exact wellFormed_prefixFrom _ _
  forward r hr := by cases hr
  routerOnly h := by cases h

theorem syn22_whole : IsWhole (syn22 (Arr.ofNat 4 0x0a000002)) 6 client host 20 :=
  ⟨.v4 ⟨by decide, by decide, by decide, by decide, by decide, by decide, by decide, by decide⟩, by decide⟩

theorem noFlow_new (set : FilterSet) (b : List UInt8) : NoFlow { set := some set } 0 b :=
    fun p _ => by rw [reply_no_flow fun _ => rfl]

/-- A rule for TCP is the same to both backends. -/
theorem ssh_tcp_agrees :
    passes (buildRuleset (sshOver protoTCP)).1 .input
        (kernelView (syn22 (Arr.ofNat 4 0x0a000002)) 6 client 20 (str "thawr0") [] 0) =
      (PacketFilter.allow { set := some (sshOver protoTCP) } 0 (syn22 (Arr.ofNat 4 0x0a000002))).2 := by
  refine (input_agrees_iff (sshOver_wellFormed _) rfl rfl syn22_whole (by decide) (by decide) rfl (noFlow_new _ _)).mpr (.inl ?_)
  refine ⟨?_, .inr (.inr ⟨_, List.mem_singleton_self _, by decide +kernel, fun h => (by cases h), by decide +kernel⟩)⟩
  intro h
  rcases h with h | h
  · exact absurd h.1 (by decide +kernel)
  · exact absurd h.1 (by decide +kernel)

/-- A rule for a protocol neither backend knows: the kernel filter lets TCP in, the userspace
    filter nothing. -/
theorem sctp_rule_admits_tcp :
    (sshOver (str "sctp")).hook = .input ∧ IsWhole (syn22 (Arr.ofNat 4 0x0a000002)) 6 client host 20 ∧
      isLocal (sshOver (str "sctp")) host = true ∧
      passes (buildRuleset (sshOver (str "sctp"))).1 .input
        (kernelView (syn22 (Arr.ofNat 4 0x0a000002)) 6 client 20 (str "thawr0") [] 0) = true ∧
      (PacketFilter.allow { set := some (sshOver (str "sctp")) } 0 (syn22 (Arr.ofNat 4 0x0a000002))).2 = false :=
  ⟨rfl, syn22_whole, by decide, by decide +kernel, by decide +kernel⟩

/-! ## Packets that are forwarded -/

section

variable {b : List UInt8} {proto : UInt8} {src dst : Addr} {off : Nat} {oif : Str} {ct : UInt32} {set : FilterSet}

/-- A forward rule with an unknown protocol lets a packet through the kernel filter. -/
def UnusualForward (r : ForwardRule) (p : Packet) : Prop :=
  known r.proto = false ∧ ¬MixedICMP p ∧ r.src.contains p.src = true ∧ r.dst.contains p.dst = true ∧
    portsAllow p protoAny r.lo r.hi = true

theorem kernelForward_iff {r : ForwardRule} {p : Packet} :
    KernelForward r p ↔ (¬MixedICMP p ∧ UserForward r p) ∨ UnusualForward r p := by
  have hopens : KernelForward r p ↔ ¬MixedICMP p ∧ r.src.contains p.src = true ∧ r.dst.contains p.dst = true ∧
      portsAllow p (kernelProto r.proto) r.lo r.hi = true := by
    unfold KernelForward
    rw [kernelPorts_iff, and_left_comm (b := ¬MixedICMP p), and_left_comm (b := ¬MixedICMP p)]
  rw [hopens]
  by_cases hk : known r.proto = true
  · have hproto : kernelProto r.proto = r.proto := if_pos hk
    have hno : ¬UnusualForward r p := fun h => by simp [UnusualForward, hk] at h
    unfold UserForward
    simp only [hproto, hno, or_false]
  · have hproto : kernelProto r.proto = protoAny := if_neg hk
    have hno : ¬UserForward r p := fun h => hk (portsAllow_known h.2.2)
    rw [Bool.not_eq_true] at hk
    unfold UnusualForward
    simp only [hproto, hno, hk, and_false, false_or, true_and]

/-- When the kernel forwards no more of a packet than the userspace filter accepts. A client
    needs its router chains, and what a forward rule with an unknown protocol lets pass a rule
    of a known one has to let pass. On the hub, what leaves by another interface, or is for a
    local address with a zone, or is accepted by the kernel filter alone, the userspace filter
    has to accept. -/
def ForwardWithin (set : FilterSet) (oif : Str) (p : Packet) : Prop :=
  match set.hook with
  | .input => set.Router ∧ ((∃ r ∈ set.forward, UnusualForward r p) → ∃ r ∈ set.forward, UserForward r p)
  | .forward =>
    (ifname oif ≠ ifname set.interface ∨ (∃ a ∈ set.locals, a.zone ≠ [] ∧ a.withoutZone = p.dst) ∨ KernelOnly set p) →
      Ordinary set p ∨ UserOnly set p

/-- A local address that is the destination but for a zone has one, as the destination is not local. -/
theorem locals_zoned (h : IsWhole b proto src dst off) (hlocal : isLocal set dst = false) :
    (∃ a ∈ set.locals, a.withoutZone = dst) ↔ ∃ a ∈ set.locals, a.zone ≠ [] ∧ a.withoutZone = dst := by
  obtain ⟨-, -, hdz⟩ := h.plain
  have hne : ∀ a ∈ set.locals, a ≠ dst := by
    intro a ha he
    simp only [FilterSet.locals, List.mem_filter, List.mem_cons, List.not_mem_nil, or_false] at ha
    rw [← he] at hlocal
    obtain ⟨rfl | rfl, hv⟩ := ha
    · simp [isLocal] at hlocal
    · simp [isLocal, hv] at hlocal
  refine exists_congr fun a => and_congr_right fun ha => ?_
  rw [plain_withoutZone hdz]
  simp only [hne a ha, false_or, and_self_left]

/-- On a client the userspace filter forwards by the forward rules alone. -/
theorem allow_forward (hhook : set.hook = .input) (hvalid : set.localIP.isValid = true) (h : IsWhole b proto src dst off)
    (hlocal : isLocal set dst = false) {f : PacketFilter} {now : Int} (hf : f.set = some set) (hflow : NoFlow f now b) :
    (f.allow now b).2 = true ↔ ∃ r ∈ set.forward, UserForward r (readPacket b proto src dst off) := by
  rw [allow_new hf (parsePacket_whole h) hflow, ← forwardAllows_user]
  simp [PacketFilter.decideNew, hhook, hvalid, hlocal]

/-- For a packet that enters over the interface and is not for this host, passing the kernel's
    forward hook implies being accepted by the userspace filter exactly when
    `ForwardWithin`. -/
theorem forward_within_iff (hset : set.WellFormed) (hvalid : set.localIP.isValid = true) (h : IsWhole b proto src dst off)
    (hlocal : isLocal set dst = false) (hct : ct &&& 6 = 0) {f : PacketFilter} {now : Int} (hf : f.set = some set)
    (hflow : NoFlow f now b) :
    (passes (buildRuleset set).1 .forward (kernelView b proto src off set.interface oif ct) = true → (f.allow now b).2 = true) ↔
      ForwardWithin set oif (readPacket b proto src dst off) := by
  unfold ForwardWithin
  cases hhook : set.hook with
  | input =>
    rw [passes_forward_input hhook, routerForward_accept hset h hct, allow_forward hhook hvalid h hlocal hf hflow]
    simp only [kernelForward_iff, and_or_left, exists_or]
    by_cases hr : set.Router
    · grind
    · have hnone : set.forward = [] := by
        unfold FilterSet.Router at hr
        simp only [not_or, not_not] at hr
        exact hr.2.1
      simp [hr, hnone]
  | forward =>
    have hside : set.hook = .input ↔ isLocal set dst = true := by simp [hhook, hlocal]
    rw [passes_forward_hub hset hhook, ownChain_new hset h hct, allow_user h hside hf hflow, locals_zoned h hlocal,
      readPacket_dst]
    simp only [hhook, if_true, true_and]
    constructor
    · intro hx hy
      refine hx ?_
      rcases hy with hy | hy | hy
      · exact .inl hy
      · exact .inr (.inl hy)
      · exact .inr (.inr (.inr hy))
    · intro hx hy
      rcases hy with hy | hy | hy | hy
      · exact hx (.inl hy)
      · exact hx (.inr (.inl hy))
      · exact .inl hy
      · exact hx (.inr (.inr hy))

end

/-- A packet from 10.0.0.1 for 192.168.7.9, in a network behind this host. -/
def lanAddr : Arr 4 := Arr.ofNat 4 0xc0a80709

theorem lan_whole : IsWhole (syn22 lanAddr) 6 client (.v4 lanAddr) 20 :=
  ⟨.v4 ⟨by decide, by decide, by decide, by decide, by decide, by decide, by decide, by decide⟩, by decide⟩

def lanRouter : FilterSet :=
  { sshOver protoTCP with forward := [⟨prefixFrom client 32, prefixFrom (.v4 (Arr.ofNat 4 0xc0a80700)) 24, protoTCP, 22, 22⟩] }

theorem lanRouter_wellFormed : lanRouter.WellFormed where
  rules := (sshOver_wellFormed protoTCP).rules
  forward r hr := by
    rw [List.mem_singleton.mp hr]
    exact ⟨wellFormed_prefixFrom _ _, wellFormed_prefixFrom _ _⟩
  routerOnly h := by cases h

/-- What the router's kernel forwards, its userspace filter accepts. -/
theorem lanRouter_within :
    passes (buildRuleset lanRouter).1 .forward (kernelView (syn22 lanAddr) 6 client 20 (str "thawr0") (str "eth0") 0) = true ∧
      (PacketFilter.allow { set := some lanRouter } 0 (syn22 lanAddr)).2 = true := by
  have hpasses : passes (buildRuleset lanRouter).1 .forward
      (kernelView (syn22 lanAddr) 6 client 20 (str "thawr0") (str "eth0") 0) = true := by decide +kernel
  refine ⟨hpasses, (forward_within_iff lanRouter_wellFormed rfl lan_whole (by decide) (by decide) rfl (noFlow_new _ _)).mpr
    ⟨.inr (.inl (List.cons_ne_nil _ _)), fun _ => ?_⟩ hpasses⟩
  exact ⟨_, List.mem_singleton_self _, by decide +kernel, by decide +kernel, by decide +kernel⟩

/-- A client that routes nothing has no forward chain: the kernel forwards into its network
    what the userspace filter drops. -/
theorem plain_client_forwards :
    (sshOver protoTCP).localIP.isValid = true ∧ IsWhole (syn22 lanAddr) 6 client (.v4 lanAddr) 20 ∧
      isLocal (sshOver protoTCP) (.v4 lanAddr) = false ∧
      passes (buildRuleset (sshOver protoTCP)).1 .forward
        (kernelView (syn22 lanAddr) 6 client 20 (str "thawr0") (str "eth0") 0) = true ∧
      (PacketFilter.allow { set := some (sshOver protoTCP) } 0 (syn22 lanAddr)).2 = false :=
  ⟨rfl, lan_whole, by decide, by decide +kernel, by decide +kernel⟩

end Thawr.Wg
