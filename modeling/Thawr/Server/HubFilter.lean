/-
  Thawr.Server.HubFilter — what the hub forwards (`installHubFilter` of
  `internal/server/server.go`, `internal/server/overlay6.go`).

  Static peers have no agent of their own, so the hub enforces the policy on traffic that
  starts or ends at one. The set it installs has, for every destination, the rules of the
  policy whose source is static or whose destination is, and every registered address as
  visible.

  Proved: the hub forwards exactly the TCP and UDP traffic the policy grants to or from a
  static peer (`hub_forwards_grants`). Its list of visible addresses is one for all
  destinations, though: the hub relays every echo request between registered peers, so only a
  policy under which all of them see each other keeps pings between peers that may not
  (`hub_echo_visible_iff`, `hub_relays_hidden_ping`).
-/

import Thawr.Control.Addresses
import Thawr.Control.Build
import Thawr.Enforcement

namespace Thawr.Server

open Go Netip Control

/-- `peerIPv6`: a peer's IPv6 overlay address when its client handles IPv6. -/
def peerIPv6 (overlay6 : Prefix) (p : Store.Peer) : Addr :=
  if p.ipv6Capable = false ∨ p.ipv6 = [] then .zero else ((parseAddr p.ipv6).filter fun a => overlay6.contains a).getD .zero

/-- The addresses of a peer the hub filters by; `none` for a row whose IPv4 address does not
    parse, which is skipped. -/
def hubAddrs (overlay6 : Prefix) (p : Store.Peer) : List Addr :=
  match parseAddr p.ipv4 with
  | none => []
  | some ip => ip :: if (peerIPv6 overlay6 p).isValid then [peerIPv6 overlay6 p] else []

def isStatic (overlay6 : Prefix) (peers : List Store.Peer) (a : Addr) : Bool :=
  peers.any fun p => p.mode == .static && (hubAddrs overlay6 p).contains a

/-- The rule toward `p` a rule of the policy becomes; `ip` is the IPv4 address of `p`. -/
def hubRule (overlay6 : Prefix) (peers : List Store.Peer) (p : Store.Peer) (ip : Addr) (r : Policy.FilterRule) :
    Option Wg.FilterRule :=
  if p.mode ≠ .static ∧ isStatic overlay6 peers r.src = false then none
  else if r.src.is6 = false then some ⟨prefixFrom r.src r.src.bitLen, ip, r.proto.text, r.lo, r.hi⟩
  else if (peerIPv6 overlay6 p).isValid then
    some ⟨prefixFrom r.src r.src.bitLen, peerIPv6 overlay6 p, r.proto.text, r.lo, r.hi⟩
  else none

def installHubFilter (S : Policy.RangeSort) (interface : Str) (hub : Addr) (overlay6 : Prefix) (c : Policy.Compiled)
    (peers : List Store.Peer) : Wg.FilterSet where
  interface := interface
  hook := .forward
  localIP := hub
  localIP6 := ipv6For overlay6 hub
  visible := peers.flatMap (hubAddrs overlay6)
  rules := peers.flatMap fun p =>
    match parseAddr p.ipv4 with
    | none => []
    | some ip => (c.filterFor S p.id).filterMap (hubRule overlay6 peers p ip)

/-! ## Registries whose addresses are each peer's own -/

/-- Every peer has an IPv4 overlay address, IPv6 addresses have no zone, and no address is
    another peer's or the hub's. -/
structure ValidRegistry (t : Store.Tables) (hub : Addr) (overlay6 : Prefix) : Prop where
  ids : (t.peers.map (·.id)).Nodup
  ipv4 : ∀ p ∈ t.peers, ∃ b, parseAddr p.ipv4 = some (.v4 b)
  distinct4 : ∀ p ∈ t.peers, ∀ q ∈ t.peers, parseAddr p.ipv4 = parseAddr q.ipv4 → p = q
  plain6 : ∀ p ∈ t.peers, ∀ a, parseAddr p.ipv6 = some a → a.zone = []
  distinct6 : ∀ p ∈ t.peers, ∀ q ∈ t.peers, ∀ a, parseAddr p.ipv6 = some a → parseAddr q.ipv6 = some a → p = q
  hub : ∀ p ∈ t.peers, ∀ x, parseAddr p.ipv4 = some x ∨ parseAddr p.ipv6 = some x → x ≠ hub ∧ x ≠ ipv6For overlay6 hub
  /-- The IPv6 overlay is of IPv6. -/
  overlay6 : overlay6.isValid = true → overlay6.ip.is6 = true

section

variable {t : Store.Tables} {hub : Addr} {overlay6 : Prefix} {p q : Store.Peer} {x : Addr}

theorem mem_hubAddrs : x ∈ hubAddrs overlay6 p ↔
    ∃ ip, parseAddr p.ipv4 = some ip ∧ (x = ip ∨ ((peerIPv6 overlay6 p).isValid = true ∧ x = peerIPv6 overlay6 p)) := by
  unfold hubAddrs
  grind

/-- A valid address that was filtered was there, and passed. -/
theorem filter_valid {o : Option Addr} {f : Addr → Bool} (h : ((o.filter f).getD .zero).isValid = true) :
    o = some ((o.filter f).getD .zero) ∧ f ((o.filter f).getD .zero) = true := by
  cases o with
  | none => cases h
  | some a =>
    by_cases hf : f a = true
    · simp [Option.filter_some, hf]
    · rw [Option.filter_some, if_neg hf] at h
      cases h

theorem peerIPv6_ok (h : (peerIPv6 overlay6 p).isValid = true) :
    parseAddr p.ipv6 = some (peerIPv6 overlay6 p) ∧ overlay6.contains (peerIPv6 overlay6 p) = true := by
  unfold peerIPv6 at h ⊢
  by_cases hcap : p.ipv6Capable = false ∨ p.ipv6 = []
  · rw [if_pos hcap] at h
    cases h
  · rw [if_neg hcap] at h ⊢
    exact filter_valid h

/-- An address of the IPv6 overlay is an IPv6 address. -/
theorem ValidRegistry.is6_of_contains (hv : ValidRegistry t hub overlay6) (h : overlay6.contains x = true) : x.is6 = true := by
  have h6 := hv.overlay6 (contains_isValid h)
  have hvalid : overlay6.ip.isValid = true := by
    revert h6
    cases overlay6.ip <;> simp [Addr.is6, Addr.isValid]
  exact ((is6_eq_iff hvalid (contains_plain h).1).mp (contains_family h)).symm.trans h6

def Has (t : Store.Tables) (p : Store.Peer) (x : Addr) : Prop :=
  (policyPeer t p).ipv4 = x ∨ ((policyPeer t p).ipv6 = x ∧ (policyPeer t p).ipv6.isValid = true)

theorem policyPeer_ipv6 (h : (policyPeer t p).ipv6.isValid = true) :
    parseAddr p.ipv6 = some (policyPeer t p).ipv6 ∧ (policyPeer t p).ipv6.is6 = true :=
  filter_valid h

theorem ValidRegistry.has_unique (hv : ValidRegistry t hub overlay6) (hp : p ∈ t.peers) (hq : q ∈ t.peers) (h : Has t p x)
    (h' : Has t q x) : p = q := by
  obtain ⟨b, hb⟩ := hv.ipv4 p hp
  obtain ⟨c, hc⟩ := hv.ipv4 q hq
  have hpb : (policyPeer t p).ipv4 = .v4 b := by simp [policyPeer, hb]
  have hqc : (policyPeer t q).ipv4 = .v4 c := by simp [policyPeer, hc]
  rcases h with h | ⟨h, h6⟩
  · rcases h' with h' | ⟨h', h6'⟩
    · refine hv.distinct4 p hp q hq ?_
      rw [hb, hc, ← hpb, ← hqc, h, h']
    · have := (policyPeer_ipv6 h6').2
      rw [h', ← h, hpb] at this
      cases this
  · rcases h' with h' | ⟨h', h6'⟩
    · have := (policyPeer_ipv6 h6).2
      rw [h, ← h', hqc] at this
      cases this
    · refine hv.distinct6 p hp q hq x ?_ ?_
      · rw [(policyPeer_ipv6 h6).1, h]
      · rw [(policyPeer_ipv6 h6').1, h']

/-- The hub's addresses of a peer are the policy's. -/
theorem ValidRegistry.has_of_hubAddrs (hv : ValidRegistry t hub overlay6) (h : x ∈ hubAddrs overlay6 p) : Has t p x := by
  obtain ⟨ip, hip, rfl | ⟨h6, rfl⟩⟩ := mem_hubAddrs.mp h
  · exact .inl (by simp [policyPeer, hip])
  · obtain ⟨hparse, hc⟩ := peerIPv6_ok h6
    have his6 := hv.is6_of_contains hc
    have heq : (policyPeer t p).ipv6 = peerIPv6 overlay6 p := by
      unfold policyPeer
      simp only [hparse, Option.filter, his6, if_true, Option.getD_some]
    exact .inr ⟨heq, by rw [heq]; exact h6⟩

theorem ValidRegistry.isStatic_iff (hv : ValidRegistry t hub overlay6) (hp : p ∈ t.peers) (h : x ∈ hubAddrs overlay6 p) :
    isStatic overlay6 t.peers x = true ↔ p.mode = .static := by
  unfold isStatic
  rw [List.any_eq_true]
  constructor
  · intro hs
    obtain ⟨q, hq, hs⟩ := hs
    rw [Bool.and_eq_true, beq_iff_eq, List.contains_iff_mem] at hs
    rw [hv.has_unique hp hq (hv.has_of_hubAddrs h) (hv.has_of_hubAddrs hs.2)]
    exact hs.1
  · grind

/-! ## What the rules match -/

variable {S : Policy.RangeSort} {pol : Policy.Policy} {overlay : Prefix} {a b : Store.Peer} {y : Addr}

theorem hubRule_iff {peers : List Store.Peer} {ip : Addr} {r : Policy.FilterRule} {g : Wg.FilterRule} :
    hubRule overlay6 peers p ip r = some g ↔
      (p.mode = .static ∨ isStatic overlay6 peers r.src = true) ∧ (r.src.is6 = true → (peerIPv6 overlay6 p).isValid = true) ∧
        g = ⟨prefixFrom r.src r.src.bitLen, if r.src.is6 then peerIPv6 overlay6 p else ip, r.proto.text, r.lo, r.hi⟩ := by
  unfold hubRule
  by_cases hs : p.mode ≠ .static ∧ isStatic overlay6 peers r.src = false
  · simp [hs]
  · grind

/-- The address of `p` a rule from `x` names is in the family of `x`. -/
theorem ValidRegistry.hubAddrs_family (hv : ValidRegistry t hub overlay6) (hp : p ∈ t.peers) {ip : Addr}
    (hip : parseAddr p.ipv4 = some ip) :
    y ∈ hubAddrs overlay6 p ↔
      (y.is6 = true → (peerIPv6 overlay6 p).isValid = true) ∧ y = if y.is6 then peerIPv6 overlay6 p else ip := by
  obtain ⟨b, hb⟩ := hv.ipv4 p hp
  rw [hip] at hb
  cases hb
  rw [mem_hubAddrs]
  simp only [hip, Option.some.injEq, exists_eq_left']
  constructor
  · intro h
    rcases h with rfl | ⟨h6, rfl⟩
    · simp [Addr.is6]
    · rw [hv.is6_of_contains (peerIPv6_ok h6).2]
      exact ⟨fun _ => h6, rfl⟩
  · grind

/-- The sources of the policy's rules are plain addresses of registered peers. -/
theorem ValidRegistry.source (hv : ValidRegistry t hub overlay6) (hb : b ∈ t.peers) {r : Policy.FilterRule}
    (hr : r ∈ (compiled pol t overlay).filterFor S b.id) : r.src.isValid = true ∧ r.src.zone = [] := by
  obtain ⟨j, hj⟩ := List.mem_iff_getElem?.mp hb
  obtain ⟨i, a', hi, -, h4, pr, -, hr⟩ := (Policy.mem_filterFor S (ids_policyPeers hv.ids) (getElem?_policyPeers hj)).mp hr
  obtain ⟨a, ha, rfl⟩ := List.mem_map.mp (List.mem_of_getElem? hi)
  rcases hr with rfl | ⟨h6, rfl⟩
  · refine ⟨h4, ?_⟩
    obtain ⟨c, hc⟩ := hv.ipv4 a ha
    simp [policyPeer, hc, Addr.zone]
  · exact ⟨h6, hv.plain6 a ha _ (policyPeer_ipv6 h6).1⟩

/-- Between two registered peers' addresses of one family the hub's rules are the policy's
    toward the second, when one of the two is static. -/
theorem ValidRegistry.rulesAllow_iff (hv : ValidRegistry t hub overlay6) (ha : a ∈ t.peers) (hb : b ∈ t.peers)
    (hx : x ∈ hubAddrs overlay6 a) (hy : y ∈ hubAddrs overlay6 b) (hfam : x.is6 = y.is6) {interface : Str} {k : Wg.Packet}
    (hsrc : k.src = x) (hdst : k.dst = y) :
    Wg.rulesAllow (installHubFilter S interface hub overlay6 (compiled pol t overlay) t.peers) k = true ↔
      (a.mode = .static ∨ b.mode = .static) ∧
        ∃ r ∈ (compiled pol t overlay).filterFor S b.id, r.src = x ∧ Wg.portsAllow k r.proto.text r.lo r.hi = true := by
  obtain ⟨c, hc⟩ := hv.ipv4 b hb
  unfold Wg.rulesAllow installHubFilter
  simp only [List.any_eq_true, Bool.and_eq_true, List.mem_flatMap]
  constructor
  · intro h
    obtain ⟨g, ⟨q, hq, hg⟩, ⟨hsrc', hdst'⟩, hports⟩ := h
    obtain ⟨ip, hip⟩ := hv.ipv4 q hq
    simp only [hip] at hg
    obtain ⟨r, hr, hg⟩ := List.mem_filterMap.mp hg
    obtain ⟨hstatic, h6, rfl⟩ := hubRule_iff.mp hg
    obtain ⟨hvalid, hzone⟩ := hv.source hq hr
    have hrx : x = r.src := hsrc ▸ (single_contains hvalid hzone).mp hsrc'
    -- the rule's destination is `y`, which is an address of `b` alone
    have hyq : y ∈ hubAddrs overlay6 q := by
      rw [hv.hubAddrs_family hq hip, ← hfam, hrx]
      refine ⟨h6, ?_⟩
      have hdv : (if r.src.is6 then peerIPv6 overlay6 q else Addr.v4 ip).isValid = true := by
        by_cases his : r.src.is6 = true
        · rw [if_pos his]
          exact h6 his
        · rw [if_neg his]
          rfl
      grind
    have hqb : q = b := hv.has_unique hq hb (hv.has_of_hubAddrs hyq) (hv.has_of_hubAddrs hy)
    subst hqb
    refine ⟨?_, r, hr, hrx.symm, hports⟩
    rcases hstatic with hs | hs
    · exact .inr hs
    · exact .inl ((hv.isStatic_iff ha (hrx ▸ hx)).mp hs)
  · intro h
    obtain ⟨hstatic, r, hr, hrx, hports⟩ := h
    obtain ⟨hvalid, hzone⟩ := hv.source hb hr
    obtain ⟨h6, hyeq⟩ := (hv.hubAddrs_family hb hc).mp hy
    rw [← hfam, ← hrx] at h6 hyeq
    refine ⟨⟨prefixFrom r.src r.src.bitLen, if r.src.is6 then peerIPv6 overlay6 b else .v4 c, r.proto.text, r.lo, r.hi⟩,
      ⟨b, hb, ?_⟩, ⟨(single_contains hvalid hzone).mpr (hsrc.trans hrx.symm), ?_⟩, hports⟩
    · simp only [hc]
      refine List.mem_filterMap.mpr ⟨r, hr, hubRule_iff.mpr ⟨?_, h6, rfl⟩⟩
      rcases hstatic with hs | hs
      · exact .inr ((hv.isStatic_iff ha (hrx ▸ hx)).mpr hs)
      · exact .inl hs
    · simp only
      rw [← hyeq, hdst]
      simp

/-- An address of a peer is not the hub's. -/
theorem ValidRegistry.not_local (hv : ValidRegistry t hub overlay6) (hb : b ∈ t.peers) (hy : y ∈ hubAddrs overlay6 b)
    {interface : Str} {c : Policy.Compiled} :
    Wg.isLocal (installHubFilter S interface hub overlay6 c t.peers) y = false := by
  have hown : y ≠ hub ∧ y ≠ ipv6For overlay6 hub := by
    obtain ⟨ip, hip, rfl | ⟨h6, rfl⟩⟩ := mem_hubAddrs.mp hy
    · exact hv.hub b hb _ (.inl hip)
    · exact hv.hub b hb _ (.inr (peerIPv6_ok h6).1)
  simp [Wg.isLocal, installHubFilter, hown.1, hown.2]

/-- The policy's rules toward `b` from an address of `a` are what it allows `a` on `b`. -/
theorem ValidRegistry.filterFor_iff (hv : ValidRegistry t hub overlay6) (ha : a ∈ t.peers) (hb : b ∈ t.peers) (hne : a ≠ b)
    (hx : x ∈ hubAddrs overlay6 a) (proto : Policy.Proto) (port : UInt16) :
    (∃ r ∈ (compiled pol t overlay).filterFor S b.id, r.src = x ∧ r.proto = proto ∧ r.lo ≤ port ∧ port ≤ r.hi) ↔
      ∃ pr ∈ (compiled pol t overlay).allowed S a.id b.id, pr.proto = proto ∧ pr.lo ≤ port ∧ port ≤ pr.hi := by
  have hids := ids_policyPeers hv.ids
  obtain ⟨i, hi⟩ := List.mem_iff_getElem?.mp ha
  obtain ⟨j, hj⟩ := List.mem_iff_getElem?.mp hb
  have hi' := getElem?_policyPeers hi
  have hj' := getElem?_policyPeers hj
  have hij : i ≠ j := by
    intro he
    rw [he, hj] at hi
    exact hne (Option.some.inj hi).symm
  have hhas := hv.has_of_hubAddrs hx
  obtain ⟨c, hc⟩ := hv.ipv4 a ha
  have hallowed : (compiled pol t overlay).allowed S a.id b.id = (compiled pol t overlay).allowedIdx S i j := by
    have hai : (compiled pol t overlay).index.lookup a.id = some i := Policy.lookup_index hids hi'
    have hbj : (compiled pol t overlay).index.lookup b.id = some j := Policy.lookup_index hids hj'
    simp [Policy.Compiled.allowed, hai, hbj, hij]
  rw [hallowed]
  refine Policy.filterFor_source S hids hi' hj' hij (by simp [policyPeer, hc, Addr.isValid]) ?_ (fun k a' hk ha' => ?_) proto port
  · rcases hhas with h | ⟨h, h6⟩
    · exact .inl h.symm
    · exact .inr ⟨h.symm, h6⟩
  · obtain ⟨q, hq, rfl⟩ := List.mem_map.mp (List.mem_of_getElem? hk)
    rw [hv.has_unique hq ha ha' hhas] at hk
    exact (Policy.index_eq_iff hids hk hi').mpr rfl

/-- The hub forwards exactly the TCP and UDP traffic the policy grants to or from a static
    peer. -/
theorem hub_forwards_grants (hv : ValidRegistry t hub overlay6) (ha : a ∈ t.peers) (hb : b ∈ t.peers) (hne : a ≠ b)
    (hx : x ∈ hubAddrs overlay6 a) (hy : y ∈ hubAddrs overlay6 b) {d : List UInt8} {tr : Wg.Transport} {off : Nat}
    (hd : Wg.IsWhole d tr.num x y off) {interface : Str} {f : Wg.PacketFilter} {now : Int}
    (hset : f.set = some (installHubFilter S interface hub overlay6 (compiled pol t overlay) t.peers))
    (hflow : Wg.NoFlow f now d) :
    (f.allow now d).2 = true ↔
      (a.mode = .static ∨ b.mode = .static) ∧
        ∃ pr ∈ (compiled pol t overlay).allowed S a.id b.id,
          (pr.proto = .any ∨ pr.proto = protoOf tr) ∧ pr.lo ≤ Wg.be16 d (off + 2) ∧ Wg.be16 d (off + 2) ≤ pr.hi := by
  have hport : (Wg.readPacket d tr.num x y off).dport = Wg.be16 d (off + 2) := by
    cases tr with
    | tcp => exact Wg.readPacket_dport (.inl rfl)
    | udp => exact Wg.readPacket_dport (.inr rfl)
  have hdecide : (f.allow now d).2 =
      Wg.rulesAllow (installHubFilter S interface hub overlay6 (compiled pol t overlay) t.peers)
        (Wg.readPacket d tr.num x y off) := by
    rw [Wg.allow_new hset (Wg.parsePacket_whole hd) hflow, Wg.readPacket_dst, hv.not_local hb hy]
    cases tr with
    | tcp => simp [Wg.PacketFilter.decideNew, Wg.Packet.icmp6Always, installHubFilter, Wg.Transport.num]
    | udp => simp [Wg.PacketFilter.decideNew, Wg.Packet.icmp6Always, installHubFilter, Wg.Transport.num]
  rw [hdecide, hv.rulesAllow_iff ha hb hx hy hd.same_family.symm Wg.readPacket_src Wg.readPacket_dst]
  refine and_congr_right fun _ => ?_
  simp only [Wg.portsAllow_iff Wg.readPacket_proto, hport, or_comm (b := _ = Wg.protoAny)]
  constructor
  · intro h
    obtain ⟨r, hr, hrx, hproto, hports⟩ := h
    obtain ⟨pr, hpr, he, hprs⟩ := (hv.filterFor_iff ha hb hne hx r.proto _).mp ⟨r, hr, hrx, rfl, hports⟩
    exact ⟨pr, hpr, by rw [he]; exact text_iff.mp hproto.symm, hprs⟩
  · intro h
    obtain ⟨pr, hpr, hproto, hports⟩ := h
    obtain ⟨r, hr, hrx, he, hrs⟩ := (hv.filterFor_iff ha hb hne hx pr.proto _).mpr ⟨pr, hpr, rfl, hports⟩
    exact ⟨r, hr, hrx, by rw [he]; exact (text_iff.mpr hproto).symm, hrs⟩

/-! ## Echo requests -/

/-- Every registered address is visible to the hub's filter, whatever the destination. -/
theorem hub_accepts_echo {c : Policy.Compiled} {peers : List Store.Peer} (ha : a ∈ peers) (hx : x ∈ hubAddrs overlay6 a)
    {d : List UInt8} (hd : Wg.IsEcho d x y) {interface : Str} {f : Wg.PacketFilter} {now : Int}
    (hset : f.set = some (installHubFilter S interface hub overlay6 c peers)) (hflow : Wg.NoFlow f now d) :
    (f.allow now d).2 = true := by
  have hvisible : x ∈ (installHubFilter S interface hub overlay6 c peers).visible := List.mem_flatMap.mpr ⟨a, ha, hx⟩
  have hhook : (installHubFilter S interface hub overlay6 c peers).hook = .forward := rfl
  obtain ⟨off, ⟨-, hd, htype⟩ | ⟨-, hd, htype⟩⟩ := hd
  · have hsport : (Wg.readPacket d 1 x y off).sport = 8 := by
      rw [Wg.readPacket_type (.inl rfl), htype]
      rfl
    rw [Wg.allow_new hset (Wg.parsePacket_whole hd) hflow]
    simp [Wg.PacketFilter.decideNew, hhook, hvisible, hsport]
  · have hsport : (Wg.readPacket d 58 x y off).sport = 128 := by
      rw [Wg.readPacket_type (.inr rfl), htype]
      rfl
    rw [Wg.allow_new hset (Wg.parsePacket_whole hd) hflow]
    simp [Wg.PacketFilter.decideNew, hhook, hvisible, hsport]

/-- The hub relays echo requests between peers that see each other only, exactly when the
    policy lets all registered peers see each other. -/
theorem hub_echo_visible_iff (S : Policy.RangeSort) (pol : Policy.Policy) (t : Store.Tables) (overlay : Prefix) (interface : Str)
    (hub : Addr) (overlay6 : Prefix) :
    (∀ a ∈ t.peers, ∀ b ∈ t.peers, a ≠ b → ∀ x ∈ hubAddrs overlay6 a, ∀ y ∈ hubAddrs overlay6 b, ∀ d, Wg.IsEcho d x y →
        ∀ (f : Wg.PacketFilter) (now : Int),
          f.set = some (installHubFilter S interface hub overlay6 (compiled pol t overlay) t.peers) → Wg.NoFlow f now d →
            (f.allow now d).2 = true → (compiled pol t overlay).visible a.id b.id = true) ↔
      ∀ a ∈ t.peers, ∀ b ∈ t.peers, a ≠ b → (∃ x ∈ hubAddrs overlay6 a, ∃ y ∈ hubAddrs overlay6 b, Wg.OneFamily x y) →
        (compiled pol t overlay).visible a.id b.id = true := by
  constructor
  · intro h a ha b hb hne hxy
    obtain ⟨x, hx, y, hy, hfam⟩ := hxy
    obtain ⟨d, hd⟩ := Wg.exists_echo hfam
    let f : Wg.PacketFilter := { set := some (installHubFilter S interface hub overlay6 (compiled pol t overlay) t.peers) }
    have hflow : Wg.NoFlow f 0 d := fun p _ => by rw [Wg.reply_no_flow (fun _ => rfl)]
    exact h a ha b hb hne x hx y hy d hd f 0 rfl hflow (hub_accepts_echo ha hx hd rfl hflow)
  · intro h a ha b hb hne x hx y hy d hd f now _ _ _
    exact h a ha b hb hne ⟨x, hx, y, hy, hd.oneFamily⟩

end

/-! ## Two phones and a server -/

def alicePhone : Store.Peer :=
  { id := str "p1", name := str "alice-phone", mode := .static, ownerID := str "u1", ipv4 := str "10.0.0.2" }

def bobPhone : Store.Peer :=
  { id := str "p2", name := str "bob-phone", mode := .static, ownerID := str "u2", ipv4 := str "10.0.0.3" }

def aliceNas : Store.Peer := { id := str "p3", name := str "nas", ownerID := str "u1", ipv4 := str "10.0.0.4" }

def phones : Store.Tables where
  peers := [alicePhone, bobPhone, aliceNas]
  users := [⟨str "u1", str "alice"⟩, ⟨str "u2", str "bob"⟩]

def hubIP : Addr := .v4 (Arr.ofNat 4 0x0a000001)

/-- The hub's filter when everyone reaches the own devices on port 22. -/
def phonesFilter : Wg.PacketFilter :=
  { set := some (installHubFilter Policy.rangeSort (str "thawr0") hubIP Prefix.none (compiled homePolicy phones Prefix.none)
      phones.peers) }

theorem phones_noFlow (d : List UInt8) : Wg.NoFlow phonesFilter 0 d := fun p _ => by rw [Wg.reply_no_flow fun _ => rfl]

theorem phones_valid : ValidRegistry phones hubIP Prefix.none where
  ids := by decide +kernel
  ipv4 := by
    intro p hp
    rcases List.mem_cons.mp hp with rfl | hp
    · exact ⟨Arr.ofNat 4 0x0a000002, by decide +kernel⟩
    · rcases List.mem_cons.mp hp with rfl | hp
      · exact ⟨Arr.ofNat 4 0x0a000003, by decide +kernel⟩
      · rw [List.mem_singleton.mp hp]
        exact ⟨Arr.ofNat 4 0x0a000004, by decide +kernel⟩
  distinct4 := by decide +kernel
  plain6 := by
    intro p hp a ha
    have hnone : ∀ p ∈ phones.peers, parseAddr p.ipv6 = none := by decide +kernel
    rw [hnone p hp] at ha
    cases ha
  distinct6 := by
    intro p hp q hq a ha
    have hnone : ∀ p ∈ phones.peers, parseAddr p.ipv6 = none := by decide +kernel
    rw [hnone p hp] at ha
    cases ha
  hub := by
    intro p hp x hx
    have hno : ∀ p ∈ phones.peers, parseAddr p.ipv6 = none ∧ parseAddr p.ipv4 ≠ some hubIP ∧
        parseAddr p.ipv4 ≠ some (ipv6For Prefix.none hubIP) := by decide +kernel
    grind
  overlay6 := by decide

def phoneSyn : List UInt8 :=
  [0x45, 0, 0, 40, 0, 0, 0, 0, 64, 6, 0, 0, 10, 0, 0, 2, 10, 0, 0, 4] ++
    [0xc0, 0, 0, 22, 0, 0, 0, 0, 0, 0, 0, 0, 0x50, 2, 0, 0, 0, 0, 0, 0]

/-- Alice's phone reaches the server through the hub. -/
theorem phone_reaches_nas : (phonesFilter.allow 0 phoneSyn).2 = true := by
  have hd : Wg.IsWhole phoneSyn Wg.Transport.tcp.num (.v4 (Arr.ofNat 4 0x0a000002)) (.v4 (Arr.ofNat 4 0x0a000004)) 20 :=
    ⟨.v4 ⟨by decide, by decide, by decide, by decide, by decide, by decide, by decide, by decide⟩, by decide⟩
  refine (hub_forwards_grants phones_valid (a := alicePhone) (b := aliceNas) List.mem_cons_self
    (List.mem_of_getElem? (i := 2) rfl) (by decide) (by decide +kernel) (by decide +kernel) hd rfl (phones_noFlow _)).mpr ?_
  exact ⟨.inl rfl, ⟨.any, 22, 22⟩, by decide +kernel, .inl rfl, by decide, by decide⟩

/-- Alice's phone pings bob's through the hub, though neither may see the other. -/
theorem hub_relays_hidden_ping :
    alicePhone ∈ phones.peers ∧ bobPhone ∈ phones.peers ∧ alicePhone ≠ bobPhone ∧
      Wg.IsEcho (Wg.echo4 (Arr.ofNat 4 0x0a000002) (Arr.ofNat 4 0x0a000003)) (.v4 (Arr.ofNat 4 0x0a000002))
        (.v4 (Arr.ofNat 4 0x0a000003)) ∧
      Addr.v4 (Arr.ofNat 4 0x0a000002) ∈ hubAddrs Prefix.none alicePhone ∧
      Addr.v4 (Arr.ofNat 4 0x0a000003) ∈ hubAddrs Prefix.none bobPhone ∧
      (phonesFilter.allow 0 (Wg.echo4 (Arr.ofNat 4 0x0a000002) (Arr.ofNat 4 0x0a000003))).2 = true ∧
      (compiled homePolicy phones Prefix.none).visible alicePhone.id bobPhone.id = false := by
  refine ⟨by decide, by decide, by decide, Wg.isEcho_echo4 _ _, by decide +kernel, by decide +kernel, by decide +kernel, ?_⟩
  decide +kernel

end Thawr.Server
