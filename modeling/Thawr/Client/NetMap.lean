/-
  Thawr.Client.NetMap — the netmap on the client (`internal/client/netmap.go`): what the
  client keeps of a received netmap, the WireGuard configuration it builds from one and the
  packet filter set it derives.

  `resolveEndpoint` asks DNS, so the configuration takes it as an argument. Proved: which
  keys a configuration holds (`buildConfigWith_keys`).
-/

import Thawr.Api.Convert
import Thawr.Wg.Device
import Thawr.Wg.Filter

namespace Thawr.Client

open Go Netip Lock

def peerKeepalive : Nat := 25000000000

structure PeerSignature where
  signer : Str := []
  signature : Str := []
  deriving DecidableEq

structure Endpoint where
  addr : Str := []
  kind : Str := []
  deriving DecidableEq

structure Peer where
  id : Str := []
  name : Str := []
  kind : Str := []
  owner : Str := []
  publicKey : Str := []
  ipv4 : Str := []
  ipv6 : Str := []
  online : Bool := false
  endpoints : List Endpoint := []
  symmetric : Bool := false
  keepalive : Bool := false
  allowedIPs : List Str := []
  /-- A static peer reached through the hub: no WireGuard peer and no path of its own. -/
  viaHub : Bool := false
  signatures : List PeerSignature := []
  exitNode : Bool := false
  wanted : Bool := false
  wantSeq : UInt64 := 0
  deriving DecidableEq

structure HubPeer where
  publicKey : Str := []
  endpoint : Str := []
  allowedIPs : List Str := []
  signatures : List PeerSignature := []
  deriving DecidableEq

structure FilterRule where
  src : Str
  proto : Str
  portLo : UInt16
  portHi : UInt16
  deriving DecidableEq

structure ForwardRule where
  src : Str
  dst : Str
  proto : Str
  portLo : UInt16
  portHi : UInt16
  deriving DecidableEq

structure AdvertisedRoute where
  dst : Str
  approved : Bool
  deriving DecidableEq

structure NetMap where
  generation : Int := 0
  selfID : Str := []
  selfName : Str := []
  selfKind : Str := []
  selfIPv4 : Str := []
  overlay : Str := []
  selfIPv6 : Str := []
  overlay6 : Str := []
  peers : List Peer := []
  hub : HubPeer := {}
  receivedAt : Int := 0
  serverVersion : Str := []
  stun : List Str := []
  filter : List FilterRule := []
  selfSignatures : List PeerSignature := []
  lock : Option Signed := none
  forward : List ForwardRule := []
  advertised : List AdvertisedRoute := []
  deriving DecidableEq

/-! ## From the wire -/

def kindFromProto : Control.EndpointKind → Str
  | .locl => str "local"
  | .reflexive => str "reflexive"
  | .stable => str "stable"
  | .unknown => []

def kindFromName (s : Str) : Control.EndpointKind :=
  if s = str "local" then .locl else if s = str "reflexive" then .reflexive
  else if s = str "stable" then .stable else .unknown

def Peer.candidates (p : Peer) : List Control.Endpoint :=
  p.endpoints.filterMap fun e => (parseAddrPort e.addr).map fun ap => ⟨ap, kindFromName e.kind⟩

def signaturesFromProto (sigs : List Api.Proto.PeerSignature) : List PeerSignature :=
  sigs.map fun s => ⟨s.signerKey, s.signature⟩

/-- `lockFromProto`: a malformed record is dropped, like a server offering none. -/
def lockFromProto (s : Option Api.Proto.SignedLockRecord) : Option Signed := do
  let s ← s
  let r ← s.record
  let signers ← r.signers.mapM fun sg => (parsePublicKey sg.key).map fun k => (⟨k, sg.peerId⟩ : Signer)
  let sig ← parseSignature s.signature
  return ⟨⟨r.generation, r.disabled, signers⟩, sig⟩

/-- `srcOf`: a rule's source, carried in the field of its family. -/
def srcOf (v4 v6 : Str) : Str := if v4 ≠ [] then v4 else v6

def filterFromProto (f : Api.Proto.FilterRule) : Option FilterRule :=
  if 65535 < f.portLo ∨ 65535 < f.portHi then none
  else some ⟨srcOf f.srcIpv4 f.srcIpv6, f.proto, f.portLo.toUInt16, f.portHi.toUInt16⟩

def forwardFromProto (f : Api.Proto.ForwardRule) : Option ForwardRule :=
  if 65535 < f.portLo ∨ 65535 < f.portHi then none
  else some ⟨srcOf f.srcIpv4 f.srcIpv6, f.dstCidr, f.proto, f.portLo.toUInt16, f.portHi.toUInt16⟩

def peerFromProto (p : Api.Proto.NetPeer) : Peer :=
  { id := p.id, name := p.name, kind := p.kind, owner := p.owner, publicKey := p.publicKey, ipv4 := p.ipv4, ipv6 := p.ipv6
    online := p.online, endpoints := p.endpoints.map fun e => ⟨e.addr, kindFromProto e.kind⟩, symmetric := p.symmetric
    keepalive := p.keepalive, allowedIPs := p.allowedIps, viaHub := p.viaHub, signatures := signaturesFromProto p.signatures
    exitNode := p.exitNode, wanted := p.wanted, wantSeq := p.wantSeq }

def netMapFromProto (m : Api.Proto.NetMap) (now : Int) : NetMap :=
  { generation := m.generation, selfID := m.self.id, selfName := m.self.name, selfKind := m.self.kind
    selfIPv4 := m.self.ipv4, overlay := m.self.overlayCidr, selfIPv6 := m.self.ipv6, overlay6 := m.self.overlayIpv6
    hub := ⟨m.hub.publicKey, m.hub.endpoint, m.hub.allowedIps, signaturesFromProto m.hub.signatures⟩
    selfSignatures := signaturesFromProto m.self.signatures, lock := lockFromProto m.lock, receivedAt := now
    serverVersion := m.serverVersion, stun := m.self.stunAddrs
    filter := m.filter.filterMap filterFromProto, forward := m.forward.filterMap forwardFromProto
    advertised := m.self.advertised.map fun a => ⟨a.dst, a.approved⟩, peers := m.peers.map peerFromProto }

/-- `selfIPv6`: this device's IPv6 overlay address and the /64, when the netmap carries
    usable ones. -/
def selfIPv6 (nm : NetMap) : Option (Addr × Prefix) := do
  let self ← parseAddr nm.selfIPv6
  if !self.is6 || self.is4In6 then none
  else
    let ov ← parsePrefix nm.overlay6
    if ov.contains self then return (self, ov.masked) else none

/-! ## The WireGuard configuration -/

inductive BuildErr where
  /-- "client: self address %q" -/
  | selfAddress (s : Str)
  /-- "client: hub key" -/
  | hubKey
  /-- "client: hub allowed ips: %q" -/
  | hubAllowedIPs (s : Str)
  /-- "client: peer %s key" -/
  | peerKey (name : Str)
  /-- "client: peer %s allowed ips: %q" -/
  | peerAllowedIPs (name s : Str)
  deriving DecidableEq

/-- `parsePrefixes`; the error is the first text that is not a prefix. -/
def parsePrefixes : List Str → Except Str (List Prefix)
  | [] => .ok []
  | s :: rest =>
    match parsePrefix s with
    | none => .error s
    | some p => (parsePrefixes rest).map (p :: ·)

def buildHub (resolve : Str → Option AddrPort) (hub : HubPeer) : Except BuildErr (List Wg.Peer) :=
  if hub.publicKey = [] then .ok []
  else
    match Wg.parseKey hub.publicKey with
    | none => .error .hubKey
    | some key =>
      match parsePrefixes hub.allowedIPs with
      | .error s => .error (.hubAllowedIPs s)
      | .ok ips => .ok [⟨key, (resolve hub.endpoint).getD AddrPort.zero, ips, peerKeepalive⟩]

def isExit (exitNodeID : Str) (p : Peer) : Bool := exitNodeID != [] && p.exitNode && p.id == exitNodeID

def ownPrefixes (p : Peer) (ips : List Prefix) : List Prefix :=
  match parseAddr p.ipv4 with
  | some ip => if ips = [] then [prefixFrom ip 32] else ips
  | none => ips

/-- What an exit node carries on top; `v6` when this device has the IPv6 overlay. -/
def exitPrefixes (exitNodeID : Str) (v6 : Bool) (p : Peer) : List Prefix :=
  if isExit exitNodeID p then
    if v6 && p.ipv6 != [] then [Wg.exitRoute, Wg.exitRoute6] else [Wg.exitRoute]
  else []

def buildPeer (exitNodeID : Str) (v6 : Bool) (p : Peer) : Except BuildErr Wg.Peer :=
  match Wg.parseKey p.publicKey with
  | none => .error (.peerKey p.name)
  | some pub =>
    match parsePrefixes p.allowedIPs with
    | .error s => .error (.peerAllowedIPs p.name s)
    -- no endpoint: the path prober owns it
    | .ok ips => .ok ⟨pub, AddrPort.zero, ownPrefixes p ips ++ exitPrefixes exitNodeID v6 p,
        if p.keepalive then peerKeepalive else 0⟩

def buildPeers (exitNodeID : Str) (v6 : Bool) : List Peer → Except BuildErr (List Wg.Peer)
  | [] => .ok []
  | p :: rest =>
    if p.viaHub then buildPeers exitNodeID v6 rest -- the hub's allowed IPs route it
    else do
      let w ← buildPeer exitNodeID v6 p
      let ws ← buildPeers exitNodeID v6 rest
      return w :: ws

def buildConfigWith (resolve : Str → Option AddrPort) (nm : NetMap) (key : Wg.Key) (listenPort : Nat) (overlay : Prefix)
    (exitNodeID : Str) : Except BuildErr Wg.Config :=
  match parseAddr nm.selfIPv4 with
  | none => .error (.selfAddress nm.selfIPv4)
  | some selfIP => do
    let self6 := selfIPv6 nm
    let hub ← buildHub resolve nm.hub
    let peers ← buildPeers exitNodeID self6.isSome nm.peers
    return {
      privateKey := key, listenPort := listenPort
      addresses := selfIP.inPrefix overlay :: (self6.map fun s => s.1.inPrefix s.2).toList
      peers := hub ++ peers
      fwMark := if nm.peers.any fun p => !p.viaHub && isExit exitNodeID p then Wg.defaultFwMark else 0 }

variable {resolve : Str → Option AddrPort} {ws : List Wg.Peer} {exitNodeID : Str} {v6 : Bool} {nm : NetMap}
  {key : Wg.Key} {port : Nat} {overlay : Prefix} {cfg : Wg.Config}

/-- What the hub's entry is built from. -/
theorem buildHub_ok {hub : HubPeer} (h : buildHub resolve hub = .ok ws) :
    hub.publicKey = [] ∧ ws = [] ∨ hub.publicKey ≠ [] ∧ ∃ key ips, Wg.parseKey hub.publicKey = some key ∧
      parsePrefixes hub.allowedIPs = .ok ips ∧ ws = [⟨key, (resolve hub.endpoint).getD AddrPort.zero, ips, peerKeepalive⟩] := by
  unfold buildHub at h
  by_cases hk : hub.publicKey = []
  · rw [if_pos hk] at h
    cases h
    exact .inl ⟨hk, rfl⟩
  · rw [if_neg hk] at h
    cases hp : Wg.parseKey hub.publicKey with
    | none =>
      rw [hp] at h
      cases h
    | some key =>
      rw [hp] at h
      cases hi : parsePrefixes hub.allowedIPs with
      | error s =>
        rw [hi] at h
        cases h
      | ok ips =>
        rw [hi] at h
        cases h
        exact .inr ⟨hk, key, ips, rfl, rfl, rfl⟩

theorem buildHub_keys {hub : HubPeer}
    (h : buildHub resolve hub = .ok ws) (k : Wg.Key) :
    (∃ w ∈ ws, w.publicKey = k) ↔ hub.publicKey ≠ [] ∧ Wg.parseKey hub.publicKey = some k := by
  rcases buildHub_ok h with ⟨hk, rfl⟩ | ⟨hk, key, ips, hp, -, rfl⟩
  · simp [hk]
  · simp [hk, hp]

/-- What a peer's entry is built from. -/
theorem buildPeer_ok {p : Peer} {w : Wg.Peer} (h : buildPeer exitNodeID v6 p = .ok w) :
    Wg.parseKey p.publicKey = some w.publicKey ∧ ∃ ips, parsePrefixes p.allowedIPs = .ok ips ∧
      w.allowedIPs = ownPrefixes p ips ++ exitPrefixes exitNodeID v6 p := by
  unfold buildPeer at h
  cases hp : Wg.parseKey p.publicKey with
  | none =>
    rw [hp] at h
    cases h
  | some pub =>
    rw [hp] at h
    cases hi : parsePrefixes p.allowedIPs with
    | error s =>
      rw [hi] at h
      cases h
    | ok ips =>
      rw [hi] at h
      cases h
      exact ⟨rfl, ips, rfl, rfl⟩

theorem buildPeer_key {p : Peer} {w : Wg.Peer} (h : buildPeer exitNodeID v6 p = .ok w) :
    Wg.parseKey p.publicKey = some w.publicKey := (buildPeer_ok h).1

/-- The peers built are those of the entries that are not reached through the hub. -/
theorem buildPeers_mem {ps : List Peer}
    (h : buildPeers exitNodeID v6 ps = .ok ws) :
    (∀ w ∈ ws, ∃ p ∈ ps, p.viaHub = false ∧ buildPeer exitNodeID v6 p = .ok w) ∧
      ∀ p ∈ ps, p.viaHub = false → ∃ w ∈ ws, buildPeer exitNodeID v6 p = .ok w := by
  induction ps generalizing ws with
  | nil =>
    cases h
    exact ⟨fun w hw => absurd hw List.not_mem_nil, fun p hp => absurd hp List.not_mem_nil⟩
  | cons p rest ih =>
    unfold buildPeers at h
    by_cases hv : p.viaHub = true
    · grind
    · rw [if_neg hv] at h
      obtain ⟨w0, hb, h⟩ := bind_ok.mp h
      obtain ⟨ws0, hr, h⟩ := bind_ok.mp h
      cases h
      obtain ⟨hfrom, hto⟩ := ih hr
      refine ⟨fun w hw => ?_, fun q hq hq' => ?_⟩
      · grind
      · grind

theorem buildPeers_keys {ps : List Peer}
    (h : buildPeers exitNodeID v6 ps = .ok ws) (k : Wg.Key) :
    (∃ w ∈ ws, w.publicKey = k) ↔ ∃ p ∈ ps, p.viaHub = false ∧ Wg.parseKey p.publicKey = some k := by
  obtain ⟨hfrom, hto⟩ := buildPeers_mem h
  constructor
  · rintro ⟨w, hw, rfl⟩
    obtain ⟨p, hp, hv, hb⟩ := hfrom w hw
    exact ⟨p, hp, hv, buildPeer_key hb⟩
  · rintro ⟨p, hp, hv, hk⟩
    obtain ⟨w, hw, hb⟩ := hto p hp hv
    rw [buildPeer_key hb] at hk
    exact ⟨w, hw, Option.some.inj hk⟩

/-- What a built configuration is made of. -/
theorem buildConfigWith_ok (h : buildConfigWith resolve nm key port overlay exitNodeID = .ok cfg) :
    ∃ hub peers, buildHub resolve nm.hub = .ok hub ∧
      buildPeers exitNodeID (selfIPv6 nm).isSome nm.peers = .ok peers ∧ cfg.peers = hub ++ peers ∧ cfg.privateKey = key := by
  unfold buildConfigWith at h
  cases hs : parseAddr nm.selfIPv4 with
  | none => rw [hs] at h; cases h
  | some selfIP =>
    rw [hs] at h
    obtain ⟨hub, hh, h⟩ := bind_ok.mp h
    obtain ⟨peers, hp, h⟩ := bind_ok.mp h
    cases h
    exact ⟨hub, peers, hh, hp, rfl, rfl⟩

/-- The keys of the configuration are the hub's and those of the entries that are not
    reached through it. -/
theorem buildConfigWith_keys (h : buildConfigWith resolve nm key port overlay exitNodeID = .ok cfg) (k : Wg.Key) :
    (∃ w ∈ cfg.peers, w.publicKey = k) ↔
      (nm.hub.publicKey ≠ [] ∧ Wg.parseKey nm.hub.publicKey = some k) ∨
        ∃ p ∈ nm.peers, p.viaHub = false ∧ Wg.parseKey p.publicKey = some k := by
  obtain ⟨hub, peers, hh, hp, he, -⟩ := buildConfigWith_ok h
  rw [← buildHub_keys hh k, ← buildPeers_keys hp k, he]
  simp only [List.mem_append, or_and_right, exists_or]

theorem buildConfigWith_parses (h : buildConfigWith resolve nm key port overlay exitNodeID = .ok cfg) :
    ∀ p ∈ nm.peers, p.viaHub = false → ∃ k, Wg.parseKey p.publicKey = some k := by
  obtain ⟨_, _, _, hp, _⟩ := buildConfigWith_ok h
  intro p hm hv
  obtain ⟨w, -, hb⟩ := (buildPeers_mem hp).2 p hm hv
  exact ⟨_, buildPeer_key hb⟩

/-! ## Routes and the packet filter -/

/-- `RoutesOf`: the prefixes reached through peers beyond their own addresses inside the
    overlays. -/
def routesOf (cfg : Wg.Config) (overlays : List Prefix) : List Prefix :=
  cfg.peers.flatMap fun p => p.allowedIPs.filter fun a =>
    !(a.isValid && a.bits == a.ip.bitLen && overlays.any fun o => o.contains a.ip)

/-- Whether a router that advertises `advertised` forwards to `dst`. -/
def serves (advertised : List Prefix) (v6 : Bool) (dst : Prefix) : Bool :=
  if Wg.isExitRoute dst then advertised.contains Wg.exitRoute && (dst == Wg.exitRoute || v6)
  else advertised.any fun adv => !Wg.isExitRoute adv && decide (adv.bits ≤ dst.bits) && adv.contains dst.ip

def forwardRule (advertised : List Prefix) (v6 : Bool) (f : ForwardRule) : Option Wg.ForwardRule := do
  let src ← parseAddr f.src
  let dst ← parsePrefix f.dst
  if serves advertised v6 dst then return ⟨prefixFrom src src.bitLen, dst, f.proto, f.portLo, f.portHi⟩ else none

def filterRule (f : FilterRule) : Option Wg.FilterRule :=
  (parseAddr f.src).map fun src => { src := prefixFrom src src.bitLen, proto := f.proto, lo := f.portLo, hi := f.portHi }

/-- The addresses of the netmap's peers and of the hub, each once, in order. -/
def visibleAddrs (nm : NetMap) : List Addr :=
  let all := (nm.peers.flatMap fun p => [p.ipv4, p.ipv6].filterMap parseAddr) ++
    nm.hub.allowedIPs.filterMap fun a => (parsePrefix a).bind fun p => if p.bits = p.ip.bitLen then some p.ip else none
  all.foldl (fun seen ip => if ip ∈ seen then seen else seen ++ [ip]) []

def filterSetFor (nm : NetMap) (iface : Str) (self : Addr) (overlay : Prefix) (advertised : List Prefix) : Wg.FilterSet :=
  let self6 := selfIPv6 nm
  let exit6 := advertised.contains Wg.exitRoute && self6.isSome
  { interface := iface, hook := .input, localIP := self, localIP6 := (self6.map (·.1)).getD .zero
    visible := visibleAddrs nm
    rules := nm.filter.filterMap filterRule
    forward := nm.forward.filterMap (forwardRule advertised self6.isSome)
    masquerade := if advertised = [] then [] else advertised ++ if exit6 then [Wg.exitRoute6] else []
    masqueradeFrom := if advertised = [] then Prefix.none else overlay
    masqueradeFrom6 := if exit6 then (self6.map (·.2)).getD Prefix.none else Prefix.none }

end Thawr.Client
