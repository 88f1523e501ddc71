/-
  Thawr.Client.Router — what a server's netmap can make a device carry
  (`internal/client/netmap.go`, `installRoutes` of `internal/client/daemon.go`).

  (1) A router forwards only into prefixes it advertises itself (`router_forwards_advertised`).
  The netmap's forward rules are the server's, the advertised prefixes are the device's.

  (2) Using an exit node is meant to be the device's choice: the default route belongs on the
  peer it selected, when the netmap flags that peer as an exit node. The allowed IPs of the
  hub and of the peers are the server's texts, though, and none of the four functions between
  them and the routing table looks for a default route among them. The choice is the device's
  exactly when no such text spells one (`exit_by_choice_iff`); a netmap that gives the hub
  0.0.0.0/0 takes it away (`hub_takes_default_route`).
-/

import Thawr.Client.NetMap
import Thawr.Wg.Packets
import Thawr.Wg.Routes
import Thawr.Go.Prefixes

namespace Thawr.Client

open Go Netip

/-! ## (1) Forwarding -/

section

variable {nm : NetMap} {iface : Str} {me : Addr} {overlay : Prefix} {advertised : List Prefix}

/-- The device advertises a prefix for the address. 0.0.0.0/0 also stands for IPv6 when the
    netmap gives this device an address of the IPv6 overlay. -/
def Advertises (nm : NetMap) (advertised : List Prefix) (dst : Addr) : Prop :=
  (∃ adv ∈ advertised, adv.contains dst = true) ∨
    (Wg.exitRoute ∈ advertised ∧ (selfIPv6 nm).isSome = true ∧ dst.is6 = true)

/-- What a served prefix contains is advertised. -/
theorem serves_contains {dst : Prefix} {x : Addr} (hs : serves advertised (selfIPv6 nm).isSome dst = true)
    (hc : dst.contains x = true) : Advertises nm advertised x := by
  unfold serves at hs
  by_cases hexit : Wg.isExitRoute dst = true
  · rw [if_pos hexit, Bool.and_eq_true, Bool.or_eq_true, beq_iff_eq, List.contains_iff_mem] at hs
    obtain ⟨hadv, rfl | hv6⟩ := hs
    · exact .inl ⟨Wg.exitRoute, hadv, hc⟩
    · simp only [Wg.isExitRoute, Bool.or_eq_true, beq_iff_eq] at hexit
      rcases hexit with rfl | rfl
      · exact .inl ⟨Wg.exitRoute, hadv, hc⟩
      · have hlen := contains_family hc
        refine .inr ⟨hadv, hv6, ?_⟩
        cases x with
        | zero => cases hlen
        | v4 b => cases hlen
        | v6 b z => rfl
  · rw [if_neg hexit, List.any_eq_true] at hs
    obtain ⟨adv, hadv, hs⟩ := hs
    simp only [Bool.and_eq_true, decide_eq_true_eq] at hs
    exact .inl ⟨adv, hadv, contains_trans hs.1.2 hs.2 hc⟩

/-- The device's own address is valid: `NewDaemon` parsed it. -/
theorem router_forwards_advertised (hme : me.isValid = true) {f : Wg.PacketFilter} {now : Int} {b : List UInt8} {p : Wg.Packet}
    (hset : f.set = some (filterSetFor nm iface me overlay advertised)) (hp : Wg.parsePacket b = some p)
    (hlocal : Wg.isLocal (filterSetFor nm iface me overlay advertised) p.dst = false) (hflow : Wg.NoFlow f now b)
    (hallow : (f.allow now b).2 = true) : Advertises nm advertised p.dst := by
  have hin : (filterSetFor nm iface me overlay advertised).hook = .input := rfl
  have hip : (filterSetFor nm iface me overlay advertised).localIP = me := rfl
  have hforward : Wg.forwardAllows (filterSetFor nm iface me overlay advertised) p = true := by
    rw [Wg.allow_new hset hp hflow] at hallow
    simpa [Wg.PacketFilter.decideNew, hin, hip, hme, hlocal] using hallow
  simp only [Wg.forwardAllows, List.any_eq_true, Bool.and_eq_true] at hforward
  obtain ⟨r, hr, ⟨-, hdst⟩, -⟩ := hforward
  obtain ⟨rule, -, hrule⟩ := List.mem_filterMap.mp hr
  simp only [forwardRule, Option.bind_eq_bind, Option.bind_eq_some_iff] at hrule
  obtain ⟨src, -, dst, -, hrule⟩ := hrule
  split at hrule
  · rename_i hs
    cases hrule
    exact serves_contains hs hdst
  · cases hrule

end

/-- A server that asks for 192.168.7.0/24 and for the whole internet. -/
def greedyMap : NetMap :=
  { forward := [⟨str "10.0.0.1", str "192.168.7.0/24", str "tcp", 22, 22⟩,
    ⟨str "10.0.0.1", str "0.0.0.0/0", str "any", 1, 65535⟩] }

def lan : Prefix := prefixFrom (.v4 (Arr.ofNat 4 0xc0a80700)) 24

def greedySet : Wg.FilterSet := filterSetFor greedyMap (str "thawr0") (.v4 (Arr.ofNat 4 0x0a000002)) Prefix.none [lan]

def lanSyn : List UInt8 :=
  [0x45, 0, 0, 40, 0, 0, 0, 0, 64, 6, 0, 0, 10, 0, 0, 1, 192, 168, 7, 9] ++
    [0xc0, 0, 0, 22, 0, 0, 0, 0, 0, 0, 0, 0, 0x50, 2, 0, 0, 0, 0, 0, 0]

/-- The router for that network forwards into it, and it advertises it. -/
theorem lanSyn_advertised : (Wg.PacketFilter.allow { set := some greedySet } 0 lanSyn).2 = true ∧
      Advertises greedyMap [lan] (.v4 (Arr.ofNat 4 0xc0a80709)) := by
  have hallow : (Wg.PacketFilter.allow { set := some greedySet } 0 lanSyn).2 = true := by decide +kernel
  have hp : Wg.parsePacket lanSyn =
      some ⟨6, .v4 (Arr.ofNat 4 0x0a000001), .v4 (Arr.ofNat 4 0xc0a80709), 0xc000, 22, 2⟩ := by decide +kernel
  have hflow : Wg.NoFlow { set := some greedySet } 0 lanSyn := fun p _ => by rw [Wg.reply_no_flow fun _ => rfl]
  exact ⟨hallow, router_forwards_advertised rfl rfl hp (by decide +kernel) hflow hallow⟩

/-! ## (2) The default route -/

theorem mem_parsePrefixes {texts : List Str} {ips : List Prefix} (h : parsePrefixes texts = .ok ips) {a : Prefix} :
    a ∈ ips ↔ ∃ s ∈ texts, parsePrefix s = some a := by
  induction texts generalizing ips with
  | nil =>
    cases h
    simp
  | cons s rest ih =>
    unfold parsePrefixes at h
    cases hs : parsePrefix s with
    | none =>
      rw [hs] at h
      cases h
    | some p =>
      rw [hs] at h
      obtain ⟨tail, ht, rfl⟩ := map_ok.mp h
      simp [ih ht, hs, eq_comm]

def IsDefault (a : Prefix) : Prop := a.isValid = true ∧ a.bits = 0

def SpellsDefault (texts : List Str) : Prop := ∃ s ∈ texts, ∃ a, parsePrefix s = some a ∧ IsDefault a

theorem spellsDefault_iff {texts : List Str} {ips : List Prefix} (h : parsePrefixes texts = .ok ips) :
    (∃ a ∈ ips, IsDefault a) ↔ SpellsDefault texts := by
  simp only [mem_parsePrefixes h, SpellsDefault]
  grind

/-- The key is that of the peer selected as exit node, which the netmap flags as one. -/
def Chosen (nm : NetMap) (exitNodeID : Str) (k : Wg.Key) : Prop :=
  ∃ p ∈ nm.peers, isExit exitNodeID p = true ∧ Wg.parseKey p.publicKey = some k

def installRoutes (ok : Wg.RouteCall → Bool) (dropped added : List Prefix) (r : Wg.RouteTable) (cfg : Wg.Config)
    (overlays : List Prefix) : Wg.Installing × List Wg.RouteErr :=
  r.set ok dropped added (routesOf cfg overlays)

/-- The call installs a default route. -/
def InstallsDefault : Wg.RouteCall → Prop
  | .add p => IsDefault p
  | .exit _ on => on = true
  | .del _ => False

/-- The device alone decides about the default route: the configuration carries one only on
    the chosen exit node, and one is installed only when there is a chosen exit node. -/
structure ByChoice (nm : NetMap) (exitNodeID : Str) (cfg : Wg.Config) : Prop where
  config : ∀ w ∈ cfg.peers, ∀ a ∈ w.allowedIPs, IsDefault a → Chosen nm exitNodeID w.publicKey
  routes : ∀ (ok : Wg.RouteCall → Bool) (dropped added : List Prefix) (r : Wg.RouteTable) (overlays : List Prefix),
    Wg.Visits r (routesOf cfg overlays) dropped added →
      ∀ c ∈ (installRoutes ok dropped added r cfg overlays).1.2, InstallsDefault c → ∃ p ∈ nm.peers, isExit exitNodeID p = true

/-- No allowed IP of the hub or of a peer that is not reached through it spells a default
    route, except on entries with the key of the chosen exit node. -/
structure NoForeignDefault (nm : NetMap) (exitNodeID : Str) : Prop where
  hub : ∀ k, nm.hub.publicKey ≠ [] → Wg.parseKey nm.hub.publicKey = some k → SpellsDefault nm.hub.allowedIPs →
    Chosen nm exitNodeID k
  peers : ∀ p ∈ nm.peers, p.viaHub = false → ∀ k, Wg.parseKey p.publicKey = some k → SpellsDefault p.allowedIPs →
    Chosen nm exitNodeID k

section

variable {nm : NetMap} {exitNodeID : Str} {v6 : Bool}

theorem buildHub_default {resolve : Str → Option AddrPort} {hub : HubPeer} {ws : List Wg.Peer} (h : buildHub resolve hub = .ok ws)
    (k : Wg.Key) :
    (∃ w ∈ ws, w.publicKey = k ∧ ∃ a ∈ w.allowedIPs, IsDefault a) ↔
      hub.publicKey ≠ [] ∧ Wg.parseKey hub.publicKey = some k ∧ SpellsDefault hub.allowedIPs := by
  rcases buildHub_ok h with ⟨hk, rfl⟩ | ⟨hk, key, ips, hp, hi, rfl⟩
  · simp [hk]
  · simp [hk, hp, ← spellsDefault_iff hi]

/-- A peer's own entry carries a default route when a text spells one or it is the exit node. -/
theorem buildPeer_default {p : Peer} {w : Wg.Peer} (h : buildPeer exitNodeID v6 p = .ok w) :
    (∃ a ∈ w.allowedIPs, IsDefault a) ↔ SpellsDefault p.allowedIPs ∨ isExit exitNodeID p = true := by
  obtain ⟨-, ips, hi, hw⟩ := buildPeer_ok h
  -- an address alone is no default route
  have hown : (∃ a ∈ ownPrefixes p ips, IsDefault a) ↔ ∃ a ∈ ips, IsDefault a := by
    unfold ownPrefixes
    split
    · rename_i ip _
      split
      · rename_i hnil
        subst hnil
        have hsingle : ¬IsDefault (prefixFrom ip 32) := by
          intro hd
          have hbits := hd.2
          rw [bits_prefixFrom hd.1] at hbits
          cases hbits
        simp [hsingle]
      · rfl
    · rfl
  have hexit : (∃ a ∈ exitPrefixes exitNodeID v6 p, IsDefault a) ↔ isExit exitNodeID p = true := by
    have hroute : IsDefault Wg.exitRoute := ⟨rfl, rfl⟩
    unfold exitPrefixes
    by_cases he : isExit exitNodeID p = true
    · rw [if_pos he]
      split <;> simp [he, hroute]
    · simp [he]
  rw [hw]
  simp only [List.mem_append, or_and_right, exists_or]
  rw [hown, hexit, spellsDefault_iff hi]

/-- Which keys the configuration carries a default route on. -/
theorem buildConfigWith_default {resolve : Str → Option AddrPort} {key : Wg.Key} {port : Nat} {overlay : Prefix} {cfg : Wg.Config}
    (h : buildConfigWith resolve nm key port overlay exitNodeID = .ok cfg) (k : Wg.Key) :
    (∃ w ∈ cfg.peers, w.publicKey = k ∧ ∃ a ∈ w.allowedIPs, IsDefault a) ↔
      (nm.hub.publicKey ≠ [] ∧ Wg.parseKey nm.hub.publicKey = some k ∧ SpellsDefault nm.hub.allowedIPs) ∨
        ∃ p ∈ nm.peers, p.viaHub = false ∧ Wg.parseKey p.publicKey = some k ∧
          (SpellsDefault p.allowedIPs ∨ isExit exitNodeID p = true) := by
  obtain ⟨hub, peers, hh, hp, he, -⟩ := buildConfigWith_ok h
  obtain ⟨hfrom, hto⟩ := buildPeers_mem hp
  rw [← buildHub_default hh k, he]
  simp only [List.mem_append, or_and_right, exists_or]
  refine or_congr Iff.rfl ?_
  constructor
  · intro hx
    obtain ⟨w, hw, rfl, hd⟩ := hx
    obtain ⟨p, hp, hv, hb⟩ := hfrom w hw
    exact ⟨p, hp, hv, buildPeer_key hb, (buildPeer_default hb).mp hd⟩
  · intro hx
    obtain ⟨p, hp, hv, hk, hd⟩ := hx
    obtain ⟨w, hw, hb⟩ := hto p hp hv
    rw [buildPeer_key hb] at hk
    exact ⟨w, hw, Option.some.inj hk, (buildPeer_default hb).mpr hd⟩

theorem masked_default {a : Prefix} (h : IsDefault a.masked) : IsDefault a := by
  unfold IsDefault Prefix.masked at h
  by_cases hv : a.isValid = true
  · rw [if_pos hv] at h
    have hbits := h.2
    rw [bits_prefixFrom h.1] at hbits
    exact ⟨hv, hbits⟩
  · rw [if_neg hv] at h
    cases h.1

/-- A default route that is installed is one the configuration carries. -/
theorem installRoutes_default {ok : Wg.RouteCall → Bool} {dropped added overlays : List Prefix} {r : Wg.RouteTable}
    {cfg : Wg.Config}
    (hv : Wg.Visits r (routesOf cfg overlays) dropped added) {c : Wg.RouteCall}
    (hc : c ∈ (installRoutes ok dropped added r cfg overlays).1.2) (hd : InstallsDefault c) :
    ∃ w ∈ cfg.peers, ∃ a ∈ w.allowedIPs, IsDefault a := by
  have hwant : ∀ a ∈ routesOf cfg overlays, IsDefault a → ∃ w ∈ cfg.peers, ∃ a ∈ w.allowedIPs, IsDefault a := by
    intro a ha hda
    obtain ⟨w, hw, ha⟩ := List.mem_flatMap.mp ha
    exact ⟨w, hw, a, (List.mem_filter.mp ha).1, hda⟩
  have hcall := Wg.set_calls hv c hc
  cases c with
  | add p =>
    obtain ⟨a, ha, -, rfl⟩ := hcall
    exact hwant a ha (masked_default hd)
  | del p => cases hd
  | exit p on =>
    obtain ⟨hexit, hon⟩ := hcall
    refine hwant p (hon hd) ?_
    simp only [Wg.isExitRoute, Bool.or_eq_true, beq_iff_eq] at hexit
    rcases hexit with rfl | rfl
    · exact ⟨rfl, rfl⟩
    · exact ⟨rfl, rfl⟩

/-- The default route is the device's choice exactly when no allowed IP of the netmap spells
    one on an entry other than the chosen exit node's. -/
theorem exit_by_choice_iff {resolve : Str → Option AddrPort} {key : Wg.Key} {port : Nat} {overlay : Prefix} {cfg : Wg.Config}
    (h : buildConfigWith resolve nm key port overlay exitNodeID = .ok cfg) :
    ByChoice nm exitNodeID cfg ↔ NoForeignDefault nm exitNodeID := by
  constructor
  · intro hby
    have hkey : ∀ k, (∃ w ∈ cfg.peers, w.publicKey = k ∧ ∃ a ∈ w.allowedIPs, IsDefault a) → Chosen nm exitNodeID k := by
      intro k hx
      obtain ⟨w, hw, rfl, a, ha, hd⟩ := hx
      exact hby.config w hw a ha hd
    refine ⟨fun k hne hk hs => ?_, fun p hp hv k hk hs => ?_⟩
    · exact hkey k ((buildConfigWith_default h k).mpr (.inl ⟨hne, hk, hs⟩))
    · exact hkey k ((buildConfigWith_default h k).mpr (.inr ⟨p, hp, hv, hk, .inl hs⟩))
  · intro hno
    have hconfig : ∀ w ∈ cfg.peers, ∀ a ∈ w.allowedIPs, IsDefault a → Chosen nm exitNodeID w.publicKey := by
      intro w hw a ha hd
      rcases (buildConfigWith_default h w.publicKey).mp ⟨w, hw, rfl, a, ha, hd⟩ with ⟨hne, hk, hs⟩ | ⟨p, hp, hv, hk, hs | he⟩
      · exact hno.hub _ hne hk hs
      · exact hno.peers p hp hv _ hk hs
      · exact ⟨p, hp, he, hk⟩
    refine ⟨hconfig, fun ok dropped added r overlays hvisits c hc hd => ?_⟩
    obtain ⟨w, hw, a, ha, hda⟩ := installRoutes_default hvisits hc hd
    obtain ⟨p, hp, he, -⟩ := hconfig w hw a ha hda
    exact ⟨p, hp, he⟩

end

/-! ## A hub that takes the default route -/

def keyText (n : Nat) : Str := Wg.keyString (Arr.ofNat 32 n)

/-- A netmap with a hub, a peer flagged as exit node and its allowed IPs. -/
def exitMap (hubIPs peerIPs : List Str) : NetMap where
  selfIPv4 := str "10.0.0.2"
  hub := { publicKey := keyText 1, allowedIPs := hubIPs }
  peers := [{
    id := str "e", name := str "nas", publicKey := keyText 2, ipv4 := str "10.0.0.3"
    allowedIPs := peerIPs, exitNode := true }]

def home : Prefix := prefixFrom (.v4 (Arr.ofNat 4 0x0a000000)) 24

/-- The configuration built from it, with the prefixes of the hub and of the peer. -/
def exitConfig (hubIPs peerIPs : List Prefix) (fwMark : Nat) : Wg.Config where
  privateKey := Arr.ofNat 32 7
  listenPort := 51820
  addresses := [prefixFrom (.v4 (Arr.ofNat 4 0x0a000002)) 24]
  peers := [⟨Arr.ofNat 32 1, AddrPort.zero, hubIPs, peerKeepalive⟩, ⟨Arr.ofNat 32 2, AddrPort.zero, peerIPs, 0⟩]
  fwMark := fwMark

def nasIP : Prefix := prefixFrom (.v4 (Arr.ofNat 4 0x0a000003)) 32

theorem exitMap_noForeign : NoForeignDefault (exitMap [str "10.0.0.1/32"] [str "10.0.0.3/32"]) (str "e") where
  hub := by
    intro k _ _ hs
    obtain ⟨s, hs, a, ha, hd⟩ := hs
    have hparse : parsePrefix (str "10.0.0.1/32") = some (prefixFrom (.v4 (Arr.ofNat 4 0x0a000001)) 32) := by decide +kernel
    rw [List.mem_singleton.mp hs, hparse] at ha
    cases ha
    cases hd.2
  peers := by
    intro p hp _ k hk _
    refine ⟨p, hp, ?_, hk⟩
    rw [List.mem_singleton.mp hp]
    decide

/-- With the server's allowed IPs of a plain network, the selected exit node alone carries the
    default route. -/
theorem nas_by_choice :
    ByChoice (exitMap [str "10.0.0.1/32"] [str "10.0.0.3/32"]) (str "e")
      (exitConfig [prefixFrom (.v4 (Arr.ofNat 4 0x0a000001)) 32] [nasIP, Wg.exitRoute] Wg.defaultFwMark) := by
  have hbuild : buildConfigWith (fun _ => none) (exitMap [str "10.0.0.1/32"] [str "10.0.0.3/32"]) (Arr.ofNat 32 7)
    51820 home (str "e") =
      .ok (exitConfig [prefixFrom (.v4 (Arr.ofNat 4 0x0a000001)) 32] [nasIP, Wg.exitRoute] Wg.defaultFwMark) := by decide +kernel
  exact (exit_by_choice_iff hbuild).mpr exitMap_noForeign

def takenConfig : Wg.Config := exitConfig [Wg.exitRoute, ⟨.v6 (Arr.ofNat 16 1) [], 1⟩] [nasIP] 0

theorem taken_visits : Wg.Visits {} (routesOf takenConfig [home]) [] [Wg.exitRoute6] := by
  have hroutes : routesOf takenConfig [home] = [Wg.exitRoute, ⟨.v6 (Arr.ofNat 16 1) [], 1⟩] := by decide +kernel
  have hexit : Wg.isExitRoute Wg.exitRoute = true ∧ Wg.isExitRoute ⟨.v6 (Arr.ofNat 16 1) [], 1⟩ = false ∧
      Prefix.masked ⟨.v6 (Arr.ofNat 16 1) [], 1⟩ = Wg.exitRoute6 := by decide +kernel
  refine ⟨⟨List.nodup_nil, fun p => ?_⟩, List.nodup_singleton _, fun p => ?_⟩
  · simp [Finmap.notMem_empty]
  · rw [Wg.mem_wanted, hroutes]
    simp [hexit]
    exact eq_comm

/-- A server that lists default routes among the hub's allowed IPs: the device selected no exit
    node, and both end up in its configuration and its routing table, one through
    `setExitRoute`, the other, whose spelling is not canonical, through `addRoute`. -/
theorem hub_takes_default_route :
    buildConfigWith (fun _ => none) (exitMap [str "0.0.0.0/0", str "::1/0"] [str "10.0.0.3/32"]) (Arr.ofNat 32 7) 51820 home [] =
        .ok takenConfig ∧
      (∃ w ∈ takenConfig.peers, ∃ a ∈ w.allowedIPs, IsDefault a) ∧
      Wg.Visits {} (routesOf takenConfig [home]) [] [Wg.exitRoute6] ∧
      (installRoutes (fun _ => true) [] [Wg.exitRoute6] {} takenConfig [home]).1.2 =
        [.add Wg.exitRoute6, .exit Wg.exitRoute true] ∧
      ¬∃ p ∈ (exitMap [str "0.0.0.0/0", str "::1/0"] [str "10.0.0.3/32"]).peers, isExit [] p = true :=
  ⟨by decide +kernel, ⟨_, List.mem_cons_self, _, List.mem_cons_self, rfl, rfl⟩, taken_visits, by decide +kernel, by decide⟩

end Thawr.Client
