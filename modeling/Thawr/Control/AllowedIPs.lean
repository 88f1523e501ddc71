/-
  Thawr.Control.AllowedIPs — which WireGuard peer of a netmap holds which prefix
  (`NetMapBuilder.Build` of `internal/control/netmap.go`).

  WireGuard routes by prefix and moves a prefix that is set twice without a word. The prefixes
  of a netmap come from the rows of the peers, from the static peers behind the hub, from the
  hub itself and from the routes of the policy.

  Proved: no network is on two WireGuard peers of a netmap, every visible peer's addresses are
  on its own entry or, for a static peer, on the hub alone, and every route is on the entry of
  the router it names and on no other (`allowedIPs_unambiguous`).
-/

import Thawr.Control.Policy.Reach
import Thawr.Control.Routes

namespace Thawr.Control

open Go Netip

structure HubConfig.Valid (hub : HubConfig) : Prop where
  address : hub.address.is4 = true ∧ hub.overlay.contains hub.address = true
  address6 : hub.address6.isValid = true → hub.address6.is6 = true ∧ hub.overlay6.contains hub.address6 = true

/-- Each peer has its own addresses in the overlays, none of them the hub's, and only agents
    have approved routes. -/
structure Placed (hub : HubConfig) (t : Store.Tables) : Prop where
  ids : (t.peers.map (·.id)).Nodup
  ipv4 : ∀ q ∈ t.peers, ∃ a, parseAddr q.ipv4 = some a ∧ a.is4 = true ∧ hub.overlay.contains a = true ∧ a ≠ hub.address
  ipv6 : ∀ q ∈ t.peers, q.ipv6 ≠ [] →
    ∃ a, parseAddr q.ipv6 = some a ∧ a.is6 = true ∧ hub.overlay6.contains a = true ∧ a ≠ hub.address6
  distinct4 : ∀ p ∈ t.peers, ∀ q ∈ t.peers, parseAddr p.ipv4 = parseAddr q.ipv4 → p = q
  distinct6 : ∀ p ∈ t.peers, ∀ q ∈ t.peers, p.ipv6 ≠ [] → parseAddr p.ipv6 = parseAddr q.ipv6 → p = q
  routers : ∀ r ∈ t.routes, r.approved = true → ∀ q ∈ t.peers, q.id = r.peerID → q.mode = .agent

/-- The WireGuard peers of a netmap: the hub and the entries that are not behind it. -/
def NetMap.wireguard (nm : NetMap) : List (List Prefix) :=
  nm.hub.allowedIPs :: (nm.peers.filter fun e => !e.viaHub).map (·.allowedIPs)

/-- No network is on two of the peers. -/
def Unambiguous (l : List (List Prefix)) : Prop := l.Pairwise fun xs ys => ∀ x ∈ xs, ∀ y ∈ ys, x.masked ≠ y.masked

def Owns (q : Store.Peer) (a : Addr) : Prop := parseAddr q.ipv4 = some a ∨ (q.ipv6 ≠ [] ∧ parseAddr q.ipv6 = some a)

/-- What `self` sends to `q`: its /32, and its /128 when both are IPv6 capable. -/
inductive PrefixOf (self q : Store.Peer) : Prefix → Prop where
  | ipv4 {a : Addr} : parseAddr q.ipv4 = some a → PrefixOf self q (prefixFrom a 32)
  | ipv6 {a : Addr} : self.ipv6Capable = true → q.ipv6Capable = true → self.ipv6 ≠ [] → q.ipv6 ≠ [] →
    parseAddr q.ipv6 = some a → PrefixOf self q (prefixFrom a 128)

section

variable {hub : HubConfig} {t : Store.Tables} {q q' : Store.Peer} {a : Addr}

/-! ## Addresses -/

theorem Placed.owns_plain (ht : Placed hub t) (hq : q ∈ t.peers) (h : Owns q a) : a.isValid = true ∧ a.zone = [] := by
  rcases h with h | ⟨hne, h⟩
  · obtain ⟨b, hb, -, hc, -⟩ := ht.ipv4 q hq
    rw [h] at hb
    cases hb
    exact contains_plain hc
  · obtain ⟨b, hb, -, hc, -⟩ := ht.ipv6 q hq hne
    rw [h] at hb
    cases hb
    exact contains_plain hc

/-- An address is in the IPv4 overlay or of the other family. -/
theorem Placed.owns_family (ht : Placed hub t) (hq : q ∈ t.peers) (h : Owns q a) :
    (parseAddr q.ipv4 = some a ∧ a.is4 = true ∧ hub.overlay.contains a = true) ∨
      (q.ipv6 ≠ [] ∧ parseAddr q.ipv6 = some a ∧ a.is6 = true) := by
  rcases h with h | ⟨hne, h⟩
  · obtain ⟨b, hb, h4, hc, -⟩ := ht.ipv4 q hq
    rw [h] at hb
    cases hb
    exact .inl ⟨h, h4, hc⟩
  · obtain ⟨b, hb, h6, -, -⟩ := ht.ipv6 q hq hne
    rw [h] at hb
    cases hb
    exact .inr ⟨hne, h, h6⟩

theorem is4_not_is6 (h4 : a.is4 = true) (h6 : a.is6 = true) : False := by
  cases a with
  | zero => cases h4
  | v4 b => cases h6
  | v6 b z => cases h4

theorem Placed.owns_unique (ht : Placed hub t) (hq : q ∈ t.peers) (hq' : q' ∈ t.peers) (h : Owns q a) (h' : Owns q' a) :
    q = q' := by
  rcases ht.owns_family hq h with ⟨h, h4, -⟩ | ⟨hne, h, h6⟩
  · rcases ht.owns_family hq' h' with ⟨h', -, -⟩ | ⟨-, -, h6⟩
    · exact ht.distinct4 q hq q' hq' (h.trans h'.symm)
    · exact absurd h6 (is4_not_is6 h4)
  · rcases ht.owns_family hq' h' with ⟨-, h4, -⟩ | ⟨-, h', -⟩
    · exact absurd h6 (is4_not_is6 h4)
    · exact ht.distinct6 q hq q' hq' hne (h.trans h'.symm)

/-- No peer has an address of the hub. -/
theorem Placed.owns_ne_hub (ht : Placed hub t) (hh : hub.Valid) (hq : q ∈ t.peers) (h : Owns q a) :
    a ≠ hub.address ∧ (hub.address6.isValid = true → a ≠ hub.address6) := by
  rcases ht.owns_family hq h with ⟨h, h4, -⟩ | ⟨hne, h, h6⟩
  · obtain ⟨b, hb, -, -, hhub⟩ := ht.ipv4 q hq
    rw [h] at hb
    cases hb
    refine ⟨hhub, fun hv he => ?_⟩
    exact is4_not_is6 h4 (he ▸ (hh.address6 hv).1)
  · obtain ⟨b, hb, -, -, hhub⟩ := ht.ipv6 q hq hne
    rw [h] at hb
    cases hb
    refine ⟨fun he => ?_, fun _ => hhub⟩
    exact is4_not_is6 (he ▸ hh.address.1) h6

theorem single_inj {b : Addr} (ha : a.isValid = true ∧ a.zone = []) (hb : b.isValid = true ∧ b.zone = [])
    (h : prefixFrom a a.bitLen = prefixFrom b b.bitLen) : a = b := by
  rw [single_eq ha.1 ha.2, single_eq hb.1 hb.2] at h
  exact congrArg Prefix.ip h

/-- A route of the policy is the prefix of no address of the overlays. -/
theorem route_ne_single {overlay r : Prefix} (hr : Policy.isRoute r overlay = true)
    (ha : a.isValid = true ∧ a.zone = []) (h : overlay.contains a = true ∨ a.is6 = true) : r ≠ prefixFrom a a.bitLen := by
  simp only [Policy.isRoute, Bool.and_eq_true, Bool.not_eq_true'] at hr
  obtain ⟨⟨-, h4⟩, hover⟩ := hr
  intro he
  rw [he] at h4 hover
  rcases h with h | h
  · rw [single_overlaps h] at hover
    cases hover
  · rw [single_eq ha.1 ha.2] at h4
    exact is4_not_is6 h4 h

theorem Placed.route_ne (ht : Placed hub t) (hq : q ∈ t.peers) (h : Owns q a) {r : Prefix}
    (hr : Policy.isRoute r hub.overlay = true) : r ≠ prefixFrom a a.bitLen := by
  refine route_ne_single hr (ht.owns_plain hq h) ?_
  rcases ht.owns_family hq h with ⟨-, -, hc⟩ | ⟨-, -, h6⟩
  · exact .inl hc
  · exact .inr h6

/-! ## What a peer's own prefixes are -/

theorem capableIPv6_ok (h : (capableIPv6 q).isValid = true) :
    q.ipv6Capable = true ∧ q.ipv6 ≠ [] ∧ parseAddr q.ipv6 = some (capableIPv6 q) ∧ (capableIPv6 q).is6 = true := by
  unfold capableIPv6 at h ⊢
  by_cases hcap : q.ipv6Capable = false ∨ q.ipv6 = []
  · rw [if_pos hcap] at h
    cases h
  · rw [if_neg hcap] at h ⊢
    rw [not_or, Bool.not_eq_false] at hcap
    cases hp : parseAddr q.ipv6 with
    | none =>
      rw [hp] at h
      cases h
    | some b =>
      rw [hp] at h
      by_cases h6 : b.is6 = true
      · simp [Option.filter_some, h6, hcap]
      · rw [Option.filter_some, if_neg h6] at h
        cases h

/-- A capable peer's IPv6 address is the one of its row. -/
theorem Placed.capableIPv6_eq (ht : Placed hub t) (hq : q ∈ t.peers) (hcap : q.ipv6Capable = true) (hne : q.ipv6 ≠ []) :
    parseAddr q.ipv6 = some (capableIPv6 q) ∧ (capableIPv6 q).is6 = true ∧ hub.overlay6.contains (capableIPv6 q) = true := by
  obtain ⟨b, hb, h6, hc, -⟩ := ht.ipv6 q hq hne
  have heq : capableIPv6 q = b := by
    unfold capableIPv6
    rw [if_neg (by simp [hcap, hne]), hb, Option.filter_some, if_pos h6]
    rfl
  rw [heq]
  exact ⟨hb, h6, hc⟩

theorem bitLen_of_is4 (h : a.is4 = true) : a.bitLen = 32 := by
  cases a with
  | zero => cases h
  | v4 b => rfl
  | v6 b z => cases h

theorem bitLen_of_is6 (h : a.is6 = true) : a.bitLen = 128 := by
  cases a with
  | zero => cases h
  | v4 b => cases h
  | v6 b z => rfl

variable {ip : Addr} {c : Policy.Compiled}

/-- The prefixes of an entry that are not routes are those of its peer's addresses. -/
theorem Placed.owns_of_own (ht : Placed hub t) (hq : q ∈ t.peers) {self6 : Addr} (hip : parseAddr q.ipv4 = some ip)
    {x : Prefix}
    (hx : x ∈ ownPrefixes ip (shownIPv6 self6 q)) : ∃ a, Owns q a ∧ x = prefixFrom a a.bitLen := by
  unfold ownPrefixes at hx
  rcases List.mem_cons.mp hx with rfl | hx
  · obtain ⟨b, hb, h4, -, -⟩ := ht.ipv4 q hq
    rw [hip] at hb
    cases hb
    exact ⟨ip, .inl hip, by rw [bitLen_of_is4 h4]⟩
  · split at hx
    · rename_i hv
      unfold shownIPv6 at hv hx
      split at hv
      · rename_i hself
        rw [if_pos hself] at hx
        obtain ⟨-, hne, hparse, h6⟩ := capableIPv6_ok hv
        exact ⟨capableIPv6 q, .inr ⟨hne, hparse⟩, by rw [bitLen_of_is6 h6, List.mem_singleton.mp hx]⟩
      · cases hv
    · cases hx

/-! ## The routes of a receiver -/

variable {p : Policy.Policy} {S : Sorts} {self : Store.Peer} {r : Policy.Route}

/-- A route is a masked prefix outside the overlay, through a visible agent. -/
structure RouteOf (p : Policy.Policy) (hub : HubConfig) (t : Store.Tables) (me : Str) (r : Policy.Route) : Prop where
  isRoute : Policy.isRoute r.route hub.overlay = true
  masked : r.route.masked = r.route
  router : ∃ q ∈ t.peers, q.id = r.via ∧ q.id ≠ me ∧ q.mode = .agent ∧ (compiled p t hub.overlay).visible me q.id = true

theorem Placed.routeOf (ht : Placed hub t) (hp : Policy.Parsed p) (hself : self ∈ t.peers)
    (hr : r ∈ (compiled p t hub.overlay).routesFor S.routes self.id) : RouteOf p hub t self.id r := by
  obtain ⟨i, hi⟩ := List.mem_iff_getElem?.mp hself
  have hids := ids_policyPeers ht.ids
  have hi' := getElem?_policyPeers hi
  obtain ⟨⟨j, b, hj, hji, hvia, g, hg, hint, hroute⟩, -⟩ := (Policy.mem_routesFor S.routes hids hi').mp hr
  obtain ⟨⟨rule, hrule, -, d, hd, hgd⟩, hcarried⟩ := Policy.mem_routed.mp hg
  obtain ⟨hhost, hisRoute⟩ := Policy.routeDst_cidr hgd hint
  obtain ⟨q, hq, rfl⟩ := List.mem_map.mp (List.mem_of_getElem? hj)
  obtain ⟨row, hrow, hid, happ, -⟩ := approved_of_carried (List.mem_of_getElem? hj) hint hcarried
  have hvisible : (compiled p t hub.overlay).visible self.id q.id = true := by
    refine (Policy.visible_eq_seen hids hi' hj (Ne.symm hji)).trans (Policy.seen_iff.mpr (.inl (.inr ?_)))
    exact List.ne_nil_of_mem hg
  refine ⟨hroute ▸ hisRoute, hroute ▸ hp.masked hrule hd hhost, q, hq, hvia, fun he => hji ?_, ?_, hvisible⟩
  · exact (Policy.index_eq_iff hids hj hi').mpr he
  · exact ht.routers row hrow happ q hq hid.symm

/-- A prefix has one router. -/
theorem Placed.route_via (ht : Placed hub t) (hself : self ∈ t.peers) {r' : Policy.Route}
    (hr : r ∈ (compiled p t hub.overlay).routesFor S.routes self.id)
    (hr' : r' ∈ (compiled p t hub.overlay).routesFor S.routes self.id) (h : r.route = r'.route) : r.via = r'.via := by
  obtain ⟨i, hi⟩ := List.mem_iff_getElem?.mp hself
  have hiff := @Policy.mem_routesFor p (policyPeers t) hub.overlay i _ S.routes (ids_policyPeers ht.ids) (getElem?_policyPeers hi)
  obtain ⟨hleads, hlow⟩ := hiff.mp hr
  obtain ⟨hleads', hlow'⟩ := hiff.mp hr'
  exact List.le_antisymm (hlow r' hleads' h.symm) (hlow' r hleads h)

/-! ## The entries of a netmap -/

theorem mem_shown {x : Store.Peer × Addr} :
    x ∈ shown (some c) t self ↔
      x.1 ∈ t.peers ∧ x.1.id ≠ self.id ∧ c.visible self.id x.1.id = true ∧ parseAddr x.1.ipv4 = some x.2 := by
  obtain ⟨q, ip⟩ := x
  rw [shown_eq, List.mem_filterMap]
  simp only [mem_rowsSeen, Option.map_eq_some_iff, Prod.mk.injEq]
  grind

variable {live : Live} {generation : Int} {selfIP : Addr} {rec : Option Lock.Signed} {x : Prefix} {e : NetPeer}

/-- Where a prefix of an entry comes from: an address of its peer, or a route through it. -/
theorem Placed.entry_prefix (ht : Placed hub t)
    (he : e ∈ (netMapOf S hub (some (compiled p t hub.overlay)) t live generation self selfIP rec).peers)
      (hx : x ∈ e.allowedIPs) :
    ∃ q ∈ t.peers, e.id = q.id ∧ q.mode = .agent ∧ ((∃ a, Owns q a ∧ x = prefixFrom a a.bitLen) ∨
      ∃ r ∈ (compiled p t hub.overlay).routesFor S.routes self.id, r.via = e.id ∧ x = r.route) := by
  obtain ⟨⟨q, ip⟩, hshown, rfl⟩ := List.mem_map.mp he
  obtain ⟨hq, -, -, hip⟩ := mem_shown.mp hshown
  unfold netPeer at hx ⊢
  by_cases hmode : q.mode = .static
  · simp [hmode] at hx
  · have hagent : q.mode = .agent := by
      cases hm : q.mode with
      | agent => rfl
      | static => exact absurd hm hmode
    simp only [hmode, if_false] at hx ⊢
    refine ⟨q, hq, rfl, hagent, ?_⟩
    rcases List.mem_append.mp hx with hx | hx
    · exact .inl (ht.owns_of_own hq hip hx)
    · obtain ⟨r, hr, rfl⟩ := List.mem_map.mp hx
      obtain ⟨hr, hvia⟩ := List.mem_filter.mp hr
      exact .inr ⟨r, hr, beq_iff_eq.mp hvia, rfl⟩

/-- Where a prefix of the hub comes from: its own addresses, or those of a static peer. -/
theorem Placed.hub_prefix (ht : Placed hub t) (hh : hub.Valid)
    (hx : x ∈ (netMapOf S hub (some (compiled p t hub.overlay)) t live generation self selfIP rec).hub.allowedIPs) :
    x = prefixFrom hub.address hub.address.bitLen ∨ (hub.address6.isValid = true ∧
      x = prefixFrom hub.address6 hub.address6.bitLen) ∨
      ∃ q ∈ t.peers, q.mode = .static ∧ ∃ a, Owns q a ∧ x = prefixFrom a a.bitLen := by
  unfold netMapOf at hx
  simp only [List.mem_append, List.mem_cons] at hx
  rcases hx with (rfl | hx) | hx
  · exact .inl (by rw [bitLen_of_is4 hh.address.1])
  · split at hx
    · rename_i hv
      rw [Bool.and_eq_true] at hv
      exact .inr (.inl ⟨hv.2, by rw [bitLen_of_is6 (hh.address6 hv.2).1, List.mem_singleton.mp hx]⟩)
    · cases hx
  · obtain ⟨⟨q, ip⟩, hshown, hx⟩ := List.mem_flatMap.mp hx
    obtain ⟨hq, -, -, hip⟩ := mem_shown.mp hshown
    unfold hubPrefixes at hx
    split at hx
    · rename_i hstatic
      exact .inr (.inr ⟨q, hq, hstatic, ht.owns_of_own hq hip hx⟩)
    · cases hx

/-- The entry of a visible agent. -/
theorem agent_entry (hq : (q, ip) ∈ shown (some c) t self) (hagent : q.mode = .agent) :
    ∃ e ∈ (netMapOf S hub (some c) t live generation self selfIP rec).peers, e.id = q.id ∧ e.viaHub = false ∧
      e.allowedIPs = ownPrefixes ip (shownIPv6 (if (capableIPv6 self).isValid && hub.overlay6.isValid then capableIPv6 self
        else .zero) q) ++ viaRoutes (PolicyVisibility.routing S (some c) self.id) q.id := by
  refine ⟨_, List.mem_map_of_mem hq, ?_⟩
  unfold netPeer
  simp [hagent]

theorem visible_ne {a b : Str} (h : c.visible a b = true) : b ≠ a := by
  intro he
  rw [he] at h
  unfold Policy.Compiled.visible at h
  grind

theorem Placed.entry_masked (ht : Placed hub t) (hp : Policy.Parsed p) (hself : self ∈ t.peers)
    (he : e ∈ (netMapOf S hub (some (compiled p t hub.overlay)) t live generation self selfIP rec).peers)
      (hx : x ∈ e.allowedIPs) :
    x.masked = x := by
  obtain ⟨q, hq, -, -, ⟨a, ha, rfl⟩ | ⟨r, hr, -, rfl⟩⟩ := ht.entry_prefix he hx
  · obtain ⟨hv, hz⟩ := ht.owns_plain hq ha
    exact single_masked hv hz
  · exact (ht.routeOf hp hself hr).masked

theorem Placed.hub_masked (ht : Placed hub t) (hh : hub.Valid)
    (hx : x ∈ (netMapOf S hub (some (compiled p t hub.overlay)) t live generation self selfIP rec).hub.allowedIPs) :
    x.masked = x := by
  rcases ht.hub_prefix hh hx with rfl | ⟨hv, rfl⟩ | ⟨q, hq, -, a, ha, rfl⟩
  · obtain ⟨hv, hz⟩ := contains_plain hh.address.2
    exact single_masked hv hz
  · exact single_masked hv (contains_plain (hh.address6 hv).2).2
  · obtain ⟨hv, hz⟩ := ht.owns_plain hq ha
    exact single_masked hv hz

/-- Two entries of different peers share no prefix. -/
theorem Placed.entries_apart (ht : Placed hub t) (hp : Policy.Parsed p) (hself : self ∈ t.peers) {e' : NetPeer}
    (he : e ∈ (netMapOf S hub (some (compiled p t hub.overlay)) t live generation self selfIP rec).peers)
    (he' : e' ∈ (netMapOf S hub (some (compiled p t hub.overlay)) t live generation self selfIP rec).peers)
    (hx : x ∈ e.allowedIPs) (hx' : x ∈ e'.allowedIPs) : e.id = e'.id := by
  obtain ⟨q, hq, hid, -, hown⟩ := ht.entry_prefix he hx
  obtain ⟨q', hq', hid', -, hown'⟩ := ht.entry_prefix he' hx'
  rcases hown with ⟨a, ha, rfl⟩ | ⟨r, hr, hvia, rfl⟩
  · rcases hown' with ⟨b, hb, heq⟩ | ⟨r, hr, -, heq⟩
    · rw [hid, hid']
      rw [← single_inj (ht.owns_plain hq ha) (ht.owns_plain hq' hb) heq] at hb
      rw [ht.owns_unique hq hq' ha hb]
    · exact absurd heq.symm (ht.route_ne hq ha (ht.routeOf hp hself hr).isRoute)
  · rcases hown' with ⟨b, hb, heq⟩ | ⟨r', hr', hvia', heq⟩
    · exact absurd heq (ht.route_ne hq' hb (ht.routeOf hp hself hr).isRoute)
    · rw [← hvia, ← hvia']
      exact ht.route_via hself hr hr' heq

/-- No prefix of the hub is on an entry. -/
theorem Placed.hub_apart (ht : Placed hub t) (hh : hub.Valid) (hp : Policy.Parsed p) (hself : self ∈ t.peers)
    (he : e ∈ (netMapOf S hub (some (compiled p t hub.overlay)) t live generation self selfIP rec).peers)
    (hx : x ∈ (netMapOf S hub (some (compiled p t hub.overlay)) t live generation self selfIP rec).hub.allowedIPs) :
    x ∉ e.allowedIPs := by
  intro hx'
  obtain ⟨q, hq, -, hagent, hown⟩ := ht.entry_prefix he hx'
  have haddr := contains_plain hh.address.2
  rcases hown with ⟨a, ha, rfl⟩ | ⟨r, hr, -, rfl⟩
  · have hplain := ht.owns_plain hq ha
    obtain ⟨hne4, hne6⟩ := ht.owns_ne_hub hh hq ha
    rcases ht.hub_prefix hh hx with heq | ⟨hv, heq⟩ | ⟨q', hq', hstatic, b, hb, heq⟩
    · exact hne4 (single_inj hplain haddr heq)
    · exact hne6 hv (single_inj hplain (contains_plain (hh.address6 hv).2) heq)
    · rw [← single_inj hplain (ht.owns_plain hq' hb) heq] at hb
      rw [ht.owns_unique hq hq' ha hb, hstatic] at hagent
      cases hagent
  · have hroute := (ht.routeOf hp hself hr).isRoute
    rcases ht.hub_prefix hh hx with heq | ⟨hv, heq⟩ | ⟨q', hq', -, b, hb, heq⟩
    · exact route_ne_single hroute haddr (.inl hh.address.2) heq
    · exact route_ne_single hroute (contains_plain (hh.address6 hv).2) (.inr (hh.address6 hv).1) heq
    · exact ht.route_ne hq' hb hroute heq

theorem entries_ids (hids : (t.peers.map (·.id)).Nodup) :
    (netMapOf S hub (some c) t live generation self selfIP rec).peers.Pairwise fun e e' => e.id ≠ e'.id := by
  have hid : ∀ routing self6 x, (netPeer t live routing self self6 x).id = x.1.id := by
    intro routing self6 x
    obtain ⟨q, ip⟩ := x
    unfold netPeer
    simp only
    split
    · rfl
    · rfl
  show ((shown (some c) t self).map _).Pairwise _
  rw [List.pairwise_map, shown_eq]
  simp only [hid]
  refine List.Pairwise.filterMap _ (fun q q' hne y hy y' hy' => ?_) ((List.pairwise_map.mp hids).filter _)
  obtain ⟨a, -, rfl⟩ := Option.map_eq_some_iff.mp hy
  obtain ⟨a', -, rfl⟩ := Option.map_eq_some_iff.mp hy'
  exact hne

theorem Placed.unambiguous (ht : Placed hub t) (hh : hub.Valid) (hp : Policy.Parsed p) (hself : self ∈ t.peers) :
    Unambiguous (netMapOf S hub (some (compiled p t hub.overlay)) t live generation self selfIP rec).wireguard := by
  unfold Unambiguous NetMap.wireguard
  rw [List.pairwise_cons, List.pairwise_map]
  constructor
  · intro ys hys x hx y hy
    obtain ⟨e, he, rfl⟩ := List.mem_map.mp hys
    obtain ⟨he, -⟩ := List.mem_filter.mp he
    rw [ht.hub_masked hh hx, ht.entry_masked hp hself he hy]
    intro heq
    exact ht.hub_apart hh hp hself he hx (heq ▸ hy)
  · refine List.Pairwise.imp_of_mem (fun {e e'} he he' hne => ?_) ((entries_ids ht.ids).filter _)
    obtain ⟨he, -⟩ := List.mem_filter.mp he
    obtain ⟨he', -⟩ := List.mem_filter.mp he'
    intro x hx y hy
    rw [ht.entry_masked hp hself he hx, ht.entry_masked hp hself he' hy]
    intro heq
    exact hne (ht.entries_apart hp hself he he' hx (heq ▸ hy))

/-- A visible peer's prefixes are among the own ones of its row. -/
theorem Placed.own_prefix (ht : Placed hub t) (hself : self ∈ t.peers) (hq : q ∈ t.peers)
    (hip : parseAddr q.ipv4 = some ip) (hx : PrefixOf self q x) :
    x ∈ ownPrefixes ip (shownIPv6 (if (capableIPv6 self).isValid && hub.overlay6.isValid then capableIPv6 self
      else .zero) q) := by
  unfold ownPrefixes
  cases hx with
  | ipv4 ha =>
    rw [hip] at ha
    cases ha
    exact List.mem_cons_self
  | ipv6 hcap hcap' hne hne' ha =>
    obtain ⟨-, h6, hc⟩ := ht.capableIPv6_eq hself hcap hne
    obtain ⟨hparse, h6', -⟩ := ht.capableIPv6_eq hq hcap' hne'
    have hvalid : ∀ {b : Addr}, b.is6 = true → b.isValid = true := by
      intro b hb
      cases b with
      | zero => cases hb
      | v4 b => rfl
      | v6 b z => rfl
    rw [ha] at hparse
    rw [if_pos (show ((capableIPv6 self).isValid && hub.overlay6.isValid) = true by rw [hvalid h6, contains_isValid hc]; rfl),
      show shownIPv6 (capableIPv6 self) q = capableIPv6 q from if_pos (hvalid h6), if_pos (hvalid h6'), Option.some.inj hparse]
    exact List.mem_cons_of_mem _ (List.mem_singleton_self _)

end

/-- Cryptokey routing in a netmap is unambiguous. No network is on two WireGuard peers; a
    visible agent's prefixes are on its own entry; a visible static peer's are on the hub, and
    no entry has any of its addresses; a route is on the entry of the router it names and on
    nothing else. -/
theorem allowedIPs_unambiguous (p : Policy.Policy) (hp : Policy.Parsed p) (hub : HubConfig) (hh : hub.Valid) (t : Store.Tables)
    (ht : Placed hub t) (S : Sorts) (unmarshal : Str → Option Lock.Signed) (live : Live) (generation : Int) (self : Store.Peer)
    (hself : self ∈ t.peers) (nm : NetMap)
    (h : build S unmarshal hub (some (compiled p t hub.overlay)) t live generation self.id = .ok nm) :
    Unambiguous nm.wireguard ∧
      (∀ q ∈ t.peers, (compiled p t hub.overlay).visible self.id q.id = true → q.mode = .agent →
        ∃ e ∈ nm.peers, e.id = q.id ∧ e.viaHub = false ∧ ∀ x, PrefixOf self q x → x ∈ e.allowedIPs) ∧
      (∀ q ∈ t.peers, (compiled p t hub.overlay).visible self.id q.id = true → q.mode = .static →
        (∀ x, PrefixOf self q x → x ∈ nm.hub.allowedIPs) ∧
          ∀ a, Owns q a → ∀ e ∈ nm.peers, prefixFrom a a.bitLen ∉ e.allowedIPs) ∧
      ∀ r ∈ (compiled p t hub.overlay).routesFor S.routes self.id,
        r.route ∉ nm.hub.allowedIPs ∧ (∀ e ∈ nm.peers, r.route ∈ e.allowedIPs ↔ e.id = r.via) ∧
          ∃ e ∈ nm.peers, e.id = r.via ∧ e.viaHub = false := by
  obtain ⟨me, selfIP, rec, hme, hid, -, rfl⟩ := build_ok h
  obtain rfl : me = self := List.inj_on_of_nodup_map ht.ids hme hself hid
  refine ⟨ht.unambiguous hh hp hself, fun q hq hvis hagent => ?_, fun q hq hvis hstatic => ?_, fun r hr => ?_⟩
  · obtain ⟨ip, hip, -⟩ := ht.ipv4 q hq
    obtain ⟨e, he, hid, hhub, hips⟩ := agent_entry (mem_shown.mpr ⟨hq, visible_ne hvis, hvis, hip⟩) hagent
    refine ⟨e, he, hid, hhub, fun x hx => ?_⟩
    rw [hips]
    exact List.mem_append_left _ (ht.own_prefix hself hq hip hx)
  · obtain ⟨ip, hip, -⟩ := ht.ipv4 q hq
    constructor
    · intro x hx
      refine List.mem_append_right _ (List.mem_flatMap.mpr ⟨(q, ip), mem_shown.mpr ⟨hq, visible_ne hvis, hvis, hip⟩, ?_⟩)
      unfold hubPrefixes
      rw [if_pos hstatic]
      exact ht.own_prefix hself hq hip hx
    · intro a ha e he hx
      obtain ⟨q', hq', -, hagent, ⟨b, hb, heq⟩ | ⟨r, hr, -, heq⟩⟩ := ht.entry_prefix he hx
      · rw [← single_inj (ht.owns_plain hq ha) (ht.owns_plain hq' hb) heq] at hb
        rw [← ht.owns_unique hq hq' ha hb, hstatic] at hagent
        cases hagent
      · exact ht.route_ne hq ha (ht.routeOf hp hself hr).isRoute heq.symm
  · obtain ⟨q, hq, hvia, hne, hagent, hvis⟩ := (ht.routeOf hp hself hr).router
    obtain ⟨ip, hip, -⟩ := ht.ipv4 q hq
    obtain ⟨e, he, hid, hhub, hips⟩ := agent_entry (mem_shown.mpr ⟨hq, hne, hvis, hip⟩) hagent
    have hroute : r.route ∈ e.allowedIPs := by
      rw [hips]
      exact List.mem_append_right _ (List.mem_map_of_mem (List.mem_filter.mpr ⟨hr, beq_iff_eq.mpr hvia.symm⟩))
    refine ⟨fun hx => ht.hub_apart hh hp hself he hx hroute, fun e' he' => ⟨fun hx => ?_, fun hid' => ?_⟩, e, he,
      hid.trans hvia, hhub⟩
    · rw [ht.entries_apart hp hself he' he hx hroute, hid, hvia]
    · rw [List.inj_on_of_nodup_map (List.pairwise_map.mpr (entries_ids ht.ids)) he' he (hid'.trans (hid.trans hvia).symm)]
      exact hroute

/-! ## A laptop, a router and a phone -/

def siteDoc : Policy.Doc where
  version := 1
  acls := [{ action := str "accept", src := [str "*"], dst := [str "*:22", str "192.168.1.0/24:80"] }]

def siteHub : HubConfig where
  address := .v4 (Arr.ofNat 4 0x64400001)
  overlay := ⟨.v4 (Arr.ofNat 4 0x64400000), 25⟩
  address6 := .v6 (Arr.ofNat 16 0xfd000000000000000000000064400001) []
  overlay6 := ⟨.v6 (Arr.ofNat 16 0xfd000000000000000000000000000000) [], 65⟩

def siteLaptop : Store.Peer :=
  { id := str "a1", name := str "laptop", ipv4 := str "100.64.0.2", ipv6 := str "fd00::6440:2", ipv6Capable := true }

def siteTables : Store.Tables where
  peers := [{ id := str "r1", name := str "gateway", ipv4 := str "100.64.0.3", ipv6 := str "fd00::6440:3", ipv6Capable := true },
    siteLaptop, { id := str "s1", name := str "phone", mode := .static, ipv4 := str "100.64.0.4" }]
  routes := [{ peerID := str "r1", route := str "192.168.1.0/24", approved := true }]

theorem exists_of_any {α : Type} {o : Option α} {f : α → Bool} (h : o.any f = true) : ∃ a, o = some a ∧ f a = true := by
  cases o with
  | none => cases h
  | some a => exact ⟨a, rfl, h⟩

theorem siteTables_placed : Placed siteHub siteTables where
  ids := by decide +kernel
  ipv4 q hq := by
    have hany : ∀ q ∈ siteTables.peers,
        (parseAddr q.ipv4).any (fun a => a.is4 && siteHub.overlay.contains a && a != siteHub.address) = true := by decide +kernel
    obtain ⟨a, ha, hp⟩ := exists_of_any (hany q hq)
    simp only [Bool.and_eq_true, bne_iff_ne] at hp
    exact ⟨a, ha, hp.1.1, hp.1.2, hp.2⟩
  ipv6 q hq hne := by
    have hany : ∀ q ∈ siteTables.peers, q.ipv6 ≠ [] →
        (parseAddr q.ipv6).any (fun a => a.is6 && siteHub.overlay6.contains a && a != siteHub.address6) =
          true := by decide +kernel
    obtain ⟨a, ha, hp⟩ := exists_of_any (hany q hq hne)
    simp only [Bool.and_eq_true, bne_iff_ne] at hp
    exact ⟨a, ha, hp.1.1, hp.1.2, hp.2⟩
  distinct4 := by decide +kernel
  distinct6 := by decide +kernel
  routers := by decide +kernel

def sitePolicy : Policy.Policy := Policy.parsedDoc siteDoc

/-- The laptop's netmap has the gateway's subnet on the gateway and the phone on the hub. -/
theorem site_unambiguous :
    ∃ nm, build insertionSorts (fun _ => none) siteHub (some (compiled sitePolicy siteTables siteHub.overlay)) siteTables {} 1
        siteLaptop.id = .ok nm ∧
      Unambiguous nm.wireguard ∧ (∃ e ∈ nm.peers, e.id = str "r1" ∧ ⟨.v4 (Arr.ofNat 4 0xc0a80100), 25⟩ ∈ e.allowedIPs) ∧
        prefixFrom (.v4 (Arr.ofNat 4 0x64400004)) 32 ∈ nm.hub.allowedIPs := by
  refine ⟨_, rfl, ?_⟩
  have hmain := allowedIPs_unambiguous sitePolicy (Policy.parsed_of_rules (o := {}) rfl (by decide +kernel)) siteHub
    ⟨by decide +kernel, fun _ => by decide +kernel⟩ siteTables siteTables_placed insertionSorts (fun _ => none) {} 1 siteLaptop
    (by decide +kernel) _ rfl
  obtain ⟨hone, -, hstatic, hroutes⟩ := hmain
  obtain ⟨-, hvia, e, he, hid, -⟩ := hroutes ⟨⟨.v4 (Arr.ofNat 4 0xc0a80100), 25⟩, str "r1"⟩ (by decide +kernel)
  refine ⟨hone, ⟨e, he, hid, (hvia e he).mpr hid⟩, ?_⟩
  refine (hstatic _ (List.mem_cons_of_mem _ (List.mem_cons_of_mem _ List.mem_cons_self)) (by decide +kernel) rfl).1 _ (.ipv4 ?_)
  decide +kernel

end Thawr.Control
