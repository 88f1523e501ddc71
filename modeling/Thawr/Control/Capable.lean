/-
  Thawr.Control.Capable — IPv6 in netmaps (`NetMapBuilder.Build` and `capableIPv6` of
  `internal/control/netmap.go`, `PolicyPeers` of `internal/control/policyvis.go`).

  A peer is told IPv6 addresses only when its client handles IPv6, and only those of peers
  whose clients do. `Build` applies this to its entries; the filter and forward rules come
  from the compiler, which gets the IPv6 address of every peer.

  A receiver that is not capable gets no IPv6 at all. A capable receiver gets the IPv6 source
  of a peer that is not capable as soon as the policy lets that peer reach it, or use it as
  exit node (`capable_filter_has_incapable`); when all such peers are capable the rule holds
  (`ipv6_ends_capable_iff`).
-/

import Thawr.Control.Addresses
import Thawr.Control.AllowedIPs

namespace Thawr.Control

open Go Netip

/-- Each peer has its own IPv4 address and the IPv6 address derived from it, which is not the
    hub's. -/
structure Derived (hub : HubConfig) (t : Store.Tables) : Prop where
  ids : (t.peers.map (·.id)).Nodup
  pair : ∀ q ∈ t.peers, ∃ b, parseAddr q.ipv4 = some (.v4 b) ∧ parseAddr q.ipv6 = some (ipv6For hub.overlay6 (.v4 b)) ∧
    (ipv6For hub.overlay6 (.v4 b)).isValid = true
  distinct : ∀ p ∈ t.peers, ∀ q ∈ t.peers, parseAddr p.ipv4 = parseAddr q.ipv4 → p = q
  hub : ∀ q ∈ t.peers, parseAddr q.ipv6 ≠ some hub.address6

structure NoIPv6 (nm : NetMap) : Prop where
  own : nm.selfIPv4.is6 = false ∧ nm.selfIPv6.is6 = false
  overlay : nm.overlay.ip.is6 = false ∧ nm.overlay6.ip.is6 = false
  hub : ∀ x ∈ nm.hub.allowedIPs, x.ip.is6 = false
  peers : ∀ e ∈ nm.peers, e.ipv4.is6 = false ∧ e.ipv6.is6 = false ∧ ∀ x ∈ e.allowedIPs, x.ip.is6 = false
  filter : ∀ r ∈ nm.filter, r.src.is6 = false
  forward : ∀ r ∈ nm.forward, r.src.is6 = false ∧ r.dst.ip.is6 = false

/-- The address is on no entry, in no prefix, and the source of no rule. -/
structure Without (a : Addr) (nm : NetMap) : Prop where
  hub : ∀ x ∈ nm.hub.allowedIPs, x.ip ≠ a
  peers : ∀ e ∈ nm.peers, e.ipv4 ≠ a ∧ e.ipv6 ≠ a ∧ ∀ x ∈ e.allowedIPs, x.ip ≠ a
  filter : ∀ r ∈ nm.filter, r.src ≠ a
  forward : ∀ r ∈ nm.forward, r.src ≠ a

/-- IPv6 only between two capable ends, in the netmap of `me`. -/
def CapableEnds (t : Store.Tables) (me : Store.Peer) (nm : NetMap) : Prop :=
  (me.ipv6Capable = false → NoIPv6 nm) ∧
    (me.ipv6Capable = true → ∀ q ∈ t.peers, q.ipv6Capable = false → ∀ a, parseAddr q.ipv6 = some a → Without a nm)

section

variable {hub : HubConfig} {t : Store.Tables} {q q' self : Store.Peer} {a : Addr} {p : Policy.Policy} {S : Sorts} {live : Live}
  {generation : Int} {selfIP : Addr} {rec : Option Lock.Signed}

/-! ## The addresses of a registry -/

theorem Derived.ipv6 (ht : Derived hub t) (hq : q ∈ t.peers) (h : parseAddr q.ipv6 = some a) : a.is6 = true := by
  obtain ⟨b, -, h6, hv⟩ := ht.pair q hq
  rw [h] at h6
  rw [Option.some.inj h6]
  exact is6_ipv6For hv

/-- An IPv6 address is one peer's. -/
theorem Derived.unique (ht : Derived hub t) (hq : q ∈ t.peers) (hq' : q' ∈ t.peers) (h : parseAddr q.ipv6 = some a)
    (h' : parseAddr q'.ipv6 = some a) : q = q' := by
  obtain ⟨b, h4, h6, hv⟩ := ht.pair q hq
  obtain ⟨c, h4', h6', -⟩ := ht.pair q' hq'
  refine ht.distinct q hq q' hq' ?_
  rw [h4, h4', ipv6For_inj hv (Option.some.inj (h6.symm.trans (h.trans (h'.symm.trans h6'))))]

/-- The compiler has every peer's IPv6 address, capable or not. -/
theorem Derived.policyPeer_ipv6 (ht : Derived hub t) (hq : q ∈ t.peers) :
    parseAddr q.ipv6 = some (policyPeer t q).ipv6 ∧ (policyPeer t q).ipv6.isValid = true ∧ (policyPeer t q).ipv4.is4 = true := by
  obtain ⟨b, h4, h6, hv⟩ := ht.pair q hq
  have hsix : (policyPeer t q).ipv6 = ipv6For hub.overlay6 (.v4 b) := by
    unfold policyPeer
    simp only [h6, Option.filter_some, is6_ipv6For hv, if_true, Option.getD_some]
  refine ⟨hsix ▸ h6, hsix ▸ hv, ?_⟩
  simp [policyPeer, h4, Addr.is4]

theorem Derived.overlay6 (ht : Derived hub t) (hq : q ∈ t.peers) : hub.overlay6.isValid = true := by
  obtain ⟨b, -, -, hv⟩ := ht.pair q hq
  exact (ipv6For_eq hv).1

theorem Derived.capable (ht : Derived hub t) (hq : q ∈ t.peers) (hcap : q.ipv6Capable = true) :
    parseAddr q.ipv6 = some (capableIPv6 q) ∧ (capableIPv6 q).isValid = true := by
  obtain ⟨b, -, h6, hv⟩ := ht.pair q hq
  have hne : q.ipv6 ≠ [] := by
    intro he
    rw [he] at h6
    cases h6
  have heq : capableIPv6 q = ipv6For hub.overlay6 (.v4 b) := by
    unfold capableIPv6
    rw [if_neg (by simp [hcap, hne]), h6, Option.filter_some, if_pos (is6_ipv6For hv)]
    rfl
  rw [heq]
  exact ⟨h6, hv⟩

/-! ## Sources of rules -/

/-- Two peers are at two places of the compiler's list. -/
theorem two_policyPeers (hself : self ∈ t.peers) (hq : q ∈ t.peers) (hne : q ≠ self) :
    ∃ i j : Nat, (policyPeers t)[i]? = some (policyPeer t q) ∧ (policyPeers t)[j]? = some (policyPeer t self) ∧ i ≠ j := by
  obtain ⟨j, hj⟩ := List.mem_iff_getElem?.mp hself
  obtain ⟨i, hi⟩ := List.mem_iff_getElem?.mp hq
  refine ⟨i, j, getElem?_policyPeers hi, getElem?_policyPeers hj, fun he => hne ?_⟩
  rw [he, hj] at hi
  exact (Option.some.inj hi).symm

theorem is4_isValid (h : a.is4 = true) : a.isValid = true := by
  cases a with
  | v4 b => rfl
  | zero => cases h
  | v6 b z => cases h

/-- The filter of `self` has the IPv6 source of another peer exactly when a rule lets that peer
    reach it. -/
theorem Derived.filter_iff (ht : Derived hub t) (hself : self ∈ t.peers) (hq : q ∈ t.peers) (hne : q ≠ self)
    (ha : parseAddr q.ipv6 = some a) :
    (∀ r ∈ PolicyVisibility.filterFor S (some (compiled p t hub.overlay)) self.id, r.src ≠ a) ↔
      (compiled p t hub.overlay).allowed S.ranges q.id self.id = [] := by
  have hids := ids_policyPeers ht.ids
  obtain ⟨i, j, hi', hj', hij⟩ := two_policyPeers hself hq hne
  have hallowed : (compiled p t hub.overlay).allowed S.ranges q.id self.id =
    (compiled p t hub.overlay).allowedIdx S.ranges i j := by
    unfold Policy.Compiled.allowed
    rw [show q.id = (policyPeer t q).id from rfl, show self.id = (policyPeer t self).id from rfl]
    unfold compiled
    rw [Policy.lookup_index hids hi', Policy.lookup_index hids hj']
    exact if_neg hij
  obtain ⟨h6, hv6, h4⟩ := ht.policyPeer_ipv6 hq
  have hv4 := is4_isValid h4
  rw [hallowed, List.eq_nil_iff_forall_not_mem]
  constructor
  · intro h pr hpr
    refine h ⟨(policyPeer t q).ipv6, pr.proto.text, pr.lo, pr.hi⟩ ?_ (Option.some.inj (h6.symm.trans ha))
    refine List.mem_map.mpr ⟨⟨(policyPeer t q).ipv6, pr.proto, pr.lo, pr.hi⟩, ?_, rfl⟩
    exact (Policy.mem_filterFor S.ranges hids hj').mpr ⟨i, _, hi', hij, hv4, pr, hpr, .inr ⟨hv6, rfl⟩⟩
  · intro h r hr hsrc
    obtain ⟨f, hf, rfl⟩ := List.mem_map.mp hr
    obtain ⟨k, b, hk, -, -, pr, hpr, hf⟩ := (Policy.mem_filterFor S.ranges hids hj').mp hf
    obtain ⟨q', hq', rfl⟩ := List.mem_map.mp (List.mem_of_getElem? hk)
    obtain ⟨h6', -, h4'⟩ := ht.policyPeer_ipv6 hq'
    rcases hf with rfl | ⟨-, rfl⟩
    · rw [show (policyPeer t q').ipv4 = a from hsrc] at h4'
      exact is4_not_is6 h4' (ht.ipv6 hq ha)
    · have hqq : q = q' := ht.unique hq hq' ha (h6'.trans (congrArg some hsrc))
      rw [← hqq] at hk
      rw [(Policy.index_eq_iff hids hk hi').mpr rfl] at hpr
      exact h pr hpr

theorem mem_exitNodesFor {i : Nat} {b : Policy.Peer} {peers : List Policy.Peer} {overlay : Prefix} {id : Str}
    (hids : (peers.map (·.id)).Nodup) (hi : peers[i]? = some b) :
    id ∈ (Policy.compileWith p peers overlay).exitNodesFor b.id ↔
      ∃ j c, peers[j]? = some c ∧ j ≠ i ∧ c.id = id ∧ ∃ g ∈ Policy.routed p overlay b c, g.internet = true := by
  unfold Policy.Compiled.exitNodesFor
  rw [Policy.lookup_index hids hi]
  simp only [List.mem_insertionSort]
  rw [(Policy.collect_spec _).2, Policy.mem_exitCandidates hi]

/-- A router forwards from the IPv6 address of a peer exactly when it is an exit node of that
    peer. -/
theorem Derived.forward_iff (ht : Derived hub t) (hp : Policy.Parsed p) (hself : self ∈ t.peers) (hq : q ∈ t.peers)
    (hne : q ≠ self) (ha : parseAddr q.ipv6 = some a) :
    (∀ r ∈ (PolicyVisibility.routing S (some (compiled p t hub.overlay)) self.id).forward, r.src ≠ a) ↔
      self.id ∉ (compiled p t hub.overlay).exitNodesFor q.id := by
  have hids := ids_policyPeers ht.ids
  obtain ⟨i, j, hi', hj', hij⟩ := two_policyPeers hself hq hne
  obtain ⟨h6, hv6, h4⟩ := ht.policyPeer_ipv6 hq
  have hv4 := is4_isValid h4
  have hfor : ∀ f, f ∈ (compiled p t hub.overlay).forwardFor S.ranges self.id ↔ f ∈ Policy.forwardRules S.ranges
      ((policyPeers t).zipIdx.flatMap ((compiled p t hub.overlay).forwardFrom j)) := by
    intro f
    unfold Policy.Compiled.forwardFor compiled
    rw [show self.id = (policyPeer t self).id from rfl, Policy.lookup_index hids hj']
    exact List.mem_insertionSort _
  constructor
  · intro h hexit
    obtain ⟨k, c, hk, -, hid, g, hg, hint⟩ := (mem_exitNodesFor hids hi').mp hexit
    obtain rfl : k = j := (Policy.index_eq_iff hids hk hj').mpr hid
    obtain rfl : c = policyPeer t self := Option.some.inj (hk.symm.trans hj')
    obtain ⟨⟨rule, hrule, -, d, hd, hgd⟩, -⟩ := Policy.mem_routed.mp hg
    obtain ⟨x, hx⟩ := hp.covers hrule hd
    have hentry : ((⟨(policyPeer t q).ipv6, Policy.exitPrefix6, g.proto⟩ : Policy.ForwardKey), g.ports) ∈
        (policyPeers t).zipIdx.flatMap ((compiled p t hub.overlay).forwardFrom k) := by
      refine List.mem_flatMap.mpr ⟨(_, i), List.mem_zipIdx_iff_getElem?.mpr hi', (Policy.mem_forwardFrom hj' hi').mpr ?_⟩
      exact ⟨hij, hv4, g, hg, Policy.mem_forwardKeys.mpr (.inr ⟨hint, hv6, rfl⟩), rfl⟩
    rw [← (Policy.routeDst_ports hgd).2] at hx
    obtain ⟨f, hf, hsrc, -⟩ := (Policy.forwardRules_iff S.ranges _ _ x).mpr ⟨_, hentry, rfl, hx⟩
    refine h _ (List.mem_map.mpr ⟨f, (hfor f).mpr hf, rfl⟩) ?_
    exact hsrc.trans (Option.some.inj (h6.symm.trans ha))
  · intro h r hr hsrc
    obtain ⟨f, hf, rfl⟩ := List.mem_map.mp hr
    obtain ⟨key, hkey, hf⟩ := List.mem_flatMap.mp ((hfor f).mp hf)
    obtain ⟨e, he, hek⟩ := Policy.mem_keyOrder.mp hkey
    obtain ⟨⟨b, k⟩, hb, he⟩ := List.mem_flatMap.mp he
    have hk := List.mem_zipIdx_iff_getElem?.mp hb
    obtain ⟨hkj, -, g, hg, hforward, -⟩ := (Policy.mem_forwardFrom hj' hk).mp he
    obtain ⟨q', hq', rfl⟩ := List.mem_map.mp (List.mem_of_getElem? hk)
    obtain ⟨h6', -, h4'⟩ := ht.policyPeer_ipv6 hq'
    obtain ⟨range, -, rfl⟩ := List.mem_map.mp hf
    have hkeysrc : key.src = a := hsrc
    rcases Policy.mem_forwardKeys.mp hforward with hkey4 | ⟨hint, -, hkey6⟩
    · rw [← hkeysrc, ← hek, hkey4] at ha
      exact is4_not_is6 h4' (ht.ipv6 hq ha)
    · have hqq : q = q' := by
        refine ht.unique hq hq' ha (h6'.trans ?_)
        rw [← hkeysrc, ← hek, hkey6]
      rw [← hqq] at hk hg
      refine h ((mem_exitNodesFor hids hi').mpr ⟨j, _, hj', Ne.symm hij, rfl, g, hg, hint⟩)

/-! ## Prefixes of entries -/

/-- A peer's own prefix is of its IPv4 address, or of its IPv6 address when receiver and peer
    are capable. -/
theorem Derived.own_ip (ht : Derived hub t) (hq : q ∈ t.peers) {ip self6 : Addr} (hip : parseAddr q.ipv4 = some ip) {x : Prefix}
    (hx : x ∈ ownPrefixes ip (shownIPv6 self6 q)) :
    x.ip.is4 = true ∨ (self6.isValid = true ∧ q.ipv6Capable = true ∧ parseAddr q.ipv6 = some x.ip) := by
  obtain ⟨b, h4, h6, hv⟩ := ht.pair q hq
  rw [hip] at h4
  cases h4
  rcases List.mem_cons.mp hx with rfl | hx
  · exact .inl rfl
  · split at hx
    · rename_i hvalid
      unfold shownIPv6 at hvalid hx
      split at hvalid
      · rename_i hself
        rw [if_pos hself] at hx
        obtain ⟨hcap, -, hparse, -⟩ := capableIPv6_ok hvalid
        refine .inr ⟨hself, hcap, ?_⟩
        obtain ⟨-, m, hm⟩ := ipv6For_eq hv
        obtain ⟨d, hd, -⟩ := hm b
        rw [List.mem_singleton.mp hx, hparse]
        rw [hparse, hd] at h6
        rw [Option.some.inj h6]
        rfl
      · cases hvalid
    · cases hx

theorem routes_is4 {r : Policy.Route} (hr : r ∈ (PolicyVisibility.routing S (some (compiled p t hub.overlay)) self.id).routes) :
    r.route.ip.is4 = true := by
  have hr : r ∈ (compiled p t hub.overlay).routesFor S.routes self.id := hr
  unfold Policy.Compiled.routesFor at hr
  split at hr
  · cases hr
  · rename_i i hi
    obtain ⟨b, hb, -⟩ := Policy.index_lookup hi
    have hcand := ((Policy.assigned _).least r).mp (S.routes.mem_iff.mp hr)
    obtain ⟨j, c, -, -, -, g, hg, hint, hroute⟩ := (Policy.mem_viaCandidates hb).mp hcand.1
    obtain ⟨⟨rule, -, -, d, -, hgd⟩, -⟩ := Policy.mem_routed.mp hg
    have hisRoute := (Policy.routeDst_cidr hgd hint).2
    simp only [Policy.isRoute, Bool.and_eq_true] at hisRoute
    rw [← hroute]
    exact hisRoute.1.2

/-- What the entries of a netmap have of IPv6. -/
theorem Derived.entry_ip (ht : Derived hub t) (S : Sorts) (live : Live) (self6 : Addr) {x : Store.Peer × Addr}
    (hx : x ∈ shown (some (compiled p t hub.overlay)) t self) :
    let e := netPeer t live (PolicyVisibility.routing S (some (compiled p t hub.overlay)) self.id) self self6 x
    e.ipv4.is4 = true ∧ e.ipv6 = shownIPv6 self6 x.1 ∧ ∀ y ∈ e.allowedIPs, y.ip.is4 = true ∨
      (self6.isValid = true ∧ x.1.ipv6Capable = true ∧ parseAddr x.1.ipv6 = some y.ip) := by
  obtain ⟨q, ip⟩ := x
  obtain ⟨hq, -, -, hip⟩ := mem_shown.mp hx
  obtain ⟨b, h4, -, -⟩ := ht.pair q hq
  have hip4 : ip.is4 = true := by
    rw [show parseAddr q.ipv4 = some ip from hip] at h4
    rw [Option.some.inj h4]
    rfl
  unfold netPeer
  simp only
  split
  · exact ⟨hip4, rfl, by simp⟩
  · refine ⟨hip4, rfl, fun y hy => ?_⟩
    rcases List.mem_append.mp hy with hy | hy
    · exact ht.own_ip hq hip hy
    · obtain ⟨r, hr, rfl⟩ := List.mem_map.mp hy
      exact .inl (routes_is4 (List.mem_filter.mp hr).1)

theorem is4_is6 (h : a.is4 = true) : a.is6 = false := by
  cases a with
  | zero => rfl
  | v4 b => rfl
  | v6 b z => cases h

/-- What the hub's prefixes have of IPv6: its own address and those of capable static peers. -/
theorem Derived.hub_ip (ht : Derived hub t) (hh : hub.Valid) {x : Prefix}
    (hx : x ∈ (netMapOf S hub (some (compiled p t hub.overlay)) t live generation self selfIP rec).hub.allowedIPs) :
    x.ip.is4 = true ∨ (((capableIPv6 self).isValid && hub.overlay6.isValid) = true ∧
      (x.ip = hub.address6 ∨ ∃ q ∈ t.peers, q.ipv6Capable = true ∧ parseAddr q.ipv6 = some x.ip)) := by
  unfold netMapOf at hx
  simp only [List.mem_append, List.mem_cons] at hx
  rcases hx with (rfl | hx) | hx
  · rw [prefixFrom_ip (contains_plain hh.address.2).2]
    exact .inl hh.address.1
  · split at hx
    · rename_i hv
      rw [Bool.and_eq_true] at hv
      rw [List.mem_singleton.mp hx, prefixFrom_ip (contains_plain (hh.address6 hv.2).2).2]
      exact .inr ⟨hv.1, .inl rfl⟩
    · cases hx
  · obtain ⟨⟨q, ip⟩, hshown, hx⟩ := List.mem_flatMap.mp hx
    obtain ⟨hq, -, -, hip⟩ := mem_shown.mp hshown
    unfold hubPrefixes at hx
    split at hx
    · rcases ht.own_ip hq hip hx with h4 | ⟨hv, hcap, hparse⟩
      · exact .inl h4
      · refine .inr ⟨?_, .inr ⟨q, hq, hcap, hparse⟩⟩
        by_contra hn
        rw [if_neg hn] at hv
        cases hv
    · cases hx

theorem shownIPv6_ok {self6 : Addr} (h : shownIPv6 self6 q = a) (h6 : a.is6 = true) :
    q.ipv6Capable = true ∧ parseAddr q.ipv6 = some a := by
  have hvalid : a.isValid = true := by
    revert h6
    cases a <;> simp [Addr.is6, Addr.isValid]
  unfold shownIPv6 at h
  split at h
  · rw [← h] at hvalid
    obtain ⟨hcap, -, hparse, -⟩ := capableIPv6_ok hvalid
    exact ⟨hcap, h ▸ hparse⟩
  · rw [← h] at h6
    cases h6

/-- A receiver that is not capable gets no IPv6. -/
theorem Derived.noIPv6 (ht : Derived hub t) (hh : hub.Valid) (hself : self ∈ t.peers) (hip : parseAddr self.ipv4 = some selfIP)
    (hcap : self.ipv6Capable = false) :
    NoIPv6 (netMapOf S hub (some (compiled p t hub.overlay)) t live generation self selfIP rec) := by
  have hzero : capableIPv6 self = .zero := if_pos (.inl hcap)
  have hv6 : ((capableIPv6 self).isValid && hub.overlay6.isValid) = false := by
    rw [hzero]
    rfl
  have hoverlay : hub.overlay.ip.is6 = false := by
    have hlen := (contains_family hh.address.2).trans (bitLen_of_is4 hh.address.1)
    cases hov : hub.overlay.ip with
    | zero => rfl
    | v4 b => rfl
    | v6 b z =>
      rw [hov] at hlen
      cases hlen
  refine ⟨⟨?_, ?_⟩, ⟨hoverlay, ?_⟩, fun x hx => ?_, fun e he => ?_, fun r hr => ?_, fun r hr => ?_⟩
  · obtain ⟨b, h4, -⟩ := ht.pair self hself
    rw [hip] at h4
    rw [show (netMapOf S hub _ t live generation self selfIP rec).selfIPv4 = selfIP from rfl, Option.some.inj h4]
    rfl
  · show (if (capableIPv6 self).isValid && hub.overlay6.isValid then capableIPv6 self else Addr.zero).is6 = false
    rw [hv6]
    rfl
  · show (if (capableIPv6 self).isValid && hub.overlay6.isValid then hub.overlay6 else Prefix.none).ip.is6 = false
    rw [hv6]
    rfl
  · rcases ht.hub_ip hh hx with h4 | ⟨hv, -⟩
    · exact is4_is6 h4
    · rw [hv6] at hv
      cases hv
  · obtain ⟨x, hx, rfl⟩ := List.mem_map.mp he
    obtain ⟨h4, h6, hips⟩ := ht.entry_ip S live .zero hx
    simp only [hv6, Bool.false_eq_true, if_false]
    refine ⟨is4_is6 h4, by rw [h6]; rfl, fun y hy => ?_⟩
    rcases hips y hy with h4 | ⟨hv, -⟩
    · exact is4_is6 h4
    · cases hv
  · have hr : r ∈ ipv4Filter (PolicyVisibility.filterFor S (some (compiled p t hub.overlay)) self.id) := by
      unfold netMapOf at hr
      simpa only [hv6, Bool.false_eq_true, if_false] using hr
    exact is4_is6 (List.mem_filter.mp hr).2
  · have hr : r ∈ ipv4Forward (PolicyVisibility.routing S (some (compiled p t hub.overlay)) self.id).forward := by
      unfold netMapOf at hr
      simpa only [hv6, Bool.false_eq_true, if_false] using hr
    have h4 := (List.mem_filter.mp hr).2
    rw [Bool.and_eq_true] at h4
    exact ⟨is4_is6 h4.1, is4_is6 h4.2⟩

/-- The entries and prefixes of a netmap never have the IPv6 address of a peer that is not
    capable, so only the rules decide. -/
theorem Derived.without_iff (ht : Derived hub t) (hh : hub.Valid) (hself : self ∈ t.peers) (hcap : self.ipv6Capable = true)
    (hq : q ∈ t.peers) (hcap' : q.ipv6Capable = false) (ha : parseAddr q.ipv6 = some a) :
    Without a (netMapOf S hub (some (compiled p t hub.overlay)) t live generation self selfIP rec) ↔
      (∀ r ∈ PolicyVisibility.filterFor S (some (compiled p t hub.overlay)) self.id, r.src ≠ a) ∧
        ∀ r ∈ (PolicyVisibility.routing S (some (compiled p t hub.overlay)) self.id).forward, r.src ≠ a := by
  have hv6 : ((capableIPv6 self).isValid && hub.overlay6.isValid) = true := by
    rw [(ht.capable hself hcap).2, ht.overlay6 hself]
    rfl
  have h6 := ht.ipv6 hq ha
  -- no capable peer has the address
  have hother : ∀ q' ∈ t.peers, q'.ipv6Capable = true → parseAddr q'.ipv6 ≠ some a := by
    intro q' hq' hcapq' ha'
    rw [ht.unique hq hq' ha ha', hcapq'] at hcap'
    cases hcap'
  constructor
  · intro h
    have hfilter := h.filter
    have hforward := h.forward
    unfold netMapOf at hfilter hforward
    simp only [hv6, if_true] at hfilter hforward
    exact ⟨hfilter, hforward⟩
  · intro h
    refine ⟨fun x hx he => ?_, fun e he => ?_, ?_, ?_⟩
    · rcases ht.hub_ip hh hx with h4 | ⟨-, hhub | ⟨q', hq', hcapq', hparse⟩⟩
      · exact is4_not_is6 h4 (he ▸ h6)
      · exact ht.hub q hq (by rw [ha, ← he, hhub])
      · exact hother q' hq' hcapq' (he ▸ hparse)
    · obtain ⟨x, hx, rfl⟩ := List.mem_map.mp he
      have hq' := (mem_shown.mp hx).1
      obtain ⟨h4, hsix, hips⟩ := ht.entry_ip S live
        (if (capableIPv6 self).isValid && hub.overlay6.isValid then capableIPv6 self else .zero) hx
      refine ⟨fun he => is4_not_is6 h4 (he ▸ h6), fun he => ?_, fun y hy he => ?_⟩
      · obtain ⟨hcapx, hparse⟩ := shownIPv6_ok (hsix.symm.trans he) h6
        exact hother x.1 hq' hcapx hparse
      · rcases hips y hy with h4 | ⟨-, hcapx, hparse⟩
        · exact is4_not_is6 h4 (he ▸ h6)
        · exact hother x.1 hq' hcapx (he ▸ hparse)
    · unfold netMapOf
      simpa only [hv6, if_true] using h.1
    · unfold netMapOf
      simpa only [hv6, if_true] using h.2

end

/-- IPv6 stays between two capable ends in the netmap of a peer exactly when, for a capable
    receiver, no peer that is not capable may reach it or use it as exit node. -/
theorem ipv6_ends_capable_iff (p : Policy.Policy) (hp : Policy.Parsed p) (hub : HubConfig) (hh : hub.Valid) (t : Store.Tables)
    (ht : Derived hub t) (S : Sorts) (unmarshal : Str → Option Lock.Signed) (live : Live) (generation : Int) (self : Store.Peer)
    (hself : self ∈ t.peers) (nm : NetMap)
    (h : build S unmarshal hub (some (compiled p t hub.overlay)) t live generation self.id = .ok nm) :
    CapableEnds t self nm ↔
      (self.ipv6Capable = true → ∀ q ∈ t.peers, q.ipv6Capable = false →
        (compiled p t hub.overlay).allowed S.ranges q.id self.id = [] ∧
          self.id ∉ (compiled p t hub.overlay).exitNodesFor q.id) := by
  obtain ⟨me, selfIP, rec, hme, hid, hip, rfl⟩ := build_ok h
  obtain rfl : me = self := List.inj_on_of_nodup_map ht.ids hme hself hid
  have hrules : ∀ q ∈ t.peers, q.ipv6Capable = false → me.ipv6Capable = true → ∀ a, parseAddr q.ipv6 = some a →
      (Without a (netMapOf S hub (some (compiled p t hub.overlay)) t live generation me selfIP rec) ↔
        (compiled p t hub.overlay).allowed S.ranges q.id me.id = [] ∧ me.id ∉ (compiled p t hub.overlay).exitNodesFor q.id) := by
    intro q hq hcap' hcap a ha
    have hne : q ≠ me := by
      intro he
      rw [he, hcap] at hcap'
      cases hcap'
    rw [ht.without_iff hh hself hcap hq hcap' ha, ht.filter_iff hself hq hne ha, ht.forward_iff hp hself hq hne ha]
  constructor
  · intro hends hcap q hq hcap'
    obtain ⟨b, -, h6, -⟩ := ht.pair q hq
    exact (hrules q hq hcap' hcap _ h6).mp (hends.2 hcap q hq hcap' _ h6)
  · intro hcond
    refine ⟨fun hcap => ht.noIPv6 hh hself hip hcap, fun hcap q hq hcap' a ha => ?_⟩
    exact (hrules q hq hcap' hcap a ha).mpr (hcond hcap q hq hcap')

/-! ## A capable device and one that is not -/

def pairLaptop : Store.Peer :=
  { id := str "a1", name := str "laptop", ownerID := str "u1", ipv4 := str "100.64.0.2", ipv6 := str "fd00::6440:2",
    ipv6Capable := true }

def pairPhone : Store.Peer :=
  { id := str "a2", name := str "phone", ownerID := str "u1", ipv4 := str "100.64.0.3", ipv6 := str "fd00::6440:3" }

def pairTables : Store.Tables where
  peers := [pairLaptop, pairPhone]
  users := [⟨str "u1", str "alice"⟩]

def guestTables : Store.Tables where
  peers := [pairLaptop, { pairPhone with ownerID := str "u2" },
    { pairLaptop with id := str "a3", name := str "tablet", ipv4 := str "100.64.0.4", ipv6 := str "fd00::6440:4" }]
  users := [⟨str "u1", str "alice"⟩, ⟨str "u2", str "bob"⟩]

def derivedPair (hub : HubConfig) (q : Store.Peer) : Bool :=
  (parseAddr q.ipv4).any fun x => match x with
    | .v4 b => parseAddr q.ipv6 == some (ipv6For hub.overlay6 (.v4 b)) && (ipv6For hub.overlay6 (.v4 b)).isValid
    | _ => false

theorem pair_of_decided {hub : HubConfig} {q : Store.Peer} (h : derivedPair hub q = true) :
    ∃ b, parseAddr q.ipv4 = some (.v4 b) ∧ parseAddr q.ipv6 = some (ipv6For hub.overlay6 (.v4 b)) ∧
      (ipv6For hub.overlay6 (.v4 b)).isValid = true := by
  obtain ⟨x, hx, hpair⟩ := exists_of_any h
  grind

theorem siteHub_valid : siteHub.Valid := ⟨by decide +kernel, fun _ => by decide +kernel⟩

/-- The laptop's filter has a rule from the IPv6 address of the phone, which is not capable. -/
theorem capable_filter_has_incapable :
    Policy.Parsed homePolicy ∧ siteHub.Valid ∧ Derived siteHub pairTables ∧
      ∃ nm, build insertionSorts (fun _ => none) siteHub (some (compiled homePolicy pairTables siteHub.overlay)) pairTables {} 1
          pairLaptop.id = .ok nm ∧ ¬CapableEnds pairTables pairLaptop nm := by
  have hpair : ∀ q ∈ pairTables.peers, derivedPair siteHub q = true := by decide +kernel
  refine ⟨homePolicy_parsed, siteHub_valid, ⟨by decide +kernel, fun q hq => pair_of_decided (hpair q hq), by decide +kernel,
    by decide +kernel⟩, _, rfl, fun hends => ?_⟩
  have hwithout := hends.2 rfl pairPhone (by decide +kernel) rfl (.v6 (Arr.ofNat 16 0xfd000000000000000000000064400003) [])
    (by decide +kernel)
  exact absurd hwithout.filter (by decide +kernel)

/-- Between the laptop and the tablet there is IPv6, and none of bob's phone. -/
theorem guest_ends_capable :
    ∃ nm, build insertionSorts (fun _ => none) siteHub (some (compiled homePolicy guestTables siteHub.overlay)) guestTables {} 1
        pairLaptop.id = .ok nm ∧ (∃ r ∈ nm.filter, r.src.is6 = true) ∧ CapableEnds guestTables pairLaptop nm := by
  have hpair : ∀ q ∈ guestTables.peers, derivedPair siteHub q = true := by decide +kernel
  refine ⟨_, rfl, by decide +kernel, (ipv6_ends_capable_iff homePolicy homePolicy_parsed siteHub siteHub_valid guestTables
    ⟨by decide +kernel, fun q hq => pair_of_decided (hpair q hq), by decide +kernel, by decide +kernel⟩ insertionSorts
    (fun _ => none) {} 1 pairLaptop (by decide +kernel) _ rfl).mpr ?_⟩
  decide +kernel

end Thawr.Control
