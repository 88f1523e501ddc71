/-
  Thawr.Control.Policy.Exchange — visibility is having something to exchange
  (`Visible`, `Allowed` and `ForwardFor` of `internal/control/policy/compile.go`).

  `Visible` searches the compiled rules for one that matches; `Allowed` and `ForwardFor` merge
  the ports of those that do. Every entry `Parse` accepts opens a port, so a match is a grant
  and a grant is a match (`allowed_ne_nil_iff`, `forwardsFrom_iff`). A forward rule names its
  source by address only: it stands for the peer with that address as long as no other peer
  has it, which the registry sees to (`visible_iff_exchange`). Two peers with one address are
  told apart by `Visible` and not by `ForwardFor` (`shared_address_forwards`).
-/

import Thawr.Control.Policy.Reach
import Thawr.Control.Policy.Visible

namespace Thawr.Control.Policy

open Go Netip

/-- The router has a forward rule with this source address. -/
def Compiled.ForwardsFrom (S : RangeSort) (c : Compiled) (router : Str) (src : Addr) : Prop :=
  ∃ f ∈ c.forwardFor S router, f.src = src

/-- One of two peers may reach the other, or something through it. -/
def Compiled.Exchange (S : RangeSort) (c : Compiled) (a b : Peer) : Prop :=
  c.allowed S a.id b.id ≠ [] ∨ c.allowed S b.id a.id ≠ [] ∨ c.ForwardsFrom S a.id b.ipv4 ∨ c.ForwardsFrom S b.id a.ipv4

def Peer.addrs (a : Peer) : List Addr := a.ipv4 :: if a.ipv6.isValid then [a.ipv6] else []

/-- No address of one peer is another's. -/
def OwnAddrs (peers : List Peer) : Prop := peers.Pairwise fun a b => ∀ x ∈ a.addrs, x ∉ b.addrs

section

variable {p : Policy} {peers : List Peer} {overlay : Prefix} {i j : Nat} {a b : Peer}

/-- A port rule needs a matching rule, and a matching rule opens a port. -/
theorem allowed_ne_nil_iff (overlay : Prefix) (hp : Parsed p) (S : RangeSort) (hids : (peers.map (·.id)).Nodup)
    (hi : peers[i]? = some a)
    (hj : peers[j]? = some b) (hij : i ≠ j) :
    (compileWith p peers overlay).allowed S a.id b.id ≠ [] ↔
      ∃ r ∈ p.rules, r.selects p.doc a = true ∧ ∃ d ∈ r.dst, Opens (hits p.doc · ·) overlay d.host a b := by
  unfold Compiled.allowed
  rw [lookup_index hids hi, lookup_index hids hj]
  simp only [if_neg hij]
  constructor
  · intro h
    obtain ⟨pr, hpr⟩ := List.exists_mem_of_ne_nil _ h
    have hproper : pr.lo ≤ pr.hi := by
      obtain ⟨proto, -, hpr⟩ := List.mem_flatMap.mp hpr
      obtain ⟨r, hr, rfl⟩ := List.mem_map.mp hpr
      exact (mergeRanges_proper S (hp.wellFormed.portsFor_proper peers i j proto)) r hr
    obtain ⟨r, hr, hsel, -, d, hd, hopen, -⟩ :=
      (allowedIdx_admits S hi hj hij pr.proto pr.lo).mp ⟨pr, hpr, rfl, UInt16.le_refl _, hproper⟩
    exact ⟨r, hr, hsel, d, hd, hopen⟩
  · rintro ⟨r, hr, hsel, d, hd, hopen⟩
    obtain ⟨x, hx⟩ := hp.covers hr hd
    obtain ⟨pr, hpr, -⟩ := (allowedIdx_admits S hi hj hij r.proto x).mpr ⟨r, hr, hsel, rfl, d, hd, hopen, hx⟩
    exact List.ne_nil_of_mem hpr

/-- A forward rule comes from an entry that leads some peer with its source address through
    the router. -/
theorem forwardsFrom_source (S : RangeSort) (hids : (peers.map (·.id)).Nodup) (hj : peers[j]? = some b) {x : Addr}
    (h : (compileWith p peers overlay).ForwardsFrom S b.id x) :
    ∃ k c, peers[k]? = some c ∧ k ≠ j ∧ x ∈ c.addrs ∧ routed p overlay c b ≠ [] := by
  obtain ⟨f, hf, rfl⟩ := h
  unfold Compiled.forwardFor at hf
  rw [lookup_index hids hj] at hf
  rw [List.mem_insertionSort] at hf
  obtain ⟨key, hkey, hf⟩ := List.mem_flatMap.mp hf
  obtain ⟨r, -, rfl⟩ := List.mem_map.mp hf
  obtain ⟨e, he, rfl⟩ := mem_keyOrder.mp hkey
  obtain ⟨⟨c, k⟩, hc, he⟩ := List.mem_flatMap.mp he
  have hk := List.mem_zipIdx_iff_getElem?.mp hc
  obtain ⟨hkj, -, g, hg, hkey, -⟩ := (mem_forwardFrom hj hk).mp he
  refine ⟨k, c, hk, hkj, ?_, List.ne_nil_of_mem hg⟩
  unfold Peer.addrs
  rcases mem_forwardKeys.mp hkey with he | ⟨-, hv6, he⟩
  · rw [he]
    exact List.mem_cons_self
  · rw [he, if_pos hv6]
    exact List.mem_cons_of_mem _ (List.mem_singleton_self _)

/-- An entry that leads a peer through the router lists its IPv4 address. -/
theorem forwardsFrom_of_routed (hp : Parsed p) (S : RangeSort) (hids : (peers.map (·.id)).Nodup) (hi : peers[i]? = some a)
    (hj : peers[j]? = some b) (hij : i ≠ j) (h4 : a.ipv4.isValid = true) (h : routed p overlay a b ≠ []) :
    (compileWith p peers overlay).ForwardsFrom S b.id a.ipv4 := by
  obtain ⟨g, hg⟩ := List.exists_mem_of_ne_nil _ h
  obtain ⟨x, hx⟩ : ∃ x, Covers g.ports x := by
    obtain ⟨⟨r, hr, -, d, hd, hgd⟩, -⟩ := mem_routed.mp hg
    rw [(routeDst_ports hgd).2]
    exact hp.covers hr hd
  have he : ((⟨a.ipv4, g.route, g.proto⟩, g.ports) : ForwardKey × List PortRange) ∈
      peers.zipIdx.flatMap ((compileWith p peers overlay).forwardFrom j) := by
    refine List.mem_flatMap.mpr ⟨(a, i), List.mem_zipIdx_iff_getElem?.mpr hi, ?_⟩
    exact (mem_forwardFrom hj hi).mpr ⟨hij, h4, g, hg, mem_forwardKeys.mpr (.inl rfl), rfl⟩
  obtain ⟨f, hf, hsrc, -⟩ := (forwardRules_iff S _ ⟨a.ipv4, g.route, g.proto⟩ x).mpr ⟨_, he, rfl, hx⟩
  refine ⟨f, ?_, hsrc⟩
  unfold Compiled.forwardFor
  rw [lookup_index hids hj]
  exact (List.mem_insertionSort _).mpr hf

theorem OwnAddrs.eq (h : OwnAddrs peers) (hi : peers[i]? = some a) (hj : peers[j]? = some b) {x : Addr} (ha : x ∈ a.addrs)
    (hb : x ∈ b.addrs) : i = j := by
  obtain ⟨hil, rfl⟩ := List.getElem?_eq_some_iff.mp hi
  obtain ⟨hjl, rfl⟩ := List.getElem?_eq_some_iff.mp hj
  rcases Nat.lt_trichotomy i j with hlt | heq | hlt
  · exact absurd hb (List.pairwise_iff_getElem.mp h i j hil hjl hlt x ha)
  · exact heq
  · exact absurd ha (List.pairwise_iff_getElem.mp h j i hjl hil hlt x hb)

/-- With addresses of their own, a source address stands for its peer. -/
theorem forwardsFrom_iff (hp : Parsed p) (S : RangeSort) (hids : (peers.map (·.id)).Nodup) (hown : OwnAddrs peers)
    (hi : peers[i]? = some a) (hj : peers[j]? = some b) (hij : i ≠ j) (h4 : a.ipv4.isValid = true) :
    (compileWith p peers overlay).ForwardsFrom S b.id a.ipv4 ↔ routed p overlay a b ≠ [] := by
  constructor
  · intro h
    obtain ⟨k, c, hk, -, hx, hr⟩ := forwardsFrom_source S hids hj h
    obtain rfl := hown.eq hk hi hx List.mem_cons_self
    rw [hi] at hk
    cases hk
    exact hr
  · exact forwardsFrom_of_routed hp S hids hi hj hij h4

end

/-- Visibility is symmetric, and two visible peers have something to exchange. Where no
    address of one peer is another's, so is the converse: two peers are visible to each other
    exactly when one may reach the other, or the other has a forward rule with its address. -/
theorem visible_iff_exchange (p : Policy) (hp : Parsed p) (overlay : Prefix) (S : RangeSort) (peers : List Peer)
    (hids : (peers.map (·.id)).Nodup) (h4 : ∀ q ∈ peers, q.ipv4.isValid = true) (a b : Peer) (ha : a ∈ peers) (hb : b ∈ peers)
    (hab : a ≠ b) :
    (compileWith p peers overlay).visible a.id b.id = (compileWith p peers overlay).visible b.id a.id ∧
      ((compileWith p peers overlay).visible a.id b.id = true → (compileWith p peers overlay).Exchange S a b) ∧
      (OwnAddrs peers →
        ((compileWith p peers overlay).visible a.id b.id = true ↔ (compileWith p peers overlay).Exchange S a b)) := by
  obtain ⟨i, hi⟩ := List.mem_iff_getElem?.mp ha
  obtain ⟨j, hj⟩ := List.mem_iff_getElem?.mp hb
  have hij : i ≠ j := by
    rintro rfl
    rw [hi] at hj
    exact hab (Option.some.inj hj)
  have hvis : (compileWith p peers overlay).visible a.id b.id = true ↔ Reaches p overlay a b ∨ Reaches p overlay b a := by
    rw [visible_eq_seen hids hi hj hij, seen_iff]
  have hvis' : (compileWith p peers overlay).visible b.id a.id = true ↔ Reaches p overlay b a ∨ Reaches p overlay a b := by
    rw [visible_eq_seen hids hj hi hij.symm, seen_iff]
  have hto := allowed_ne_nil_iff overlay hp S hids hi hj hij
  have hfrom := allowed_ne_nil_iff overlay hp S hids hj hi hij.symm
  refine ⟨?_, ?_, ?_⟩
  · rw [Bool.eq_iff_iff, hvis, hvis', or_comm]
  · intro h
    rcases hvis.mp h with (hopen | hroute) | (hopen | hroute)
    · exact .inl (hto.mpr hopen)
    · exact .inr (.inr (.inr (forwardsFrom_of_routed hp S hids hi hj hij (h4 a ha) hroute)))
    · exact .inr (.inl (hfrom.mpr hopen))
    · exact .inr (.inr (.inl (forwardsFrom_of_routed hp S hids hj hi hij.symm (h4 b hb) hroute)))
  · intro hown
    unfold Compiled.Exchange
    rw [hvis, hto, hfrom, forwardsFrom_iff hp S hids hown hj hi hij.symm (h4 b hb),
      forwardsFrom_iff hp S hids hown hi hj hij (h4 a ha)]
    unfold Reaches
    rw [or_assoc]
    exact or_congr_right (or_comm.trans or_assoc)

/-! ## Two peers with one address -/

def carolDoc : Doc where
  version := 1
  acls := [{ action := str "accept", src := [str "carol"], dst := [str "10.1.0.0/16:*"] }]

theorem carolDoc_parsed : Parsed (parsedDoc carolDoc) := parsed_of_rules (o := {}) rfl (by decide +kernel)

def sharedBob : Peer := { id := str "p2", owner := str "bob", ipv4 := .v4 (Arr.ofNat 4 0x64400005) }

def sharedCarol : Peer := { id := str "p3", owner := str "carol", ipv4 := .v4 (Arr.ofNat 4 0x64400005) }

def sharedPeers : List Peer := [branchRouter, sharedBob, sharedCarol]

/-- The router's forward rule for Carol names Bob's address, and Bob and the router are not
    visible to each other. -/
theorem shared_address_forwards :
    Parsed (parsedDoc carolDoc) ∧ (sharedPeers.map (·.id)).Nodup ∧ (∀ q ∈ sharedPeers, q.ipv4.isValid = true) ∧
      branchRouter ∈ sharedPeers ∧ sharedBob ∈ sharedPeers ∧ branchRouter ≠ sharedBob ∧
      (compileWith (parsedDoc carolDoc) sharedPeers nestedOverlay).Exchange rangeSort branchRouter sharedBob ∧
      (compileWith (parsedDoc carolDoc) sharedPeers nestedOverlay).visible branchRouter.id sharedBob.id = false := by
  refine ⟨carolDoc_parsed, by decide +kernel, by decide +kernel, by decide +kernel, by decide +kernel, by decide +kernel,
    .inr (.inr (.inl ?_)), by decide +kernel⟩
  refine ⟨⟨sharedBob.ipv4, ⟨.v4 (Arr.ofNat 4 0x0a010000), 17⟩, .any, allPorts.lo, allPorts.hi⟩, ?_, rfl⟩
  decide +kernel

/-- With an address of her own, Carol's device and the router see each other. -/
theorem own_address_visible :
    let carol : Peer := { sharedCarol with ipv4 := .v4 (Arr.ofNat 4 0x64400006) }
    (compileWith (parsedDoc carolDoc) [branchRouter, carol] nestedOverlay).Exchange rangeSort branchRouter carol ∧
      (compileWith (parsedDoc carolDoc) [branchRouter, carol] nestedOverlay).visible branchRouter.id carol.id = true := by
  intro carol
  have hvis : (compileWith (parsedDoc carolDoc) [branchRouter, carol] nestedOverlay).visible branchRouter.id carol.id = true := by
    decide +kernel
  have hall := visible_iff_exchange (parsedDoc carolDoc) carolDoc_parsed nestedOverlay rangeSort [branchRouter, carol]
    (by decide +kernel) (by decide +kernel) branchRouter carol (by decide +kernel) (by decide +kernel) (by decide +kernel)
  refine ⟨(hall.2.2 ?_).mp hvis, hvis⟩
  unfold OwnAddrs
  decide +kernel

end Thawr.Control.Policy
