/-
  Thawr.Control.Policy.Pairs — what a policy says of two peers.

  A compiled policy answers over indexes into the peer list it was compiled with. Whatever it
  says of two peers it says on account of these two alone: which rules open the one to the
  other (`Reaches`), and which route entries lead the one through the other (`routed`). Each
  answer is brought back to these two here, so that a proof about answers need not look at
  the list or the bit sets.

  What `Parse` accepts is also said once (`Parsed.wellFormed`): every range holds a port, and
  the IPv4 prefixes are canonical.
-/

import Thawr.Control.Policy.Routes

namespace Thawr.Control.Policy

open Go Netip

/-! ## A source, a router and a route entry -/

def ParsedRule.selects (doc : Doc) (r : ParsedRule) (a : Peer) : Bool := r.src.any fun sel => hits doc sel a

structure RouteDst where
  route : Prefix
  internet : Bool
  proto : Proto
  ports : List PortRange
  deriving DecidableEq

def routeDst (overlay : Prefix) (proto : Proto) (d : Dst) : Option RouteDst :=
  match d.host with
  | .internet => if overlay.isValid then some ⟨exitPrefix, true, proto, d.ports⟩ else none
  | .cidr p => if isRoute p overlay then some ⟨p, false, proto, d.ports⟩ else none
  | _ => none

def RouteDst.carriedBy (g : RouteDst) (b : Peer) : Bool :=
  b.routes.any fun adv =>
    if g.internet then adv == exitPrefix
    else adv != exitPrefix && decide (adv.bits ≤ g.route.bits) && adv.contains g.route.ip

/-- Every route entry of the policy with its rule, in the order of the document. -/
def routeEntries (p : Policy) (overlay : Prefix) : List (ParsedRule × RouteDst) :=
  p.rules.flatMap fun r => (r.dst.filterMap (routeDst overlay r.proto)).map fun g => (r, g)

/-- The route entries that lead `a` through `b`. -/
def routed (p : Policy) (overlay : Prefix) (a b : Peer) : List RouteDst :=
  ((routeEntries p overlay).filter fun e => e.1.selects p.doc a && e.2.carriedBy b).map (·.2)

/-- A rule opens `b` to `a` on a port. -/
def Admits (p : Policy) (overlay : Prefix) (a b : Peer) (proto : Proto) (x : UInt16) : Prop :=
  ∃ r ∈ p.rules, r.selects p.doc a = true ∧ r.proto = proto ∧
    ∃ d ∈ r.dst, Opens (hits p.doc · ·) overlay d.host a b ∧ Covers d.ports x

/-- A rule opens `b` to `a`, or leads `a` through `b`. -/
def Reaches (p : Policy) (overlay : Prefix) (a b : Peer) : Prop :=
  (∃ r ∈ p.rules, r.selects p.doc a = true ∧ ∃ d ∈ r.dst, Opens (hits p.doc · ·) overlay d.host a b) ∨
    routed p overlay a b ≠ []

section

variable {p : Policy} {peers : List Peer} {overlay : Prefix} {i j : Nat} {a b : Peer}

theorem selects_iff {doc : Doc} {r : ParsedRule} : r.selects doc a = true ↔ ∃ sel ∈ r.src, hits doc sel a = true := by
  unfold ParsedRule.selects
  exact List.any_eq_true

variable {g : RouteDst}

theorem mem_routeEntries {r : ParsedRule} :
    (r, g) ∈ routeEntries p overlay ↔ r ∈ p.rules ∧ ∃ d ∈ r.dst, routeDst overlay r.proto d = some g := by
  unfold routeEntries
  grind

theorem mem_routed :
    g ∈ routed p overlay a b ↔
      (∃ r ∈ p.rules, r.selects p.doc a = true ∧ ∃ d ∈ r.dst, routeDst overlay r.proto d = some g) ∧ g.carriedBy b = true := by
  unfold routed
  simp only [List.mem_map, List.mem_filter, Bool.and_eq_true]
  constructor
  · intro h
    obtain ⟨⟨r, g'⟩, ⟨he, hs, hc⟩, rfl⟩ := h
    obtain ⟨hr, hd⟩ := mem_routeEntries.mp he
    exact ⟨⟨r, hr, hs, hd⟩, hc⟩
  · intro h
    obtain ⟨⟨r, hr, hs, hd⟩, hc⟩ := h
    exact ⟨(r, g), ⟨mem_routeEntries.mpr ⟨hr, hd⟩, hs, hc⟩, rfl⟩

/-- A route rule is an entry and the peers its rule selects. -/
theorem compileRoute_eq (doc : Doc) (r : ParsedRule) (d : Dst) :
    compileRoute doc peers overlay r d =
      (routeDst overlay r.proto d).map fun g => ⟨union doc peers r.src, g.route, g.internet, g.proto, g.ports⟩ := by
  unfold compileRoute routeDst
  grind

theorem routeRules_eq : (compileWith p peers overlay).routeRules =
      (routeEntries p overlay).map fun e => ⟨union p.doc peers e.1.src, e.2.route, e.2.internet, e.2.proto, e.2.ports⟩ := by
  show (p.rules.flatMap fun r => r.dst.filterMap (compileRoute p.doc peers overlay r)) = _
  unfold routeEntries
  rw [List.map_flatMap]
  congr 1
  funext r
  rw [List.map_map, List.map_filterMap]
  congr 1
  funext d
  exact compileRoute_eq p.doc r d

theorem union_eq_selects (hi : peers[i]? = some a) (r : ParsedRule) : (union p.doc peers r.src).has i = r.selects p.doc a := by
  rw [Bool.eq_iff_iff, union_has hi, selects_iff]

theorem serves_eq (hj : peers[j]? = some b) (s : Bitset) (g : RouteDst) :
    (compileWith p peers overlay).serves ⟨s, g.route, g.internet, g.proto, g.ports⟩ j = g.carriedBy b := by
  unfold Compiled.serves RouteDst.carriedBy
  rw [show (compileWith p peers overlay).peers = peers from rfl, hj]
  rfl

/-- The route rules between two indexes are the entries between the two peers. -/
theorem routeRules_filter (hi : peers[i]? = some a) (hj : peers[j]? = some b) :
    ((compileWith p peers overlay).routeRules.filter fun rr =>
        rr.src.has i && (compileWith p peers overlay).serves rr j).map
          (fun rr => RouteDst.mk rr.route rr.internet rr.proto rr.ports) =
      routed p overlay a b := by
  rw [routeRules_eq, List.filter_map, List.map_map]
  unfold routed
  congr 1
  refine List.filter_congr fun e _ => ?_
  show ((union p.doc peers e.1.src).has i && _) = _
  rw [union_eq_selects hi, serves_eq hj]

/-! ## The answers -/

theorem forwardAny_iff (hi : peers[i]? = some a) (hj : peers[j]? = some b) (hij : i ≠ j) :
    (compileWith p peers overlay).forwardAny i j = true ↔ routed p overlay a b ≠ [] := by
  rw [← routeRules_filter hi hj]
  unfold Compiled.forwardAny
  simp only [ne_eq, List.map_eq_nil_iff, List.filter_eq_nil_iff, Bool.and_eq_true, bne_iff_ne, hij, not_false_eq_true,
    true_and, List.any_eq_true]
  rw [not_forall]
  simp only [Classical.not_imp, not_not]

theorem anyIdx_iff (hi : peers[i]? = some a) (hj : peers[j]? = some b) (hij : i ≠ j) :
    (compileWith p peers overlay).anyIdx i j = true ↔ Reaches p overlay a b := by
  unfold Compiled.anyIdx Reaches
  rw [Bool.or_eq_true, forwardAny_iff hi hj hij, List.any_eq_true]
  refine or_congr_left ⟨fun h => ?_, fun h => ?_⟩
  · obtain ⟨cr, hcr, hm⟩ := h
    obtain ⟨r, hr, hcr⟩ := List.mem_flatMap.mp hcr
    obtain ⟨d, hd, hc⟩ := List.mem_filterMap.mp hcr
    obtain ⟨hsrc, hopen⟩ := (compileDst_iff hi hj hij r d).mp ⟨cr, hc, hm⟩
    exact ⟨r, hr, selects_iff.mpr hsrc, d, hd, hopen⟩
  · obtain ⟨r, hr, hsrc, d, hd, hopen⟩ := h
    obtain ⟨cr, hc, hm⟩ := (compileDst_iff (p := p) hi hj hij r d).mpr ⟨selects_iff.mp hsrc, hopen⟩
    exact ⟨cr, List.mem_flatMap.mpr ⟨r, hr, List.mem_filterMap.mpr ⟨d, hd, hc⟩⟩, hm⟩

theorem covers_admits (hi : peers[i]? = some a) (hj : peers[j]? = some b) (hij : i ≠ j) (proto : Proto) (x : UInt16) :
    Covers ((compileWith p peers overlay).portsFor i j proto) x ↔ Admits p overlay a b proto x := by
  rw [covers_portsFor, compile_matches hi hj hij]
  unfold Admits
  simp only [selects_iff]

theorem allowedIdx_admits (S : RangeSort) (hi : peers[i]? = some a) (hj : peers[j]? = some b) (hij : i ≠ j) (proto : Proto)
    (x : UInt16) :
    (∃ pr ∈ (compileWith p peers overlay).allowedIdx S i j, pr.proto = proto ∧ pr.lo ≤ x ∧ x ≤ pr.hi) ↔
      Admits p overlay a b proto x := by
  rw [allowedIdx_iff, ← covers_portsFor, covers_admits hi hj hij]

theorem forwardFrom_eq (hi : peers[i]? = some a) (hj : peers[j]? = some b) (hij : i ≠ j) :
    (compileWith p peers overlay).forwardFrom j (a, i) =
      if a.ipv4.isValid then
        (routed p overlay a b).flatMap fun g => (forwardKeys a g.route g.internet g.proto).map fun k => (k, g.ports)
      else [] := by
  unfold Compiled.forwardFrom
  rw [← routeRules_filter hi hj, List.flatMap_map]
  by_cases hv : a.ipv4.isValid = true
  · simp [hij, hv]
  · simp [hv]

/-- Going through the routers of the list that an entry leads `a` to. -/
theorem mem_routersOf {s : Bitset} {id : Str} :
    id ∈ (compileWith p peers overlay).routersOf i ⟨s, g.route, g.internet, g.proto, g.ports⟩ ↔
      ∃ j b, peers[j]? = some b ∧ j ≠ i ∧ g.carriedBy b = true ∧ b.id = id := by
  unfold Compiled.routersOf
  rw [show (compileWith p peers overlay).peers = peers from rfl]
  simp only [List.mem_map, List.mem_filter, Bool.and_eq_true, bne_iff_ne]
  constructor
  · intro h
    obtain ⟨⟨b, j⟩, ⟨hx, hj, hs⟩, rfl⟩ := h
    have hb := List.mem_zipIdx_iff_getElem?.mp hx
    rw [serves_eq hb] at hs
    exact ⟨j, b, hb, hj, hs, rfl⟩
  · intro h
    obtain ⟨j, b, hb, hj, hs, rfl⟩ := h
    rw [← serves_eq hb s g] at hs
    exact ⟨(b, j), ⟨List.mem_zipIdx_iff_getElem?.mpr hb, hj, hs⟩, rfl⟩

/-- The route rules that select `a` name the routers whose entries it may use. -/
theorem exists_routeRule (hi : peers[i]? = some a) {id : Str} {Q : Prefix → Bool → Prop} :
    (∃ rr ∈ (compileWith p peers overlay).routeRules, rr.src.has i = true ∧ Q rr.route rr.internet ∧
        id ∈ (compileWith p peers overlay).routersOf i rr) ↔
      ∃ j b, peers[j]? = some b ∧ j ≠ i ∧ b.id = id ∧ ∃ g ∈ routed p overlay a b, Q g.route g.internet := by
  simp only [routeRules_eq, List.mem_map, mem_routed]
  constructor
  · intro h
    obtain ⟨rr, ⟨⟨r, g⟩, he, rfl⟩, hs, hQ, hid⟩ := h
    obtain ⟨j, b, hb, hj, hc, rfl⟩ := mem_routersOf.mp hid
    obtain ⟨hr, hd⟩ := mem_routeEntries.mp he
    rw [union_eq_selects hi] at hs
    exact ⟨j, b, hb, hj, rfl, g, ⟨⟨r, hr, hs, hd⟩, hc⟩, hQ⟩
  · intro h
    obtain ⟨j, b, hb, hj, hid, g, ⟨⟨r, hr, hs, hd⟩, hc⟩, hQ⟩ := h
    rw [← union_eq_selects hi] at hs
    exact ⟨_, ⟨(r, g), mem_routeEntries.mpr ⟨hr, hd⟩, rfl⟩, hs, hQ, mem_routersOf.mpr ⟨j, b, hb, hj, hc, hid⟩⟩

/-- `x.via` is a router of the list that carries `x.route` for the peer `a` at `i`. -/
def Leads (p : Policy) (peers : List Peer) (overlay : Prefix) (i : Nat) (a : Peer) (x : Route) : Prop :=
  ∃ j b, peers[j]? = some b ∧ j ≠ i ∧ b.id = x.via ∧ ∃ g ∈ routed p overlay a b, g.internet = false ∧ g.route = x.route

theorem mem_viaCandidates (hi : peers[i]? = some a) {x : Route} :
    x ∈ (compileWith p peers overlay).viaCandidates i ↔ Leads p peers overlay i a x := by
  unfold Leads
  rw [← exists_routeRule hi (Q := fun route internet => internet = false ∧ route = x.route)]
  unfold Compiled.viaCandidates
  simp only [List.mem_flatMap, List.mem_map, List.mem_filter, Bool.and_eq_true, Bool.not_eq_true']
  constructor
  · grind
  · intro h
    obtain ⟨rr, hrr, hs, ⟨hint, hroute⟩, hid⟩ := h
    exact ⟨rr, ⟨hrr, hint, hs⟩, x.via, hid, route_ext hroute rfl⟩

/-- The candidates `ExitNodesFor` goes through. -/
theorem mem_exitCandidates (hi : peers[i]? = some a) {id : Str} :
    id ∈ ((compileWith p peers overlay).routeRules.filter fun rr => rr.internet && rr.src.has i).flatMap
        ((compileWith p peers overlay).routersOf i) ↔
      ∃ j b, peers[j]? = some b ∧ j ≠ i ∧ b.id = id ∧ ∃ g ∈ routed p overlay a b, g.internet = true := by
  rw [← exists_routeRule hi (Q := fun _ internet => internet = true)]
  grind

end

/-! ## What `Parse` accepts -/

def Parsed (p : Policy) : Prop := ∃ S decode o data, parse S decode o data = .ok p

/-- Every range of a rule holds a port, and the prefixes are as `netip` makes them. -/
structure WellFormed (p : Policy) : Prop where
  ports : ∀ r ∈ p.rules, ∀ d ∈ r.dst, Proper d.ports
  routes : ∀ r ∈ p.rules, ∀ d ∈ r.dst, ∀ q, d.host = .cidr q → q.WellFormed

variable {raw : Str} {q : Prefix} {p : Policy}

theorem parseSelector_wellFormed {dst : Bool} (h : parseSelector raw dst = .ok (.cidr q)) :
    q.WellFormed := by
  rcases parseSelector_cidr h with ⟨p, -, rfl⟩ | ⟨a, -, -, rfl⟩
  · exact Prefix.wellFormed_masked _
  · exact wellFormed_prefixFrom _ _

/-- A selector's prefix is masked. -/
theorem parseSelector_masked {dst : Bool} (h : parseSelector raw dst = .ok (.cidr q)) :
    q.masked = q := by
  rcases parseSelector_cidr h with ⟨p, hp, rfl⟩ | ⟨a, -, hz, rfl⟩
  · obtain ⟨a, n, -, rfl⟩ := parsePrefix_ok hp
    exact (wellFormed_prefixFrom a n).masked_masked
  · by_cases ha : a.isValid = true
    · exact single_masked ha hz
    · cases a with
      | zero => rfl
      | v4 b => exact absurd rfl ha
      | v6 b z => exact absurd rfl ha

theorem parseDst_host {S : RangeSort} {d : Dst} (h : parseDst S raw = .ok d) :
    ∃ s, parseSelector s true = .ok d.host := by
  obtain ⟨hp, -, -, hh, -⟩ := parseDst_ok h
  exact ⟨hp.1, hh⟩

theorem Parsed.dst (h : Parsed p) : ∀ r ∈ p.rules, ∀ d ∈ r.dst, ∃ S raw, parseDst S raw = .ok d := by
  obtain ⟨S, decode, o, data, h⟩ := h
  obtain ⟨hrules, -⟩ := parse_ok h
  intro r hr d hd
  rw [hrules] at hr
  obtain ⟨acl, -, rfl⟩ := List.mem_map.mp hr
  obtain ⟨raw, -, hraw⟩ := List.mem_filterMap.mp hd
  refine ⟨S, raw, ?_⟩
  cases hp : parseDst S raw with
  | error e =>
    rw [hp] at hraw
    cases hraw
  | ok d' =>
    rw [hp] at hraw
    cases hraw
    rfl

theorem Parsed.wellFormed (h : Parsed p) : WellFormed p := by
  refine ⟨fun r hr d hd => ?_, fun r hr d hd q hq => ?_⟩
  · obtain ⟨S, raw, hraw⟩ := h.dst r hr d hd
    exact parseDst_proper hraw
  · obtain ⟨S, raw, hraw⟩ := h.dst r hr d hd
    obtain ⟨s, hs⟩ := parseDst_host hraw
    exact parseSelector_wellFormed (hq ▸ hs)

theorem Parsed.covers (h : Parsed p) {r : ParsedRule} (hr : r ∈ p.rules) {d : Dst} (hd : d ∈ r.dst) :
    ∃ x, Covers d.ports x := by
  obtain ⟨S, raw, hraw⟩ := h.dst r hr d hd
  obtain ⟨_, l, -, -, hl, hcovers⟩ := parseDst_ok hraw
  obtain ⟨x, hx⟩ := portList_covers hl
  exact ⟨x, (hcovers x).mpr hx⟩

theorem Parsed.masked (h : Parsed p) {r : ParsedRule} (hr : r ∈ p.rules) {d : Dst} (hd : d ∈ r.dst)
    (hq : d.host = .cidr q) : q.masked = q := by
  obtain ⟨S, raw, hraw⟩ := h.dst r hr d hd
  obtain ⟨s, hs⟩ := parseDst_host hraw
  exact parseSelector_masked (hq ▸ hs)

section

variable {p : Policy} {overlay : Prefix} {a b : Peer} {g : RouteDst}

theorem routeDst_ports {proto : Proto} {d : Dst} (h : routeDst overlay proto d = some g) :
    g.proto = proto ∧ g.ports = d.ports := by
  unfold routeDst at h
  grind

/-- An entry that is not the internet names a prefix outside the overlay. -/
theorem routeDst_cidr {proto : Proto} {d : Dst} (h : routeDst overlay proto d = some g) (hint : g.internet = false) :
    d.host = .cidr g.route ∧ isRoute g.route overlay = true := by
  unfold routeDst at h
  grind

theorem WellFormed.portsFor_proper (hw : WellFormed p) (peers : List Peer) (i j : Nat) (proto : Proto) :
    Proper ((compileWith p peers overlay).portsFor i j proto) := by
  intro r hr
  obtain ⟨cr, hcr, hr⟩ := List.mem_flatMap.mp hr
  obtain ⟨pr, hpr, hcr⟩ := List.mem_flatMap.mp (List.mem_of_mem_filter hcr)
  obtain ⟨d, hd, hc⟩ := List.mem_filterMap.mp hcr
  rw [(compileDst_fields hc).2] at hr
  exact hw.ports pr hpr d hd r hr

/-- Two compiled policies that admit the same between two pairs of peers list it alike. -/
theorem allowedIdx_congr {q : Policy} (S T : RangeSort) (hp : WellFormed p) (hq : WellFormed q) {peers peers' : List Peer}
    {i j i' j' : Nat} {a' b' : Peer} (hi : peers[i]? = some a) (hj : peers[j]? = some b) (hij : i ≠ j)
      (hi' : peers'[i']? = some a')
    (hj' : peers'[j']? = some b') (hij' : i' ≠ j') (h : ∀ proto x, Admits p overlay a b proto x ↔
      Admits q overlay a' b' proto x) :
    (compileWith p peers overlay).allowedIdx S i j = (compileWith q peers' overlay).allowedIdx T i' j' := by
  unfold Compiled.allowedIdx
  congr 1
  funext proto
  rw [mergeRanges_canonical S T (hp.portsFor_proper peers i j proto) (hq.portsFor_proper peers' i' j' proto) fun x => ?_]
  rw [covers_admits hi hj hij, covers_admits hi' hj' hij', h]

theorem WellFormed.routed_proper (hw : WellFormed p) (hg : g ∈ routed p overlay a b) : Proper g.ports := by
  obtain ⟨⟨r, hr, -, d, hd, hgd⟩, -⟩ := mem_routed.mp hg
  rw [(routeDst_ports hgd).2]
  exact hw.ports r hr d hd

theorem WellFormed.routed_isV4 (hw : WellFormed p) (hg : g ∈ routed p overlay a b) (hint : g.internet = false) :
    g.route.IsV4 := by
  obtain ⟨⟨r, hr, -, d, hd, hgd⟩, -⟩ := mem_routed.mp hg
  obtain ⟨hhost, hroute⟩ := routeDst_cidr hgd hint
  simp only [isRoute, Bool.and_eq_true] at hroute
  exact (hw.routes r hr d hd _ hhost).isV4 hroute.1.1.2 hroute.1.2

theorem WellFormed.forwardEntries_proper (hw : WellFormed p) {peers : List Peer} {j : Nat} (hj : peers[j]? = some b) :
    ∀ e ∈ peers.zipIdx.flatMap ((compileWith p peers overlay).forwardFrom j), Proper e.2 := by
  intro e he
  obtain ⟨⟨a, i⟩, hx, he⟩ := List.mem_flatMap.mp he
  by_cases hij : i = j
  · unfold Compiled.forwardFrom at he
    rw [if_pos (.inl hij)] at he
    cases he
  · rw [forwardFrom_eq (List.mem_zipIdx_iff_getElem?.mp hx) hj hij] at he
    split at he
    · obtain ⟨g, hg, he⟩ := List.mem_flatMap.mp he
      obtain ⟨k, -, rfl⟩ := List.mem_map.mp he
      exact hw.routed_proper hg
    · cases he

end

end Thawr.Control.Policy
