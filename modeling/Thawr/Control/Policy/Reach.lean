/-
  Thawr.Control.Policy.Reach — routes and forwarding rules of routers with nested prefixes
  (`RoutesFor` and `ForwardFor` of `internal/control/policy/compile.go`).

  A client sends what a granted route contains to the router `RoutesFor` names for the longest
  prefix; that router forwards what `ForwardFor` lists. The router lists exactly what a rule
  grants through an entry it serves (`forwardFor_iff`). But the longest prefix may come from
  another rule than the one that grants the port, and its router need not serve the rule's
  own prefix: then the packet is dropped (`nested_route_dropped`). Exactly when the lowest
  router of the longest prefix also serves an entry that grants the port, the grant works
  (`granted_route_reachable_iff`).
-/

import Mathlib.Data.Finset.Max
import Thawr.Control.Policy.Compose

namespace Thawr.Control.Policy

open Go Netip

/-- A rule grants `src` the address and port through an entry the router `b` at `j` serves:
    of a peer other than the router that has the address. The internet is both families. -/
def RouteGrants (p : Policy) (peers : List Peer) (overlay : Prefix) (j : Nat) (b : Peer) (src d : Addr) (proto : Proto)
    (x : UInt16) : Prop :=
  ∃ i a g, peers[i]? = some a ∧ i ≠ j ∧ a.ipv4.isValid = true ∧ g ∈ routed p overlay a b ∧ g.proto = proto ∧ Covers g.ports x ∧
    ((src = a.ipv4 ∧ g.route.contains d = true) ∨
      (g.internet = true ∧ a.ipv6.isValid = true ∧ src = a.ipv6 ∧ exitPrefix6.contains d = true))

def Compiled.Forwards (S : RangeSort) (c : Compiled) (id : Str) (src d : Addr) (proto : Proto) (x : UInt16) : Prop :=
  ∃ f ∈ c.forwardFor S id, f.src = src ∧ f.dst.contains d = true ∧ f.proto = proto ∧ f.lo ≤ x ∧ x ≤ f.hi

/-- The route a client takes to `d`: the longest prefix that contains it. -/
structure Longest (routes : List Route) (d : Addr) (r : Route) : Prop where
  mem : r ∈ routes
  contains : r.route.contains d = true
  longest : ∀ r' ∈ routes, r'.route.contains d = true → r'.route.bits ≤ r.route.bits

section

variable {p : Policy} {peers : List Peer} {overlay : Prefix} {i j : Nat} {a b : Peer}

theorem mem_forwardKeys {src : Peer} {route : Prefix} {internet : Bool} {proto : Proto} {k : ForwardKey} :
    k ∈ forwardKeys src route internet proto ↔
      k = ⟨src.ipv4, route, proto⟩ ∨ (internet = true ∧ src.ipv6.isValid = true ∧ k = ⟨src.ipv6, exitPrefix6, proto⟩) := by
  unfold forwardKeys
  grind

/-- An entry a source adds for the router at `j`. -/
theorem mem_forwardFrom (hj : peers[j]? = some b) (hi : peers[i]? = some a) {e : ForwardKey × List PortRange} :
    e ∈ (compileWith p peers overlay).forwardFrom j (a, i) ↔
      i ≠ j ∧ a.ipv4.isValid = true ∧ ∃ g ∈ routed p overlay a b, e.1 ∈ forwardKeys a g.route g.internet g.proto ∧
        e.2 = g.ports := by
  by_cases hij : i = j
  · unfold Compiled.forwardFrom
    rw [if_pos (.inl hij)]
    simp [hij]
  · rw [forwardFrom_eq hi hj hij]
    grind

/-- A router forwards exactly what a rule grants through an entry it serves. -/
theorem forwardFor_iff (S : RangeSort) (hids : (peers.map (·.id)).Nodup) (hj : peers[j]? = some b) {src d : Addr} {proto : Proto}
    {x : UInt16} :
    (compileWith p peers overlay).Forwards S b.id src d proto x ↔ RouteGrants p peers overlay j b src d proto x := by
  unfold Compiled.Forwards Compiled.forwardFor
  rw [lookup_index hids hj]
  simp only [List.mem_insertionSort]
  constructor
  · intro h
    obtain ⟨f, hf, hsrc, hd, hproto, hx⟩ := h
    obtain ⟨e, he, hk, hcov⟩ := (forwardRules_iff S _ ⟨f.src, f.dst, f.proto⟩ x).mp ⟨f, hf, rfl, rfl, rfl, hx⟩
    obtain ⟨⟨a, i⟩, ha, he⟩ := List.mem_flatMap.mp he
    have hi := List.mem_zipIdx_iff_getElem?.mp ha
    obtain ⟨hij, hv, g, hg, hkey, hports⟩ := (mem_forwardFrom hj hi).mp he
    rw [hports] at hcov
    rw [hk, mem_forwardKeys] at hkey
    rcases hkey with hkey | ⟨hint, hv6, hkey⟩
    · rw [ForwardKey.mk.injEq] at hkey
      obtain ⟨h1, h2, h3⟩ := hkey
      exact ⟨i, a, g, hi, hij, hv, hg, h3.symm.trans hproto, hcov, .inl ⟨hsrc.symm.trans h1, h2 ▸ hd⟩⟩
    · rw [ForwardKey.mk.injEq] at hkey
      obtain ⟨h1, h2, h3⟩ := hkey
      exact ⟨i, a, g, hi, hij, hv, hg, h3.symm.trans hproto, hcov, .inr ⟨hint, hv6, hsrc.symm.trans h1, h2 ▸ hd⟩⟩
  · intro h
    obtain ⟨i, a, g, hi, hij, hv, hg, hproto, hcov, hor⟩ := h
    -- the key under which the entry is filed
    obtain ⟨k, hk, hsrc, hd⟩ : ∃ k ∈ forwardKeys a g.route g.internet g.proto, k.src = src ∧ k.dst.contains d = true := by
      rcases hor with ⟨hsrc, hd⟩ | ⟨hint, hv6, hsrc, hd⟩
      · exact ⟨_, mem_forwardKeys.mpr (.inl rfl), hsrc.symm, hd⟩
      · exact ⟨_, mem_forwardKeys.mpr (.inr ⟨hint, hv6, rfl⟩), hsrc.symm, hd⟩
    have hkproto : k.proto = proto := by
      rcases mem_forwardKeys.mp hk with rfl | ⟨-, -, rfl⟩
      · exact hproto
      · exact hproto
    have he : (k, g.ports) ∈ peers.zipIdx.flatMap ((compileWith p peers overlay).forwardFrom j) :=
      List.mem_flatMap.mpr ⟨(a, i), List.mem_zipIdx_iff_getElem?.mpr hi, (mem_forwardFrom hj hi).mpr ⟨hij, hv, g, hg, hk, rfl⟩⟩
    obtain ⟨f, hf, h1, h2, h3, hx⟩ := (forwardRules_iff S _ k x).mpr ⟨_, he, rfl, hcov⟩
    exact ⟨f, hf, h1.trans hsrc, h2 ▸ hd, h3.trans hkproto, hx⟩

/-- `RoutesFor` names the lowest of the routers that carry a prefix for the source. -/
theorem mem_routesFor (T : RouteSort) (hids : (peers.map (·.id)).Nodup) (hi : peers[i]? = some a) {r : Route} :
    r ∈ (compileWith p peers overlay).routesFor T a.id ↔
      Leads p peers overlay i a r ∧ ∀ r', Leads p peers overlay i a r' → r'.route = r.route → r.via ≤ r'.via := by
  unfold Compiled.routesFor
  rw [lookup_index hids hi]
  simp only [T.mem_iff, (assigned _).least, mem_viaCandidates hi]

/-- Every prefix a router carries for the source is among its routes. -/
theorem route_of_leads (T : RouteSort) (hids : (peers.map (·.id)).Nodup) (hi : peers[i]? = some a) {r : Route}
    (h : Leads p peers overlay i a r) : ∃ r' ∈ (compileWith p peers overlay).routesFor T a.id, r'.route = r.route := by
  unfold Compiled.routesFor
  rw [lookup_index hids hi]
  obtain ⟨y, hy, hroute⟩ := (assigned ((compileWith p peers overlay).viaCandidates i)).complete r ((mem_viaCandidates hi).mpr h)
  exact ⟨y, T.mem_iff.mpr hy, hroute⟩

/-- `q` is the longest prefix with `d` that any router carries for the source, and `b` the
    router with the lowest id among those that carry it. -/
structure Carrier (p : Policy) (peers : List Peer) (overlay : Prefix) (i : Nat) (a : Peer) (d : Addr) (q : Prefix) (b : Peer) :
    Prop where
  leads : Leads p peers overlay i a ⟨q, b.id⟩
  lowest : ∀ id, Leads p peers overlay i a ⟨q, id⟩ → b.id ≤ id
  contains : q.contains d = true
  longest : ∀ r, Leads p peers overlay i a r → r.route.contains d = true → r.route.bits ≤ q.bits

theorem longest_iff (T : RouteSort) (hids : (peers.map (·.id)).Nodup) (hi : peers[i]? = some a) {d : Addr} {q : Prefix} :
    Longest ((compileWith p peers overlay).routesFor T a.id) d ⟨q, b.id⟩ ↔ Carrier p peers overlay i a d q b := by
  constructor
  · intro h
    obtain ⟨hleads, hlow⟩ := (mem_routesFor T hids hi).mp h.mem
    refine ⟨hleads, fun id hid => hlow ⟨q, id⟩ hid rfl, h.contains, fun r hr hd => ?_⟩
    obtain ⟨r', hr', hroute⟩ := route_of_leads T hids hi hr
    rw [← hroute] at hd ⊢
    exact h.longest r' hr' hd
  · intro h
    refine ⟨(mem_routesFor T hids hi).mpr ⟨h.leads, fun r hr hroute => ?_⟩, h.contains, fun r hr hd => ?_⟩
    · refine h.lowest r.via ?_
      rw [← show r.route = q from hroute]
      exact hr
    · exact h.longest r ((mem_routesFor T hids hi).mp hr).1 hd

/-- Some route is the longest when any contains the address. -/
theorem exists_longest {routes : List Route} {d : Addr} (h : ∃ r ∈ routes, r.route.contains d = true) :
    ∃ r, Longest routes d r := by
  have hmem : ∀ r, r ∈ (routes.filter fun r => r.route.contains d).toFinset ↔ r ∈ routes ∧ r.route.contains d = true := by
    intro r
    rw [List.mem_toFinset, List.mem_filter]
  obtain ⟨r, hr⟩ := h
  obtain ⟨m, hm, hmax⟩ := Finset.exists_max_image _ (fun r => r.route.bits) ⟨r, (hmem r).mpr hr⟩
  obtain ⟨hm, hd⟩ := (hmem m).mp hm
  exact ⟨m, hm, hd, fun r' hr' hd' => hmax r' ((hmem r').mpr ⟨hr', hd'⟩)⟩

/-- A rule grants the source an address and port through a CIDR entry that a router other than
    the source serves. -/
def GrantsRoute (p : Policy) (peers : List Peer) (overlay : Prefix) (i : Nat) (a : Peer) (d : Addr) (t : Proto) (x : UInt16) :
    Prop :=
  ∃ j b g, peers[j]? = some b ∧ j ≠ i ∧ g ∈ routed p overlay a b ∧ g.internet = false ∧ g.route.contains d = true ∧
    (g.proto = .any ∨ g.proto = t) ∧ Covers g.ports x

/-- A granted address is reachable, and routers forward only what is granted, exactly when the
    lowest router of the longest prefix with the address serves an entry that grants the port. -/
theorem granted_route_reachable_iff (S : RangeSort) (T : RouteSort) (hids : (peers.map (·.id)).Nodup) (hi : peers[i]? = some a)
    {d : Addr} {t : Proto} {x : UInt16} (hgrant : GrantsRoute p peers overlay i a d t x) :
    ((∃ r, Longest ((compileWith p peers overlay).routesFor T a.id) d r) ∧
        (∀ r, Longest ((compileWith p peers overlay).routesFor T a.id) d r →
          ∃ proto, (proto = .any ∨ proto = t) ∧ (compileWith p peers overlay).Forwards S r.via a.ipv4 d proto x) ∧
        ∀ j b, peers[j]? = some b → ∀ src d' proto x', (compileWith p peers overlay).Forwards S b.id src d' proto x' →
          RouteGrants p peers overlay j b src d' proto x') ↔
      ∀ q j b, peers[j]? = some b → Carrier p peers overlay i a d q b →
        ∃ proto, (proto = .any ∨ proto = t) ∧ RouteGrants p peers overlay j b a.ipv4 d proto x := by
  constructor
  · intro h q j b hj hcarrier
    obtain ⟨proto, ht, hf⟩ := h.2.1 ⟨q, b.id⟩ ((longest_iff T hids hi).mpr hcarrier)
    exact ⟨proto, ht, (forwardFor_iff S hids hj).mp hf⟩
  · intro h
    refine ⟨?_, fun r hr => ?_, fun j b hj src d' proto x' hf => (forwardFor_iff S hids hj).mp hf⟩
    · obtain ⟨j, b, g, hj, hji, hg, hint, hd, -⟩ := hgrant
      obtain ⟨r, hr, hroute⟩ := route_of_leads T hids hi (r := ⟨g.route, b.id⟩) ⟨j, b, hj, hji, rfl, g, hg, hint, rfl⟩
      exact exists_longest ⟨r, hr, by rw [hroute]; exact hd⟩
    · -- the router a route names is a peer of the list
      obtain ⟨⟨j, b, hj, -, hid, -⟩, -⟩ := (mem_routesFor T hids hi).mp hr.mem
      have hr' : Longest ((compileWith p peers overlay).routesFor T a.id) d ⟨r.route, b.id⟩ := by
        rw [hid]
        exact hr
      obtain ⟨proto, ht, hf⟩ := h r.route j b hj ((longest_iff T hids hi).mp hr')
      rw [← hid]
      exact ⟨proto, ht, (forwardFor_iff S hids hj).mpr hf⟩

end

/-! ## Two nested routes -/

/-- Alice reaches port 80 of 10.0.0.0/8, and port 443 of 10.1.0.0/16. -/
def nestedDoc : Doc where
  version := 1
  acls := [{ action := str "accept", src := [str "alice"], dst := [str "10.0.0.0/8:80"] },
    { action := str "accept", src := [str "alice"], dst := [str "10.1.0.0/16:443"] }]

def nestedOverlay : Prefix := ⟨.v4 (Arr.ofNat 4 0x64400000), 17⟩

def laptop : Peer := { id := str "a", owner := str "alice", ipv4 := .v4 (Arr.ofNat 4 0x64400001) }

def branchRouter : Peer :=
  { id := str "r1", ipv4 := .v4 (Arr.ofNat 4 0x64400002), routes := [⟨.v4 (Arr.ofNat 4 0x0a010000), 17⟩] }

def officeRouter : Peer := { id := str "r2", ipv4 := .v4 (Arr.ofNat 4 0x64400003), routes := [⟨.v4 (Arr.ofNat 4 0x0a000000), 9⟩] }

def nestedPeers : List Peer := [laptop, branchRouter, officeRouter]

def nestedCompiled : Compiled := compileWith (parsedDoc nestedDoc) nestedPeers nestedOverlay

def nestedHost : Addr := .v4 (Arr.ofNat 4 0x0a010203)

theorem nested_routes :
    nestedCompiled.routesFor routeSort laptop.id =
      [⟨⟨.v4 (Arr.ofNat 4 0x0a000000), 9⟩, str "r2"⟩, ⟨⟨.v4 (Arr.ofNat 4 0x0a010000), 17⟩, str "r1"⟩] := by
  decide +kernel

theorem nested_forward :
    nestedCompiled.forwardFor rangeSort branchRouter.id =
      [⟨laptop.ipv4, ⟨.v4 (Arr.ofNat 4 0x0a010000), 17⟩, .any, 443, 443⟩] := by
  decide +kernel

theorem nested_granted (x : UInt16) (hx : x = 80 ∨ x = 443) :
    GrantsRoute (parsedDoc nestedDoc) nestedPeers nestedOverlay 0 laptop nestedHost .tcp x := by
  rcases hx with rfl | rfl
  · refine ⟨2, officeRouter, ⟨⟨.v4 (Arr.ofNat 4 0x0a000000), 9⟩, false, .any, [⟨80, 80⟩]⟩,
      rfl, by decide, ?_, rfl, by decide +kernel,
      .inl rfl, ⟨_, List.mem_singleton_self _, by decide, by decide⟩⟩
    decide +kernel
  · refine ⟨1, branchRouter, ⟨⟨.v4 (Arr.ofNat 4 0x0a010000), 17⟩, false, .any, [⟨443, 443⟩]⟩, rfl, by decide, ?_, rfl,
      by decide +kernel, .inl rfl, ⟨_, List.mem_singleton_self _, by decide, by decide⟩⟩
    decide +kernel

/-- Port 80 is granted, but the longer prefix of the other rule sends it to a router that
    forwards port 443 only. -/
theorem nested_route_dropped :
    Parsed (parsedDoc nestedDoc) ∧ (nestedPeers.map (·.id)).Nodup ∧
      GrantsRoute (parsedDoc nestedDoc) nestedPeers nestedOverlay 0 laptop nestedHost .tcp 80 ∧
        Longest (nestedCompiled.routesFor routeSort laptop.id) nestedHost ⟨⟨.v4 (Arr.ofNat 4 0x0a010000), 17⟩, str "r1"⟩ ∧
          ¬∃ proto, (proto = .any ∨ proto = .tcp) ∧ nestedCompiled.Forwards rangeSort (str "r1") laptop.ipv4
            nestedHost proto 80 := by
  refine ⟨parsed_of_rules (o := {}) rfl (by decide +kernel), by decide +kernel, nested_granted 80 (.inl rfl), ?_, ?_⟩
  · rw [nested_routes]
    exact ⟨List.mem_cons_of_mem _ List.mem_cons_self, by decide +kernel, by decide +kernel⟩
  · intro h
    obtain ⟨proto, -, f, hf, -, -, -, hlo, -⟩ := h
    rw [show str "r1" = branchRouter.id from rfl, nested_forward] at hf
    rw [List.mem_singleton.mp hf] at hlo
    revert hlo
    decide

theorem nested_longest {r : Route} (h : Longest (nestedCompiled.routesFor routeSort laptop.id) nestedHost r) :
    r = ⟨⟨.v4 (Arr.ofNat 4 0x0a010000), 17⟩, str "r1"⟩ := by
  rw [nested_routes] at h
  rcases List.mem_cons.mp h.mem with rfl | hr
  · exact absurd (h.longest _ (List.mem_cons_of_mem _ List.mem_cons_self) (by decide +kernel)) (by decide)
  · exact List.mem_singleton.mp hr

/-- Port 443, which the rule of the longer prefix grants, gets through. -/
theorem nested_route_reached :
    Longest (nestedCompiled.routesFor routeSort laptop.id) nestedHost ⟨⟨.v4 (Arr.ofNat 4 0x0a010000), 17⟩, str "r1"⟩ ∧
      ∃ proto, (proto = .any ∨ proto = .tcp) ∧ nestedCompiled.Forwards rangeSort (str "r1") laptop.ipv4 nestedHost proto 443 := by
  have hids : (nestedPeers.map (·.id)).Nodup := by decide +kernel
  have hforwards : nestedCompiled.Forwards rangeSort branchRouter.id laptop.ipv4 nestedHost .any 443 := by
    unfold Compiled.Forwards
    rw [nested_forward]
    exact ⟨_, List.mem_singleton_self _, rfl, by decide +kernel, rfl, by decide, by decide⟩
  obtain ⟨⟨r, hr⟩, hreach, -⟩ := (granted_route_reachable_iff rangeSort routeSort hids rfl (nested_granted 443 (.inr rfl))).mpr
    fun q j b hj hcarrier => by
      have hid := congrArg Route.via (nested_longest ((longest_iff routeSort hids rfl).mpr hcarrier))
      have hb : b ∈ nestedPeers := List.mem_of_getElem? hj
      have hbranch : b = branchRouter := List.inj_on_of_nodup_map hids hb (by decide) hid
      rw [hbranch] at hj ⊢
      exact ⟨.any, .inl rfl, (forwardFor_iff rangeSort hids hj).mp hforwards⟩
  rw [nested_longest hr] at hr
  exact ⟨hr, hreach _ hr⟩

end Thawr.Control.Policy
