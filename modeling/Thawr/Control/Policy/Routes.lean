/-
  Thawr.Control.Policy.Routes — what a compiled policy says about routers
  (`ForwardFor`, `RoutesFor` and `ExitNodesFor` of `internal/control/policy/compile.go`).

  A route rule applies to a source its selectors name and a router that carries its prefix.
  `forwardFor` lists what a router may forward, the ports merged per source, prefix and
  protocol; `routesFor` assigns each prefix to the router with the lowest id; `exitNodesFor`
  lists the exit nodes.

  Proved: the loop of `RoutesFor` leaves the least id for each prefix (`assigned`), and each
  answer is decided by which candidates there are, whatever order they come in
  (`routes_unique`, `exitNodes_unique`, `forwardRules_perm`).
-/

import Thawr.Control.Policy.Compile
import Thawr.Control.Policy.Ranges
import Thawr.Go.AddrText

namespace Thawr.Control.Policy

open Go Netip

structure ForwardRule where
  src : Addr
  dst : Prefix
  proto : Proto
  lo : UInt16
  hi : UInt16
  deriving DecidableEq

structure Route where
  route : Prefix
  via : Str
  deriving DecidableEq

def exitPrefix6 : Prefix := ⟨.v6 (Arr.zero 16) [], 1⟩

structure ForwardKey where
  src : Addr
  dst : Prefix
  proto : Proto
  deriving DecidableEq

/-- The internet is both families; a subnet route is IPv4 only. -/
def forwardKeys (src : Peer) (route : Prefix) (internet : Bool) (proto : Proto) : List ForwardKey :=
  ⟨src.ipv4, route, proto⟩ :: if internet && src.ipv6.isValid then [⟨src.ipv6, exitPrefix6, proto⟩] else []

/-- A loop that appends what its map of seen elements does not have yet. -/
def collect {α : Type} [DecidableEq α] (l : List α) : List α := l.foldl (fun out a => if a ∈ out then out else out ++ [a]) []

def keyOrder (l : List (ForwardKey × List PortRange)) : List ForwardKey := collect (l.map (·.1))

def portsAt (l : List (ForwardKey × List PortRange)) (k : ForwardKey) : List PortRange :=
  (l.filter fun e => e.1 == k).flatMap (·.2)

def forwardRules (S : RangeSort) (l : List (ForwardKey × List PortRange)) : List ForwardRule :=
  (keyOrder l).flatMap fun k => (mergeRanges S (portsAt l k)).map fun r => ⟨k.src, k.dst, k.proto, r.lo, r.hi⟩

def ForwardRule.less (a b : ForwardRule) : Bool :=
  if a.src ≠ b.src then a.src.less b.src else decide (a.dst.string < b.dst.string)

abbrev RouteSort := SliceSort fun a b : Route => decide (a.route.string < b.route.string)

def routeSort : RouteSort := SliceSort.byText fun r : Route => r.route.string

/-- One turn of the loop of `RoutesFor`; the map `via` is a list without repeated prefixes. -/
def assign (via : List Route) (x : Route) : List Route :=
  if via.any (fun y => y.route == x.route) then via.map fun y => if y.route = x.route ∧ x.via < y.via then x else y
  else via ++ [x]

namespace Compiled

/-- What the source at index `i` adds to `byKey` for the router at `j`. -/
def forwardFrom (c : Compiled) (j : Nat) (x : Peer × Nat) : List (ForwardKey × List PortRange) :=
  if x.2 = j ∨ x.1.ipv4.isValid = false then []
  else (c.routeRules.filter fun rr => rr.src.has x.2 && c.serves rr j).flatMap fun rr =>
    (forwardKeys x.1 rr.route rr.internet rr.proto).map fun k => (k, rr.ports)

def forwardFor (S : RangeSort) (c : Compiled) (router : Str) : List ForwardRule :=
  match c.index.lookup router with
  | none => []
  | some j => (forwardRules S (c.peers.zipIdx.flatMap (c.forwardFrom j))).insertionSort fun a b => ForwardRule.less b a = false

/-- The routers other than the peer at `i` that carry a route rule's prefix. -/
def routersOf (c : Compiled) (i : Nat) (rr : RRule) : List Str :=
  (c.peers.zipIdx.filter fun x => x.2 != i && c.serves rr x.2).map fun x => x.1.id

/-- The prefixes and routers `RoutesFor` goes through. -/
def viaCandidates (c : Compiled) (i : Nat) : List Route :=
  (c.routeRules.filter fun rr => !rr.internet && rr.src.has i).flatMap fun rr => (c.routersOf i rr).map fun id => ⟨rr.route, id⟩

def routesFor (T : RouteSort) (c : Compiled) (src : Str) : List Route :=
  match c.index.lookup src with
  | none => []
  | some i => T.run ((c.viaCandidates i).foldl assign [])

def exitNodesFor (c : Compiled) (src : Str) : List Str :=
  match c.index.lookup src with
  | none => []
  | some i =>
    (collect ((c.routeRules.filter fun rr => rr.internet && rr.src.has i).flatMap (c.routersOf i))).insertionSort (· ≤ ·)

end Compiled

/-! ## The loops that collect -/

theorem collect_spec {α : Type} [DecidableEq α] (l : List α) : (collect l).Nodup ∧ ∀ a, a ∈ collect l ↔ a ∈ l := by
  refine loop_inv (I := fun (l out : List α) => out.Nodup ∧ ∀ a, a ∈ out ↔ a ∈ l) ?_ ?_
  · exact ⟨List.nodup_nil, by simp⟩
  · intro l a out _ h
    obtain ⟨hnd, hmem⟩ := h
    by_cases ha : a ∈ out
    · rw [if_pos ha]
      refine ⟨hnd, fun b => ?_⟩
      rw [hmem b, List.mem_append, List.mem_singleton, or_iff_left_of_imp]
      intro hb
      rw [hb]
      exact (hmem a).mp ha
    · rw [if_neg ha]
      refine ⟨?_, fun b => ?_⟩
      · rw [List.nodup_append]
        refine ⟨hnd, List.nodup_singleton _, fun x hx y hy => ?_⟩
        rw [List.mem_singleton.mp hy]
        intro he
        exact ha (he ▸ hx)
      · rw [List.mem_append, hmem b, List.mem_append]

variable {l : List (ForwardKey × List PortRange)} {x : Route}

theorem mem_keyOrder {k : ForwardKey} : k ∈ keyOrder l ↔ ∃ e ∈ l, e.1 = k := by
  unfold keyOrder
  rw [(collect_spec _).2, List.mem_map]

theorem covers_portsAt {k : ForwardKey} {x : UInt16} :
    Covers (portsAt l k) x ↔ ∃ e ∈ l, e.1 = k ∧ Covers e.2 x := by
  unfold portsAt
  rw [covers_flatMap]
  simp only [List.mem_filter, beq_iff_eq, and_assoc]

/-- A key and port stand in a forward rule exactly when an entry lists them. -/
theorem forwardRules_iff (S : RangeSort) (l : List (ForwardKey × List PortRange)) (k : ForwardKey) (x : UInt16) :
    (∃ f ∈ forwardRules S l, f.src = k.src ∧ f.dst = k.dst ∧ f.proto = k.proto ∧ f.lo ≤ x ∧ x ≤ f.hi) ↔
      ∃ e ∈ l, e.1 = k ∧ Covers e.2 x := by
  rw [← covers_portsAt, ← mergeRanges_covers S]
  unfold forwardRules
  constructor
  · intro h
    obtain ⟨f, hf, hsrc, hdst, hproto, hx⟩ := h
    obtain ⟨k', -, hf⟩ := List.mem_flatMap.mp hf
    obtain ⟨r, hr, rfl⟩ := List.mem_map.mp hf
    have hk : k' = k := by
      cases k'
      cases k
      rw [ForwardKey.mk.injEq]
      exact ⟨hsrc, hdst, hproto⟩
    exact ⟨r, hk ▸ hr, hx⟩
  · intro h
    obtain ⟨r, hr, hx⟩ := h
    refine ⟨⟨k.src, k.dst, k.proto, r.lo, r.hi⟩, List.mem_flatMap.mpr ⟨k, ?_, List.mem_map.mpr ⟨r, hr, rfl⟩⟩, rfl, rfl, rfl, hx⟩
    obtain ⟨e, he, hk, -⟩ := covers_portsAt.mp ((mergeRanges_covers S _ x).mp ⟨r, hr, hx⟩)
    exact mem_keyOrder.mpr ⟨e, he, hk⟩

/-- What the loop of `RoutesFor` has after the candidates `l`: one entry for each prefix of
    `l`, with the least id met for it. -/
structure Assigned (l via : List Route) : Prop where
  distinct : (via.map (·.route)).Nodup
  complete : ∀ z ∈ l, ∃ y ∈ via, y.route = z.route
  least : ∀ y, y ∈ via ↔ y ∈ l ∧ ∀ z ∈ l, z.route = y.route → y.via ≤ z.via

theorem route_ext {y : Route} (h : x.route = y.route) (hv : x.via = y.via) : x = y := by
  cases x
  cases y
  exact Route.mk.injEq .. ▸ ⟨h, hv⟩

/-- The first candidate of a prefix is entered. -/
theorem Assigned.append {l via : List Route} (h : Assigned l via) (hx : ∀ y ∈ via, y.route ≠ x.route) :
    Assigned (l ++ [x]) (via ++ [x]) := by
  have hl : ∀ z ∈ l, z.route ≠ x.route := by
    intro z hz he
    obtain ⟨y, hy, hyz⟩ := h.complete z hz
    exact hx y hy (hyz.trans he)
  refine ⟨?_, fun z hz => ?_, fun y => ?_⟩
  · rw [List.map_append, List.map_singleton, List.nodup_append]
    refine ⟨h.distinct, List.nodup_singleton _, fun a ha b hb => ?_⟩
    grind
  · rcases List.mem_append.mp hz with hz | hz
    · obtain ⟨y, hy, hyz⟩ := h.complete z hz
      exact ⟨y, List.mem_append_left _ hy, hyz⟩
    · grind
  · simp only [List.mem_append, List.mem_singleton, h.least y]
    constructor
    · intro hy
      rcases hy with ⟨hy, hmin⟩ | rfl
      · refine ⟨.inl hy, fun z hz he => ?_⟩
        rcases hz with hz | rfl
        · exact hmin z hz he
        · exact absurd he.symm (hl y hy)
      · refine ⟨.inr rfl, fun z hz he => ?_⟩
        rcases hz with hz | rfl
        · exact absurd he (hl z hz)
        · exact List.le_refl _
    · intro hy
      obtain ⟨hy | rfl, hmin⟩ := hy
      · exact .inl ⟨hy, fun z hz he => hmin z (.inl hz) he⟩
      · exact .inr rfl

/-- A later candidate of a prefix takes the entry over when its id is less. -/
theorem Assigned.replace {l via : List Route} (h : Assigned l via) {old : Route} (hold : old ∈ via)
    (he : old.route = x.route) :
    Assigned (l ++ [x]) (via.map fun y => if y.route = x.route ∧ x.via < y.via then x else y) := by
  have hroute : ∀ y, (if y.route = x.route ∧ x.via < y.via then x else y).route = y.route := by
    intro y
    split
    · rename_i hy
      exact hy.1.symm
    · rfl
  refine ⟨?_, fun z hz => ?_, fun y => ?_⟩
  · rw [List.map_map, show ((·.route) ∘ fun y : Route => if y.route = x.route ∧ x.via < y.via then x else y) = (·.route) from
      funext hroute]
    exact h.distinct
  · have hy : ∃ y ∈ via, y.route = z.route := by
      rcases List.mem_append.mp hz with hz | hz
      · exact h.complete z hz
      · exact ⟨old, hold, by rw [List.mem_singleton.mp hz, he]⟩
    obtain ⟨y, hy, hyz⟩ := hy
    exact ⟨_, List.mem_map_of_mem hy, (hroute y).trans hyz⟩
  · rw [List.mem_map]
    constructor
    · intro hy
      obtain ⟨w, hw, rfl⟩ := hy
      obtain ⟨hwl, hmin⟩ := (h.least w).mp hw
      split
      · rename_i hlt
        refine ⟨List.mem_append_right _ (List.mem_singleton_self x), fun z hz hzx => ?_⟩
        rcases List.mem_append.mp hz with hz | hz
        · exact List.le_trans (List.le_of_lt hlt.2) (hmin z hz (hzx.trans hlt.1.symm))
        · rw [List.mem_singleton.mp hz]
          exact List.le_refl _
      · rename_i hge
        refine ⟨List.mem_append_left _ hwl, fun z hz hzw => ?_⟩
        rcases List.mem_append.mp hz with hz | hz
        · exact hmin z hz hzw
        · rw [List.mem_singleton.mp hz] at hzw ⊢
          exact List.not_lt.mp fun hlt => hge ⟨hzw.symm, hlt⟩
    · intro hy
      obtain ⟨hyl, hmin⟩ := hy
      rcases List.mem_append.mp hyl with hyl | hyx
      · refine ⟨y, (h.least y).mpr ⟨hyl, fun z hz => hmin z (List.mem_append_left _ hz)⟩, if_neg fun hlt => ?_⟩
        grind
      · rw [List.mem_singleton.mp hyx] at hmin ⊢
        refine ⟨old, hold, ?_⟩
        by_cases hlt : x.via < old.via
        · rw [if_pos ⟨he, hlt⟩]
        · rw [if_neg fun hh => hlt hh.2]
          have hle := hmin old (List.mem_append_left _ ((h.least old).mp hold).1) he
          exact route_ext he (List.le_antisymm (List.not_lt.mp hlt) hle)

theorem assigned (l : List Route) : Assigned l (l.foldl assign []) := by
  refine loop_inv (I := Assigned) ⟨List.nodup_nil, by simp, by simp⟩ fun l x via _ h => ?_
  unfold assign
  split
  · rename_i hany
    obtain ⟨old, hold, he⟩ := List.any_eq_true.mp hany
    exact h.replace hold (beq_iff_eq.mp he)
  · rename_i hany
    refine h.append fun y hy he => hany (List.any_eq_true.mpr ⟨y, hy, beq_iff_eq.mpr he⟩)

/-! ## What decides an answer

Each answer is sorted or keyed, so it depends only on which candidates there are. -/

/-- `RoutesFor` sorts distinct prefixes by their texts, which for IPv4 are distinct too. -/
theorem routes_unique (T U : RouteSort) {l m : List Route} (hv4 : ∀ x ∈ l, x.route.IsV4) (h : ∀ x, x ∈ l ↔ x ∈ m) :
    T.run (l.foldl assign []) = U.run (m.foldl assign []) := by
  have hl := assigned l
  have hm := assigned m
  have hmem : ∀ x, x ∈ l.foldl assign [] ↔ x ∈ m.foldl assign [] := by
    intro x
    rw [hl.least, hm.least, h x]
    simp only [h]
  have hperm : (T.run (l.foldl assign [])).Perm (U.run (m.foldl assign [])) :=
    (T.perm _).trans (((List.perm_ext_iff_of_nodup hl.distinct.of_map hm.distinct.of_map).mpr hmem).trans (U.perm _).symm)
  refine hperm.eq_of_pairwise (fun x y hx hy hxy hyx => ?_) (T.sorted _) (U.sorted _)
  have hx' : x ∈ l.foldl assign [] := T.mem_iff.mp hx
  have hy' : y ∈ l.foldl assign [] := (hmem y).mpr (U.mem_iff.mp hy)
  have hroute : x.route = y.route := by
    refine (hv4 x ((hl.least x).mp hx').1).string_inj (hv4 y ((hl.least y).mp hy').1).wellFormed ?_
    grind
  exact List.inj_on_of_nodup_map hl.distinct hx' hy' hroute

theorem exitNodes_unique {l m : List Str} (h : ∀ x, x ∈ l ↔ x ∈ m) :
    (collect l).insertionSort (· ≤ ·) = (collect m).insertionSort (· ≤ ·) := by
  have : Std.Total fun a b : Str => a ≤ b := ⟨fun a b => List.le_total _ _⟩
  have : IsTrans Str fun a b : Str => a ≤ b := ⟨fun a b c => List.le_trans⟩
  have hperm : (collect l).Perm (collect m) := by
    refine (List.perm_ext_iff_of_nodup (collect_spec l).1 (collect_spec m).1).mpr fun x => ?_
    rw [(collect_spec l).2, (collect_spec m).2, h x]
  refine List.Perm.eq_of_pairwise (fun x y _ _ => List.le_antisymm) (List.pairwise_insertionSort _ _)
    (List.pairwise_insertionSort _ _) ?_
  exact (List.perm_insertionSort _ _).trans (hperm.trans (List.perm_insertionSort _ _).symm)

theorem portsAt_proper (hl : ∀ e ∈ l, Proper e.2) (k : ForwardKey) :
    Proper (portsAt l k) := by
  intro r hr
  obtain ⟨e, he, hr⟩ := List.mem_flatMap.mp hr
  exact hl e (List.mem_of_mem_filter he) r hr

/-- Entries that open the same ports for the same keys give the same rules, in some order. -/
theorem forwardRules_perm (S T : RangeSort) {m : List (ForwardKey × List PortRange)} (hl : ∀ e ∈ l, Proper e.2)
    (hm : ∀ e ∈ m, Proper e.2) (h : ∀ k x, (∃ e ∈ l, e.1 = k ∧ Covers e.2 x) ↔ ∃ e ∈ m, e.1 = k ∧ Covers e.2 x)
    (hk : ∀ k, k ∈ keyOrder l ↔ k ∈ keyOrder m) : (forwardRules S l).Perm (forwardRules T m) := by
  have hports : ∀ k, mergeRanges S (portsAt l k) = mergeRanges T (portsAt m k) := by
    intro k
    refine mergeRanges_canonical S T (portsAt_proper hl k) (portsAt_proper hm k) fun x => ?_
    rw [covers_portsAt, covers_portsAt, h k x]
  unfold forwardRules
  simp only [hports]
  exact ((List.perm_ext_iff_of_nodup (collect_spec _).1 (collect_spec _).1).mpr hk).flatMap_right _

theorem forwardRules_sort (S T : RangeSort) (hl : ∀ e ∈ l, Proper e.2) :
    forwardRules S l = forwardRules T l := by
  unfold forwardRules
  congr 1
  funext k
  rw [mergeRanges_canonical S T (portsAt_proper hl k) (portsAt_proper hl k) fun x => Iff.rfl]

end Thawr.Control.Policy
