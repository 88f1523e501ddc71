/-
  Thawr.Control.Policy.Compile — a policy evaluated against a peer list
  (`internal/control/policy/compile.go`, `internal/control/policyvis.go`).

  Selectors become bit sets over the peer list; each pair of a rule and a dst entry that
  selects peers becomes one compiled rule, each that names a subnet route or the internet a
  route rule. `filterFor` lists per source what may reach a peer, the port ranges merged per
  protocol. The forwarding rules and routes of a router are in `Routes`.

  Proved: a compiled rule matches two peers exactly when its selectors do
  (`compile_matches`), and `filterFor` lists a source and port exactly when a compiled rule
  opens it (`filterFor_iff`).
-/

import Thawr.Control.Policy.Policy
import Thawr.Control.NetMap
import Thawr.Go.Bitset

namespace Thawr.Control.Policy

open Go Netip

structure Peer where
  id : Str
  name : Str := []
  /-- The owner's user name; empty for a peer without one. -/
  owner : Str := []
  tags : List Str := []
  ipv4 : Addr := .zero
  ipv6 : Addr := .zero
  /-- The approved prefixes it advertises. -/
  routes : List Prefix := []
  deriving DecidableEq

structure PortRule where
  proto : Proto
  lo : UInt16
  hi : UInt16
  deriving DecidableEq

structure FilterRule where
  src : Addr
  proto : Proto
  lo : UInt16
  hi : UInt16

def exitPrefix : Prefix := ⟨.v4 (Arr.zero 4), 1⟩

structure CRule where
  src : Bitset
  dst : Bitset := ⟨[]⟩
  self : Bool := false
  proto : Proto
  ports : List PortRange

structure RRule where
  src : Bitset
  route : Prefix
  internet : Bool := false
  proto : Proto
  ports : List PortRange

structure Compiled where
  peers : List Peer
  index : GoMap Str Nat
  rules : List CRule
  routeRules : List RRule
  /-- The users that may use a tag. -/
  tagOwners : Str → List Str

/-! ## Compiling -/

/-- The `switch` of `resolve`: whether a selector names a peer. -/
def hits (doc : Doc) (sel : Selector) (pe : Peer) : Bool :=
  match sel with
  | .any => true
  | .user name => pe.owner != [] && pe.owner == name
  | .group name => pe.owner != [] && ((doc.groups.lookup name).getD []).contains pe.owner
  | .tag name => pe.tags.contains (str "tag:" ++ name)
  | .peer name => pe.name == name
  | .cidr p => (pe.ipv4.isValid && p.contains pe.ipv4) || (pe.ipv6.isValid && p.contains pe.ipv6)
  | .self => false
  | .internet => false

def resolve (doc : Doc) (peers : List Peer) (sel : Selector) : Bitset :=
  peers.zipIdx.foldl (fun b x => if hits doc sel x.1 then b.set x.2 else b) (.new peers.length)

def union (doc : Doc) (peers : List Peer) (sels : List Selector) : Bitset :=
  sels.foldl (fun b s => b.or (resolve doc peers s)) (.new peers.length)

/-- `IsRoute`: an IPv4 prefix outside the overlay. -/
def isRoute (p overlay : Prefix) : Bool := overlay.isValid && p.isValid && p.ip.is4 && !p.overlaps overlay

/-- The compiled rule of a dst entry, unless the entry is a route or the internet. -/
def compileDst (doc : Doc) (peers : List Peer) (overlay : Prefix) (r : ParsedRule) (d : Dst) : Option CRule :=
  let src := union doc peers r.src
  match d.host with
  | .internet => none
  | .self => some { src := src, self := true, proto := r.proto, ports := d.ports }
  | .cidr p =>
    if isRoute p overlay then none
    else some { src := src, dst := resolve doc peers (.cidr p), proto := r.proto, ports := d.ports }
  | sel => some { src := src, dst := resolve doc peers sel, proto := r.proto, ports := d.ports }

def compileRoute (doc : Doc) (peers : List Peer) (overlay : Prefix) (r : ParsedRule) (d : Dst) : Option RRule :=
  let src := union doc peers r.src
  match d.host with
  | .internet =>
    if overlay.isValid then some { src := src, route := exitPrefix, internet := true, proto := r.proto, ports := d.ports }
    else none
  | .cidr p => if isRoute p overlay then some { src := src, route := p, proto := r.proto, ports := d.ports } else none
  | _ => none

def ownerUsers (doc : Doc) (owner : Str) : List Str :=
  match parseSelector owner false with
  | .ok (.user name) => [name]
  | .ok (.group name) => (doc.groups.lookup name).getD []
  | _ => []

def compileWith (p : Policy) (peers : List Peer) (overlay : Prefix) : Compiled where
  peers := peers
  index := peers.zipIdx.foldl (fun m x => m.insert x.1.id x.2) ∅
  rules := p.rules.flatMap fun r => r.dst.filterMap (compileDst p.doc peers overlay r)
  routeRules := p.rules.flatMap fun r => r.dst.filterMap (compileRoute p.doc peers overlay r)
  tagOwners tag := ((p.doc.tagOwners.lookup tag).getD []).flatMap (ownerUsers p.doc)

/-! ## Asking -/

namespace Compiled

def ownerAt (c : Compiled) (i : Nat) : Str := (c.peers[i]?.map (·.owner)).getD []

/-- `matches`: whether a rule lets peer `src` reach peer `dst`. -/
def matchesRule (c : Compiled) (r : CRule) (src dst : Nat) : Bool :=
  if !r.src.has src then false
  else if r.self then c.ownerAt src != [] && c.ownerAt src == c.ownerAt dst && src != dst
  else r.dst.has dst

def portsFor (c : Compiled) (i j : Nat) (proto : Proto) : List PortRange :=
  (c.rules.filter fun r => c.matchesRule r i j && r.proto == proto).flatMap (·.ports)

def allowedIdx (S : RangeSort) (c : Compiled) (i j : Nat) : List PortRule :=
  [Proto.any, .tcp, .udp, .icmp].flatMap fun proto => (mergeRanges S (c.portsFor i j proto)).map fun r => ⟨proto, r.lo, r.hi⟩

def allowed (S : RangeSort) (c : Compiled) (src dst : Str) : List PortRule :=
  match c.index.lookup src, c.index.lookup dst with
  | some i, some j => if i = j then [] else c.allowedIdx S i j
  | _, _ => []

/-- `serves`: whether peer `j` carries the prefix of a route rule. -/
def serves (c : Compiled) (r : RRule) (j : Nat) : Bool :=
  ((c.peers[j]?.map (·.routes)).getD []).any fun adv =>
    if r.internet then adv == exitPrefix
    else adv != exitPrefix && decide (adv.bits ≤ r.route.bits) && adv.contains r.route.ip

def forwardAny (c : Compiled) (i j : Nat) : Bool := i != j && c.routeRules.any fun r => r.src.has i && c.serves r j

def anyIdx (c : Compiled) (i j : Nat) : Bool := (c.rules.any fun r => c.matchesRule r i j) || c.forwardAny i j

def visible (c : Compiled) (a b : Str) : Bool :=
  match c.index.lookup a, c.index.lookup b with
  | some i, some j => i != j && (c.anyIdx i j || c.anyIdx j i)
  | _, _ => false

/-- What the source at index `i` may reach on the peer at `j`, by its addresses. -/
def filterFrom (S : RangeSort) (c : Compiled) (j : Nat) (x : Peer × Nat) : List FilterRule :=
  if x.2 = j ∨ x.1.ipv4.isValid = false then []
  else (c.allowedIdx S x.2 j).flatMap fun pr =>
    ⟨x.1.ipv4, pr.proto, pr.lo, pr.hi⟩ :: if x.1.ipv6.isValid then [⟨x.1.ipv6, pr.proto, pr.lo, pr.hi⟩] else []

def filterFor (S : RangeSort) (c : Compiled) (dst : Str) : List FilterRule :=
  match c.index.lookup dst with
  | none => []
  | some j => (c.peers.zipIdx.flatMap (c.filterFrom S j)).insertionSort fun a b => b.src.less a.src = false

def mayUseTag (c : Compiled) (user tag : Str) : Bool := (c.tagOwners tag).contains user

end Compiled

def filterRules (rules : List FilterRule) : List Control.FilterRule := rules.map fun r => ⟨r.src, r.proto.text, r.lo, r.hi⟩

/-! ## What a compiled rule matches -/

section

variable {doc : Doc} {peers : List Peer}

theorem resolve_spec (sel : Selector) :
    (resolve doc peers sel).words.length = (peers.length + 63) / 64 ∧
      ∀ i, (resolve doc peers sel).has i = true ↔ ∃ pe, peers[i]? = some pe ∧ hits doc sel pe = true := by
  suffices hloop : (resolve doc peers sel).words.length = (peers.length + 63) / 64 ∧
      ∀ i, (resolve doc peers sel).has i = true ↔ ∃ x ∈ peers.zipIdx, x.2 = i ∧ hits doc sel x.1 = true by
    refine ⟨hloop.1, fun i => (hloop.2 i).trans ⟨?_, ?_⟩⟩
    · rintro ⟨x, hx, rfl, hh⟩
      exact ⟨x.1, List.mem_zipIdx_iff_getElem?.mp hx, hh⟩
    · rintro ⟨pe, hpe, hh⟩
      exact ⟨(pe, i), List.mem_zipIdx_iff_getElem?.mpr hpe, rfl, hh⟩
  unfold resolve
  refine loop_inv (I := fun (l : List (Peer × Nat)) (b : Bitset) => b.words.length = (peers.length + 63) / 64 ∧
    ∀ i, b.has i = true ↔ ∃ x ∈ l, x.2 = i ∧ hits doc sel x.1 = true) ?_ ?_
  · refine ⟨Bitset.length_new _, fun i => ?_⟩
    simp [Bitset.has_new]
  · rintro l x b hx ⟨hlen, hb⟩
    by_cases hh : hits doc sel x.1 = true
    · have hlt : x.2 < peers.length := (List.getElem?_eq_some_iff.mp (List.mem_zipIdx_iff_getElem?.mp hx)).1
      have hroom : x.2 / 64 < b.words.length := by omega
      rw [if_pos hh]
      refine ⟨by rw [Bitset.length_set, hlen], fun i => ?_⟩
      rw [Bitset.has_set hroom, Bool.or_eq_true, hb i, decide_eq_true_eq]
      constructor
      · rintro (⟨y, hy, h⟩ | rfl)
        · exact ⟨y, List.mem_append_left _ hy, h⟩
        · exact ⟨x, List.mem_append_right _ (List.mem_singleton_self x), rfl, hh⟩
      · grind
    · rw [if_neg hh]
      refine ⟨hlen, fun i => (hb i).trans ⟨?_, ?_⟩⟩
      · rintro ⟨y, hy, h⟩
        exact ⟨y, List.mem_append_left _ hy, h⟩
      · grind

theorem resolve_has {sel : Selector} {i : Nat} {pe : Peer} (hi : peers[i]? = some pe) :
    (resolve doc peers sel).has i = true ↔ hits doc sel pe = true := by
  rw [(resolve_spec sel).2 i]
  grind

theorem union_has {sels : List Selector} {i : Nat} {pe : Peer} (hi : peers[i]? = some pe) :
    (union doc peers sels).has i = true ↔ ∃ sel ∈ sels, hits doc sel pe = true := by
  suffices hloop : (union doc peers sels).words.length = (peers.length + 63) / 64 ∧
      ((union doc peers sels).has i = true ↔ ∃ sel ∈ sels, hits doc sel pe = true) from hloop.2
  unfold union
  refine loop_inv (I := fun l (b : Bitset) => b.words.length = (peers.length + 63) / 64 ∧
    (b.has i = true ↔ ∃ sel ∈ l, hits doc sel pe = true)) ?_ ?_
  · refine ⟨Bitset.length_new _, ?_⟩
    simp [Bitset.has_new]
  · rintro l sel b - ⟨hlen, hb⟩
    have hsame : b.words.length = (resolve doc peers sel).words.length := hlen.trans (resolve_spec sel).1.symm
    refine ⟨(Bitset.length_or hsame).trans hlen, ?_⟩
    rw [Bitset.has_or hsame, Bool.or_eq_true, hb, resolve_has hi]
    simp only [List.mem_append, List.mem_singleton, or_and_right, exists_or, exists_eq_left]

/-- A dst entry that selects peers opens `b` to `a`; a route or the internet opens nothing. -/
def Opens (selects : Selector → Peer → Prop) (overlay : Prefix) (host : Selector) (a b : Peer) : Prop :=
  match host with
  | .internet => False
  | .self => a.owner ≠ [] ∧ a.owner = b.owner
  | .cidr p => isRoute p overlay = false ∧ selects (.cidr p) b
  | sel => selects sel b

variable {overlay : Prefix} {p : Policy} {i j : Nat} {a b : Peer}

theorem matchesRule_iff (hi : peers[i]? = some a) (hj : peers[j]? = some b) (hij : i ≠ j) {r : ParsedRule} {cr : CRule}
    (hsrc : cr.src = union doc peers r.src) :
    (compileWith p peers overlay).matchesRule cr i j = true ↔
      (∃ sel ∈ r.src, hits doc sel a = true) ∧
        if cr.self then a.owner ≠ [] ∧ a.owner = b.owner else cr.dst.has j = true := by
  have ha : (compileWith p peers overlay).ownerAt i = a.owner := by
    unfold Compiled.ownerAt
    rw [show (compileWith p peers overlay).peers = peers from rfl, hi]
    rfl
  have hb : (compileWith p peers overlay).ownerAt j = b.owner := by
    unfold Compiled.ownerAt
    rw [show (compileWith p peers overlay).peers = peers from rfl, hj]
    rfl
  unfold Compiled.matchesRule
  rw [ha, hb, hsrc, ← union_has hi]
  cases (union doc peers r.src).has i <;> cases cr.self <;> simp [hij]

theorem matchesRule_selects (hi : peers[i]? = some a) (hj : peers[j]? = some b) (hij : i ≠ j) (r : ParsedRule)
    (sel : Selector) (ports : List PortRange) :
    (compileWith p peers overlay).matchesRule ⟨union doc peers r.src, resolve doc peers sel, false, r.proto, ports⟩ i j = true ↔
      (∃ sel ∈ r.src, hits doc sel a = true) ∧ hits doc sel b = true := by
  rw [matchesRule_iff hi hj hij (r := r) rfl, ← resolve_has hj]
  simp

theorem compileDst_fields {r : ParsedRule} {d : Dst} {cr : CRule} (h : compileDst doc peers overlay r d = some cr) :
    cr.proto = r.proto ∧ cr.ports = d.ports := by
  unfold compileDst at h
  grind

/-- The compiled rule of an entry matches exactly when the rule selects the source and the
    entry opens the destination; an entry that compiles to none opens nothing. -/
theorem compileDst_iff (hi : peers[i]? = some a) (hj : peers[j]? = some b) (hij : i ≠ j) (r : ParsedRule) (d : Dst) :
    (∃ cr, compileDst doc peers overlay r d = some cr ∧ (compileWith p peers overlay).matchesRule cr i j = true) ↔
      (∃ sel ∈ r.src, hits doc sel a = true) ∧ Opens (hits doc · ·) overlay d.host a b := by
  unfold compileDst Opens
  cases hd : d.host with
  | internet => simp
  | self =>
    simp only [Option.some.injEq, exists_eq_left']
    rw [matchesRule_iff hi hj hij (r := r) rfl]
    simp
  | cidr q =>
    by_cases hr : isRoute q overlay = true
    · simp [hr]
    · simp only [if_neg hr, Option.some.injEq, exists_eq_left', matchesRule_selects hi hj hij]
      simp [hr]
  | any => simp only [Option.some.injEq, exists_eq_left', matchesRule_selects hi hj hij]
  | user n => simp only [Option.some.injEq, exists_eq_left', matchesRule_selects hi hj hij]
  | group n => simp only [Option.some.injEq, exists_eq_left', matchesRule_selects hi hj hij]
  | tag n => simp only [Option.some.injEq, exists_eq_left', matchesRule_selects hi hj hij]
  | peer n => simp only [Option.some.injEq, exists_eq_left', matchesRule_selects hi hj hij]

/-- What the compiled rules open between two peers is what the parsed rules do. -/
theorem compile_matches (hi : peers[i]? = some a) (hj : peers[j]? = some b) (hij : i ≠ j) (proto : Proto) (x : UInt16) :
    (∃ cr ∈ (compileWith p peers overlay).rules, (compileWith p peers overlay).matchesRule cr i j = true ∧
        cr.proto = proto ∧ Covers cr.ports x) ↔
      ∃ r ∈ p.rules, (∃ sel ∈ r.src, hits p.doc sel a = true) ∧ r.proto = proto ∧
        ∃ d ∈ r.dst, Opens (hits p.doc · ·) overlay d.host a b ∧ Covers d.ports x := by
  constructor
  · rintro ⟨cr, hcr, hm, rfl, hx⟩
    obtain ⟨r, hr, hcr⟩ := List.mem_flatMap.mp hcr
    obtain ⟨d, hd, hc⟩ := List.mem_filterMap.mp hcr
    obtain ⟨hproto, hports⟩ := compileDst_fields hc
    obtain ⟨hsrc, hopen⟩ := (compileDst_iff hi hj hij r d).mp ⟨cr, hc, hm⟩
    exact ⟨r, hr, hsrc, hproto.symm, d, hd, hopen, hports ▸ hx⟩
  · rintro ⟨r, hr, hsrc, rfl, d, hd, hopen, hx⟩
    obtain ⟨cr, hc, hm⟩ := (compileDst_iff (p := p) hi hj hij r d).mpr ⟨hsrc, hopen⟩
    obtain ⟨hproto, hports⟩ := compileDst_fields hc
    exact ⟨cr, List.mem_flatMap.mpr ⟨r, hr, List.mem_filterMap.mpr ⟨d, hd, hc⟩⟩, hm, hproto, hports.symm ▸ hx⟩

/-! ## What the filter lists -/

theorem covers_flatMap {α : Type} {l : List α} {f : α → List PortRange} {x : UInt16} :
    Covers (l.flatMap f) x ↔ ∃ a ∈ l, Covers (f a) x := by
  unfold Covers
  grind

theorem covers_portsFor {c : Compiled} {i j : Nat} {proto : Proto} {x : UInt16} :
    Covers (c.portsFor i j proto) x ↔
      ∃ cr ∈ c.rules, c.matchesRule cr i j = true ∧ cr.proto = proto ∧ Covers cr.ports x := by
  unfold Compiled.portsFor
  rw [covers_flatMap]
  simp only [List.mem_filter, Bool.and_eq_true, beq_iff_eq, and_assoc]

/-- Merging per protocol keeps the ports each rule opens. -/
theorem allowedIdx_iff (S : RangeSort) (c : Compiled) (i j : Nat) (proto : Proto) (x : UInt16) :
    (∃ pr ∈ c.allowedIdx S i j, pr.proto = proto ∧ pr.lo ≤ x ∧ x ≤ pr.hi) ↔
      ∃ cr ∈ c.rules, c.matchesRule cr i j = true ∧ cr.proto = proto ∧ Covers cr.ports x := by
  rw [← covers_portsFor, ← mergeRanges_covers S]
  unfold Compiled.allowedIdx
  constructor
  · rintro ⟨pr, hpr, rfl, hx⟩
    obtain ⟨q, -, hq⟩ := List.mem_flatMap.mp hpr
    obtain ⟨r, hr, rfl⟩ := List.mem_map.mp hq
    exact ⟨r, hr, hx⟩
  · rintro ⟨r, hr, hx⟩
    refine ⟨⟨proto, r.lo, r.hi⟩, List.mem_flatMap.mpr ⟨proto, ?_, List.mem_map.mpr ⟨r, hr, rfl⟩⟩, rfl, hx⟩
    cases proto <;> simp

/-- A peer list as the registry gives it: ids and IPv4 addresses are each peer's own, and the
    IPv6 field holds no IPv4 address. -/
structure ValidPeers (peers : List Peer) : Prop where
  ids : (peers.map (·.id)).Nodup
  addrs : (peers.map (·.ipv4)).Nodup
  ipv4 : ∀ p ∈ peers, p.ipv4.is4 = true
  ipv6 : ∀ p ∈ peers, p.ipv6.is4 = false

/-- Two entries of a list with distinct values of `f` are one when the values agree. -/
theorem index_inj {α β : Type} {f : α → β} {l : List α} (h : (l.map f).Nodup) {x y : α × Nat} (hx : x ∈ l.zipIdx)
    (hy : y ∈ l.zipIdx) (he : f x.1 = f y.1) : x.2 = y.2 := by
  have hgx := List.mem_zipIdx_iff_getElem?.mp hx
  have hgy := List.mem_zipIdx_iff_getElem?.mp hy
  have hlt : x.2 < (l.map f).length := by
    rw [List.length_map]
    exact (List.getElem?_eq_some_iff.mp hgx).1
  refine (List.getElem?_inj hlt h).mp ?_
  rw [List.getElem?_map, List.getElem?_map, hgx, hgy, Option.map_some, Option.map_some, he]

theorem index_lookup {id : Str} (h : (compileWith p peers overlay).index.lookup id = some j) :
    ∃ b, peers[j]? = some b ∧ b.id = id := by
  suffices hloop : ∀ id j, (compileWith p peers overlay).index.lookup id = some j → ∃ b, (b, j) ∈ peers.zipIdx ∧
    b.id = id by grind
  refine loop_inv (I := fun (l : List (Peer × Nat)) (m : GoMap Str Nat) => ∀ id j, m.lookup id = some j → ∃ b,
    (b, j) ∈ l ∧ b.id = id)
    (fun id j h => ?_) fun l y m _ hm id j h => ?_
  · rw [Finmap.lookup_empty] at h
    cases h
  · rcases of_lookup_insert h with ⟨rfl, rfl⟩ | ⟨-, h⟩
    · exact ⟨y.1, List.mem_append_right _ (List.mem_singleton_self y), rfl⟩
    · obtain ⟨b, hb, hid⟩ := hm id j h
      exact ⟨b, List.mem_append_left _ hb, hid⟩

theorem lookup_index (hids : (peers.map (·.id)).Nodup) (hj : peers[j]? = some b) :
    (compileWith p peers overlay).index.lookup b.id = some j := by
  suffices h : ∀ x ∈ peers.zipIdx, (compileWith p peers overlay).index.lookup x.1.id = some x.2 from
    h (b, j) (List.mem_zipIdx_iff_getElem?.mpr hj)
  refine (loop_inv (I := fun (l : List (Peer × Nat)) (m : GoMap Str Nat) => (∀ x ∈ l, x ∈ peers.zipIdx) ∧
    ∀ x ∈ l, m.lookup x.1.id = some x.2) ⟨fun x hx => absurd hx List.not_mem_nil, fun x hx => absurd hx List.not_mem_nil⟩
    ?_).2
  rintro l y m hy ⟨hsub, hm⟩
  have hsub' : ∀ x ∈ l ++ [y], x ∈ peers.zipIdx := by grind
  refine ⟨hsub', fun x hx => ?_⟩
  by_cases he : x.1.id = y.1.id
  · rw [he, Finmap.lookup_insert, index_inj hids (hsub' x hx) hy he]
  · rw [Finmap.lookup_insert_of_ne _ he]
    grind

/-- The rules of a peer: each other peer's addresses with what it is allowed. -/
theorem mem_filterFor (S : RangeSort) (hids : (peers.map (·.id)).Nodup) (hj : peers[j]? = some b) {f : FilterRule} :
    f ∈ (compileWith p peers overlay).filterFor S b.id ↔
      ∃ i a, peers[i]? = some a ∧ i ≠ j ∧ a.ipv4.isValid = true ∧ ∃ pr ∈ (compileWith p peers overlay).allowedIdx S i j,
        f = ⟨a.ipv4, pr.proto, pr.lo, pr.hi⟩ ∨ (a.ipv6.isValid = true ∧ f = ⟨a.ipv6, pr.proto, pr.lo, pr.hi⟩) := by
  unfold Compiled.filterFor
  rw [lookup_index hids hj]
  simp only [List.mem_insertionSort, List.mem_flatMap, Compiled.filterFrom]
  constructor
  · intro h
    obtain ⟨⟨a, i⟩, ha, hf⟩ := h
    split at hf
    · cases hf
    · rename_i hguard
      rw [not_or, Bool.not_eq_false] at hguard
      obtain ⟨pr, hpr, hf⟩ := List.mem_flatMap.mp hf
      refine ⟨i, a, List.mem_zipIdx_iff_getElem?.mp ha, hguard.1, hguard.2, pr, hpr, ?_⟩
      grind
  · intro h
    obtain ⟨i, a, hi, hij, hv, pr, hpr, hf⟩ := h
    refine ⟨(a, i), List.mem_zipIdx_iff_getElem?.mpr hi, ?_⟩
    grind

/-- `filterFor` lists a source's address and a port exactly when the compiled rules open it,
    for an address that is no other peer's. -/
theorem filterFor_source (S : RangeSort) (hids : (peers.map (·.id)).Nodup) (hi : peers[i]? = some a) (hj : peers[j]? = some b)
    (hij : i ≠ j) (h4 : a.ipv4.isValid = true) {x : Addr} (hx : x = a.ipv4 ∨ (x = a.ipv6 ∧ a.ipv6.isValid = true))
    (hown : ∀ k a', peers[k]? = some a' → a'.ipv4 = x ∨ (a'.ipv6 = x ∧ a'.ipv6.isValid = true) → k = i) (proto : Proto)
    (port : UInt16) :
    (∃ f ∈ (compileWith p peers overlay).filterFor S b.id, f.src = x ∧ f.proto = proto ∧ f.lo ≤ port ∧ port ≤ f.hi) ↔
      ∃ pr ∈ (compileWith p peers overlay).allowedIdx S i j, pr.proto = proto ∧ pr.lo ≤ port ∧ port ≤ pr.hi := by
  constructor
  · intro h
    obtain ⟨f, hf, hsrc, hproto, hport⟩ := h
    obtain ⟨k, a', hk, -, -, pr, hpr, hf⟩ := (mem_filterFor S hids hj).mp hf
    grind
  · intro h
    obtain ⟨pr, hpr, hproto, hport⟩ := h
    refine ⟨⟨x, pr.proto, pr.lo, pr.hi⟩, (mem_filterFor S hids hj).mpr ⟨i, a, hi, hij, h4, pr, hpr, ?_⟩, rfl, hproto, hport⟩
    rcases hx with rfl | ⟨rfl, h6⟩
    · exact .inl rfl
    · exact .inr ⟨h6, rfl⟩

/-- `filterFor` lists a source and port for a destination exactly when the compiled rules
    open it. -/
theorem filterFor_iff (S : RangeSort) (hv : ValidPeers peers) (hi : peers[i]? = some a) (hj : peers[j]? = some b)
    (hij : i ≠ j) (proto : Proto) (x : UInt16) :
    (∃ f ∈ (compileWith p peers overlay).filterFor S b.id, f.src = a.ipv4 ∧ f.proto = proto ∧ f.lo ≤ x ∧ x ≤ f.hi) ↔
      ∃ pr ∈ (compileWith p peers overlay).allowedIdx S i j, pr.proto = proto ∧ pr.lo ≤ x ∧ x ≤ pr.hi := by
  have ha4 : a.ipv4.is4 = true := hv.ipv4 a (List.mem_of_getElem? hi)
  have hvalid : a.ipv4.isValid = true := by
    revert ha4
    cases a.ipv4 <;> simp [Addr.is4, Addr.isValid]
  refine filterFor_source S hv.ids hi hj hij hvalid (.inl rfl) (fun k a' hk ha' => ?_) proto x
  rcases ha' with ha' | ⟨ha', -⟩
  · exact index_inj hv.addrs (x := (a', k)) (y := (a, i)) (List.mem_zipIdx_iff_getElem?.mpr hk)
      (List.mem_zipIdx_iff_getElem?.mpr hi) ha'
  · -- the IPv6 field holds no IPv4 address
    have h6 := hv.ipv6 a' (List.mem_of_getElem? hk)
    rw [ha', ha4] at h6
    cases h6

end

end Thawr.Control.Policy
