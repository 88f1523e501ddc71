/-
  Thawr.Control.Policy.Compose — accept-only rules compose like a set
  (`docs/specs/006-acl-policy.md`, rule semantics).

  `Within p q`: whatever a rule of `p` says, a rule of `q` says. Everything a compiled policy
  answers grows along `Within` (`Within.reaches`, `Within.admits`, `Within.routed`). Adding a
  rule is one case, and reordering a document is `Within` both ways, which with the sorted
  and merged form of the answers makes them equal (`rules_compose_like_a_set`).
-/

import Thawr.Control.Policy.Pairs

namespace Thawr.Control.Policy

open Go Netip

/-! ## Documents that say the same or more -/

structure Rule.Reordered (r s : Rule) : Prop where
  action : r.action = s.action
  src : r.src.Perm s.src
  dst : r.dst.Perm s.dst
  proto : r.proto = s.proto

/-- The acls in another order, each reordered, and the members of each group too. -/
structure Doc.Reordered (d e : Doc) : Prop where
  acls : ∃ l, d.acls.Perm l ∧ List.Forall₂ Rule.Reordered l e.acls
  groups : ∀ name, Option.Rel List.Perm (d.groups.lookup name) (e.groups.lookup name)

structure Doc.AddsRule (d e : Doc) : Prop where
  acls : ∃ l m r, d.acls = l ++ m ∧ e.acls = l ++ r :: m
  groups : e.groups = d.groups

/-- Whatever a rule of `p` says, a rule of `q` says. -/
structure Within (p q : Policy) : Prop where
  hits : ∀ sel a, hits p.doc sel a = true → hits q.doc sel a = true
  rules : ∀ r ∈ p.rules, ∃ s ∈ q.rules, s.proto = r.proto ∧ (∀ sel ∈ r.src, sel ∈ s.src) ∧
    ∀ d ∈ r.dst, ∃ e ∈ s.dst, e.host = d.host ∧ ∀ x, Covers d.ports x → Covers e.ports x

theorem Rule.Reordered.symm {r s : Rule} (h : r.Reordered s) : s.Reordered r :=
  ⟨h.action.symm, h.src.symm, h.dst.symm, h.proto.symm⟩

/-- Each rule of either document is a rule of the other, reordered. -/
theorem Doc.Reordered.rules {d e : Doc} (h : d.Reordered e) :
    (∀ r ∈ d.acls, ∃ s ∈ e.acls, r.Reordered s) ∧ ∀ s ∈ e.acls, ∃ r ∈ d.acls, s.Reordered r := by
  obtain ⟨l, hperm, hall⟩ := h.acls
  obtain ⟨hlen, hget⟩ := List.forall₂_iff_get.mp hall
  constructor
  · intro r hr
    obtain ⟨i, rfl⟩ := List.get_of_mem (hperm.mem_iff.mp hr)
    have hi : i.1 < e.acls.length := hlen ▸ i.isLt
    exact ⟨_, List.get_mem e.acls ⟨i.1, hi⟩, hget i.1 i.2 hi⟩
  · intro s hs
    obtain ⟨i, rfl⟩ := List.get_of_mem hs
    have hi : i.1 < l.length := hlen.symm ▸ i.isLt
    exact ⟨_, hperm.mem_iff.mpr (List.get_mem l ⟨i.1, hi⟩), (hget i.1 hi i.2).symm⟩

/-- The members of a group decide whom a selector names. -/
theorem hits_mono {d e : Doc} (h : ∀ name m, m ∈ (d.groups.lookup name).getD [] → m ∈ (e.groups.lookup name).getD [])
    (sel : Selector) (a : Peer) (hh : hits d sel a = true) : hits e sel a = true := by
  cases sel with
  | group name =>
    simp only [hits, Bool.and_eq_true, List.contains_iff_mem] at hh ⊢
    exact ⟨hh.1, h name _ hh.2⟩
  | any => exact hh
  | user name => exact hh
  | tag name => exact hh
  | peer name => exact hh
  | self => exact hh
  | cidr q => exact hh
  | internet => exact hh

/-- A text of a dst entry means the same ports under every sort. -/
theorem parseDst_same {S T : RangeSort} {raw : Str} {d e : Dst} (hd : parseDst S raw = .ok d) (he : parseDst T raw = .ok e) :
    e.host = d.host ∧ ∀ x, Covers d.ports x → Covers e.ports x := by
  obtain ⟨hp, l, hs, hh, hl, hc⟩ := parseDst_ok hd
  obtain ⟨hp', l', hs', hh', hl', hc'⟩ := parseDst_ok he
  rw [hs] at hs'
  cases hs'
  rw [hh] at hh'
  rw [hl] at hl'
  cases hl'
  refine ⟨(Except.ok.inj hh').symm, fun x hx => ?_⟩
  exact (hc' x).mpr ((hc x).mp hx)

/-- A parsed policy lies within another when each of its rules does. -/
theorem within_of_acls {p q : Policy} (hp : Parsed p) (hq : Parsed q)
    (hgroups : ∀ name m, m ∈ (p.doc.groups.lookup name).getD [] → m ∈ (q.doc.groups.lookup name).getD [])
    (hacls : ∀ r ∈ p.doc.acls, ∃ s ∈ q.doc.acls, s.proto = r.proto ∧ (∀ t ∈ r.src, t ∈ s.src) ∧ ∀ t ∈ r.dst, t ∈ s.dst) :
    Within p q := by
  obtain ⟨S, _, _, _, hp⟩ := hp
  obtain ⟨T, _, _, _, hq⟩ := hq
  obtain ⟨hprules, -⟩ := parse_ok hp
  obtain ⟨hqrules, hqparses⟩ := parse_ok hq
  refine ⟨hits_mono hgroups, fun r hr => ?_⟩
  rw [hprules] at hr
  obtain ⟨acl, hacl, rfl⟩ := List.mem_map.mp hr
  obtain ⟨acl', hacl', hproto, hsrc, hdst⟩ := hacls acl hacl
  refine ⟨parsedRule T acl', ?_, ?_, fun sel hsel => ?_, fun d hd => ?_⟩
  · rw [hqrules]
    exact List.mem_map_of_mem hacl'
  · show (parseProto acl'.proto).getD .any = (parseProto acl.proto).getD .any
    rw [hproto]
  · obtain ⟨t, ht, hsel⟩ := List.mem_filterMap.mp hsel
    exact List.mem_filterMap.mpr ⟨t, hsrc t ht, hsel⟩
  · obtain ⟨raw, hraw, hd⟩ := mem_filterMap_toOption.mp hd
    obtain ⟨e, he⟩ := (hqparses acl' hacl').dst raw (hdst raw hraw)
    exact ⟨e, mem_filterMap_toOption.mpr ⟨raw, hdst raw hraw, he⟩, parseDst_same hd he⟩

theorem within_of_reordered {p q : Policy} (hp : Parsed p) (hq : Parsed q) (h : p.doc.Reordered q.doc) :
    Within p q ∧ Within q p := by
  have hgroups : ∀ name m, m ∈ (p.doc.groups.lookup name).getD [] ↔ m ∈ (q.doc.groups.lookup name).getD [] := by
    intro name m
    have hrel := h.groups name
    cases hg : p.doc.groups.lookup name with
    | none =>
      rw [hg] at hrel
      cases hq : q.doc.groups.lookup name with
      | none => rfl
      | some l =>
        rw [hq] at hrel
        cases hrel
    | some k =>
      rw [hg] at hrel
      cases hq : q.doc.groups.lookup name with
      | none =>
        rw [hq] at hrel
        cases hrel
      | some l =>
        rw [hq] at hrel
        cases hrel with
        | some hperm => exact hperm.mem_iff
  constructor
  · refine within_of_acls hp hq (fun name m => (hgroups name m).mp) fun r hr => ?_
    obtain ⟨s, hs, hrs⟩ := h.rules.1 r hr
    exact ⟨s, hs, hrs.proto.symm, fun t => hrs.src.mem_iff.mp, fun t => hrs.dst.mem_iff.mp⟩
  · refine within_of_acls hq hp (fun name m => (hgroups name m).mpr) fun s hs => ?_
    obtain ⟨r, hr, hsr⟩ := h.rules.2 s hs
    exact ⟨r, hr, hsr.proto.symm, fun t => hsr.src.mem_iff.mp, fun t => hsr.dst.mem_iff.mp⟩

theorem within_of_addsRule {p q : Policy} (hp : Parsed p) (hq : Parsed q) (h : p.doc.AddsRule q.doc) : Within p q := by
  obtain ⟨l, m, r, hpacls, hqacls⟩ := h.acls
  refine within_of_acls hp hq (fun name m hm => ?_) fun s hs => ?_
  · rw [h.groups]
    exact hm
  · refine ⟨s, ?_, rfl, fun t ht => ht, fun t ht => ht⟩
    rw [hpacls] at hs
    rw [hqacls]
    rcases List.mem_append.mp hs with hs | hs
    · exact List.mem_append_left _ hs
    · exact List.mem_append_right _ (List.mem_cons_of_mem _ hs)

/-! ## What grows -/

section

variable {p q : Policy} {overlay : Prefix} {a b : Peer}

theorem Within.selects (h : Within p q) {r s : ParsedRule} (hsrc : ∀ sel ∈ r.src, sel ∈ s.src)
    (hr : r.selects p.doc a = true) : s.selects q.doc a = true := by
  obtain ⟨sel, hsel, hhit⟩ := selects_iff.mp hr
  exact selects_iff.mpr ⟨sel, hsrc sel hsel, h.hits sel a hhit⟩

theorem Within.opens (h : Within p q) {host : Selector} (ho : Opens (Policy.hits p.doc · ·) overlay host a b) :
    Opens (Policy.hits q.doc · ·) overlay host a b := by
  cases host with
  | internet => exact ho
  | self => exact ho
  | cidr n => exact ⟨ho.1, h.hits _ _ ho.2⟩
  | any => exact h.hits _ _ ho
  | user n => exact h.hits _ _ ho
  | group n => exact h.hits _ _ ho
  | tag n => exact h.hits _ _ ho
  | peer n => exact h.hits _ _ ho

theorem Within.admits (h : Within p q) {proto : Proto} {x : UInt16} (ha : Admits p overlay a b proto x) :
    Admits q overlay a b proto x := by
  obtain ⟨r, hr, hsel, hproto, d, hd, ho, hx⟩ := ha
  obtain ⟨s, hs, hsproto, hsrc, hdst⟩ := h.rules r hr
  obtain ⟨e, he, hhost, hcov⟩ := hdst d hd
  refine ⟨s, hs, h.selects hsrc hsel, hsproto.trans hproto, e, he, ?_, hcov x hx⟩
  rw [hhost]
  exact h.opens ho

/-- An entry of `p` that leads `a` through `b` has one of `q` with the same prefix and
    protocol and no fewer ports. -/
theorem Within.routed (h : Within p q) {g : RouteDst} (hg : g ∈ routed p overlay a b) :
    ∃ g' ∈ Policy.routed q overlay a b, g'.route = g.route ∧ g'.internet = g.internet ∧ g'.proto = g.proto ∧
      ∀ x, Covers g.ports x → Covers g'.ports x := by
  obtain ⟨⟨r, hr, hsel, d, hd, hgd⟩, hc⟩ := mem_routed.mp hg
  obtain ⟨s, hs, hsproto, hsrc, hdst⟩ := h.rules r hr
  obtain ⟨e, he, hhost, hcov⟩ := hdst d hd
  have hge : routeDst overlay s.proto e = some { g with ports := e.ports } := by
    rw [hsproto]
    unfold routeDst at hgd ⊢
    rw [hhost]
    split at hgd
    · split at hgd
      · rename_i hv
        cases hgd
        simp [hv]
      · cases hgd
    · split at hgd
      · rename_i hv
        cases hgd
        simp [hv]
      · cases hgd
    · cases hgd
  refine ⟨_, mem_routed.mpr ⟨⟨s, hs, h.selects hsrc hsel, e, he, hge⟩, hc⟩, rfl, rfl, rfl, fun x hx => ?_⟩
  rw [(routeDst_ports hgd).2] at hx
  exact hcov x hx

theorem Within.reaches (h : Within p q) (hr : Reaches p overlay a b) : Reaches q overlay a b := by
  rcases hr with ⟨r, hr, hsel, d, hd, ho⟩ | hne
  · obtain ⟨s, hs, -, hsrc, hdst⟩ := h.rules r hr
    obtain ⟨e, he, hhost, -⟩ := hdst d hd
    refine .inl ⟨s, hs, h.selects hsrc hsel, e, he, ?_⟩
    rw [hhost]
    exact h.opens ho
  · obtain ⟨g, hg⟩ := List.exists_mem_of_ne_nil _ hne
    obtain ⟨g', hg', -⟩ := h.routed hg
    exact .inr (List.ne_nil_of_mem hg')

end

/-! ## The answers of two policies for one peer list -/

section

variable {p q : Policy} {peers : List Peer} {overlay : Prefix} {i j : Nat} {a b : Peer}

theorem Within.anyIdx (h : Within p q) (hi : peers[i]? = some a) (hj : peers[j]? = some b) (hij : i ≠ j)
    (hany : (compileWith p peers overlay).anyIdx i j = true) : (compileWith q peers overlay).anyIdx i j = true :=
  (anyIdx_iff hi hj hij).mpr (h.reaches ((anyIdx_iff hi hj hij).mp hany))

theorem Within.visible (h : Within p q) {x y : Str} (hv : (compileWith p peers overlay).visible x y = true) :
    (compileWith q peers overlay).visible x y = true := by
  unfold Compiled.visible at hv ⊢
  rw [show (compileWith q peers overlay).index = (compileWith p peers overlay).index from rfl]
  cases hx : (compileWith p peers overlay).index.lookup x with
  | none =>
    rw [hx] at hv
    cases hv
  | some i =>
    cases hy : (compileWith p peers overlay).index.lookup y with
    | none =>
      rw [hx, hy] at hv
      cases hv
    | some j =>
      rw [hx, hy] at hv
      obtain ⟨a, hi, -⟩ := index_lookup hx
      obtain ⟨b, hj, -⟩ := index_lookup hy
      simp only [Bool.and_eq_true, bne_iff_ne, Bool.or_eq_true] at hv ⊢
      obtain ⟨hij, hv⟩ := hv
      exact ⟨hij, hv.imp (h.anyIdx hi hj hij) (h.anyIdx hj hi (Ne.symm hij))⟩

/-- What a source adds to a router's forwarding under `p` is there under `q`. -/
theorem Within.forwardFrom (h : Within p q) (hi : peers[i]? = some a) (hj : peers[j]? = some b)
    {e : ForwardKey × List PortRange} (he : e ∈ (compileWith p peers overlay).forwardFrom j (a, i)) :
    ∃ e' ∈ (compileWith q peers overlay).forwardFrom j (a, i), e'.1 = e.1 ∧ ∀ x, Covers e.2 x → Covers e'.2 x := by
  have hij : i ≠ j := by
    intro hij
    unfold Compiled.forwardFrom at he
    rw [if_pos (.inl hij)] at he
    cases he
  rw [forwardFrom_eq hi hj hij] at he ⊢
  split at he
  · rename_i hv
    rw [if_pos hv]
    obtain ⟨g, hg, he⟩ := List.mem_flatMap.mp he
    obtain ⟨k, hk, rfl⟩ := List.mem_map.mp he
    obtain ⟨g', hg', hroute, hint, hproto, hcov⟩ := h.routed hg
    refine ⟨(k, g'.ports), List.mem_flatMap.mpr ⟨g', hg', List.mem_map.mpr ⟨k, ?_, rfl⟩⟩, rfl, hcov⟩
    rw [hroute, hint, hproto]
    exact hk
  · cases he

/-- Every entry of a router's loop under `p` is there under `q`. -/
theorem Within.forwardEntries (h : Within p q) (hj : peers[j]? = some b) {e : ForwardKey × List PortRange}
    (he : e ∈ peers.zipIdx.flatMap ((compileWith p peers overlay).forwardFrom j)) :
    ∃ e' ∈ peers.zipIdx.flatMap ((compileWith q peers overlay).forwardFrom j), e'.1 = e.1 ∧ ∀ x, Covers e.2 x →
      Covers e'.2 x := by
  obtain ⟨⟨a, i⟩, hx, he⟩ := List.mem_flatMap.mp he
  obtain ⟨e', he', hk, hcov⟩ := h.forwardFrom (List.mem_zipIdx_iff_getElem?.mp hx) hj he
  exact ⟨e', List.mem_flatMap.mpr ⟨(a, i), hx, he'⟩, hk, hcov⟩

theorem Within.leads (h : Within p q) {x : Route} (hl : Leads p peers overlay i a x) : Leads q peers overlay i a x := by
  obtain ⟨j, b, hj, hji, hid, g, hg, hint, hroute⟩ := hl
  obtain ⟨g', hg', hroute', hint', -⟩ := h.routed hg
  exact ⟨j, b, hj, hji, hid, g', hg', hint'.trans hint, hroute'.trans hroute⟩

theorem Within.exitCandidates (h : Within p q) {id : Str}
    (hl : ∃ j b, peers[j]? = some b ∧ j ≠ i ∧ b.id = id ∧ ∃ g ∈ Policy.routed p overlay a b, g.internet = true) :
    ∃ j b, peers[j]? = some b ∧ j ≠ i ∧ b.id = id ∧ ∃ g ∈ Policy.routed q overlay a b, g.internet = true := by
  obtain ⟨j, b, hj, hji, hid, g, hg, hint⟩ := hl
  obtain ⟨g', hg', -, hint', -⟩ := h.routed hg
  exact ⟨j, b, hj, hji, hid, g', hg', hint'.trans hint⟩

end

/-- Two compiled policies that answer alike, however the sorts order what compares equal. -/
structure SameAnswers (c d : Compiled) : Prop where
  allowed : ∀ S T src dst, c.allowed S src dst = d.allowed T src dst
  visible : ∀ a b, c.visible a b = d.visible a b
  filterFor : ∀ S T dst, c.filterFor S dst = d.filterFor T dst
  routesFor : ∀ T U src, c.routesFor T src = d.routesFor U src
  exitNodesFor : ∀ src, c.exitNodesFor src = d.exitNodesFor src
  forwardFor : ∀ S T router, (c.forwardFor S router).Perm (d.forwardFor T router)

structure StillCovers (c d : Compiled) : Prop where
  allowed : ∀ S T src dst proto x, (∃ pr ∈ c.allowed S src dst, pr.proto = proto ∧ pr.lo ≤ x ∧ x ≤ pr.hi) →
    ∃ pr ∈ d.allowed T src dst, pr.proto = proto ∧ pr.lo ≤ x ∧ x ≤ pr.hi
  visible : ∀ a b, c.visible a b = true → d.visible a b = true
  routesFor : ∀ T U src, ∀ r ∈ c.routesFor T src, ∃ r' ∈ d.routesFor U src, r'.route = r.route
  exitNodesFor : ∀ src, ∀ id ∈ c.exitNodesFor src, id ∈ d.exitNodesFor src
  forwardFor : ∀ S T router (k : ForwardKey) x,
    (∃ f ∈ c.forwardFor S router, f.src = k.src ∧ f.dst = k.dst ∧ f.proto = k.proto ∧ f.lo ≤ x ∧ x ≤ f.hi) →
      ∃ f ∈ d.forwardFor T router, f.src = k.src ∧ f.dst = k.dst ∧ f.proto = k.proto ∧ f.lo ≤ x ∧ x ≤ f.hi

section

variable {p q : Policy} (hp : WellFormed p) (hq : WellFormed q) (peers : List Peer) (overlay : Prefix)
include hp hq

theorem allowedIdx_same (h : Within p q) (h' : Within q p) (S T : RangeSort) {i j : Nat} {a b : Peer} (hi : peers[i]? = some a)
    (hj : peers[j]? = some b) (hij : i ≠ j) :
    (compileWith p peers overlay).allowedIdx S i j = (compileWith q peers overlay).allowedIdx T i j :=
  allowedIdx_congr S T hp hq hi hj hij hi hj hij fun _ _ => ⟨h.admits, h'.admits⟩

theorem allowed_same (h : Within p q) (h' : Within q p) (S T : RangeSort) (src dst : Str) :
    (compileWith p peers overlay).allowed S src dst = (compileWith q peers overlay).allowed T src dst := by
  unfold Compiled.allowed
  rw [show (compileWith q peers overlay).index = (compileWith p peers overlay).index from rfl]
  cases hx : (compileWith p peers overlay).index.lookup src with
  | none => rfl
  | some i =>
    cases hy : (compileWith p peers overlay).index.lookup dst with
    | none => rfl
    | some j =>
      obtain ⟨a, hi, -⟩ := index_lookup hx
      obtain ⟨b, hj, -⟩ := index_lookup hy
      by_cases hij : i = j
      · simp [hij]
      · simp only [if_neg hij]
        exact allowedIdx_same hp hq peers overlay h h' S T hi hj hij

theorem filterFor_same (h : Within p q) (h' : Within q p) (S T : RangeSort) (dst : Str) :
    (compileWith p peers overlay).filterFor S dst = (compileWith q peers overlay).filterFor T dst := by
  unfold Compiled.filterFor
  rw [show (compileWith q peers overlay).index = (compileWith p peers overlay).index from rfl]
  cases hy : (compileWith p peers overlay).index.lookup dst with
  | none => rfl
  | some j =>
    obtain ⟨b, hj, -⟩ := index_lookup hy
    show List.insertionSort _ (peers.zipIdx.flatMap _) = List.insertionSort _ (peers.zipIdx.flatMap _)
    congr 1
    refine List.flatMap_congr fun x hx => ?_
    unfold Compiled.filterFrom
    by_cases hij : x.2 = j
    · simp [hij]
    · rw [allowedIdx_same hp hq peers overlay h h' S T (List.mem_zipIdx_iff_getElem?.mp hx) hj hij]

omit hq in
theorem routesFor_same (h : Within p q) (h' : Within q p) (T U : RouteSort) (src : Str) :
    (compileWith p peers overlay).routesFor T src = (compileWith q peers overlay).routesFor U src := by
  unfold Compiled.routesFor
  rw [show (compileWith q peers overlay).index = (compileWith p peers overlay).index from rfl]
  cases hx : (compileWith p peers overlay).index.lookup src with
  | none => rfl
  | some i =>
    obtain ⟨a, hi, -⟩ := index_lookup hx
    refine routes_unique T U (fun x hx => ?_) fun x => ?_
    · obtain ⟨_, _, _, _, _, g, hg, hint, hroute⟩ := (mem_viaCandidates hi).mp hx
      rw [← hroute]
      exact hp.routed_isV4 hg hint
    · rw [mem_viaCandidates hi, mem_viaCandidates hi]
      exact ⟨h.leads, h'.leads⟩

omit hp hq in
theorem exitNodesFor_same (h : Within p q) (h' : Within q p) (src : Str) :
    (compileWith p peers overlay).exitNodesFor src = (compileWith q peers overlay).exitNodesFor src := by
  unfold Compiled.exitNodesFor
  rw [show (compileWith q peers overlay).index = (compileWith p peers overlay).index from rfl]
  cases hx : (compileWith p peers overlay).index.lookup src with
  | none => rfl
  | some i =>
    obtain ⟨a, hi, -⟩ := index_lookup hx
    refine exitNodes_unique fun id => ?_
    rw [mem_exitCandidates hi, mem_exitCandidates hi]
    exact ⟨h.exitCandidates, h'.exitCandidates⟩

theorem forwardFor_same (h : Within p q) (h' : Within q p) (S T : RangeSort) (router : Str) :
    ((compileWith p peers overlay).forwardFor S router).Perm ((compileWith q peers overlay).forwardFor T router) := by
  unfold Compiled.forwardFor
  rw [show (compileWith q peers overlay).index = (compileWith p peers overlay).index from rfl]
  cases hy : (compileWith p peers overlay).index.lookup router with
  | none => exact List.Perm.refl _
  | some j =>
    obtain ⟨b, hj, -⟩ := index_lookup hy
    refine (List.perm_insertionSort _ _).trans (.trans ?_ (List.perm_insertionSort _ _).symm)
    refine forwardRules_perm S T (hp.forwardEntries_proper hj) (hq.forwardEntries_proper hj)
      (fun k x => ⟨fun hk => ?_, fun hk => ?_⟩) fun k => ?_
    · obtain ⟨e, he, hk, hx⟩ := hk
      obtain ⟨e', he', hk', hcov⟩ := h.forwardEntries hj he
      exact ⟨e', he', hk'.trans hk, hcov x hx⟩
    · obtain ⟨e, he, hk, hx⟩ := hk
      obtain ⟨e', he', hk', hcov⟩ := h'.forwardEntries hj he
      exact ⟨e', he', hk'.trans hk, hcov x hx⟩
    · rw [mem_keyOrder, mem_keyOrder]
      constructor
      · intro hk
        obtain ⟨e, he, hk⟩ := hk
        obtain ⟨e', he', hk', -⟩ := h.forwardEntries hj he
        exact ⟨e', he', hk'.trans hk⟩
      · intro hk
        obtain ⟨e, he, hk⟩ := hk
        obtain ⟨e', he', hk', -⟩ := h'.forwardEntries hj he
        exact ⟨e', he', hk'.trans hk⟩

theorem sameAnswers_of_within (h : Within p q) (h' : Within q p) :
    SameAnswers (compileWith p peers overlay) (compileWith q peers overlay) where
  allowed := allowed_same hp hq peers overlay h h'
  visible _ _ := Bool.eq_iff_iff.mpr ⟨h.visible, h'.visible⟩
  filterFor := filterFor_same hp hq peers overlay h h'
  routesFor := routesFor_same hp peers overlay h h'
  exitNodesFor := exitNodesFor_same peers overlay h h'
  forwardFor := forwardFor_same hp hq peers overlay h h'

end

section

variable {p q : Policy} (h : Within p q) (peers : List Peer) (overlay : Prefix)
include h

theorem allowed_covers (S T : RangeSort) (src dst : Str) (proto : Proto) (x : UInt16)
    (hpr : ∃ pr ∈ (compileWith p peers overlay).allowed S src dst, pr.proto = proto ∧ pr.lo ≤ x ∧ x ≤ pr.hi) :
    ∃ pr ∈ (compileWith q peers overlay).allowed T src dst, pr.proto = proto ∧ pr.lo ≤ x ∧ x ≤ pr.hi := by
  unfold Compiled.allowed at hpr ⊢
  rw [show (compileWith q peers overlay).index = (compileWith p peers overlay).index from rfl]
  split at hpr
  · rename_i i j hx hy
    obtain ⟨a, hi, -⟩ := index_lookup hx
    obtain ⟨b, hj, -⟩ := index_lookup hy
    by_cases hij : i = j
    · rw [if_pos hij] at hpr
      obtain ⟨pr, hpr, -⟩ := hpr
      cases hpr
    · rw [if_neg hij, allowedIdx_admits S hi hj hij] at hpr
      rw [if_neg hij, allowedIdx_admits T hi hj hij]
      exact h.admits hpr
  · obtain ⟨pr, hpr, -⟩ := hpr
    cases hpr

/-- The least id for a prefix may change with more routers; the prefix stays. -/
theorem routesFor_covers (T U : RouteSort) (src : Str) (r : Route) (hr : r ∈ (compileWith p peers overlay).routesFor T src) :
    ∃ r' ∈ (compileWith q peers overlay).routesFor U src, r'.route = r.route := by
  unfold Compiled.routesFor at hr ⊢
  rw [show (compileWith q peers overlay).index = (compileWith p peers overlay).index from rfl]
  split at hr
  · cases hr
  · rename_i i hx
    obtain ⟨a, hi, -⟩ := index_lookup hx
    have hcand := ((assigned _).least r).mp (T.mem_iff.mp hr)
    have hleads := h.leads ((mem_viaCandidates hi).mp hcand.1)
    obtain ⟨y, hy, hroute⟩ := (assigned ((compileWith q peers overlay).viaCandidates i)).complete r
      ((mem_viaCandidates hi).mpr hleads)
    exact ⟨y, U.mem_iff.mpr hy, hroute⟩

theorem exitNodesFor_covers (src id : Str) (hid : id ∈ (compileWith p peers overlay).exitNodesFor src) :
    id ∈ (compileWith q peers overlay).exitNodesFor src := by
  unfold Compiled.exitNodesFor at hid ⊢
  rw [show (compileWith q peers overlay).index = (compileWith p peers overlay).index from rfl]
  split at hid
  · cases hid
  · rename_i i hx
    obtain ⟨a, hi, -⟩ := index_lookup hx
    simp only [List.mem_insertionSort, (collect_spec _).2, mem_exitCandidates hi] at hid ⊢
    exact h.exitCandidates hid

theorem forwardFor_covers (S T : RangeSort) (router : Str) (k : ForwardKey) (x : UInt16)
    (hf : ∃ f ∈ (compileWith p peers overlay).forwardFor S router,
      f.src = k.src ∧ f.dst = k.dst ∧ f.proto = k.proto ∧ f.lo ≤ x ∧ x ≤ f.hi) :
    ∃ f ∈ (compileWith q peers overlay).forwardFor T router,
      f.src = k.src ∧ f.dst = k.dst ∧ f.proto = k.proto ∧ f.lo ≤ x ∧ x ≤ f.hi := by
  unfold Compiled.forwardFor at hf ⊢
  rw [show (compileWith q peers overlay).index = (compileWith p peers overlay).index from rfl]
  split at hf
  · obtain ⟨f, hf, -⟩ := hf
    cases hf
  · rename_i j hy
    obtain ⟨b, hj, -⟩ := index_lookup hy
    simp only [List.mem_insertionSort, forwardRules_iff] at hf ⊢
    obtain ⟨e, he, hk, hx⟩ := hf
    obtain ⟨e', he', hk', hcov⟩ := h.forwardEntries hj he
    exact ⟨e', he', hk'.trans hk, hcov x hx⟩

theorem stillCovers_of_within : StillCovers (compileWith p peers overlay) (compileWith q peers overlay) where
  allowed := allowed_covers h peers overlay
  visible _ _ := h.visible
  routesFor := routesFor_covers h peers overlay
  exitNodesFor := exitNodesFor_covers h peers overlay
  forwardFor := forwardFor_covers h peers overlay

end

/-- Reordering a document changes no answer, and one more rule takes nothing away. -/
theorem rules_compose_like_a_set (p q : Policy) (hp : Parsed p) (hq : Parsed q) (peers : List Peer) (overlay : Prefix) :
    (p.doc.Reordered q.doc → SameAnswers (compileWith p peers overlay) (compileWith q peers overlay)) ∧
      (p.doc.AddsRule q.doc → StillCovers (compileWith p peers overlay) (compileWith q peers overlay)) := by
  refine ⟨fun h => ?_, fun h => ?_⟩
  · obtain ⟨hpq, hqp⟩ := within_of_reordered hp hq h
    exact sameAnswers_of_within hp.wellFormed hq.wellFormed peers overlay hpq hqp
  · exact stillCovers_of_within (within_of_addsRule hp hq h) peers overlay

/-- Engineers reach bob's web ports, and carol everything behind 10.1.0.0/16. -/
def webDoc : Doc where
  version := 1
  groups := (∅ : GoMap Str (List Str)).insert (str "eng") [str "alice", str "dave"]
  acls := [{ action := str "accept", src := [str "group:eng", str "carol"], dst := [str "bob:80", str "bob:443"] },
    { action := str "accept", src := [str "carol"], dst := [str "10.1.0.0/16:*"] }]

def webDocSorted : Doc where
  version := 1
  groups := (∅ : GoMap Str (List Str)).insert (str "eng") [str "dave", str "alice"]
  acls := [{ action := str "accept", src := [str "carol"], dst := [str "10.1.0.0/16:*"] },
    { action := str "accept", src := [str "carol", str "group:eng"], dst := [str "bob:443", str "bob:80"] }]

def webDocOpen : Doc :=
  { webDoc with acls := webDoc.acls ++ [{ action := str "accept", src := [str "group:eng"], dst := [str "internet:*"] }] }

def parsedDoc (doc : Doc) : Policy := ⟨doc, doc.acls.map (parsedRule rangeSort)⟩

theorem parsed_of_rules {doc : Doc} (hv : doc.version = version) {o : Orders}
    (h : parseRules rangeSort o doc = .ok (doc.acls.map (parsedRule rangeSort))) : Parsed (parsedDoc doc) := by
  refine ⟨rangeSort, fun _ => some doc, o, [], ?_⟩
  simp only [parse, hv, ne_eq, not_true_eq_false, if_false, h]
  rfl

theorem webDoc_reordered : webDoc.Reordered webDocSorted := by
  refine ⟨⟨webDoc.acls.reverse, (List.reverse_perm _).symm, ?_⟩, fun name => ?_⟩
  · refine .cons ⟨rfl, List.Perm.refl _, List.Perm.refl _, rfl⟩ (.cons ⟨rfl, ?_, ?_, rfl⟩ .nil)
    · exact List.Perm.swap _ _ _
    · exact List.Perm.swap _ _ _
  · by_cases hn : name = str "eng"
    · rw [hn]
      simp only [webDoc, webDocSorted]
      rw [Finmap.lookup_insert, Finmap.lookup_insert]
      exact .some (List.Perm.swap _ _ _)
    · simp only [webDoc, webDocSorted]
      rw [Finmap.lookup_insert_of_ne _ hn, Finmap.lookup_insert_of_ne _ hn, Finmap.lookup_empty]
      exact .none

/-- The overlay 10.9.0.0/16, and peers of alice, bob and carol with a router of 10.1.0.0/16. -/
def webOverlay : Prefix := ⟨.v4 (Arr.ofNat 4 0x0a090000), 17⟩

def webPeers : List Peer :=
  [{ id := str "p1", owner := str "alice", ipv4 := .v4 (Arr.ofNat 4 0x0a090001) },
    { id := str "p2", owner := str "bob", ipv4 := .v4 (Arr.ofNat 4 0x0a090002) },
    { id := str "p3", owner := str "carol", ipv4 := .v4 (Arr.ofNat 4 0x0a090003) },
    { id := str "p4", ipv4 := .v4 (Arr.ofNat 4 0x0a090004), routes := [⟨.v4 (Arr.ofNat 4 0x0a010000), 17⟩] }]

theorem web_composes :
    SameAnswers (compileWith (parsedDoc webDoc) webPeers webOverlay) (compileWith (parsedDoc webDocSorted) webPeers webOverlay) ∧
      StillCovers (compileWith (parsedDoc webDoc) webPeers webOverlay)
        (compileWith (parsedDoc webDocOpen) webPeers webOverlay) := by
  have h1 : Parsed (parsedDoc webDoc) := parsed_of_rules (o := {}) rfl (by decide +kernel)
  have h2 : Parsed (parsedDoc webDocSorted) := parsed_of_rules (o := {}) rfl (by decide +kernel)
  have h3 : Parsed (parsedDoc webDocOpen) := parsed_of_rules (o := {}) rfl (by decide +kernel)
  exact ⟨(rules_compose_like_a_set _ _ h1 h2 webPeers webOverlay).1 webDoc_reordered,
    (rules_compose_like_a_set _ _ h1 h3 webPeers webOverlay).2 ⟨⟨webDoc.acls, [], _, (List.append_nil _).symm, rfl⟩, rfl⟩⟩

end Thawr.Control.Policy
