/-
  Thawr.Enforcement — from the policy document to the packet: what the filter of a peer lets
  in is what the document grants.

  The server parses the document, compiles it against the peer list and puts the rules for a
  peer into that peer's netmap; the netmap goes over the wire; the client turns it into a
  filter set, and the packet filter decides with it. `Grants` says what the document means,
  in terms of its own texts.

  Proved: a TCP or UDP packet over IPv4 from one peer to another that belongs to no flow
  passes exactly when the document grants it (`policy_enforced`).
-/

import Thawr.Client.NetMap
import Thawr.Control.Policy.Compile
import Thawr.Control.Policy.Ranges
import Thawr.Go.Prefixes
import Thawr.Wg.Packets

namespace Thawr

open Go Netip Control.Policy

/-! ## What a document grants -/

/-- A selector names a peer; a group stands for the users its members name. -/
def Selects (doc : Doc) (sel : Selector) (pe : Peer) : Prop :=
  match sel with
  | .any => True
  | .user name => pe.owner ≠ [] ∧ pe.owner = name
  | .group name => pe.owner ≠ [] ∧ ∃ members, doc.groups.lookup name = some members ∧
      ∃ m ∈ members, parseSelector m false = .ok (.user pe.owner)
  | .tag name => str "tag:" ++ name ∈ pe.tags
  | .peer name => pe.name = name
  | .cidr p => p.contains pe.ipv4 = true ∨ p.contains pe.ipv6 = true
  | .self => False
  | .internet => False

def protoOf : Wg.Transport → Proto
  | .tcp => .tcp
  | .udp => .udp

/-- The dst entry `e` opens `b` to `a` and lists the port. -/
def EntryOpens (doc : Doc) (overlay : Prefix) (a b : Peer) (port : UInt16) (e : Str) : Prop :=
  ∃ hp sel l, splitDst e = some hp ∧ parseSelector hp.1 true = .ok sel ∧ Opens (Selects doc) overlay sel a b ∧
    portList hp.2 = .ok l ∧ Covers l port

/-- Some rule of the document lets `a` reach `b` on the port. -/
def Grants (doc : Doc) (overlay : Prefix) (a b : Peer) (t : Wg.Transport) (port : UInt16) : Prop :=
  ∃ r ∈ doc.acls, (∃ s ∈ r.src, ∃ sel, parseSelector s false = .ok sel ∧ Selects doc sel a) ∧
    (parseProto r.proto = some .any ∨ parseProto r.proto = some (protoOf t)) ∧
    ∃ e ∈ r.dst, EntryOpens doc overlay a b port e

/-! ## Parsing and compiling keep the meaning -/

section

variable {doc : Doc} {overlay : Prefix} {a b : Peer} {t : Wg.Transport} {port : UInt16} {S : RangeSort}

theorem contains_valid {p : Prefix} {x : Addr} : (x.isValid && p.contains x) = p.contains x := by
  unfold Prefix.contains
  cases x.isValid <;> simp

/-- With bare members, looking an owner up among the members is what a group means. -/
theorem hits_iff (hbare : doc.Bare) (sel : Selector) (pe : Peer) : hits doc sel pe = true ↔ Selects doc sel pe := by
  cases sel with
  | any => simp [hits, Selects]
  | user n => simp [hits, Selects]
  | tag n => simp [hits, Selects]
  | peer n => simp [hits, Selects]
  | self => simp [hits, Selects]
  | internet => simp [hits, Selects]
  | cidr p => simp only [hits, Selects, contains_valid, Bool.or_eq_true]
  | group n =>
    simp only [hits, Selects, Bool.and_eq_true, bne_iff_ne, ne_eq, List.contains_iff_mem]
    refine and_congr_right fun _ => ?_
    cases hm : doc.groups.lookup n with
    | none => simp
    | some members =>
      simp only [Option.getD_some, Option.some.injEq, exists_eq_left']
      constructor
      · intro h
        exact ⟨pe.owner, h, hbare n members hm _ h⟩
      · rintro ⟨m, hmem, hp⟩
        rw [hbare n members hm m hmem] at hp
        cases hp
        exact hmem

theorem entryOpens_iff {e : Str} {d : Dst} (h : parseDst S e = .ok d) :
    EntryOpens doc overlay a b port e ↔ Opens (Selects doc) overlay d.host a b ∧ Covers d.ports port := by
  obtain ⟨hp, l, hs, hh, hl, hc⟩ := parseDst_ok h
  unfold EntryOpens
  grind

/-- What a parsed rule opens is what the rule as written does. -/
theorem parsedRule_iff (hbare : doc.Bare) {r : Rule} (hr : Parses S r) :
    ((∃ sel ∈ (parsedRule S r).src, hits doc sel a = true) ∧
        ((parsedRule S r).proto = .any ∨ (parsedRule S r).proto = protoOf t) ∧
        ∃ d ∈ (parsedRule S r).dst, Opens (hits doc · ·) overlay d.host a b ∧ Covers d.ports port) ↔
      (∃ s ∈ r.src, ∃ sel, parseSelector s false = .ok sel ∧ Selects doc sel a) ∧
        (parseProto r.proto = some .any ∨ parseProto r.proto = some (protoOf t)) ∧
        ∃ e ∈ r.dst, EntryOpens doc overlay a b port e := by
  have hsame : (fun sel pe => hits doc sel pe = true) = Selects doc := by
    funext sel pe
    exact propext (hits_iff hbare sel pe)
  obtain ⟨p, hp⟩ := hr.proto
  refine and_congr ?_ (and_congr ?_ ?_)
  · simp only [parsedRule, mem_filterMap_toOption, hits_iff hbare]
    grind
  · simp only [parsedRule, hp, Option.getD_some, Option.some.injEq]
  · rw [hsame]
    simp only [parsedRule, mem_filterMap_toOption]
    constructor
    · rintro ⟨d, ⟨e, he, hd⟩, h⟩
      exact ⟨e, he, (entryOpens_iff hd).mpr h⟩
    · rintro ⟨e, he, h⟩
      obtain ⟨d, hd⟩ := hr.dst e he
      exact ⟨d, ⟨e, he, hd⟩, (entryOpens_iff hd).mp h⟩

end

/-! ## The wire and the client keep the rules -/

theorem toUInt32_fits (x : UInt16) : ¬65535 < x.toUInt32 := by
  rw [UInt32.lt_iff_toNat_lt]
  have h := x.toNat_lt
  simp only [UInt16.toNat_toUInt32]
  have hmax : (65535 : UInt32).toNat = 65535 := rfl
  omega

/-- A rule comes off the wire with its source's text and its ports. -/
theorem filterFromProto_toProto (f : Control.FilterRule) :
    Client.filterFromProto (Api.filterToProto f) = some ⟨f.src.string, f.proto, f.portLo, f.portHi⟩ := by
  have hsrc : Client.srcOf (Api.filterToProto f).srcIpv4 (Api.filterToProto f).srcIpv6 = f.src.string := by
    unfold Client.srcOf Api.filterToProto
    grind
  have hfits : ¬(65535 < (Api.filterToProto f).portLo ∨ 65535 < (Api.filterToProto f).portHi) :=
    not_or.mpr ⟨toUInt32_fits _, toUInt32_fits _⟩
  unfold Client.filterFromProto
  rw [hsrc, if_neg hfits]
  simp [Api.filterToProto]

/-- The client's rule for a source matches an IPv4 address exactly when it is that source. -/
theorem filterRule_contains (f : Client.FilterRule) (src : Addr) (hsrc : f.src = src.string) (s : Arr 4) :
    (∃ r, Client.filterRule f = some r ∧ r.src.contains (.v4 s) = true) ↔ src = .v4 s := by
  unfold Client.filterRule
  rw [hsrc]
  cases src with
  | zero =>
    have hnone : parseAddr Addr.zero.string = none := by decide
    simp [hnone]
  | v4 b =>
    rw [parseAddr_string_v4]
    simp only [Option.map_some, Option.some.injEq, exists_eq_left']
    rw [single_contains rfl rfl]
    exact eq_comm
  | v6 b z =>
    constructor
    · intro h
      obtain ⟨r, hr, hc⟩ := h
      obtain ⟨x, hx, rfl⟩ := Option.map_eq_some_iff.mp hr
      have hfam := contains_family hc
      cases x with
      | v4 c => exact absurd hx (parseAddr_string_v6_ne_v4 b z c)
      | zero => exact absurd (show (0 : Nat) = 32 from hfam) (by decide)
      | v6 c w => exact absurd (show (128 : Nat) = 32 from hfam) (by decide)
    · intro h
      cases h

/-- The filter set of a received netmap lets a transport packet in by one of the netmap's rules
    for its source. -/
theorem rulesAllow_iff {nm : Control.NetMap} {received : Int} {iface : Str} {self : Addr} {overlay : Prefix}
    {advertised : List Prefix} {p : Wg.Packet} {t : Wg.Transport} {s : Arr 4} (hproto : p.proto = t.num)
    (hsrc : p.src = .v4 s) :
    Wg.rulesAllow (Client.filterSetFor (Client.netMapFromProto (Api.netMapToProto nm) received) iface self overlay advertised)
        p = true ↔
      ∃ f ∈ nm.filter, f.src = .v4 s ∧ (f.proto = t.text ∨ f.proto = Wg.protoAny) ∧ f.portLo ≤ p.dport ∧ p.dport ≤ f.portHi := by
  have hrules : (Client.filterSetFor (Client.netMapFromProto (Api.netMapToProto nm) received) iface self overlay
    advertised).rules =
      nm.filter.filterMap fun f => Client.filterRule ⟨f.src.string, f.proto, f.portLo, f.portHi⟩ := by
    simp only [Client.filterSetFor, Client.netMapFromProto, Api.netMapToProto, List.filterMap_map, Function.comp_def,
      filterFromProto_toProto, List.filterMap_eq_map']
  unfold Wg.rulesAllow
  rw [hrules, hsrc]
  simp only [List.any_eq_true, List.mem_filterMap, Bool.and_eq_true]
  constructor
  · rintro ⟨r, ⟨f, hf, hr⟩, ⟨hc, -⟩, hports⟩
    obtain ⟨x, -, rfl⟩ := Option.map_eq_some_iff.mp hr
    exact ⟨f, hf, (filterRule_contains _ f.src rfl s).mp ⟨_, hr, hc⟩, (Wg.portsAllow_iff hproto _ _ _).mp hports⟩
  · rintro ⟨f, hf, hsf, hports⟩
    obtain ⟨r, hr, hc⟩ := (filterRule_contains ⟨f.src.string, f.proto, f.portLo, f.portHi⟩ f.src rfl s).mpr hsf
    refine ⟨r, ⟨f, hf, hr⟩, ?_⟩
    obtain ⟨x, -, rfl⟩ := Option.map_eq_some_iff.mp hr
    exact ⟨⟨hc, rfl⟩, (Wg.portsAllow_iff hproto _ _ _).mpr hports⟩

/-! ## End to end -/

theorem text_iff {proto : Proto} {t : Wg.Transport} :
    (proto.text = t.text ∨ proto.text = Wg.protoAny) ↔ proto = .any ∨ proto = protoOf t := by
  cases proto <;> cases t <;> decide

/-- The netmap's rules for a source and port, by protocol. -/
theorem filterRules_iff {rules : List FilterRule} {src : Addr} {t : Wg.Transport} {port : UInt16} :
    (∃ g ∈ filterRules rules, g.src = src ∧ (g.proto = t.text ∨ g.proto = Wg.protoAny) ∧ g.portLo ≤ port ∧ port ≤ g.portHi) ↔
      ∃ proto, (proto = .any ∨ proto = protoOf t) ∧
        ∃ f ∈ rules, f.src = src ∧ f.proto = proto ∧ f.lo ≤ port ∧ port ≤ f.hi := by
  constructor
  · rintro ⟨g, hg, hsrc, hproto, hport⟩
    obtain ⟨f, hf, rfl⟩ := List.mem_map.mp hg
    exact ⟨f.proto, text_iff.mp hproto, f, hf, hsrc, rfl, hport⟩
  · rintro ⟨_, hproto, f, hf, hsrc, rfl, hport⟩
    exact ⟨_, List.mem_map.mpr ⟨f, hf, rfl⟩, hsrc, text_iff.mpr hproto, hport⟩

/-- The rules of an accepted document, by protocol, open what the document grants. -/
theorem rules_grant_iff {S : RangeSort} {decode : Str → Option Doc} {o : Orders} {data : Str} {pol : Policy}
    {overlay : Prefix} {a b : Peer} {t : Wg.Transport} {port : UInt16} (hparse : parse S decode o data = .ok pol)
    (hbare : pol.doc.Bare) :
    (∃ proto, (proto = .any ∨ proto = protoOf t) ∧
        ∃ r ∈ pol.rules, (∃ sel ∈ r.src, hits pol.doc sel a = true) ∧ r.proto = proto ∧
          ∃ d ∈ r.dst, Opens (hits pol.doc · ·) overlay d.host a b ∧ Covers d.ports port) ↔
      Grants pol.doc overlay a b t port := by
  obtain ⟨hrules, hparses⟩ := parse_ok hparse
  rw [hrules]
  constructor
  · rintro ⟨_, hproto, _, hparsed, hsrc, rfl, hdst⟩
    obtain ⟨r, hr, rfl⟩ := List.mem_map.mp hparsed
    exact ⟨r, hr, (parsedRule_iff hbare (hparses r hr)).mp ⟨hsrc, hproto, hdst⟩⟩
  · rintro ⟨r, hr, h⟩
    obtain ⟨hsrc, hproto, hdst⟩ := (parsedRule_iff hbare (hparses r hr)).mpr h
    exact ⟨_, hproto, _, List.mem_map.mpr ⟨r, hr, rfl⟩, hsrc, rfl, hdst⟩

/-- A packet from `src` to `dst` that belongs to no flow passes the filter of `dst` exactly when
    the document grants it. -/
theorem policy_enforced {S : RangeSort} {decode : Str → Option Doc} {o : Orders} {data : Str} {pol : Policy}
    {peers : List Peer} {overlay : Prefix} {src dst : Peer} {nm : Control.NetMap} {f : Wg.PacketFilter} {b : List UInt8}
    {t : Wg.Transport} {s d : Arr 4} {port : UInt16} (hparse : parse S decode o data = .ok pol) (hbare : pol.doc.Bare)
    (hpeers : ValidPeers peers) (hsrc : src ∈ peers) (hdst : dst ∈ peers) (hne : src ≠ dst)
    (hnm : nm.filter = filterRules ((compileWith pol peers overlay).filterFor S dst.id)) (hs : src.ipv4 = .v4 s)
    (hd : dst.ipv4 = .v4 d) (hb : Wg.IsIPv4 b t s d port) (hflow : ∀ k, f.flows k = none) (received now : Int) (iface : Str)
    (clientOverlay : Prefix) (advertised : List Prefix) :
    ((f.install (Client.filterSetFor (Client.netMapFromProto (Api.netMapToProto nm) received) iface dst.ipv4 clientOverlay
      advertised)).inbound now b).2 = true ↔ Grants pol.doc overlay src dst t port := by
  obtain ⟨i, hi⟩ := List.mem_iff_getElem?.mp hsrc
  obtain ⟨j, hj⟩ := List.mem_iff_getElem?.mp hdst
  have hij : i ≠ j := by
    rintro rfl
    rw [hi] at hj
    exact hne (Option.some.inj hj)
  obtain ⟨p, hp, hproto, hpsrc, hpdst, hport⟩ := Wg.parsePacket_ipv4 hb
  have hlocal : p.dst = dst.ipv4 := hpdst.trans hd.symm
  have hdecides := Wg.inbound_by_rules (f := f.install (Client.filterSetFor (Client.netMapFromProto (Api.netMapToProto nm)
    received) iface dst.ipv4 clientOverlay advertised)) hflow rfl rfl hp hproto hlocal now
  -- the filter's rules, the netmap's, the compiled ones, the parsed ones, the document's
  rw [hdecides, rulesAllow_iff hproto hpsrc, hnm, hport, filterRules_iff, ← rules_grant_iff hparse hbare, ← hs]
  refine exists_congr fun proto => and_congr_right fun _ => ?_
  rw [filterFor_iff S hpeers hi hj hij, allowedIdx_iff, compile_matches hi hj hij]

/-! ## A grant at work -/

def sshDoc : Doc where
  version := 1
  groups := (∅ : GoMap Str (List Str)).insert (str "eng") [str "alice"]
  acls := [{ action := str "accept", src := [str "group:eng"], dst := [str "bob:22,80-90"], proto := str "TCP" }]

def sshPolicy : Policy := ⟨sshDoc, sshDoc.acls.map (parsedRule rangeSort)⟩

def alicePC : Peer := { id := str "a", owner := str "alice", ipv4 := .v4 (Arr.ofNat 4 0x0a000001) }

def bobPC : Peer := { id := str "b", owner := str "bob", ipv4 := .v4 (Arr.ofNat 4 0x0a000002) }

def bobMap : Control.NetMap :=
  { selfIPv4 := bobPC.ipv4
    filter := filterRules ((compileWith sshPolicy [alicePC, bobPC] Prefix.none).filterFor rangeSort bobPC.id) }

def synPacket : List UInt8 :=
  [0x45, 0, 0, 40, 0, 0, 0, 0, 64, 6, 0, 0, 10, 0, 0, 1, 10, 0, 0, 2] ++
    [0xc0, 0, 0, 22, 0, 0, 0, 0, 0, 0, 0, 0, 0x50, 2, 0, 0, 0, 0, 0, 0]

theorem synPacket_ipv4 : Wg.IsIPv4 synPacket .tcp (Arr.ofNat 4 0x0a000001) (Arr.ofNat 4 0x0a000002) 22 :=
  ⟨⟨.v4 ⟨by decide, by decide, by decide, by decide, by decide, by decide, by decide, by decide⟩, by decide⟩, by decide⟩

theorem sshDoc_grants : Grants sshDoc Prefix.none alicePC bobPC .tcp 22 := by
  refine ⟨_, List.mem_singleton_self _, ?_, .inr (by decide +kernel), _, List.mem_singleton_self _, ?_⟩
  · refine ⟨_, List.mem_singleton_self _, .group (str "eng"), by decide +kernel, by decide, [str "alice"], ?_,
      _, List.mem_singleton_self _, by decide +kernel⟩
    exact Finmap.lookup_insert _
  · refine ⟨(str "bob", str "22,80-90"), .user (str "bob"), [⟨22, 22⟩, ⟨80, 90⟩], by decide +kernel, by decide +kernel,
      ⟨by decide, rfl⟩, by decide +kernel, ⟨22, 22⟩, List.mem_cons_self, by decide, by decide⟩

theorem sshDoc_bare : sshDoc.Bare := by
  intro name members h m hm
  by_cases hn : name = str "eng"
  · subst hn
    rw [show sshDoc.groups.lookup (str "eng") = some [str "alice"] from Finmap.lookup_insert _] at h
    cases h
    rw [List.mem_singleton.mp hm]
    decide +kernel
  · have hnone : sshDoc.groups.lookup name = none := (Finmap.lookup_insert_of_ne _ hn).trans (Finmap.lookup_empty _)
    rw [hnone] at h
    cases h

/-- So bob's device lets the packet in. -/
theorem ssh_passes :
    ((({} : Wg.PacketFilter).install (Client.filterSetFor (Client.netMapFromProto (Api.netMapToProto bobMap) 0) (str "thawr0")
      bobPC.ipv4 Prefix.none [])).inbound 0 synPacket).2 = true := by
  have hpeers : ValidPeers [alicePC, bobPC] := ⟨by decide +kernel, by decide +kernel, by decide +kernel, by decide +kernel⟩
  have hparse : parse rangeSort (fun _ => some sshDoc) { groups := [⟨str "eng", [str "alice"]⟩] } [] = .ok sshPolicy := by
    decide +kernel
  have hmap : bobMap.filter =
      filterRules ((compileWith sshPolicy [alicePC, bobPC] Prefix.none).filterFor rangeSort bobPC.id) := rfl
  have hne : alicePC ≠ bobPC := by decide
  have ha : alicePC.ipv4 = .v4 (Arr.ofNat 4 0x0a000001) := rfl
  have hb : bobPC.ipv4 = .v4 (Arr.ofNat 4 0x0a000002) := rfl
  exact (policy_enforced hparse sshDoc_bare hpeers List.mem_cons_self (List.mem_cons_of_mem _ List.mem_cons_self) hne hmap ha hb
    synPacket_ipv4 (fun _ => rfl) 0 0 (str "thawr0") Prefix.none []).mpr sshDoc_grants

end Thawr
