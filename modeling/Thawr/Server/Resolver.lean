/-
  Thawr.Server.Resolver — the hub's resolver over the registry (`internal/server/dns.go`,
  `internal/dns/server.go`).

  Proved: a peer learns nothing from the resolver about peers it may not see. Two registries
  that agree on the peer and on every peer visible to it in either give it the same reply to
  every message, byte for byte (`resolver_discloses_visible_only`). The exception is a peer at
  a loopback address: its queries are taken for the server's own (`loopback_client_sees_all`).
-/

import Thawr.Control.AllowedIPs
import Thawr.Dns.Server
import Thawr.Server.RegistrySource

namespace Thawr.Server

open Go Netip Control RegistrySource

/-- Names and addresses belong to one peer each, and none of the addresses is the hub's. -/
structure Resolvable (hub hub6 : Addr) (t : Store.Tables) : Prop where
  names : ∀ p ∈ t.peers, ∀ q ∈ t.peers, toLower p.name = toLower q.name → p = q
  owners : ∀ p ∈ t.peers, ∀ q ∈ t.peers, ∀ a, Owns p a → Owns q a → p = q
  hub : ∀ p ∈ t.peers, ∀ a, Owns p a → a ≠ hub ∧ a ≠ hub6

def source (hub hub6 : Addr) (p : Policy.Policy) (overlay : Prefix) (t : Store.Tables) : RegistrySource.Source where
  hub := hub
  hub6 := hub6
  visible a b := PolicyVisibility.visible (some (compiled p t overlay)) a.id b.id

@[simp] theorem source_hub (hub hub6 : Addr) (p : Policy.Policy) (overlay : Prefix) (t : Store.Tables) :
    (source hub hub6 p overlay t).hub = hub := rfl

@[simp] theorem source_hub6 (hub hub6 : Addr) (p : Policy.Policy) (overlay : Prefix) (t : Store.Tables) :
    (source hub hub6 p overlay t).hub6 = hub6 := rfl

def dnsSource (hub hub6 : Addr) (p : Policy.Policy) (overlay : Prefix) (t : Store.Tables) : Dns.Source where
  lookup := (source hub hub6 p overlay t).lookup (maps t.peers)
  reverse := (source hub hub6 p overlay t).reverse (maps t.peers)

/-! ## Answers by what is found -/

section

variable (r : RegistrySource.Source) (m : Maps) (src addr : Addr) (name : Str)

def foundName : Option Store.Peer := (m.byName.lookup (toLower name)).filter (r.visibleLocked m src)

def foundAddr : Option Store.Peer := (m.byAddr.lookup addr).filter (r.visibleLocked m src)

def nameAnswer (hub hub6 : Addr) (v6 : Bool) (name : Str) (found : Option Store.Peer) : Option (List Addr) :=
  if name = hubName then some (hub :: if v6 && hub6.isValid then [hub6] else [])
  else found.bind fun target => (parseAddr target.ipv4).map fun a => a :: if v6 then (peerIPv6 target).toList else []

theorem lookup_eq_found :
    r.lookup m src name = nameAnswer r.hub r.hub6 (r.ipv6CapableLocked m src) name (foundName r m src name) := by
  unfold RegistrySource.Source.lookup nameAnswer foundName
  by_cases hname : name = hubName
  · simp only [if_pos hname]
  · grind

theorem reverse_eq_found : r.reverse m src addr =
    if r.isHub addr then some hubName else (foundAddr r m src addr).map fun target => target.name := by
  unfold RegistrySource.Source.reverse foundAddr
  grind

end

/-! ## What a registered client finds -/

section

variable {hub hub6 src : Addr} {p : Policy.Policy} {overlay : Prefix} {t u : Store.Tables} {self q : Store.Peer}

theorem owns_of_mem_addrs {a : Addr} (h : a ∈ addrs q) : Owns q a := by
  unfold addrs at h
  rcases List.mem_append.mp h with h | h
  · exact .inl (Option.mem_toList.mp h)
  · refine .inr ?_
    unfold peerIPv6 at h
    by_cases hc : q.ipv6Capable = true
    · rw [if_pos hc, Option.mem_toList, Option.filter_eq_some_iff] at h
      refine ⟨fun he => ?_, h.1⟩
      rw [he] at h
      cases h.1
    · rw [if_neg hc] at h
      cases h

theorem Resolvable.byName_iff (ht : Resolvable hub hub6 t) {name : Str} :
    (maps t.peers).byName.lookup name = some q ↔ q ∈ t.peers ∧ toLower q.name = name := by
  constructor
  · exact mem_of_byName
  · intro ⟨hq, hname⟩
    obtain ⟨r, hr⟩ := byName_maps_some hq
    obtain ⟨hrt, hrname⟩ := mem_of_byName hr
    rw [← hname, hr, ht.names r hrt q hq hrname]

theorem Resolvable.byAddr_iff (ht : Resolvable hub hub6 t) {a : Addr} :
    (maps t.peers).byAddr.lookup a = some q ↔ q ∈ t.peers ∧ a ∈ addrs q := by
  constructor
  · exact mem_of_byAddr
  · intro ⟨hq, ha⟩
    obtain ⟨r, hr⟩ := byAddr_maps_some hq ha
    obtain ⟨hrt, har⟩ := mem_of_byAddr hr
    rw [hr, ht.owners r hrt q hq a (owns_of_mem_addrs har) (owns_of_mem_addrs ha)]

/-- A client is found by an address of its own when the address is filed. -/
theorem Resolvable.requester_iff (ht : Resolvable hub hub6 t) (hself : self ∈ t.peers) (hsrc : Owns self src) :
    (maps t.peers).byAddr.lookup src = some q ↔ q = self ∧ src ∈ addrs self := by
  rw [ht.byAddr_iff]
  constructor
  · intro ⟨hq, ha⟩
    have he := ht.owners q hq self hself src (owns_of_mem_addrs ha) hsrc
    exact ⟨he, he ▸ ha⟩
  · intro ⟨he, ha⟩
    rw [he]
    exact ⟨hself, ha⟩

theorem Resolvable.requester_none (ht : Resolvable hub hub6 t) (hself : self ∈ t.peers) (hsrc : Owns self src)
    (h : (maps t.peers).byAddr.lookup src = none) : src ∉ addrs self := by
  intro ha
  rw [(ht.requester_iff hself hsrc).mpr ⟨rfl, ha⟩] at h
  cases h

/-- What the source tells a registered client of a peer: itself, and what the policy lets it
    see. -/
theorem Resolvable.visibleLocked_iff (ht : Resolvable hub hub6 t) (hself : self ∈ t.peers) (hsrc : Owns self src)
    (hl : src.isLoopback = false) : (source hub hub6 p overlay t).visibleLocked (maps t.peers) src q = true ↔
      src ∈ addrs self ∧ (self.id = q.id ∨ (compiled p t overlay).visible self.id q.id = true) := by
  have hhub : ¬(src = (source hub hub6 p overlay t).hub ∨ src.isLoopback = true) := by
    rw [hl]
    simpa using (ht.hub self hself src hsrc).1
  unfold RegistrySource.Source.visibleLocked
  rw [if_neg hhub]
  split
  · rename_i hnone
    simp [ht.requester_none hself hsrc hnone]
  · rename_i requester hsome
    obtain ⟨rfl, ha⟩ := (ht.requester_iff hself hsrc).mp hsome
    rw [Bool.or_eq_true, beq_iff_eq]
    exact ⟨fun h => ⟨ha, h⟩, fun h => h.2⟩

theorem Resolvable.ipv6CapableLocked_iff (ht : Resolvable hub hub6 t) (hself : self ∈ t.peers) (hsrc : Owns self src)
    (hl : src.isLoopback = false) : (source hub hub6 p overlay t).ipv6CapableLocked (maps t.peers) src = true ↔
      src ∈ addrs self ∧ self.ipv6Capable = true := by
  obtain ⟨hne, hne6⟩ := ht.hub self hself src hsrc
  have hhub : ¬(src = (source hub hub6 p overlay t).hub ∨ src = (source hub hub6 p overlay t).hub6 ∨ src.isLoopback = true) := by
    rw [hl]
    simp [hne, hne6]
  unfold RegistrySource.Source.ipv6CapableLocked
  rw [if_neg hhub]
  split
  · rename_i hnone
    simp [ht.requester_none hself hsrc hnone]
  · rename_i requester hsome
    obtain ⟨rfl, ha⟩ := (ht.requester_iff hself hsrc).mp hsome
    exact ⟨fun h => ⟨ha, h⟩, fun h => h.2⟩

/-- The rows a client may learn are the same in both registries. -/
theorem learns_same (h : SameSight p overlay self.id t u) (ht : t.Valid) (hu : u.Valid) (hself : self ∈ t.peers) :
    (q ∈ t.peers ∧ (self.id = q.id ∨ (compiled p t overlay).visible self.id q.id = true)) ↔
      q ∈ u.peers ∧ (self.id = q.id ∨ (compiled p u overlay).visible self.id q.id = true) := by
  by_cases hid : q.id = self.id
  · have := h.own.row q hid
    simp [hid, this]
  · have hseen : q ∈ rowsSeen (compiled p t overlay) t self.id ↔ q ∈ rowsSeen (compiled p u overlay) u self.id := by
      rw [h.rowsSeen_eq ht hu hself]
    simp only [mem_rowsSeen] at hseen
    simpa [hid, Ne.symm hid] using hseen

/-- Two searches that keep the same rows find the same. -/
theorem filter_found_same {a b : Option Store.Peer} {f g : Store.Peer → Bool}
    (h : ∀ q, (a = some q ∧ f q = true) ↔ (b = some q ∧ g q = true)) : a.filter f = b.filter g := by
  refine Option.ext fun q => ?_
  rw [Option.filter_eq_some_iff, Option.filter_eq_some_iff]
  exact h q

/-- The sources answer a registered client alike. -/
theorem sources_same (ht : t.Valid) (hu : u.Valid) (htr : Resolvable hub hub6 t) (hur : Resolvable hub hub6 u)
    (hself : self ∈ t.peers)
    (hsrc : Owns self src) (hl : src.isLoopback = false) (h : SameSight p overlay self.id t u) :
    Dns.Server.SameFor src (dnsSource hub hub6 p overlay t) (dnsSource hub hub6 p overlay u) := by
  have hself' := (h.own.row self rfl).mp hself
  have hv6 : (source hub hub6 p overlay t).ipv6CapableLocked (maps t.peers) src =
      (source hub hub6 p overlay u).ipv6CapableLocked (maps u.peers) src := by
    rw [Bool.eq_iff_iff, htr.ipv6CapableLocked_iff hself hsrc hl, hur.ipv6CapableLocked_iff hself' hsrc hl]
  have hlearn : ∀ q, (q ∈ t.peers ∧ (source hub hub6 p overlay t).visibleLocked (maps t.peers) src q = true) ↔
      q ∈ u.peers ∧ (source hub hub6 p overlay u).visibleLocked (maps u.peers) src q = true := by
    intro q
    rw [htr.visibleLocked_iff hself hsrc hl, hur.visibleLocked_iff hself' hsrc hl, and_left_comm, learns_same h ht hu hself]
    exact and_left_comm
  constructor
  · intro name
    have hfound : foundName (source hub hub6 p overlay t) (maps t.peers) src name =
        foundName (source hub hub6 p overlay u) (maps u.peers) src name := by
      refine filter_found_same fun q => ?_
      rw [htr.byName_iff, hur.byName_iff, and_right_comm, hlearn q, and_right_comm]
    show (source hub hub6 p overlay t).lookup (maps t.peers) src name =
      (source hub hub6 p overlay u).lookup (maps u.peers) src name
    rw [lookup_eq_found, lookup_eq_found, hfound, hv6, source_hub, source_hub6, source_hub, source_hub6]
  · intro addr
    have hfound : foundAddr (source hub hub6 p overlay t) (maps t.peers) src addr =
        foundAddr (source hub hub6 p overlay u) (maps u.peers) src addr := by
      refine filter_found_same fun q => ?_
      rw [htr.byAddr_iff, hur.byAddr_iff, and_right_comm, hlearn q, and_right_comm]
    show (source hub hub6 p overlay t).reverse (maps t.peers) src addr =
      (source hub hub6 p overlay u).reverse (maps u.peers) src addr
    have hhub : (source hub hub6 p overlay t).isHub addr = (source hub hub6 p overlay u).isHub addr := by
      unfold RegistrySource.Source.isHub
      rw [source_hub, source_hub6, source_hub, source_hub6]
    rw [reverse_eq_found, reverse_eq_found, hfound, hhub]

end

/-- The resolver discloses nothing about peers a client may not see: two registries that agree
    on the client and on every peer visible to it in either give it the same reply to every
    message, whatever its name, type and case, and whoever is upstream. -/
theorem resolver_discloses_visible_only {π β : Type} (pkg : Dns.Package π β) (server : Dns.Server) (up : Dns.Upstreams)
    (p : Policy.Policy) (overlay : Prefix) (hub hub6 : Addr) (t u : Store.Tables) (ht : t.Valid) (hu : u.Valid)
    (htr : Resolvable hub hub6 t) (hur : Resolvable hub hub6 u) (self : Store.Peer) (hself : self ∈ t.peers) (src : Addr)
    (hsrc : Owns self src) (hl : src.isLoopback = false) (h : SameSight p overlay self.id t u) (req : Str) (tcp : Bool) :
    server.handle pkg up (dnsSource hub hub6 p overlay t) req src tcp =
      server.handle pkg up (dnsSource hub hub6 p overlay u) req src tcp :=
  server.handle_congr pkg (sources_same ht hu htr hur hself hsrc hl h) up req tcp

/-! ## A query for a hidden name -/

/-- A standard query of the address of `PC.thawr.`. -/
def hiddenQuery : Str := [0, 7, 1, 0, 0, 1, 0, 0, 0, 0, 0, 0, 2] ++ str "PC" ++ [5] ++ str "thawr" ++ [0, 0, 1, 0, 1]

def sectionDone : Str := str "parsing/packing of this section has completed"

structure Builder where
  header : Dns.Header
  /-- What follows the twelve bytes of the header. -/
  body : Str := []
  /-- Where the names written so far start, by their labels. -/
  names : List (List Str × Nat) := []
  section_ : Nat := 0
  counts : Nat → Nat := fun _ => 0

/-- Labels from an offset on, ended by a pointer to where the rest of them stands already. -/
def packLabels (names : List (List Str × Nat)) (off : Nat) : List Str → Str × List (List Str × Nat)
  | [] => ([0], names)
  | l :: ls =>
    match names.lookup (l :: ls) with
    | some ptr => (beBytes 2 (0xC000 + ptr), names)
    | none =>
      let r := packLabels ((l :: ls, off) :: names) (off + 1 + l.length) ls
      (UInt8.ofNat l.length :: l ++ r.1, r.2)

namespace Builder

def bytes (b : Builder) (x : Str) : Builder := { b with body := b.body ++ x }

def name (b : Builder) (name : Str) : Builder :=
  let r := packLabels b.names (12 + b.body.length) ((split (trimSuffix name (str ".")) 46).filter (· ≠ []))
  { b.bytes r.1 with names := r.2 }

def question (b : Builder) (q : Dns.Question) : Builder :=
  { (b.name q.name).bytes (beBytes 2 q.type.toNat ++ beBytes 2 q.class_.toNat) with
    counts := Function.update b.counts b.section_ (b.counts b.section_ + 1) }

def data (b : Builder) : Dns.Body → Builder
  | .a a => b.bytes a.bytes
  | .aaaa a => b.bytes a.bytes
  | .ptr name => b.name name
  | .soa ns mbox serial refresh retry expire minTTL =>
    ((b.name ns).name mbox).bytes ([serial, refresh, retry, expire, minTTL].flatMap fun x => beBytes 4 x.toNat)

/-- A record; its length is known when its data is written. -/
def record (b : Builder) (h : Dns.ResourceHeader) (data : Builder → Builder) : Builder :=
  let b := (b.question ⟨h.name, h.type, h.class_⟩).bytes (beBytes 4 h.ttl.toNat)
  let r := data (b.bytes [0, 0])
  let n := b.body.length
  { r with body := r.body.take n ++ beBytes 2 (r.body.length - n - 2) ++ r.body.drop (n + 2) }

def flags (h : Dns.Header) : Nat :=
  h.response.toNat * 32768 + h.opCode.toNat * 2048 + h.authoritative.toNat * 1024 + h.truncated.toNat * 512 +
    h.recursionDesired.toNat * 256 + h.recursionAvailable.toNat * 128 + h.rcode.toNat

def message (b : Builder) : Str :=
  beBytes 2 b.header.id.toNat ++ beBytes 2 (flags b.header) ++ ([0, 1, 2, 3].flatMap fun i => beBytes 2 (b.counts i)) ++ b.body

end Builder

/-- The package on this query: its parser is how many questions are left, and it writes messages
    in the layout of RFC 1035. -/
def wireFormat : Dns.Package Nat Builder where
  start req := if req = hiddenQuery then .ok (1, { id := 7, recursionDesired := true }) else .error (str "unpacking header")
  question left := if left = 0 then .error sectionDone else .ok (0, ⟨str "PC.thawr.", Dns.typeA, Dns.classINET⟩)
  skipAllQuestions _ := .ok 0
  skipAllAnswers := .ok
  skipAllAuthorities := .ok
  additionalHeader _ := .error sectionDone
  skipAdditional _ := .error sectionDone
  newName name := if name.length ≤ 255 then .ok name else .error (str "name too long")
  typeString t := decimal t.toNat
  newBuilder h := { header := h }
  enableCompression b := b
  startQuestions b := .ok { b with section_ := 0 }
  addQuestion b q := .ok (b.question q)
  startAnswers b := .ok { b with section_ := 1 }
  startAuthorities b := .ok { b with section_ := 2 }
  startAdditionals b := .ok { b with section_ := 3 }
  resource b h body := .ok (b.record h (·.data body))
  optResource b h := .ok (b.record h id)
  finish b := .ok b.message

def homeHub : Addr := .v4 (Arr.ofNat 4 0x0A0000FE)

def laptopAddr : Addr := .v4 (Arr.ofNat 4 0x0A000001)

theorem resolvable_of_ipv4 {t : Store.Tables} {hub : Addr}
    (hnames : ∀ p ∈ t.peers, ∀ q ∈ t.peers, toLower p.name = toLower q.name → p = q)
    (haddrs : ∀ p ∈ t.peers, ∀ q ∈ t.peers, parseAddr p.ipv4 = parseAddr q.ipv4 → p = q)
    (h : ∀ p ∈ t.peers, p.ipv6 = [] ∧ parseAddr p.ipv4 ≠ some hub ∧ parseAddr p.ipv4 ≠ some .zero) : Resolvable hub .zero t := by
  have howns : ∀ p ∈ t.peers, ∀ a, Owns p a → parseAddr p.ipv4 = some a := by
    intro p hp a ha
    rcases ha with ha | ⟨hne, -⟩
    · exact ha
    · exact absurd (h p hp).1 hne
  refine ⟨hnames, fun p hp q hq a ha hb => ?_, fun p hp a ha => ?_⟩
  · exact haddrs p hp q hq ((howns p hp a ha).trans (howns q hq a hb).symm)
  · grind

/-- Bob's PC is there in one registry only; alice's laptop is told of no such name in both. -/
theorem home_reply_same : ({} : Dns.Server).handle wireFormat (fun _ _ _ => .error [])
      (dnsSource homeHub .zero homePolicy Prefix.none bobHome) hiddenQuery
        laptopAddr false =
      ({} : Dns.Server).handle wireFormat (fun _ _ _ => .error []) (dnsSource homeHub .zero homePolicy Prefix.none carolHome)
        hiddenQuery laptopAddr false :=
  resolver_discloses_visible_only wireFormat {} _ homePolicy Prefix.none homeHub .zero bobHome carolHome bobHome_valid
    carolHome_valid
    (resolvable_of_ipv4 (by decide +kernel) (by decide +kernel) (by decide +kernel))
    (resolvable_of_ipv4 (by decide +kernel) (by decide +kernel) (by decide +kernel))
    { id := str "a1", name := str "laptop", ownerID := str "u1", ipv4 := str "10.0.0.1" } (by decide +kernel) laptopAddr
    (.inl (by decide +kernel)) (by decide +kernel) home_sameView.sight hiddenQuery false

/-! ## A peer at a loopback address -/

def loopHub : Addr := .v4 (Arr.ofNat 4 0x7F000001)

def loopLaptop : Store.Peer := { id := str "a1", name := str "laptop", ownerID := str "u1", ipv4 := str "127.0.0.2" }

def loopPC : Store.Peer := { id := str "b1", name := str "pc", ownerID := str "u2", ipv4 := str "127.0.0.3" }

/-- The home in an overlay inside 127.0.0.0/8, which the configuration accepts. -/
def loopTables (others : List Store.Peer) : Store.Tables where
  peers := loopLaptop :: others
  users := [⟨str "u1", str "alice"⟩, ⟨str "u2", str "bob"⟩]

/-- Nothing is visible to the laptop in either registry. -/
theorem loop_sameSight : SameSight homePolicy Prefix.none loopLaptop.id (loopTables [loopPC]) (loopTables []) := by
  refine ⟨⟨fun r hr => ?_, fun _ _ _ => rfl, fun _ _ _ => Iff.rfl⟩, fun id hid => ?_⟩
  · have hne : r ≠ loopPC := fun he => absurd (he ▸ hr) (by decide)
    simp [loopTables, hne]
  · rcases hid with hid | hid
    · obtain ⟨r, hr, rfl⟩ := visible_mem hid
      have hnone : ∀ r ∈ (loopTables [loopPC]).peers,
          (compiled homePolicy (loopTables [loopPC]) Prefix.none).visible loopLaptop.id r.id = false := by decide +kernel
      exact absurd hid (by rw [hnone r hr]; decide)
    · obtain ⟨r, hr, rfl⟩ := visible_mem hid
      exact absurd (congrArg Store.Peer.id (List.mem_singleton.mp hr)) (visible_ne hid)

/-- A loopback client is taken for the server itself, which sees every peer: the laptop is
    told the address of bob's PC, which the policy hides from it. -/
theorem loopback_client_sees_all :
    (loopTables [loopPC]).Valid ∧ (loopTables []).Valid ∧ Resolvable loopHub .zero (loopTables [loopPC]) ∧
      Resolvable loopHub .zero (loopTables []) ∧ Owns loopLaptop (.v4 (Arr.ofNat 4 0x7F000002)) ∧
      SameSight homePolicy Prefix.none loopLaptop.id (loopTables [loopPC]) (loopTables []) ∧
      ({} : Dns.Server).handle wireFormat (fun _ _ _ => .error [])
        (dnsSource loopHub .zero homePolicy Prefix.none (loopTables [loopPC]))
          hiddenQuery (.v4 (Arr.ofNat 4 0x7F000002)) false ≠
        ({} : Dns.Server).handle wireFormat (fun _ _ _ => .error [])
          (dnsSource loopHub .zero homePolicy Prefix.none (loopTables []))
          hiddenQuery (.v4 (Arr.ofNat 4 0x7F000002)) false := by
  refine ⟨⟨?_, ?_, ?_, ?_, ?_, ?_⟩, ⟨?_, ?_, ?_, ?_, ?_, ?_⟩, resolvable_of_ipv4 ?_ ?_ ?_, resolvable_of_ipv4 ?_ ?_ ?_, .inl ?_,
    loop_sameSight, ?_⟩
  all_goals decide +kernel

end Thawr.Server
