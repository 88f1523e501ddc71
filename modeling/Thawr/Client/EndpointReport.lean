/-
  Thawr.Client.EndpointReport — the candidates a device reports and what the server makes of
  them (`LocalEndpoints`, `localCandidates`, `reflexiveRound`, `reportLoop` of
  `internal/client`; `endpointsFromProto` and `ValidateEndpoints` on the server).

  A report is the local candidates followed by the reflexive ones. `LocalEndpoints` keeps at
  most 16 IPv4 addresses of the host's interfaces, none of them loopback, link-local or
  unspecified; `reflexiveRound` keeps the mapped addresses a STUN round found, without
  duplicates, loopback and unspecified ones. The loop runs a new round when the local
  candidates changed or the last one is old, and otherwise reports the last round's.

  Proved: in every run whose STUN rounds find valid addresses at ports other than 0, the server
  takes a report exactly when the host's addresses (of the sixteen lowest those outside the
  overlay) and the different mapped addresses of the round it shows are sixteen at most, and
  none of them is multicast or 0.0.0.0 in its IPv4-mapped form (`report_accepted_iff`). None of
  the three is prevented by the client (`sixteen_addresses_and_a_mapping`).
-/

import Thawr.Api.Convert
import Thawr.Go.AddrText

namespace Thawr.Client.Discovery

open Go Netip Control

/-! ## Local candidates -/

/-- One of the host's interfaces, as `net.Interfaces` and `Addrs` show it. -/
structure Interface where
  name : Str
  up : Bool := true
  loopback : Bool := false
  /-- The bytes of each `*net.IPNet`, none for an address of another type; none for an error. -/
  addrs : Option (List (Option (List UInt8)))

def addrFromSlice (b : List UInt8) : Option Addr := ((Arr.of? 4 b).map .v4).or ((Arr.of? 16 b).map fun b => .v6 b [])

def localAddr (entry : Option (List UInt8)) : Option Addr :=
  match entry.bind addrFromSlice with
  | none => none
  | some ip =>
    let ip := ip.unmap
    if !ip.is4 || ip.isLoopback || ip.isLinkLocalUnicast || ip.isUnspecified then none else some ip

def Interface.candidates (i : Interface) (ignoreIface : Str) : List Addr :=
  if !i.up || i.loopback || i.name == ignoreIface then [] else (i.addrs.getD []).filterMap localAddr

abbrev EndpointSort := SliceSort fun a b : AddrPort => a.addr.less b.addr

/-- `LocalEndpoints`; `ifaces` is none when the host does not list its interfaces. -/
def localEndpoints (S : EndpointSort) (ifaces : Option (List Interface)) (port : Nat) (ignoreIface : Str) : List AddrPort :=
  (S.run (((ifaces.getD []).flatMap (·.candidates ignoreIface)).map (⟨·, UInt16.ofNat port⟩))).take 16

structure Setup where
  sort : EndpointSort
  listenPort : Nat
  iface : Str := []
  overlay : Prefix := Prefix.none
  /-- `state.OverlayIPv6`. -/
  overlayIPv6 : Str := []
  /-- `EndpointInterval`, in nanoseconds. -/
  interval : Int := 0

def Setup.inOverlay (u : Setup) (a : Addr) : Bool :=
  let overlay6 := (parsePrefix u.overlayIPv6).getD Prefix.none
  u.overlay.contains a || (overlay6.isValid && overlay6.contains a)

def localCandidates (u : Setup) (ifaces : Option (List Interface)) : List AddrPort :=
  (localEndpoints u.sort ifaces u.listenPort u.iface).filter fun ap => !u.inOverlay ap.addr

/-! ## Reflexive candidates -/

structure StunResult where
  mapped : List AddrPort
  symmetric : Bool := false

/-- The loop of `reflexiveRound`. Over a socket of its own a mapping only tells the address. -/
def reflexives (shared : Bool) (port : UInt16) (seen : List AddrPort) : List AddrPort → List Endpoint
  | [] => []
  | m :: mapped =>
    let ap := if shared then m else ⟨m.addr, port⟩
    if seen.contains ap || ap.addr.isLoopback || ap.addr.isUnspecified then reflexives shared port seen mapped
    else ⟨ap, .reflexive⟩ :: reflexives shared port (ap :: seen) mapped

/-- `reflexiveRound`: `stun` is the result with whether it came through the WireGuard socket,
    none for an error. -/
def reflexiveRound (u : Setup) (servers : List AddrPort) (stun : Option (StunResult × Bool)) : List Endpoint × Bool :=
  if servers = [] then ([], false)
  else
    match stun with
    | none => ([], false)
    | some (res, shared) => (reflexives shared (UInt16.ofNat u.listenPort) [] res.mapped, res.symmetric)

/-! ## `reportLoop` -/

structure Report where
  endpoints : List Endpoint := []
  symmetric : Bool := false
  listenPort : Nat := 0
  deriving DecidableEq

/-- The variables of the loop; a time is none while it is the zero time. -/
structure Loop where
  last : Report := {}
  lastSent : Option Int := none
  lastLocal : List AddrPort := []
  lastSTUN : Option Int := none
  reflexive : List Endpoint := []
  symmetric : Bool := false

structure Poll where
  now : Int
  ifaces : Option (List Interface)
  servers : List AddrPort := []
  stun : Option (StunResult × Bool) := none
  /-- `ReportEndpoints` returns without an error. -/
  answered : Bool := true

def elapsed (since : Option Int) (now interval : Int) : Bool :=
  match since with
  | none => true
  | some t => decide (interval ≤ now - t)

def shouldSend (prev cur : Report) (lastSent : Option Int) (now interval : Int) : Bool :=
  elapsed lastSent now interval || cur != prev

def Loop.discover (u : Setup) (s : Loop) (p : Poll) : Loop :=
  let found := localCandidates u p.ifaces
  if found != s.lastLocal || elapsed s.lastSTUN p.now u.interval then
    let r := reflexiveRound u p.servers p.stun
    { s with reflexive := r.1, symmetric := r.2, lastSTUN := some p.now, lastLocal := found }
  else s

def Loop.report (u : Setup) (s : Loop) (p : Poll) : Report where
  endpoints := (localCandidates u p.ifaces).map (⟨·, .locl⟩) ++ (s.discover u p).reflexive
  symmetric := (s.discover u p).symmetric
  listenPort := u.listenPort

def Loop.next (u : Setup) (s : Loop) (p : Poll) : Loop :=
  let rep := s.report u p
  let s := s.discover u p
  if shouldSend s.last rep s.lastSent p.now u.interval && p.answered then { s with last := rep, lastSent := some p.now } else s

def Report.request (r : Report) : Api.Proto.EndpointReport where
  endpoints := r.endpoints.map fun e => ⟨e.addr.string, e.kind⟩
  listenPort := UInt32.ofNat r.listenPort
  symmetric := r.symmetric

/-- The report passes `endpointsFromProto` and `ValidateEndpoints`. -/
def Report.Accepted (r : Report) : Prop :=
  ∃ eps, Api.endpointsFromProto r.request.endpoints = .ok eps ∧ validateEndpoints eps = .ok ()

/-- A STUN round finds valid addresses at ports other than 0. -/
def Poll.Plain (p : Poll) : Prop := ∀ res shared, p.stun = some (res, shared) → ∀ m ∈ res.mapped, m.isValid = true ∧ m.port ≠ 0

/-! ## What the host and the STUN servers show -/

/-- The IPv4 addresses of the interfaces that are up, without loopback, link-local and
    unspecified ones. -/
def hostAddrs (u : Setup) (ifaces : Option (List Interface)) : List Addr := (ifaces.getD []).flatMap (·.candidates u.iface)

/-- Those of the sixteen lowest that are outside the overlay. -/
def hostShown (u : Setup) (ifaces : Option (List Interface)) : List Addr :=
  (((hostAddrs u ifaces).insertionSort fun a b => a.num ≤ b.num).take 16).filter fun a => !u.inOverlay a

/-- Where a mapping lets a peer reach this device. -/
def Setup.reachedAt (u : Setup) (shared : Bool) (m : AddrPort) : AddrPort :=
  if shared then m else ⟨m.addr, UInt16.ofNat u.listenPort⟩

def usable (ap : AddrPort) : Bool := !ap.addr.isLoopback && !ap.addr.isUnspecified

/-- The different addresses a round of STUN found. -/
def mappings (u : Setup) (p : Poll) : List AddrPort :=
  if p.servers = [] then []
  else
    match p.stun with
    | none => []
    | some (res, shared) => ((res.mapped.map (u.reachedAt shared)).filter usable).eraseDups

/-- The turn whose STUN round is shown in turn `p`: this one when there was none before, when the
    host's addresses changed since or the interval is over, and else the last one. -/
def roundShown (u : Setup) (last : Option Poll) (p : Poll) : Poll :=
  match last with
  | none => p
  | some q => if hostShown u p.ifaces ≠ hostShown u q.ifaces ∨ u.interval ≤ p.now - q.now then p else q

def lastRound (u : Setup) (ps : List Poll) : Option Poll := ps.foldl (fun last p => some (roundShown u last p)) none

structure Fits (u : Setup) (ifaces : Option (List Interface)) (round : Poll) : Prop where
  count : (hostShown u ifaces).length + (mappings u round).length ≤ maxEndpoints
  routed : ∀ a ∈ hostShown u ifaces ++ (mappings u round).map (·.addr), a.isMulticast = false ∧ a.unmap ≠ .v4 (Arr.zero 4)

/-! ## Unmapped addresses -/

theorem unmap_cases (a : Addr) : a.unmap = a ∨ ∃ b, a.unmap = .v4 b := by
  cases a with
  | zero => exact .inl rfl
  | v4 b => exact .inl rfl
  | v6 b z =>
    by_cases h : (Addr.v6 b z).is4In6 = true
    · right
      simp only [Addr.unmap, if_pos h]
      exact ⟨_, rfl⟩
    · exact .inl (by simp only [Addr.unmap, if_neg h])

theorem unmap_unmap (a : Addr) : a.unmap.unmap = a.unmap := by
  rcases unmap_cases a with h | ⟨b, h⟩
  · rw [h, h]
  · rw [h]
    rfl

theorem isLoopback_unmap (a : Addr) : a.unmap.isLoopback = a.isLoopback := by
  unfold Addr.isLoopback
  rw [unmap_unmap]

theorem isMulticast_unmap (a : Addr) : a.unmap.isMulticast = a.isMulticast := by
  unfold Addr.isMulticast
  rw [unmap_unmap]

/-- Unmapping an address makes it unspecified only if it was mapped. -/
theorem isUnspecified_unmap {a : Addr} (h : a.isUnspecified = false) :
    a.unmap.isUnspecified = true ↔ a.unmap = .v4 (Arr.zero 4) := by
  rcases unmap_cases a with hsame | ⟨b, hb⟩
  · rw [hsame, h]
    refine iff_of_false (by decide) fun hz => ?_
    rw [hz] at h
    cases h
  · rw [hb]
    simp [Addr.isUnspecified]

/-! ## What the client makes sure of -/

structure Sent (e : Endpoint) : Prop where
  valid : e.addr.isValid = true
  port : e.addr.port ≠ 0
  loopback : e.addr.addr.isLoopback = false
  unspecified : e.addr.addr.isUnspecified = false
  kind : e.kind ≠ .unknown

theorem Sent.routable_iff {e : Endpoint} (h : Sent e) :
    e.Routable ↔ e.addr.addr.isMulticast = false ∧ e.addr.addr.unmap ≠ .v4 (Arr.zero 4) := by
  rw [Ne, ← isUnspecified_unmap h.unspecified]
  constructor
  · intro hr
    exact ⟨isMulticast_unmap _ ▸ hr.multicast, by simp [hr.unspecified]⟩
  · rintro ⟨hm, hu⟩
    refine ⟨h.valid, h.port, ?_, Bool.eq_false_iff.mpr hu, ?_, h.kind⟩
    · rw [isLoopback_unmap]
      exact h.loopback
    · rw [isMulticast_unmap]
      exact hm

section

variable {u : Setup} {s : Loop} {p : Poll} {e : Endpoint}

variable {a : Addr} {last : Option Poll}

theorem localAddr_some {entry : Option (List UInt8)} (h : localAddr entry = some a) :
    a.is4 = true ∧ a.isLoopback = false ∧ a.isUnspecified = false := by
  unfold localAddr at h
  grind

theorem port_ne_zero {n : Nat} (hpos : 0 < n) (hlt : n < 65536) : UInt16.ofNat n ≠ 0 := by
  intro h
  have := congrArg UInt16.toNat h
  rw [UInt16.toNat_ofNat', Nat.mod_eq_of_lt hlt] at this
  exact absurd this (by simp; omega)

theorem mem_hostAddrs {ifaces : Option (List Interface)} (h : a ∈ hostAddrs u ifaces) :
    ∃ entry, localAddr entry = some a := by
  obtain ⟨i, -, ha⟩ := List.mem_flatMap.mp h
  unfold Interface.candidates at ha
  split at ha
  · cases ha
  · obtain ⟨entry, -, he⟩ := List.mem_filterMap.mp ha
    exact ⟨entry, he⟩

/-- Not less: by length, then by value, then by zone. -/
theorem less_false_iff (a b : Addr) : b.less a = false ↔
    a.bitLen < b.bitLen ∨ (a.bitLen = b.bitLen ∧ (a.num < b.num ∨ (a.num = b.num ∧ a.zone ≤ b.zone))) := by
  unfold Addr.less
  grind

theorem is4_cases (h : a.is4 = true) : ∃ b, a = .v4 b := by
  cases a with
  | v4 b => exact ⟨b, rfl⟩
  | zero => cases h
  | v6 b z => cases h

theorem less_false_v4 (b c : Arr 4) : (Addr.v4 c).less (.v4 b) = false ↔ b.toNat ≤ c.toNat := by
  rw [less_false_iff]
  simp only [Addr.bitLen, Addr.num, Addr.zone, lt_irrefl, true_and, false_or, List.le_refl, and_true]
  omega

/-- Whatever order `sort.Slice` takes equal addresses in, the list is the same. -/
theorem localEndpoints_eq (u : Setup) (ifaces : Option (List Interface)) : localEndpoints u.sort ifaces u.listenPort u.iface =
    (((hostAddrs u ifaces).insertionSort fun a b => a.num ≤ b.num).take 16).map (⟨·, UInt16.ofNat u.listenPort⟩) := by
  have hhost : ∀ a ∈ hostAddrs u ifaces, ∃ b, a = .v4 b := by
    intro a ha
    obtain ⟨entry, he⟩ := mem_hostAddrs ha
    exact is4_cases (localAddr_some he).1
  have hperm := List.perm_insertionSort (fun a b : Addr => a.num ≤ b.num) (hostAddrs u ifaces)
  have htotal : Std.Total fun a b : Addr => a.num ≤ b.num := ⟨fun a b => Nat.le_total _ _⟩
  have htrans : IsTrans Addr fun a b => a.num ≤ b.num := ⟨fun a b c => Nat.le_trans⟩
  have hsorted := List.pairwise_insertionSort (fun a b : Addr => a.num ≤ b.num) (hostAddrs u ifaces)
  have hrun : u.sort.run ((hostAddrs u ifaces).map (⟨·, UInt16.ofNat u.listenPort⟩)) =
      ((hostAddrs u ifaces).insertionSort fun a b => a.num ≤ b.num).map (⟨·, UInt16.ofNat u.listenPort⟩) := by
    refine ((u.sort.perm _).trans (hperm.map _).symm).eq_of_pairwise ?_ (u.sort.sorted _) ?_
    · -- two IPv4 addresses neither of which is less are the same
      intro a b ha hb hab hba
      obtain ⟨x, hx, rfl⟩ := List.mem_map.mp (u.sort.mem_iff.mp ha)
      obtain ⟨y, hy, rfl⟩ := List.mem_map.mp hb
      obtain ⟨x, rfl⟩ := hhost x hx
      obtain ⟨y, rfl⟩ := hhost y (hperm.mem_iff.mp hy)
      rw [less_false_v4] at hab hba
      rw [Arr.toNat_inj (Nat.le_antisymm hab hba)]
    · rw [List.pairwise_map]
      refine hsorted.imp_of_mem fun {a b} ha hb hab => ?_
      obtain ⟨x, rfl⟩ := hhost a (hperm.mem_iff.mp ha)
      obtain ⟨y, rfl⟩ := hhost b (hperm.mem_iff.mp hb)
      exact (less_false_v4 x y).mpr hab
  unfold localEndpoints
  rw [List.map_take, ← hrun]
  rfl

theorem localCandidates_eq (u : Setup) (ifaces : Option (List Interface)) :
    localCandidates u ifaces = (hostShown u ifaces).map (⟨·, UInt16.ofNat u.listenPort⟩) := by
  unfold localCandidates hostShown
  rw [localEndpoints_eq, List.filter_map]
  rfl

theorem hostShown_sent (hpos : 0 < u.listenPort) (hlt : u.listenPort < 65536) {ifaces : Option (List Interface)}
    (h : a ∈ hostShown u ifaces) : Sent ⟨⟨a, UInt16.ofNat u.listenPort⟩, .locl⟩ := by
  have hmem := List.mem_of_mem_take (List.mem_filter.mp h).1
  obtain ⟨entry, he⟩ := mem_hostAddrs ((List.mem_insertionSort _).mp hmem)
  obtain ⟨h4, hloop, hunspec⟩ := localAddr_some he
  obtain ⟨b, rfl⟩ := is4_cases h4
  exact ⟨rfl, port_ne_zero hpos hlt, hloop, hunspec, nofun⟩

/-- The loop keeps each usable address once, where it comes first. -/
theorem reflexives_eq (u : Setup) (shared : Bool) (mapped : List AddrPort) : ∀ seen : List AddrPort,
    reflexives shared (UInt16.ofNat u.listenPort) seen mapped =
      (((mapped.map (u.reachedAt shared)).filter fun ap => usable ap && !seen.contains ap).eraseDups).map (⟨·, .reflexive⟩) := by
  induction mapped with
  | nil => exact fun _ => rfl
  | cons m mapped ih =>
    intro seen
    have hap : (if shared then m else ⟨m.addr, UInt16.ofNat u.listenPort⟩) = u.reachedAt shared m := rfl
    rw [reflexives, hap, List.map_cons]
    generalize u.reachedAt shared m = ap
    by_cases hkeep : (usable ap && !seen.contains ap) = true
    · have hgo : (seen.contains ap || ap.addr.isLoopback || ap.addr.isUnspecified) = false := by
        unfold usable at hkeep
        grind
      simp only [List.filter_cons, hkeep, hgo, Bool.false_eq_true, if_true, if_false, List.eraseDups_cons, List.filter_filter,
        List.map_cons, ih]
      congr 4
      funext x
      simp only [List.contains_cons, Bool.not_or]
      grind
    · have hskip : (seen.contains ap || ap.addr.isLoopback || ap.addr.isUnspecified) = true := by
        unfold usable at hkeep
        grind
      simp only [List.filter_cons, hkeep, hskip, Bool.false_eq_true, if_true, if_false, ih]

/-- The candidates of a round are the different addresses it found. -/
theorem reflexiveRound_eq (u : Setup) (p : Poll) :
    (reflexiveRound u p.servers p.stun).1 = (mappings u p).map (⟨·, .reflexive⟩) := by
  unfold reflexiveRound mappings
  split
  · rfl
  · split
    · rfl
    · rw [reflexives_eq]
      simp only [List.contains_nil, Bool.not_false, Bool.and_true]

theorem mappings_sent (hpos : 0 < u.listenPort) (hlt : u.listenPort < 65536) (hp : p.Plain) {ap : AddrPort}
    (h : ap ∈ mappings u p) : Sent ⟨ap, .reflexive⟩ := by
  unfold mappings at h
  split at h
  · cases h
  · split at h
    · cases h
    · rename_i res shared hstun
      obtain ⟨hin, huse⟩ := List.mem_filter.mp (List.mem_eraseDups.mp h)
      obtain ⟨m, hm, rfl⟩ := List.mem_map.mp hin
      obtain ⟨hvalid, hport⟩ := hp res shared hstun m hm
      simp only [usable, Bool.and_eq_true, Bool.not_eq_true'] at huse
      refine ⟨?_, ?_, huse.1, huse.2, nofun⟩
      · unfold Setup.reachedAt
        split
        · exact hvalid
        · exact hvalid
      · unfold Setup.reachedAt
        split
        · exact hport
        · exact port_ne_zero hpos hlt

/-! ## Runs of the loop -/

/-- What the loop has kept of the turns so far: that of its last round. -/
def Keeps (u : Setup) (last : Option Poll) (s : Loop) : Prop :=
  match last with
  | none => s.lastSTUN = none
  | some q => s.lastSTUN = some q.now ∧ s.lastLocal = localCandidates u q.ifaces ∧
      s.reflexive = (reflexiveRound u q.servers q.stun).1

theorem discover_keeps (h : Keeps u last s) (p : Poll) :
    Keeps u (some (roundShown u last p)) (s.discover u p) := by
  unfold Loop.discover roundShown
  cases last with
  | none =>
    have hnone : s.lastSTUN = none := h
    simp only [hnone, elapsed, Bool.or_true, if_true]
    exact ⟨rfl, rfl, rfl⟩
  | some q =>
    obtain ⟨hstun, hlocal, hrefl⟩ := h
    have hround : (localCandidates u p.ifaces != s.lastLocal || elapsed s.lastSTUN p.now u.interval) = true ↔
        hostShown u p.ifaces ≠ hostShown u q.ifaces ∨ u.interval ≤ p.now - q.now := by
      rw [hstun, hlocal, localCandidates_eq, localCandidates_eq, Bool.or_eq_true, bne_iff_ne, Ne,
        List.map_inj_right fun a b h => congrArg AddrPort.addr h]
      exact or_congr_right decide_eq_true_iff
    by_cases hnow : hostShown u p.ifaces ≠ hostShown u q.ifaces ∨ u.interval ≤ p.now - q.now
    · simp only [if_pos (hround.mpr hnow), if_pos hnow]
      exact ⟨rfl, rfl, rfl⟩
    · simp only [if_neg (fun h => hnow (hround.mp h)), if_neg hnow]
      exact ⟨hstun, hlocal, hrefl⟩

theorem next_keeps (h : Keeps u last s) (p : Poll) : Keeps u (some (roundShown u last p)) (s.next u p) := by
  have hkeeps := discover_keeps h p
  unfold Loop.next
  dsimp only
  split
  · exact hkeeps
  · exact hkeeps

theorem run_keeps (u : Setup) (ps : List Poll) : Keeps u (lastRound u ps) (ps.foldl (Loop.next u) {}) := by
  unfold lastRound
  induction ps using List.reverseRecOn with
  | nil => rfl
  | append_singleton ps p ih =>
    rw [List.foldl_append, List.foldl_append]
    exact next_keeps ih p

theorem roundShown_mem (p : Poll) {q : Poll} (h : roundShown u last p = q) : q = p ∨ last = some q := by
  unfold roundShown at h
  split at h
  · exact .inl h.symm
  · split at h
    · exact .inl h.symm
    · exact .inr (by rw [h])

theorem lastRound_mem {ps : List Poll} {q : Poll} (h : lastRound u ps = some q) : q ∈ ps := by
  induction ps using List.reverseRecOn generalizing q with
  | nil => cases h
  | append_singleton ps p ih =>
    unfold lastRound at h ih
    rw [List.foldl_append] at h
    rcases roundShown_mem _ (Option.some.inj h) with rfl | hlast
    · exact List.mem_append_right _ (List.mem_singleton_self _)
    · exact List.mem_append_left _ (ih hlast)

/-- The endpoints a turn reports. -/
theorem report_endpoints (ps : List Poll) (p : Poll) :
    ((ps.foldl (Loop.next u) {}).report u p).endpoints =
      (hostShown u p.ifaces).map (fun a => ⟨⟨a, UInt16.ofNat u.listenPort⟩, .locl⟩) ++
        (mappings u (roundShown u (lastRound u ps) p)).map (⟨·, .reflexive⟩) := by
  have hkeeps := discover_keeps (run_keeps u ps) p
  show (localCandidates u p.ifaces).map (fun ap => (⟨ap, .locl⟩ : Endpoint)) ++
    ((ps.foldl (Loop.next u) {}).discover u p).reflexive = _
  rw [hkeeps.2.2, reflexiveRound_eq, localCandidates_eq, List.map_map]
  rfl

/-! ## The server's answer -/

/-- Valid candidates read back as they were sent. -/
theorem mapM_parseEndpoint {eps : List Endpoint} (h : ∀ e ∈ eps, e.addr.isValid = true) :
    (eps.map fun e => (⟨e.addr.string, e.kind⟩ : Api.Proto.Endpoint)).mapM (fun e => parseEndpoint e.addr e.kind) = .ok eps := by
  induction eps with
  | nil => rfl
  | cons e eps ih =>
    rw [List.forall_mem_cons] at h
    have hone : parseEndpoint e.addr.string e.kind = .ok e := by
      unfold parseEndpoint
      rw [parseAddrPort_string h.1]
    rw [List.map_cons, List.mapM_cons, hone, ih h.2]
    rfl

theorem accepted_iff {r : Report} (h : ∀ e ∈ r.endpoints, e.addr.isValid = true) :
    r.Accepted ↔ r.endpoints.length ≤ maxEndpoints ∧ ∀ e ∈ r.endpoints, e.Routable := by
  have hlen : r.request.endpoints.length = r.endpoints.length := List.length_map _
  have hparsed : r.request.endpoints.mapM (fun e => parseEndpoint e.addr e.kind) = .ok r.endpoints := mapM_parseEndpoint h
  rw [← validateEndpoints_ok]
  unfold Report.Accepted Api.endpointsFromProto
  rw [hlen]
  constructor
  · grind
  · intro hv
    refine ⟨r.endpoints, ?_, hv⟩
    rw [if_neg (Nat.not_lt.mpr (validateEndpoints_ok.mp hv).1)]
    exact hparsed

/-- `ReportEndpoints` asks for no more, when the port is one. -/
theorem reportEndpoints_ok {r : Report} (hport : r.listenPort < 65536) (t : EndpointTable) (now : Int) (me : Str) :
    (∃ x, Api.reportEndpoints t now me r.request = .ok x) ↔ r.Accepted := by
  have hfits : r.request.listenPort ≤ 65535 := by
    show UInt32.ofNat r.listenPort ≤ 65535
    rw [UInt32.le_iff_toNat_le, UInt32.toNat_ofNat', Nat.mod_eq_of_lt (by omega)]
    show r.listenPort ≤ 65535
    omega
  constructor
  · intro h
    obtain ⟨x, h⟩ := h
    obtain ⟨eps, heps, h⟩ := bind_ok.mp h
    obtain ⟨_, -, h⟩ := bind_ok.mp h
    obtain ⟨_, hv, -⟩ := bind_ok.mp (mapError_ok.mp h)
    exact ⟨eps, mapError_ok.mp heps, hv⟩
  · intro h
    obtain ⟨eps, heps, hv⟩ := h
    have hset : ∃ y, t.set now me eps r.request.symmetric r.request.listenPort.toUInt16 = .ok y := by
      unfold EndpointTable.set
      rw [hv]
      exact ⟨_, rfl⟩
    obtain ⟨y, hy⟩ := hset
    exact ⟨y, bind_ok.mpr ⟨eps, mapError_ok.mpr heps, bind_ok.mpr ⟨(), check_ok.mpr (decide_eq_true hfits), mapError_ok.mpr hy⟩⟩⟩

/-- The server takes the report of a turn exactly when the host's addresses and the mapped ones
    are not too many and none of them is one the client lets through and the server does not. -/
theorem report_accepted_iff (hpos : 0 < u.listenPort) (hlt : u.listenPort < 65536) {ps : List Poll} (hps : ∀ q ∈ ps, q.Plain)
    (hp : p.Plain) :
    (((ps.foldl (Loop.next u) {}).report u p).Accepted ↔ Fits u p.ifaces (roundShown u (lastRound u ps) p)) ∧
      ∀ (t : EndpointTable) (now : Int) (me : Str),
        (∃ x, Api.reportEndpoints t now me ((ps.foldl (Loop.next u) {}).report u p).request = .ok x) ↔
          ((ps.foldl (Loop.next u) {}).report u p).Accepted := by
  refine ⟨?_, reportEndpoints_ok hlt⟩
  have hround : (roundShown u (lastRound u ps) p).Plain := by
    rcases roundShown_mem p (Eq.refl (roundShown u (lastRound u ps) p)) with heq | hlast
    · rw [heq]
      exact hp
    · exact hps _ (lastRound_mem hlast)
  have hends := report_endpoints (u := u) ps p
  generalize roundShown u (lastRound u ps) p = round at hround hends ⊢
  have hsent : ∀ e ∈ ((ps.foldl (Loop.next u) {}).report u p).endpoints, Sent e := by
    rw [hends, List.forall_mem_append, List.forall_mem_map, List.forall_mem_map]
    exact ⟨fun a ha => hostShown_sent hpos hlt ha, fun ap hap => mappings_sent hpos hlt hround hap⟩
  have hrouted : (∀ e ∈ ((ps.foldl (Loop.next u) {}).report u p).endpoints, e.Routable) ↔
      ∀ a ∈ hostShown u p.ifaces ++ (mappings u round).map (·.addr), a.isMulticast = false ∧ a.unmap ≠ .v4 (Arr.zero 4) := by
    rw [forall₂_congr fun e he => (hsent e he).routable_iff, hends]
    simp only [List.forall_mem_append, List.forall_mem_map]
  rw [accepted_iff fun e he => (hsent e he).valid, hrouted, hends, List.length_append, List.length_map, List.length_map]
  exact ⟨fun h => ⟨h.1, h.2⟩, fun h => ⟨h.count, h.routed⟩⟩

end

/-! ## Hosts the server refuses -/

def addrSort : EndpointSort where
  run := List.insertionSort fun a b => b.addr.less a.addr = false
  perm := List.perm_insertionSort _
  sorted l := by
    have : Std.Total fun a b : AddrPort => b.addr.less a.addr = false := by
      refine ⟨fun a b => ?_⟩
      simp only [less_false_iff]
      have hzone := List.le_total a.addr.zone b.addr.zone
      grind
    have : IsTrans AddrPort fun a b => b.addr.less a.addr = false := by
      refine ⟨fun a b c hab hbc => ?_⟩
      rw [less_false_iff] at hab hbc ⊢
      have hzone : a.addr.zone ≤ b.addr.zone → b.addr.zone ≤ c.addr.zone → a.addr.zone ≤ c.addr.zone := List.le_trans
      grind
    exact List.pairwise_insertionSort (fun a b : AddrPort => b.addr.less a.addr = false) l

def host : Setup := { sort := addrSort, listenPort := 51820, iface := str "thawr0", interval := 60 }

/-- The first turn on a host with one interface, and one STUN server that answers. -/
def firstTurn (addrs : List Nat) (mapped : AddrPort) : Poll where
  now := 1
  ifaces := some [{ name := str "eth0", addrs := some (addrs.map fun n => some (beBytes 4 n)) }]
  servers := [⟨.v4 (Arr.ofNat 4 0xcb007101), 3478⟩]
  stun := some ({ mapped := [mapped] }, true)

theorem firstTurn_plain (addrs : List Nat) (mapped : AddrPort) (h : mapped.isValid = true ∧ mapped.port ≠ 0) :
    (firstTurn addrs mapped).Plain := by
  intro res shared hstun m hm
  cases hstun
  rw [List.mem_singleton.mp hm]
  exact h

def mappedAt : AddrPort := ⟨.v4 (Arr.ofNat 4 0xcb007107), 51820⟩

def mappedNowhere : AddrPort := ⟨.v6 (Arr.ofNat 16 0xffff00000000) [], 51820⟩

/-- The server refuses what a host with these addresses and this mapping reports. -/
def Refused (addrs : List Nat) (mapped : AddrPort) : Prop :=
  (firstTurn addrs mapped).Plain ∧ ¬(Loop.report host {} (firstTurn addrs mapped)).Accepted

theorem refused_of_none {addrs : List Nat} {mapped : AddrPort} (hmapped : mapped.isValid = true ∧ mapped.port ≠ 0)
    (hrefused : ((Api.endpointsFromProto (Loop.report host {} (firstTurn addrs mapped)).request.endpoints >>=
      validateEndpoints).toOption).isNone = true) : Refused addrs mapped := by
  refine ⟨firstTurn_plain _ _ hmapped, fun h => ?_⟩
  rw [bind_ok.mpr h] at hrefused
  cases hrefused

/-- Sixteen addresses and a mapping are one candidate too many; a multicast address on an
    interface and a mapping to ::ffff:0.0.0.0 are sent and refused. -/
theorem sixteen_addresses_and_a_mapping :
    Refused ((List.range 16).map (0xc0a80101 + ·)) mappedAt ∧ Refused [0xe0000005] mappedAt ∧
      Refused [0xc0a80101] mappedNowhere := by
  refine ⟨refused_of_none ?_ ?_, refused_of_none ?_ ?_, refused_of_none ?_ ?_⟩
  all_goals decide +kernel

/-- Two addresses and a mapping, which the next turn still shows. -/
theorem two_addresses_and_a_mapping :
    let first := firstTurn [0xc0a80101, 0x0a000005] mappedAt
    let second := { first with now := 2, stun := none }
    first.Plain ∧ mappings host (roundShown host (lastRound host [first]) second) = [mappedAt] ∧
      (([first].foldl (Loop.next host) {}).report host second).Accepted := by
  intro first second
  have hfirst : first.Plain := firstTurn_plain _ _ (by decide +kernel)
  have hsecond : second.Plain := by
    intro res shared hstun
    cases hstun
  refine ⟨hfirst, by decide +kernel, (report_accepted_iff (by decide) (by decide) ?_ hsecond).1.mpr ⟨?_, ?_⟩⟩
  · rintro q hq
    rw [List.mem_singleton.mp hq]
    exact hfirst
  · decide +kernel
  · decide +kernel

end Thawr.Client.Discovery
