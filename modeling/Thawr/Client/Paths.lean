/-
  Thawr.Client.Paths — the path prober of the daemon (`internal/client/paths.go`) and the
  device it shares with `applyLocked`.

  `syncPaths` makes the per-peer state of a netmap; `pathTick` steps every machine and points
  peers at their sinks, candidates or relays. Both hold `pmu`. The device is written under
  `devMu`, by `Configure` in `applyLocked` and by `setPeerEndpoint` in a tick. Nothing is held
  from `Configure` to `syncPaths`. Relay proxies are not modelled: what a proxy answers is an
  input of the step that asks for it.

  Proved: when every peer a tick writes between `Configure` and `syncPaths` is in the new
  configuration with the AllowedIPs written, the device holds exactly the configuration once
  the netmap is applied (`applied_device_matches`). A tick that writes a peer the netmap
  removed puts it back, and nothing takes it off again (`a_tick_restores_a_removed_peer`).
-/

import Thawr.Client.Daemon
import Thawr.Conc.Runs
import Thawr.Control.Path.Machine

namespace Thawr.Client

open Go Netip Control.Path

structure PeerPath where
  id : Str
  name : Str := []
  key : Wg.Key := Arr.zero 32
  ipv4 : Addr := .zero
  /-- The allowed IPs and keepalive from the netmap. -/
  peer : Wg.Peer := ⟨Arr.zero 32, AddrPort.zero, [], 0⟩
  cands : List Control.Endpoint := []
  symmetric : Bool := false
  machine : Machine
  sink : AddrPort
  ping : Bool := false
  /-- A new reach request from the peer, not yet stepped. -/
  reach : Bool := false
  wanted : Bool := false
  wantSeq : UInt64 := 0
  steps : Nat := 0
  state : Control.Path.State := .idle
  endpoint : AddrPort := AddrPort.zero
  deriving DecidableEq

abbrev PathMap := GoMap Str PeerPath

/-! ## `syncPaths` -/

structure SyncEnv where
  opts : Options := {}
  /-- This device's public key. -/
  self : Wg.Key := Arr.zero 32
  /-- What `newSink` gives for the i-th entry. -/
  sink : Nat → Option AddrPort := fun _ => none
  selfAddrs : List Addr := []
  selfSymmetric : Bool := false

def byKey (cfg : Wg.Config) (key : Wg.Key) : Wg.Peer := (cfg.peerFor key).getD ⟨Arr.zero 32, AddrPort.zero, [], 0⟩

/-- A reach request is new when its number changed, or for a server without numbers when the
    flag did, or when the machine is new. -/
def newReach (p : Peer) (pp : PeerPath) (reset : Bool) : Bool :=
  p.wanted && (reset || (p.wantSeq != 0 && p.wantSeq != pp.wantSeq) || (p.wantSeq == 0 && !pp.wanted))

def refresh (env : SyncEnv) (cfg : Wg.Config) (p : Peer) (key : Wg.Key) (ip : Addr) (reset : Bool) (pp : PeerPath) : PeerPath :=
  { pp with
    name := p.name, key := key, ipv4 := ip, peer := byKey cfg key
    machine := pp.machine.setStagger (decide (key.bytes < env.self.bytes))
    cands := p.candidates, symmetric := p.symmetric
    reach := pp.reach || newReach p pp reset, wanted := p.wanted, wantSeq := p.wantSeq }

structure Sync where
  paths : PathMap
  seen : List Str := []

def syncEntry (env : SyncEnv) (cfg : Wg.Config) (s : Sync) (x : Peer × Nat) : Sync :=
  let p := x.1
  if p.viaHub then s
  else
    match Wg.parseKey p.publicKey, parseAddr p.ipv4 with
    | some key, some ip =>
      let seen := p.id :: s.seen
      match s.paths.lookup p.id with
      | none =>
        match env.sink x.2 with
        | none => { s with seen := seen }
        | some sink =>
          let pp : PeerPath := { id := p.id, machine := .new env.opts, sink := sink }
          ⟨s.paths.insert p.id (refresh env cfg p key ip true pp), seen⟩
      | some pp =>
        -- key rotation: the session is gone, start over
        let reset := decide (pp.key ≠ key)
        let pp := if reset then { pp with machine := .new env.opts } else pp
        ⟨s.paths.insert p.id (refresh env cfg p key ip reset pp), seen⟩
    | _, _ => s

def syncEntries (env : SyncEnv) (cfg : Wg.Config) (nm : NetMap) (paths : PathMap) : Sync :=
  nm.peers.zipIdx.foldl (syncEntry env cfg) { paths := paths }

/-- The loop over the paths that drops those of no entry; `order` is the order it takes. -/
def dropUnseen (seen : List Str) (order : List (Σ _ : Str, PeerPath)) (paths : PathMap) : PathMap :=
  order.foldl (fun m x => if seen.contains x.1 then m else m.erase x.1) paths

def rankLocked (env : SyncEnv) (order : List (Σ _ : Str, PeerPath)) (paths : PathMap) : PathMap :=
  order.foldl (fun m x =>
    match m.lookup x.1 with
    | none => m
    | some pp =>
      m.insert x.1 { pp with
        machine := pp.machine.setCandidates (Control.Path.order env.selfAddrs pp.cands env.selfSymmetric pp.symmetric) }) paths

def syncPaths (env : SyncEnv) (order : List (Σ _ : Str, PeerPath)) (cfg : Wg.Config) (nm : NetMap) (paths : PathMap) : PathMap :=
  let s := syncEntries env cfg nm paths
  rankLocked env order (dropUnseen s.seen order s.paths)

/-! ## `pathTick` -/

abbrev Stats := GoMap Wg.Key Wg.PeerStats

def statsByKey (list : List Wg.PeerStats) : Stats := list.foldl (fun m s => m.insert s.publicKey s) ∅

/-- What the machine is told; a loopback endpoint is the peer's own sink or relay proxy. -/
def inputFor (now : Time) (stats : Stats) (takeIntent : Bool) (pp : PeerPath) : Input :=
  let inp : Input := { now := now, intent := takeIntent || pp.ping, reach := pp.reach }
  match stats.lookup pp.key with
  | none => inp
  | some s =>
    { inp with
      handshake := s.lastHandshake, rx := s.rxBytes, tx := s.txBytes
      endpoint := if s.endpoint.isValid && !s.endpoint.addr.isLoopback then s.endpoint else AddrPort.zero }

def reachedSince (s : Wg.PeerStats) (inp : Input) : Bool :=
  decide (inp.handshake < s.lastHandshake) ||
    (s.endpoint.isValid && !s.endpoint.addr.isLoopback && s.endpoint != inp.endpoint) || decide (inp.rx < s.rxBytes)

def readds (a : Action) : Bool := a == .probe || a == .relay

/-- One machine's step. A re-add that would throw away a session the peer just opened is taken
    back: the machine stays where it was and its window starts over. -/
def stepPath (now : Time) (stats fresh : Stats) (takeIntent : Bool) (pp : PeerPath) : PeerPath × Output :=
  let inp := inputFor now stats takeIntent pp
  let r := pp.machine.step inp
  if readds r.2.action && (fresh.lookup pp.key).any (reachedSince · inp) then
    ({ pp with machine := pp.machine.hold now, ping := inp.intent, reach := inp.reach, steps := pp.steps + 1 },
      { state := pp.machine.state, endpoint := pp.machine.endpoint, action := .none })
  else
    let pp := { pp with machine := r.1, ping := false, reach := false, steps := pp.steps + 1 }
    (if r.2.changed then { pp with state := r.2.state, endpoint := r.2.endpoint } else pp, r.2)

structure Write where
  key : Wg.Key
  ipv4 : Addr
  peer : Wg.Peer
  endpoint : AddrPort
  readd : Bool
  deriving DecidableEq

def PeerPath.write (pp : PeerPath) (ep : AddrPort) (readd : Bool) : Write := ⟨pp.key, pp.ipv4, pp.peer, ep, readd⟩

/-- What the output's action writes; `relay` is the proxy's endpoint, `none` when there is no
    proxy to be had. -/
def writeFor (relay : Option AddrPort) (pp : PeerPath) (out : Output) : Option Write :=
  match out.action with
  | .none => none
  | .sink => some (pp.write pp.sink false)
  | .relay =>
    match relay with
    | none => some (pp.write pp.sink false)
    | some ep => some (pp.write ep true)
  | .probe => some (pp.write out.endpoint true)

def Write.allowedIPs (w : Write) : List Prefix := if w.peer.allowedIPs = [] then [prefixFrom w.ipv4 32] else w.peer.allowedIPs

def setPeerEndpoint (dev : Wg.Device) (w : Write) : Wg.Device :=
  Wg.setPeer (if w.readd then Wg.removePeer dev w.key else dev)
    { w.peer with publicKey := w.key, endpoint := w.endpoint, allowedIPs := w.allowedIPs }

namespace Paths

/-! ## One `applyLocked` and the ticks -/

structure Job where
  nm : NetMap
  cfg : Wg.Config
  built : ∃ resolve key port overlay exitNodeID, buildConfigWith resolve nm key port overlay exitNodeID = .ok cfg

/-- How far `applyLocked` has come since it built the configuration. -/
inductive Phase where
  | ready
  | configured
  | routed
  | filtered
  | published
  | done
  deriving DecidableEq

/-- A tick that holds `pmu`: what it read, and the paths still to step. -/
structure Tick where
  now : Time
  stats : Stats
  /-- The stats read again, once a step would re-add. -/
  fresh : Option Stats := none
  todo : List Str
  deriving DecidableEq

/-- The path loop runs one tick at a time. -/
inductive TickPhase where
  | idle
  | read (now : Time) (stats : Stats)
  | stepping (t : Tick)
  /-- A machine was stepped and `devMu` is about to be taken. -/
  | writing (w : Write) (t : Tick)
  deriving DecidableEq

def TickPhase.holdsPmu : TickPhase → Bool
  | .stepping _ => true
  | .writing _ _ => true
  | _ => false

structure St where
  dev : Wg.Device
  paths : PathMap
  netmap : Option NetMap
  phase : Phase := .ready
  tick : TickPhase := .idle

inductive Ev where
  | configure
  | installRoutes
  | installFilter
  | publish
  | syncPaths (env : SyncEnv) (order : List (Σ _ : Str, PeerPath))
  | readStats (now : Time) (list : List Wg.PeerStats)
  | takePmu (order : List (Σ _ : Str, PeerPath))
  | stepPath (takeIntent : Bool) (reread : List Wg.PeerStats) (relay : Option AddrPort)
  | write
  | endTick

def stepNext (s : St) (t : Tick) (takeIntent : Bool) (reread : List Wg.PeerStats) (relay : Option AddrPort) : Option St :=
  match t.todo with
  | [] => none
  | id :: todo =>
    match s.paths.lookup id with
    | none => none
    | some pp =>
      let fresh := t.fresh.getD (statsByKey reread)
      let r := Client.stepPath t.now t.stats fresh takeIntent pp
      -- the re-read happens once, when the first step would re-add
      let t' := { t with
        fresh := if readds (pp.machine.step (inputFor t.now t.stats takeIntent pp)).2.action then some fresh else t.fresh
        todo := todo }
      some { s with
        paths := s.paths.insert id r.1
        tick := match writeFor relay r.1 r.2 with
          | none => .stepping t'
          | some w => .writing w t' }

/-- One step of the two goroutines; `none` when the event cannot happen. -/
def next (j : Job) (s : St) : Ev → Option St
  | .configure => if s.phase = .ready then some { s with dev := Wg.configure s.dev j.cfg, phase := .configured } else none
  | .installRoutes => if s.phase = .configured then some { s with phase := .routed } else none
  | .installFilter => if s.phase = .routed then some { s with phase := .filtered } else none
  | .publish => if s.phase = .filtered then some { s with netmap := some j.nm, phase := .published } else none
  | .syncPaths env order =>
    if s.phase = .published ∧ s.tick.holdsPmu = false ∧ Ranges (syncEntries env j.cfg j.nm s.paths).paths order then
      some { s with paths := Client.syncPaths env order j.cfg j.nm s.paths, phase := .done }
    else none
  | .readStats now list =>
    match s.tick with
    | .idle => some { s with tick := .read now (statsByKey list) }
    | _ => none
  | .takePmu order =>
    match s.tick with
    | .read now stats =>
      if Ranges s.paths order then some { s with tick := .stepping { now := now, stats := stats, todo := order.map (·.1) } }
      else none
    | _ => none
  | .stepPath takeIntent reread relay =>
    match s.tick with
    | .stepping t => stepNext s t takeIntent reread relay
    | _ => none
  | .write =>
    match s.tick with
    | .writing w t => some { s with dev := setPeerEndpoint s.dev w, tick := .stepping t }
    | _ => none
  | .endTick =>
    match s.tick with
    | .stepping t => if t.todo = [] then some { s with tick := .idle } else none
    | _ => none

/-- The device holds exactly the peers of the configuration, each with its AllowedIPs. -/
def Installed (cfg : Wg.Config) (dev : Wg.Device) : Prop :=
  ∀ key, (dev.lookup key).map (·.allowedIPs) = (cfg.peerFor key).map (·.allowedIPs)

/-- An entry of the netmap with an address has this key, and the configuration this peer for
    it. -/
def Listed (j : Job) (key : Wg.Key) (peer : Wg.Peer) : Prop :=
  (∃ p ∈ j.nm.peers, p.viaHub = false ∧ Wg.parseKey p.publicKey = some key ∧ (parseAddr p.ipv4).isSome = true) ∧
    j.cfg.peerFor key = some peer

/-- Every path is of an entry of the netmap and has the configuration's peer for its key. -/
def PathsOf (j : Job) (paths : PathMap) : Prop := ∀ id pp, paths.lookup id = some pp → Listed j pp.key pp.peer

structure Start (s : St) : Prop where
  ready : s.phase = .ready
  idle : s.tick = .idle
  previous : ∃ prev : Job, s.netmap = some prev.nm ∧ Installed prev.cfg s.dev ∧ PathsOf prev s.paths

abbrev Reach (j : Job) (ok : St → Ev → Prop) : St → Prop := Conc.Reach Start (next j) ok

/-- `Configure` has run and `syncPaths` has not. -/
def Phase.between : Phase → Bool
  | .ready => false
  | .done => false
  | _ => true

/-- A peer written between `Configure` and `syncPaths` is in the new configuration with the
    AllowedIPs written. -/
def Agrees (j : Job) (s : St) : Ev → Prop
  | .write => s.phase.between = true → ∀ w t, s.tick = .writing w t →
      (j.cfg.peerFor w.key).map (·.allowedIPs) = some w.allowedIPs
  | _ => True

section

variable {j : Job}

/-! ## Where paths come from -/

theorem peerFor_of_mem {cfg : Wg.Config} {w : Wg.Peer} (h : w ∈ cfg.peers) : ∃ v, cfg.peerFor w.publicKey = some v := by
  unfold Wg.Config.peerFor
  rw [← Option.isSome_iff_exists, List.find?_isSome]
  exact ⟨w, List.mem_reverse.mpr h, by simp⟩

theorem listed_entry {p : Peer} {key : Wg.Key} {ip : Addr} (hp : p ∈ j.nm.peers) (hv : p.viaHub = false)
    (hk : Wg.parseKey p.publicKey = some key) (hi : parseAddr p.ipv4 = some ip) : Listed j key (byKey j.cfg key) := by
  obtain ⟨_, _, _, _, _, hb⟩ := j.built
  obtain ⟨w, hw, hwk⟩ := (buildConfigWith_keys hb key).mpr (.inr ⟨p, hp, hv, hk⟩)
  obtain ⟨v, hv'⟩ := peerFor_of_mem hw
  rw [hwk] at hv'
  refine ⟨⟨p, hp, hv, hk, by rw [hi]; rfl⟩, ?_⟩
  unfold byKey
  rw [hv']
  rfl

/-- The entries seen have paths of the netmap; those of other ids are the old ones. -/
def SeenListed (j : Job) (s : Sync) : Prop :=
  ∀ id ∈ s.seen, ∀ pp, s.paths.lookup id = some pp → Listed j pp.key pp.peer

variable {pp : PeerPath} {env : SyncEnv} {order : List (Σ _ : Str, PeerPath)} {s : St}

theorem SeenListed.insert {s : Sync} (h : SeenListed j s) {id : Str} (hl : Listed j pp.key pp.peer) :
    SeenListed j ⟨s.paths.insert id pp, id :: s.seen⟩ := by
  intro id' hid pp' hpp
  rcases of_lookup_insert hpp with ⟨-, rfl⟩ | ⟨he, hpp⟩
  · exact hl
  · exact h id' ((List.mem_cons.mp hid).resolve_left he) pp' hpp

theorem syncEntry_seen {s : Sync} {x : Peer × Nat} (hx : x.1 ∈ j.nm.peers) (h : SeenListed j s) :
    SeenListed j (syncEntry env j.cfg s x) := by
  unfold syncEntry
  simp only
  by_cases hv : x.1.viaHub = true
  · rw [if_pos hv]
    exact h
  · rw [if_neg hv]
    cases hk : Wg.parseKey x.1.publicKey with
    | none => exact h
    | some key =>
      cases hi : parseAddr x.1.ipv4 with
      | none => exact h
      | some ip =>
        have hl : Listed j key (byKey j.cfg key) := listed_entry hx (by simpa using hv) hk hi
        simp only
        cases hp : s.paths.lookup x.1.id with
        | some pp => exact h.insert hl
        | none =>
          cases hs : env.sink x.2 with
          | some sink => exact h.insert hl
          | none =>
            -- no sink: the id counts as seen and has no path
            intro id hid pp hpp
            rcases List.mem_cons.mp hid with rfl | hid
            · rw [show _ = none from hp] at hpp
              cases hpp
            · exact h id hid pp hpp

theorem syncEntries_seen (env : SyncEnv) (paths : PathMap) : SeenListed j (syncEntries env j.cfg j.nm paths) := by
  refine loop_inv (I := fun _ s => SeenListed j s) ?_ ?_
  · intro id hid
    cases hid
  · intro _ x s hx h
    exact syncEntry_seen (List.fst_mem_of_mem_zipIdx hx) h

theorem lookup_dropUnseen {seen : List Str} {m : PathMap} {id : Str}
    (h : (dropUnseen seen order m).lookup id = some pp) :
    m.lookup id = some pp ∧ (id ∈ seen ∨ ∀ x ∈ order, x.1 ≠ id) := by
  unfold dropUnseen at h
  induction order generalizing m with
  | nil => exact ⟨h, .inr fun x hx => absurd hx List.not_mem_nil⟩
  | cons x rest ih =>
    rw [List.foldl_cons] at h
    by_cases hx : seen.contains x.1 = true
    · grind
    · rw [if_neg hx] at h
      obtain ⟨hl, hs⟩ := ih h
      have hne : x.1 ≠ id := by
        rintro rfl
        rw [Finmap.lookup_erase] at hl
        cases hl
      rw [Finmap.lookup_erase_ne hne.symm] at hl
      exact ⟨hl, hs.imp_right fun hr => List.forall_mem_cons.mpr ⟨hne, hr⟩⟩

theorem PathsOf.insert {paths : PathMap} (h : PathsOf j paths) {id : Str} (hl : Listed j pp.key pp.peer) :
    PathsOf j (paths.insert id pp) := by
  intro id' pp' hpp
  rcases of_lookup_insert hpp with ⟨-, rfl⟩ | ⟨-, hpp⟩
  · exact hl
  · exact h id' pp' hpp

theorem rankLocked_paths {m : PathMap} (h : PathsOf j m) :
    PathsOf j (rankLocked env order m) := by
  refine loop_inv (I := fun _ m => PathsOf j m) h ?_
  intro _ x m _ hm
  cases hl : m.lookup x.1 with
  | none => exact hm
  | some pp => exact hm.insert (hm x.1 pp hl)

/-- After `syncPaths` every path is of an entry of the netmap. -/
theorem syncPaths_paths {paths : PathMap}
    (ho : Ranges (syncEntries env j.cfg j.nm paths).paths order) :
    PathsOf j (Client.syncPaths env order j.cfg j.nm paths) := by
  refine rankLocked_paths fun id pp hpp => ?_
  obtain ⟨hl, hs⟩ := lookup_dropUnseen hpp
  rcases hs with hs | hnone
  · exact syncEntries_seen env paths id hs pp hl
  · exact absurd rfl (hnone _ ((ho.mem_iff id pp).mpr hl))

/-! ## What a tick writes -/

theorem stepPath_key (now : Time) (stats fresh : Stats) (takeIntent : Bool) (pp : PeerPath) :
    (Client.stepPath now stats fresh takeIntent pp).1.key = pp.key ∧
      (Client.stepPath now stats fresh takeIntent pp).1.peer = pp.peer := by
  unfold Client.stepPath
  simp only
  split
  · exact ⟨rfl, rfl⟩
  · split <;> exact ⟨rfl, rfl⟩

theorem writeFor_key {relay : Option AddrPort} {out : Output} {w : Write}
    (h : writeFor relay pp out = some w) : w.key = pp.key ∧ w.peer = pp.peer := by
  unfold writeFor at h
  split at h
  · cases h
  · cases h
    exact ⟨rfl, rfl⟩
  · split at h <;> (cases h; exact ⟨rfl, rfl⟩)
  · cases h
    exact ⟨rfl, rfl⟩

theorem lookup_setPeerEndpoint (dev : Wg.Device) (w : Write) (key : Wg.Key) :
    ((setPeerEndpoint dev w).lookup key).map (·.allowedIPs) =
      if key = w.key then some w.allowedIPs else (dev.lookup key).map (·.allowedIPs) := by
  unfold setPeerEndpoint Wg.setPeer Wg.removePeer
  by_cases hk : key = w.key
  · subst hk
    simp
  · rw [if_neg hk, Finmap.lookup_insert_of_ne _ hk]
    split
    · rw [Finmap.lookup_erase_ne hk]
    · rfl

/-- Writing a peer the configuration has, with its AllowedIPs, changes neither. -/
theorem Installed.write {cfg : Wg.Config} {dev : Wg.Device} (h : Installed cfg dev) {w : Write}
    (hw : (cfg.peerFor w.key).map (·.allowedIPs) = some w.allowedIPs) : Installed cfg (setPeerEndpoint dev w) := by
  intro key
  rw [lookup_setPeerEndpoint]
  by_cases hk : key = w.key
  · rw [if_pos hk, hk, hw]
  · rw [if_neg hk]
    exact h key

theorem installed_configure (cfg : Wg.Config) (dev : Wg.Device) : Installed cfg (Wg.configure dev cfg) := by
  intro key
  rw [Wg.lookup_configure, Option.map_map]
  simp only [Function.comp_def, Wg.keepEndpoint_allowedIPs]

/-- An entry has an address or prefixes of its own when another of its key has an address. -/
def Addressed (nm : NetMap) : Prop :=
  ∀ p ∈ nm.peers, ∀ q ∈ nm.peers, p.viaHub = false → q.viaHub = false →
    Wg.parseKey p.publicKey = Wg.parseKey q.publicKey → (parseAddr p.ipv4).isSome = true →
    q.allowedIPs ≠ [] ∨ (parseAddr q.ipv4).isSome = true

theorem parsePrefixes_ne_nil {l : List Str} {ps : List Prefix} (h : parsePrefixes l = .ok ps) (hl : l ≠ []) : ps ≠ [] := by
  cases l with
  | nil => exact absurd rfl hl
  | cons a rest =>
    unfold parsePrefixes at h
    split at h
    · cases h
    · obtain ⟨qs, -, rfl⟩ := map_ok.mp h
      exact List.cons_ne_nil _ _

theorem buildPeer_allowedIPs {exitNodeID : Str} {v6 : Bool} {p : Peer} {w : Wg.Peer}
    (h : buildPeer exitNodeID v6 p = .ok w) (ha : p.allowedIPs ≠ [] ∨ (parseAddr p.ipv4).isSome = true) :
    w.allowedIPs ≠ [] := by
  obtain ⟨-, ips, hi, hw⟩ := buildPeer_ok h
  rw [hw]
  refine List.append_ne_nil_of_left_ne_nil ?_ _
  unfold ownPrefixes
  by_cases hn : ips = []
  · have hsome := ha.resolve_left fun hl => parsePrefixes_ne_nil hi hl hn
    obtain ⟨ip, hip⟩ := Option.isSome_iff_exists.mp hsome
    simp [hip, hn]
  · split
    · rw [if_neg hn]
      exact hn
    · exact hn

/-- The peer of a listed key is one of an entry, never the hub's, and has AllowedIPs. -/
theorem Listed.allowedIPs (ha : Addressed j.nm) {key : Wg.Key} {peer : Wg.Peer} (hl : Listed j key peer) :
    peer.allowedIPs ≠ [] := by
  obtain ⟨_, _, _, _, exitNodeID, hb⟩ := j.built
  obtain ⟨hub, ws, -, hp, hcfg, -⟩ := buildConfigWith_ok hb
  obtain ⟨⟨p, hpm, hpv, hpk, hpa⟩, hfind⟩ := hl
  obtain ⟨w, hw, hwk⟩ := (buildPeers_keys hp key).mpr ⟨p, hpm, hpv, hpk⟩
  unfold Wg.Config.peerFor at hfind
  rw [hcfg, List.reverse_append, List.find?_append] at hfind
  obtain ⟨v, hv⟩ : ∃ v, ws.reverse.find? (·.publicKey == key) = some v := by
    rw [← Option.isSome_iff_exists, List.find?_isSome]
    exact ⟨w, List.mem_reverse.mpr hw, by simp [hwk]⟩
  rw [hv, Option.some_or] at hfind
  cases hfind
  have hkey : peer.publicKey = key := by simpa using List.find?_some hv
  obtain ⟨q, hqm, hqv, hqb⟩ := (buildPeers_mem hp).1 peer (List.mem_reverse.mp (List.mem_of_find?_eq_some hv))
  have hsame : Wg.parseKey p.publicKey = Wg.parseKey q.publicKey := by rw [hpk, buildPeer_key hqb, hkey]
  exact buildPeer_allowedIPs hqb (ha p hpm q hqm hpv hqv hsame hpa)

/-! ## The device after the netmap is applied -/

structure Inv (j : Job) (s : St) : Prop where
  installed : s.phase ≠ .ready → Installed j.cfg s.dev
  paths : s.phase = .done → PathsOf j s.paths
  writing : s.phase = .done → ∀ w t, s.tick = .writing w t → Listed j w.key w.peer

/-- Before `syncPaths` only the device counts. -/
theorem inv_of_not_done (hn : s.phase ≠ .done) (h : s.phase ≠ .ready → Installed j.cfg s.dev) : Inv j s :=
  ⟨h, fun hd => absurd hd hn, fun hd => absurd hd hn⟩

theorem Start.inv (h : Start s) : Inv j s :=
  inv_of_not_done (by rw [h.ready]; decide) fun hn => absurd h.ready hn

theorem stepNext_inv {s' : St} {t : Tick} {takeIntent : Bool} {reread : List Wg.PeerStats} {relay : Option AddrPort}
    (hi : Inv j s) (h : stepNext s t takeIntent reread relay = some s') : Inv j s' := by
  unfold stepNext at h
  split at h
  · cases h
  · rename_i id todo _
    cases hl : s.paths.lookup id with
    | none => rw [hl] at h; cases h
    | some pp =>
      rw [hl] at h
      cases h
      obtain ⟨hk, hp⟩ := stepPath_key t.now t.stats (t.fresh.getD (statsByKey reread)) takeIntent pp
      refine ⟨hi.installed, fun hd => ?_, fun hd w t' hw => ?_⟩
      · refine (hi.paths hd).insert ?_
        rw [hk, hp]
        exact hi.paths hd id pp hl
      · simp only at hw
        split at hw
        · cases hw
        · rename_i w' hwrite
          cases hw
          obtain ⟨hwk, hwp⟩ := writeFor_key hwrite
          rw [hwk, hwp, hk, hp]
          exact hi.paths hd id pp hl

theorem next_inv {s' : St} {e : Ev} (ha : Addressed j.nm) (hi : Inv j s) (hok : Agrees j s e) (h : next j s e = some s') :
    Inv j s' := by
  cases e with
  | configure =>
    obtain ⟨-, rfl⟩ := Option.ite_some_none_eq_some.mp h
    exact inv_of_not_done (by simp) fun _ => installed_configure _ _
  | installRoutes =>
    obtain ⟨hp, rfl⟩ := Option.ite_some_none_eq_some.mp h
    exact inv_of_not_done (by simp) fun _ => hi.installed (by rw [hp]; decide)
  | installFilter =>
    obtain ⟨hp, rfl⟩ := Option.ite_some_none_eq_some.mp h
    exact inv_of_not_done (by simp) fun _ => hi.installed (by rw [hp]; decide)
  | publish =>
    obtain ⟨hp, rfl⟩ := Option.ite_some_none_eq_some.mp h
    exact inv_of_not_done (by simp) fun _ => hi.installed (by rw [hp]; decide)
  | syncPaths env order =>
    obtain ⟨⟨hp, hfree, hranges⟩, rfl⟩ := Option.ite_some_none_eq_some.mp h
    refine ⟨fun _ => hi.installed (by rw [hp]; decide), fun _ => syncPaths_paths hranges, fun _ w t hw => ?_⟩
    -- the tick does not hold `pmu`, so it writes nothing now
    rw [show s.tick = .writing w t from hw] at hfree
    cases hfree
  | readStats now list =>
    simp only [next] at h
    split at h
    · cases h
      exact ⟨hi.installed, hi.paths, fun _ _ _ hw => nomatch hw⟩
    · cases h
  | takePmu order =>
    simp only [next] at h
    split at h
    · split at h
      · cases h
        exact ⟨hi.installed, hi.paths, fun _ _ _ hw => nomatch hw⟩
      · cases h
    · cases h
  | stepPath takeIntent reread relay =>
    simp only [next] at h
    split at h
    · exact stepNext_inv hi h
    · cases h
  | write =>
    simp only [next] at h
    split at h
    · rename_i w t ht
      cases h
      refine ⟨fun hn => (hi.installed hn).write ?_, hi.paths, fun _ _ _ hw => nomatch hw⟩
      by_cases hd : s.phase = .done
      · have hl := hi.writing hd w t ht
        unfold Write.allowedIPs
        rw [if_neg (hl.allowedIPs ha), hl.2]
        rfl
      · refine hok ?_ w t ht
        have hn' : s.phase ≠ .ready := hn
        revert hd hn'
        cases s.phase <;> simp [Phase.between]
    · cases h
  | endTick =>
    simp only [next] at h
    split at h
    · split at h
      · cases h
        exact ⟨hi.installed, hi.paths, fun _ _ _ hw => nomatch hw⟩
      · cases h
    · cases h

/-- Once the netmap is applied the device holds exactly its configuration, in every run whose
    writes between `Configure` and `syncPaths` agree with it. -/
theorem applied_device_matches {s : St} (ha : Addressed j.nm) (h : Reach j (Agrees j) s) (hd : s.phase = .done) :
    Installed j.cfg s.dev := by
  have hi : Inv j s := h.inv (fun _ hs => hs.inv) fun _ _ _ hi hok hs => next_inv ha hi hok hs
  exact hi.installed (by rw [hd]; decide)

end

/-! ## A tick between `Configure` and `syncPaths` -/

def after (j : Job) : St → List Ev → St := Conc.after (next j)

def onePeer : NetMap :=
  { selfIPv4 := str "10.0.0.1"
    peers := [{ id := str "p", name := str "pc", publicKey := Wg.keyString (keyNo 7), ipv4 := str "10.0.0.7" }] }

def noPeer : NetMap := { selfIPv4 := str "10.0.0.1" }

def overlay8 : Prefix := prefixFrom (.v4 (Arr.zero 4)) 8

def onePeerJob : Job := ⟨onePeer, configOf 7, fun _ => none, Arr.zero 32, 0, overlay8, [], by decide +kernel⟩

def noPeerJob : Job :=
  ⟨noPeer, { configOf 7 with peers := [] }, fun _ => none, Arr.zero 32, 0, overlay8, [], by decide +kernel⟩

def sinkEnv : SyncEnv := { sink := fun _ => some ⟨.v4 (Arr.ofNat 4 0x7f000001), 9⟩ }

def onePath : PathMap := (syncEntries sinkEnv (configOf 7) onePeer ∅).paths

def path7 : PeerPath := (onePath.lookup (str "p")).getD { id := [], machine := .new {}, sink := AddrPort.zero }

def applied7 : St :=
  { dev := Wg.configure ∅ (configOf 7), paths := Client.syncPaths sinkEnv [⟨str "p", path7⟩] (configOf 7) onePeer ∅
    netmap := some onePeer }

theorem applied7_start : Start applied7 := by
  refine ⟨rfl, rfl, onePeerJob, rfl, installed_configure _ _, ?_⟩
  exact syncPaths_paths (j := onePeerJob) (by decide +kernel)

/-- The path before and after its first step, which points the peer at its sink. -/
def path7Ranked : PeerPath := (applied7.paths.lookup (str "p")).getD path7

def path7Stepped : PeerPath := (stepPath 1 ∅ ∅ false path7Ranked).1

def tick7 : List Ev := [.readStats 1 [], .takePmu [⟨str "p", path7Ranked⟩], .stepPath false [] none]

def restOfApply : List Ev := [.installRoutes, .installFilter, .publish, .syncPaths sinkEnv [⟨str "p", path7Stepped⟩]]

/-- The tick has stepped the path and writes it before `Configure`. -/
def earlyWrite : St := after noPeerJob (after noPeerJob applied7 tick7) [.write]

theorem earlyWrite_reach : Reach noPeerJob (Agrees noPeerJob) earlyWrite := by
  have htick : Reach noPeerJob (Agrees noPeerJob) (after noPeerJob applied7 tick7) := by
    refine (Conc.Reach.start applied7_start).after ?_ (by decide +kernel)
    intro e he t
    simp only [tick7, List.mem_cons, List.not_mem_nil, or_false] at he
    rcases he with rfl | rfl | rfl <;> trivial
  refine htick.after_one .write ?_ (by decide +kernel)
  intro hb
  have hready : (after noPeerJob applied7 tick7).phase.between = false := by decide +kernel
  rw [hready] at hb
  cases hb

/-- Then the peer is gone once the netmap is applied. -/
theorem an_early_write_is_undone :
    let s := after noPeerJob earlyWrite ([.endTick, .configure] ++ restOfApply)
    s.phase = .done ∧ s.dev.lookup (keyNo 7) = none ∧ Installed noPeerJob.cfg s.dev := by
  intro s
  have hd : s.phase = .done := by decide +kernel
  refine ⟨hd, by decide +kernel, applied_device_matches (fun p hp => absurd hp List.not_mem_nil) ?_ hd⟩
  refine earlyWrite_reach.after ?_ (by decide +kernel)
  intro e he t
  simp only [restOfApply, List.cons_append, List.nil_append, List.mem_cons, List.not_mem_nil, or_false] at he
  rcases he with rfl | rfl | rfl | rfl | rfl | rfl <;> trivial

/-- The tick writes after `Configure`: the peer the netmap removed is on the device, and
    stays there. -/
theorem a_tick_restores_a_removed_peer :
    let s := after noPeerJob applied7 (tick7 ++ [.configure, .write, .endTick] ++ restOfApply)
    Start applied7 ∧ Reach noPeerJob (fun _ _ => True) s ∧ s.phase = .done ∧ s.tick = .idle ∧
      noPeerJob.cfg.peers = [] ∧ s.paths.lookup (str "p") = none ∧
      (s.dev.lookup (keyNo 7)).map (·.allowedIPs) = some [prefixFrom (.v4 (Arr.ofNat 4 0x0a000007)) 32] ∧
      ¬Installed noPeerJob.cfg s.dev := by
  intro s
  have hdev : (s.dev.lookup (keyNo 7)).map (·.allowedIPs) = some [prefixFrom (.v4 (Arr.ofNat 4 0x0a000007)) 32] := by
    decide +kernel
  refine ⟨applied7_start, (Conc.Reach.start applied7_start).after (fun _ _ _ => trivial) (by decide +kernel), by decide +kernel,
    by decide +kernel, rfl, by decide +kernel, hdev, fun h => ?_⟩
  have hkey := h (keyNo 7)
  rw [hdev] at hkey
  cases hkey

end Paths

end Thawr.Client
