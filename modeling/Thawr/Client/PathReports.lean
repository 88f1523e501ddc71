/-
  Thawr.Client.PathReports — the path the daemon shows for a peer and the one its machine is on
  (`internal/client/paths.go`: `syncPaths`, `rankLocked`, `pathTick`).

  `pathTick` copies state and endpoint of a machine into the record of its path only when a
  step reports a change. A netmap with a new key for a peer puts a new machine, which is idle,
  under the old record. In a run without such a rotation of a path that is not shown as idle,
  every record is that of its machine. In every run each record is that of its machine, or the
  machine is an idle one that was put under it (`Kept`), and a tick makes all records right
  exactly when it finds a handshake or a wish to reach the peer for every such machine
  (`reports_match_iff`). A quiet tick after a key rotation leaves a path shown as direct that
  nobody probes (`a_rotated_peer_is_shown_direct`).
-/

import Thawr.Client.PathRuns

namespace Thawr.Client

open Go Netip Control.Path

/-! ## Loops that update each path -/

def updateAll (f : Str → PeerPath → PeerPath) (order : List (Σ _ : Str, PeerPath)) (paths : PathMap) : PathMap :=
  order.foldl (fun m x =>
    match m.lookup x.1 with
    | none => m
    | some pp => m.insert x.1 (f x.1 pp)) paths

/-- The loop of `pathTick`; `takeIntent` is what each sink answers, `fresh` the stats read again
    when the first step would re-add. -/
def tickPaths (now : Time) (stats fresh : Stats) (takeIntent : Str → Bool) (order : List (Σ _ : Str, PeerPath))
    (paths : PathMap) : PathMap :=
  updateAll (fun id pp => (stepPath now stats fresh (takeIntent id) pp).1) order paths

theorem rankLocked_eq (env : SyncEnv) (order : List (Σ _ : Str, PeerPath)) (paths : PathMap) :
    rankLocked env order paths = updateAll (fun _ pp => rankPath env pp) order paths := rfl

section

variable {f : Str → PeerPath → PeerPath} {order : List (Σ _ : Str, PeerPath)} {m : PathMap} {id : Str}

theorem updateAll_cons {x : Σ _ : Str, PeerPath} :
    updateAll f (x :: order) m = updateAll f order (updateAll f [x] m) := rfl

theorem lookup_updateOne {x : Σ _ : Str, PeerPath} :
    (updateAll f [x] m).lookup id = if x.1 = id then (m.lookup id).map (f id) else m.lookup id := by
  simp only [updateAll, List.foldl_cons, List.foldl_nil]
  by_cases he : x.1 = id
  · rw [if_pos he, he]
    cases hl : m.lookup id with
    | none => exact hl
    | some pp => exact Finmap.lookup_insert _
  · rw [if_neg he]
    cases hl : m.lookup x.1 with
    | none => rfl
    | some pp => exact Finmap.lookup_insert_of_ne _ (Ne.symm he)

theorem lookup_updateAll_of_notMem (h : id ∉ order.map (·.1)) : (updateAll f order m).lookup id = m.lookup id := by
  induction order generalizing m with
  | nil => rfl
  | cons x rest ih =>
    rw [List.map_cons, List.mem_cons, not_or] at h
    rw [updateAll_cons, ih h.2, lookup_updateOne, if_neg (Ne.symm h.1)]

/-- A path the loop visits once is changed once. -/
theorem lookup_updateAll (hnd : (order.map (·.1)).Nodup) (h : id ∈ order.map (·.1)) :
    (updateAll f order m).lookup id = (m.lookup id).map (f id) := by
  induction order generalizing m with
  | nil => cases h
  | cons x rest ih =>
    rw [List.map_cons, List.nodup_cons] at hnd
    rw [updateAll_cons]
    by_cases he : x.1 = id
    · rw [lookup_updateAll_of_notMem (he ▸ hnd.1), lookup_updateOne, if_pos he]
    · have hrest : id ∈ rest.map (·.1) := by
        rcases List.mem_cons.mp h with heq | h
        · exact absurd heq.symm he
        · exact h
      rw [ih hnd.2 hrest, lookup_updateOne, if_neg he]

/-- A loop over all paths changes each of them once. -/
theorem lookup_updateAll_ranges (ho : Ranges m order) : (updateAll f order m).lookup id = (m.lookup id).map (f id) := by
  have hnd : (order.map (·.1)).Nodup := by
    have hkeys := m.nodupKeys
    rw [← show (order : Multiset (Σ _ : Str, PeerPath)) = m.entries from ho] at hkeys
    exact Multiset.coe_nodupKeys.mp hkeys
  by_cases h : id ∈ order.map (·.1)
  · exact lookup_updateAll hnd h
  · have hnone : m.lookup id = none := by
      cases hl : m.lookup id with
      | none => rfl
      | some pp => exact absurd (List.mem_map.mpr ⟨_, (ho.mem_iff id pp).mpr hl, rfl⟩) h
    rw [lookup_updateAll_of_notMem h, hnone]
    rfl

/-- What holds of every path and is kept for each holds after the loop. -/
theorem updateAll_inv {P : Str → PeerPath → Prop} (hf : ∀ id pp, P id pp → P id (f id pp))
    (h : ∀ id pp, m.lookup id = some pp → P id pp) : ∀ id pp, (updateAll f order m).lookup id = some pp → P id pp := by
  refine loop_inv (I := fun _ (m : PathMap) => ∀ id pp, m.lookup id = some pp → P id pp) h ?_
  intro _ x m _ hm
  cases hl : m.lookup x.1 with
  | none => exact hm
  | some old =>
    intro id pp hpp
    rcases of_lookup_insert hpp with ⟨rfl, rfl⟩ | ⟨-, hpp⟩
    · exact hf _ _ (hm _ _ hl)
    · exact hm id pp hpp

end

/-! ## Records and machines -/

def PeerPath.Recorded (pp : PeerPath) : Prop := pp.state = pp.machine.state ∧ pp.endpoint = pp.machine.endpoint

instance (pp : PeerPath) : Decidable pp.Recorded := inferInstanceAs (Decidable (_ ∧ _))

def PeerPath.Quiet (pp : PeerPath) : Prop := pp.machine.state = .idle ∧ pp.machine.endpoint = AddrPort.zero

instance (pp : PeerPath) : Decidable pp.Quiet := inferInstanceAs (Decidable (_ ∧ _))

/-- The record is the machine's, or a new machine was put under it. -/
def PeerPath.Kept (pp : PeerPath) : Prop := pp.Recorded ∨ pp.Quiet

structure PeerPath.Same (pp qq : PeerPath) : Prop where
  state : qq.state = pp.state
  endpoint : qq.endpoint = pp.endpoint
  machineState : qq.machine.state = pp.machine.state
  machineEndpoint : qq.machine.endpoint = pp.machine.endpoint

section

variable {pp qq : PeerPath} {now : Time} {stats fresh : Stats} {takeIntent : Bool}

theorem PeerPath.Same.recorded_iff (h : pp.Same qq) : qq.Recorded ↔ pp.Recorded := by
  unfold PeerPath.Recorded
  rw [h.state, h.endpoint, h.machineState, h.machineEndpoint]

theorem PeerPath.Same.quiet_iff (h : pp.Same qq) : qq.Quiet ↔ pp.Quiet := by
  unfold PeerPath.Quiet
  rw [h.machineState, h.machineEndpoint]

theorem PeerPath.Same.kept (h : pp.Same qq) (hk : pp.Kept) : qq.Kept := hk.imp h.recorded_iff.mpr h.quiet_iff.mpr

theorem hold_path (m : Machine) (now : Time) : (m.hold now).state = m.state ∧ (m.hold now).endpoint = m.endpoint := by
  unfold Machine.hold
  split_ifs
  all_goals exact ⟨rfl, rfl⟩

theorem setCandidates_path (m : Machine) (list : List AddrPort) :
    (m.setCandidates list).state = m.state ∧ (m.setCandidates list).endpoint = m.endpoint := by
  unfold Machine.setCandidates
  split_ifs
  all_goals exact ⟨rfl, rfl⟩

theorem rankPath_same (env : SyncEnv) : pp.Same (rankPath env pp) :=
  ⟨rfl, rfl, (setCandidates_path _ _).1, (setCandidates_path _ _).2⟩

/-- A step that reports a change does not end in idle. -/
theorem step_changed_idle {m : Machine} {inp : Input} (h : (m.step inp).2.changed = true) : (m.step inp).1.state ≠ .idle := by
  cases m.step_outcome inp with
  | stays _ hstate hend =>
    rw [Machine.step_changed hstate hend] at h
    cases h
  | direct _ hstate =>
    rw [hstate]
    decide
  | tries _ hstate =>
    rw [hstate]
    decide
  | ends _ hstate =>
    rcases hstate with hstate | ⟨hstate, -⟩
    all_goals
      rw [hstate]
      decide

/-- A step records where the machine went, or leaves record and machine where they were. -/
theorem stepPath_record (now : Time) (stats fresh : Stats) (takeIntent : Bool) (pp : PeerPath) :
    ((stepPath now stats fresh takeIntent pp).1.Recorded ∧
        (stepPath now stats fresh takeIntent pp).1.machine.state ≠ .idle) ∨
      pp.Same (stepPath now stats fresh takeIntent pp).1 := by
  unfold stepPath
  simp only
  split_ifs with hback hchanged
  · exact .inr ⟨rfl, rfl, (hold_path _ _).1, (hold_path _ _).2⟩
  · exact .inl ⟨⟨rfl, rfl⟩, step_changed_idle hchanged⟩
  · -- not changed: state and endpoint are those before the step
    have hsame := Bool.or_eq_false_iff.mp (Bool.eq_false_iff.mpr hchanged)
    exact .inr ⟨rfl, rfl, not_not.mp (of_decide_eq_false hsame.1), not_not.mp (of_decide_eq_false hsame.2)⟩

/-- What takes an idle machine somewhere: a new handshake from a real address of the peer, or a
    wish to reach it that is not taken back because the peer got through in the meantime. -/
def PeerPath.Wakes (now : Time) (stats fresh : Stats) (takeIntent : Bool) (pp : PeerPath) : Prop :=
  (∃ s, stats.lookup pp.key = some s ∧ pp.machine.handshake < s.lastHandshake ∧
      s.endpoint.isValid = true ∧ s.endpoint.addr.isLoopback = false) ∨
    (pp.machine.wanted || takeIntent || pp.ping || pp.reach) = true ∧
      (pp.machine.candidates = [] ∧ pp.machine.opts.relay = false ∨
        ∀ s, fresh.lookup pp.key = some s → reachedSince s (inputFor now stats takeIntent pp) = false)

/-- The first round of an idle machine that is wanted. -/
theorem startRound_leaves (m : Machine) (now : Time) : (m.startRound now).1.state ≠ .idle ∧
    (readds (m.startRound now).2 = true ↔ ¬(m.candidates = [] ∧ m.opts.relay = false)) := by
  cases hc : m.candidates with
  | nil =>
    rw [Machine.startRound_nil hc]
    cases m.opts.relay with
    | true => simp [readds]
    | false => simp [readds]
  | cons c cs =>
    rw [Machine.startRound_cons hc]
    simp [readds]

section

variable {m : Machine} {inp : Input}

/-- What an idle machine does: it hears from the peer, starts a round or stays. -/
theorem react_idle (h : m.state = .idle) : (m.observe inp).react inp (decide (m.handshake < inp.handshake)) (m.joins inp) =
    if m.handshake < inp.handshake ∧ inp.endpoint.isValid = true then ((m.observe inp).direct inp.endpoint, none)
    else if (m.wanted || inp.intent || inp.reach) = true then Machine.acts ((m.observe inp).startRound inp.now)
    else (m.observe inp, none) := by
  have hobserved : (m.observe inp).state = .idle := h
  unfold Machine.react
  simp only [hobserved, decide_true, Bool.true_or, Bool.and_true, Bool.and_eq_true, decide_eq_true_eq]
  rfl

theorem step_leaves_iff (inp : Input) (h : m.state = .idle) : (m.step inp).1.state ≠ .idle ↔
    (m.handshake < inp.handshake ∧ inp.endpoint.isValid = true) ∨ (m.wanted || inp.intent || inp.reach) = true := by
  unfold Machine.step
  simp only [react_idle h]
  split_ifs with hheard hwanted
  · exact iff_of_true (show State.direct ≠ .idle by decide) (.inl hheard)
  · exact iff_of_true (startRound_leaves _ _).1 (.inr hwanted)
  · exact iff_of_false (not_not.mpr h) (not_or.mpr ⟨hheard, hwanted⟩)

theorem step_readds_iff (inp : Input) (h : m.state = .idle) : readds (m.step inp).2.action = true ↔
    ¬(m.handshake < inp.handshake ∧ inp.endpoint.isValid = true) ∧ (m.wanted || inp.intent || inp.reach) = true ∧
      ¬(m.candidates = [] ∧ m.opts.relay = false) := by
  have hfirst : readds (if m.started = true then Action.none else .sink) = false := by
    split
    all_goals rfl
  unfold Machine.step
  simp only [react_idle h]
  by_cases hheard : m.handshake < inp.handshake ∧ inp.endpoint.isValid = true
  · simp only [if_pos hheard, Option.getD_none, hfirst]
    exact iff_of_false Bool.false_ne_true fun h => h.1 hheard
  · by_cases hwanted : (m.wanted || inp.intent || inp.reach) = true
    · simp only [if_neg hheard, if_pos hwanted]
      exact (startRound_leaves _ _).2.trans ⟨fun h => ⟨hheard, hwanted, h⟩, fun h => h.2.2⟩
    · simp only [if_neg hheard, if_neg hwanted, Option.getD_none, hfirst]
      exact iff_of_false Bool.false_ne_true fun h => hwanted h.2.1

end

theorem inputFor_heard (now : Time) (stats : Stats) (takeIntent : Bool) (pp : PeerPath) :
    (pp.machine.handshake < (inputFor now stats takeIntent pp).handshake ∧
        (inputFor now stats takeIntent pp).endpoint.isValid = true) ↔
      ∃ s, stats.lookup pp.key = some s ∧ pp.machine.handshake < s.lastHandshake ∧
        s.endpoint.isValid = true ∧ s.endpoint.addr.isLoopback = false := by
  have hzero : AddrPort.zero.isValid = false := rfl
  unfold inputFor
  cases stats.lookup pp.key with
  | none => simp [hzero]
  | some s => cases hv : s.endpoint.isValid <;> cases hl : s.endpoint.addr.isLoopback <;> simp [hv, hl, hzero]

theorem inputFor_wanted (now : Time) (stats : Stats) (takeIntent : Bool) (pp : PeerPath) :
    (inputFor now stats takeIntent pp).intent = (takeIntent || pp.ping) ∧
      (inputFor now stats takeIntent pp).reach = pp.reach := by
  unfold inputFor
  cases stats.lookup pp.key with
  | none => exact ⟨rfl, rfl⟩
  | some s => exact ⟨rfl, rfl⟩

theorem stepPath_leaves_iff (h : pp.machine.state = .idle) :
    (stepPath now stats fresh takeIntent pp).1.machine.state ≠ .idle ↔ pp.Wakes now stats fresh takeIntent := by
  have hleaves := step_leaves_iff (inputFor now stats takeIntent pp) h
  have hreadds := step_readds_iff (inputFor now stats takeIntent pp) h
  obtain ⟨hintent, hreach⟩ := inputFor_wanted now stats takeIntent pp
  rw [inputFor_heard, hintent, hreach, ← Bool.or_assoc] at hleaves hreadds
  have hback : (fresh.lookup pp.key).any (reachedSince · (inputFor now stats takeIntent pp)) = false ↔
      ∀ s, fresh.lookup pp.key = some s → reachedSince s (inputFor now stats takeIntent pp) = false := by
    cases fresh.lookup pp.key with
    | none => simp
    | some s => simp
  unfold stepPath PeerPath.Wakes
  rw [← hback]
  simp only
  split_ifs with htaken hchanged
  · -- the step is taken back
    obtain ⟨hre, hany⟩ := Bool.and_eq_true_iff.mp htaken
    obtain ⟨hheard, -, hsome⟩ := hreadds.mp hre
    refine iff_of_false (not_not.mpr ((hold_path _ _).1.trans h)) ?_
    rintro (hin | ⟨-, hnone | hquiet⟩)
    · exact hheard hin
    · exact hsome hnone
    · rw [hany] at hquiet
      cases hquiet
  all_goals
    refine hleaves.trans ?_
    grind

/-- A record is right after a step if it was before, or if the machine under it wakes. -/
theorem stepPath_recorded_iff (h : pp.Kept) :
    (stepPath now stats fresh takeIntent pp).1.Recorded ↔ (pp.Recorded ∨ pp.Wakes now stats fresh takeIntent) := by
  by_cases hrec : pp.Recorded
  · refine iff_of_true ?_ (.inl hrec)
    rcases stepPath_record now stats fresh takeIntent pp with hr | hr
    · exact hr.1
    · exact hr.recorded_iff.mpr hrec
  · have hidle := (h.resolve_left hrec).1
    rw [← stepPath_leaves_iff hidle, or_iff_right hrec]
    rcases stepPath_record now stats fresh takeIntent pp with hr | hr
    · exact iff_of_true hr.1 hr.2
    · rw [hr.recorded_iff, hr.machineState]
      exact iff_of_false hrec (not_not.mpr hidle)

end

/-! ## What `syncPaths` does to a path -/

/-- The netmap has another key for the path. -/
def Rekeyed (nm : NetMap) (id : Str) (pp : PeerPath) : Prop :=
  ∃ p ∈ nm.peers, p.viaHub = false ∧ p.id = id ∧ (parseAddr p.ipv4).isSome = true ∧
    ∃ key, Wg.parseKey p.publicKey = some key ∧ key ≠ pp.key

/-- A path while a netmap is taken over: a new one is idle; one that was there keeps its record
    and, unless the netmap has another key for it, its machine. -/
def Synced (nm : NetMap) (paths : PathMap) (id : Str) (qq : PeerPath) : Prop :=
  (paths.lookup id = none ∧ qq.Recorded ∧ qq.Quiet) ∨
    ∃ pp, paths.lookup id = some pp ∧ qq.state = pp.state ∧ qq.endpoint = pp.endpoint ∧
      ((qq.key = pp.key ∧ pp.Same qq) ∨ (Rekeyed nm id pp ∧ qq.Quiet))

section

variable {env : SyncEnv} {cfg : Wg.Config} {nm : NetMap} {paths : PathMap} {order : List (Σ _ : Str, PeerPath)} {id : Str}
  {qq rr : PeerPath}

/-- Changes that touch neither record nor place of the machine nor key. -/
theorem Synced.same (h : Synced nm paths id qq) (hs : qq.Same rr) (hkey : rr.key = qq.key) : Synced nm paths id rr := by
  rcases h with ⟨hnew, hrec, hquiet⟩ | ⟨pp, hl, hst, hep, h⟩
  · exact .inl ⟨hnew, hs.recorded_iff.mpr hrec, hs.quiet_iff.mpr hquiet⟩
  · refine .inr ⟨pp, hl, hs.state.trans hst, hs.endpoint.trans hep, ?_⟩
    rcases h with ⟨hk, hsame⟩ | ⟨hre, hquiet⟩
    · exact .inl ⟨hkey.trans hk, hs.state.trans hst, hs.endpoint.trans hep, hs.machineState.trans hsame.machineState,
        hs.machineEndpoint.trans hsame.machineEndpoint⟩
    · exact .inr ⟨hre, hs.quiet_iff.mpr hquiet⟩

/-- An entry with another key starts the machine over and leaves the record. -/
theorem Synced.reset {p : Peer} {key : Wg.Key} {ip : Addr} (h : Synced nm paths p.id qq) (hp : p ∈ nm.peers)
    (hv : p.viaHub = false) (hk : Wg.parseKey p.publicKey = some key) (hi : parseAddr p.ipv4 = some ip) (hne : qq.key ≠ key)
    (hstate : rr.state = qq.state) (hend : rr.endpoint = qq.endpoint) (hquiet : rr.Quiet) : Synced nm paths p.id rr := by
  rcases h with ⟨hnew, hrec, hq⟩ | ⟨pp, hl, hst, hep, h⟩
  · refine .inl ⟨hnew, ⟨?_, ?_⟩, hquiet⟩
    · rw [hstate, hrec.1, hq.1, hquiet.1]
    · rw [hend, hrec.2, hq.2, hquiet.2]
  · refine .inr ⟨pp, hl, hstate.trans hst, hend.trans hep, .inr ⟨?_, hquiet⟩⟩
    rcases h with ⟨hkey, -⟩ | ⟨hre, -⟩
    · exact ⟨p, hp, hv, rfl, by rw [hi]; rfl, key, hk, fun he => hne (hkey.trans he.symm)⟩
    · exact hre

structure SyncLoop (nm : NetMap) (paths : PathMap) (s : Sync) : Prop where
  synced : ∀ id qq, s.paths.lookup id = some qq → Synced nm paths id qq
  found : ∀ id, s.paths.lookup id = none → paths.lookup id = none

theorem SyncLoop.insert {s : Sync} (h : SyncLoop nm paths s) (hq : Synced nm paths id qq) (seen : List Str) :
    SyncLoop nm paths ⟨s.paths.insert id qq, seen⟩ := by
  constructor
  · intro id' rr hl
    rcases of_lookup_insert hl with ⟨rfl, rfl⟩ | ⟨-, hl⟩
    · exact hq
    · exact h.synced id' rr hl
  · intro id' hl
    by_cases he : id' = id
    · rw [he, Finmap.lookup_insert] at hl
      cases hl
    · rw [Finmap.lookup_insert_of_ne _ he] at hl
      exact h.found id' hl

theorem syncEntry_loop {s : Sync} {x : Peer × Nat} (hx : x.1 ∈ nm.peers) (h : SyncLoop nm paths s) :
    SyncLoop nm paths (syncEntry env cfg s x) := by
  unfold syncEntry
  by_cases hv : x.1.viaHub = true
  · simp only [if_pos hv]
    exact h
  · simp only [if_neg hv]
    have hv' : x.1.viaHub = false := Bool.eq_false_iff.mpr hv
    cases hk : Wg.parseKey x.1.publicKey with
    | none => exact h
    | some key =>
      cases hi : parseAddr x.1.ipv4 with
      | none => exact h
      | some ip =>
        cases hl : s.paths.lookup x.1.id with
        | none =>
          cases hs : env.sink x.2 with
          | none => exact ⟨h.synced, h.found⟩
          | some sink => exact h.insert (.inl ⟨h.found _ hl, ⟨rfl, rfl⟩, ⟨rfl, rfl⟩⟩) _
        | some pp =>
          have hpp := h.synced _ pp hl
          by_cases hne : pp.key = key
          · refine h.insert ?_ _
            simp only [hne, ne_eq, not_true_eq_false, decide_false, Bool.false_eq_true, if_false]
            exact hpp.same ⟨rfl, rfl, rfl, rfl⟩ hne.symm
          · refine h.insert ?_ _
            simp only [ne_eq, hne, not_false_eq_true, decide_true, if_true]
            exact hpp.reset hx hv' hk hi hne rfl rfl ⟨rfl, rfl⟩

theorem syncPaths_synced (ho : (syncPaths env order cfg nm paths).lookup id = some qq) : Synced nm paths id qq := by
  have hloop : SyncLoop nm paths (syncEntries env cfg nm paths) := by
    refine loop_inv (I := fun _ s => SyncLoop nm paths s) ?_ ?_
    · refine ⟨fun id qq hl => .inr ⟨qq, hl, rfl, rfl, .inl ⟨rfl, rfl, rfl, rfl, rfl⟩⟩, fun id hl => hl⟩
    · intro _ x s hx h
      exact syncEntry_loop (List.fst_mem_of_mem_zipIdx hx) h
  unfold syncPaths at ho
  rw [rankLocked_eq] at ho
  refine updateAll_inv (fun id pp hp => hp.same (rankPath_same env) rfl) ?_ id qq ho
  intro id pp hl
  exact hloop.synced id pp (Paths.lookup_dropUnseen hl).1

end

/-! ## Runs -/

namespace PathReports

inductive Ev where
  | sync (env : SyncEnv) (order : List (Σ _ : Str, PeerPath)) (cfg : Wg.Config) (nm : NetMap)
  /-- The device's own addresses changed. -/
  | rank (env : SyncEnv) (order : List (Σ _ : Str, PeerPath))
  | ping (id : Str)
  /-- A tick that found the device open. -/
  | tick (now : Time) (stats fresh : Stats) (takeIntent : Str → Bool) (order : List (Σ _ : Str, PeerPath))
  | closeSinks

/-- What an event makes of `Daemon.paths`; each holds `pmu`. `opts` are the daemon's path
    options. -/
def next (opts : Options) (paths : PathMap) : Ev → Option PathMap
  | .sync env order cfg nm =>
    if Ranges (syncEntries { env with opts := opts } cfg nm paths).paths order then
      some (syncPaths { env with opts := opts } order cfg nm paths)
    else none
  | .rank env order => if Ranges paths order then some (rankLocked env order paths) else none
  | .ping id => (paths.lookup id).map fun pp => paths.insert id { pp with ping := true }
  | .tick now stats fresh takeIntent order =>
    if Ranges paths order then some (tickPaths now stats fresh takeIntent order paths) else none
  | .closeSinks => some ∅

def Start (paths : PathMap) : Prop := paths = ∅

/-- A netmap has another key for a path that is shown elsewhere than idle. -/
def Rotates (paths : PathMap) (e : Ev) (id : Str) : Prop :=
  ∃ env order cfg nm pp, e = .sync env order cfg nm ∧ paths.lookup id = some pp ∧ Rekeyed nm id pp ∧
    ¬(pp.state = .idle ∧ pp.endpoint = AddrPort.zero)

def Unrotated (paths : PathMap) (e : Ev) : Prop := ∀ id, ¬Rotates paths e id

section

variable {opts : Options} {paths paths' : PathMap} {e : Ev} {id : Str} {qq : PeerPath}

/-- A path after an event: one with its machine's record, such as that of a new peer or of a
    machine that went somewhere; one that kept record and place; or that of a re-keyed peer. -/
inductive Effect (paths : PathMap) (e : Ev) (id : Str) (qq : PeerPath) : Prop where
  | recorded : qq.Recorded → Effect paths e id qq
  | kept {pp : PeerPath} : paths.lookup id = some pp → pp.Same qq → Effect paths e id qq
  | rotated : qq.Quiet → Rotates paths e id → Effect paths e id qq

theorem next_effect (hs : next opts paths e = some paths') (hl : paths'.lookup id = some qq) : Effect paths e id qq := by
  cases e with
  | sync env order cfg nm =>
    obtain ⟨-, rfl⟩ := Option.ite_some_none_eq_some.mp hs
    rcases syncPaths_synced hl with ⟨-, hrec, -⟩ | ⟨pp, hpp, hst, hep, ⟨-, hsame⟩ | ⟨hre, hquiet⟩⟩
    · exact .recorded hrec
    · exact .kept hpp hsame
    · by_cases hidle : pp.state = .idle ∧ pp.endpoint = AddrPort.zero
      · exact .recorded ⟨by rw [hst, hidle.1, hquiet.1], by rw [hep, hidle.2, hquiet.2]⟩
      · exact .rotated hquiet ⟨env, order, cfg, nm, pp, rfl, hpp, hre, hidle⟩
  | rank env order =>
    obtain ⟨ho, rfl⟩ := Option.ite_some_none_eq_some.mp hs
    rw [rankLocked_eq, lookup_updateAll_ranges ho] at hl
    obtain ⟨pp, hpp, rfl⟩ := Option.map_eq_some_iff.mp hl
    exact .kept hpp (rankPath_same env)
  | ping n =>
    obtain ⟨old, hold, rfl⟩ := Option.map_eq_some_iff.mp hs
    rcases of_lookup_insert hl with ⟨rfl, rfl⟩ | ⟨-, hl⟩
    · exact .kept hold ⟨rfl, rfl, rfl, rfl⟩
    · exact .kept hl ⟨rfl, rfl, rfl, rfl⟩
  | tick now stats fresh takeIntent order =>
    obtain ⟨ho, rfl⟩ := Option.ite_some_none_eq_some.mp hs
    rw [tickPaths, lookup_updateAll_ranges ho] at hl
    obtain ⟨pp, hpp, rfl⟩ := Option.map_eq_some_iff.mp hl
    rcases stepPath_record now stats fresh (takeIntent id) pp with hr | hr
    · exact .recorded hr.1
    · exact .kept hpp hr
  | closeSinks =>
    cases hs
    rw [Finmap.lookup_empty] at hl
    cases hl

/-- In every run each record is its machine's or lies over a new machine. -/
theorem reach_kept (h : Conc.Reach Start (next opts) Conc.Always paths) : ∀ id pp, paths.lookup id = some pp → pp.Kept := by
  refine h.inv (I := fun paths => ∀ id pp, paths.lookup id = some pp → pp.Kept) ?_ ?_
  · rintro _ rfl id pp hl
    rw [Finmap.lookup_empty] at hl
    cases hl
  · intro paths e paths' hi _ hs id qq hl
    cases next_effect hs hl with
    | recorded hrec => exact .inl hrec
    | kept hpp hsame => exact hsame.kept (hi id _ hpp)
    | rotated hquiet _ => exact .inr hquiet

/-- A record stops being its machine's only when a netmap brings another key for a path that is
    shown elsewhere than idle. -/
theorem unrecorded_of_rotation (hs : next opts paths e = some paths') (hl : paths'.lookup id = some qq) (hn : ¬qq.Recorded) :
    (∃ pp, paths.lookup id = some pp ∧ ¬pp.Recorded) ∨ Rotates paths e id := by
  cases next_effect hs hl with
  | recorded hrec => exact absurd hrec hn
  | kept hpp hsame => exact .inl ⟨_, hpp, fun hrec => hn (hsame.recorded_iff.mpr hrec)⟩
  | rotated _ h => exact .inr h

theorem unrotated_recorded (h : Conc.Reach Start (next opts) Unrotated paths) :
    ∀ id pp, paths.lookup id = some pp → pp.Recorded := by
  refine h.inv (I := fun paths => ∀ id pp, paths.lookup id = some pp → pp.Recorded) ?_ ?_
  · rintro _ rfl id pp hl
    rw [Finmap.lookup_empty] at hl
    cases hl
  · intro paths e paths' hi hok hs id qq hl
    by_contra hn
    rcases unrecorded_of_rotation hs hl hn with ⟨pp, hpp, hold⟩ | hrot
    · exact hold (hi id pp hpp)
    · exact hok id hrot

theorem tick_recorded_iff (h : Conc.Reach Start (next opts) Conc.Always paths) {now : Time} {stats fresh : Stats}
    {takeIntent : Str → Bool} {order : List (Σ _ : Str, PeerPath)}
    (hs : next opts paths (.tick now stats fresh takeIntent order) = some paths') :
    (∀ id pp, paths'.lookup id = some pp → pp.Recorded) ↔
      ∀ id pp, paths.lookup id = some pp → ¬pp.Recorded → pp.Wakes now stats fresh (takeIntent id) := by
  have hkept := reach_kept h
  obtain ⟨ho, rfl⟩ := Option.ite_some_none_eq_some.mp hs
  have hlook : ∀ id, (tickPaths now stats fresh takeIntent order paths).lookup id =
      (paths.lookup id).map fun pp => (stepPath now stats fresh (takeIntent id) pp).1 := fun id => lookup_updateAll_ranges ho
  constructor
  · intro hall id pp hl hn
    have hrec := hall id _ (by rw [hlook, hl]; rfl)
    exact ((stepPath_recorded_iff (hkept id pp hl)).mp hrec).resolve_left hn
  · intro hleave id qq hl
    rw [hlook] at hl
    obtain ⟨pp, hpp, rfl⟩ := Option.map_eq_some_iff.mp hl
    refine (stepPath_recorded_iff (hkept id pp hpp)).mpr ?_
    by_cases hrec : pp.Recorded
    · exact .inl hrec
    · exact .inr (hleave id pp hpp hrec)

end

/-- In every run of netmaps, new addresses, pings and ticks: without a netmap that brings another
    key for a path shown elsewhere than idle, every tick leaves every record that of its
    machine; and a tick of any run does so exactly when each machine under another record
    wakes. -/
theorem reports_match_iff (opts : Options) :
    (∀ paths now stats fresh takeIntent order paths', Conc.Reach Start (next opts) Unrotated paths →
      next opts paths (.tick now stats fresh takeIntent order) = some paths' →
      ∀ id pp, paths'.lookup id = some pp → pp.Recorded) ∧
    ∀ paths now stats fresh takeIntent order paths', Conc.Reach Start (next opts) Conc.Always paths →
      next opts paths (.tick now stats fresh takeIntent order) = some paths' →
      ((∀ id pp, paths'.lookup id = some pp → pp.Recorded) ↔
        ∀ id pp, paths.lookup id = some pp → ¬pp.Recorded → pp.Wakes now stats fresh (takeIntent id)) := by
  refine ⟨fun paths now stats fresh takeIntent order paths' h hs => unrotated_recorded (.step _ h ?_ hs),
    fun paths now stats fresh takeIntent order paths' h hs => tick_recorded_iff h hs⟩
  rintro id ⟨_, _, _, _, _, he, -⟩
  cases he

/-! ## A rotated key and a quiet tick -/

def onKey (n : Nat) : NetMap :=
  { selfIPv4 := str "10.0.0.1"
    peers := [{ id := str "p", name := str "pc", publicKey := Wg.keyString (keyNo n), ipv4 := str "10.0.0.7" }] }

def visit (paths : PathMap) : List (Σ _ : Str, PeerPath) := (paths.lookup (str "p")).toList.map fun pp => ⟨str "p", pp⟩

def syncOn (n : Nat) (paths : PathMap) : Ev :=
  .sync Paths.sinkEnv (visit (syncEntries Paths.sinkEnv (configOf n) (onKey n) paths).paths) (configOf n) (onKey n)

def tickAt (now : Time) (stats : Stats) (paths : PathMap) : Ev := .tick now stats ∅ (fun _ => false) (visit paths)

def after (paths : PathMap) (e : Ev) : PathMap := Conc.after (next {}) paths [e]

def reached7 : Stats := statsByKey [{ publicKey := keyNo 7, endpoint := wan, lastHandshake := second }]

def directPaths : PathMap := after (after ∅ (syncOn 7 ∅)) (tickAt (2 * second) reached7 (after ∅ (syncOn 7 ∅)))

def rotatedPaths : PathMap := after directPaths (syncOn 8 directPaths)

theorem reach_after {ok : PathMap → Ev → Prop} {paths : PathMap} {e : Ev} (h : Conc.Reach Start (next {}) ok paths)
    (hok : ok paths e)
    (hr : (Conc.run (next {}) paths [e]).isSome = true) : Conc.Reach Start (next {}) ok (after paths e) := h.after_one e hok hr

theorem directPaths_reach : Conc.Reach Start (next {}) Conc.Always directPaths :=
  reach_after (reach_after (.start rfl) trivial (by decide +kernel)) trivial (by decide +kernel)

theorem directPaths_unrotated : Conc.Reach Start (next {}) Unrotated directPaths := by
  refine reach_after (reach_after (.start rfl) ?_ (by decide +kernel)) ?_ (by decide +kernel)
  · rintro id ⟨_, _, _, _, pp, -, hl, -⟩
    rw [Finmap.lookup_empty] at hl
    cases hl
  · rintro id ⟨_, _, _, _, _, he, -⟩
    cases he

theorem rotatedPaths_reach : Conc.Reach Start (next {}) Conc.Always rotatedPaths :=
  reach_after directPaths_reach trivial (by decide +kernel)

/-- After a tick in which nothing happens the path is still shown as direct, and its machine is
    idle. -/
theorem a_rotated_peer_is_shown_direct :
    let paths := after rotatedPaths (tickAt (3 * second) ∅ rotatedPaths)
    Conc.Reach Start (next {}) Conc.Always rotatedPaths ∧
      next {} rotatedPaths (tickAt (3 * second) ∅ rotatedPaths) = some paths ∧
      ((paths.lookup (str "p")).map fun pp => (pp.state, pp.endpoint, pp.machine.state, pp.machine.endpoint)) =
        some (.direct, wan, .idle, AddrPort.zero) := by
  refine ⟨rotatedPaths_reach, by decide +kernel, by decide +kernel⟩

def wantedTick : Ev := .tick (3 * second) ∅ ∅ (fun _ => true) (visit rotatedPaths)

/-- A tick after the path became direct keeps its record right, and a tick that finds traffic
    for the new machine makes it right. -/
theorem a_direct_path_is_shown : (let paths := after directPaths (tickAt (3 * second) reached7 directPaths);
      ((paths.lookup (str "p")).map fun pp => (pp.state, pp.machine.state)) = some (.direct, .direct) ∧
        ∀ id pp, paths.lookup id = some pp → pp.Recorded) ∧
    let paths := after rotatedPaths wantedTick;
    ((paths.lookup (str "p")).map fun pp => (pp.state, pp.machine.state)) = some (.unreachable, .unreachable) ∧
      ∀ id pp, paths.lookup id = some pp → pp.Recorded := by
  have hs : next {} directPaths (tickAt (3 * second) reached7 directPaths) =
      some (after directPaths (tickAt (3 * second) reached7 directPaths)) := by decide +kernel
  have hw : next {} rotatedPaths wantedTick = some (after rotatedPaths wantedTick) := by decide +kernel
  refine ⟨⟨by decide +kernel, (reports_match_iff {}).1 _ _ _ _ _ _ _ directPaths_unrotated hs⟩, by decide +kernel,
    ((reports_match_iff {}).2 _ _ _ _ _ _ _ rotatedPaths_reach hw).mpr fun id pp hl _ => .inr ⟨by simp, .inr fun s hf => ?_⟩⟩
  rw [Finmap.lookup_empty] at hf
  cases hf

end PathReports

end Thawr.Client
