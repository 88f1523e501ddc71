/-
  Thawr.Client.PathRuns — the path of one peer over netmaps and ticks
  (`internal/client/paths.go`: `syncPaths`, `rankLocked`, `pathTick`), with the relay enabled.

  A path becomes direct when the device shows an address of the peer that is not loopback: a
  handshake through the peer's own relay proxy, whose endpoint is loopback, neither makes the
  path direct nor releases the proxy (`direct_only_at_an_address`). That holds as long as no
  tick finds a newer handshake without such an address while a full round probes. The machine
  takes that one for the answer of the candidate being tried, although after a round that
  started from the relay the proxy is still there to bring it
  (`relayed_handshake_makes_direct`).
-/

import Thawr.Client.Paths
import Thawr.Control.Path.Moves

namespace Thawr.Client

open Go Netip Control.Path

/-- What `syncPaths` makes of the path an entry has: a new key starts the machine over. -/
def syncPath (env : SyncEnv) (cfg : Wg.Config) (p : Peer) (key : Wg.Key) (ip : Addr) (pp : PeerPath) : PeerPath :=
  refresh env cfg p key ip (decide (pp.key ≠ key)) (if pp.key ≠ key then { pp with machine := .new env.opts } else pp)

def rankPath (env : SyncEnv) (pp : PeerPath) : PeerPath :=
  { pp with machine := pp.machine.setCandidates (order env.selfAddrs pp.cands env.selfSymmetric pp.symmetric) }

/-- A tick lets go of the peer's relay proxy when the path settles anywhere but on the relay. -/
def releases (out : Output) : Bool := out.changed && decide (out.state ≠ .relay) && decide (out.state ≠ .probing)

namespace OnePath

structure St where
  path : PeerPath
  /-- The last time shown. -/
  clock : Time

inductive Ev where
  | sync (env : SyncEnv) (cfg : Wg.Config) (p : Peer) (key : Wg.Key) (ip : Addr)
  | rank (env : SyncEnv)
  | ping
  | tick (now : Time) (stats fresh : Stats) (takeIntent : Bool)

def next (opts : Options) (s : St) : Ev → Option St
  | .sync env cfg p key ip => some { s with path := syncPath { env with opts := opts } cfg p key ip s.path }
  | .rank env => some { s with path := rankPath env s.path }
  | .ping => some { s with path := { s.path with ping := true } }
  | .tick now stats fresh takeIntent =>
    if s.clock ≤ now then some ⟨(stepPath now stats fresh takeIntent s.path).1, now⟩ else none

def Start (opts : Options) (s : St) : Prop := s.path.machine = .new opts

/-- No tick finds a newer handshake without an address of the peer while a full round
    probes. -/
def answersShowAddress (s : St) : Ev → Bool
  | .tick now stats _ takeIntent =>
    let inp := inputFor now stats takeIntent s.path
    !(decide (s.path.machine.state = .probing ∧ s.path.machine.fromRelay = false ∧ s.path.machine.Advanced inp) &&
      !inp.endpoint.isValid)
  | _ => true

def Addressed (stats : Stats) (key : Wg.Key) : Prop :=
  ∃ st, stats.lookup key = some st ∧ st.endpoint.isValid = true ∧ st.endpoint.addr.isLoopback = false

section

variable {s s' : St} {opts : Options} {now : Time} {stats fresh : Stats} {takeIntent : Bool}

/-- The machine is told an endpoint only if it is such an address. -/
theorem addressed_of_valid {pp : PeerPath} (h : (inputFor now stats takeIntent pp).endpoint.isValid = true) :
    Addressed stats pp.key := by
  unfold inputFor at h
  cases hs : stats.lookup pp.key with
  | none =>
    rw [hs] at h
    cases h
  | some st =>
    rw [hs] at h
    simp only at h
    split_ifs at h with hv
    · rw [Bool.and_eq_true, Bool.not_eq_true'] at hv
      exact ⟨st, hs, hv.1, hv.2⟩
    · cases h

structure Relayed (m : Machine) : Prop where
  relay : m.opts.relay = true
  state : m.state ≠ .unreachable

theorem Relayed.step {m : Machine} (h : Relayed m) (inp : Input) : Relayed (m.step inp).1 := by
  refine ⟨by rw [(m.step_frame inp).1]; exact h.relay, ?_⟩
  cases m.step_outcome inp with
  | stays _ hstate =>
    rw [hstate]
    exact h.state
  | direct _ hstate =>
    rw [hstate]
    decide
  | tries _ hstate =>
    rw [hstate]
    decide
  | ends _ hstate =>
    rcases hstate with hstate | ⟨-, hoff⟩
    · rw [hstate]
      decide
    · rw [h.relay] at hoff
      cases hoff

/-- A step is taken, or taken back. -/
theorem stepPath_cases (now : Time) (stats fresh : Stats) (takeIntent : Bool) (pp : PeerPath) :
    ((stepPath now stats fresh takeIntent pp).1.machine = pp.machine.hold now ∧
        (stepPath now stats fresh takeIntent pp).2.changed = false) ∨
      ((stepPath now stats fresh takeIntent pp).1.machine = (pp.machine.step (inputFor now stats takeIntent pp)).1 ∧
        (stepPath now stats fresh takeIntent pp).2 = (pp.machine.step (inputFor now stats takeIntent pp)).2) := by
  unfold stepPath
  grind

theorem hold_state (m : Machine) (now : Time) : (m.hold now).state = m.state ∧ (m.hold now).opts = m.opts := by
  unfold Machine.hold
  split_ifs
  all_goals exact ⟨rfl, rfl⟩

theorem setCandidates_state (m : Machine) (list : List AddrPort) :
    (m.setCandidates list).state = m.state ∧ (m.setCandidates list).opts = m.opts := by
  unfold Machine.setCandidates
  split_ifs
  all_goals exact ⟨rfl, rfl⟩

theorem Start.relayed (hrelay : opts.relay = true) (h : Start opts s) : Relayed s.path.machine := by
  rw [h]
  exact ⟨hrelay, by simp [Machine.new]⟩

theorem Relayed.of_eq {m m' : Machine} (h : Relayed m) (heq : m'.state = m.state ∧ m'.opts = m.opts) : Relayed m' :=
  ⟨by rw [heq.2]; exact h.relay, by rw [heq.1]; exact h.state⟩

theorem Relayed.next {e : Ev} (hrelay : opts.relay = true) (h : Relayed s.path.machine) (hs : next opts s e = some s') :
    Relayed s'.path.machine := by
  cases e with
  | sync env cfg p key ip =>
    cases hs
    unfold syncPath refresh
    split_ifs
    · exact ⟨hrelay, by simp [Machine.setStagger, Machine.new]⟩
    · exact h.of_eq ⟨rfl, rfl⟩
  | rank env =>
    cases hs
    exact h.of_eq (setCandidates_state _ _)
  | ping =>
    cases hs
    exact h
  | tick now stats fresh takeIntent =>
    unfold OnePath.next at hs
    simp only at hs
    split_ifs at hs
    cases hs
    rcases stepPath_cases now stats fresh takeIntent s.path with ⟨hm, -⟩ | ⟨hm, -⟩
    · rw [hm]
      exact h.of_eq (hold_state _ _)
    · rw [hm]
      exact h.step _

/-- A step into direct, or one that changes where direct is, was told an address, or a full
    round took a handshake without one for its answer. -/
theorem addressed_of_direct {pp : PeerPath}
    (hok : ¬((pp.machine.state = .probing ∧ pp.machine.fromRelay = false ∧
      pp.machine.Advanced (inputFor now stats takeIntent pp)) ∧ (inputFor now stats takeIntent pp).endpoint.isValid = false))
    (hstate : (pp.machine.step (inputFor now stats takeIntent pp)).1.state = .direct)
    (hmoved : (pp.machine.step (inputFor now stats takeIntent pp)).2.changed = true) : Addressed stats pp.key := by
  cases pp.machine.step_outcome (inputFor now stats takeIntent pp) with
  | stays _ hkept hend =>
    rw [Machine.step_changed hkept hend] at hmoved
    cases hmoved
  | direct _ _ hend hadv =>
    rcases hend with ⟨-, hv⟩ | ⟨-, hp, hf, hinv⟩
    · exact addressed_of_valid hv
    · exact absurd ⟨⟨hp, hf, hadv⟩, hinv⟩ hok
  | tries _ h => cases h.symm.trans hstate
  | ends _ h =>
    rcases h with h | ⟨h, -⟩
    all_goals cases h.symm.trans hstate

theorem step_changed_of_state {m : Machine} {inp : Input} (h : (m.step inp).1.state ≠ m.state) :
    (m.step inp).2.changed = true := by
  rw [show (m.step inp).2.changed =
    (decide ((m.step inp).1.state ≠ m.state) || decide ((m.step inp).1.endpoint ≠ m.endpoint)) from rfl, decide_eq_true h,
    Bool.true_or]

/-- With the relay on a step that settles anywhere but on the relay settles on a direct
    path. -/
theorem Relayed.settled {m : Machine} {inp : Input} (h : Relayed m) (hch : (m.step inp).2.changed = true)
    (hnr : (m.step inp).2.state ≠ .relay) (hnp : (m.step inp).2.state ≠ .probing) : (m.step inp).1.state = .direct := by
  cases m.step_outcome inp with
  | stays _ hkept hend =>
    rw [Machine.step_changed hkept hend] at hch
    cases hch
  | direct _ hstate => exact hstate
  | tries _ hstate => exact absurd hstate hnp
  | ends _ hstate =>
    rcases hstate with hstate | ⟨-, hoff⟩
    · exact absurd hstate hnr
    · rw [h.relay] at hoff
      cases hoff

/-- In every run with the relay on whose ticks meet the condition: a tick that moves the
    machine into direct read an address of the peer that is not loopback, and so did one that
    releases the relay proxy. -/
theorem direct_only_at_an_address (hrelay : opts.relay = true)
    (h : Conc.Reach (Start opts) (next opts) (Conc.Holds answersShowAddress) s)
    (hok : answersShowAddress s (.tick now stats fresh takeIntent) = true)
    (hs : next opts s (.tick now stats fresh takeIntent) = some s') :
    (s.path.machine.state ≠ .direct → s'.path.machine.state = .direct → Addressed stats s.path.key) ∧
      (releases (stepPath now stats fresh takeIntent s.path).2 = true → Addressed stats s.path.key) := by
  have hr : Relayed s.path.machine :=
    h.inv (I := fun s => Relayed s.path.machine) (fun _ hst => hst.relayed hrelay) (fun _ _ _ hi _ hs => hi.next hrelay hs)
  have hs' : s'.path = (stepPath now stats fresh takeIntent s.path).1 := by
    unfold next at hs
    simp only at hs
    split_ifs at hs
    cases hs
    rfl
  have hok' : ¬((s.path.machine.state = .probing ∧ s.path.machine.fromRelay = false ∧
      s.path.machine.Advanced (inputFor now stats takeIntent s.path)) ∧
        (inputFor now stats takeIntent s.path).endpoint.isValid = false) := by
    rintro ⟨⟨hp, hf, hadv⟩, hinv⟩
    simp [answersShowAddress, hp, hf, hadv, hinv] at hok
  rw [hs']
  rcases stepPath_cases now stats fresh takeIntent s.path with ⟨hm, hout⟩ | ⟨hm, hout⟩
  · rw [hm, (hold_state _ _).1]
    refine ⟨fun hne heq => absurd heq hne, ?_⟩
    intro hrel
    simp [releases, hout] at hrel
  · rw [hm, hout]
    refine ⟨fun hne heq => addressed_of_direct hok' heq (step_changed_of_state (by rw [heq]; exact hne.symm)), ?_⟩
    intro hrel
    simp only [releases, Bool.and_eq_true, decide_eq_true_eq] at hrel
    obtain ⟨⟨hch, hnr⟩, hnp⟩ := hrel
    exact addressed_of_direct hok' (hr.settled hch hnr hnp) hch

/-! ## A handshake through the proxy -/

/-- A netmap entry with one candidate; `wantSeq` counts the peer's reach requests. -/
def entryWith (wantSeq : UInt64) : Peer :=
  { id := str "p", endpoints := [⟨str "198.51.100.7:41641", str "stable"⟩], wanted := decide (wantSeq ≠ 0), wantSeq := wantSeq }

/-- The device shows a handshake at 133 s, from the given address. -/
def shows (ep : AddrPort) : Stats := statsByKey [{ publicKey := Arr.zero 32, endpoint := ep, lastHandshake := 133 * second }]

def proxy : AddrPort := ⟨.v4 ⟨[127, 0, 0, 1], rfl⟩, 51000⟩

def freshPath : St := ⟨{ id := str "p", machine := .new { relay := true }, sink := AddrPort.zero }, 0⟩

/-- The candidate is probed at 100 s and given up for the relay at 102 s; at 132 s the peer asks
    for a round, which probes the candidate again. -/
def roundFromRelay : List Ev :=
  [.sync {} (configOf 7) (entryWith 0) (Arr.zero 32) .zero, .rank {}, .tick (100 * second) ∅ ∅ true,
    .tick (102 * second) ∅ ∅ false, .sync {} (configOf 7) (entryWith 1) (Arr.zero 32) .zero, .tick (132 * second) ∅ ∅ false]

theorem direct_only_at_an_address_remote : ∃ s s',
    Conc.run (Conc.guarded answersShowAddress (next { relay := true })) freshPath roundFromRelay = some s ∧
    next { relay := true } s (.tick (133 * second) (shows wan) ∅ false) = some s' ∧
    s'.path.machine.state = .direct ∧ Addressed (shows wan) s.path.key := by
  obtain ⟨s, hs, hfacts⟩ := Option.map_eq_some_iff.mp (show
    (Conc.run (Conc.guarded answersShowAddress (next { relay := true })) freshPath roundFromRelay).map (fun s =>
      (decide (s.path.machine.state ≠ .direct ∧
        answersShowAddress s (.tick (133 * second) (shows wan) ∅ false) = true),
        (next { relay := true } s (.tick (133 * second) (shows wan) ∅ false)).map fun s' => s'.path.machine.state)) =
      some (true, some .direct) by decide +kernel)
  obtain ⟨s', hs', hd⟩ := Option.map_eq_some_iff.mp (congrArg Prod.snd hfacts)
  obtain ⟨hne, hok⟩ := of_decide_eq_true (congrArg Prod.fst hfacts)
  have hreach := (Conc.Reach.start (show Start { relay := true } freshPath from rfl)).run_guarded _ hs
  exact ⟨s, s', hs, hs', hd, (direct_only_at_an_address rfl hreach hok hs').1 hne hd⟩

/-- The round that started from the relay takes a handshake through the proxy for the answer of
    its candidate: the path is direct, and the proxy is released. -/
theorem relayed_handshake_makes_direct : ∃ s s', Conc.Reach (Start { relay := true }) (next { relay := true }) Conc.Always s ∧
    next { relay := true } s (.tick (133 * second) (shows proxy) ∅ false) = some s' ∧
    s.path.machine.state ≠ .direct ∧ s'.path.machine.state = .direct ∧
    releases (stepPath (133 * second) (shows proxy) ∅ false s.path).2 = true ∧
    ¬Addressed (shows proxy) s.path.key := by
  obtain ⟨s, hs, hfacts⟩ := Option.map_eq_some_iff.mp (show
    (Conc.run (next { relay := true }) freshPath roundFromRelay).map (fun s =>
      (decide (s.path.machine.state ≠ .direct ∧
        releases (stepPath (133 * second) (shows proxy) ∅ false s.path).2 = true ∧
        ((shows proxy).lookup s.path.key).map (fun st => st.endpoint.addr.isLoopback) = some true),
        (next { relay := true } s (.tick (133 * second) (shows proxy) ∅ false)).map fun s' => s'.path.machine.state)) =
      some (true, some .direct) by decide +kernel)
  obtain ⟨s', hs', hd⟩ := Option.map_eq_some_iff.mp (congrArg Prod.snd hfacts)
  obtain ⟨hne, hrel, hloop⟩ := of_decide_eq_true (congrArg Prod.fst hfacts)
  refine ⟨s, s', (Conc.Reach.start (show Start { relay := true } freshPath from rfl)).run _ hs, hs', hne, hd, hrel, ?_⟩
  rintro ⟨st, hst, -, hnot⟩
  rw [hst, Option.map_some, hnot] at hloop
  cases hloop

end

end OnePath

end Thawr.Client
