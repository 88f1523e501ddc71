/-
  Thawr.Control.Path.Moves — what one step of the path machine can do
  (`internal/control/path/machine.go`).

  A step makes one of seven moves. `moved` says which, `step_machine` and `step_action` what
  comes of it, and `moved_guard` what led to it. Nothing after this module looks into the
  `switch` of `Step` again.
-/

import Thawr.Control.Path.Machine

namespace Thawr.Control.Path

open Go Netip

inductive Move where
  | stay
  /-- Into `direct`, at the address WireGuard learned; in `direct` already, the peer roamed. -/
  | reached
  /-- Into `direct`, at the candidate being tried. -/
  | answered
  /-- `startRound`. -/
  | round
  /-- `retryFromRelay`. -/
  | retry
  /-- The single retry failed: `useRelay`. -/
  | giveUp
  /-- On to the next candidate of the round, or off the end of the list. -/
  | next
  deriving DecidableEq

namespace Machine

/-- The move of a machine that has observed `inp`. -/
def move (m : Machine) (inp : Input) (advanced reach : Bool) : Move :=
  match m.state with
  | .idle | .unreachable =>
    if advanced && inp.endpoint.isValid then .reached
    else if m.wanted && (decide (m.state = .idle) || m.dirty || reach ||
        (m.freshIntent && decide (m.opts.retryAfter ≤ since inp.now m.lastRound))) then .round
    else .stay
  | .probing =>
    if advanced && inp.endpoint.isValid then .reached
    else if advanced && !m.fromRelay then .answered
    else if inp.reach && m.fromRelay then .round
    else if m.dirty && decide (m.opts.probeWindow ≤ since inp.now m.lastProbe) then .round
    else if m.window ≤ since inp.now m.windowStart then if m.fromRelay then .giveUp else .next
    else .stay
  | .direct =>
    if m.handshake != 0 && decide (m.opts.stallAfter < since inp.now m.handshake) && decide (m.tx < inp.tx) &&
        inp.rx == m.rx && m.wanted then .round
    else if advanced && inp.endpoint.isValid then .reached
    else .stay
  | .relay =>
    if advanced && inp.endpoint.isValid then .reached
    else if m.dirty && decide (m.opts.probeWindow ≤ since inp.now m.lastProbe) then .round
    else if reach && !m.candidates.isEmpty then .round
    else if !m.candidates.isEmpty && decide (m.opts.retryAfter ≤ since inp.now m.lastRound) then .retry
    else .stay

/-- What a move makes of the machine, and the action it calls for. -/
def make (m : Machine) (inp : Input) : Move → Machine × Option Action
  | .stay => (m, none)
  | .reached => (m.direct inp.endpoint, none)
  | .answered => ({ m with state := .direct }, none)
  | .round => acts (m.startRound inp.now)
  | .retry => acts (m.retryFromRelay inp.now)
  | .giveUp => acts m.useRelay
  | .next => acts (probeNext { m with idx := m.idx + 1 } inp.now)

def moved (m : Machine) (inp : Input) : Move :=
  (m.observe inp).move inp (decide (m.handshake < inp.handshake)) (m.joins inp)

section

variable {m : Machine} {inp : Input} {now : Time} {c : AddrPort} {cs : List AddrPort}

/-! ## Rounds and retries -/

/-- A round over no candidates ends where it starts. -/
theorem startRound_nil (h : m.candidates = []) :
    m.startRound now =
      ({ m with
          dirty := false, freshIntent := false, fromRelay := false, lastRound := now, idx := 0, endpoint := AddrPort.zero
          state := if m.opts.relay then .relay else .unreachable, window := m.window + m.lag },
        if m.opts.relay then .relay else .sink) := by
  unfold startRound probeNext
  simp only [h, List.getElem?_nil]
  cases m.opts.relay with
  | true => rfl
  | false => rfl

theorem startRound_cons (h : m.candidates = c :: cs) :
    m.startRound now =
      ({ m with
          dirty := false, freshIntent := false, fromRelay := false, lastRound := now, idx := 0, endpoint := c
          state := .probing, windowStart := now, lastProbe := now, window := m.opts.probeWindow + m.lag
          probes := m.probes + 1 }, .probe) := by
  unfold startRound probeNext
  simp only [h, List.getElem?_cons_zero]
  rfl

/-- A retry tries the candidate whose turn it is. -/
theorem retryFromRelay_eq (h : m.candidates ≠ []) :
    ∃ c, m.candidates[m.retryIdx % m.candidates.length]? = some c ∧ m.retryFromRelay now =
      ({ m with
          lastRound := now, fromRelay := true, idx := m.retryIdx % m.candidates.length
          retryIdx := m.retryIdx % m.candidates.length + 1, endpoint := c, state := .probing, windowStart := now
          lastProbe := now, window := m.opts.probeWindow + m.lag, probes := m.probes + 1 }, .probe) := by
  have hlt : m.retryIdx % m.candidates.length < m.candidates.length := Nat.mod_lt _ (List.length_pos_iff.mpr h)
  have hget : m.candidates[m.retryIdx % m.candidates.length]? = some m.candidates[m.retryIdx % m.candidates.length] :=
    List.getElem?_eq_getElem hlt
  refine ⟨_, hget, ?_⟩
  unfold retryFromRelay probeNext
  simp only [hget]
  rfl

theorem probeNext_none (h : m.candidates[m.idx]? = none) :
    m.probeNext now =
      (if m.opts.relay then { m with state := .relay, endpoint := AddrPort.zero, fromRelay := false }
        else { m with state := .unreachable, endpoint := AddrPort.zero },
        if m.opts.relay then .relay else .sink) := by
  unfold probeNext
  rw [h]
  cases m.opts.relay with
  | true => rfl
  | false => rfl

theorem probeNext_some (h : m.candidates[m.idx]? = some c) :
    m.probeNext now =
      ({ m with
          state := .probing, endpoint := c, windowStart := now, lastProbe := now, window := m.opts.probeWindow
          probes := m.probes + 1 }, .probe) := by
  unfold probeNext
  rw [h]

/-! ## One step -/

/-- A round starts alike wherever the path was. -/
theorem startRound_endpoint (ep : AddrPort) : startRound { m with endpoint := ep } now = m.startRound now := by
  unfold startRound probeNext
  simp only
  cases m.candidates[0]? with
  | some c => rfl
  | none =>
    cases m.opts.relay with
    | true => rfl
    | false => rfl

theorem react_eq_make (advanced reach : Bool) : m.react inp advanced reach = m.make inp (m.move inp advanced reach) := by
  unfold react move
  cases hs : m.state with
  | idle =>
    simp only
    split_ifs
    all_goals rfl
  | unreachable =>
    simp only
    split_ifs
    all_goals rfl
  | probing =>
    simp only
    split_ifs
    all_goals rfl
  | direct =>
    simp only
    -- a stalled path starts its round from wherever the peer roamed to
    cases hadv : advanced && inp.endpoint.isValid with
    | true =>
      simp only [if_true]
      split_ifs
      · rw [← hs]
        exact congrArg acts (startRound_endpoint inp.endpoint)
      · rw [← hs]
        simp only [make, direct, ← hs]
    | false =>
      simp only [Bool.false_eq_true, if_false]
      split_ifs
      all_goals rfl
  | relay =>
    simp only
    split_ifs
    all_goals rfl

/-- The machine after a step. -/
theorem step_machine (m : Machine) (inp : Input) :
    (m.step inp).1 = { ((m.observe inp).make inp (m.moved inp)).1 with rx := inp.rx, tx := inp.tx } := by
  unfold step moved
  rw [react_eq_make]

/-- The action of a step; the first one points the peer at its sink if it does no more. -/
theorem step_action (m : Machine) (inp : Input) :
    (m.step inp).2.action = ((m.observe inp).make inp (m.moved inp)).2.getD (if m.started then .none else .sink) := by
  unfold step moved
  rw [react_eq_make]

theorem step_output (m : Machine) (inp : Input) :
    (m.step inp).2.state = (m.step inp).1.state ∧ (m.step inp).2.endpoint = (m.step inp).1.endpoint := ⟨rfl, rfl⟩

/-- A step reports no change where state and endpoint stay. -/
theorem step_changed (hs : (m.step inp).1.state = m.state) (he : (m.step inp).1.endpoint = m.endpoint) :
    (m.step inp).2.changed = false := by
  rw [show (m.step inp).2.changed = (decide ((m.step inp).1.state ≠ m.state) || decide ((m.step inp).1.endpoint ≠ m.endpoint))
    from rfl, hs, he]
  simp

/-! ## What comes of a move -/

/-- What no step changes. -/
theorem step_frame (m : Machine) (inp : Input) :
    (m.step inp).1.opts = m.opts ∧ (m.step inp).1.lag = m.lag ∧ (m.step inp).1.candidates = m.candidates := by
  have hprobe : ∀ n : Machine, (n.probeNext inp.now).1.opts = n.opts ∧ (n.probeNext inp.now).1.lag = n.lag ∧
      (n.probeNext inp.now).1.candidates = n.candidates := by
    intro n
    unfold probeNext
    split
    · split_ifs
      all_goals exact ⟨rfl, rfl, rfl⟩
    · exact ⟨rfl, rfl, rfl⟩
  rw [step_machine]
  cases m.moved inp with
  | stay => exact ⟨rfl, rfl, rfl⟩
  | reached => exact ⟨rfl, rfl, rfl⟩
  | answered => exact ⟨rfl, rfl, rfl⟩
  | giveUp => exact ⟨rfl, rfl, rfl⟩
  | round => exact hprobe _
  | retry => exact hprobe _
  | next => exact hprobe _

def endAction (m : Machine) : Action := if m.opts.relay then .relay else .sink

def endState (m : Machine) : State := if m.opts.relay then .relay else .unreachable

theorem step_stay (h : m.moved inp = .stay) :
    (m.step inp).1 = { m.observe inp with rx := inp.rx, tx := inp.tx } ∧
      (m.step inp).2.action = if m.started then .none else .sink := by
  rw [step_machine, step_action, h]
  exact ⟨rfl, rfl⟩

theorem step_reached (h : m.moved inp = .reached) :
    (m.step inp).1 = { m.observe inp with state := .direct, endpoint := inp.endpoint, rx := inp.rx, tx := inp.tx } ∧
      (m.step inp).2.action = if m.started then .none else .sink := by
  rw [step_machine, step_action, h]
  exact ⟨rfl, rfl⟩

theorem step_answered (h : m.moved inp = .answered) :
    (m.step inp).1 = { m.observe inp with state := .direct, rx := inp.rx, tx := inp.tx } ∧
      (m.step inp).2.action = if m.started then .none else .sink := by
  rw [step_machine, step_action, h]
  exact ⟨rfl, rfl⟩

theorem step_giveUp (h : m.moved inp = .giveUp) :
    (m.step inp).1 =
        { m.observe inp with state := .relay, endpoint := AddrPort.zero, fromRelay := false, rx := inp.rx, tx := inp.tx } ∧
      (m.step inp).2.action = .relay := by
  rw [step_machine, step_action, h]
  exact ⟨rfl, rfl⟩

theorem step_round_nil (h : m.moved inp = .round) (hc : m.candidates = []) :
    (m.step inp).1 = { m.observe inp with
        dirty := false, freshIntent := false, fromRelay := false, lastRound := inp.now, idx := 0, endpoint := AddrPort.zero
        state := m.endState, window := m.window + m.lag, rx := inp.rx, tx := inp.tx } ∧
      (m.step inp).2.action = m.endAction := by
  rw [step_machine, step_action, h, make, startRound_nil (show (m.observe inp).candidates = [] from hc)]
  exact ⟨rfl, rfl⟩

theorem step_round_cons (h : m.moved inp = .round) (hc : m.candidates = c :: cs) :
    (m.step inp).1 = { m.observe inp with
        dirty := false, freshIntent := false, fromRelay := false, lastRound := inp.now, idx := 0, endpoint := c
        state := .probing, windowStart := inp.now, lastProbe := inp.now, window := m.opts.probeWindow + m.lag
        probes := m.probes + 1, rx := inp.rx, tx := inp.tx } ∧
      (m.step inp).2.action = .probe := by
  rw [step_machine, step_action, h, make, startRound_cons (show (m.observe inp).candidates = c :: cs from hc)]
  exact ⟨rfl, rfl⟩

theorem step_retry (h : m.moved inp = .retry) (hc : m.candidates ≠ []) :
    ∃ c, m.candidates[m.retryIdx % m.candidates.length]? = some c ∧ (m.step inp).1 = { m.observe inp with
        lastRound := inp.now, fromRelay := true, idx := m.retryIdx % m.candidates.length
        retryIdx := m.retryIdx % m.candidates.length + 1, endpoint := c, state := .probing, windowStart := inp.now
        lastProbe := inp.now, window := m.opts.probeWindow + m.lag, probes := m.probes + 1, rx := inp.rx, tx := inp.tx } ∧
      (m.step inp).2.action = .probe := by
  obtain ⟨c, hget, hretry⟩ := @retryFromRelay_eq (m.observe inp) inp.now hc
  refine ⟨c, hget, ?_⟩
  rw [step_machine, step_action, h, make, hretry]
  exact ⟨rfl, rfl⟩

theorem step_next_none (h : m.moved inp = .next) (hc : m.candidates[m.idx + 1]? = none) :
    ∃ fromRelay, (m.step inp).1 = { m.observe inp with
        idx := m.idx + 1, state := m.endState, endpoint := AddrPort.zero, fromRelay := fromRelay, rx := inp.rx, tx := inp.tx } ∧
      (m.step inp).2.action = m.endAction := by
  rw [step_machine, step_action, h, make, probeNext_none (by exact hc)]
  unfold endState endAction
  rw [show (m.observe inp).opts = m.opts from rfl]
  cases m.opts.relay with
  | true => exact ⟨false, rfl, rfl⟩
  | false => exact ⟨m.fromRelay, rfl, rfl⟩

theorem step_next_some (h : m.moved inp = .next) (hc : m.candidates[m.idx + 1]? = some c) :
    (m.step inp).1 = { m.observe inp with
        idx := m.idx + 1, state := .probing, endpoint := c, windowStart := inp.now, lastProbe := inp.now
        window := m.opts.probeWindow, probes := m.probes + 1, rx := inp.rx, tx := inp.tx } ∧
      (m.step inp).2.action = .probe := by
  rw [step_machine, step_action, h, make, probeNext_some (by exact hc)]
  exact ⟨rfl, rfl⟩

/-! ## What leads to a move -/

def Advanced (m : Machine) (inp : Input) : Prop := m.handshake < inp.handshake

instance (m : Machine) (inp : Input) : Decidable (m.Advanced inp) := inferInstanceAs (Decidable (_ < _))

inductive RoundFrom (m : Machine) (inp : Input) : Prop where
  | idle : m.state = .idle → RoundFrom m inp
  | unreachable : m.state = .unreachable →
    m.dirty = true ∨ m.joins inp = true ∨ m.opts.retryAfter ≤ since inp.now m.lastRound → RoundFrom m inp
  /-- The peer started a round while this side retried one candidate. -/
  | widened : m.state = .probing → m.fromRelay = true → inp.reach = true → RoundFrom m inp
  | changed : m.state = .probing ∨ m.state = .relay → m.dirty = true → m.opts.probeWindow ≤ since inp.now m.lastProbe →
    RoundFrom m inp
  | stalled : m.state = .direct → m.opts.stallAfter < since inp.now (max m.handshake inp.handshake) → RoundFrom m inp
  | joined : m.state = .relay → m.joins inp = true → m.candidates ≠ [] → RoundFrom m inp

/-- The window of the candidate being tried is over, and no change of the list starts a new
    round. -/
structure Expired (m : Machine) (inp : Input) : Prop where
  probing : m.state = .probing
  window : m.window ≤ since inp.now m.windowStart
  unchanged : m.dirty = true → ¬m.opts.probeWindow ≤ since inp.now m.lastProbe

/-- What is known of a machine and its input when a step makes the move. -/
def Guard (m : Machine) (inp : Input) : Move → Prop
  | .stay => True
  | .reached => m.Advanced inp ∧ inp.endpoint.isValid = true
  | .answered => m.state = .probing ∧ m.fromRelay = false ∧ m.Advanced inp ∧ inp.endpoint.isValid = false
  | .round => m.RoundFrom inp
  | .retry => m.state = .relay ∧ m.candidates ≠ [] ∧ m.opts.retryAfter ≤ since inp.now m.lastRound
  | .giveUp => m.Expired inp ∧ m.fromRelay = true
  | .next => m.Expired inp ∧ m.fromRelay = false

theorem observe_handshake (m : Machine) (inp : Input) : (m.observe inp).handshake = max m.handshake inp.handshake := by
  unfold observe
  grind

theorem moved_guard (m : Machine) (inp : Input) : m.Guard inp (m.moved inp) := by
  unfold moved move
  rw [show (m.observe inp).state = m.state from rfl, observe_handshake]
  -- the conditions of the `switch`, as propositions
  simp only [Bool.and_eq_true, Bool.or_eq_true, Bool.not_eq_true', decide_eq_true_eq, List.isEmpty_eq_false_iff]
  cases hs : m.state with
  | idle =>
    simp only
    split_ifs with h1 h2
    · exact h1
    · exact .idle hs
    · trivial
  | unreachable =>
    simp only
    split_ifs with h1 h2
    · exact h1
    · refine .unreachable hs ?_
      obtain ⟨-, ((hidle | hd) | hj) | ⟨-, hr⟩⟩ := h2
      · cases hidle
      · exact .inl hd
      · exact .inr (.inl hj)
      · exact .inr (.inr hr)
    · trivial
  | probing =>
    simp only
    split_ifs with h1 h2 h3 h4 h5 h6
    · exact h1
    · exact ⟨hs, h2.2, h2.1, Bool.eq_false_iff.mpr fun hv => h1 ⟨h2.1, hv⟩⟩
    · exact .widened hs h3.2 h3.1
    · exact .changed (.inl hs) h4.1 h4.2
    · exact ⟨⟨hs, h5, fun hd hle => h4 ⟨hd, hle⟩⟩, h6⟩
    · exact ⟨⟨hs, h5, fun hd hle => h4 ⟨hd, hle⟩⟩, Bool.eq_false_iff.mpr h6⟩
    · trivial
  | direct =>
    simp only
    split_ifs with h1 h2
    · exact .stalled hs h1.1.1.1.2
    · exact h2
    · trivial
  | relay =>
    simp only
    split_ifs with h1 h2 h3 h4
    · exact h1
    · exact .changed (.inr hs) h2.1 h2.2
    · exact .joined hs h3.1 h3.2
    · exact ⟨hs, h4.1, h4.2⟩
    · trivial

/-! ## What a step comes to -/

/-- A step by the state it leaves the machine in. -/
inductive Outcome (m : Machine) (inp : Input) : Prop where
  | stays : m.moved inp = .stay → (m.step inp).1.state = m.state → (m.step inp).1.endpoint = m.endpoint →
    (m.step inp).1.window = m.window → (m.step inp).1.windowStart = m.windowStart →
    (m.step inp).1.fromRelay = m.fromRelay → (m.step inp).2.action ≠ .probe → Outcome m inp
  | direct : m.moved inp = .reached ∨ m.moved inp = .answered → (m.step inp).1.state = .direct →
    (m.step inp).1.endpoint = inp.endpoint ∧ inp.endpoint.isValid = true ∨
      (m.step inp).1.endpoint = m.endpoint ∧ m.state = .probing ∧ m.fromRelay = false ∧ inp.endpoint.isValid = false →
    m.Advanced inp → (m.step inp).2.action ≠ .probe → Outcome m inp
  | tries : m.moved inp = .round ∨ m.moved inp = .retry ∨ m.moved inp = .next → (m.step inp).1.state = .probing →
    (m.step inp).1.endpoint ∈ m.candidates → (m.step inp).1.windowStart = inp.now →
    (m.step inp).1.window = m.opts.probeWindow ∨ (m.step inp).1.window = m.opts.probeWindow + m.lag →
    ((m.step inp).1.fromRelay = true → m.moved inp = .retry) → (m.step inp).2.action = .probe → Outcome m inp
  | ends : m.moved inp = .round ∧ m.candidates = [] ∨
      (m.moved inp = .giveUp ∨ m.moved inp = .next) ∧ m.Expired inp →
    (m.step inp).1.state = .relay ∨ (m.step inp).1.state = .unreachable ∧ m.opts.relay = false →
    (m.step inp).1.endpoint = AddrPort.zero → (m.step inp).2.action ≠ .probe → Outcome m inp

theorem endState_or (m : Machine) : m.endState = .relay ∨ m.endState = .unreachable ∧ m.opts.relay = false := by
  unfold endState
  cases m.opts.relay with
  | true => exact .inl rfl
  | false => exact .inr ⟨rfl, rfl⟩

theorem endAction_ne (m : Machine) : m.endAction ≠ .probe := by
  unfold endAction
  cases m.opts.relay with
  | true => decide
  | false => decide

/-- An action of a step that chose none. -/
theorem first_ne (m : Machine) : (if m.started then Action.none else .sink) ≠ .probe := by
  cases m.started with
  | true => decide
  | false => decide

theorem step_outcome (m : Machine) (inp : Input) : m.Outcome inp := by
  have hguard := m.moved_guard inp
  cases h : m.moved inp with
  | stay =>
    obtain ⟨hm, ha⟩ := step_stay h
    exact .stays h (by rw [hm]; rfl) (by rw [hm]; rfl) (by rw [hm]; rfl) (by rw [hm]; rfl) (by rw [hm]; rfl)
      (by rw [ha]; exact m.first_ne)
  | reached =>
    rw [h] at hguard
    obtain ⟨hm, ha⟩ := step_reached h
    exact .direct (.inl h) (by rw [hm]) (.inl ⟨by rw [hm], hguard.2⟩) hguard.1 (by rw [ha]; exact m.first_ne)
  | answered =>
    rw [h] at hguard
    obtain ⟨hstate, hfull, hadv, hinvalid⟩ := hguard
    obtain ⟨hm, ha⟩ := step_answered h
    exact .direct (.inr h) (by rw [hm]) (.inr ⟨by rw [hm]; rfl, hstate, hfull, hinvalid⟩) hadv (by rw [ha]; exact m.first_ne)
  | round =>
    cases hc : m.candidates with
    | nil =>
      obtain ⟨hm, ha⟩ := step_round_nil h hc
      exact .ends (.inl ⟨h, hc⟩) (by rw [hm]; exact m.endState_or) (by rw [hm]) (by rw [ha]; exact m.endAction_ne)
    | cons c cs =>
      obtain ⟨hm, ha⟩ := step_round_cons h hc
      refine .tries (.inl h) (by rw [hm]) ?_ (by rw [hm]) (.inr (by rw [hm])) ?_ ha
      · rw [hm, hc]
        exact List.mem_cons_self
      · rw [hm]
        intro hf
        cases hf
  | retry =>
    rw [h] at hguard
    obtain ⟨c, hget, hm, ha⟩ := step_retry h hguard.2.1
    exact .tries (.inr (.inl h)) (by rw [hm]) (by rw [hm]; exact List.mem_of_getElem? hget) (by rw [hm])
      (.inr (by rw [hm])) (fun _ => h) ha
  | giveUp =>
    rw [h] at hguard
    obtain ⟨hm, ha⟩ := step_giveUp h
    exact .ends (.inr ⟨.inl h, hguard.1⟩) (.inl (by rw [hm])) (by rw [hm]) (by rw [ha]; decide)
  | next =>
    rw [h] at hguard
    cases hc : m.candidates[m.idx + 1]? with
    | none =>
      obtain ⟨_, hm, ha⟩ := step_next_none h hc
      exact .ends (.inr ⟨.inr h, hguard.1⟩) (by rw [hm]; exact m.endState_or) (by rw [hm]) (by rw [ha]; exact m.endAction_ne)
    | some c =>
      obtain ⟨hm, ha⟩ := step_next_some h hc
      refine .tries (.inr (.inr h)) (by rw [hm]) ?_ (by rw [hm]) (.inl (by rw [hm])) ?_ ha
      · rw [hm]
        exact List.mem_of_getElem? hc
      · rw [hm]
        intro hf
        exact absurd hf (Bool.eq_false_iff.mp hguard.2)

structure Noted (m : Machine) (inp : Input) : Prop where
  handshake : (m.step inp).1.handshake = max m.handshake inp.handshake
  dirty : (m.step inp).1.dirty = (m.dirty && decide (m.moved inp ≠ .round))
  lastRound : (m.step inp).1.lastRound = if m.moved inp = .round ∨ m.moved inp = .retry then inp.now else m.lastRound
  lastProbe : (m.step inp).1.lastProbe = if (m.step inp).2.action = .probe then inp.now else m.lastProbe

theorem step_noted (m : Machine) (inp : Input) : m.Noted inp := by
  have hguard := m.moved_guard inp
  have hh : (if m.handshake < inp.handshake then inp.handshake else m.handshake) = max m.handshake inp.handshake :=
    m.observe_handshake inp
  cases h : m.moved inp with
  | stay =>
    obtain ⟨hm, ha⟩ := step_stay h
    constructor
    all_goals simp [hm, ha, h, hh, m.first_ne, observe]
  | reached =>
    obtain ⟨hm, ha⟩ := step_reached h
    constructor
    all_goals simp [hm, ha, h, hh, m.first_ne, observe]
  | answered =>
    obtain ⟨hm, ha⟩ := step_answered h
    constructor
    all_goals simp [hm, ha, h, hh, m.first_ne, observe]
  | giveUp =>
    obtain ⟨hm, ha⟩ := step_giveUp h
    constructor
    all_goals simp [hm, ha, h, hh, observe]
  | round =>
    cases hc : m.candidates with
    | nil =>
      obtain ⟨hm, ha⟩ := step_round_nil h hc
      constructor
      all_goals simp [hm, ha, h, hh, m.endAction_ne, observe]
    | cons c cs =>
      obtain ⟨hm, ha⟩ := step_round_cons h hc
      constructor
      all_goals simp [hm, ha, h, hh, observe]
  | retry =>
    rw [h] at hguard
    obtain ⟨c, -, hm, ha⟩ := step_retry h hguard.2.1
    constructor
    all_goals simp [hm, ha, h, hh, observe]
  | next =>
    cases hc : m.candidates[m.idx + 1]? with
    | none =>
      obtain ⟨_, hm, ha⟩ := step_next_none h hc
      constructor
      all_goals simp [hm, ha, h, hh, m.endAction_ne, observe]
    | some c =>
      obtain ⟨hm, ha⟩ := step_next_some h hc
      constructor
      all_goals simp [hm, ha, h, hh, observe]

end

end Machine

/-! ## Two candidates, for the runs on fixed inputs -/

def lan : AddrPort := ⟨.v4 ⟨[192, 168, 1, 7], rfl⟩, 41641⟩

def wan : AddrPort := ⟨.v4 ⟨[198, 51, 100, 7], rfl⟩, 41641⟩

end Thawr.Control.Path
