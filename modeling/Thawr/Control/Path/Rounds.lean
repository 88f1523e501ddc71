/-
  Thawr.Control.Path.Rounds — a probe round from its first step to its last
  (`internal/control/path/machine.go`).

  A round tries every candidate once, in the list's order, and gives each its window; then
  the peer goes to the relay, or to its sink when the relay is off. As long as no handshake
  advances, nothing else is asked for on the way, whatever intents and reach requests arrive
  (`round_in_order`). The log of a round is read by `Tour`, which also says when each action
  comes: at the first step at or after the end of the window before it.
-/

import Thawr.Control.Path.Moves

namespace Thawr.Control.Path

open Go Netip

/-- What the steps of a machine answered, and when. -/
abbrev Log := List (Time × Output)

def Machine.log (m : Machine) : List Input → Log
  | [] => []
  | inp :: ins => (inp.now, (m.step inp).2) :: (m.step inp).1.log ins

/-- The candidates in order, each with the window a round gives it: the first one's is longer
    by the stagger. -/
def Machine.planned (m : Machine) : List (AddrPort × Duration) :=
  match m.candidates with
  | [] => []
  | c :: cs => (c, m.opts.probeWindow + m.lag) :: cs.map fun c => (c, m.opts.probeWindow)

/-- An output as an action with the state and the endpoint it comes with. -/
def Output.asks (o : Output) : Action × State × AddrPort := (o.action, o.state, o.endpoint)

def tries (c : AddrPort) : Action × State × AddrPort := (.probe, .probing, c)

def ends (relay : Bool) : Action × State × AddrPort :=
  if relay then (.relay, .relay, AddrPort.zero) else (.sink, .unreachable, AddrPort.zero)

/-- A log that goes on with a round: the last action was at `t` and its window is `w`; the
    candidates `due` are still to be tried. -/
inductive Tour (relay : Bool) : Duration → Time → List (AddrPort × Duration) → Log → Prop where
  | nil {w t due} : Tour relay w t due []
  /-- Before the end of the window nothing is asked for. -/
  | quiet {w t due now out log} : since now t < w → out.action = .none → out.state = .probing → out.changed = false →
    Tour relay w t due log → Tour relay w t due ((now, out) :: log)
  /-- The first step after it tries the next candidate. -/
  | probe {w t c v due now out log} : w ≤ since now t → out.asks = tries c → Tour relay v now due log →
    Tour relay w t ((c, v) :: due) ((now, out) :: log)
  /-- After the last window the round is over, and the log goes on as it likes. -/
  | finish {w t now out log} : w ≤ since now t → out.asks = ends relay → Tour relay w t [] ((now, out) :: log)

/-- The log up to the step that ends the round. -/
def roundOf : Log → Log
  | [] => []
  | e :: log => if e.2.state = .probing then e :: roundOf log else [e]

def asked (log : Log) : List (Action × State × AddrPort) :=
  (log.filter fun e => decide (e.2.action ≠ .none)).map fun e => e.2.asks

/-! ## What a log that tours has asked for -/

section

variable {relay : Bool} {w : Duration} {t : Time} {due : List (AddrPort × Duration)} {log : Log}

theorem ends_state (relay : Bool) : (ends relay).2.1 ≠ .probing ∧ (ends relay).1 ≠ .none := by
  cases relay with
  | true => decide
  | false => decide

theorem asked_cons {e : Time × Output} (h : e.2.action ≠ .none) : asked (e :: log) = e.2.asks :: asked log := by
  unfold asked
  rw [List.filter_cons_of_pos (by simp [h]), List.map_cons]

theorem asked_cons_none {e : Time × Output} (h : e.2.action = .none) : asked (e :: log) = asked log := by
  unfold asked
  rw [List.filter_cons_of_neg (by simp [h])]

/-- The round so far asked for the first of its candidates; one that is over asked for all of
    them and then for its end. -/
theorem Tour.asked (h : Tour relay w t due log) :
    asked (roundOf log) <+: due.map (fun c => tries c.1) ++ [ends relay] ∧
      ((∃ e ∈ log, e.2.state ≠ .probing) → asked (roundOf log) = due.map (fun c => tries c.1) ++ [ends relay]) := by
  induction h with
  | nil =>
    refine ⟨List.nil_prefix, ?_⟩
    rintro ⟨e, he, -⟩
    exact absurd he List.not_mem_nil
  | @quiet w t due now out log _ hact hstate _ _ ih =>
    rw [roundOf, if_pos hstate, asked_cons_none hact]
    grind
  | @probe w t c v due now out log _ hasks _ ih =>
    have hact : out.action = .probe := congrArg (·.1) hasks
    have hstate : out.state = .probing := congrArg (·.2.1) hasks
    rw [roundOf, if_pos hstate, asked_cons (by rw [hact]; decide), List.map_cons, List.cons_append, hasks]
    refine ⟨(List.cons_prefix_cons).mpr ⟨rfl, ih.1⟩, ?_⟩
    rintro ⟨e, he, hne⟩
    rcases List.mem_cons.mp he with rfl | he
    · exact absurd hstate hne
    · rw [ih.2 ⟨e, he, hne⟩]
  | @finish w t now out log _ hasks =>
    have hstate : out.state ≠ .probing := by
      rw [show out.state = (ends relay).2.1 from congrArg (·.2.1) hasks]
      exact (ends_state relay).1
    have hact : out.action ≠ .none := by
      rw [show out.action = (ends relay).1 from congrArg (·.1) hasks]
      exact (ends_state relay).2
    have heq : Path.asked (roundOf ((now, out) :: log)) = [ends relay] := by
      rw [roundOf, if_neg hstate, asked_cons hact, hasks]
      rfl
    rw [heq]
    exact ⟨List.prefix_rfl, fun _ => rfl⟩

end

/-! ## A round of the machine -/

namespace Machine

section

variable {m : Machine} {inp : Input} {ins : List Input}

structure InRound (m : Machine) : Prop where
  started : m.started = true
  probing : m.state = .probing
  full : m.fromRelay = false
  unchanged : m.dirty = false

def left (m : Machine) : List (AddrPort × Duration) :=
  (m.candidates.drop (m.idx + 1)).map fun c => (c, m.opts.probeWindow)

/-- In a round only the clock counts as long as no handshake advances. -/
theorem InRound.moved_eq (h : m.InRound) (hquiet : inp.handshake ≤ m.handshake) :
    m.moved inp = if m.window ≤ since inp.now m.windowStart then .next else .stay := by
  have hadv : decide (m.handshake < inp.handshake) = false := decide_eq_false (not_lt.mpr hquiet)
  have hstate : (m.observe inp).state = .probing := h.probing
  have hfull : (m.observe inp).fromRelay = false := h.full
  have hdirty : (m.observe inp).dirty = false := h.unchanged
  unfold moved move
  simp only [hstate, hadv, hfull, hdirty, Bool.false_and, Bool.and_false, Bool.false_eq_true, if_false]
  rfl

theorem observe_handshake_of_le (hquiet : inp.handshake ≤ m.handshake) : (m.observe inp).handshake = m.handshake := by
  rw [observe_handshake, max_eq_left hquiet]

/-- A step off the end of the list ends the round. -/
theorem asks_end (m : Machine) : (m.endAction, m.endState, AddrPort.zero) = ends m.opts.relay := by
  unfold endAction endState ends
  cases m.opts.relay with
  | true => rfl
  | false => rfl

theorem step_asks (m : Machine) (inp : Input) :
    (m.step inp).2.asks = ((m.step inp).2.action, (m.step inp).1.state, (m.step inp).1.endpoint) := rfl

/-- From a state inside a round on, the log tours the candidates that are left. -/
theorem InRound.tour (h : m.InRound) (hquiet : ∀ inp ∈ ins, inp.handshake ≤ m.handshake) :
    Tour m.opts.relay m.window m.windowStart m.left (m.log ins) := by
  induction ins generalizing m with
  | nil => exact .nil
  | cons inp ins ih =>
    have hq := hquiet inp List.mem_cons_self
    have hqs : ∀ i ∈ ins, i.handshake ≤ (m.observe inp).handshake := by
      intro i hi
      rw [observe_handshake_of_le hq]
      exact hquiet i (List.mem_cons_of_mem _ hi)
    have ih := @ih (m.step inp).1
    have hmove := h.moved_eq hq
    rw [log]
    by_cases hw : m.window ≤ since inp.now m.windowStart
    · rw [if_pos hw] at hmove
      cases hc : m.candidates[m.idx + 1]? with
      | none =>
        obtain ⟨_, hm, ha⟩ := step_next_none hmove hc
        rw [left, List.drop_eq_nil_of_le (List.getElem?_eq_none_iff.mp hc)]
        refine .finish hw ?_
        rw [step_asks, hm, ha]
        exact m.asks_end
      | some c =>
        obtain ⟨hm, ha⟩ := step_next_some hmove hc
        have hleft : m.left = (c, m.opts.probeWindow) :: (m.step inp).1.left := by
          obtain ⟨hlt, hget⟩ := List.getElem?_eq_some_iff.mp hc
          rw [left, List.drop_eq_getElem_cons hlt, hget, hm]
          rfl
        rw [hleft]
        refine .probe hw (by rw [step_asks, hm, ha]; rfl) ?_
        rw [hm] at ih ⊢
        exact ih ⟨rfl, rfl, h.full, h.unchanged⟩ hqs
    · rw [if_neg hw] at hmove
      obtain ⟨hm, ha⟩ := step_stay hmove
      rw [if_pos h.started] at ha
      refine .quiet (not_le.mp hw) ha ?_ (step_changed (by rw [hm]; rfl) (by rw [hm]; rfl)) ?_
      · rw [(m.step_output inp).1, hm]
        exact h.probing
      · rw [hm] at ih ⊢
        exact ih ⟨rfl, h.probing, h.full, h.unchanged⟩ hqs

theorem since_self (t : Time) : since t t = 0 := by
  simp [since]

/-- A step that starts a full round starts a tour of all candidates. -/
theorem tour_of_round (hround : m.moved inp = .round) (hquiet : ∀ i ∈ ins, i.handshake ≤ (m.step inp).1.handshake) :
    Tour m.opts.relay 0 inp.now m.planned (m.log (inp :: ins)) := by
  have hdue : (0 : Duration) ≤ since inp.now inp.now := (since_self _).ge
  rw [log]
  cases hc : m.candidates with
  | nil =>
    obtain ⟨hm, ha⟩ := step_round_nil hround hc
    rw [planned, hc]
    refine .finish hdue ?_
    rw [step_asks, hm, ha]
    exact m.asks_end
  | cons c cs =>
    obtain ⟨hm, ha⟩ := step_round_cons hround hc
    have hleft : (m.step inp).1.left = cs.map fun c => (c, m.opts.probeWindow) := by
      rw [left, (m.step_frame inp).2.2, hc, hm]
      rfl
    rw [planned, hc]
    refine .probe hdue (by rw [step_asks, hm, ha]; rfl) ?_
    rw [← hleft]
    have htour := InRound.tour (m := (m.step inp).1) (by rw [hm]; exact ⟨rfl, rfl, rfl, rfl⟩) hquiet
    rw [hm] at htour ⊢
    exact htour

theorem planned_map (m : Machine) : m.planned.map (fun c => tries c.1) = m.candidates.map tries := by
  unfold planned
  cases m.candidates with
  | nil => rfl
  | cons c cs =>
    rw [List.map_cons, List.map_map]
    rfl

/-- A round over a list that stays as it is, seen from the step that starts it: as long as no
    handshake advances, the log tours the candidates with their windows. What the round asks
    for is the candidates in order, each once, and then its end, and it has asked for all of
    that when it is over. -/
theorem round_in_order (m : Machine) (inp : Input) (ins : List Input) (hround : m.moved inp = .round)
    (hquiet : ∀ i ∈ ins, i.handshake ≤ (m.step inp).1.handshake) :
    Tour m.opts.relay 0 inp.now m.planned (m.log (inp :: ins)) ∧
      asked (roundOf (m.log (inp :: ins))) <+: m.candidates.map tries ++ [ends m.opts.relay] ∧
      ((∃ e ∈ m.log (inp :: ins), e.2.state ≠ .probing) →
        asked (roundOf (m.log (inp :: ins))) = m.candidates.map tries ++ [ends m.opts.relay]) := by
  have htour := tour_of_round hround hquiet
  have hasked := htour.asked
  rw [planned_map] at hasked
  exact ⟨htour, hasked⟩

/-- Two candidates with a stagger of a second: the first has its window until 103 s. -/
def twoCandidates : Machine := ((Machine.new { relay := true }).setStagger true).setCandidates [lan, wan]

def ticksAt (seconds : List Int) : List Input := seconds.map fun t => { now := t * second, reach := true }

theorem round_in_order_two : (roundOf (twoCandidates.log (ticksAt [100, 102, 103, 104, 105, 140]))).length = 5 ∧
      asked (roundOf (twoCandidates.log (ticksAt [100, 102, 103, 104, 105, 140]))) =
        twoCandidates.candidates.map tries ++ [(.relay, .relay, AddrPort.zero)] := by
  refine ⟨by decide +kernel, ?_⟩
  exact (round_in_order twoCandidates { now := 100 * second, reach := true } (ticksAt [102, 103, 104, 105, 140])
    (by decide +kernel) (by decide +kernel)).2.2 (by decide +kernel)

end

end Machine

end Thawr.Control.Path
