/-
  Thawr.Control.Path.Rate — how often the path machine probes
  (`internal/control/path/machine.go`).

  In runs whose candidates are fixed once rounds start, and whose handshakes advance only to
  times after the last step, two probes are at least a window apart, except where a reach
  request widens a single retry from the relay to a full round. Two full rounds with no direct
  path between them are at least half a retry interval apart (`probes_apart`). The latter
  needs a clock that never shows the zero time: the machine takes a zero `lastRound` for "no
  round yet" (`rounds_at_the_zero_time`).
-/

import Thawr.Control.Path.Runs

namespace Thawr.Control.Path

open Go Netip

/-- The candidates stay once a round has started, and a handshake that advances is later than
    the last step. -/
def steady (s : St) : Ev → Bool
  | .setCandidates _ => !s.begun
  | .step inp => decide (inp.handshake ≤ s.machine.handshake) || s.last.all fun t => decide (t < inp.handshake)
  | _ => true

section

variable {s s' : St} {e : Ev} {inp : Input} {opts : Options}

structure Probed (s : St) : Prop where
  /-- Before the first round nothing was probed. -/
  fresh : s.begun = false → s.probed = none ∧ (s.machine.state = .idle ∨ s.machine.state = .direct)
  idle : s.machine.state = .idle → s.begun = false
  settled : s.begun = true → s.changed = false
  noList : s.machine.candidates = [] → s.probed = none
  stepped : ∀ t, s.probed = some t → ∃ l, s.last = some l ∧ t ≤ l ∧ l ≤ s.clock
  probing : s.machine.state = .probing → s.probed = some s.machine.lastProbe
  ended : s.machine.state = .relay ∨ s.machine.state = .unreachable → ∀ t, s.probed = some t →
    t + s.machine.opts.probeWindow ≤ s.clock
  direct : s.machine.state = .direct → ∀ t, s.probed = some t → t < s.machine.handshake

theorem Probed.begun (h : Probed s) (hidle : s.machine.state ≠ .idle) (hdirect : s.machine.state ≠ .direct) :
    s.begun = true := by
  by_contra hb
  obtain ⟨-, hstate | hstate⟩ := h.fresh (Bool.eq_false_iff.mpr hb)
  · exact hidle hstate
  · exact hdirect hstate

/-- A window that is over has lasted at least a probe window since the probe. -/
theorem Timed.probed_before (ht : Timed opts s) (hexp : s.machine.Expired inp) :
    s.machine.lastProbe + s.machine.opts.probeWindow ≤ inp.now := by
  obtain ⟨hle, -, hwin⟩ := ht.probing hexp.probing
  have hpos := (withDefaults_pos opts).1
  rw [← ht.opts] at hpos
  have := le_of_le_since hpos (hwin.trans hexp.window)
  lia

/-- Before the first round there is nothing to say. -/
theorem Probed.of_fresh (hb : s.begun = false) (hp : s.probed = none)
    (hstate : s.machine.state = .idle ∨ s.machine.state = .direct) : Probed s := by
  have hnone : ∀ t, s.probed ≠ some t := by
    intro t ht
    rw [hp] at ht
    cases ht
  refine ⟨fun _ => ⟨hp, hstate⟩, fun _ => hb, ?_, fun _ => hp, fun t ht => absurd ht (hnone t), ?_,
    fun _ t ht => absurd ht (hnone t),
    fun _ t ht => absurd ht (hnone t)⟩
  · intro hb'
    rw [hb] at hb'
    cases hb'
  · intro hs
    rcases hstate with hstate | hstate
    all_goals cases hstate.symm.trans hs

theorem Start.probed (h : Start opts s) : Probed s := by
  obtain ⟨now, rfl⟩ := h
  exact .of_fresh rfl rfl (.inl rfl)

theorem stepped_machine : (s.stepped inp).machine = (s.machine.step inp).1 := rfl

theorem stepped_clock : (s.stepped inp).clock = inp.now := rfl

theorem stepped_last : (s.stepped inp).last = some inp.now := rfl

/-- The marks of a step that does not probe. -/
theorem stepped_quiet (hact : (s.machine.step inp).2.action ≠ .probe) : (s.stepped inp).probed = s.probed := by
  unfold St.stepped
  simp [hact]

/-- Whatever was probed before, a step at a later time follows it. -/
theorem Probed.before (h : Probed s) (hnow : s.clock ≤ inp.now) :
    ∀ t, s.probed = some t → ∃ l, some inp.now = some l ∧ t ≤ l ∧ l ≤ inp.now := by
  intro t hp
  obtain ⟨l, -, htl, hlc⟩ := h.stepped t hp
  exact ⟨inp.now, rfl, htl.trans (hlc.trans hnow), le_rfl⟩

theorem Probed.settled_step (h : Probed s) : (s.stepped inp).begun = true → (s.stepped inp).changed = false := by
  unfold St.stepped
  simp only [Bool.or_eq_true, Bool.and_eq_false_iff, Bool.not_eq_false']
  intro hb
  exact hb.imp_left h.settled

/-- A handshake that advances is later than the last probe. -/
theorem Probed.lt_handshake (h : Probed s) (hok : steady s (.step inp) = true) (hadv : s.machine.Advanced inp) {t : Time}
    (hp : s.probed = some t) : t < inp.handshake := by
  obtain ⟨l, hl, htl, -⟩ := h.stepped t hp
  simp only [steady, hl, Option.all_some, Bool.or_eq_true, decide_eq_true_eq] at hok
  rcases hok with hle | hlt
  · exact absurd hle (not_le.mpr hadv)
  · exact lt_of_le_of_lt htl hlt

theorem begun_stepped (hround : s.machine.moved inp ≠ .round) : (s.stepped inp).begun = s.begun := by
  unfold St.stepped
  simp [hround]

theorem begun_of_round (hround : s.machine.moved inp = .round) : (s.stepped inp).begun = true := by
  unfold St.stepped
  simp [hround]

/-- A machine that probes, or is past its list, has started a round. -/
theorem Probed.begun_step (h : Probed s) (hmove : s.machine.moved inp = .round ∨ s.machine.moved inp = .retry ∨
    s.machine.moved inp = .next ∨ s.machine.moved inp = .giveUp) : (s.stepped inp).begun = true := by
  have hguard := s.machine.moved_guard inp
  have hkept : ∀ state, s.machine.state = state → state ≠ .idle → state ≠ .direct → s.machine.moved inp ≠ .round →
      (s.stepped inp).begun = true := by
    intro state hs hidle hdirect hround
    rw [begun_stepped hround]
    exact h.begun (hs ▸ hidle) (hs ▸ hdirect)
  rcases hmove with hm | hm | hm | hm
  · exact begun_of_round hm
  · rw [hm] at hguard
    exact hkept _ hguard.1 (by decide) (by decide) (by rw [hm]; decide)
  · rw [hm] at hguard
    exact hkept _ hguard.1.probing (by decide) (by decide) (by rw [hm]; decide)
  · rw [hm] at hguard
    exact hkept _ hguard.1.probing (by decide) (by decide) (by rw [hm]; decide)

/-- Once a round has started only the last five are left to say. -/
theorem Probed.of_begun (hb : s.begun = true) (hc : s.changed = false) (hidle : s.machine.state ≠ .idle)
    (noList : s.machine.candidates = [] → s.probed = none)
    (stepped : ∀ t, s.probed = some t → ∃ l, s.last = some l ∧ t ≤ l ∧ l ≤ s.clock)
    (probing : s.machine.state = .probing → s.probed = some s.machine.lastProbe)
    (ended : s.machine.state = .relay ∨ s.machine.state = .unreachable → ∀ t, s.probed = some t →
      t + s.machine.opts.probeWindow ≤ s.clock)
    (direct : s.machine.state = .direct → ∀ t, s.probed = some t → t < s.machine.handshake) : Probed s := by
  refine ⟨fun hf => ?_, fun hs => absurd hs hidle, fun _ => hc, noList, stepped, probing, ended, direct⟩
  rw [hb] at hf
  cases hf

theorem Probed.stays (h : Probed s) (hnow : s.clock ≤ inp.now) (hmove : s.machine.moved inp = .stay)
    (hstate : (s.machine.step inp).1.state = s.machine.state) (hact : (s.machine.step inp).2.action ≠ .probe) :
    Probed (s.stepped inp) := by
  obtain ⟨hopts, -, hlist⟩ := s.machine.step_frame inp
  have hnoted := s.machine.step_noted inp
  have hbegun : (s.stepped inp).begun = s.begun := begun_stepped (by rw [hmove]; decide)
  refine ⟨?_, ?_, h.settled_step, ?_, ?_, ?_, ?_, ?_⟩
  all_goals simp only [stepped_machine, stepped_clock, stepped_last, stepped_quiet hact, hstate, hopts, hlist, hbegun]
  · exact h.fresh
  · exact h.idle
  · exact h.noList
  · exact h.before hnow
  · rw [hnoted.lastProbe, if_neg hact]
    exact h.probing
  · intro hs t hp
    exact (h.ended hs t hp).trans hnow
  · intro hs t hp
    rw [hnoted.handshake]
    exact lt_max_of_lt_left (h.direct hs t hp)

/-- A handshake brings the machine into direct: the probes are before it. -/
theorem Probed.reached (h : Probed s) (hok : steady s (.step inp) = true) (hnow : s.clock ≤ inp.now)
    (hmove : s.machine.moved inp = .reached ∨ s.machine.moved inp = .answered)
    (hstate : (s.machine.step inp).1.state = .direct) (hadv : s.machine.Advanced inp)
    (hact : (s.machine.step inp).2.action ≠ .probe) : Probed (s.stepped inp) := by
  have hlist := (s.machine.step_frame inp).2.2
  have hround : s.machine.moved inp ≠ .round := by
    rcases hmove with hm | hm
    all_goals rw [hm]; decide
  refine ⟨?_, ?_, h.settled_step, ?_, ?_, ?_, ?_, ?_⟩
  all_goals simp only [stepped_machine, stepped_clock, stepped_last, stepped_quiet hact, hstate, hlist, begun_stepped hround]
  · intro hb
    exact ⟨(h.fresh hb).1, .inr trivial⟩
  · intro hs
    cases hs
  · exact h.noList
  · exact h.before hnow
  · intro hs
    cases hs
  · rintro (hs | hs)
    all_goals cases hs
  · intro _ t hp
    rw [(s.machine.step_noted inp).handshake]
    exact lt_max_of_lt_right (h.lt_handshake hok hadv hp)

theorem Probed.tries (h : Probed s)
    (hmove : s.machine.moved inp = .round ∨ s.machine.moved inp = .retry ∨ s.machine.moved inp = .next)
    (hstate : (s.machine.step inp).1.state = .probing) (hend : (s.machine.step inp).1.endpoint ∈ s.machine.candidates)
    (hact : (s.machine.step inp).2.action = .probe) : Probed (s.stepped inp) := by
  have hlist := (s.machine.step_frame inp).2.2
  have hbegun := h.begun_step (hmove.imp_right (Or.imp_right .inl))
  have hprobed : (s.stepped inp).probed = some inp.now := by
    unfold St.stepped
    simp [hact]
  refine .of_begun hbegun (h.settled_step hbegun) ?_ ?_ ?_ ?_ ?_ ?_
  all_goals simp only [stepped_machine, stepped_clock, stepped_last, hprobed, hstate, hlist]
  · decide
  · intro hc
    rw [hc] at hend
    exact absurd hend List.not_mem_nil
  · intro t hp
    cases hp
    exact ⟨inp.now, rfl, le_rfl, le_rfl⟩
  · intro _
    rw [(s.machine.step_noted inp).lastProbe, if_pos hact]
  · rintro (hs | hs)
    all_goals cases hs
  · intro hs
    cases hs

/-- The machine is past its list: it had none, or the last window is over. -/
theorem Probed.ends (h : Probed s) (ht : Timed opts s) (hnow : s.clock ≤ inp.now)
    (hwhy : s.machine.moved inp = .round ∧ s.machine.candidates = [] ∨
      (s.machine.moved inp = .giveUp ∨ s.machine.moved inp = .next) ∧ s.machine.Expired inp)
    (hstate : (s.machine.step inp).1.state = .relay ∨ (s.machine.step inp).1.state = .unreachable)
    (hact : (s.machine.step inp).2.action ≠ .probe) : Probed (s.stepped inp) := by
  obtain ⟨hopts, -, hlist⟩ := s.machine.step_frame inp
  have hbegun : (s.stepped inp).begun = true := by
    apply h.begun_step
    grind
  have hne : ∀ state : State, state ≠ .relay → state ≠ .unreachable → (s.machine.step inp).1.state ≠ state := by grind
  refine .of_begun hbegun (h.settled_step hbegun) ?_ ?_ ?_ ?_ ?_ ?_
  all_goals simp only [stepped_machine, stepped_clock, stepped_last, stepped_quiet hact, hopts, hlist]
  · exact hne .idle (by decide) (by decide)
  · exact h.noList
  · exact h.before hnow
  · intro hs
    exact absurd hs (hne .probing (by decide) (by decide))
  · intro _ t hp
    rcases hwhy with ⟨-, hc⟩ | ⟨-, hexp⟩
    · rw [h.noList hc] at hp
      cases hp
    · rw [h.probing hexp.probing] at hp
      cases hp
      exact ht.probed_before hexp
  · intro hs
    exact absurd hs (hne .direct (by decide) (by decide))

theorem Probed.step (h : Probed s) (ht : Timed opts s) (hok : steady s (.step inp) = true) (hnow : s.clock ≤ inp.now) :
    Probed (s.stepped inp) := by
  cases s.machine.step_outcome inp with
  | stays hmove hstate _ _ _ _ hact => exact h.stays hnow hmove hstate hact
  | direct hmove hstate _ hadv hact => exact h.reached hok hnow hmove hstate hadv hact
  | tries hmove hstate hend _ _ _ hact => exact h.tries hmove hstate hend hact
  | ends hwhy hstate _ hact => exact h.ends ht hnow hwhy (hstate.imp_right And.left) hact

theorem Probed.next (h : Probed s) (ht : Timed opts s) (hok : steady s e = true) (hs : next s e = some s') : Probed s' := by
  cases e with
  | setCandidates list =>
    cases hs
    have hb : s.begun = false := Bool.not_eq_true' _ ▸ hok
    obtain ⟨hp, hstate⟩ := h.fresh hb
    refine .of_fresh hb hp ?_
    unfold Machine.setCandidates
    split_ifs
    all_goals exact hstate
  | setStagger on =>
    cases hs
    exact ⟨h.fresh, h.idle, h.settled, h.noList, h.stepped, h.probing, h.ended, h.direct⟩
  | hold now =>
    obtain ⟨hnow, rfl⟩ := next_hold hs
    have hstepped : ∀ t, s.probed = some t → ∃ l, s.last = some l ∧ t ≤ l ∧ l ≤ now := by
      intro t hp
      obtain ⟨l, hl, htl, hlc⟩ := h.stepped t hp
      exact ⟨l, hl, htl, hlc.trans hnow⟩
    unfold Machine.hold
    split_ifs
    all_goals exact ⟨h.fresh, h.idle, h.settled, h.noList, hstepped, h.probing,
      fun hs t hp => (h.ended hs t hp).trans hnow, h.direct⟩
  | step inp =>
    obtain ⟨hnow, rfl⟩ := next_step hs
    exact h.step ht hok hnow

/-! ## Rounds -/

structure Paced (s : St) : Prop where
  fresh : s.begun = false → s.full = none
  direct : s.machine.state = .direct → s.full = none
  round : s.begun = true → s.machine.lastRound ≤ s.clock
  full : ∀ t, s.full = some t → t ≤ s.machine.lastRound
  /-- A single retry is long after the last full round. -/
  retry : s.machine.state = .probing → s.machine.fromRelay = true → ∀ t, s.full = some t →
    t + s.machine.opts.retryAfter ≤ s.machine.lastRound
  zero : s.begun = true → s.atZero = false → s.machine.lastRound ≠ 0

theorem Start.paced (h : Start opts s) : Paced s := by
  obtain ⟨now, rfl⟩ := h
  constructor
  all_goals simp

theorem Paced.begun (h : Paced s) {t : Time} (hf : s.full = some t) : s.begun = true := by
  by_contra hb
  rw [h.fresh (Bool.eq_false_iff.mpr hb)] at hf
  cases hf

/-- A retry interval since the last round is one since the last full round. -/
theorem Paced.interval (h : Paced s) {t : Time} (hf : s.full = some t) {d : Duration} (hd : 0 < d)
    (hle : d ≤ since inp.now s.machine.lastRound) : t + d ≤ inp.now := by
  have h1 := h.full t hf
  have h2 := le_of_le_since hd hle
  lia

theorem full_stepped (hround : s.machine.moved inp ≠ .round) {t : Time} (hf : (s.stepped inp).full = some t) :
    s.full = some t := by
  unfold St.stepped at hf
  grind

/-- A single retry after this step: it was one before, or starts a retry interval after the last
    round. -/
theorem Paced.retry_step (h : Paced s) (ht : Timed opts s) (hp : (s.machine.step inp).1.state = .probing)
    (hfrom : (s.machine.step inp).1.fromRelay = true) {t : Time} (hf : (s.stepped inp).full = some t) :
    t + s.machine.opts.retryAfter ≤ (s.machine.step inp).1.lastRound := by
  rw [(s.machine.step_noted inp).lastRound]
  cases s.machine.step_outcome inp with
  | stays hmove hstate _ _ _ hfrom' =>
    have hf := full_stepped (by rw [hmove]; decide) hf
    rw [hmove, if_neg (by decide)]
    exact h.retry (hstate.symm.trans hp) (hfrom'.symm.trans hfrom) t hf
  | direct _ hstate => cases hstate.symm.trans hp
  | tries _ _ _ _ _ hretry =>
    have hmove := hretry hfrom
    have hf := full_stepped (by rw [hmove]; decide) hf
    have hguard := s.machine.moved_guard inp
    have hpos := (withDefaults_pos opts).2
    rw [← ht.opts] at hpos
    rw [hmove] at hguard
    rw [if_pos (.inr hmove)]
    exact h.interval hf hpos hguard.2.2
  | ends _ hstate =>
    rcases hstate with hstate | ⟨hstate, -⟩
    all_goals cases hstate.symm.trans hp

theorem Paced.step (h : Paced s) (ht : Timed opts s) (hnow : s.clock ≤ inp.now) : Paced (s.stepped inp) := by
  have hnoted := s.machine.step_noted inp
  refine ⟨?_, ?_, ?_, ?_, ?_, ?_⟩
  · intro hb
    by_cases hround : s.machine.moved inp = .round
    · rw [begun_of_round hround] at hb
      cases hb
    · rw [begun_stepped hround] at hb
      by_contra hf
      obtain ⟨t, hf⟩ := Option.ne_none_iff_exists'.mp hf
      have := full_stepped hround hf
      rw [h.fresh hb] at this
      cases this
  · intro hd
    unfold St.stepped
    exact if_pos hd
  · intro hb
    rw [stepped_machine, stepped_clock, hnoted.lastRound]
    split_ifs with hmove
    · exact le_rfl
    · rw [begun_stepped (fun hm => hmove (.inl hm))] at hb
      exact (h.round hb).trans hnow
  · intro t hf
    rw [stepped_machine, hnoted.lastRound]
    by_cases hround : s.machine.moved inp = .round
    · rw [if_pos (.inl hround)]
      unfold St.stepped at hf
      grind
    · have hf := full_stepped hround hf
      have hle := h.full t hf
      split_ifs
      · exact hle.trans ((h.round (h.begun hf)).trans hnow)
      · exact hle
  · rw [stepped_machine, (s.machine.step_frame inp).1]
    intro hp hfrom t hf
    exact h.retry_step ht hp hfrom hf
  · intro hb hz
    have hz' : s.atZero = false ∧ inp.now ≠ 0 := by
      unfold St.stepped at hz
      simpa using hz
    rw [stepped_machine, hnoted.lastRound]
    split_ifs with hmove
    · exact hz'.2
    · rw [begun_stepped (fun hm => hmove (.inl hm))] at hb
      exact h.zero hb hz'.1

theorem Paced.next (h : Paced s) (ht : Timed opts s) (hs : next s e = some s') : Paced s' := by
  cases e with
  | setCandidates list =>
    cases hs
    unfold Machine.setCandidates
    split_ifs
    all_goals exact ⟨h.fresh, h.direct, h.round, h.full, h.retry, h.zero⟩
  | setStagger on =>
    cases hs
    exact ⟨h.fresh, h.direct, h.round, h.full, h.retry, h.zero⟩
  | hold now =>
    obtain ⟨hnow, rfl⟩ := next_hold hs
    unfold Machine.hold
    split_ifs
    all_goals exact ⟨h.fresh, h.direct, fun hb => (h.round hb).trans hnow, h.full, h.retry, h.zero⟩
  | step inp =>
    obtain ⟨hnow, rfl⟩ := next_step hs
    exact h.step ht hnow

/-! ## No probe storms -/

/-- Once rounds have started no change of the list starts another. -/
theorem Probed.not_changed (h : Probed s) (ht : Timed opts s) (hs : s.machine.state ≠ .idle) (hs' : s.machine.state ≠ .direct) :
    s.machine.dirty ≠ true := by
  rw [ht.dirty, h.settled (h.begun hs hs')]
  decide

/-- A reach request joins only half a retry interval after the last round, or before any. -/
theorem Machine.joins_interval {m : Machine} (h : m.joins inp = true) :
    m.lastRound = 0 ∨ m.opts.retryAfter.tdiv 2 ≤ since inp.now m.lastRound := by
  unfold Machine.joins at h
  simp only [Bool.and_eq_true, Bool.or_eq_true, beq_iff_eq, decide_eq_true_eq] at h
  exact h.2

/-- A step that probes is a window after the last probe, unless a reach request widens a
    single retry. -/
theorem Probed.apart (h : Probed s) (ht : Timed opts s) (hstall : opts.withDefaults.probeWindow ≤ opts.withDefaults.stallAfter)
    (hnow : s.clock ≤ inp.now) (hact : (s.machine.step inp).2.action = .probe) {t : Time} (hp : s.probed = some t) :
    t + opts.withDefaults.probeWindow ≤ inp.now ∨
      (s.machine.moved inp = .round ∧ s.machine.state = .probing ∧ s.machine.fromRelay = true ∧ inp.reach = true) := by
  have hpos := (withDefaults_pos opts).1
  have hguard := s.machine.moved_guard inp
  have hended : s.machine.state = .relay ∨ s.machine.state = .unreachable → t + opts.withDefaults.probeWindow ≤ inp.now := by
    intro hs
    rw [← ht.opts]
    exact (h.ended hs t hp).trans hnow
  cases s.machine.step_outcome inp with
  | stays _ _ _ _ _ _ hne => exact absurd hact hne
  | direct _ _ _ _ hne => exact absurd hact hne
  | ends _ _ _ hne => exact absurd hact hne
  | tries hmove =>
    rcases hmove with hm | hm | hm
    · rw [hm] at hguard
      cases hguard with
      | idle hs =>
        rw [(h.fresh (h.idle hs)).1] at hp
        cases hp
      | unreachable hs _ => exact .inl (hended (.inr hs))
      | widened hs hf hr => exact .inr ⟨hm, hs, hf, hr⟩
      | changed hs hd _ =>
        refine absurd hd (h.not_changed ht ?_ ?_)
        all_goals rcases hs with hs | hs
        all_goals rw [hs]; decide
      | stalled hs hst =>
        have hlt := h.direct hs t hp
        rw [ht.opts] at hst
        have hle := le_of_le_since (hpos.trans_le hstall) hst.le
        have hmax := le_max_left s.machine.handshake inp.handshake
        exact .inl (by lia)
      | joined hs _ _ => exact .inl (hended (.inl hs))
    · rw [hm] at hguard
      exact .inl (hended (.inl hguard.1))
    · rw [hm] at hguard
      rw [h.probing hguard.1.probing] at hp
      cases hp
      rw [← ht.opts]
      exact .inl (ht.probed_before hguard.1)

/-- A full round starts half a retry interval after the last one, if the path was not direct
    since. -/
theorem Paced.apart (h : Paced s) (hp : Probed s) (ht : Timed opts s) (hnow : s.clock ≤ inp.now) (hz : s.atZero = false)
    (hm : s.machine.moved inp = .round) {t : Time} (hf : s.full = some t) :
    t + opts.withDefaults.retryAfter.tdiv 2 ≤ inp.now := by
  have hpos := (withDefaults_pos opts).2
  have hguard := s.machine.moved_guard inp
  have hhalf : 0 ≤ opts.withDefaults.retryAfter.tdiv 2 ∧
      opts.withDefaults.retryAfter.tdiv 2 ≤ opts.withDefaults.retryAfter := by
    rw [Int.tdiv_eq_ediv_of_nonneg hpos.le]
    lia
  have hjoins : s.machine.joins inp = true → t + opts.withDefaults.retryAfter.tdiv 2 ≤ inp.now := by
    intro hj
    rcases Machine.joins_interval hj with h0 | hle
    · exact absurd h0 (h.zero (h.begun hf) hz)
    · have hround := h.round (h.begun hf)
      have hfull := h.full t hf
      rw [ht.opts] at hle
      unfold since at hle
      lia
  rw [hm] at hguard
  cases hguard with
  | idle hs =>
    rw [h.fresh (hp.idle hs)] at hf
    cases hf
  | unreachable hs hwhy =>
    rcases hwhy with hd | hj | hr
    · refine absurd hd (hp.not_changed ht ?_ ?_)
      all_goals rw [hs]; decide
    · exact hjoins hj
    · rw [ht.opts] at hr
      have := h.interval hf hpos hr
      lia
  | widened hs hfrom _ =>
    have hretry := h.retry hs hfrom t hf
    have hround := h.round (h.begun hf)
    rw [ht.opts] at hretry
    lia
  | changed hs hd _ =>
    refine absurd hd (hp.not_changed ht ?_ ?_)
    all_goals rcases hs with hs | hs
    all_goals rw [hs]; decide
  | stalled hs _ =>
    rw [h.direct hs] at hf
    cases hf
  | joined _ hj _ => exact hjoins hj

/-- In every run with steady candidates and handshakes: a step that probes is a window after
    the last one that did, unless a reach request widens a single retry from the relay; and,
    if no step was taken at the zero time, a full round starts half a retry interval after the
    last one, unless the path was direct in between. -/
theorem probes_apart (hstall : opts.withDefaults.probeWindow ≤ opts.withDefaults.stallAfter)
    (h : Conc.Reach (Start opts) next (Conc.Holds steady) s) (hs : next s (.step inp) = some s') :
    ((s.machine.step inp).2.action = .probe → ∀ t, s.probed = some t →
      t + opts.withDefaults.probeWindow ≤ inp.now ∨
        (s.machine.moved inp = .round ∧ s.machine.state = .probing ∧ s.machine.fromRelay = true ∧ inp.reach = true)) ∧
      (s.atZero = false → s.machine.moved inp = .round → ∀ t, s.full = some t →
        t + opts.withDefaults.retryAfter.tdiv 2 ≤ inp.now) := by
  obtain ⟨hnow, rfl⟩ := next_step hs
  obtain ⟨ht, hp, hf⟩ : Timed opts s ∧ Probed s ∧ Paced s := by
    refine h.inv (I := fun s => Timed opts s ∧ Probed s ∧ Paced s) (fun _ hst => ⟨hst.timed, hst.probed, hst.paced⟩) ?_
    intro s e s' hi hok hs
    exact ⟨hi.1.next hs, hi.2.1.next hi.1 hok hs, hi.2.2.next hi.1 hs⟩
  exact ⟨fun hact t ht' => hp.apart ht hstall hnow hact ht', fun hz hm t hf' => hf.apart hp ht hnow hz hm hf'⟩

/-- `lan` was probed at 100 s and given up at 102 s; the peer asks for a round at 132 s. -/
def relayed : Option St :=
  Conc.run (Conc.guarded steady next) { machine := .new { relay := true }, clock := 0 }
    [.setCandidates [lan], .step { now := 100 * second, intent := true }, .step { now := 102 * second }]

theorem probes_apart_relayed : ∃ s, relayed = some s ∧ s.probed = some (100 * second) ∧ s.full = some (100 * second) ∧
    (s.machine.step { now := 132 * second, reach := true }).2.action = .probe ∧
    100 * second + 30 * second ≤ 132 * second := by
  obtain ⟨s, hs, hfacts⟩ := Option.map_eq_some_iff.mp (show relayed.map (fun s =>
    (decide (s.probed = some (100 * second) ∧ s.full = some (100 * second) ∧ s.atZero = false ∧
      s.machine.moved { now := 132 * second, reach := true } = .round ∧
      (s.machine.step { now := 132 * second, reach := true }).2.action = .probe),
      (next s (.step { now := 132 * second, reach := true })).isSome)) = some (true, true) by decide +kernel)
  obtain ⟨s', hs'⟩ := Option.isSome_iff_exists.mp (congrArg Prod.snd hfacts)
  obtain ⟨hp, hf, hz, hm, hact⟩ := of_decide_eq_true (congrArg Prod.fst hfacts)
  have hreach : Conc.Reach (Start { relay := true }) next (Conc.Holds steady) s :=
    (Conc.Reach.start ⟨0, rfl⟩).run_guarded _ hs
  exact ⟨s, hs, hp, hf, hact, (probes_apart (by decide) hreach hs').2 hz hm _ hf⟩

/-- A round started at the zero time counts as none: the next reach request starts another at
    once. -/
theorem rounds_at_the_zero_time : ∃ (opts : Options) (s s' : St) (inp : Input) (t : Time),
    opts.withDefaults.probeWindow ≤ opts.withDefaults.stallAfter ∧
    opts.withDefaults.probeWindow ≤ opts.withDefaults.retryAfter.tdiv 2 ∧
    Conc.Reach (Start opts) next (Conc.Holds steady) s ∧ steady s (.step inp) = true ∧ next s (.step inp) = some s' ∧
    s.machine.moved inp = .round ∧ s.full = some t ∧ ¬t + opts.withDefaults.retryAfter.tdiv 2 ≤ inp.now := by
  obtain ⟨s, hs, hfacts⟩ := Option.map_eq_some_iff.mp (show
    (Conc.run (Conc.guarded steady next) { machine := .new {}, clock := 0 } [.step { now := 0, intent := true }]).map (fun s =>
      (decide (s.machine.moved { now := 0, reach := true } = .round ∧ s.full = some 0 ∧
        steady s (.step { now := 0, reach := true }) = true), (next s (.step { now := 0, reach := true })).isSome)) =
      some (true, true) by decide +kernel)
  obtain ⟨s', hs'⟩ := Option.isSome_iff_exists.mp (congrArg Prod.snd hfacts)
  obtain ⟨hm, hf, hok⟩ := of_decide_eq_true (congrArg Prod.fst hfacts)
  exact ⟨{}, s, s', _, 0, by decide, by decide, (Conc.Reach.start ⟨0, rfl⟩).run_guarded _ hs, hok, hs', hm, hf, by decide⟩

end

end Thawr.Control.Path
