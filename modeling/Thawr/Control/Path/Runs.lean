/-
  Thawr.Control.Path.Runs — runs of one path machine under `SetCandidates`, `SetStagger`,
  `Hold` and `Step` (`internal/control/path/machine.go`) with a clock that never goes back.

  A change of the candidates is not forgotten in any of them (`no_change_forgotten`): a
  machine that probes while its list has changed never runs off the end of its round; when
  its window is over it starts a round over the new list. It leaves probing for the relay or
  for unreachable only if that list is empty (`emptied_list_leaves_probing`). The endpoint is
  the zero address exactly in idle, relay and unreachable.
-/

import Thawr.Conc.Runs
import Thawr.Control.Path.Moves

namespace Thawr.Control.Path

open Go Netip

/-! ## Runs -/

/-- A machine and what is remembered of its run; it reads nothing of the latter. -/
structure St where
  machine : Machine
  /-- The last time shown. -/
  clock : Time
  /-- The candidates changed since the last full round started. -/
  changed : Bool := false
  /-- A full round has started. -/
  begun : Bool := false
  /-- The last step. -/
  last : Option Time := none
  /-- The last step that asked for a probe. -/
  probed : Option Time := none
  /-- The start of the last full round, if the path was not direct since. -/
  full : Option Time := none
  /-- A step was taken at the zero time. -/
  atZero : Bool := false

inductive Ev where
  | setCandidates (list : List AddrPort)
  | setStagger (on : Bool)
  | hold (now : Time)
  | step (inp : Input)

def St.stepped (s : St) (inp : Input) : St :=
  let m := s.machine
  let r := m.step inp
  let round := decide (m.moved inp = .round)
  { machine := r.1
    clock := inp.now
    changed := s.changed && !round
    begun := s.begun || round
    last := some inp.now
    probed := if r.2.action = .probe then some inp.now else s.probed
    full := if r.1.state = .direct then none else if round then some inp.now else s.full
    atZero := s.atZero || decide (inp.now = 0) }

def next (s : St) : Ev → Option St
  | .setCandidates list =>
    some { s with machine := s.machine.setCandidates list, changed := s.changed || decide (s.machine.candidates ≠ list) }
  | .setStagger on => some { s with machine := s.machine.setStagger on }
  | .hold now => if s.clock ≤ now then some { s with machine := s.machine.hold now, clock := now } else none
  | .step inp => if s.clock ≤ inp.now then some (s.stepped inp) else none

def Start (opts : Options) (s : St) : Prop := ∃ now, s = { machine := .new opts, clock := now }

theorem next_hold {s s' : St} {now : Time} (h : next s (.hold now) = some s') :
    s.clock ≤ now ∧ s' = { s with machine := s.machine.hold now, clock := now } := by
  unfold next at h
  simp only at h
  split_ifs at h with hnow
  cases h
  exact ⟨hnow, rfl⟩

theorem next_step {s s' : St} {inp : Input} (h : next s (.step inp) = some s') : s.clock ≤ inp.now ∧ s' = s.stepped inp := by
  unfold next at h
  simp only at h
  split_ifs at h with hnow
  cases h
  exact ⟨hnow, rfl⟩

/-! ## Windows and times -/

section

variable {a b t : Time} {d : Duration}

theorem since_le_of_le (h : a ≤ b) : since t b ≤ since t a :=
  max_le_max (min_le_min (Int.sub_le_sub_left h t) le_rfl) le_rfl

/-- A saturated difference that reaches a positive duration is no more than the real one. -/
theorem le_of_le_since (hd : 0 < d) (h : d ≤ since a b) : b + d ≤ a := by
  unfold since at h
  lia

end

section

variable {s s' : St} {e : Ev} {inp : Input} {opts : Options}

theorem withDefaults_pos (opts : Options) : 0 < opts.withDefaults.probeWindow ∧ 0 < opts.withDefaults.retryAfter := by
  unfold Options.withDefaults second
  simp only
  split_ifs
  all_goals constructor
  all_goals lia

structure Timed (opts : Options) (s : St) : Prop where
  opts : s.machine.opts = opts.withDefaults
  lag : 0 ≤ s.machine.lag
  dirty : s.machine.dirty = s.changed
  /-- `Hold` only moves the start of the window forward. -/
  probing : s.machine.state = .probing →
    s.machine.lastProbe ≤ s.machine.windowStart ∧ s.machine.windowStart ≤ s.clock ∧
      s.machine.opts.probeWindow ≤ s.machine.window

/-- A machine whose list has changed does not run off the end of its window: the same step
    starts a round. -/
theorem Timed.unchanged_of_expired (h : Timed opts s) (hexp : s.machine.Expired inp) : s.changed = false := by
  obtain ⟨hle, -, hwin⟩ := h.probing hexp.probing
  rw [← h.dirty]
  by_contra hd
  apply hexp.unchanged (Bool.eq_true_of_not_eq_false hd)
  calc
    s.machine.opts.probeWindow ≤ s.machine.window := hwin
    _ ≤ since inp.now s.machine.windowStart := hexp.window
    _ ≤ since inp.now s.machine.lastProbe := since_le_of_le hle

theorem Timed.step (h : Timed opts s) (hnow : s.clock ≤ inp.now) : Timed opts (s.stepped inp) := by
  obtain ⟨hopts, hlag, -⟩ := s.machine.step_frame inp
  have hnoted := s.machine.step_noted inp
  refine ⟨hopts.trans h.opts, hlag.trans_ge h.lag, ?_, ?_⟩
  · rw [St.stepped, hnoted.dirty, h.dirty]
    simp
  · intro hp
    cases s.machine.step_outcome inp with
    | stays _ hstate _ hwin hstart _ hact =>
      obtain ⟨hle, hclock, hwindow⟩ := h.probing (hstate.symm.trans hp)
      simp only [St.stepped, hstart, hwin, hnoted.lastProbe, if_neg hact, hopts]
      exact ⟨hle, hclock.trans hnow, hwindow⟩
    | direct _ hstate =>
      cases hstate.symm.trans hp
    | tries _ _ _ hstart hwin _ hact =>
      simp only [St.stepped, hstart, hnoted.lastProbe, if_pos hact, hopts]
      refine ⟨le_rfl, le_rfl, ?_⟩
      have hl := h.lag
      rcases hwin with hwin | hwin
      · exact hwin.ge
      · rw [hwin]
        lia
    | ends _ hstate =>
      rcases hstate with hstate | ⟨hstate, -⟩
      all_goals cases hstate.symm.trans hp

theorem Timed.next (h : Timed opts s) (hs : next s e = some s') : Timed opts s' := by
  cases e with
  | setCandidates list =>
    cases hs
    unfold Machine.setCandidates
    split_ifs with hc
    · refine ⟨h.opts, h.lag, ?_, h.probing⟩
      simp [h.dirty, hc]
    · refine ⟨h.opts, h.lag, ?_, h.probing⟩
      simp [hc]
  | setStagger on =>
    cases hs
    refine ⟨h.opts, ?_, h.dirty, h.probing⟩
    have hpos := (withDefaults_pos opts).1
    rw [← h.opts] at hpos
    unfold Machine.setStagger
    simp only
    split_ifs
    · exact Int.tdiv_nonneg hpos.le (by decide)
    · exact le_rfl
  | hold now =>
    obtain ⟨hnow, rfl⟩ := next_hold hs
    unfold Machine.hold
    split_ifs with hp
    · refine ⟨h.opts, h.lag, h.dirty, fun _ => ?_⟩
      obtain ⟨hle, hclock, hwin⟩ := h.probing hp
      exact ⟨hle.trans (hclock.trans hnow), le_rfl, hwin⟩
    · exact ⟨h.opts, h.lag, h.dirty, fun hq => absurd hq hp⟩
  | step inp =>
    obtain ⟨hnow, rfl⟩ := next_step hs
    exact h.step hnow

theorem Start.timed (h : Start opts s) : Timed opts s := by
  obtain ⟨now, rfl⟩ := h
  exact ⟨rfl, le_rfl, rfl, fun hp => by cases hp⟩

/-! ## No change is forgotten -/

/-- Only lists of valid addresses are set. -/
def validLists (_ : St) : Ev → Bool
  | .setCandidates list => list.all fun a => a.isValid
  | _ => true

/-- The endpoint fits the state: an address where the path is or is being tried, and none
    elsewhere. -/
def Placed (m : Machine) : Prop :=
  match m.state with
  | .probing | .direct => m.endpoint.isValid = true
  | .idle | .relay | .unreachable => m.endpoint = AddrPort.zero

theorem Placed.zero_iff {m : Machine} (h : Placed m) :
    m.endpoint = AddrPort.zero ↔ m.state = .idle ∨ m.state = .relay ∨ m.state = .unreachable := by
  unfold Placed at h
  have hvalid : m.endpoint.isValid = true → m.endpoint ≠ AddrPort.zero := by
    intro hv he
    rw [he] at hv
    cases hv
  grind

theorem Placed.step {m : Machine} (h : Placed m) (hlist : ∀ a ∈ m.candidates, a.isValid = true) : Placed (m.step inp).1 := by
  unfold Placed
  cases m.step_outcome inp with
  | stays _ hstate hend =>
    rw [hstate, hend]
    exact h
  | direct _ hstate hend =>
    rw [hstate]
    rcases hend with ⟨hend, hv⟩ | ⟨hend, hp, -⟩
    · rw [hend]
      exact hv
    · unfold Placed at h
      rw [hp] at h
      rw [hend]
      exact h
  | tries _ hstate hend =>
    rw [hstate]
    exact hlist _ hend
  | ends _ hstate hend =>
    rcases hstate with hstate | ⟨hstate, -⟩
    all_goals rw [hstate]; exact hend

structure WellPlaced (s : St) : Prop where
  list : ∀ a ∈ s.machine.candidates, a.isValid = true
  placed : Placed s.machine

theorem WellPlaced.next (h : WellPlaced s) (hok : validLists s e = true) (hs : next s e = some s') : WellPlaced s' := by
  cases e with
  | setCandidates list =>
    cases hs
    unfold Machine.setCandidates
    split_ifs
    · exact ⟨h.list, h.placed⟩
    · exact ⟨List.all_eq_true.mp hok, h.placed⟩
  | setStagger on =>
    cases hs
    exact ⟨h.list, h.placed⟩
  | hold now =>
    obtain ⟨-, rfl⟩ := next_hold hs
    unfold Machine.hold
    split_ifs
    all_goals exact ⟨h.list, h.placed⟩
  | step inp =>
    obtain ⟨-, rfl⟩ := next_step hs
    refine ⟨?_, h.placed.step h.list⟩
    rw [St.stepped, (s.machine.step_frame inp).2.2]
    exact h.list

theorem Start.wellPlaced (h : Start opts s) : WellPlaced s := by
  obtain ⟨now, rfl⟩ := h
  exact ⟨fun a ha => absurd ha List.not_mem_nil, rfl⟩

/-- A machine that probes with a changed list starts a round once its window is over, unless
    a handshake made the path direct. -/
theorem Machine.moved_of_dirty {m : Machine} (hp : m.state = .probing) (hd : m.dirty = true)
    (hover : m.opts.probeWindow ≤ since inp.now m.lastProbe) :
    m.moved inp = .reached ∨ m.moved inp = .answered ∨ m.moved inp = .round := by
  have hstate : (m.observe inp).state = .probing := hp
  have hdirty : (m.observe inp).dirty = true := hd
  have hwin : decide ((m.observe inp).opts.probeWindow ≤ since inp.now (m.observe inp).lastProbe) = true := decide_eq_true hover
  unfold Machine.moved Machine.move
  grind

/-- A machine that probes while its list has changed never runs off the end of its round: it
    leaves for the relay or for unreachable only as the round over the new list it starts is
    over at once, the list being empty. When its window is over it starts that round or is
    direct. After every step the endpoint is the zero address exactly in idle, relay and
    unreachable. -/
theorem no_change_forgotten (h : Conc.Reach (Start opts) next (Conc.Holds validLists) s)
    (hs : next s (.step inp) = some s') :
    (s.machine.state = .probing → s.changed = true →
      (s'.machine.state = .relay ∨ s'.machine.state = .unreachable →
        s.machine.moved inp = .round ∧ s.machine.candidates = []) ∧
      (s.machine.window ≤ since inp.now s.machine.windowStart →
        s.machine.moved inp = .round ∨ s'.machine.state = .direct)) ∧
      (s'.machine.endpoint = AddrPort.zero ↔
        s'.machine.state = .idle ∨ s'.machine.state = .relay ∨ s'.machine.state = .unreachable) := by
  obtain ⟨-, rfl⟩ := next_step hs
  rw [show (s.stepped inp).machine = (s.machine.step inp).1 from rfl]
  have htimed : Timed opts s := h.inv (fun _ => Start.timed) (fun _ _ _ hi _ hs => hi.next hs)
  have hplaced : WellPlaced s := h.inv (fun _ => Start.wellPlaced) (fun _ _ _ hi hok hs => hi.next hok hs)
  refine ⟨fun hp hchanged => ⟨fun hleft => ?_, fun hover => ?_⟩, (hplaced.placed.step hplaced.list).zero_iff⟩
  · cases s.machine.step_outcome inp with
    | stays _ hstate =>
      rw [hstate, hp] at hleft
      rcases hleft with hl | hl
      all_goals cases hl
    | direct _ hstate =>
      rw [hstate] at hleft
      rcases hleft with hl | hl
      all_goals cases hl
    | tries _ hstate =>
      rw [hstate] at hleft
      rcases hleft with hl | hl
      all_goals cases hl
    | ends hwhy =>
      rcases hwhy with hround | ⟨-, hexp⟩
      · exact hround
      · rw [htimed.unchanged_of_expired hexp] at hchanged
        cases hchanged
  · obtain ⟨hle, -, hwin⟩ := htimed.probing hp
    have hprobe := (hwin.trans hover).trans (since_le_of_le hle)
    rcases Machine.moved_of_dirty hp (htimed.dirty.trans hchanged) hprobe with hm | hm | hm
    · exact .inr (by rw [(Machine.step_reached hm).1])
    · exact .inr (by rw [(Machine.step_answered hm).1])
    · exact .inl hm

/-- A new machine with the relay that starts probing `lan` at 100 s and then gets `list`. -/
def changedTo (list : List AddrPort) : Option St :=
  Conc.run (Conc.guarded validLists next) { machine := .new { relay := true }, clock := 0 }
    [.setCandidates [lan], .step { now := 100 * second, intent := true }, .setCandidates list]

theorem changedTo_reach {list : List AddrPort} (h : changedTo list = some s) :
    Conc.Reach (Start { relay := true }) next (Conc.Holds validLists) s :=
  (Conc.Reach.start ⟨0, rfl⟩).run_guarded _ h

theorem no_change_forgotten_wan : ∃ s s', changedTo [wan] = some s ∧ next s (.step { now := 102 * second }) = some s' ∧
    (s.machine.moved { now := 102 * second } = .round ∨ s'.machine.state = .direct) := by
  obtain ⟨s, hs, hfacts⟩ := Option.map_eq_some_iff.mp (show (changedTo [wan]).map (fun s =>
    (decide (s.machine.state = .probing ∧ s.changed = true ∧
      s.machine.window ≤ since (102 * second) s.machine.windowStart), (next s (.step { now := 102 * second })).isSome)) =
    some (true, true) by decide +kernel)
  obtain ⟨s', hs'⟩ := Option.isSome_iff_exists.mp (congrArg Prod.snd hfacts)
  obtain ⟨hp, hc, hw⟩ := of_decide_eq_true (congrArg Prod.fst hfacts)
  exact ⟨s, s', hs, hs', ((no_change_forgotten (changedTo_reach hs) hs').1 hp hc).2 hw⟩

/-- A list that becomes empty while the machine probes: the round over it is over as it
    starts, and the machine goes from probing to the relay. -/
theorem emptied_list_leaves_probing : ∃ s s' inp, Conc.Reach (Start { relay := true }) next (Conc.Holds validLists) s ∧
    next s (.step inp) = some s' ∧ s.machine.state = .probing ∧ s.changed = true ∧ s'.machine.state = .relay := by
  obtain ⟨s, hs, hfacts⟩ := Option.map_eq_some_iff.mp (show (changedTo []).map (fun s =>
    (decide (s.machine.state = .probing ∧ s.changed = true),
      (next s (.step { now := 102 * second })).map fun s' => s'.machine.state)) = some (true, some .relay) by decide +kernel)
  obtain ⟨s', hs', hr⟩ := Option.map_eq_some_iff.mp (congrArg Prod.snd hfacts)
  obtain ⟨hp, hc⟩ := of_decide_eq_true (congrArg Prod.fst hfacts)
  exact ⟨s, s', _, changedTo_reach hs, hs', hp, hc, hr⟩

end

end Thawr.Control.Path
