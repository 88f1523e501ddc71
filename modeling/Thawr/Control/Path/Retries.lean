/-
  Thawr.Control.Path.Retries — the turns of the candidates from the relay
  (`internal/control/path/machine.go`: `retryFromRelay`, `Step`).

  A machine on the relay tries one candidate at a time, each time the next in turn. Full
  rounds, reach requests, failed windows and changes of the stagger come in between; none of
  them takes a turn or gives one back (`step_retryIdx`). So as long as the list stays what it
  is, the retried candidates are read off the list in a circle (`retries_get`), and any as
  many retries in a row as there are candidates try each of them once (`retries_fair`).
-/

import Mathlib.Data.List.Rotate
import Thawr.Control.Path.Runs

namespace Thawr.Control.Path

open Go Netip

namespace Machine

def call (m : Machine) : Ev → Machine
  | .setCandidates list => m.setCandidates list
  | .setStagger on => m.setStagger on
  | .hold now => m.hold now
  | .step inp => (m.step inp).1

/-- The endpoint of a call that leaves the relay to probe a single candidate. -/
def retried (m : Machine) : Ev → Option AddrPort
  | .step inp =>
    if m.state = .relay ∧ (m.step inp).2.action = .probe ∧ (m.step inp).1.fromRelay = true then some (m.step inp).2.endpoint
    else none
  | _ => none

def retries (m : Machine) : List Ev → List AddrPort
  | [] => []
  | e :: es => (m.retried e).toList ++ (m.call e).retries es

section

variable {m : Machine} {inp : Input} {e : Ev} {es : List Ev}

/-! ## One call -/

theorem probeNext_retryIdx (m : Machine) (now : Time) : (m.probeNext now).1.retryIdx = m.retryIdx := by
  unfold probeNext
  split
  · split_ifs
    all_goals rfl
  · rfl

/-- Only a retry takes a turn. -/
theorem step_retryIdx (h : m.moved inp ≠ .retry) : (m.step inp).1.retryIdx = m.retryIdx := by
  rw [step_machine]
  cases hm : m.moved inp with
  | stay => rfl
  | reached => rfl
  | answered => rfl
  | giveUp => rfl
  | retry => exact absurd hm h
  | round => exact probeNext_retryIdx _ _
  | next => exact probeNext_retryIdx _ _

/-- A probe marked as a single one is `retryFromRelay`'s. -/
theorem retried_step (m : Machine) (inp : Input) :
    m.retried (.step inp) = if m.moved inp = .retry then m.candidates[m.retryIdx % m.candidates.length]? else none := by
  unfold retried
  simp only
  by_cases h : m.moved inp = .retry
  · have hguard := m.moved_guard inp
    rw [h] at hguard
    obtain ⟨c, hget, hm, ha⟩ := step_retry h hguard.2.1
    rw [if_pos h, hget, if_pos ⟨hguard.1, ha, by rw [hm]⟩, (m.step_output inp).2, hm]
  · rw [if_neg h, if_neg]
    rintro ⟨-, hact, hsingle⟩
    cases m.step_outcome inp with
    | stays _ _ _ _ _ _ hno => exact hno hact
    | direct _ _ _ _ hno => exact hno hact
    | tries _ _ _ _ _ hretry _ => exact h (hretry hsingle)
    | ends _ _ _ hno => exact hno hact

/-- A call that sets no other list keeps the one there is. -/
theorem call_candidates (h : ∀ list, e = .setCandidates list → list = m.candidates) : (m.call e).candidates = m.candidates := by
  cases e with
  | setCandidates list =>
    rw [call, setCandidates, if_pos (h list rfl).symm]
  | setStagger on => rfl
  | hold now =>
    rw [call, hold]
    split_ifs
    all_goals rfl
  | step inp => exact (m.step_frame inp).2.2

/-- A call that retries nothing takes no turn. -/
theorem call_retryIdx (h : m.retried e = none) : (m.call e).retryIdx = m.retryIdx := by
  cases e with
  | setCandidates list =>
    rw [call, setCandidates]
    split_ifs
    all_goals rfl
  | setStagger on => rfl
  | hold now =>
    rw [call, hold]
    split_ifs
    all_goals rfl
  | step inp =>
    refine step_retryIdx fun hretry => ?_
    have hguard := m.moved_guard inp
    rw [hretry] at hguard
    obtain ⟨c, hget, -⟩ := step_retry hretry hguard.2.1
    rw [retried_step, if_pos hretry, hget] at h
    cases h

/-- A call that retries tries the candidate whose turn it is, and the next one's comes. -/
theorem call_retried {c : AddrPort} (h : m.retried e = some c) :
    m.candidates[m.retryIdx % m.candidates.length]? = some c ∧
      (m.call e).retryIdx = m.retryIdx % m.candidates.length + 1 := by
  cases e with
  | step inp =>
    rw [retried_step] at h
    split_ifs at h with hretry
    have hguard := m.moved_guard inp
    rw [hretry] at hguard
    obtain ⟨_, -, hm, -⟩ := step_retry hretry hguard.2.1
    refine ⟨h, ?_⟩
    rw [call, hm]
  | setCandidates list => cases h
  | setStagger on => cases h
  | hold now => cases h

/-! ## Runs -/

/-- The retries go round the list from where the turn was. -/
theorem retries_get (hfix : ∀ list, .setCandidates list ∈ es → list = m.candidates) {i : Nat} (hi : i < (m.retries es).length) :
    (m.retries es)[i]? = m.candidates[(m.retryIdx + i) % m.candidates.length]? := by
  induction es generalizing m i with
  | nil => cases hi
  | cons e es ih =>
    have hcand : (m.call e).candidates = m.candidates :=
      call_candidates fun list he => hfix list (he ▸ List.mem_cons_self)
    have hrest : ∀ list, .setCandidates list ∈ es → list = (m.call e).candidates := by
      intro list hl
      rw [hcand]
      exact hfix list (List.mem_cons_of_mem _ hl)
    rw [retries] at hi ⊢
    cases hr : m.retried e with
    | none =>
      rw [hr] at hi
      rw [Option.toList_none, List.nil_append, ih hrest hi, hcand, call_retryIdx hr]
    | some c =>
      rw [hr] at hi
      obtain ⟨hget, hturn⟩ := call_retried hr
      rw [Option.toList_some, List.singleton_append]
      cases i with
      | zero => exact hget.symm
      | succ i =>
        rw [List.getElem?_cons_succ, ih hrest (Nat.lt_of_succ_lt_succ hi), hcand, hturn, Nat.add_assoc, Nat.mod_add_mod,
          Nat.add_comm 1 i]

/-- Any `n` retries in a row are the list of `n` candidates, begun where the turn was. -/
theorem retries_rotate (hfix : ∀ list, .setCandidates list ∈ es → list = m.candidates) {k : Nat}
    (hk : k + m.candidates.length ≤ (m.retries es).length) :
    ((m.retries es).drop k).take m.candidates.length = m.candidates.rotate (m.retryIdx + k) := by
  refine List.ext_getElem? fun i => ?_
  by_cases hi : i < m.candidates.length
  · rw [List.getElem?_take_of_lt hi, List.getElem?_drop, retries_get hfix (by omega), List.getElem?_rotate hi]
    congr 2
    omega
  · have hleft : (((m.retries es).drop k).take m.candidates.length).length ≤ i := by
      rw [List.length_take]
      omega
    have hright : (m.candidates.rotate (m.retryIdx + k)).length ≤ i := by
      rw [List.length_rotate]
      omega
    rw [List.getElem?_eq_none hleft, List.getElem?_eq_none hright]

/-- In every run in which the list stays what it is: any as many retries in a row as there are
    candidates try each of them exactly once. -/
theorem retries_fair (m : Machine) (es : List Ev) (hfix : ∀ list, .setCandidates list ∈ es → list = m.candidates) (k : Nat)
    (hk : k + m.candidates.length ≤ (m.retries es).length) :
    (((m.retries es).drop k).take m.candidates.length).Perm m.candidates := by
  rw [retries_rotate hfix hk]
  exact List.rotate_perm _ _

end

def onRelay : Machine :=
  { opts := { relay := true : Options }.withDefaults, state := .relay, candidates := [lan, wan], started := true
    wanted := true, lastRound := 100 * second, lastProbe := 102 * second }

/-- A retry of `lan` that fails, a full round that a reach request starts and that fails too, a
    retry of `wan`, and one of `lan` again. -/
def betweenRounds : List Ev :=
  [.step { now := 160 * second }, .step { now := 162 * second }, .setCandidates [lan, wan],
    .step { now := 200 * second, reach := true }, .step { now := 202 * second }, .setStagger true,
    .step { now := 204 * second }, .step { now := 264 * second }, .hold (265 * second), .step { now := 269 * second },
    .step { now := 330 * second }]

theorem retries_fair_betweenRounds : onRelay.retries betweenRounds = [lan, wan, lan] ∧
    (((onRelay.retries betweenRounds).drop 1).take 2).Perm [lan, wan] := by
  have hrun : onRelay.retries betweenRounds = [lan, wan, lan] := by decide +kernel
  refine ⟨hrun, retries_fair onRelay betweenRounds ?_ 1 ?_⟩
  · intro list hl
    show list = [lan, wan]
    simpa [betweenRounds] using hl
  · rw [hrun]
    decide

end Machine

end Thawr.Control.Path
