/-
  Thawr.Conc.Runs — the runs of a system of steps.

  A system has start states and a partial step function; a run takes the events one by one.
  `Reach ok` are the states of the runs whose events all meet a condition on the state before
  them, and `Reach.inv` is the rule for what holds in all of them. What depends on the events
  so far has a rule of its own (`run_history`).
-/

import Mathlib.Logic.Basic

namespace Thawr.Conc

variable {σ ε : Type}

/-- The states of the runs from `start` whose events meet `ok`. -/
inductive Reach (start : σ → Prop) (step : σ → ε → Option σ) (ok : σ → ε → Prop) : σ → Prop where
  | start {s : σ} : start s → Reach start step ok s
  | step {s s' : σ} (e : ε) : Reach start step ok s → ok s e → step s e = some s' → Reach start step ok s'

def Always : σ → ε → Prop := fun _ _ => True

variable {start : σ → Prop} {step : σ → ε → Option σ} {ok : σ → ε → Prop} {s s' : σ}

/-- What holds at the start and is kept by every step that meets `ok` holds in every state. -/
theorem Reach.inv {I : σ → Prop} (h : Reach start step ok s) (hstart : ∀ s, start s → I s)
    (hstep : ∀ s e s', I s → ok s e → step s e = some s' → I s') : I s := by
  induction h with
  | start h => exact hstart _ h
  | step e _ hok hs ih => exact hstep _ e _ ih hok hs

def run (step : σ → ε → Option σ) (s : σ) : List ε → Option σ
  | [] => some s
  | e :: es =>
    match step s e with
    | none => none
    | some s' => run step s' es

/-- What holds of the start with no events, and is kept by every step with one event more, holds
    at the end of a run with all of them. -/
theorem run_history {I : List ε → σ → Prop} {es : List ε} (hr : run step s es = some s') (hstart : I [] s)
    (hstep : ∀ past e rest s s', es = past ++ e :: rest → I past s → step s e = some s' → I (past ++ [e]) s') : I es s' := by
  suffices h : ∀ rest past s, es = past ++ rest → I past s → run step s rest = some s' → I es s' from h es [] s rfl hstart hr
  intro rest
  induction rest with
  | nil =>
    intro past s hes hi hr
    cases hr
    rw [hes, List.append_nil]
    exact hi
  | cons e rest ih =>
    intro past s hes hi hr
    rw [run] at hr
    cases hs : step s e with
    | none =>
      rw [hs] at hr
      cases hr
    | some t =>
      rw [hs] at hr
      refine ih (past ++ [e]) t ?_ (hstep past e rest s t hes hi hs) hr
      rw [hes, List.append_assoc]
      rfl

/-- A run whose steps are among those allowed ends in a state reached. -/
theorem Reach.run_of {step' : σ → ε → Option σ} {es : List ε}
    (hsub : ∀ e ∈ es, ∀ s s', step' s e = some s' → ok s e ∧ step s e = some s') (h : Reach start step ok s)
    (hr : Conc.run step' s es = some s') : Reach start step ok s' := by
  induction es generalizing s with
  | nil =>
    cases hr
    exact h
  | cons e es ih =>
    rw [Conc.run] at hr
    cases hs : step' s e with
    | none =>
      rw [hs] at hr
      cases hr
    | some t =>
      rw [hs] at hr
      obtain ⟨hok, hs⟩ := hsub e List.mem_cons_self s t hs
      exact ih (fun e he => hsub e (List.mem_cons_of_mem _ he)) (.step e h hok hs) hr

theorem Reach.run (h : Reach start step Always s) (es : List ε) (hr : Conc.run step s es = some s') :
    Reach start step Always s' :=
  .run_of (fun _ _ _ _ hs => ⟨trivial, hs⟩) h hr

/-- Where a run ends, if it does. -/
def after (step : σ → ε → Option σ) (s : σ) (es : List ε) : σ := (run step s es).getD s

theorem run_after {es : List ε} (hr : (Conc.run step s es).isSome = true) : Conc.run step s es = some (after step s es) := by
  obtain ⟨t, ht⟩ := Option.isSome_iff_exists.mp hr
  rw [after, ht]
  rfl

theorem Reach.after {es : List ε} (h : Reach start step ok s) (hok : ∀ e ∈ es, ∀ t, ok t e)
    (hr : (Conc.run step s es).isSome = true) : Reach start step ok (Conc.after step s es) :=
  .run_of (fun e he t _ hs => ⟨hok e he t, hs⟩) h (run_after hr)

theorem Reach.after_one (e : ε) (h : Reach start step ok s) (hok : ok s e) (hr : (Conc.run step s [e]).isSome = true) :
    Reach start step ok (Conc.after step s [e]) := by
  have hrun := run_after hr
  rw [Conc.run] at hrun
  cases hs : step s e with
  | none =>
    rw [hs] at hrun
    cases hrun
  | some t =>
    rw [hs] at hrun
    exact Option.some.inj hrun ▸ .step e h hok hs

/-- The steps that meet a condition. -/
def guarded (ok : σ → ε → Bool) (step : σ → ε → Option σ) (s : σ) (e : ε) : Option σ := if ok s e then step s e else none

/-- The runs that meet a condition that can be computed. -/
abbrev Holds (ok : σ → ε → Bool) : σ → ε → Prop := fun s e => ok s e = true

theorem Reach.run_guarded {ok : σ → ε → Bool} (h : Reach start step (Holds ok) s) (es : List ε)
    (hr : Conc.run (guarded ok step) s es = some s') : Reach start step (Holds ok) s' := by
  refine .run_of (fun e _ s s' hs => ?_) h hr
  unfold guarded at hs
  split at hs
  · exact ⟨by assumption, hs⟩
  · cases hs

/-- Events that only move a part of the state the others do not read can be left out of a
    run. -/
theorem run_erase {erase : σ → σ} {keep : ε → Bool} {es : List ε} (hr : run step s es = some s')
    (hkeep : ∀ e ∈ es, keep e = true → ∀ s s', step s e = some s' → step (erase s) e = some (erase s'))
    (hdrop : ∀ e ∈ es, keep e = false → ∀ s s', step s e = some s' → erase s' = erase s) :
    run step (erase s) (es.filter keep) = some (erase s') := by
  induction es generalizing s with
  | nil =>
    cases hr
    rfl
  | cons e es ih =>
    rw [run] at hr
    have ih := fun s hr => @ih s hr (fun e he => hkeep e (List.mem_cons_of_mem _ he))
      (fun e he => hdrop e (List.mem_cons_of_mem _ he))
    cases hs : step s e with
    | none =>
      rw [hs] at hr
      cases hr
    | some t =>
      rw [hs] at hr
      cases hk : keep e with
      | true =>
        rw [List.filter_cons_of_pos hk, run, hkeep e List.mem_cons_self hk s t hs]
        exact ih t hr
      | false => grind

end Thawr.Conc
