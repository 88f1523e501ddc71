/-
  Thawr.Conc.Locks — calls that take and release locks.

  A call is known by the order in which it takes and releases locks (`Prog`), with the choices
  its code makes left open. Any number of calls run at once; a call waits at a lock another one
  holds. `flow` follows a call's code with the locks it holds and accepts it when every lock it
  takes ranks above all it holds, and it ends with none.

  Proved: calls that `flow` accepts never all wait (`deadlock_free`). The lock a waiting call
  waits for is held by a call that waits in turn, for a lock of a higher rank.
-/

import Mathlib.Data.List.Basic
import Mathlib.Logic.Function.Basic
import Thawr.Conc.Runs

namespace Thawr.Conc

/-- What a call does with locks. -/
inductive Prog (L : Type) where
  | skip
  | acquire (l : L)
  | release (l : L)
  | seq (p q : Prog L)
  /-- One or the other. -/
  | alt (p q : Prog L)
  /-- Any number of times. -/
  | loop (p : Prog L)

namespace Prog

variable {L : Type}

def hold (l : L) (p : Prog L) : Prog L := .seq (.acquire l) (.seq p (.release l))

def opt (p : Prog L) : Prog L := .alt p .skip

/-- One after the other; any of them may be the last. -/
def steps : List (Prog L) → Prog L
  | [] => .skip
  | p :: ps => .seq p (opt (steps ps))

end Prog

structure Sys (ι L : Type) where
  rest : ι → List (Prog L)
  owner : L → Option ι

namespace Sys

variable {ι L : Type} [DecidableEq ι] [DecidableEq L]

def goOn (s : Sys ι L) (i : ι) (k : List (Prog L)) : Sys ι L := { s with rest := Function.update s.rest i k }

def setOwner (s : Sys ι L) (l : L) (o : Option ι) : Sys ι L := { s with owner := Function.update s.owner l o }

def step (s : Sys ι L) (e : ι × Bool) : Option (Sys ι L) :=
  match s.rest e.1 with
  | [] => none
  | .skip :: k => some (s.goOn e.1 k)
  | .acquire l :: k =>
    match s.owner l with
    | none => some ((s.goOn e.1 k).setOwner l (some e.1))
    | some _ => none
  | .release l :: k => some ((s.goOn e.1 k).setOwner l none)
  | .seq p q :: k => some (s.goOn e.1 (p :: q :: k))
  | .alt p q :: k => some (s.goOn e.1 ((if e.2 then p else q) :: k))
  | .loop p :: k => some (s.goOn e.1 (if e.2 then p :: .loop p :: k else k))

def start (calls : ι → Prog L) : Sys ι L := ⟨fun i => [calls i], fun _ => none⟩

def Start (calls : ι → Prog L) (s : Sys ι L) : Prop := s = start calls

/-- Some calls are unfinished, and all of these wait. -/
def Deadlock (s : Sys ι L) : Prop := (∃ i, s.rest i ≠ []) ∧ ∀ i, s.rest i ≠ [] → ∀ choice, s.step (i, choice) = none

end Sys

/-! ## Locks in the order of their ranks -/

section

variable {ι L : Type} [DecidableEq L] (rank : L → Nat)

/-- The locks held after `p`, from the locks held before it. -/
def flow : List L → Prog L → Option (List L)
  | held, .skip => some held
  | held, .acquire l => if held.all fun h => rank h < rank l then some (l :: held) else none
  | held, .release l => if held.contains l then some (held.erase l) else none
  | held, .seq p q =>
    match flow held p with
    | none => none
    | some held => flow held q
  | held, .alt p q =>
    match flow held p with
    | none => none
    | some after => if flow held q = some after then some after else none
  | held, .loop p => if flow held p = some held then some held else none

def flows : List L → List (Prog L) → Option (List L)
  | held, [] => some held
  | held, p :: k =>
    match flow rank held p with
    | none => none
    | some held => flows held k

/-- The calls hold `held`, and each can release what it holds. -/
structure Ranked (s : Sys ι L) (held : ι → List L) : Prop where
  rest : ∀ i, flows rank (held i) (s.rest i) = some []
  nodup : ∀ i, (held i).Nodup
  owner : ∀ l i, s.owner l = some i ↔ l ∈ held i

variable {rank} {s s' : Sys ι L} {held : ι → List L} {i : ι} {l : L} {p q : Prog L} {k : List (Prog L)} {hs hs' : List L}

theorem flows_cons : flows rank hs (p :: k) = some hs' ↔ ∃ h, flow rank hs p = some h ∧ flows rank h k = some hs' := by
  rw [flows]
  cases flow rank hs p with
  | none => simp
  | some h => simp

theorem flow_acquire (h : flow rank hs (.acquire l) = some hs') : (∀ m ∈ hs, rank m < rank l) ∧ hs' = l :: hs := by
  rw [flow, Option.ite_none_right_eq_some] at h
  exact ⟨by simpa using h.1, (Option.some.inj h.2).symm⟩

theorem flow_release (h : flow rank hs (.release l) = some hs') : l ∈ hs ∧ hs' = hs.erase l := by
  rw [flow, Option.ite_none_right_eq_some] at h
  exact ⟨by simpa using h.1, (Option.some.inj h.2).symm⟩

theorem flow_seq (h : flow rank hs (.seq p q) = some hs') : ∃ hs'', flow rank hs p = some hs'' ∧ flow rank hs'' q = some hs' := by
  rw [flow] at h
  grind

theorem flow_alt (h : flow rank hs (.alt p q) = some hs') : flow rank hs p = some hs' ∧ flow rank hs q = some hs' := by
  rw [flow] at h
  grind

theorem flow_loop (h : flow rank hs (.loop p) = some hs') : flow rank hs p = some hs ∧ hs' = hs := by
  rw [flow, Option.ite_none_right_eq_some] at h
  exact ⟨h.1, (Option.some.inj h.2).symm⟩

theorem ranked_start {calls : ι → Prog L} (hcalls : ∀ i, flow rank [] (calls i) = some []) :
    Ranked rank (.start calls) fun _ => [] := by
  refine ⟨fun i => flows_cons.mpr ⟨[], hcalls i, rfl⟩, fun _ => List.nodup_nil, fun l i => ?_⟩
  simp [Sys.start]

/-! ## What a step keeps -/

variable [DecidableEq ι]

/-- A call goes on with the locks it has. -/
theorem Ranked.goOn (h : Ranked rank s held) (hk : flows rank (held i) k = some []) : Ranked rank (s.goOn i k) held :=
  ⟨(Function.forall_update_iff s.rest fun j k => flows rank (held j) k = some []).mpr ⟨hk, fun j _ => h.rest j⟩, h.nodup, h.owner⟩

/-- A call goes on with the locks `hs`, where only `l` changed hands. -/
theorem Ranked.relock {o : Option ι} (h : Ranked rank s held) (hk : flows rank hs k = some []) (hnd : hs.Nodup)
    (hl : ∀ j, o = some j ↔ l ∈ Function.update held i hs j) (hm : ∀ m, m ≠ l → (m ∈ held i ↔ m ∈ hs)) :
    Ranked rank ((s.goOn i k).setOwner l o) (Function.update held i hs) := by
  refine ⟨fun j => ?_, fun j => ?_, fun m j => ?_⟩
  · by_cases hj : j = i
    · subst hj
      simpa [Sys.setOwner, Sys.goOn] using hk
    · simpa [Sys.setOwner, Sys.goOn, hj] using h.rest j
  · by_cases hj : j = i
    · subst hj
      simpa using hnd
    · simpa [hj] using h.nodup j
  · by_cases hml : m = l
    · subst hml
      simpa [Sys.setOwner] using hl j
    · by_cases hj : j = i
      · subst hj
        simpa [Sys.setOwner, Sys.goOn, hml, ← hm m hml] using h.owner m j
      · simpa [Sys.setOwner, Sys.goOn, hml, hj] using h.owner m j

/-- A call takes a free lock. -/
theorem Ranked.acquire (h : Ranked rank s held) (hfree : s.owner l = none) (hk : flows rank (l :: held i) k = some []) :
    Ranked rank ((s.goOn i k).setOwner l (some i)) (Function.update held i (l :: held i)) := by
  have hfree' : ∀ j, l ∉ held j := by
    intro j hj
    rw [(h.owner l j).mpr hj] at hfree
    cases hfree
  refine h.relock hk (List.nodup_cons.mpr ⟨hfree' i, h.nodup i⟩) (fun j => ?_) (fun m hm => by simp [hm])
  by_cases hj : j = i
  · simp [hj]
  · simp [hj, hfree' j, Ne.symm hj]

/-- A call releases a lock it has. -/
theorem Ranked.release (h : Ranked rank s held) (hl : l ∈ held i) (hk : flows rank ((held i).erase l) k = some []) :
    Ranked rank ((s.goOn i k).setOwner l none) (Function.update held i ((held i).erase l)) := by
  have hother : ∀ j, j ≠ i → l ∉ held j := by
    intro j hj hlj
    have he := ((h.owner l j).mpr hlj).symm.trans ((h.owner l i).mpr hl)
    exact hj (Option.some.inj he)
  refine h.relock hk ((h.nodup i).erase l) (fun j => ?_) (fun m hm => (List.mem_erase_of_ne hm).symm)
  by_cases hj : j = i
  · subst hj
    simp [(h.nodup j).not_mem_erase]
  · simp [hj, hother j hj]

theorem Ranked.step {e : ι × Bool} (h : Ranked rank s held) (hs : s.step e = some s') : ∃ held', Ranked rank s' held' := by
  obtain ⟨i, choice⟩ := e
  have hi := h.rest i
  unfold Sys.step at hs
  cases hrest : s.rest i with
  | nil =>
    simp only [hrest] at hs
    cases hs
  | cons p k =>
    rw [hrest] at hi
    obtain ⟨after, hp, hk⟩ := flows_cons.mp hi
    simp only [hrest] at hs
    cases p with
    | skip =>
      cases hs
      cases hp
      exact ⟨held, h.goOn hk⟩
    | acquire l =>
      cases hfree : s.owner l with
      | some j =>
        simp only [hfree] at hs
        cases hs
      | none =>
        simp only [hfree] at hs
        cases hs
        obtain ⟨-, rfl⟩ := flow_acquire hp
        exact ⟨_, h.acquire hfree hk⟩
    | release l =>
      cases hs
      obtain ⟨hl, rfl⟩ := flow_release hp
      exact ⟨_, h.release hl hk⟩
    | seq p q =>
      cases hs
      obtain ⟨between, hp, hq⟩ := flow_seq hp
      exact ⟨held, h.goOn (flows_cons.mpr ⟨between, hp, flows_cons.mpr ⟨after, hq, hk⟩⟩)⟩
    | alt p q =>
      cases hs
      obtain ⟨hp, hq⟩ := flow_alt hp
      refine ⟨held, h.goOn (flows_cons.mpr ⟨after, ?_, hk⟩)⟩
      cases choice with
      | true => exact hp
      | false => exact hq
    | loop p =>
      cases hs
      obtain ⟨hbody, rfl⟩ := flow_loop hp
      refine ⟨held, h.goOn ?_⟩
      cases choice with
      | true => exact flows_cons.mpr ⟨_, hbody, flows_cons.mpr ⟨_, hp, hk⟩⟩
      | false => exact hk

/-! ## No deadlock -/

/-- A call that cannot go on waits for a lock another call has. -/
theorem waits_of_blocked (hne : s.rest i ≠ []) (hb : ∀ choice, s.step (i, choice) = none) :
    ∃ l k j, s.rest i = .acquire l :: k ∧ s.owner l = some j := by
  have hb := hb true
  unfold Sys.step at hb
  grind

/-- The holder of a lock a call waits for is not done, and waits for one of a higher rank. -/
theorem Ranked.holder_waits (h : Ranked rank s held) (hblocked : ∀ i, s.rest i ≠ [] → ∀ choice, s.step (i, choice) = none) {j : ι}
    (hj : s.owner l = some j) : ∃ m k n, s.rest j = .acquire m :: k ∧ s.owner m = some n ∧ rank l < rank m := by
  have hl := (h.owner l j).mp hj
  have hne : s.rest j ≠ [] := by
    intro hnil
    have hdone := h.rest j
    rw [hnil, flows] at hdone
    rw [Option.some.inj hdone] at hl
    cases hl
  obtain ⟨m, k, n, hrest, hm⟩ := waits_of_blocked hne (hblocked j hne)
  have hflow := h.rest j
  rw [hrest] at hflow
  obtain ⟨after, hp, -⟩ := flows_cons.mp hflow
  exact ⟨m, k, n, hrest, hm, (flow_acquire hp).1 l hl⟩

theorem Ranked.not_deadlock (h : Ranked rank s held) {bound : Nat} (hbound : ∀ l, rank l ≤ bound) : ¬s.Deadlock := by
  intro ⟨⟨i, hi⟩, hblocked⟩
  obtain ⟨l, k, j, -, hl⟩ := waits_of_blocked hi (hblocked i hi)
  -- from holder to holder the ranks rise, and they are bounded
  have hrise : ∀ d l j, bound - rank l ≤ d → s.owner l = some j → False := by
    intro d
    induction d with
    | zero =>
      intro l j hd hj
      obtain ⟨m, _, _, -, -, hlt⟩ := h.holder_waits hblocked hj
      have := hbound m
      omega
    | succ d ih =>
      intro l j hd hj
      obtain ⟨m, _, n, -, hm, hlt⟩ := h.holder_waits hblocked hj
      exact ih m n (by omega) hm
  exact hrise _ l j (Nat.le_refl _) hl

/-- Calls that take locks in the order of their ranks never all wait. -/
theorem deadlock_free {calls : ι → Prog L} {bound : Nat} (hbound : ∀ l, rank l ≤ bound)
    (hcalls : ∀ i, flow rank [] (calls i) = some []) (h : Reach (Sys.Start calls) Sys.step Always s) : ¬s.Deadlock := by
  have hranked : ∃ held, Ranked rank s held := by
    refine h.inv (I := fun s => ∃ held, Ranked rank s held) (fun s hs => ?_) fun s e s' hi _ hs => ?_
    · rw [hs]
      exact ⟨_, ranked_start hcalls⟩
    · obtain ⟨held, hi⟩ := hi
      exact hi.step hs
  obtain ⟨held, hi⟩ := hranked
  exact hi.not_deadlock hbound

end

end Thawr.Conc
