/-
  Thawr.Control.Limiter — the two rate limiters of the server (`internal/control/limiter.go`).

  `Limiter` counts failures per key and past a threshold refuses attempts until a delay has
  passed since the last one; `RateLimit` allows a number of attempts per key in a window. Each
  method holds the mutex for its whole body, so it is one function on the state. A map is the
  function of its keys; a key of `RateLimit` that is missing reads as the empty list, and the
  filter that works in place keeps what it has not read yet. Times are nanoseconds.

  Proved of `RateLimit`, in every sequence of calls with a clock that does not go back: every
  window that ends at an allowed attempt has at most `max` allowed attempts of the key, and an
  attempt is refused exactly when the window before it has `max` of them (`rate_limit_holds`).
-/

import Thawr.Conc.Runs
import Thawr.Conc.Window
import Thawr.Go.Bytes
import Mathlib.Logic.Function.Basic

namespace Thawr.Control

open Go Conc

/-! ## Failures and delays -/

structure LimitEntry where
  failures : List Int := []
  last : Int := 0

def LimitEntry.prune (e : LimitEntry) (cutoff : Int) : LimitEntry :=
  { e with failures := e.failures.dropWhile fun t => decide (t < cutoff) }

structure Limiter where
  window : Int
  threshold : Nat
  maxDelay : Int

namespace Limiter

variable (l : Limiter)

/-- How long after the last of `n` failures an attempt has to wait. -/
def delay (n : Nat) : Int := min (2 ^ min (n - l.threshold) 30 * 1000000000) l.maxDelay

/-- `allow`, with the entry it pruned. -/
def allow (entries : Str → Option LimitEntry) (now : Int) (key : Str) : (Str → Option LimitEntry) × Bool :=
  match entries key with
  | none => (entries, true)
  | some e =>
    let e := e.prune (now - l.window)
    (Function.update entries key (some e),
      decide (e.failures.length < l.threshold) || decide (l.delay e.failures.length ≤ now - e.last))

/-- `fail`: keys whose last failure is out of the window are dropped. -/
def fail (entries : Str → Option LimitEntry) (now : Int) (key : Str) : Str → Option LimitEntry :=
  let e := ((entries key).getD {}).prune (now - l.window)
  Function.update (fun k => (entries k).filter fun other => !decide (other.last < now - l.window)) key
    (some { failures := e.failures ++ [now], last := now })

def reset (entries : Str → Option LimitEntry) (key : Str) : Str → Option LimitEntry := Function.update entries key none

end Limiter

/-! ## Attempts in a window -/

structure RateLimit where
  window : Int
  max : Int

namespace RateLimit

variable (r : RateLimit)

/-- `allow`: also the attempts it leaves. -/
def allow (attempts : Str → List Int) (now : Int) (key : Str) : (Str → List Int) × Bool :=
  let cutoff := now - r.window
  let kept := (attempts key).filter fun t => !decide (t < cutoff)
  let rest := fun k => if (attempts k).getLast?.any (fun t => decide (t < cutoff)) then [] else attempts k
  if r.max ≤ kept.length then (Function.update rest key kept, false)
  else (Function.update rest key (kept ++ [now]), true)

/-- The limiter between two calls, with the time of the last call and every attempt that was
    allowed, the oldest first. -/
structure St where
  attempts : Str → List Int := fun _ => []
  clock : Int := 0
  allowed : List (Str × Int) := []

def next (s : St) (e : Str × Int) : Option St :=
  if e.2 < s.clock then none
  else
    let a := r.allow s.attempts e.2 e.1
    some { attempts := a.1, clock := e.2, allowed := if a.2 then s.allowed ++ [e] else s.allowed }

def Start (s : St) : Prop := s.attempts = (fun _ => []) ∧ s.allowed = []

/-- How many attempts of a key were allowed in the window that ends at a time. -/
def inWindow (log : List (Str × Int)) (key : Str) (t : Int) : Int :=
  (((timesOf key log).filter fun x => decide (t - r.window ≤ x) && decide (x ≤ t)).length : Nat)

section

variable {r : RateLimit} {s s' : St} {key k : Str} {now t : Int}

/-- What the filter keeps. -/
theorem kept_eq (l : List Int) : (l.filter fun t => !decide (t < now - r.window)) = recent r.window now l :=
  List.filter_congr fun x _ => by rw [← decide_not, decide_eq_decide, Int.not_lt]

/-- A call as its answer, and what it leaves for its own key and for the others. -/
theorem allow_cases (attempts : Str → List Int) (now : Int) (key : Str) :
    (r.allow attempts now key).2 = decide (((recent r.window now (attempts key)).length : Int) < r.max) ∧
    (r.allow attempts now key).1 key =
      (if (r.allow attempts now key).2 then recent r.window now (attempts key) ++ [now] else recent r.window now (attempts key)) ∧
    ∀ k, k ≠ key → (r.allow attempts now key).1 k = attempts k ∨
      ((r.allow attempts now key).1 k = [] ∧ ∃ x, (attempts k).getLast? = some x ∧ x < now - r.window) := by
  have hrest : ∀ k, (if (attempts k).getLast?.any (fun t => decide (t < now - r.window)) then [] else attempts k) = attempts k ∨
      ((if (attempts k).getLast?.any (fun t => decide (t < now - r.window)) then [] else attempts k) = [] ∧
        ∃ x, (attempts k).getLast? = some x ∧ x < now - r.window) := by grind
  unfold allow
  simp only [kept_eq]
  by_cases hfull : r.max ≤ ((recent r.window now (attempts key)).length : Int)
  · rw [if_pos hfull]
    grind
  · rw [if_neg hfull]
    grind

/-- Every time of a log in order is at most its last. -/
theorem le_getLast {l : List Int} (h : l.Pairwise (· ≤ ·)) {x y : Int} (hx : l.getLast? = some x) (hy : y ∈ l) : y ≤ x := by
  obtain ⟨m, rfl⟩ := List.getLast?_eq_some_iff.mp hx
  rcases List.mem_append.mp hy with hy | hy
  · exact (List.pairwise_append.mp h).2.2 y hy x List.mem_cons_self
  · rw [List.mem_singleton.mp hy]

structure Inv (r : RateLimit) (s : St) : Prop where
  past : ∀ x ∈ s.allowed, x.2 ≤ s.clock
  sorted : ∀ k, (s.attempts k).Pairwise (· ≤ ·)
  /-- On every window to come the attempts kept are those that were allowed. -/
  kept : ∀ k t, s.clock ≤ t → recent r.window t (s.attempts k) = recent r.window t (timesOf k s.allowed)
  within : ∀ x ∈ s.allowed, r.inWindow s.allowed x.1 x.2 ≤ r.max

/-- At a time no earlier than every attempt, the window is what is recent. -/
theorem inWindow_eq {log : List (Str × Int)} (h : ∀ x ∈ log, x.2 ≤ t) :
    r.inWindow log key t = (recent r.window t (timesOf key log)).length := by
  unfold inWindow recent
  congr 2
  refine List.filter_congr fun x hx => ?_
  have := h _ (mem_timesOf.mp hx)
  simp [this]

theorem Inv.start (h : Start s) : Inv r s := by
  obtain ⟨ha, hl⟩ := h
  constructor
  · rw [hl]
    intro x hx
    cases hx
  · intro k
    rw [ha]
    exact .nil
  · intro k t _
    rw [ha, hl]
    rfl
  · rw [hl]
    intro x hx
    cases hx

/-- The answer by the attempts that were allowed. -/
theorem Inv.answer (h : Inv r s) (hnow : s.clock ≤ now) :
    (r.allow s.attempts now key).2 = decide (r.inWindow s.allowed key now < r.max) := by
  have hpast : ∀ x ∈ s.allowed, x.2 ≤ now := fun x hx => Int.le_trans (h.past x hx) hnow
  rw [(allow_cases s.attempts now key).1, h.kept key now hnow, inWindow_eq hpast]

/-- Only times in order are left. -/
theorem Inv.sorted_allow (h : Inv r s) (hnow : s.clock ≤ now) (k : Str) :
    ((r.allow s.attempts now key).1 k).Pairwise (· ≤ ·) := by
  obtain ⟨-, hown, hothers⟩ := allow_cases (r := r) s.attempts now key
  by_cases hk : k = key
  · subst hk
    have hsorted : (recent r.window now (s.attempts k)).Pairwise (· ≤ ·) := (h.sorted k).filter _
    rw [hown]
    split
    · refine List.pairwise_append.mpr ⟨hsorted, List.pairwise_singleton _ _, fun x hx y hy => ?_⟩
      rw [h.kept k now hnow] at hx
      have := h.past _ (mem_timesOf.mp (mem_recent.mp hx).1)
      rw [List.mem_singleton.mp hy]
      exact Int.le_trans this hnow
    · exact hsorted
  · rcases hothers k hk with he | he
    · rw [he]
      exact h.sorted k
    · rw [he.1]
      exact .nil

/-- The windows to come see the attempts of every key as before, and the new one if it was
    allowed. -/
theorem Inv.recent_allow (h : Inv r s) (hnow : s.clock ≤ now) (ht : now ≤ t) (k : Str) :
    recent r.window t ((r.allow s.attempts now key).1 k) =
      recent r.window t (timesOf k (if (r.allow s.attempts now key).2 then s.allowed ++ [(key, now)] else s.allowed)) := by
  obtain ⟨-, hown, hothers⟩ := allow_cases (r := r) s.attempts now key
  have hkept := h.kept k t (Int.le_trans hnow ht)
  by_cases hk : k = key
  · subst hk
    rw [hown]
    split
    · simp only [recent_append, timesOf_append, recent_recent ht, hkept, timesOf_cons_self, timesOf_nil]
    · rw [recent_recent ht, hkept]
  · have hsame : timesOf k (if (r.allow s.attempts now key).2 then s.allowed ++ [(key, now)] else s.allowed) =
      timesOf k s.allowed := by
      split
      · rw [timesOf_append, timesOf_cons_ne (Ne.symm hk), timesOf_nil, List.append_nil]
      · rfl
    rw [hsame, ← hkept]
    rcases hothers k hk with he | ⟨he, x, hx, hlt⟩
    · rw [he]
    · -- a key that was dropped had nothing left in the window
      rw [he, recent_nil, recent_eq_nil]
      intro y hy
      have := le_getLast (h.sorted k) hx hy
      omega

/-- An attempt at `now` is in no window that ends before. -/
theorem inWindow_append {log : List (Str × Int)} (ht : t < now) : r.inWindow (log ++ [(key, now)]) k t = r.inWindow log k t := by
  unfold inWindow
  rw [timesOf_append, List.filter_append]
  have hnone : ((timesOf k [(key, now)]).filter fun x => decide (t - r.window ≤ x) && decide (x ≤ t)) = [] := by
    rw [List.filter_eq_nil_iff]
    intro x hx
    have hx : x = now := congrArg Prod.snd (List.mem_singleton.mp (mem_timesOf.mp hx))
    simp only [Bool.and_eq_true, decide_eq_true_eq, not_and]
    omega
  rw [hnone, List.append_nil]

theorem Inv.past_append (h : Inv r s) (hnow : s.clock ≤ now) : ∀ x ∈ s.allowed ++ [(key, now)], x.2 ≤ now := by
  intro x hx
  rcases List.mem_append.mp hx with hx | hx
  · exact Int.le_trans (h.past x hx) hnow
  · rw [List.mem_singleton.mp hx]

/-- Where there was room for it, an attempt that is allowed fills no window. -/
theorem Inv.within_append (h : Inv r s) (hnow : s.clock ≤ now) (hroom : r.inWindow s.allowed key now < r.max) :
    ∀ x ∈ s.allowed ++ [(key, now)], r.inWindow (s.allowed ++ [(key, now)]) x.1 x.2 ≤ r.max := by
  have hpast : ∀ x ∈ s.allowed, x.2 ≤ now := fun x hx => Int.le_trans (h.past x hx) hnow
  have hlog : ∀ x ∈ s.allowed ++ [(key, now)], x.2 ≤ now := h.past_append hnow
  intro x hx
  by_cases hx2 : x.2 = now
  · -- the window that ends now: what was in it before, and at most this attempt
    rw [hx2, inWindow_eq hlog]
    rw [inWindow_eq hpast] at hroom
    by_cases hkey : x.1 = key
    · rw [hkey, timesOf_append, recent_append, timesOf_cons_self, timesOf_nil, List.length_append]
      have hone : (recent r.window now [now]).length ≤ 1 := List.length_filter_le _ _
      omega
    · have hold : x ∈ s.allowed := by grind
      have hwithin := h.within x hold
      rw [hx2, inWindow_eq hpast] at hwithin
      rw [timesOf_append, timesOf_cons_ne (Ne.symm hkey), timesOf_nil, List.append_nil]
      exact hwithin
  · have hle := hlog x hx
    rw [inWindow_append (by omega)]
    rcases List.mem_append.mp hx with hx | hx
    · exact h.within x hx
    · rw [List.mem_singleton.mp hx] at hx2
      exact absurd rfl hx2

theorem Inv.next {e : Str × Int} (h : Inv r s) (hs : RateLimit.next r s e = some s') : Inv r s' := by
  obtain ⟨key, now⟩ := e
  obtain ⟨hclock, hs⟩ := Option.ite_none_left_eq_some.mp hs
  have hnow : s.clock ≤ now := Int.not_lt.mp hclock
  cases hs
  refine ⟨?_, fun k => h.sorted_allow hnow k, fun k t ht => h.recent_allow hnow ht k, ?_⟩
  · simp only
    split
    · exact h.past_append hnow
    · exact fun x hx => Int.le_trans (h.past x hx) hnow
  · simp only
    split
    · rename_i hallowed
      rw [h.answer hnow, decide_eq_true_eq] at hallowed
      exact h.within_append hnow hallowed
    · exact h.within

theorem reach_inv (h : Reach Start r.next Always s) : Inv r s :=
  h.inv (fun _ => Inv.start) (fun _ _ _ hi _ hs => hi.next hs)

end

/-- Every run keeps to the limit: `x` is any attempt that was allowed, and a call for `key` at
    any later time `now` is refused exactly when its window is full. -/
theorem rate_limit_holds (r : RateLimit) {s : St} (h : Reach Start r.next Always s) :
    (∀ x ∈ s.allowed, r.inWindow s.allowed x.1 x.2 ≤ r.max) ∧
    ∀ key now, s.clock ≤ now →
      ((r.allow s.attempts now key).2 = false ↔ r.max ≤ r.inWindow s.allowed key now) := by
  have hi := reach_inv h
  refine ⟨hi.within, fun key now hnow => ?_⟩
  rw [hi.answer hnow, decide_eq_false_iff_not, Int.not_lt]

/-- Two attempts in ten: the third is refused, one of another key is not, and after the window
    there is room again. -/
theorem rate_limit_two_in_ten :
    ∃ s, Reach Start (RateLimit.next ⟨10, 2⟩) Always s ∧ s.allowed = [(str "a", 0), (str "a", 5), (str "b", 6), (str "a", 11)] ∧
      RateLimit.inWindow ⟨10, 2⟩ s.allowed (str "a") 11 = 2 ∧
      ((RateLimit.allow ⟨10, 2⟩ s.attempts 15 (str "a")).2 = false ↔ 2 ≤ RateLimit.inWindow ⟨10, 2⟩ s.allowed (str "a") 15) := by
  obtain ⟨s, hrun, hs⟩ := Option.map_eq_some_iff.mp
    (show (Conc.run (RateLimit.next ⟨10, 2⟩) {} [(str "a", 0), (str "a", 5), (str "a", 6), (str "b", 6), (str "a", 11)]).map
      (fun s => (s.allowed, s.clock)) = some ([(str "a", 0), (str "a", 5), (str "b", 6), (str "a", 11)], 11) by decide +kernel)
  have hreach : Reach Start (RateLimit.next ⟨10, 2⟩) Always s := .run (.start ⟨rfl, rfl⟩) _ hrun
  obtain ⟨hlog, hclock⟩ := Prod.mk.inj hs
  refine ⟨s, hreach, hlog, ?_, (rate_limit_holds _ hreach).2 (str "a") 15 (by omega)⟩
  rw [hlog]
  decide +kernel

end RateLimit

end Thawr.Control
