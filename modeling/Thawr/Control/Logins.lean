/-
  Thawr.Control.Logins — concurrent password checks (`Users.Authenticate` in
  `internal/control/users.go`, over the limiter of `internal/control/limiter.go`).

  A call asks the limiter (`allow`), starts the password check (`verify`) and, when the password
  is wrong, records the failure (`finish`); the limiter's mutex is free in between. A call may
  end early when the user cannot be read or the hash cannot be checked (`abort`). Calls differ
  in their name and in how far they are, so the state counts them. It keeps, for the statements
  only, when checks started and failures were recorded, the newest first.

  Proved: as long as an attempt at a name asks only while the failures in the window and the
  attempts between their `allow` and their `fail` are together fewer than the threshold, or
  while there are no such attempts, a check that has `k` earlier ones in its window, `k` no less
  than the threshold, starts at least the limiter's delay for `k` failures after every one of
  them (`throttled_while_sparse`). When more of them overlap it need not: eleven calls that
  asked before the first failure was recorded start at once
  (`overlapping_attempts_are_not_throttled`).
-/

import Thawr.Control.Limiter

namespace Thawr.Control.Logins

open Go Conc

def loginLimit : Limiter := { window := 900000000000, threshold := 10, maxDelay := 900000000000 }

structure St where
  entries : Str → Option LimitEntry := fun _ => none
  /-- The calls at a name that the limiter let pass and that have not started their check. -/
  asked : Str → Nat := fun _ => 0
  /-- Those whose check is going on. -/
  checking : Str → Nat := fun _ => 0
  clock : Int := 0
  starts : List (Str × Int) := []
  fails : List (Str × Int) := []

inductive Act where
  | allow
  | verify
  /-- `right`: the password is, and the user exists and is not disabled. -/
  | finish (right : Bool)
  /-- `started`: the check has. -/
  | abort (started : Bool)

/-- A step of one call at a name. -/
structure Ev where
  name : Str
  now : Int
  act : Act

def act (s : St) (name : Str) : Act → Option St
  | .allow =>
    let a := loginLimit.allow s.entries s.clock name
    some { s with entries := a.1, asked := if a.2 then Function.update s.asked name (s.asked name + 1) else s.asked }
  | .verify =>
    if s.asked name = 0 then none
    else some { s with
      asked := Function.update s.asked name (s.asked name - 1)
      checking := Function.update s.checking name (s.checking name + 1), starts := (name, s.clock) :: s.starts }
  | .finish right =>
    if s.checking name = 0 then none
    else if right then some { s with
      entries := Limiter.reset s.entries name, checking := Function.update s.checking name (s.checking name - 1) }
    else some { s with
      entries := loginLimit.fail s.entries s.clock name, checking := Function.update s.checking name (s.checking name - 1)
      fails := (name, s.clock) :: s.fails }
  | .abort false =>
    if s.asked name = 0 then none else some { s with asked := Function.update s.asked name (s.asked name - 1) }
  | .abort true =>
    if s.checking name = 0 then none else some { s with checking := Function.update s.checking name (s.checking name - 1) }

/-- One step of one call, at a time not before the last. -/
def next (s : St) (e : Ev) : Option St := if e.now < s.clock then none else act { s with clock := e.now } e.name e.act

def Start (s : St) : Prop := ∃ clock, s = { clock := clock }

/-- How many times of a log are in the window that ends at `t`. -/
def within (t : Int) (l : List Int) : Nat := (recent loginLimit.window t l).length

/-- How far apart the checks have to be when the window has `k` of them. -/
def backoff (k : Nat) : Int := min (2 ^ (k - loginLimit.threshold) * 1000000000) loginLimit.maxDelay

/-- Every check that has `k` earlier ones in its window, `k` no less than the threshold, starts so
    long after each earlier one. -/
def Throttled (starts : List Int) : Prop :=
  ∀ newer t older, starts = newer ++ t :: older →
    loginLimit.threshold ≤ within t older → ∀ y ∈ older, y + backoff (within t older) ≤ t

def failuresOf (entry : Option LimitEntry) : List Int := (entry.map (·.failures)).getD []

/-- Only wrong passwords at this name, and attempts that overlap only while they and the failures
    in the window are fewer than the threshold. The attempts counted are those between their
    `allow` and their `fail`. -/
def Sparse (name : Str) (s : St) (e : Ev) : Prop :=
  e.name = name →
    match e.act with
    | .allow => s.asked name + s.checking name = 0 ∨
        within e.now (failuresOf (s.entries name)) + (s.asked name + s.checking name) < loginLimit.threshold
    | .verify => True
    | .finish right => right = false
    | .abort started => started = false

instance (name : Str) (s : St) : DecidablePred (Sparse name s)
  | ⟨_, _, .allow⟩ => inferInstanceAs (Decidable (_ → _))
  | ⟨_, _, .verify⟩ => inferInstanceAs (Decidable (_ → True))
  | ⟨_, _, .finish _⟩ => inferInstanceAs (Decidable (_ → _))
  | ⟨_, _, .abort _⟩ => inferInstanceAs (Decidable (_ → _))

/-! ## The delay -/

/-- The limiter's delay grows with the failures, and its cap on the exponent is past the maximum
    delay. -/
theorem backoff_le {k n : Nat} (h : k ≤ n) : backoff k ≤ loginLimit.delay n := by
  unfold backoff Limiter.delay
  simp only [loginLimit]
  by_cases hn : n - 10 ≤ 30
  · have hpow : (2 : Int) ^ (k - 10) ≤ 2 ^ (n - 10) := by
      exact_mod_cast Nat.pow_le_pow_right (by decide) (show k - 10 ≤ n - 10 by omega)
    rw [Nat.min_eq_left hn]
    omega
  · rw [Nat.min_eq_right (Nat.le_of_not_le hn)]
    omega

/-! ## What the limiter knows of the checks at one name -/

structure View where
  entry : Option LimitEntry
  asked : Nat
  checking : Nat
  clock : Int
  starts : List Int
  fails : List Int

def St.view (s : St) (u : Str) : View :=
  ⟨s.entries u, s.asked u, s.checking u, s.clock, timesOf u s.starts, timesOf u s.fails⟩

def Ready (v : View) : Prop :=
  ∀ t, v.clock ≤ t → loginLimit.threshold ≤ within t v.starts → ∀ y ∈ v.starts, y + backoff (within t v.starts) ≤ t

/-- Failures and attempts in flight do not go over the threshold. -/
def Light (v : View) : Prop := ∀ t, v.clock ≤ t → within t v.fails + (v.asked + v.checking) ≤ loginLimit.threshold

structure Inv (v : View) : Prop where
  past : ∀ t ∈ v.starts, t ≤ v.clock
  failed : ∀ t ∈ v.fails, t ≤ v.clock
  /-- No failure is missing from a window to come. -/
  recorded : ∀ t, v.clock ≤ t → within t v.fails ≤ within t (failuresOf v.entry)
  last : ∀ e, v.entry = some e → ∀ f ∈ v.fails, f ≤ e.last
  /-- Every check that started has failed since or is going on. -/
  matched : ∀ t, within t v.starts ≤ within t v.fails + v.checking
  load : v.asked + v.checking ≤ 1 ∨ Light v
  ready : 0 < v.asked → Ready v
  throttled : Throttled v.starts

def EntryKept (v : View) (entry : Option LimitEntry) : Prop :=
  entry = v.entry ∨ entry = v.entry.map (·.prune (v.clock - loginLimit.window)) ∨
    (entry = none ∧ ∃ e, v.entry = some e ∧ e.last < v.clock - loginLimit.window)

section

variable {v : View} {entry : Option LimitEntry} {now t : Int}

/-- Where failures and attempts are few, a check that starts has too few before it to wait for. -/
theorem Light.ready (h : Light v) (hm : ∀ t, within t v.starts ≤ within t v.fails + v.checking) (hc : 0 < v.asked) :
    Ready v := by
  intro t ht hk
  have hlight := h t ht
  have hmatched := hm t
  omega

theorem Inv.tick (h : Inv v) (hnow : v.clock ≤ now) : Inv { v with clock := now } where
  past t ht := Int.le_trans (h.past t ht) hnow
  failed t ht := Int.le_trans (h.failed t ht) hnow
  recorded t ht := h.recorded t (Int.le_trans hnow ht)
  last := h.last
  matched := h.matched
  load := h.load.imp id fun hl t ht => hl t (Int.le_trans hnow ht)
  ready hc := fun t ht => h.ready hc t (Int.le_trans hnow ht)
  throttled := h.throttled

theorem Inv.keep (h : Inv v) (hentry : EntryKept v entry) : Inv { v with entry := entry } := by
  refine { h with recorded := fun t ht => ?_, last := fun e he => ?_ }
  · have hrec := h.recorded t ht
    unfold failuresOf within at hrec ⊢
    rcases hentry with rfl | rfl | ⟨rfl, e, hold, hlt⟩
    · exact hrec
    · cases hold : v.entry with
      | none =>
        rw [hold] at hrec
        exact hrec
      | some e =>
        rw [hold] at hrec
        simp only [Option.map_some, Option.getD_some, LimitEntry.prune] at hrec ⊢
        rw [recent_dropWhile (Int.sub_le_sub_right ht _)]
        exact hrec
    · -- the entry was dropped: its last failure, and so every one, is out of the window
      have hnone : recent loginLimit.window t v.fails = [] := by
        refine recent_eq_nil fun f hf => ?_
        have hlast := h.last e hold f hf
        have ht : v.clock ≤ t := ht
        omega
      rw [hnone]
      exact Nat.zero_le _
  · rcases hentry with rfl | rfl | ⟨rfl, -⟩
    · exact h.last e he
    · obtain ⟨old, hold, rfl⟩ := Option.map_eq_some_iff.mp he
      exact h.last old hold
    · cases he

/-- An attempt the limiter lets pass may start: the limiter has a failure for every check in the
    window, so its delay is no shorter, and its last failure is no earlier than their starts. -/
theorem Inv.grant (h : Inv v) (hfree : v.asked + v.checking = 0)
    (hallow : ∀ e, v.entry = some e → (e.prune (v.clock - loginLimit.window)).failures.length < loginLimit.threshold ∨
      loginLimit.delay (e.prune (v.clock - loginLimit.window)).failures.length ≤ v.clock - e.last) : Ready v := by
  have hmatched : ∀ t, within t v.starts ≤ within t v.fails := by
    intro t
    have := h.matched t
    omega
  intro t ht hk y hy
  have hstarts : within t v.starts ≤ within v.clock (failuresOf v.entry) :=
    calc within t v.starts
      _ ≤ within v.clock v.starts := recent_length_anti ht
      _ ≤ within v.clock v.fails := hmatched v.clock
      _ ≤ within v.clock (failuresOf v.entry) := h.recorded v.clock (Int.le_refl _)
  cases he : v.entry with
  | none =>
    rw [failuresOf, he] at hstarts
    have hzero : loginLimit.threshold ≤ 0 := Nat.le_trans hk hstarts
    exact absurd hzero (by decide)
  | some e =>
    have hpruned : within v.clock (failuresOf v.entry) ≤ (e.prune (v.clock - loginLimit.window)).failures.length := by
      rw [within, failuresOf, he, LimitEntry.prune, Option.map_some, Option.getD_some,
        ← recent_dropWhile (l := e.failures) (Int.le_refl (v.clock - loginLimit.window))]
      exact List.length_filter_le _ _
    have hdelay := backoff_le (Nat.le_trans hstarts hpruned)
    -- the window that starts with the check has a failure too
    obtain ⟨f, hf, hyf⟩ : ∃ f ∈ v.fails, y ≤ f := by
      have hstarted : y ∈ recent loginLimit.window (y + loginLimit.window) v.starts := mem_recent.mpr ⟨hy, by omega⟩
      have hpos := Nat.lt_of_lt_of_le (List.length_pos_of_mem hstarted) (hmatched _)
      obtain ⟨f, hf⟩ := List.exists_mem_of_length_pos hpos
      obtain ⟨hf, hle⟩ := mem_recent.mp hf
      exact ⟨f, hf, by omega⟩
    have hlast := h.last e he f hf
    have hwait := hallow e he
    omega

/-- The limiter lets an attempt pass while no other is in flight, or while all of them are few. -/
theorem Inv.granted (h : Inv v)
    (hallow : ∀ e, v.entry = some e → (e.prune (v.clock - loginLimit.window)).failures.length < loginLimit.threshold ∨
      loginLimit.delay (e.prune (v.clock - loginLimit.window)).failures.length ≤ v.clock - e.last)
    (hok : v.asked + v.checking = 0 ∨
      within v.clock (failuresOf v.entry) + (v.asked + v.checking) < loginLimit.threshold) :
    Inv { v with asked := v.asked + 1 } := by
  rcases hok with hfree | hfew
  · exact { h with load := .inl (by dsimp only; omega), ready := fun _ => h.grant hfree hallow }
  · have hlight : Light { v with asked := v.asked + 1 } := by
      intro t ht
      have hlater : within t v.fails ≤ within v.clock v.fails := recent_length_anti ht
      have hrec := h.recorded v.clock (Int.le_refl _)
      dsimp only
      omega
    exact { h with load := .inr hlight, ready := hlight.ready h.matched }

/-- A check that starts: the attempt was ready for it, and another that has asked is one of few. -/
theorem Inv.starting (h : Inv v) (hasked : 0 < v.asked) :
    Inv { v with asked := v.asked - 1, checking := v.checking + 1, starts := v.clock :: v.starts } := by
  have hflight : v.asked - 1 + (v.checking + 1) = v.asked + v.checking := by omega
  have hmatched : ∀ t, within t (v.clock :: v.starts) ≤ within t v.fails + (v.checking + 1) := by
    intro t
    have hold := h.matched t
    have hmore : within t (v.clock :: v.starts) ≤ within t v.starts + 1 := recent_cons_length_le
    omega
  have hlight : Light v → Light { v with asked := v.asked - 1, checking := v.checking + 1, starts := v.clock :: v.starts } := by
    intro hl t ht
    have hold := hl t ht
    dsimp only
    rwa [hflight]
  refine { h with past := ?_, matched := hmatched, load := ?_, ready := fun hmore => ?_, throttled := ?_ }
  · exact List.forall_mem_cons.mpr ⟨Int.le_refl _, h.past⟩
  · dsimp only
    rw [hflight]
    exact h.load.imp id hlight
  · have htwo : ¬v.asked + v.checking ≤ 1 := by
      have hmore : 0 < v.asked - 1 := hmore
      omega
    exact (hlight (h.load.resolve_left htwo)).ready hmatched hmore
  · intro newer t older hsplit hk y hy
    cases newer with
    | nil =>
      obtain ⟨rfl, rfl⟩ := List.cons.inj hsplit
      exact h.ready hasked v.clock (Int.le_refl _) hk y hy
    | cons x newer => exact h.throttled newer t older (List.cons.inj hsplit).2 hk y hy

/-- The entry after a failure. -/
def afterFail (entry : Option LimitEntry) (now : Int) : LimitEntry :=
  ⟨((failuresOf entry).dropWhile fun x => decide (x < now - loginLimit.window)) ++ [now], now⟩

/-- A failure counts once in the log and once in the entry. -/
theorem Inv.recorded_fail (h : Inv v) (ht : v.clock ≤ t) :
    within t (v.clock :: v.fails) ≤ within t (afterFail v.entry v.clock).failures := by
  have hrec := h.recorded t ht
  unfold within at hrec ⊢
  have hone : recent loginLimit.window t (v.clock :: v.fails) =
      recent loginLimit.window t [v.clock] ++ recent loginLimit.window t v.fails := by
    rw [← recent_append]
    rfl
  rw [hone, afterFail, recent_append, recent_dropWhile (by omega), List.length_append, List.length_append]
  omega

/-- A check that ends in a failure leaves one call less and one failure more. -/
theorem Inv.failing (h : Inv v) (hchecking : 0 < v.checking) :
    Inv { v with
      entry := some (afterFail v.entry v.clock), checking := v.checking - 1, fails := v.clock :: v.fails } := by
  have hpast : ∀ t ∈ v.clock :: v.fails, t ≤ v.clock := List.forall_mem_cons.mpr ⟨Int.le_refl _, h.failed⟩
  have hmatched : ∀ t, within t v.starts ≤ within t (v.clock :: v.fails) + (v.checking - 1) := by
    intro t
    have hold := h.matched t
    by_cases ht : t - loginLimit.window ≤ v.clock
    · rw [within, within, recent_cons_of_le ht, List.length_cons]
      unfold within at hold
      omega
    · rw [within, recent_eq_nil (fun x hx => by have := h.past x hx; omega)]
      exact Nat.zero_le _
  have hlight : Light v → Light { v with
      entry := some (afterFail v.entry v.clock), checking := v.checking - 1, fails := v.clock :: v.fails } := by
    intro hl t ht
    have hold := hl t ht
    have hmore : within t (v.clock :: v.fails) ≤ within t v.fails + 1 := recent_cons_length_le
    dsimp only
    omega
  refine { h with
    failed := hpast, recorded := fun _ => h.recorded_fail, last := ?_, matched := hmatched, load := ?_, ready := ?_ }
  · rintro _ ⟨⟩
    exact hpast
  · exact h.load.imp (fun hone => Nat.le_trans (Nat.add_le_add_left (Nat.sub_le _ _) _) hone) hlight
  · -- another attempt that has asked: two were in flight, so they were few
    intro hasked
    have htwo : ¬v.asked + v.checking ≤ 1 := by
      have hasked : 0 < v.asked := hasked
      omega
    exact (hlight (h.load.resolve_left htwo)).ready hmatched hasked

theorem Inv.giveUp (h : Inv v) : Inv { v with asked := v.asked - 1 } := by
  have hless : v.asked - 1 + v.checking ≤ v.asked + v.checking := Nat.add_le_add_right (Nat.sub_le _ _) _
  refine { h with load := ?_, ready := fun hasked => h.ready (Nat.lt_of_lt_of_le hasked (Nat.sub_le _ _)) }
  exact h.load.imp (Nat.le_trans hless) fun hl t ht => Nat.le_trans (Nat.add_le_add_left hless _) (hl t ht)

end

/-! ## One step -/

section

variable {u name : Str} {s s' : St} {a : Act}

/-- What `allow` leaves of an entry, and what it says. -/
theorem allow_entry (entries : Str → Option LimitEntry) (now : Int) (name n : Str) :
    (loginLimit.allow entries now name).1 n = entries n ∨
      (loginLimit.allow entries now name).1 n = (entries n).map (·.prune (now - loginLimit.window)) := by
  unfold Limiter.allow
  cases he : entries name with
  | none => exact .inl rfl
  | some e => grind

theorem allow_true {entries : Str → Option LimitEntry} {now : Int} {e : LimitEntry} (he : entries name = some e)
    (h : (loginLimit.allow entries now name).2 = true) :
    (e.prune (now - loginLimit.window)).failures.length < loginLimit.threshold ∨
      loginLimit.delay (e.prune (now - loginLimit.window)).failures.length ≤ now - e.last := by
  unfold Limiter.allow at h
  rw [he] at h
  simp only [Bool.or_eq_true, decide_eq_true_eq] at h
  exact h

/-- What `fail` leaves of the entry of another name. -/
theorem fail_entry (entries : Str → Option LimitEntry) (now : Int) {name n : Str} (hne : n ≠ name) :
    loginLimit.fail entries now name n = entries n ∨
      (loginLimit.fail entries now name n = none ∧ ∃ e, entries n = some e ∧ e.last < now - loginLimit.window) := by
  unfold Limiter.fail
  simp only [Function.update_of_ne hne]
  cases he : entries n with
  | none => exact .inl rfl
  | some e => grind

theorem fail_own (entries : Str → Option LimitEntry) (now : Int) (name : Str) :
    loginLimit.fail entries now name name = some (afterFail (entries name) now) := by
  unfold Limiter.fail afterFail failuresOf
  rw [Function.update_self]
  cases entries name with
  | none => rfl
  | some e => rfl

/-- A step at another name leaves what there is at this one, but for its entry. -/
theorem act_other (hne : name ≠ u) (h : Inv (s.view u)) (hs : act s name a = some s') : Inv (s'.view u) := by
  have hu := Ne.symm hne
  have hkept : EntryKept (s.view u) (s'.entries u) → s'.view u = { s.view u with entry := s'.entries u } → Inv (s'.view u) :=
    fun hentry hview => hview ▸ h.keep hentry
  cases a with
  | allow =>
    cases hs
    refine hkept ((allow_entry s.entries s.clock name u).imp id .inl) ?_
    simp only [St.view]
    split
    · rw [Function.update_of_ne hu]
    · rfl
  | verify =>
    obtain ⟨-, hs⟩ := Option.ite_none_left_eq_some.mp hs
    cases hs
    refine hkept (.inl rfl) ?_
    simp [St.view, Function.update_of_ne hu, timesOf_cons_ne hne]
  | finish right =>
    obtain ⟨-, hs⟩ := Option.ite_none_left_eq_some.mp hs
    cases right with
    | true =>
      cases hs
      refine hkept (.inl (Function.update_of_ne hu _ _)) ?_
      simp [St.view, Function.update_of_ne hu]
    | false =>
      cases hs
      refine hkept ((fail_entry s.entries s.clock hu).imp id .inr) ?_
      simp [St.view, Function.update_of_ne hu, timesOf_cons_ne hne]
  | abort started =>
    cases started with
    | true =>
      obtain ⟨-, hs⟩ := Option.ite_none_left_eq_some.mp hs
      cases hs
      refine hkept (.inl rfl) ?_
      simp [St.view, Function.update_of_ne hu]
    | false =>
      obtain ⟨-, hs⟩ := Option.ite_none_left_eq_some.mp hs
      cases hs
      refine hkept (.inl rfl) ?_
      simp [St.view, Function.update_of_ne hu]

theorem act_own (hok : Sparse u s ⟨u, s.clock, a⟩) (h : Inv (s.view u)) (hs : act s u a = some s') : Inv (s'.view u) := by
  have hok := hok rfl
  cases a with
  | allow =>
    cases hs
    have hentry : EntryKept (s.view u) ((loginLimit.allow s.entries s.clock u).1 u) :=
      (allow_entry s.entries s.clock u u).imp id .inl
    cases hallow : (loginLimit.allow s.entries s.clock u).2 with
    | false => exact h.keep hentry
    | true =>
      have hi := (h.granted (fun e he => allow_true he hallow) hok).keep hentry
      simpa [St.view] using hi
  | verify =>
    obtain ⟨hasked, hs⟩ := Option.ite_none_left_eq_some.mp hs
    cases hs
    simpa [St.view] using h.starting (Nat.pos_of_ne_zero hasked)
  | finish right =>
    cases hok
    obtain ⟨hchecking, hs⟩ := Option.ite_none_left_eq_some.mp hs
    cases hs
    simpa [St.view, fail_own] using h.failing (Nat.pos_of_ne_zero hchecking)
  | abort started =>
    cases hok
    obtain ⟨-, hs⟩ := Option.ite_none_left_eq_some.mp hs
    cases hs
    simpa [St.view] using h.giveUp

theorem Inv.next {e : Ev} (h : Inv (s.view u)) (hok : Sparse u s e) (hs : Logins.next s e = some s') : Inv (s'.view u) := by
  obtain ⟨hclock, hs⟩ := Option.ite_none_left_eq_some.mp hs
  have h : Inv (St.view { s with clock := e.now } u) := h.tick (Int.not_lt.mp hclock)
  obtain ⟨name, now, a⟩ := e
  by_cases hname : name = u
  · subst hname
    exact act_own hok h hs
  · exact act_other hname h hs

end

theorem Inv.start {s : St} (h : Start s) (u : Str) : Inv (s.view u) := by
  obtain ⟨clock, rfl⟩ := h
  constructor
  all_goals simp [St.view, within, Throttled]

/-! ## Every run -/

theorem throttled_while_sparse (name : Str) {s : St} (h : Reach Start next (Sparse name) s) : Throttled (timesOf name s.starts) :=
  (h.inv (I := fun s => Inv (s.view name)) (fun _ hs => Inv.start hs name) fun _ _ _ hi hok hs => hi.next hok hs).throttled

/-- Attempts at one name. -/
def alice (now : Int) (acts : List Act) : List Ev := acts.map fun a => ⟨str "alice", now, a⟩

/-- Two attempts at once, eight more one by one, all wrong, and an eleventh, which the limiter
    first refuses: its check has ten earlier ones in its window and starts a second after them. -/
theorem eleventh_attempt_waits :
    ∃ s, Reach Start next (Sparse (str "alice")) s ∧
      s.starts = (str "alice", 1000000000) :: List.replicate 10 (str "alice", 0) ∧ backoff 10 = 1000000000 ∧
      Throttled (timesOf (str "alice") s.starts) := by
  obtain ⟨s, hrun, hs⟩ := Option.map_eq_some_iff.mp
    (show (Conc.run (guarded (fun s e => decide (Sparse (str "alice") s e)) next) {}
      (alice 0 ([.allow, .allow, .verify, .verify, .finish false, .finish false] ++
          (List.replicate 8 [.allow, .verify, .finish false]).flatten) ++
        alice 999999999 [.allow] ++ alice 1000000000 [.allow, .verify])).map (·.starts) =
      some ((str "alice", 1000000000) :: List.replicate 10 (str "alice", 0)) by decide +kernel)
  have hreach : Reach Start next (Sparse (str "alice")) s := by
    refine .run_of (fun e _ s s' hstep => ?_) (.start ⟨0, rfl⟩) hrun
    unfold guarded at hstep
    split at hstep
    · exact ⟨of_decide_eq_true ‹_›, hstep⟩
    · cases hstep
  exact ⟨s, hreach, hs, by decide +kernel, throttled_while_sparse _ hreach⟩

/-- Eleven calls ask before any of them has failed, and start their checks at once: the last has
    ten earlier ones in its window and should have waited a second. -/
theorem overlapping_attempts_are_not_throttled :
    ∃ s, Reach Start next Always s ∧ s.starts = List.replicate 11 (str "alice", 0) ∧ backoff 10 = 1000000000 ∧
      ¬Throttled (timesOf (str "alice") s.starts) := by
  obtain ⟨s, hrun, hs⟩ := Option.map_eq_some_iff.mp
    (show (Conc.run next {} (alice 0 (List.replicate 11 .allow ++ List.replicate 11 .verify))).map (·.starts) =
      some (List.replicate 11 (str "alice", 0)) by decide +kernel)
  refine ⟨s, .run (.start ⟨0, rfl⟩) _ hrun, hs, by decide +kernel, fun h => ?_⟩
  rw [hs] at h
  have hlate := h [] 0 (List.replicate 10 0) (by decide +kernel) (by decide +kernel) 0 (by decide +kernel)
  exact absurd hlate (by decide +kernel)

end Thawr.Control.Logins
