/-
  Thawr.Relay.RunLoops — the runs of the relay client and their `done` channels.

  (1) An open client with an open proxy has a run that keeps the connection
      (`open_proxy_has_a_run`), in every run of the client in which no new proxy is made between
      a run's decision to return and its clearing of `running`. `idle` and the clearing are two
      critical sections: an `Endpoint` between them finds `running` still set and starts nothing
      (`a_proxy_without_a_run`).
  (2) Each `done` channel is closed once, by the run it was made for, and a `Close` that waits
      can return when that run has finished (`done_closed_by_its_run`), in every run of the
      client in which none starts between another's clearing of `running` and its
      `close(c.done)`. The deferred function reads the field after its unlock: a restart in
      between makes it close the new run's channel, and the new run closes it again
      (`a_restart_closes_twice`).
-/

import Thawr.Relay.Proxies

namespace Thawr.Relay.Client

open Go Conc
open Control.Path (Time second)

variable {c c' : Client} {e : Ev} {key : Key} {g : Nat}

/-! ## The phases after a step -/

theorem goTo_phase (c : Client) (g g' : Nat) (p : RunPhase) :
    ((c.goTo g p).runs g').phase = if g' = g then p else (c.runs g').phase := by
  by_cases h : g' = g
  · simp [goTo, h]
  · simp [goTo, h]

theorem goTo_cancelled (c : Client) (g g' : Nat) (p : RunPhase) : ((c.goTo g p).runs g').cancelled = (c.runs g').cancelled := by
  by_cases h : g' = g
  · simp [goTo, h]
  · simp [goTo, h]

theorem cancel_phase (rs : Nat → Run) (g g' : Nat) :
    (Function.update rs g { rs g with cancelled := true } g').phase = (rs g').phase := by
  by_cases h : g' = g
  · simp [h]
  · simp [h]

/-! ## A run while a proxy is open -/

theorem erase_empty (k : Key) : (∅ : GoMap Key Nat).erase k = ∅ := by
  apply Finmap.ext_lookup
  intro k'
  by_cases h : k' = k
  · subst h
    rw [Finmap.lookup_erase, Finmap.lookup_empty]
  · rw [Finmap.lookup_erase_ne h]

theorem empty_of_idle (h : c.idle = true) : c.proxies = ∅ := by
  simp only [idle, Bool.and_eq_true, decide_eq_true_eq] at h
  exact h.1.1

/-- While the client is open, `running` stands for a run, and without one, or with one that is
    about to return, there is no proxy. -/
structure Looping (c : Client) : Prop where
  running : c.running = true → ∃ g, g < c.started ∧ ((c.runs g).phase.active = true ∨ (c.runs g).phase = .leaving)
  leaving : ∀ g, g < c.started → (c.runs g).phase = .leaving → c.proxies = ∅
  stopped : c.running = false → c.proxies = ∅
  cancelled : ∀ g, (c.runs g).cancelled = false
  calls : ∀ k, c.calls k = .returned

/-- No new proxy is made between a run's decision to return and its clearing of `running`. -/
def noProxyAtTheEnd (c : Client) : Ev → Bool
  | .endpoint key socket => !c.makesProxy key socket || (List.range c.started).all fun g => decide ((c.runs g).phase ≠ .leaving)
  | _ => true

/-- A run that moves to where it is not about to return, or does so with no proxy left. -/
theorem Looping.leaving_goTo (h : Looping c) {p : RunPhase} (hl : p = .leaving → c.proxies = ∅) {g' : Nat} (hg' : g' < c.started)
    (hph : ((c.goTo g p).runs g').phase = .leaving) : c.proxies = ∅ := by
  rw [goTo_phase] at hph
  split at hph
  · exact hl hph
  · exact h.leaving g' hg' hph

theorem Looping.goTo (h : Looping c) {p : RunPhase} (hg : g < c.started) (hp : p.active = true ∨ p = .leaving)
    (hl : p = .leaving → c.proxies = ∅) : Looping (c.goTo g p) where
  running _ := ⟨g, hg, by simpa [goTo_phase] using hp⟩
  leaving _ hg' hph := h.leaving_goTo hl hg' hph
  stopped := h.stopped
  cancelled g' := (goTo_cancelled c g g' p).trans (h.cancelled g')
  calls := h.calls

theorem Looping.clear (h : Looping c) (hg : g < c.started) (hp : (c.runs g).phase = .leaving) : Looping (c.clear g) where
  running hr := by cases hr
  leaving _ hg' hph := h.leaving_goTo (p := .cleared) (by simp) hg' hph
  stopped _ := h.leaving g hg hp
  cancelled g' := (goTo_cancelled c g g' _).trans (h.cancelled g')
  calls := h.calls

theorem Looping.closeDone (h : Looping c) (hp : (c.runs g).phase = .cleared) : Looping (c.closeDone g) := by
  have hgo : Looping (c.goTo g .finished) := by
    refine ⟨fun hr => ?_, fun g' hg' hph => h.leaving_goTo (by simp) hg' hph, h.stopped,
      fun g' => (goTo_cancelled c g g' _).trans (h.cancelled g'), h.calls⟩
    obtain ⟨g', hg', hph⟩ := h.running hr
    have hne : g' ≠ g := by
      rintro rfl
      simp [hp, RunPhase.active] at hph
    exact ⟨g', hg', by simpa [goTo_phase, hne] using hph⟩
  unfold Client.closeDone
  dsimp only
  split
  · exact hgo
  · exact ⟨hgo.running, hgo.leaving, hgo.stopped, hgo.cancelled, hgo.calls⟩

/-- A new proxy gets a run, if no run is about to return. -/
theorem Looping.made (h : Looping c) (hl : ∀ g, g < c.started → (c.runs g).phase ≠ .leaving) :
    Looping ((((c.keep key).makeProxy key).startRun).use key c.made) := by
  unfold startRun
  cases hr : c.running with
  | true =>
    have hrun : ((c.keep key).makeProxy key).running = true := hr
    rw [if_pos hrun]
    refine ⟨h.running, fun g hg hph => absurd hph (hl g hg), fun hn => ?_, h.cancelled, h.calls⟩
    cases hr.symm.trans hn
  | false =>
    have hrun : ¬((c.keep key).makeProxy key).running = true := by
      intro hrun
      cases hr.symm.trans hrun
    have hph : ∀ g, g < c.started + 1 → (Function.update c.runs c.started { phase := .top } g).phase ≠ .leaving := by grind
    rw [if_neg hrun]
    refine ⟨fun _ => ⟨c.started, Nat.lt_succ_self _, .inl ?_⟩, fun g hg h' => absurd h' (hph g hg), fun hn => ?_,
      fun g => ?_, h.calls⟩
    · change (Function.update c.runs c.started { phase := .top } c.started).phase.active = true
      rw [Function.update_self]
      rfl
    · cases hn
    · change (Function.update c.runs c.started { phase := .top } g).cancelled = false
      by_cases heq : g = c.started
      · simp [heq]
      · simpa [heq] using h.cancelled g

theorem Looping.step (h : Looping c) (hok : noProxyAtTheEnd c e = true) (hs : Step c e c') :
    c'.closed = true ∨ Looping c' := by
  cases hs with
  | refused hc => exact .inl hc
  | made _ _ hm =>
    refine .inr (h.made fun g hg => ?_)
    simp only [noProxyAtTheEnd, hm, Bool.not_true, Bool.false_or, List.all_eq_true, List.mem_range, decide_eq_true_eq] at hok
    exact hok g hg
  | drop =>
    have herase : ∀ k, c.proxies = ∅ → c.proxies.erase k = ∅ := by
      intro k he
      rw [he, erase_empty]
    exact .inr ⟨h.running, fun g hg hp => herase _ (h.leaving g hg hp), fun hr => herase _ (h.stopped hr), h.cancelled, h.calls⟩
  | close => exact .inl rfl
  | @cancel k _ hk => simp [h.calls k] at hk
  | @released k _ hk => simp [h.calls k] at hk
  | goesOn hg _ hp => exact .inr (h.goTo hg (.inl hp) fun hl => by simp [hl, RunPhase.active] at hp)
  | @returns g _ hg _ hi =>
    refine .inr (h.goTo hg (.inr rfl) fun _ => ?_)
    exact empty_of_idle (hi.resolve_right (by simp [h.cancelled g]))
  | clears hg hp => exact .inr (h.clear hg hp)
  | closes _ hp => exact .inr (h.closeDone hp)
  | time | found | noSocket | notes | arms | fire =>
    exact .inr ⟨h.running, h.leaving, h.stopped, h.cancelled, h.calls⟩

theorem looping_of_reach (h : Reach Start next (Holds noProxyAtTheEnd) c) : c.closed = true ∨ Looping c := by
  refine until_closed h (fun opts now => ?_) fun c e c' hi _ hok hs => hi.step hok hs
  refine ⟨?_, ?_, ?_, ?_, ?_⟩ <;> simp [newClient]

/-- While the client is open and a proxy is, a run is active. -/
theorem open_proxy_has_a_run (h : Reach Start next (Holds noProxyAtTheEnd) c) (ho : c.closed = false)
    {p : Nat} (hp : (c.sockets p).isOpen = true) : ∃ g, g < c.started ∧ (c.runs g).phase.active = true := by
  have hloop : Looping c := (looping_of_reach h).resolve_left (by simp [ho])
  have hne : c.proxies ≠ ∅ := by
    intro he
    have hl := ((sockets_of_reach h).lookup_iff _ p).mpr ⟨hp, rfl⟩
    rw [he, Finmap.lookup_empty] at hl
    cases hl
  have hrun : c.running = true := by
    cases hr : c.running with
    | true => rfl
    | false => exact absurd (hloop.stopped hr) hne
  obtain ⟨g, hg, ha | hl⟩ := hloop.running hrun
  · exact ⟨g, hg, ha⟩
  · exact absurd (hloop.leaving g hg hl) hne

/-- The first run finds a proxy and dials. The only proxy is dropped, and after the idle timeout
    the run loses its connection, waits, and decides to return. -/
def idledOut : List Ev :=
  [.endpoint somePeer true, .run 0 true, .run 0 true, .release somePeer, .time (10 * second), .fire 0, .drop 0,
    .time (310 * second), .run 0 true, .run 0 true, .run 0 true]

theorem open_proxy_has_a_run_again : ∃ c,
    Conc.run (guarded noProxyAtTheEnd next) (newClient {} 0)
      (idledOut ++ [.run 0 true, .run 0 true, .endpoint somePeer true]) = some c ∧
    (c.sockets 1).isOpen = true ∧ ∃ g, g < c.started ∧ (c.runs g).phase.active = true := by
  obtain ⟨c, hc, hfacts⟩ := Option.map_eq_some_iff.mp (show
    (Conc.run (guarded noProxyAtTheEnd next) (newClient {} 0)
      (idledOut ++ [.run 0 true, .run 0 true, .endpoint somePeer true])).map
      (fun c => ((c.sockets 1).isOpen, c.closed)) = some (true, false) by decide +kernel)
  simp only [Prod.mk.injEq] at hfacts
  obtain ⟨hp, ho⟩ := hfacts
  have hreach := (reach_new {} 0).run_guarded _ hc
  exact ⟨c, hc, hp, open_proxy_has_a_run hreach ho hp⟩

/-- `Endpoint` comes between the idle check and the clearing of `running`: its proxy is open and
    the only run there ever was has finished. -/
theorem a_proxy_without_a_run : ∃ c, Reach Start next Always c ∧ c.closed = false ∧ (c.sockets 1).isOpen = true ∧
    ∀ g, g < c.started → (c.runs g).phase = .finished := by
  obtain ⟨c, hc, hfacts⟩ := Option.map_eq_some_iff.mp (show
    (Conc.run next (newClient {} 0) (idledOut ++ [.endpoint somePeer true, .run 0 true, .run 0 true])).map (fun c =>
      (c.closed, (c.sockets 1).isOpen, c.started, (c.runs 0).phase)) = some (false, true, 1, .finished) by decide +kernel)
  simp only [Prod.mk.injEq] at hfacts
  obtain ⟨ho, hp, hn, hph⟩ := hfacts
  refine ⟨c, (reach_new {} 0).run _ hc, ho, hp, fun g hg => ?_⟩
  obtain rfl : g = 0 := by omega
  exact hph

/-! ## The `done` channels -/

/-- Every run but the latest has finished, and a run has closed its own channel when it has. -/
structure Owned (c : Client) : Prop where
  current : ∀ g, c.current = some g ↔ g + 1 = c.started
  older : ∀ g, g + 1 < c.started → (c.runs g).phase = .finished
  stopped : c.running = false → ∀ g, g < c.started → (c.runs g).phase = .cleared ∨ (c.runs g).phase = .finished
  done : ∀ g, c.doneBy g = if g < c.started ∧ (c.runs g).phase = .finished then [g] else []
  calls : ∀ k g, c.calls k = .cancelling g ∨ c.calls k = .waiting g → g < c.started

/-- No run starts between another's clearing of `running` and its `close(c.done)`. -/
def noRestartAtTheEnd (c : Client) : Ev → Bool
  | .endpoint key socket =>
    !c.makesProxy key socket || c.running || (List.range c.started).all fun g => decide ((c.runs g).phase ≠ .cleared)
  | _ => true

/-- A run that has not finished is the latest. -/
theorem Owned.latest (h : Owned c) (hg : g < c.started) (hp : (c.runs g).phase ≠ .finished) : g + 1 = c.started := by
  by_contra hne
  exact hp (h.older g (by omega))

theorem Owned.running (h : Owned c) (hg : g < c.started) (hc : (c.runs g).phase ≠ .cleared) (hf : (c.runs g).phase ≠ .finished) :
    c.running = true := by
  cases hr : c.running with
  | true => rfl
  | false => exact ((h.stopped hr g hg).elim hc hf).elim

/-- The latest run moves on without finishing; it clears `running` only in the deferred
    function. -/
theorem Owned.move (h : Owned c) {p : RunPhase} {b : Bool} (hg : g < c.started) (hf : (c.runs g).phase ≠ .finished)
    (hp : p ≠ .finished) (hb : b = false → p = .cleared) : Owned { c.goTo g p with running := b } := by
  have hlatest : g + 1 = c.started := h.latest hg hf
  refine ⟨h.current, fun g' hg' => ?_, fun hr g' hg' => ?_, fun g' => ?_, h.calls⟩
  · have hg' : g' + 1 < c.started := hg'
    exact (goTo_phase c g g' p).trans ((if_neg (by omega)).trans (h.older g' hg'))
  · have hg' : g' < c.started := hg'
    change ((c.goTo g p).runs g').phase = .cleared ∨ ((c.goTo g p).runs g').phase = .finished
    rw [goTo_phase]
    by_cases heq : g' = g
    · exact .inl ((if_pos heq).trans (hb hr))
    · exact .inr ((if_neg heq).trans (h.older g' (by omega)))
  · change c.doneBy g' = if g' < c.started ∧ ((c.goTo g p).runs g').phase = .finished then [g'] else []
    rw [goTo_phase, h.done]
    by_cases heq : g' = g
    · subst heq
      simp [hf, hp]
    · rw [if_neg heq]

/-- With only the latest run unfinished, the field holds its channel. -/
theorem Owned.closeDone (h : Owned c) (hg : g < c.started) (hp : (c.runs g).phase = .cleared) : Owned (c.closeDone g) := by
  have hlatest : g + 1 = c.started := h.latest hg (by simp [hp])
  have hcur : (c.goTo g .finished).current = some g := (h.current g).mpr hlatest
  simp only [Client.closeDone, hcur]
  have hph : ∀ g', g' < c.started → ((c.goTo g .finished).runs g').phase = .finished := by
    intro g' hg'
    rw [goTo_phase]
    split
    · rfl
    · exact h.older g' (by omega)
  refine ⟨fun g' => ?_, fun g' hg' => hph g' (Nat.lt_of_succ_lt hg'), fun _ g' hg' => .inr (hph g' hg'), fun g' => ?_, h.calls⟩
  · rw [← hcur]
    exact h.current g'
  · change Function.update c.doneBy g (g :: c.doneBy g) g' =
      if g' < c.started ∧ ((c.goTo g .finished).runs g').phase = .finished then [g'] else []
    by_cases heq : g' = g
    · subst heq
      rw [Function.update_self, h.done, if_neg (by simp [hp]), if_pos ⟨hg, hph g' hg⟩]
    · rw [Function.update_of_ne heq, h.done]
      by_cases hlt : g' < c.started
      · rw [if_pos ⟨hlt, h.older g' (by omega)⟩, if_pos ⟨hlt, hph g' hlt⟩]
      · rw [if_neg fun hn => hlt hn.1, if_neg fun hn => hlt hn.1]

/-- A run starts when all before it have finished. -/
theorem Owned.startRun (h : Owned c) (hc : c.running = false → ∀ g, g < c.started → (c.runs g).phase ≠ .cleared) :
    Owned c.startRun := by
  unfold Client.startRun
  cases hr : c.running with
  | true =>
    rw [if_pos rfl]
    exact h
  | false =>
    have hfin : ∀ g, g < c.started → (c.runs g).phase = .finished :=
      fun g hg => (h.stopped hr g hg).resolve_left (hc hr g hg)
    have hph : ∀ g, g < c.started → (Function.update c.runs c.started { phase := .top } g).phase = .finished := by
      intro g hg
      rw [Function.update_of_ne (Nat.ne_of_lt hg)]
      exact hfin g hg
    rw [if_neg (by simp)]
    refine ⟨fun g => ?_, fun g hg => hph g (Nat.lt_of_succ_lt_succ hg), fun hn => ?_, fun g => ?_, fun k g hk => ?_⟩
    · change some c.started = some g ↔ g + 1 = c.started + 1
      rw [Option.some.injEq]
      omega
    · cases hn
    · change c.doneBy g =
        if g < c.started + 1 ∧ (Function.update c.runs c.started { phase := .top } g).phase = .finished then [g] else []
      rw [h.done]
      grind
    · exact Nat.lt_succ_of_lt (h.calls k g hk)

theorem Owned.close (h : Owned c) : Owned c.close := by
  refine ⟨h.current, h.older, h.stopped, h.done, fun k g hk => ?_⟩
  change g < c.started
  simp only [Client.close] at hk
  by_cases heq : k = c.called
  · subst heq
    rw [Function.update_self] at hk
    cases hc : c.current with
    | none => simp [hc] at hk
    | some g' =>
      obtain rfl : g' = g := by simpa [hc] using hk
      have := (h.current g').mp hc
      omega
  · rw [Function.update_of_ne heq] at hk
    exact h.calls k g hk

theorem Owned.cancel (h : Owned c) {k : Nat} (hk : c.calls k = .cancelling g) :
    Owned { c with runs := Function.update c.runs g { c.runs g with cancelled := true }
                   calls := Function.update c.calls k (.waiting g) } := by
  have hph := cancel_phase c.runs g
  refine ⟨h.current, fun g' hg' => (hph g').trans (h.older g' hg'), fun hr g' hg' => ?_, fun g' => ?_, fun k' g' hk' => ?_⟩
  · exact (hph g').symm ▸ h.stopped hr g' hg'
  · exact (hph g').symm ▸ h.done g'
  · change g' < c.started
    by_cases heq : k' = k
    · subst heq
      have hgg : g = g' := by simpa using hk'
      exact hgg ▸ h.calls k' g (.inl hk)
    · exact h.calls k' g' (by simpa [heq] using hk')

theorem Owned.released (h : Owned c) (k : Nat) : Owned { c with calls := Function.update c.calls k .returned } := by
  refine ⟨h.current, h.older, h.stopped, h.done, fun k' g' hk' => ?_⟩
  change g' < c.started
  by_cases heq : k' = k
  · simp [heq] at hk'
  · exact h.calls k' g' (by simpa [heq] using hk')

theorem active_ne {p : RunPhase} (h : p.active = true) : p ≠ .cleared ∧ p ≠ .finished := by
  cases p <;> simp [RunPhase.active] at h ⊢

theorem Owned.step (h : Owned c) (hok : noRestartAtTheEnd c e = true) (hs : Step c e c') : Owned c' := by
  cases hs with
  | refused => exact h
  | @made key _ _ _ hm =>
    have hk : Owned ((c.keep key).makeProxy key) := ⟨h.current, h.older, h.stopped, h.done, h.calls⟩
    have hr : Owned ((c.keep key).makeProxy key).startRun := by
      refine hk.startRun fun hr g hg => ?_
      have hr : c.running = false := hr
      simp only [noRestartAtTheEnd, hm, hr, Bool.not_true, Bool.or_self, Bool.false_or, List.all_eq_true, List.mem_range,
        decide_eq_true_eq] at hok
      exact hok g hg
    exact ⟨hr.current, hr.older, hr.stopped, hr.done, hr.calls⟩
  | close => exact h.close
  | cancel hk => exact h.cancel hk
  | released => exact h.released _
  | goesOn hg ha hp =>
    have hrun := h.running hg (active_ne ha).1 (active_ne ha).2
    exact h.move hg (active_ne ha).2 (active_ne hp).2 (b := c.running) fun hn => (by cases hrun.symm.trans hn)
  | returns hg ha =>
    have hrun := h.running hg (active_ne ha).1 (active_ne ha).2
    exact h.move hg (active_ne ha).2 (by simp) (b := c.running) fun hn => (by cases hrun.symm.trans hn)
  | clears hg hp => exact h.move hg (by simp [hp]) (by simp) fun _ => rfl
  | closes hg hp => exact h.closeDone hg hp
  | time | found | noSocket | notes | arms | fire | drop => exact ⟨h.current, h.older, h.stopped, h.done, h.calls⟩

theorem owned_of_reach (h : Reach Start next (Holds noRestartAtTheEnd) c) : Owned c := by
  refine h.inv ?_ fun s e s' hi hok hs => hi.step hok (next_step hs)
  rintro _ ⟨opts, now, rfl⟩
  refine ⟨?_, ?_, ?_, ?_, ?_⟩ <;> simp [newClient]

/-- No `done` channel is closed by a run other than its own or twice, a run that has finished
    has closed its own, and a `Close` that waits can then return. -/
theorem done_closed_by_its_run (h : Reach Start next (Holds noRestartAtTheEnd) c) :
    (∀ ch, c.doneBy ch = [] ∨ c.doneBy ch = [ch]) ∧
    (∀ g, g < c.started → ((c.runs g).phase = .finished ↔ c.doneBy g = [g])) ∧
    ∀ k ch, c.calls k = .waiting ch → (c.runs ch).phase = .finished → ∃ c', c.next (.released k) = some c' := by
  have ho := owned_of_reach h
  refine ⟨fun ch => ?_, fun g hg => ?_, fun k ch hk hp => ?_⟩
  · rw [ho.done]
    split
    · exact .inr rfl
    · exact .inl rfl
  · rw [ho.done]
    simp [hg]
  · have hd : c.doneBy ch = [ch] := (ho.done ch).trans (if_pos ⟨ho.calls k ch (.inr hk), hp⟩)
    simp [next, hk, hd]

def closedLater : List Ev := [.close, .cancel 0, .run 1 true, .run 1 true, .run 1 true]

theorem done_closed_by_its_run_restarted : ∃ c,
    Conc.run (guarded noRestartAtTheEnd next) (newClient {} 0)
      (idledOut ++ [.run 0 true, .run 0 true, .endpoint somePeer true] ++ closedLater) = some c ∧
    c.doneBy 0 = [0] ∧ c.doneBy 1 = [1] ∧ ∃ c', c.next (.released 0) = some c' := by
  obtain ⟨c, hc, hfacts⟩ := Option.map_eq_some_iff.mp (show
    (Conc.run (guarded noRestartAtTheEnd next) (newClient {} 0)
      (idledOut ++ [.run 0 true, .run 0 true, .endpoint somePeer true] ++ closedLater)).map
      (fun c => (c.started, (c.runs 0).phase, (c.runs 1).phase, c.calls 0)) = some (2, .finished, .finished, .waiting 1) by
        decide +kernel)
  simp only [Prod.mk.injEq] at hfacts
  obtain ⟨hn, h0, h1, hk⟩ := hfacts
  have hreach := (reach_new {} 0).run_guarded _ hc
  obtain ⟨-, hdone, hclose⟩ := done_closed_by_its_run hreach
  exact ⟨c, hc, (hdone 0 (by omega)).mp h0, (hdone 1 (by omega)).mp h1, hclose 0 1 hk h1⟩

/-- `Endpoint` starts a run between the first one's unlock and its `close(c.done)`: the second
    run's channel is closed by both, the first one's by nobody. -/
theorem a_restart_closes_twice : ∃ c, Reach Start next Always c ∧ c.doneBy 1 = [1, 0] ∧ c.doneBy 0 = [] ∧
    (c.runs 0).phase = .finished := by
  obtain ⟨c, hc, hfacts⟩ := Option.map_eq_some_iff.mp (show
    (Conc.run next (newClient {} 0) (idledOut ++ [.run 0 true, .endpoint somePeer true, .run 0 true] ++ closedLater)).map
      (fun c => (c.doneBy 1, c.doneBy 0, (c.runs 0).phase)) = some ([1, 0], [], .finished) by decide +kernel)
  simp only [Prod.mk.injEq] at hfacts
  exact ⟨c, (reach_new {} 0).run _ hc, hfacts⟩

end Thawr.Relay.Client
