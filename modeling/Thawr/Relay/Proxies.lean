/-
  Thawr.Relay.Proxies — how long a proxy of the relay client stays open.

  A proxy that `Endpoint` returned is to stay open until `Release` was called for its key and
  the release delay has passed, or the client is closed. The code keeps that in every run in
  which no `Endpoint` for a key gets `mu` while a `dropProxy` for the same key waits for it
  (`proxy_in_use_stays_open`). Otherwise `t.Stop()` comes too late, and the waiting `dropProxy`
  closes the proxy whose address was just returned (`a_late_drop_closes_the_proxy`).
-/

import Thawr.Relay.Client

namespace Thawr.Relay.Client

open Go Conc
open Control.Path (Time second)

variable {c c' : Client} {e : Ev} {key : Key}

/-- What the start of a run leaves alone. -/
theorem startRun_eq (c : Client) : ∃ b cur rs n, c.startRun =
    { c with running := b, current := cur, runs := rs, started := n } := by
  unfold startRun
  split
  · exact ⟨c.running, c.current, c.runs, c.started, rfl⟩
  · exact ⟨_, _, _, _, rfl⟩

/-! ## The map and the sockets -/

structure Sockets (c : Client) : Prop where
  lookup_iff : ∀ k p, c.proxies.lookup k = some p ↔ (c.sockets p).isOpen = true ∧ (c.sockets p).key = k
  fresh : ∀ p, c.made ≤ p → (c.sockets p).isOpen = false

theorem Sockets.makeProxy (h : Sockets c) (hn : c.proxies.lookup key = none) : Sockets (c.makeProxy key) where
  lookup_iff k p := by
    have hiff := h.lookup_iff k p
    simp only [Client.makeProxy]
    by_cases hp : p = c.made
    · subst hp
      rw [Function.update_self]
      by_cases hk : k = key
      · subst hk
        simp [Finmap.lookup_insert]
      · -- the number is new, so no other key has it
        simp [Finmap.lookup_insert_of_ne _ hk, hiff, h.fresh c.made le_rfl, Ne.symm hk]
    · rw [Function.update_of_ne hp]
      by_cases hk : k = key
      · rw [← hiff, hk, hn, Finmap.lookup_insert]
        simp [Ne.symm hp]
      · rw [Finmap.lookup_insert_of_ne _ hk, hiff]
  fresh p hp := by
    have hne : p ≠ c.made := Nat.ne_of_gt hp
    simp only [Client.makeProxy, Function.update_of_ne hne]
    exact h.fresh p (Nat.le_of_succ_le hp)

theorem Sockets.dropProxy (h : Sockets c) (t : Nat) : Sockets (c.dropProxy t) where
  lookup_iff k p := by
    have hiff := h.lookup_iff k p
    have hkey := h.lookup_iff (c.timers t).key p
    simp only [Client.dropProxy]
    by_cases hk : k = (c.timers t).key
    · subst hk
      rw [Finmap.lookup_erase]
      cases hl : c.proxies.lookup (c.timers t).key with
      | none => simpa [hl] using hkey
      | some q =>
        by_cases hp : p = q
        · simp [hp]
        · simpa [hp, hl, Ne.symm hp] using hkey
    · rw [Finmap.lookup_erase_ne hk, hiff]
      cases hl : c.proxies.lookup (c.timers t).key with
      | none => rfl
      | some q => grind
  fresh p hp := by
    simp only [Client.dropProxy]
    cases c.proxies.lookup (c.timers t).key with
    | none => exact h.fresh p hp
    | some q =>
      by_cases hq : p = q
      · simp [hq]
      · simpa [hq] using h.fresh p hp

theorem Sockets.close (h : Sockets c) : Sockets c.close where
  lookup_iff k p := by
    have hiff := h.lookup_iff (c.sockets p).key p
    simp only [Client.close, Finmap.lookup_empty, reduceCtorEq, false_iff, not_and]
    grind
  fresh p hp := by
    simp only [Client.close]
    split
    · rfl
    · exact h.fresh p hp

theorem Sockets.step (h : Sockets c) (hs : Step c e c') : Sockets c' := by
  cases hs with
  | refused => exact h
  | @made key _ _ hn =>
    obtain ⟨b, cur, rs, n, heq⟩ := startRun_eq ((c.keep key).makeProxy key)
    have hm : Sockets ((c.keep key).makeProxy key) := Sockets.makeProxy (c := c.keep key) ⟨h.lookup_iff, h.fresh⟩ hn
    rw [heq]
    exact ⟨hm.lookup_iff, hm.fresh⟩
  | drop => exact h.dropProxy _
  | close => exact h.close
  | closes =>
    simp only [closeDone]
    split <;> exact ⟨h.lookup_iff, h.fresh⟩
  | time | found | noSocket | notes | arms | fire | cancel | released | goesOn | returns | clears =>
    exact ⟨h.lookup_iff, h.fresh⟩

theorem sockets_of_reach {ok : Client → Ev → Prop} (h : Reach Start next ok c) : Sockets c := by
  refine h.inv ?_ fun _ _ _ hi _ hs => hi.step (next_step hs)
  rintro _ ⟨opts, now, rfl⟩
  exact ⟨fun k p => by simp [newClient], fun _ _ => rfl⟩

/-! ## Timers -/

def Live (c : Client) (t : Nat) : Prop := t < c.armed ∧ ((c.timers t).state = .armed ∨ (c.timers t).state = .fired)

/-- `Release` was called for the key of `u` since, and the release delay has passed. -/
def Passed (c : Client) (u : Use) : Prop := ∃ r, u.released = some r ∧ r + c.opts.releaseDelay ≤ c.clock

/-- While the client is open: a live timer is the one in `releasing`, and everyone who was given
    the proxy it will drop has called `Release` no later than when it was armed. -/
structure Kept (c : Client) : Prop where
  live : ∀ t, Live c t → c.releasing.lookup (c.timers t).key = some t
  due : ∀ t, Live c t → (c.timers t).state = .fired → (c.timers t).due ≤ c.clock
  promised : ∀ t, Live c t → ∀ u ∈ c.uses, u.key = (c.timers t).key →
    ∃ r, u.released = some r ∧ r + c.opts.releaseDelay ≤ (c.timers t).due
  past : ∀ u ∈ c.uses, ∀ r, u.released = some r → r ≤ c.clock
  held : ∀ u ∈ c.uses, c.proxies.lookup u.key = some u.proxy ∨ Passed c u

theorem Kept.time (h : Kept c) {now : Time} (hn : c.clock ≤ now) : Kept { c with clock := now } where
  live := h.live
  due t ht hf := le_trans (h.due t ht hf) hn
  promised := h.promised
  past u hu r hr := le_trans (h.past u hu r hr) hn
  held u hu := by
    rcases h.held u hu with hl | ⟨r, hr, hd⟩
    · exact .inl hl
    · exact .inr ⟨r, hr, le_trans hd hn⟩

/-- The timers change, but no key, no due time, and none comes to life. -/
theorem Kept.timers (h : Kept c) {ts : Nat → Timer} (hkey : ∀ t, (ts t).key = (c.timers t).key)
    (hdue : ∀ t, (ts t).due = (c.timers t).due) (hlive : ∀ t, Live { c with timers := ts } t → Live c t)
    (hfired : ∀ t, Live c t → (ts t).state = .fired → (c.timers t).due ≤ c.clock) : Kept { c with timers := ts } where
  live t ht := by
    change c.releasing.lookup (ts t).key = some t
    rw [hkey]
    exact h.live t (hlive t ht)
  due t ht hf := (hdue t).trans_le (hfired t (hlive t ht) hf)
  promised t ht := by
    change ∀ u ∈ c.uses, u.key = (ts t).key → ∃ r, u.released = some r ∧ r + c.opts.releaseDelay ≤ (ts t).due
    rw [hkey, hdue]
    exact h.promised t (hlive t ht)
  past := h.past
  held := h.held

theorem Kept.fire (h : Kept c) {t : Nat} (ht : t < c.armed) (ha : (c.timers t).state = .armed) (hd : (c.timers t).due ≤ c.clock) :
    Kept { c with timers := Function.update c.timers t { c.timers t with state := .fired } } := by
  refine h.timers (fun t' => ?_) (fun t' => ?_) (fun t' ht' => ?_) (fun t' ht' hf => ?_) <;> by_cases heq : t' = t
  · simp [heq]
  · simp [heq]
  · simp [heq]
  · simp [heq]
  · exact heq ▸ ⟨ht, .inl ha⟩
  · simpa [Live, heq] using ht'
  · exact heq ▸ hd
  · exact h.due t' ht' (by simpa [heq] using hf)

/-! ## `Endpoint` -/

@[simp]
theorem stop_key (t : Timer) : (Timer.stop t).key = t.key := by
  unfold Timer.stop
  split <;> rfl

@[simp]
theorem stop_due (t : Timer) : (Timer.stop t).due = t.due := by
  unfold Timer.stop
  split <;> rfl

theorem stop_fired {t : Timer} (h : (Timer.stop t).state = .armed ∨ (Timer.stop t).state = .fired) : t.state = .fired := by
  unfold Timer.stop at h
  split at h
  · simp at h
  · exact h.resolve_left (by assumption)

/-- Stopping the key's timer changes no key and no due time, and revives no timer. -/
theorem keep_timer (c : Client) (key : Key) (t : Nat) :
    (c.keep key).timers t = c.timers t ∨ c.releasing.lookup key = some t ∧ (c.keep key).timers t = Timer.stop (c.timers t) := by
  simp only [keep]
  cases hl : c.releasing.lookup key with
  | none => exact .inl rfl
  | some q => grind

theorem keep_key (c : Client) (key : Key) (t : Nat) : ((c.keep key).timers t).key = (c.timers t).key := by
  rcases keep_timer c key t with h | ⟨-, h⟩ <;> simp [h]

theorem keep_due (c : Client) (key : Key) (t : Nat) : ((c.keep key).timers t).due = (c.timers t).due := by
  rcases keep_timer c key t with h | ⟨-, h⟩ <;> simp [h]

theorem live_of_keep {t : Nat} (h : Live (c.keep key) t) : Live c t := by
  refine ⟨h.1, ?_⟩
  rcases keep_timer c key t with heq | ⟨-, heq⟩
  · exact heq ▸ h.2
  · exact .inr (stop_fired (heq ▸ h.2))

/-- A timer that has fired for the key: its `dropProxy` waits for `mu`. -/
def dropWaits (c : Client) (key : Key) : Bool :=
  (List.range c.armed).any fun t => decide ((c.timers t).key = key) && decide ((c.timers t).state = .fired)

/-- With no `dropProxy` waiting, the key has no live timer once `Endpoint` has stopped it. -/
theorem Kept.stopped (h : Kept c) (hw : c.dropWaits key = false) {t : Nat} (ht : Live (c.keep key) t) :
    ((c.keep key).timers t).key ≠ key := by
  intro hk
  rw [keep_key] at hk
  have hlive : Live c t := live_of_keep ht
  have hl : c.releasing.lookup key = some t := hk ▸ h.live t hlive
  -- so it is the timer that was stopped, and it had fired before
  have hstop : (c.keep key).timers t = Timer.stop (c.timers t) := by
    simp [keep, hl]
  have hfired : (c.timers t).state = .fired := stop_fired (hstop ▸ ht.2)
  have : c.dropWaits key = true := by
    simp only [dropWaits, List.any_eq_true, List.mem_range, Bool.and_eq_true, decide_eq_true_eq]
    exact ⟨t, hlive.1, hk, hfired⟩
  simp [hw] at this

theorem Kept.keep (h : Kept c) (hw : c.dropWaits key = false) : Kept (c.keep key) := by
  have hts : Kept { c with timers := (c.keep key).timers } := by
    refine h.timers (keep_key c key) (keep_due c key) (fun t ht => live_of_keep ht) fun t ht hf => h.due t ht ?_
    rcases keep_timer c key t with heq | ⟨-, heq⟩
    · exact heq ▸ hf
    · exact stop_fired (.inr (heq ▸ hf))
  refine ⟨fun t ht => ?_, hts.due, hts.promised, hts.past, hts.held⟩
  exact (Finmap.lookup_erase_ne (h.stopped hw ht)).trans (hts.live t ht)

/-- A proxy that is in the map and whose key has no live timer may be given out. -/
theorem Kept.use (h : Kept c) {p : Nat} (hl : c.proxies.lookup key = some p) (hk : ∀ t, Live c t → (c.timers t).key ≠ key) :
    Kept (c.use key p) where
  live := h.live
  due := h.due
  promised t ht u hu := by
    intro hkey
    rcases List.mem_cons.mp hu with rfl | hu
    · exact absurd hkey.symm (hk t ht)
    · exact h.promised t ht u hu hkey
  past u hu r hr := by
    rcases List.mem_cons.mp hu with rfl | hu
    · cases hr
    · exact h.past u hu r hr
  held u hu := by
    rcases List.mem_cons.mp hu with rfl | hu
    · exact .inl hl
    · exact h.held u hu

theorem Kept.makeProxy (h : Kept c) (hn : c.proxies.lookup key = none) : Kept (c.makeProxy key) where
  live := h.live
  due := h.due
  promised := h.promised
  past := h.past
  held u hu := by
    refine (h.held u hu).imp_left fun hl => ?_
    have hne : u.key ≠ key := by
      intro heq
      rw [heq, hn] at hl
      cases hl
    exact (Finmap.lookup_insert_of_ne _ hne).trans hl

theorem Kept.startRun (h : Kept c) : Kept c.startRun := by
  obtain ⟨b, cur, rs, n, heq⟩ := startRun_eq c
  rw [heq]
  exact ⟨h.live, h.due, h.promised, h.past, h.held⟩

/-! ## `Release` and `dropProxy` -/

@[simp]
theorem release_key (u : Use) (now : Time) : (Use.release u key now).key = u.key := by
  unfold Use.release
  split <;> rfl

@[simp]
theorem release_proxy (u : Use) (now : Time) : (Use.release u key now).proxy = u.proxy := by
  unfold Use.release
  split <;> rfl

/-- An earlier `Release` is not forgotten. -/
theorem release_of_some {u : Use} {r : Time} (h : u.released = some r) (now : Time) :
    (Use.release u key now).released = some r := by
  unfold Use.release
  split <;> simp [h]

theorem release_self {u : Use} (h : u.key = key) (now : Time) :
    (Use.release u key now).released = some (u.released.getD now) := by
  simp [Use.release, h]

theorem release_released {u : Use} {now r : Time} (h : (Use.release u key now).released = some r) :
    u.released = some r ∨ r = now := by
  unfold Use.release at h
  split at h
  · cases hr : u.released with
    | none =>
      simp only [hr, Option.getD_none, Option.some.injEq] at h
      exact .inr h.symm
    | some r' =>
      simp only [hr, Option.getD_some] at h
      exact .inl h
  · exact .inl h

theorem Kept.noteRelease (h : Kept c) (key : Key) : Kept (c.noteRelease key) where
  live := h.live
  due := h.due
  promised t ht u hu hk := by
    obtain ⟨v, hv, rfl⟩ := List.mem_map.mp hu
    obtain ⟨r, hr, hd⟩ := h.promised t ht v hv ((release_key v _).symm.trans hk)
    exact ⟨r, release_of_some hr _, hd⟩
  past u hu r hr := by
    obtain ⟨v, hv, rfl⟩ := List.mem_map.mp hu
    rcases release_released hr with hr | rfl
    · exact h.past v hv r hr
    · exact le_rfl
  held u hu := by
    obtain ⟨v, hv, rfl⟩ := List.mem_map.mp hu
    rw [release_key, release_proxy]
    refine (h.held v hv).imp_right ?_
    rintro ⟨r, hr, hd⟩
    exact ⟨r, release_of_some hr _, hd⟩

/-- A key that has no timer in `releasing`, and that everyone has released, may get one. -/
theorem Kept.arm (h : Kept c) (hr : c.releasing.lookup key = none)
    (hu : ∀ u ∈ c.uses, u.key = key → ∃ r, u.released = some r) : Kept (c.arm key) := by
  have hlive : ∀ t, t ≠ c.armed → Live (c.arm key) t → Live c t := by
    intro t hne ht
    have hs : (c.arm key).timers t = c.timers t := Function.update_of_ne hne ..
    exact ⟨Nat.lt_of_le_of_ne (Nat.le_of_lt_succ ht.1) hne, hs ▸ ht.2⟩
  refine ⟨fun t ht => ?_, fun t ht hf => ?_, fun t ht u hmem hk => ?_, h.past, h.held⟩
  all_goals simp only [Client.arm] at *
  all_goals by_cases heq : t = c.armed
  · subst heq
    rw [Function.update_self]
    exact Finmap.lookup_insert _
  · rw [Function.update_of_ne heq]
    have hl := h.live t (hlive t heq ht)
    have hne : (c.timers t).key ≠ key := by
      intro hk
      rw [hk, hr] at hl
      cases hl
    exact (Finmap.lookup_insert_of_ne _ hne).trans hl
  · simp [heq] at hf
  · rw [Function.update_of_ne heq] at hf ⊢
    exact h.due t (hlive t heq ht) hf
  · subst heq
    rw [Function.update_self] at hk ⊢
    obtain ⟨r, hr⟩ := hu u hmem hk
    exact ⟨r, hr, add_le_add_left (h.past u hmem r hr) _⟩
  · rw [Function.update_of_ne heq] at hk ⊢
    exact h.promised t (hlive t heq ht) u hmem hk

/-- A timer drops the proxy only when everyone who was given it is past the delay. -/
theorem Kept.dropProxy (h : Kept c) {t : Nat} (ht : t < c.armed) (hf : (c.timers t).state = .fired) : Kept (c.dropProxy t) := by
  have hlt : Live c t := ⟨ht, .inr hf⟩
  have hne : ∀ t', Live (c.dropProxy t) t' → t' ≠ t := by
    rintro t' ⟨-, hl⟩ rfl
    simp [Client.dropProxy] at hl
  have hsame : ∀ t', Live (c.dropProxy t) t' → (c.dropProxy t).timers t' = c.timers t' :=
    fun t' ht' => Function.update_of_ne (hne t' ht') ..
  have hlive : ∀ t', Live (c.dropProxy t) t' → Live c t' := fun t' ht' => ⟨ht'.1, hsame t' ht' ▸ ht'.2⟩
  refine ⟨fun t' ht' => ?_, fun t' ht' hf' => ?_, fun t' ht' => ?_, h.past, fun u hu => ?_⟩
  · rw [hsame t' ht']
    have hk : (c.timers t').key ≠ (c.timers t).key := by
      intro hk
      have := (hk ▸ h.live t' (hlive t' ht')).symm.trans (h.live t hlt)
      exact hne t' ht' (Option.some.inj this)
    exact (Finmap.lookup_erase_ne hk).trans (h.live t' (hlive t' ht'))
  · rw [hsame t' ht'] at hf' ⊢
    exact h.due t' (hlive t' ht') hf'
  · rw [hsame t' ht']
    exact h.promised t' (hlive t' ht')
  · by_cases hk : u.key = (c.timers t).key
    · obtain ⟨r, hr, hd⟩ := h.promised t hlt u hu hk
      exact .inr ⟨r, hr, le_trans hd (h.due t hlt hf)⟩
    · exact (h.held u hu).imp_left fun hl => (Finmap.lookup_erase_ne hk).trans hl

/-! ## Runs -/

/-- No `Endpoint` for a key gets `mu` while a `dropProxy` for it waits. -/
def noLateStop (c : Client) : Ev → Bool
  | .endpoint key _ => c.closed || !c.dropWaits key
  | _ => true

theorem Kept.step (h : Kept c) (ho : c.closed = false) (hok : noLateStop c e = true) (hs : Step c e c') :
    c'.closed = true ∨ Kept c' := by
  have hw : ∀ key socket, e = .endpoint key socket → c.dropWaits key = false := by
    rintro key socket rfl
    simpa [noLateStop, ho] using hok
  cases hs with
  | refused hc => exact .inl hc
  | time hn => exact .inr (h.time hn)
  | @found key socket p _ hl =>
    have hw := hw key socket rfl
    exact .inr ((h.keep hw).use hl fun t ht => h.stopped hw ht)
  | @made key socket _ hn =>
    have hw := hw key socket rfl
    have hk := ((h.keep hw).makeProxy hn).startRun
    obtain ⟨b, cur, rs, n, heq⟩ := startRun_eq ((c.keep key).makeProxy key)
    rw [heq] at hk ⊢
    exact .inr (hk.use (Finmap.lookup_insert _) fun t ht => h.stopped hw ht)
  | @noSocket key socket => exact .inr (h.keep (hw key socket rfl))
  | notes => exact .inr (h.noteRelease _)
  | @arms key _ hr =>
    refine .inr ((h.noteRelease key).arm hr fun u hu hk => ?_)
    obtain ⟨v, -, rfl⟩ := List.mem_map.mp hu
    exact ⟨_, release_self ((release_key v _).symm.trans hk) _⟩
  | fire ht ha hd => exact .inr (h.fire ht ha hd)
  | drop ht hf => exact .inr (h.dropProxy ht hf)
  | close => exact .inl rfl
  | closes =>
    simp only [closeDone]
    split <;> exact .inr ⟨h.live, h.due, h.promised, h.past, h.held⟩
  | cancel | released | goesOn | returns | clears => exact .inr ⟨h.live, h.due, h.promised, h.past, h.held⟩

theorem kept_of_reach (h : Reach Start next (Holds noLateStop) c) : c.closed = true ∨ Kept c := by
  refine until_closed h (fun opts now => ?_) fun c e c' hi ho hok hs => hi.step ho hok hs
  refine ⟨?_, ?_, ?_, ?_, ?_⟩ <;> simp [newClient, Live]

/-- In every run in which no `Endpoint` comes between a timer for its key and the timer's
    `dropProxy`: a proxy whose address was returned is open until `Release` was called for its
    key since and the release delay has passed, or the client is closed. -/
theorem proxy_in_use_stays_open (h : Reach Start next (Holds noLateStop) c) :
    ∀ u ∈ c.uses, (c.sockets u.proxy).isOpen = true ∨ Passed c u ∨ c.closed = true := by
  intro u hu
  rcases kept_of_reach h with hc | hk
  · exact .inr (.inr hc)
  · rcases hk.held u hu with hl | hp
    · exact .inl (((sockets_of_reach h).lookup_iff _ _).mp hl).1
    · exact .inr (.inl hp)

def somePeer : Key := Arr.zero 32

/-- The peer's proxy is released and asked for again before its timer is due; later it is
    released for good. -/
def usedTwice : List Ev :=
  [.endpoint somePeer true, .release somePeer, .time (5 * second), .endpoint somePeer true, .time (11 * second),
    .release somePeer, .time (20 * second)]

theorem proxy_in_use_stays_open_twice : ∃ c, Conc.run (guarded noLateStop next) (newClient {} 0) usedTwice = some c ∧
    ⟨somePeer, 0, some (11 * second)⟩ ∈ c.uses ∧ (c.sockets 0).isOpen = true := by
  obtain ⟨c, hc, hfacts⟩ := Option.map_eq_some_iff.mp (show
    (Conc.run (guarded noLateStop next) (newClient {} 0) usedTwice).map (fun c =>
      (c.uses, c.clock, c.opts.releaseDelay, c.closed)) =
    some ([⟨somePeer, 0, some (11 * second)⟩, ⟨somePeer, 0, some 0⟩], 20 * second, 10 * second, false) by decide +kernel)
  simp only [Prod.mk.injEq] at hfacts
  obtain ⟨huses, hclock, hdelay, hopen⟩ := hfacts
  have hmem : ⟨somePeer, 0, some (11 * second)⟩ ∈ c.uses := huses ▸ List.mem_cons_self
  have hreach := (reach_new {} 0).run_guarded _ hc
  refine ⟨c, hc, hmem, ?_⟩
  rcases proxy_in_use_stays_open hreach _ hmem with h | ⟨r, hr, hd⟩ | h
  · exact h
  · simp only [Option.some.injEq] at hr
    subst hr
    rw [hclock, hdelay] at hd
    exact absurd hd (by decide)
  · simp [hopen] at h

/-- `Endpoint` gets `mu` between a timer and its `dropProxy`: it returns the proxy, and then the
    proxy is closed. -/
def lateStop : List Ev :=
  [.endpoint somePeer true, .release somePeer, .time (10 * second), .fire 0, .endpoint somePeer true, .drop 0]

theorem a_late_drop_closes_the_proxy : ∃ c u, Reach Start next Always c ∧ u ∈ c.uses ∧
    (c.sockets u.proxy).isOpen = false ∧ u.released = none ∧ c.closed = false := by
  obtain ⟨c, hc, hfacts⟩ := Option.map_eq_some_iff.mp (show
    (Conc.run next (newClient {} 0) lateStop).map (fun c => (c.uses, (c.sockets 0).isOpen, c.closed)) =
    some ([⟨somePeer, 0, none⟩, ⟨somePeer, 0, some 0⟩], false, false) by decide +kernel)
  simp only [Prod.mk.injEq] at hfacts
  obtain ⟨huses, hsocket, hopen⟩ := hfacts
  exact ⟨c, ⟨somePeer, 0, none⟩, (reach_new {} 0).run _ hc,
    huses ▸ List.mem_cons_self, hsocket, rfl, hopen⟩

end Thawr.Relay.Client
