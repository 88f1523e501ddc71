/-
  Thawr.Api.Sync — the Sync streams of one server against changes of the registry
  (`controlServer.Sync` of `internal/api/grpc.go`, `internal/control/hub.go`).

  Registry commits are each followed by `Changed`, which sets a timer for a flush unless one is
  pending; the flush sends a wake-up to every subscriber, dropped where one waits already. A
  stream subscribes, builds and sends a first netmap, then builds and sends again at every
  wake-up and keepalive tick. Anything interleaves; `mu` is held by a flush or a `Want` while
  their sends go out one by one.

  Proved: no update is lost (`no_update_lost`). Whenever no flush is due, the last netmap of a
  stream that waits with an empty channel was built by a `Build` that started after every
  `Changed` that has returned. Until it does, a flush is pending, or has the stream's channel
  still before it, or the channel is full; and a flush is pending exactly while its one timer
  is set (`Sys.Inv`).
-/

import Thawr.Conc.Runs
import Thawr.Control.Hub

namespace Thawr.Api.Sync

open Go Control

/-- What had happened when a `Build` started: how many calls of `Changed` had returned, and
    the registry's version. -/
structure Snap where
  changes : Nat
  version : Nat
  deriving DecidableEq

inductive Phase where
  | none
  /-- Subscribed, `Connected` not called yet. -/
  | subscribed
  /-- `Connected` found the peer offline and calls `Changed`. -/
  | announcing
  /-- About to build; the client's reports are recorded before the first time. -/
  | ready (keepalive : Bool)
  | building (keepalive : Bool) (snap : Snap)
  /-- In its select, with the `Build` of the last netmap sent. -/
  | waiting (last : Snap)
  /-- `Sync` returned; `Disconnected` and then `unsubscribe` follow. -/
  | closing
  | disconnected
  | closed
  deriving DecidableEq

/-- Who holds `mu` across sends, with the subscribers still to be sent to. -/
inductive Holder where
  | free
  | flush (rest : List Nat)
  | want (rest : List Nat)
  deriving DecidableEq

structure Sys where
  hub : Hub := {}
  mu : Holder := .free
  /-- Each stream is named by its subscriber's address; addresses from `next` on are unused. -/
  next : Nat := 0
  streams : Nat → Phase := fun _ => .none
  peers : Nat → Str := fun _ => []
  /-- How many commits there were. -/
  version : Nat := 0
  /-- The newest version whose `Changed` has returned. -/
  told : Nat := 0
  /-- How many calls of `Changed` have returned. -/
  changes : Nat := 0

/-- What a stream does without the hub. -/
inductive StreamEv where
  | build
  | buildOk
  | buildFails
  | keepalive
  /-- The stream's context ends. -/
  | done

inductive Ev where
  | commit
  /-- The `Changed` of the commit that made version `v`, or one without a commit (`0`). -/
  | changed (v : Nat) (gen : Option Int)
  /-- The timer runs `flush`. -/
  | fire
  | want (now : Int) (target source : Str)
  /-- One send of a flush or a `Want`. -/
  | send (k : Nat)
  /-- A flush or a `Want` gives up `mu`. -/
  | sent
  | subscribe (peerID : Str)
  | connected (k : Nat)
  | announce (k : Nat) (gen : Option Int)
  | stream (k : Nat) (e : StreamEv)
  | receive (k : Nat)
  | disconnect (now : Int) (k : Nat)
  | unsubscribe (k : Nat)
  | forget (peerID : Str)
  | sweep (offlineAfter now : Int)

def Sys.setStream (s : Sys) (k : Nat) (p : Phase) : Sys := { s with streams := Function.update s.streams k p }

def Sys.change (s : Sys) (v : Nat) (gen : Option Int) : Sys :=
  { s with hub := s.hub.changed gen, changes := s.changes + 1, told := max s.told v }

def Sys.snap (s : Sys) : Snap := ⟨s.changes, s.version⟩

def Phase.step (now : Snap) : Phase → StreamEv → Option Phase
  | .ready keepalive, .build => some (.building keepalive now)
  | .building _ snap, .buildOk => some (.waiting snap)
  | .building _ _, .buildFails => some .closing
  | .waiting _, .keepalive => some (.ready true)
  | .waiting _, .done => some .closing
  | _, _ => .none

def step (s : Sys) : Ev → Option Sys
  | .commit => some { s with version := s.version + 1 }
  | .changed v gen => if s.mu = .free ∧ v ≤ s.version then some (s.change v gen) else none
  | .fire =>
    if s.mu = .free ∧ 0 < s.hub.timers then some { s with hub := s.hub.flush, mu := .flush (s.hub.subs.map (·.key)) }
    else none
  | .want now target source =>
    if s.mu = .free then
      some { s with hub := (s.hub.want now target source).1, mu := .want (s.hub.want now target source).2 }
    else none
  | .send k =>
    match s.mu with
    | .free => none
    | .flush rest => if rest.contains k then some { s with hub := s.hub.wake k, mu := .flush (rest.filter (· != k)) } else none
    | .want rest => if rest.contains k then some { s with hub := s.hub.wake k, mu := .want (rest.filter (· != k)) } else none
  | .sent => if s.mu = .flush [] ∨ s.mu = .want [] then some { s with mu := .free } else none
  | .subscribe id =>
    if s.mu = .free then
      some { s with
        hub := s.hub.subscribe s.next id, next := s.next + 1
        streams := Function.update s.streams s.next .subscribed, peers := Function.update s.peers s.next id }
    else none
  | .connected k =>
    if s.mu = .free ∧ s.streams k = .subscribed then
      some ({ s with hub := s.hub.connected (s.peers k) }.setStream k
        (if s.hub.online (s.peers k) then .ready false else .announcing))
    else none
  | .announce k gen =>
    if s.mu = .free ∧ s.streams k = .announcing then some ((s.change 0 gen).setStream k (.ready false)) else none
  | .stream k e => ((s.streams k).step s.snap e).map (s.setStream k)
  | .receive k =>
    match s.streams k with
    | .waiting _ => if s.hub.woken k then some ({ s with hub := s.hub.receive k }.setStream k (.ready false)) else none
    | _ => none
  | .disconnect now k =>
    if s.mu = .free ∧ s.streams k = .closing then
      some ({ s with hub := s.hub.disconnected now (s.peers k) }.setStream k .disconnected)
    else none
  | .unsubscribe k =>
    if s.mu = .free ∧ s.streams k = .disconnected then some ({ s with hub := s.hub.unsubscribe k }.setStream k .closed) else none
  | .forget id => if s.mu = .free then some { s with hub := s.hub.forget id } else none
  | .sweep offlineAfter now => if s.mu = .free then some { s with hub := s.hub.sweep offlineAfter now } else none

/-- A server that has just started: nobody subscribed, no flush due. -/
def Start (s : Sys) : Prop := ∃ sequence wantSeq, s = { hub := { sequence := sequence, wantSeq := wantSeq } }

abbrev Reach : Sys → Prop := Conc.Reach Start step Conc.Always

/-! ## The invariant -/

def Phase.isOpen : Phase → Bool
  | .none => false
  | .closed => false
  | _ => true

def Phase.snap : Phase → Option Snap
  | .building _ snap => some snap
  | .waiting last => some last
  | _ => .none

/-- A wake-up is on its way to the stream: a flush is due, or has it still before it, or its
    channel has a value. -/
def Sys.Owed (s : Sys) (k : Nat) : Prop := s.hub.pending = true ∨ (∃ rest, s.mu = .flush rest ∧ k ∈ rest) ∨ s.hub.woken k = true

/-- A `Build` that started after every `Changed`, or a stream that is still to be woken. -/
def Sys.Seen (s : Sys) (k : Nat) (snap : Snap) : Prop :=
  snap.changes = s.changes ∧ s.told ≤ snap.version ∨ snap.changes < s.changes ∧ s.Owed k

structure Sys.Inv (s : Sys) : Prop where
  unused : ∀ k, s.next ≤ k → s.streams k = .none
  listed : ∀ k, (s.streams k).isOpen = true → ∃ sub ∈ s.hub.subs, sub.key = k
  toldLe : s.told ≤ s.version
  seen : ∀ k snap, (s.streams k).snap = some snap → s.Seen k snap
  armed : s.hub.timers = s.hub.pending.toNat

section

variable {s s' : Sys} {k : Nat} {snap : Snap}

theorem Phase.isOpen_of_snap {p : Phase} (h : p.snap = some snap) : p.isOpen = true := by
  cases p <;> first | rfl | cases h

theorem Sys.Seen.imp (h : s.Seen k snap) (hchanges : s'.changes = s.changes) (htold : s'.told = s.told)
    (howed : s.Owed k → s'.Owed k) : s'.Seen k snap := by
  unfold Seen
  rw [hchanges, htold]
  exact Or.imp id (And.imp id howed) h

/-- A step of the hub that leaves the subscribers, the pending flush and a running one. -/
theorem Sys.Inv.frame (hi : s.Inv) {h : Hub} {m : Holder} (hsame : s.hub.SameFlush h)
    (hmu : ∀ rest, s.mu = .flush rest → rest = [] ∨ m = .flush rest) : Sys.Inv { s with hub := h, mu := m } := by
  refine { hi with listed := fun k hk => hsame.subs ▸ hi.listed k hk, seen := fun k snap hk => ?_, armed := ?_ }
  · refine (hi.seen k snap hk).imp rfl rfl fun ho => ?_
    unfold Owed Hub.woken at ho ⊢
    rw [show ({ s with hub := h, mu := m } : Sys).hub = h from rfl, hsame.pending, hsame.subs]
    grind
  · rw [hsame.timers, hsame.pending]
    exact hi.armed

@[simp] theorem streams_setStream_self (p : Phase) : (s.setStream k p).streams k = p := Function.update_self ..
theorem streams_setStream_ne (p : Phase) {j : Nat} (h : j ≠ k) : (s.setStream k p).streams j = s.streams j :=
  Function.update_of_ne h ..

/-- An open stream moves on; a `Build` it has is the one it had, or starts now. -/
theorem Sys.Inv.move (hi : s.Inv) {p q : Phase} (hk : s.streams k = q) (hq : q.isOpen = true)
    (hp : p.snap = .none ∨ p.snap = q.snap ∨ p.snap = some s.snap) : (s.setStream k p).Inv := by
  refine { hi with unused := fun j hj => ?_, listed := fun j hj => ?_, seen := fun j snap hj => ?_ }
  · have hjk : j ≠ k := by
      intro he
      rw [← hk, ← he, hi.unused j hj] at hq
      cases hq
    rw [streams_setStream_ne p hjk]
    exact hi.unused j hj
  · by_cases hjk : j = k
    · exact hjk ▸ hi.listed k (hk ▸ hq)
    · rw [streams_setStream_ne p hjk] at hj
      exact hi.listed j hj
  · by_cases hjk : j = k
    · rw [hjk, streams_setStream_self] at hj
      rcases hp with hp | hp | hp
      · rw [hp] at hj
        cases hj
      · exact hjk ▸ hi.seen k snap (by rw [hk, ← hp, hj])
      · cases hp.symm.trans hj
        exact .inl ⟨rfl, hi.toldLe⟩
    · rw [streams_setStream_ne p hjk] at hj
      exact hi.seen j snap hj

/-- `Changed` leaves a flush due, so no stream misses it. -/
theorem Sys.Inv.change (hi : s.Inv) {v : Nat} (hv : v ≤ s.version) (gen : Option Int) : (s.change v gen).Inv := by
  refine { hi with toldLe := Nat.max_le.mpr ⟨hi.toldLe, hv⟩, seen := fun k snap hk => .inr ⟨?_, .inl rfl⟩, armed := ?_ }
  · show snap.changes < s.changes + 1
    rcases hi.seen k snap hk with h | h
    · omega
    · omega
  · have harmed := hi.armed
    show (if s.hub.pending then s.hub.timers else s.hub.timers + 1) = 1
    cases hp : s.hub.pending with
    | true =>
      rw [hp] at harmed
      exact harmed
    | false =>
      rw [hp] at harmed
      exact congrArg (· + 1) harmed

/-- A flush has every open stream before it. -/
theorem Sys.Inv.fire (hi : s.Inv) : Sys.Inv { s with hub := s.hub.flush, mu := .flush (s.hub.subs.map (·.key)) } := by
  refine { hi with seen := fun k snap hk => (hi.seen k snap hk).imp rfl rfl fun _ => ?_, armed := ?_ }
  · obtain ⟨sub, hsub, hkey⟩ := hi.listed k (Phase.isOpen_of_snap hk)
    exact .inr (.inl ⟨_, rfl, List.mem_map.mpr ⟨sub, hsub, hkey⟩⟩)
  · show s.hub.timers - 1 = 0
    rw [hi.armed]
    exact Nat.sub_eq_zero_of_le (Bool.toNat_le _)

theorem listed_wake {h : Hub} {j : Nat} (hj : ∃ sub ∈ h.subs, sub.key = j) : ∃ sub ∈ (h.wake k).subs, sub.key = j := by
  obtain ⟨sub, hsub, hkey⟩ := hj
  refine ⟨_, List.mem_map_of_mem hsub, ?_⟩
  split
  · exact hkey
  · exact hkey

theorem listed_receive {h : Hub} {j : Nat} (hj : ∃ sub ∈ h.subs, sub.key = j) : ∃ sub ∈ (h.receive k).subs, sub.key = j := by
  obtain ⟨sub, hsub, hkey⟩ := hj
  refine ⟨_, List.mem_map_of_mem hsub, ?_⟩
  split
  · exact hkey
  · exact hkey

/-- One send; a flush may skip the stream it has sent to. -/
theorem Sys.Inv.send (hi : s.Inv) {m : Holder}
    (hmu : ∀ rest j, s.mu = .flush rest → j ∈ rest → j = k ∨ ∃ rest', m = .flush rest' ∧ j ∈ rest') :
    Sys.Inv { s with hub := s.hub.wake k, mu := m } := by
  refine { hi with
    listed := fun j hj => listed_wake (hi.listed j hj)
    seen := fun j snap hj => (hi.seen j snap hj).imp rfl rfl fun ho => ?_ }
  rcases ho with hp | ⟨rest, hrest, hmem⟩ | hw
  · exact .inl hp
  · rcases hmu rest j hrest hmem with rfl | ⟨rest', hm, hmem'⟩
    · exact .inr (.inr (Hub.woken_wake.mpr (.inr ⟨rfl, hi.listed j (Phase.isOpen_of_snap hj)⟩)))
    · exact .inr (.inl ⟨rest', hm, hmem'⟩)
  · exact .inr (.inr (Hub.woken_wake.mpr (.inl hw)))

/-- A receive empties the channel of a stream that is about to build. -/
theorem Sys.Inv.receive (hi : s.Inv) (hk : (s.streams k).snap = .none) : Sys.Inv { s with hub := s.hub.receive k } := by
  refine { hi with
    listed := fun j hj => listed_receive (hi.listed j hj)
    seen := fun j snap hj => (hi.seen j snap hj).imp rfl rfl fun ho => ?_ }
  have hjk : j ≠ k := by grind
  rcases ho with hp | hm | hw
  · exact .inl hp
  · exact .inr (.inl hm)
  · exact .inr (.inr (Hub.woken_receive hjk hw))

theorem Sys.Inv.unsubscribe (hi : s.Inv) (hk : (s.streams k).isOpen = false) : Sys.Inv { s with hub := s.hub.unsubscribe k } := by
  have hkeep : ∀ sub ∈ s.hub.subs, sub.key ≠ k → sub ∈ (s.hub.unsubscribe k).subs := by
    intro sub hsub hne
    exact List.mem_filter.mpr ⟨hsub, bne_iff_ne.mpr hne⟩
  have hne : ∀ j, (s.streams j).isOpen = true → j ≠ k := by
    intro j hj he
    rw [he, hk] at hj
    cases hj
  refine { hi with
    listed := fun j hj => ?_
    seen := fun j snap hj => (hi.seen j snap hj).imp rfl rfl fun ho => ?_ }
  · obtain ⟨sub, hsub, hkey⟩ := hi.listed j hj
    exact ⟨sub, hkeep sub hsub (hkey ▸ hne j hj), hkey⟩
  · rcases ho with hp | hm | hw
    · exact .inl hp
    · exact .inr (.inl hm)
    · obtain ⟨sub, hsub, hkey, hfull⟩ := Hub.woken_iff.mp hw
      have hj := hne j (Phase.isOpen_of_snap hj)
      exact .inr (.inr (Hub.woken_iff.mpr ⟨sub, hkeep sub hsub (hkey ▸ hj), hkey, hfull⟩))

/-- A new stream has no netmap yet. -/
theorem Sys.Inv.subscribe (hi : s.Inv) (id : Str) :
    Sys.Inv { s with
      hub := s.hub.subscribe s.next id, next := s.next + 1
      streams := Function.update s.streams s.next .subscribed, peers := Function.update s.peers s.next id } := by
  refine { hi with unused := fun j hj => ?_, listed := fun j hj => ?_, seen := fun j snap hj => ?_ }
  · have hj : s.next + 1 ≤ j := hj
    show Function.update s.streams s.next .subscribed j = .none
    rw [Function.update_of_ne (by omega)]
    exact hi.unused j (by omega)
  · by_cases hjn : j = s.next
    · exact ⟨_, List.mem_cons_self, hjn.symm⟩
    · have hj : (Function.update s.streams s.next .subscribed j).isOpen = true := hj
      rw [Function.update_of_ne hjn] at hj
      obtain ⟨sub, hsub, hkey⟩ := hi.listed j hj
      exact ⟨sub, List.mem_cons_of_mem _ hsub, hkey⟩
  · have hj : (Function.update s.streams s.next .subscribed j).snap = some snap := hj
    by_cases hjn : j = s.next
    · rw [hjn, Function.update_self] at hj
      cases hj
    · rw [Function.update_of_ne hjn] at hj
      refine (hi.seen j snap hj).imp rfl rfl fun ho => ?_
      rcases ho with hp | hm | hw
      · exact .inl hp
      · exact .inr (.inl hm)
      · obtain ⟨sub, hsub, hkey⟩ := Hub.woken_iff.mp hw
        exact .inr (.inr (Hub.woken_iff.mpr ⟨sub, List.mem_cons_of_mem _ hsub, hkey⟩))

theorem Start.inv (h : Start s) : s.Inv := by
  obtain ⟨sequence, wantSeq, rfl⟩ := h
  exact ⟨fun _ _ => rfl, nofun, Nat.le_refl _, nofun, rfl⟩

/-! ## Every step keeps it -/

/-- A step of the hub without sends, with `mu` as it is. -/
theorem Sys.Inv.ofHub (hi : s.Inv) {h : Hub} (hsame : s.hub.SameFlush h) : Sys.Inv { s with hub := h } :=
  hi.frame (m := s.mu) hsame fun _ hrest => .inr hrest

theorem Sys.Inv.ofCommit (hi : s.Inv) : Sys.Inv { s with version := s.version + 1 } :=
  { hi with toldLe := Nat.le_succ_of_le hi.toldLe }

theorem Sys.Inv.ofWant (hi : s.Inv) {now : Int} {target source : Str} (hs : step s (.want now target source) = some s') :
    s'.Inv := by
  obtain ⟨hm, rfl⟩ := Option.ite_some_none_eq_some.mp hs
  refine hi.frame (s.hub.sameFlush_want now target source) fun rest hrest => ?_
  rw [hm] at hrest
  cases hrest

theorem Sys.Inv.ofSend (hi : s.Inv) (hs : step s (.send k) = some s') : s'.Inv := by
  simp only [step] at hs
  split at hs
  · cases hs
  · rename_i rest hm
    obtain ⟨-, rfl⟩ := Option.ite_some_none_eq_some.mp hs
    refine hi.send fun rest' j hrest hj => ?_
    grind
  · rename_i rest hm
    obtain ⟨-, rfl⟩ := Option.ite_some_none_eq_some.mp hs
    refine hi.send fun rest' j hrest _ => ?_
    rw [hm] at hrest
    cases hrest

theorem Sys.Inv.ofSent (hi : s.Inv) (hs : step s .sent = some s') : s'.Inv := by
  obtain ⟨hm, rfl⟩ := Option.ite_some_none_eq_some.mp hs
  refine hi.frame ⟨rfl, rfl, rfl⟩ fun rest hrest => ?_
  grind

theorem Sys.Inv.ofConnected (hi : s.Inv) (hs : step s (.connected k) = some s') : s'.Inv := by
  obtain ⟨⟨-, hk⟩, rfl⟩ := Option.ite_some_none_eq_some.mp hs
  have hhub := hi.ofHub (h := s.hub.connected (s.peers k)) ⟨rfl, rfl, rfl⟩
  refine hhub.move hk rfl (.inl ?_)
  split
  · rfl
  · rfl

theorem Sys.Inv.ofReceive (hi : s.Inv) (hs : step s (.receive k) = some s') : s'.Inv := by
  simp only [step] at hs
  split at hs
  · rename_i hk
    obtain ⟨-, rfl⟩ := Option.ite_some_none_eq_some.mp hs
    exact (hi.move hk rfl (.inl rfl)).receive (by rw [streams_setStream_self]; rfl)
  · cases hs

theorem Sys.Inv.ofStream {e : StreamEv} (hi : s.Inv) (hs : step s (.stream k e) = some s') : s'.Inv := by
  obtain ⟨p, hp, rfl⟩ := Option.map_eq_some_iff.mp hs
  unfold Phase.step at hp
  split at hp
  all_goals cases hp
  · rename_i hk
    exact hi.move hk rfl (.inr (.inr rfl))
  · rename_i hk
    exact hi.move hk rfl (.inr (.inl rfl))
  all_goals
    rename_i hk
    exact hi.move hk rfl (.inl rfl)

theorem Sys.Inv.ofUnsubscribe (hi : s.Inv) (hs : step s (.unsubscribe k) = some s') : s'.Inv := by
  obtain ⟨⟨-, hk⟩, rfl⟩ := Option.ite_some_none_eq_some.mp hs
  exact (hi.move hk rfl (.inl rfl)).unsubscribe (by rw [streams_setStream_self]; rfl)

theorem step_inv {e : Ev} (hi : s.Inv) (hs : step s e = some s') : s'.Inv := by
  cases e with
  | commit =>
    cases hs
    exact hi.ofCommit
  | changed v gen =>
    obtain ⟨⟨-, hv⟩, rfl⟩ := Option.ite_some_none_eq_some.mp hs
    exact hi.change hv gen
  | fire =>
    obtain ⟨-, rfl⟩ := Option.ite_some_none_eq_some.mp hs
    exact hi.fire
  | want now target source => exact hi.ofWant hs
  | send k => exact hi.ofSend hs
  | sent => exact hi.ofSent hs
  | subscribe id =>
    obtain ⟨-, rfl⟩ := Option.ite_some_none_eq_some.mp hs
    exact hi.subscribe id
  | connected k => exact hi.ofConnected hs
  | announce k gen =>
    obtain ⟨⟨-, hk⟩, rfl⟩ := Option.ite_some_none_eq_some.mp hs
    exact (hi.change (Nat.zero_le _) gen).move hk rfl (.inl rfl)
  | stream k e => exact hi.ofStream hs
  | receive k => exact hi.ofReceive hs
  | disconnect now k =>
    obtain ⟨⟨-, hk⟩, rfl⟩ := Option.ite_some_none_eq_some.mp hs
    exact (hi.ofHub (s.hub.sameFlush_disconnected now (s.peers k))).move hk rfl (.inl rfl)
  | unsubscribe k => exact hi.ofUnsubscribe hs
  | forget id =>
    obtain ⟨-, rfl⟩ := Option.ite_some_none_eq_some.mp hs
    exact hi.ofHub ⟨rfl, rfl, rfl⟩
  | sweep after now =>
    obtain ⟨-, rfl⟩ := Option.ite_some_none_eq_some.mp hs
    exact hi.ofHub ⟨rfl, rfl, rfl⟩

theorem reach_inv (h : Reach s) : s.Inv := h.inv (fun _ hs => Start.inv hs) fun _ _ _ hi _ hs => step_inv hi hs

end

/-- A flush is due: it is scheduled, or running. -/
def Sys.FlushDue (s : Sys) : Prop := s.hub.pending = true ∨ ∃ rest, s.mu = .flush rest

/-- No netmap update is lost. In every reachable state where no flush is due, a stream waits in
    its select and its channel is empty, the last netmap it sent was built by a `Build` that
    started after every `Changed` that has returned; so it has every commit whose `Changed` has
    returned. -/
theorem no_update_lost (s : Sys) (h : Reach s) (hflush : ¬s.FlushDue) (k : Nat) (last : Snap) (hk : s.streams k = .waiting last)
    (hempty : s.hub.woken k = false) : last.changes = s.changes ∧ s.told ≤ last.version := by
  have hi := reach_inv h
  have hsnap : (s.streams k).snap = some last := by
    rw [hk]
    rfl
  rcases hi.seen k last hsnap with hseen | ⟨-, hp | ⟨rest, hrest, -⟩ | hw⟩
  · exact hseen
  · exact absurd (.inl hp) hflush
  · exact absurd (.inr ⟨rest, hrest⟩) hflush
  · rw [hempty] at hw
    cases hw

/-- A stream connects, a commit comes while it builds, the flush wakes it and it builds again. -/
def wokenRun : List Ev :=
  [.subscribe (str "a1"), .connected 0, .announce 0 none, .stream 0 .build, .commit, .stream 0 .buildOk, .changed 1 (some 7),
    .fire, .send 0, .sent, .receive 0, .stream 0 .build, .stream 0 .buildOk]

theorem wokenRun_current :
    ∃ s, Conc.run step {} wokenRun = some s ∧ s.streams 0 = .waiting ⟨2, 1⟩ ∧ (2 = s.changes ∧ s.told ≤ 1) := by
  refine ⟨_, rfl, rfl, no_update_lost _ (.run (.start ⟨0, 0, rfl⟩) wokenRun rfl) ?_ 0 ⟨2, 1⟩ rfl rfl⟩
  intro hdue
  rcases hdue with hdue | ⟨rest, hrest⟩
  · cases hdue
  · cases hrest

end Thawr.Api.Sync
