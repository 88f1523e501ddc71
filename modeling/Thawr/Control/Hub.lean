/-
  Thawr.Control.Hub — the netmap sequence, presence, reach requests and the wake-up channels of
  open Sync streams (`internal/control/hub.go`).

  Every method holds `mu` for its whole body, so each is one function on the hub's state; the
  sends of `flush` and `Want` go out one by one while they hold it (`wake`). Times are
  nanoseconds. A subscriber is named by its address; its channel has room for one value.

  Registry commits are each followed by `Changed`, which moves the sequence on: the hub is the
  clock of the caches that label what they read with its sequence (`Changes`).
-/

import Thawr.Conc.Clock
import Thawr.Go.Bytes

namespace Thawr.Control

open Go

structure Subscriber where
  /-- Its address. -/
  key : Nat
  peerID : Str
  /-- The channel has its value. -/
  full : Bool := false

structure Presence where
  streams : Nat := 0
  disconnectedAt : Int := 0
  online : Bool := false

structure WantReq where
  at_ : Int
  woke : Int
  /-- Of the latest wake. -/
  seq : UInt64

structure Hub where
  sequence : Int := 0
  subs : List Subscriber := []
  presence : List (Str × Presence) := []
  /-- A flush is scheduled. -/
  pending : Bool := false
  /-- How many timers are set to run `flush`. -/
  timers : Nat := 0
  /-- Reach requests by target and requester. -/
  wants : List (Str × List (Str × WantReq)) := []
  wantSeq : UInt64 := 0

def wantTTL : Int := 30000000000

def wantRepeat : Int := 5000000000

def setEntry {α : Type} (m : List (Str × α)) (k : Str) (v : α) : List (Str × α) := (k, v) :: m.filter fun x => x.1 != k

namespace Hub

variable (h : Hub)

/-- `Generation`. -/
def generation : Int := h.sequence

def subscribe (key : Nat) (peerID : Str) : Hub := { h with subs := ⟨key, peerID, false⟩ :: h.subs }

def unsubscribe (key : Nat) : Hub := { h with subs := h.subs.filter fun s => s.key != key }

def wake (key : Nat) : Hub := { h with subs := h.subs.map fun s => if s.key = key then { s with full := true } else s }

def receive (key : Nat) : Hub := { h with subs := h.subs.map fun s => if s.key = key then { s with full := false } else s }

def woken (key : Nat) : Bool := h.subs.any fun s => s.key == key && s.full

/-- `Changed`; `gen` is the database generation, `none` when it cannot be read. -/
def changed (gen : Option Int) : Hub :=
  let next := h.sequence + 1
  { h with
    sequence := match gen with
      | some g => if next < g then g else next
      | none => next
    pending := true
    timers := if h.pending then h.timers else h.timers + 1 }

/-- `flush` up to its first send, run by a timer. -/
def flush : Hub := { h with pending := false, timers := h.timers - 1 }

/-- `Connected` up to its call of `Changed`, which follows when the peer was not online. -/
def connected (peerID : Str) : Hub :=
  let e := (h.presence.lookup peerID).getD {}
  { h with presence := setEntry h.presence peerID { e with streams := e.streams + 1, online := true } }

def disconnected (now : Int) (peerID : Str) : Hub :=
  match h.presence.lookup peerID with
  | none => h
  | some e =>
    let n := e.streams - 1
    { h with presence :=
        setEntry h.presence peerID { e with streams := n, disconnectedAt := if n = 0 then now else e.disconnectedAt } }

def online (peerID : Str) : Bool := ((h.presence.lookup peerID).map (·.online)).getD false

def forget (peerID : Str) : Hub :=
  { h with
    presence := h.presence.filter fun x => x.1 != peerID
    wants := ((h.wants.filter fun x => x.1 != peerID).map fun x => (x.1, x.2.filter fun y => y.1 != peerID)).filter
      fun x => !x.2.isEmpty }

def liveWants (now : Int) (target : Str) : List (Str × WantReq) :=
  ((h.wants.lookup target).getD []).filter fun x => decide (now - x.2.at_ < wantTTL)

/-- A request that wakes its target: recorded with a new number, for the subscribers of the
    target. -/
def wantWake (now : Int) (target source : Str) : Hub × List Nat :=
  ({ h with
      wants := setEntry h.wants target (setEntry (h.liveWants now target) source ⟨now, now, h.wantSeq + 1⟩)
      wantSeq := h.wantSeq + 1 },
    (h.subs.filter fun s => s.peerID == target).map (·.key))

/-- `Want` up to its first send: the new state and the subscribers it sends to. A request wakes
    its target when it is new, or last did so long enough ago. -/
def want (now : Int) (target source : Str) : Hub × List Nat :=
  match h.presence.lookup target with
  | none => (h, [])
  | some e =>
    if e.streams = 0 then (h, [])
    else
      match (h.liveWants now target).lookup source with
      | none => h.wantWake now target source
      | some r =>
        if wantRepeat ≤ now - r.woke then h.wantWake now target source
        else ({ h with wants := setEntry h.wants target (setEntry (h.liveWants now target) source { r with at_ := now }) }, [])

def wantOf (target source : Str) : Option WantReq := ((h.wants.lookup target).getD []).lookup source

/-- The requests without the one of `source` for a target, which goes with its last one. -/
def dropWant (target source : Str) : Hub :=
  let rest := ((h.wants.lookup target).getD []).filter fun x => x.1 != source
  { h with wants := if rest.isEmpty then h.wants.filter fun x => x.1 != target else setEntry h.wants target rest }

/-- `WantSeq`: the number of the latest wake, 0 without a request that has not expired. One that
    has is dropped. -/
def wantSeqOf (now : Int) (target source : Str) : Hub × UInt64 :=
  match h.wantOf target source with
  | none => (h, 0)
  | some r => if now - r.at_ < wantTTL then (h, r.seq) else (h.dropWant target source, 0)

def expired (offlineAfter now : Int) (e : Presence) : Bool :=
  e.online && e.streams == 0 && decide (offlineAfter ≤ now - e.disconnectedAt)

/-- `Sweep` up to its call of `Changed`, which follows when an entry went offline. -/
def sweep (offlineAfter now : Int) : Hub :=
  { h with presence := h.presence.map fun x => if expired offlineAfter now x.2 then (x.1, { x.2 with online := false }) else x }

end Hub

/-! ## What the methods do to the sequence and the channels -/

namespace Hub

variable {h : Hub} {k k' : Nat}

/-- `Changed` always moves the sequence on. -/
theorem sequence_changed (h : Hub) (gen : Option Int) : h.sequence < (h.changed gen).sequence := by
  unfold changed
  grind

/-- The channels and the flush of the two are the same. -/
structure SameFlush (h h' : Hub) : Prop where
  subs : h'.subs = h.subs
  pending : h'.pending = h.pending
  timers : h'.timers = h.timers

theorem sameFlush_disconnected (h : Hub) (now : Int) (id : Str) : h.SameFlush (h.disconnected now id) := by
  unfold disconnected
  split
  · exact ⟨rfl, rfl, rfl⟩
  · exact ⟨rfl, rfl, rfl⟩

theorem sameFlush_want (h : Hub) (now : Int) (target source : Str) : h.SameFlush (h.want now target source).1 := by
  unfold want wantWake
  repeat' split
  all_goals exact ⟨rfl, rfl, rfl⟩

theorem woken_iff : h.woken k = true ↔ ∃ s ∈ h.subs, s.key = k ∧ s.full = true := by
  unfold woken
  simp only [List.any_eq_true, Bool.and_eq_true, beq_iff_eq]

/-- A send leaves the other channels as they are. -/
theorem woken_wake : (h.wake k).woken k' = true ↔ h.woken k' = true ∨ (k' = k ∧ ∃ s ∈ h.subs, s.key = k) := by
  rw [woken_iff, woken_iff]
  unfold wake
  simp only [List.mem_map, exists_exists_and_eq_and]
  constructor
  · intro hs
    obtain ⟨s, hs, hkey, hfull⟩ := hs
    split at hkey
    · rename_i hk
      exact .inr ⟨by rw [← hkey]; exact hk, s, hs, hk⟩
    · rename_i hk
      rw [if_neg hk] at hfull
      exact .inl ⟨s, hs, hkey, hfull⟩
  · intro hs
    rcases hs with ⟨s, hs, hkey, hfull⟩ | ⟨rfl, s, hs, hkey⟩
    · refine ⟨s, hs, ?_⟩
      split
      · exact ⟨hkey, rfl⟩
      · exact ⟨hkey, hfull⟩
    · exact ⟨s, hs, by rw [if_pos hkey]; exact ⟨hkey, rfl⟩⟩

theorem woken_receive (hne : k' ≠ k) (hw : h.woken k' = true) : (h.receive k).woken k' = true := by
  rw [woken_iff] at hw ⊢
  obtain ⟨s, hs, hkey, hfull⟩ := hw
  refine ⟨s, List.mem_map.mpr ⟨s, hs, ?_⟩, hkey, hfull⟩
  rw [if_neg (by rw [hkey]; exact hne)]

end Hub

/-! ## The hub as a clock -/

structure Changes where
  hub : Hub := {}
  /-- How many commits there were. -/
  version : Nat := 0
  /-- The newest commit whose `Changed` had returned by the time the sequence left a number, or so far. -/
  told : Int → Nat := fun _ => 0

namespace Changes

def clock (c : Changes) : Conc.Clock := ⟨c.hub.sequence, c.version, c.told⟩

def commit (c : Changes) : Changes := { c with version := c.version + 1 }

/-- The `Changed` of the commit that made the version `v`, or one without a commit (`0`). -/
def changed (c : Changes) (v : Nat) (gen : Option Int) : Changes :=
  { c with
    hub := c.hub.changed gen
    told := fun g => if (c.hub.changed gen).sequence ≤ g then max c.clock.news v else c.told g }

theorem seq_changed (c : Changes) (gen : Option Int) : c.clock.seq < (c.hub.changed gen).sequence := c.hub.sequence_changed gen

end Changes

end Thawr.Control
