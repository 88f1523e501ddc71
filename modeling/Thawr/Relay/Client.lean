/-
  Thawr.Relay.Client — the relay client: its proxies, the timers that drop them, and the
  goroutine that keeps the connection (`internal/relay/client.go`).

  `Endpoint`, `Release`, `dropProxy`, `idle` and the first half of `Close` hold `mu` and are one
  step each. A release timer that is due fires, and then its `dropProxy` waits for `mu` as a step
  of its own. A run is one `go c.run(ctx)`: it decides to return, clears `running` under `mu`,
  and then closes `c.done`, as the field is by then. Runs are numbered as they start; a run, its
  `cancel` and its `done` channel have one number. What is carried over the connection is left
  out; whether a dial or a socket succeeds is in the event.
-/

import Thawr.Conc.Runs
import Thawr.Control.Path.Machine
import Thawr.Relay.Frame

namespace Thawr.Relay

open Go
open Control.Path (Time Duration second since)

structure ClientOptions where
  idleTimeout : Duration := 0
  releaseDelay : Duration := 0

def ClientOptions.withDefaults (o : ClientOptions) : ClientOptions where
  idleTimeout := if o.idleTimeout ≤ 0 then 300 * second else o.idleTimeout
  releaseDelay := if o.releaseDelay ≤ 0 then 10 * second else o.releaseDelay

structure Proxy where
  key : Key := Arr.zero 32
  isOpen : Bool := false

inductive TimerState where
  | armed
  | stopped
  /-- Its `dropProxy` waits for `mu`. -/
  | fired
  | dropped
  deriving DecidableEq

structure Timer where
  key : Key := Arr.zero 32
  due : Time := 0
  state : TimerState := .stopped

inductive RunPhase where
  /-- At the top of its loop, in front of the idle check. -/
  | top
  | dialing
  | serving
  /-- Waiting to dial again. -/
  | waiting
  /-- Returned; the deferred function is in front of `mu`. -/
  | leaving
  /-- `running` is cleared and `mu` released; `close(c.done)` is next. -/
  | cleared
  | finished
  deriving DecidableEq

def RunPhase.active : RunPhase → Bool
  | .top | .dialing | .serving | .waiting => true
  | _ => false

structure Run where
  phase : RunPhase := .finished
  cancelled : Bool := false

/-- Where a call of `Close` is, with the run whose `cancel` and `done` it read. -/
inductive CloseCall where
  | cancelling (g : Nat)
  | waiting (g : Nat)
  | returned
  deriving DecidableEq

/-- For the proofs: `Endpoint(key)` returned the address of a proxy, and when `Release(key)` was
    first called since. -/
structure Use where
  key : Key
  proxy : Nat
  released : Option Time := none
  deriving DecidableEq

structure Client where
  opts : ClientOptions := {}
  clock : Time := 0
  proxies : GoMap Key Nat := ∅
  /-- The proxies so far. -/
  sockets : Nat → Proxy := fun _ => {}
  made : Nat := 0
  releasing : GoMap Key Nat := ∅
  /-- The release timers so far. -/
  timers : Nat → Timer := fun _ => {}
  armed : Nat := 0
  idleSince : Time := 0
  running : Bool := false
  closed : Bool := false
  /-- The run whose `cancel` and `done` the client's fields hold. -/
  current : Option Nat := none
  runs : Nat → Run := fun _ => {}
  started : Nat := 0
  /-- Which runs closed the `done` channel of each run, the latest first. -/
  doneBy : Nat → List Nat := fun _ => []
  calls : Nat → CloseCall := fun _ => .returned
  called : Nat := 0
  uses : List Use := []

namespace Client

/-! ## Proxies -/

/-- `t.Stop()`: a timer that has fired is not stopped any more. -/
def Timer.stop (t : Timer) : Timer := if t.state = .armed then { t with state := .stopped } else t

/-- The timer of the key, if it has one, is stopped; `delete` of a key that is not there does
    nothing. -/
def keep (c : Client) (key : Key) : Client :=
  { c with
    timers := match c.releasing.lookup key with
      | none => c.timers
      | some t => Function.update c.timers t (Timer.stop (c.timers t))
    releasing := c.releasing.erase key }

def startRun (c : Client) : Client :=
  if c.running then c
  else { c with running := true, current := some c.started, runs := Function.update c.runs c.started { phase := .top }
                started := c.started + 1 }

def makeProxy (c : Client) (key : Key) : Client :=
  { c with proxies := c.proxies.insert key c.made, sockets := Function.update c.sockets c.made ⟨key, true⟩, made := c.made + 1 }

def use (c : Client) (key : Key) (p : Nat) : Client := { c with uses := ⟨key, p, none⟩ :: c.uses }

def endpoint (c : Client) (key : Key) (socket : Bool) : Client :=
  if c.closed then c
  else
    let c := c.keep key
    match c.proxies.lookup key with
    | some p => c.use key p
    | none => if socket then ((c.makeProxy key).startRun).use key c.made else c

def Use.release (u : Use) (key : Key) (now : Time) : Use :=
  if u.key = key then { u with released := some (u.released.getD now) } else u

def noteRelease (c : Client) (key : Key) : Client := { c with uses := c.uses.map fun u => Use.release u key c.clock }

/-- `time.AfterFunc(c.opts.ReleaseDelay, …)`, kept in `releasing`. -/
def arm (c : Client) (key : Key) : Client :=
  { c with
    releasing := c.releasing.insert key c.armed
    timers := Function.update c.timers c.armed ⟨key, c.clock + c.opts.releaseDelay, .armed⟩
    armed := c.armed + 1 }

/-- `Release`: arms a timer unless the key has no proxy or has a timer already. -/
def release (c : Client) (key : Key) : Client :=
  if (c.proxies.lookup key).isNone || (c.releasing.lookup key).isSome then c.noteRelease key
  else (c.noteRelease key).arm key

def dropProxy (c : Client) (t : Nat) : Client :=
  let key := (c.timers t).key
  { c with
    timers := Function.update c.timers t { c.timers t with state := .dropped }
    releasing := c.releasing.erase key
    sockets := match c.proxies.lookup key with
      | none => c.sockets
      | some p => Function.update c.sockets p { c.sockets p with isOpen := false }
    proxies := c.proxies.erase key
    idleSince := if c.proxies.erase key = ∅ then c.clock else c.idleSince }

/-! ## `Close` -/

/-- `Close` up to its unlock: every timer in `releasing` is stopped, every proxy closed. -/
def close (c : Client) : Client :=
  { c with
    closed := true
    timers := fun t => if c.releasing.lookup (c.timers t).key = some t then Timer.stop (c.timers t) else c.timers t
    releasing := ∅
    sockets := fun p =>
      if c.proxies.lookup (c.sockets p).key = some p then { c.sockets p with isOpen := false } else c.sockets p
    proxies := ∅
    calls := Function.update c.calls c.called (match c.current with
      | none => .returned
      | some g => .cancelling g)
    called := c.called + 1 }

/-! ## Runs -/

def idle (c : Client) : Bool :=
  decide (c.proxies = ∅) && decide (c.idleSince ≠ 0) && decide (c.opts.idleTimeout ≤ since c.clock c.idleSince)

def goTo (c : Client) (g : Nat) (p : RunPhase) : Client :=
  { c with runs := Function.update c.runs g { c.runs g with phase := p } }

def clear (c : Client) (g : Nat) : Client := { c.goTo g .cleared with running := false }

/-- `close(c.done)`, with the channel the field holds by now. -/
def closeDone (c : Client) (g : Nat) : Client :=
  let c := c.goTo g .finished
  match c.current with
  | none => c
  | some ch => { c with doneBy := Function.update c.doneBy ch (g :: c.doneBy ch) }

/-! ## Steps -/

inductive Ev where
  /-- The clock goes on. -/
  | time (now : Time)
  | endpoint (key : Key) (socket : Bool)
  | release (key : Key)
  /-- A timer that is due fires. -/
  | fire (t : Nat)
  | drop (t : Nat)
  | close
  /-- `cancel()` of the `k`-th call of `Close`. -/
  | cancel (k : Nat)
  /-- The call has received from its channel. -/
  | released (k : Nat)
  /-- The next step of a run. `ok`: its dial succeeds; its wait for the next dial is over, and not
      because it was cancelled. -/
  | run (g : Nat) (ok : Bool)

def runStep (c : Client) (g : Nat) (ok : Bool) : Option Client :=
  match (c.runs g).phase with
  | .top => some (c.goTo g (if c.idle then .leaving else .dialing))
  | .dialing => some (c.goTo g (if ok then .serving else if (c.runs g).cancelled then .leaving else .waiting))
  | .serving => some (c.goTo g (if (c.runs g).cancelled then .leaving else .waiting))
  | .waiting =>
    if ok then some (c.goTo g .top) else if (c.runs g).cancelled then some (c.goTo g .leaving) else none
  | .leaving => some (c.clear g)
  | .cleared => some (c.closeDone g)
  | .finished => none

def next (c : Client) : Ev → Option Client
  | .time now => if c.clock ≤ now then some { c with clock := now } else none
  | .endpoint key socket => some (c.endpoint key socket)
  | .release key => some (c.release key)
  | .fire t =>
    if t < c.armed ∧ (c.timers t).state = .armed ∧ (c.timers t).due ≤ c.clock then
      some { c with timers := Function.update c.timers t { c.timers t with state := .fired } }
    else none
  | .drop t => if t < c.armed ∧ (c.timers t).state = .fired then some (c.dropProxy t) else none
  | .close => some c.close
  | .cancel k =>
    match c.calls k with
    | .cancelling g =>
      some { c with runs := Function.update c.runs g { c.runs g with cancelled := true }
                    calls := Function.update c.calls k (.waiting g) }
    | _ => none
  | .released k =>
    match c.calls k with
    | .waiting g => if c.doneBy g ≠ [] then some { c with calls := Function.update c.calls k .returned } else none
    | _ => none
  | .run g ok => if g < c.started then c.runStep g ok else none

def newClient (opts : ClientOptions) (now : Time) : Client := { opts := opts.withDefaults, clock := now }

def Start (c : Client) : Prop := ∃ opts now, c = newClient opts now

/-! ## What a step can do -/

/-- `Endpoint` will make a new proxy for the key. -/
def makesProxy (c : Client) (key : Key) (socket : Bool) : Bool := !c.closed && (c.proxies.lookup key).isNone && socket

inductive Step (c : Client) : Ev → Client → Prop where
  | time {now : Time} (h : c.clock ≤ now) : Step c (.time now) { c with clock := now }
  | refused {key : Key} {socket : Bool} (h : c.closed = true) : Step c (.endpoint key socket) c
  | found {key : Key} {socket : Bool} {p : Nat} (ho : c.closed = false) (h : c.proxies.lookup key = some p) :
      Step c (.endpoint key socket) ((c.keep key).use key p)
  | made {key : Key} {socket : Bool} (ho : c.closed = false) (h : c.proxies.lookup key = none)
      (hm : c.makesProxy key socket = true) :
      Step c (.endpoint key socket) ((((c.keep key).makeProxy key).startRun).use key c.made)
  | noSocket {key : Key} {socket : Bool} (ho : c.closed = false) (h : c.proxies.lookup key = none) :
      Step c (.endpoint key socket) (c.keep key)
  | notes {key : Key} (h : c.proxies.lookup key = none ∨ c.releasing.lookup key ≠ none) :
      Step c (.release key) (c.noteRelease key)
  | arms {key : Key} (hp : c.proxies.lookup key ≠ none) (hr : c.releasing.lookup key = none) :
      Step c (.release key) ((c.noteRelease key).arm key)
  | fire {t : Nat} (ht : t < c.armed) (ha : (c.timers t).state = .armed) (hd : (c.timers t).due ≤ c.clock) :
      Step c (.fire t) { c with timers := Function.update c.timers t { c.timers t with state := .fired } }
  | drop {t : Nat} (ht : t < c.armed) (hf : (c.timers t).state = .fired) : Step c (.drop t) (c.dropProxy t)
  | close : Step c .close c.close
  | cancel {k g : Nat} (h : c.calls k = .cancelling g) :
      Step c (.cancel k) { c with runs := Function.update c.runs g { c.runs g with cancelled := true }
                                  calls := Function.update c.calls k (.waiting g) }
  | released {k g : Nat} (h : c.calls k = .waiting g) (hd : c.doneBy g ≠ []) :
      Step c (.released k) { c with calls := Function.update c.calls k .returned }
  | goesOn {g : Nat} {ok : Bool} {p : RunPhase} (hg : g < c.started) (ha : (c.runs g).phase.active = true)
      (hp : p.active = true) : Step c (.run g ok) (c.goTo g p)
  | returns {g : Nat} {ok : Bool} (hg : g < c.started) (ha : (c.runs g).phase.active = true)
      (h : c.idle = true ∨ (c.runs g).cancelled = true) : Step c (.run g ok) (c.goTo g .leaving)
  | clears {g : Nat} {ok : Bool} (hg : g < c.started) (h : (c.runs g).phase = .leaving) : Step c (.run g ok) (c.clear g)
  | closes {g : Nat} {ok : Bool} (hg : g < c.started) (h : (c.runs g).phase = .cleared) : Step c (.run g ok) (c.closeDone g)

variable {c c' : Client} {e : Ev}

theorem endpoint_step (c : Client) (key : Key) (socket : Bool) : Step c (.endpoint key socket) (c.endpoint key socket) := by
  unfold endpoint
  cases hc : c.closed with
  | true => simpa using Step.refused hc
  | false =>
    have hkeep : (c.keep key).proxies = c.proxies := rfl
    simp only [Bool.false_eq_true, if_false, hkeep]
    cases hl : c.proxies.lookup key with
    | some p => exact .found hc hl
    | none =>
      cases socket with
      | true => exact .made hc hl (by simp [makesProxy, hc, hl])
      | false => exact .noSocket hc hl

theorem release_step (c : Client) (key : Key) : Step c (.release key) (c.release key) := by
  unfold release
  cases hl : c.proxies.lookup key with
  | none => exact .notes (.inl hl)
  | some p =>
    cases ht : c.releasing.lookup key with
    | none => exact .arms (by simp [hl]) ht
    | some t => exact .notes (.inr (by simp [ht]))

theorem runStep_step {g : Nat} {ok : Bool} (hg : g < c.started) (h : c.runStep g ok = some c') : Step c (.run g ok) c' := by
  unfold runStep at h
  split at h
  all_goals
    rename_i hp
    have ha : (c.runs g).phase.active = _ := congrArg RunPhase.active hp
  · cases h
    split
    · exact .returns hg ha (.inl ‹_›)
    · exact .goesOn hg ha rfl
  · cases h
    split_ifs
    · exact .goesOn hg ha rfl
    · exact .returns hg ha (.inr ‹_›)
    · exact .goesOn hg ha rfl
  · cases h
    split
    · exact .returns hg ha (.inr ‹_›)
    · exact .goesOn hg ha rfl
  · split_ifs at h
    · cases h
      exact .goesOn hg ha rfl
    · cases h
      exact .returns hg ha (.inr ‹_›)
  · cases h
    exact .clears hg hp
  · cases h
    exact .closes hg hp
  · cases h

theorem next_step (h : c.next e = some c') : Step c e c' := by
  cases e with
  | time now =>
    obtain ⟨hn, rfl⟩ := Option.ite_some_none_eq_some.mp h
    exact .time hn
  | endpoint key socket =>
    cases h
    exact endpoint_step c key socket
  | release key =>
    cases h
    exact release_step c key
  | fire t =>
    obtain ⟨⟨ht, ha, hd⟩, rfl⟩ := Option.ite_some_none_eq_some.mp h
    exact .fire ht ha hd
  | drop t =>
    obtain ⟨⟨ht, hf⟩, rfl⟩ := Option.ite_some_none_eq_some.mp h
    exact .drop ht hf
  | close =>
    cases h
    exact .close
  | cancel k =>
    simp only [next] at h
    split at h
    · cases h
      exact .cancel ‹_›
    · cases h
  | released k =>
    simp only [next] at h
    split at h
    · obtain ⟨hd, rfl⟩ := Option.ite_some_none_eq_some.mp h
      exact .released ‹_› hd
    · cases h
  | run g ok =>
    obtain ⟨hg, h⟩ := Option.ite_none_right_eq_some.mp h
    exact runStep_step hg h

/-! ## Runs -/

theorem reach_new {ok : Client → Ev → Prop} (opts : ClientOptions) (now : Time) : Conc.Reach Start next ok (newClient opts now) :=
  .start ⟨opts, now, rfl⟩

theorem closed_step (h : c.closed = true) (hs : Step c e c') : c'.closed = true := by
  cases hs with
  | found ho | made ho | noSocket ho => simp [ho] at h
  | closes =>
    simp only [closeDone]
    split <;> exact h
  | close => rfl
  | time | refused | notes | arms | fire | drop | cancel | released | goesOn | returns | clears => exact h

/-- What a new client has and every step of an open one keeps holds until the client is
    closed. -/
theorem until_closed {I : Client → Prop} {ok : Client → Ev → Prop} (h : Conc.Reach Start next ok c)
    (hstart : ∀ opts now, I (newClient opts now))
    (hstep : ∀ c e c', I c → c.closed = false → ok c e → Step c e c' → c'.closed = true ∨ I c') : c.closed = true ∨ I c := by
  refine h.inv (I := fun c => c.closed = true ∨ I c) ?_ fun s e s' hi hok hs => ?_
  · rintro _ ⟨opts, now, rfl⟩
    exact .inr (hstart opts now)
  · cases hc : s.closed with
    | true => exact .inl (closed_step hc (next_step hs))
    | false => exact hstep s e s' (hi.resolve_left (by simp [hc])) hc hok (next_step hs)

end Client

end Thawr.Relay
