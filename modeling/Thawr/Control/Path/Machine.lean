/-
  Thawr.Control.Path.Machine — the path to one peer (`internal/control/path`: order.go,
  machine.go): which of a peer's addresses are tried in which order, and the machine that
  tries them.

  A machine is stepped with what the daemon observed since the last step and answers with
  what the daemon must do: point the peer at its sink, re-add it at a candidate, re-add it
  at the relay, or nothing. Times and durations are nanoseconds; 0 is the zero time.
-/

import Thawr.Control.NetMap

namespace Thawr.Control.Path

open Go Netip

/-! ## The order of candidates -/

def sameLAN (ours : List Addr) (addr : Addr) : Bool :=
  addr.is4 && ours.any fun o => o.is4 && (prefixFrom o 24).masked == (prefixFrom addr 24).masked

/-- The class of a candidate; one without a class is left out. -/
def classOf (ours : List Addr) (selfSymmetric peerSymmetric : Bool) (e : Endpoint) : Option Nat :=
  match e.kind with
  | .locl => some (if sameLAN ours e.addr.addr then 0 else 1)
  | .reflexive => if selfSymmetric && peerSymmetric then none else some 2
  | .stable => some 3
  | .unknown => none

/-- The loop of `Order`; an address counts as seen only once it is in the list. -/
def rank (ours : List Addr) (selfSymmetric peerSymmetric : Bool) (list : List (AddrPort × Nat)) (e : Endpoint) :
    List (AddrPort × Nat) :=
  if !e.addr.isValid || list.any (·.1 == e.addr) then list
  else
    match classOf ours selfSymmetric peerSymmetric e with
    | none => list
    | some c => list ++ [(e.addr, c)]

def ranksBefore (a b : AddrPort × Nat) : Prop := a.2 < b.2 ∨ (a.2 = b.2 ∧ a.1.string ≤ b.1.string)

instance : DecidableRel ranksBefore := fun _ _ => inferInstanceAs (Decidable (_ ∨ _))

def order (ours : List Addr) (theirs : List Endpoint) (selfSymmetric peerSymmetric : Bool) : List AddrPort :=
  ((theirs.foldl (rank ours selfSymmetric peerSymmetric) []).insertionSort ranksBefore).map (·.1)

/-! ## The machine -/

inductive State where
  | idle
  | probing
  | direct
  | relay
  | unreachable
  deriving DecidableEq

inductive Action where
  | none
  /-- Point the peer at its local sink. -/
  | sink
  /-- Re-add the peer at the output's endpoint. -/
  | probe
  /-- Re-add the peer at its relay proxy. -/
  | relay
  deriving DecidableEq

abbrev Time := Int

/-- Nanoseconds, without the wrap-around of `int64`: the one sum, a window and its stagger, only
    gets there with a probe window of 194 years. -/
abbrev Duration := Int

/-- `Time.Sub`, which saturates. -/
def since (a b : Time) : Duration := max (min (a - b) (2 ^ 63 - 1)) (-2 ^ 63)

def second : Duration := 1000000000

structure Options where
  probeWindow : Duration := 0
  stallAfter : Duration := 0
  retryAfter : Duration := 0
  /-- An exhausted candidate list ends in `relay` instead of `unreachable`. -/
  relay : Bool := false
  deriving DecidableEq

def Options.withDefaults (o : Options) : Options :=
  { o with
    probeWindow := if o.probeWindow ≤ 0 then 2 * second else o.probeWindow
    stallAfter := if o.stallAfter ≤ 0 then 180 * second else o.stallAfter
    retryAfter := if o.retryAfter ≤ 0 then 60 * second else o.retryAfter }

structure Input where
  now : Time
  /-- Traffic toward the peer was seen. -/
  intent : Bool := false
  /-- The peer started probing toward this device. -/
  reach : Bool := false
  handshake : Time := 0
  endpoint : AddrPort := AddrPort.zero
  rx : UInt64 := 0
  tx : UInt64 := 0

structure Output where
  state : State
  endpoint : AddrPort
  action : Action
  /-- State or endpoint differ from the last step. -/
  changed : Bool := false

structure Machine where
  opts : Options
  state : State := .idle
  candidates : List AddrPort := []
  dirty : Bool := false
  idx : Nat := 0
  endpoint : AddrPort := AddrPort.zero
  started : Bool := false
  wanted : Bool := false
  freshIntent : Bool := false
  fromRelay : Bool := false
  lag : Duration := 0
  window : Duration := 0
  retryIdx : Nat := 0
  windowStart : Time := 0
  lastProbe : Time := 0
  lastRound : Time := 0
  handshake : Time := 0
  rx : UInt64 := 0
  tx : UInt64 := 0
  probes : Nat := 0
  deriving DecidableEq

namespace Machine

def new (opts : Options) : Machine := { opts := opts.withDefaults }

def setStagger (m : Machine) (on : Bool) : Machine := { m with lag := if on then m.opts.probeWindow.tdiv 2 else 0 }

def hold (m : Machine) (now : Time) : Machine := if m.state = .probing then { m with windowStart := now } else m

def setCandidates (m : Machine) (list : List AddrPort) : Machine :=
  if m.candidates = list then m else { m with candidates := list, dirty := true }

def useRelay (m : Machine) : Machine × Action :=
  ({ m with state := .relay, endpoint := AddrPort.zero, fromRelay := false }, .relay)

def probeNext (m : Machine) (now : Time) : Machine × Action :=
  match m.candidates[m.idx]? with
  | none =>
    if m.opts.relay then m.useRelay else ({ m with state := .unreachable, endpoint := AddrPort.zero }, .sink)
  | some ep =>
    ({ m with
        state := .probing, endpoint := ep, windowStart := now, lastProbe := now, window := m.opts.probeWindow
        probes := m.probes + 1 }, .probe)

/-- The first window of a round or retry is longer by the stagger. -/
def lagged (r : Machine × Action) : Machine × Action := ({ r.1 with window := r.1.window + r.1.lag }, r.2)

def startRound (m : Machine) (now : Time) : Machine × Action :=
  lagged (probeNext { m with dirty := false, freshIntent := false, fromRelay := false, lastRound := now, idx := 0 } now)

def retryFromRelay (m : Machine) (now : Time) : Machine × Action :=
  let idx := m.retryIdx % m.candidates.length
  lagged (probeNext { m with lastRound := now, fromRelay := true, idx := idx, retryIdx := idx + 1 } now)

def direct (m : Machine) (ep : AddrPort) : Machine := { m with state := .direct, endpoint := ep }

def observe (m : Machine) (inp : Input) : Machine :=
  { m with
    started := true
    wanted := m.wanted || inp.intent || inp.reach
    freshIntent := m.freshIntent || inp.intent || inp.reach
    handshake := if m.handshake < inp.handshake then inp.handshake else m.handshake }

/-- A round joins the peer's only half a retry interval after the last one. -/
def joins (m : Machine) (inp : Input) : Bool :=
  inp.reach && (m.lastRound == 0 || decide (m.opts.retryAfter.tdiv 2 ≤ since inp.now m.lastRound))

def acts (r : Machine × Action) : Machine × Option Action := (r.1, some r.2)

def react (m : Machine) (inp : Input) (advanced reach : Bool) : Machine × Option Action :=
  match m.state with
  | .idle | .unreachable =>
    -- the peer reached us first and WireGuard learned its address
    if advanced && inp.endpoint.isValid then (m.direct inp.endpoint, none)
    else if m.wanted && (decide (m.state = .idle) || m.dirty || reach ||
        (m.freshIntent && decide (m.opts.retryAfter ≤ since inp.now m.lastRound))) then acts (m.startRound inp.now)
    else (m, none)
  | .probing =>
    if advanced && inp.endpoint.isValid then (m.direct inp.endpoint, none)
    else if advanced && !m.fromRelay then ({ m with state := .direct }, none)
    else if inp.reach && m.fromRelay then acts (m.startRound inp.now)
    else if m.dirty && decide (m.opts.probeWindow ≤ since inp.now m.lastProbe) then acts (m.startRound inp.now)
    else if m.window ≤ since inp.now m.windowStart then
      if m.fromRelay then acts m.useRelay else acts (probeNext { m with idx := m.idx + 1 } inp.now)
    else (m, none)
  | .direct =>
    let m := if advanced && inp.endpoint.isValid then { m with endpoint := inp.endpoint } else m
    if m.handshake != 0 && decide (m.opts.stallAfter < since inp.now m.handshake) && decide (m.tx < inp.tx) &&
        inp.rx == m.rx && m.wanted then acts (m.startRound inp.now)
    else (m, none)
  | .relay =>
    if advanced && inp.endpoint.isValid then (m.direct inp.endpoint, none)
    else if m.dirty && decide (m.opts.probeWindow ≤ since inp.now m.lastProbe) then acts (m.startRound inp.now)
    else if reach && !m.candidates.isEmpty then acts (m.startRound inp.now)
    else if !m.candidates.isEmpty && decide (m.opts.retryAfter ≤ since inp.now m.lastRound) then
      acts (m.retryFromRelay inp.now)
    else (m, none)

/-- `Step`. The very first one points the peer at its sink unless it does more. -/
def step (m : Machine) (inp : Input) : Machine × Output :=
  let r := (m.observe inp).react inp (decide (m.handshake < inp.handshake)) (m.joins inp)
  let m' := { r.1 with rx := inp.rx, tx := inp.tx }
  (m', { state := m'.state, endpoint := m'.endpoint, action := r.2.getD (if m.started then .none else .sink)
         changed := decide (m'.state ≠ m.state) || decide (m'.endpoint ≠ m.endpoint) })

end Machine

end Thawr.Control.Path
