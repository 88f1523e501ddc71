/-
  Thawr.Relay.Server — the relay's sessions (`internal/relay/server.go`), any number of them.

  A session is a run of `Serve`. Its reader, its pinger and its writer are goroutines of their
  own; a step is what one of them does between two points where another may run. So `forward`
  is cut at the question to `Visible`, at the lookup under `mu` and in front of both `select`s
  of `enqueue`. What the outside decides is in the event: the bytes a connection gives, the
  clock, whether the token bucket has room, what `Visible` answers, when a context ends or a
  write fails. The counters are left out.

  `log` is kept for the proofs: what was received, what `Visible` allowed and what was put on a
  queue, the latest first.

  What holds in every run is in `Thawr.Relay.Delivery`.
-/

import Thawr.Conc.Runs
import Thawr.Control.Path.Machine
import Thawr.Relay.Frame

namespace Thawr.Relay

open Go
open Control.Path (Time second since)

structure ServerOptions where
  queueSize : Nat := 256
  missedPings : Nat := 3
  maxViolationsPerMinute : Nat := 10

inductive Reader where
  /-- At `ReadFrame`. -/
  | reading
  /-- In `forward`, in front of the checks that ask nobody. -/
  | sending (h : Header)
  /-- `Visible` was asked. -/
  | asking (h : Header)
  /-- `Visible` said yes; the lookup is next. -/
  | allowed (h : Header)
  /-- In `peerGone`; `refused` when `Visible` said no, so that a violation is noted next. -/
  | gone (dst : Key) (refused : Bool)
  /-- In `enqueue` of the session `dst`, in front of its first `select`. -/
  | enqueue (dst : Nat) (f : Frame) (refused : Bool)
  /-- In front of the second. -/
  | offer (dst : Nat) (f : Frame) (refused : Bool)
  | violation
  /-- The reader has returned. -/
  | left
  /-- The session is closed and still to be taken out of the table. -/
  | closed
  | finished
  deriving DecidableEq

inductive Pinger where
  | waiting
  | enqueue
  | offer
  | stopped
  deriving DecidableEq

structure Session where
  key : Key := Arr.zero 32
  /-- The frames on `out`. -/
  out : List Frame := []
  done : Bool := false
  missed : Nat := 0
  gone : List (Key × Time) := []
  violations : List Time := []
  /-- The reader's buffer. -/
  buf : List UInt8 := List.replicate (headerLen + maxPayload) 0
  reader : Reader := .reading
  pinger : Pinger := .waiting

inductive Note where
  | received (i : Nat) (f : Frame)
  /-- `Visible` said yes to session `i` for the pair. -/
  | visible (i : Nat) (src dst : Key)
  /-- Session `i` put a frame on the queue of session `j`. -/
  | put (i j : Nat) (f : Frame)
  deriving DecidableEq

structure Server where
  opts : ServerOptions := {}
  /-- The sessions so far, by the order they registered in. -/
  sessions : Nat → Session := fun _ => {}
  count : Nat := 0
  table : GoMap Key Nat := ∅
  closed : Bool := false
  log : List Note := []

namespace Server

def set (s : Server) (i : Nat) (x : Session) : Server := { s with sessions := Function.update s.sessions i x }

def note (s : Server) (n : Note) : Server := { s with log := n :: s.log }

def goTo (s : Server) (i : Nat) (r : Reader) : Server := s.set i { s.sessions i with reader := r }

def stop (s : Server) (i : Nat) : Server := s.set i { s.sessions i with done := true }

def stopUnless (s : Server) (keep : Key → Bool) : Server :=
  { s with sessions := fun i =>
      let x := s.sessions i
      if s.table.lookup x.key = some i ∧ keep x.key = false then { x with done := true } else x }

/-! ## `Serve` -/

/-- `Serve` up to the start of its goroutines: a session of the same key is replaced. -/
def serve (s : Server) (key : Key) : Server :=
  if s.closed then s
  else
    let s := match s.table.lookup key with
      | some old => s.stop old
      | none => s
    { s.set s.count { key := key } with count := s.count + 1, table := s.table.insert key s.count }

/-- The end of `Serve`: the session leaves the table unless another took its place. -/
def cleanup (s : Server) (i : Nat) : Server :=
  let s := s.goTo i .finished
  if s.table.lookup (s.sessions i).key = some i then { s with table := s.table.erase (s.sessions i).key } else s

/-! ## The reader -/

/-- The `switch` on the type of a frame session `i` has read. -/
def switchOn (x : Session) (i : Nat) (h : Header) : Session :=
  if h.type = typeSend then { x with reader := .sending h }
  else if h.type = typePing then { x with reader := .enqueue i { type := typePong } false }
  else if h.type = typePong then { x with missed := 0 }
  else x

def read (s : Server) (i : Nat) (c : Conn) : Server :=
  let r := readFrame c (s.sessions i).buf
  let x := { s.sessions i with buf := r.2.1 }
  match r.1 with
  | .error _ => s.set i { x with reader := .left }
  | .ok h => (s.note (.received i (h.frame r.2.1))).set i (switchOn x i h)

def check (s : Server) (i : Nat) (h : Header) (room : Bool) : Server :=
  if isWireGuard (h.frame (s.sessions i).buf).payload && room then s.goTo i (.asking h) else s.goTo i .reading

def answer (s : Server) (i : Nat) (h : Header) : Option Bool → Server
  | none => s.goTo i .reading
  | some false => s.goTo i (.gone h.key true)
  | some true => (s.note (.visible i (s.sessions i).key h.key)).goTo i (.allowed h)

/-- The lookup under `mu`, and the copy of the payload. -/
def lookup (s : Server) (i : Nat) (h : Header) : Server :=
  match s.table.lookup h.key with
  | none => s.goTo i (.gone h.key false)
  | some j => s.goTo i (.enqueue j ⟨typeRecv, (s.sessions i).key, (h.frame (s.sessions i).buf).payload⟩ false)

/-- Where the reader goes on after a call for which `refused` is noted. -/
def after (refused : Bool) : Reader := if refused then .violation else .reading

/-- `peerGone`, at most once per second and destination. -/
def peerGone (s : Server) (i : Nat) (dst : Key) (refused : Bool) (now : Time) : Server :=
  let x := s.sessions i
  if (x.gone.lookup dst).any fun last => decide (since now last < second) then s.goTo i (after refused)
  else s.set i { x with gone := (dst, now) :: x.gone, reader := .enqueue i { type := typePeerGone, key := dst } refused }

/-- `violation`: too many within a minute end the session. -/
def violation (s : Server) (i : Nat) (now : Time) : Server :=
  let x := s.sessions i
  let kept := (x.violations.filter fun t => decide (since now t < 60 * second)) ++ [now]
  s.set i { x with violations := kept, reader := if s.opts.maxViolationsPerMinute < kept.length then .left else .reading }

def tryDone (s : Server) (i dst : Nat) (f : Frame) (refused : Bool) : Server :=
  s.goTo i (if (s.sessions dst).done then after refused else .offer dst f refused)

def push (s : Server) (i dst : Nat) (f : Frame) : Server :=
  if (s.sessions dst).out.length < s.opts.queueSize then
    (s.set dst { s.sessions dst with out := (s.sessions dst).out ++ [f] }).note (.put i dst f)
  else s

/-! ## Steps -/

/-- What the outside decides about a step of a reader. -/
structure Input where
  /-- The bytes its connection gives. -/
  conn : Conn := ⟨[], .eof⟩
  /-- The token bucket has room. -/
  room : Bool := true
  /-- What `Visible` answers, `none` for an error. -/
  visible : Option Bool := some true
  now : Time := 0

inductive Ev where
  | serve (key : Key)
  | reader (i : Nat) (x : Input)
  | cleanup (i : Nat)
  /-- `fires`: the ticker does, where the pinger waits for it. -/
  | pinger (i : Nat) (fires : Bool)
  /-- The writer takes a frame off the queue. -/
  | take (i : Nat)
  /-- The context ended, or the writer failed. -/
  | stop (i : Nat)
  | prune (keep : Key → Bool)
  | close

def readerStep (s : Server) (i : Nat) (x : Input) : Option Server :=
  match (s.sessions i).reader with
  | .reading => some (s.read i x.conn)
  | .sending h => some (s.check i h x.room)
  | .asking h => some (s.answer i h x.visible)
  | .allowed h => some (s.lookup i h)
  | .gone dst refused => some (s.peerGone i dst refused x.now)
  | .enqueue dst f refused => some (s.tryDone i dst f refused)
  | .offer dst f refused => some ((s.push i dst f).goTo i (after refused))
  | .violation => some (s.violation i x.now)
  -- `sess.close()` after the reader
  | .left => some ((s.stop i).goTo i .closed)
  | .closed | .finished => none

def pingerStep (s : Server) (i : Nat) (fires : Bool) : Option Server :=
  let x := s.sessions i
  match x.pinger with
  | .waiting =>
    if fires then
      if s.opts.missedPings < x.missed + 1 then some (s.set i { x with missed := x.missed + 1, done := true, pinger := .stopped })
      else some (s.set i { x with missed := x.missed + 1, pinger := .enqueue })
    else if x.done then some (s.set i { x with pinger := .stopped })
    else none
  | .enqueue => some (s.set i { x with pinger := if x.done then .waiting else .offer })
  | .offer =>
    let s := s.push i i { type := typePing }
    some (s.set i { s.sessions i with pinger := .waiting })
  | .stopped => none

def take (s : Server) (i : Nat) : Option Server :=
  match (s.sessions i).out with
  | [] => none
  | _ :: rest => some (s.set i { s.sessions i with out := rest })

def next (s : Server) : Ev → Option Server
  | .serve key => some (s.serve key)
  | .reader i x => if i < s.count then s.readerStep i x else none
  | .cleanup i => if i < s.count ∧ (s.sessions i).reader = .closed then some (s.cleanup i) else none
  | .pinger i fires => if i < s.count then s.pingerStep i fires else none
  | .take i => if i < s.count then s.take i else none
  | .stop i => some (s.stop i)
  | .prune keep => some (s.stopUnless keep)
  | .close => some { s.stopUnless (fun _ => false) with closed := true }

def Start (s : Server) : Prop := ∃ opts, s = { opts := opts }

end Server

end Thawr.Relay
