/-
  Thawr.Server.LockOrder — the locks the control plane's calls take
  (`internal/control`, `internal/server/dns.go`, `internal/store/tx.go`).

  The store has one connection, which a query takes for as long as it runs and `InTx` for the
  whole transaction; it is a lock like the mutexes. Each call is given by the locks its code
  takes, one definition per function, callbacks included: enrolment asks the running policy for
  the peers it names while it holds the connection, `Changed` reads the generation under the
  hub's mutex, the resolver loads the compiled policy under its own. An error may end a call
  after any step. Mutexes of no other module are taken under these (the endpoint table, the
  rate limiter), so they are left out.

  Proved: however many of these calls run at once, they never all wait (`calls_deadlock_free`).
-/

import Thawr.Conc.Locks

namespace Thawr.Server.LockOrder

open Conc Prog

inductive Lock where
  /-- The connection of the store. -/
  | conn
  /-- `PolicyService.mu`. -/
  | policyMu
  /-- `PolicyService.reloadMu`. -/
  | reloadMu
  /-- `Hub.mu`. -/
  | hubMu
  /-- `KeyVisibility.mu`. -/
  | keyMu
  /-- `registrySource.mu`. -/
  | sourceMu
  deriving DecidableEq

open Thawr.Server.LockOrder.Lock

/-- The order in which the locks are taken. -/
def rank : Lock → Nat
  | reloadMu => 0
  | keyMu => 1
  | sourceMu => 1
  | hubMu => 2
  | conn => 3
  | policyMu => 4

/-! ## What the calls do -/

def query : Prog Lock := hold conn .skip

/-- `InTx`; the queries of the transaction need no lock. -/
def inTx (body : Prog Lock) : Prog Lock := hold conn body

def current : Prog Lock := hold policyMu .skip

def peerRefs : Prog Lock := current

def registry : Prog Lock := steps [query, query, query]

/-- `PolicyService.Compiled`: the generation, the cache, and on a miss the registry and the
    cache again. -/
def compiled : Prog Lock := .seq query (.seq (hold policyMu .skip) (opt (.seq registry (opt (hold policyMu .skip)))))

def tagAllowed : Prog Lock := compiled

def generation : Prog Lock := hold hubMu .skip

/-- `Hub.Changed` reads the generation under the mutex. -/
def changed : Prog Lock := hold hubMu query

def flush : Prog Lock := hold hubMu .skip

def want : Prog Lock := hold hubMu .skip

def online : Prog Lock := hold hubMu .skip

def wantSeq : Prog Lock := hold hubMu .skip

/-- `Enroller.Enroll`: the names the policy selects are asked for inside the transaction. -/
def enroll : Prog Lock := opt (steps [inTx (.loop peerRefs), changed])

/-- `Tokens.Create`: the owner, the tags and the name, each before the transaction. -/
def createToken : Prog Lock := steps [query, .loop tagAllowed, opt peerRefs, inTx .skip]

def createStatic : Prog Lock := opt (steps [opt peerRefs, .loop tagAllowed, query, inTx .skip, changed])

def rename : Prog Lock := opt (steps [query, opt peerRefs, inTx .skip, changed])

def delete : Prog Lock := opt (steps [query, inTx .skip, changed])

/-- `Registry.RotateKey`: the lock record is read through the transaction. -/
def rotateKey : Prog Lock := opt (steps [inTx .skip, changed])

def lockSet : Prog Lock := opt (steps [inTx .skip, changed])

/-- `LockService.Sign`: the signer is checked before the transaction. -/
def lockSign : Prog Lock := steps [query, inTx .skip, changed]

def reload : Prog Lock := hold reloadMu (opt (steps [registry, inTx .skip, hold policyMu .skip, changed, compiled]))

/-- `NetMapBuilder.Build`: the peer, all peers, owners, the lock record, the signatures, one
    compilation, the routes; then the hub is asked for its sequence and about each peer. -/
def build : Prog Lock :=
  steps [query, query, query, query, query, compiled, query, .seq generation (.loop (.seq (opt online) (opt wantSeq)))]

def keyVisible : Prog Lock := .seq generation (.seq (hold keyMu (opt query)) (opt compiled))

def refresh : Prog Lock := .seq generation (.seq (hold sourceMu .skip) (opt (steps [query, hold sourceMu .skip])))

/-- `registrySource.Lookup`: the policy is loaded under the mutex. -/
def lookup : Prog Lock := .seq refresh (opt (hold sourceMu (opt compiled)))

/-- `registrySource.Reverse`, which may answer for the hub at once. -/
def reverse : Prog Lock := opt (.seq refresh (opt (hold sourceMu (opt compiled))))

inductive Call where
  | enroll
  | createToken
  | createStatic
  | rename
  | delete
  | rotateKey
  | lockSet
  | lockSign
  | reload
  | compiled
  | changed
  | flush
  | want
  | build
  | keyVisible
  | lookup
  | reverse

def Call.prog : Call → Prog Lock
  | .enroll => LockOrder.enroll
  | .createToken => LockOrder.createToken
  | .createStatic => LockOrder.createStatic
  | .rename => LockOrder.rename
  | .delete => LockOrder.delete
  | .rotateKey => LockOrder.rotateKey
  | .lockSet => LockOrder.lockSet
  | .lockSign => LockOrder.lockSign
  | .reload => LockOrder.reload
  | .compiled => LockOrder.compiled
  | .changed => LockOrder.changed
  | .flush => LockOrder.flush
  | .want => LockOrder.want
  | .build => LockOrder.build
  | .keyVisible => LockOrder.keyVisible
  | .lookup => LockOrder.lookup
  | .reverse => LockOrder.reverse

/-- Every call takes its locks in order and gives them all back. -/
theorem call_in_order (c : Call) : flow rank [] c.prog = some [] := by
  cases c <;> decide +kernel

/-- The control plane cannot deadlock: in no state that concurrent calls reach are there
    unfinished calls which all wait for a mutex or the connection. -/
theorem calls_deadlock_free (n : Nat) (calls : Fin n → Call) (s : Sys (Fin n) Lock)
    (h : Reach (Sys.Start fun i => (calls i).prog) Sys.step Always s) : ¬s.Deadlock := by
  have hbound : ∀ l, rank l ≤ 4 := by
    intro l
    cases l <;> decide
  exact deadlock_free hbound (fun i => call_in_order (calls i)) h

def twoCalls : Fin 2 → Call
  | 0 => .enroll
  | 1 => .changed

def crossing : List (Fin 2 × Bool) :=
  [(0, true), (0, true), (0, true), (0, true), (1, true), (1, true), (1, true), (1, true)]

/-- `Changed` waits for the connection under the mutex; the enrolment goes on. -/
theorem crossing_goes_on : ∃ s, run Sys.step (.start fun i => (twoCalls i).prog) crossing = some s ∧
    s.owner conn = some 0 ∧ s.owner hubMu = some 1 ∧ s.step (1, true) = none ∧ ¬s.Deadlock := by
  have hr : Reach (Sys.Start fun i => (twoCalls i).prog) Sys.step Always _ := .run (.start rfl) crossing rfl
  exact ⟨_, rfl, rfl, rfl, rfl, calls_deadlock_free 2 twoCalls _ hr⟩

end Thawr.Server.LockOrder
