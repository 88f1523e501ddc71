/-
  Thawr.Control.Endpoints — the candidates the server keeps for each peer
  (`internal/control/endpoints.go`).

  A peer reports its own candidates (`Set`, after `ValidateEndpoints`); the hub notes where a
  peer's WireGuard packets come from (`SetObserved`). `Get` gives both to the netmap builder as
  long as they are fresh. The table's methods hold `mu`; a `now` is what the clock shows in
  the call. Times are nanoseconds.

  Proved: what `ValidateEndpoints` accepts (`validateEndpoints_ok`).
-/

import Thawr.Control.NetMap

namespace Thawr.Control

open Go Netip

def maxEndpoints : Nat := 16

inductive EndpointErr where
  /-- "at most %d endpoints" -/
  | tooMany
  /-- "endpoint %q is not ip:port" -/
  | notAddrPort (a : AddrPort)
  /-- "endpoint %s is not routable" -/
  | notRoutable (a : AddrPort)
  /-- "endpoint %s has unknown kind" -/
  | unknownKind (a : AddrPort)
  /-- "endpoint %q: %w" -/
  | parse (s : Str)

def validateEndpoint (e : Endpoint) : Except EndpointErr Unit :=
  let a := e.addr.addr.unmap
  if !e.addr.isValid || e.addr.port == 0 then .error (.notAddrPort e.addr)
  else if a.isLoopback || a.isUnspecified || a.isMulticast then .error (.notRoutable e.addr)
  else if e.kind = .unknown then .error (.unknownKind e.addr)
  else .ok ()

def validateEndpoints (eps : List Endpoint) : Except EndpointErr Unit :=
  if maxEndpoints < eps.length then .error .tooMany else eps.forM validateEndpoint

def parseEndpoint (s : Str) (kind : EndpointKind) : Except EndpointErr Endpoint :=
  match parseAddrPort s with
  | none => .error (.parse s)
  | some ap => .ok ⟨ap, kind⟩

structure EndpointEntry where
  endpoints : List Endpoint
  symmetric : Bool
  listenPort : UInt16
  updated : Int

structure ObservedEntry where
  addr : AddrPort
  updated : Int

structure EndpointTable where
  m : GoMap Str EndpointEntry := ∅
  observed : GoMap Str ObservedEntry := ∅

namespace EndpointTable

def set (t : EndpointTable) (now : Int) (peerID : Str) (eps : List Endpoint) (symmetric : Bool) (listenPort : UInt16) :
    Except EndpointErr (EndpointTable × Bool) := do
  validateEndpoints eps
  let same := (t.m.lookup peerID).any fun old =>
    old.symmetric == symmetric && old.listenPort == listenPort && old.endpoints == eps
  return ({ t with m := t.m.insert peerID ⟨eps, symmetric, listenPort, now⟩ }, !same)

/-- `SetObserved`: the table, and whether the address changed. -/
def setObserved (t : EndpointTable) (now : Int) (peerID : Str) (addr : AddrPort) : EndpointTable × Bool :=
  let a := addr.addr.unmap
  if !addr.isValid || addr.port == 0 || a.isLoopback || a.isUnspecified then (t, false)
  else
    let new : AddrPort := ⟨a, addr.port⟩
    ({ t with observed := t.observed.insert peerID ⟨new, now⟩ }, !(t.observed.lookup peerID).any fun old => old.addr == new)

def endpointTTL : Int := 300000000000

def containsAddr (eps : List Endpoint) (addr : AddrPort) : Bool := eps.any fun e => e.addr == addr

/-- `Get`: the table, the live candidates and whether the peer is behind a symmetric NAT. What
    has expired is dropped. -/
def get (t : EndpointTable) (now : Int) (peerID : Str) : EndpointTable × List Endpoint × Bool :=
  let reported : GoMap Str EndpointEntry × List Endpoint × Bool :=
    match t.m.lookup peerID with
    | none => (t.m, [], false)
    | some e => if endpointTTL < now - e.updated then (t.m.erase peerID, [], false) else (t.m, e.endpoints, e.symmetric)
  let seen : GoMap Str ObservedEntry × List Endpoint :=
    match t.observed.lookup peerID with
    | none => (t.observed, reported.2.1)
    | some o =>
      if endpointTTL < now - o.updated then (t.observed.erase peerID, reported.2.1)
      else (t.observed, if containsAddr reported.2.1 o.addr then reported.2.1 else reported.2.1 ++ [⟨o.addr, .reflexive⟩])
  (⟨reported.1, seen.1⟩, seen.2, reported.2.2)

end EndpointTable

/-! ## Paths -/

structure PathState where
  peerID : Str
  state : Str
  endpoint : Str
  updated : Int := 0

structure PathTable where
  m : GoMap Str (List PathState) := ∅

def PathTable.set (t : PathTable) (now : Int) (peerID : Str) (paths : List PathState) : PathTable :=
  ⟨t.m.insert peerID (paths.map fun p => { p with updated := now })⟩

inductive PathErr where
  /-- "too many paths" -/
  | tooMany
  /-- "unknown path state %q" -/
  | unknownState (s : Str)

def pathStates : List Str := [str "direct", str "relay", str "probing", str "idle", str "unreachable", str "hub"]

/-- `ReportPath` (`internal/api/grpc.go`) up to the requests it makes of the hub. -/
def reportPath (t : PathTable) (now : Int) (me : Str) (paths : List PathState) : Except PathErr PathTable :=
  if 4096 < paths.length then .error .tooMany
  else
    match paths.find? fun p => !pathStates.contains p.state with
    | some p => .error (.unknownState p.state)
    | none => .ok (t.set now me paths)

/-! ## What is accepted -/

structure Endpoint.Routable (e : Endpoint) : Prop where
  valid : e.addr.isValid = true
  port : e.addr.port ≠ 0
  loopback : e.addr.addr.unmap.isLoopback = false
  unspecified : e.addr.addr.unmap.isUnspecified = false
  multicast : e.addr.addr.unmap.isMulticast = false
  kind : e.kind ≠ .unknown

theorem validateEndpoint_ok {e : Endpoint} : validateEndpoint e = .ok () ↔ e.Routable := by
  unfold validateEndpoint
  simp only
  split_ifs with h1 h2 h3
  · refine iff_of_false (by simp) fun h => ?_
    simp [h.valid, h.port] at h1
  · refine iff_of_false (by simp) fun h => ?_
    simp [h.loopback, h.unspecified, h.multicast] at h2
  · exact iff_of_false (by simp) fun h => h.kind h3
  · refine iff_of_true rfl ?_
    simp only [Bool.or_eq_true, Bool.not_eq_true', beq_iff_eq, not_or, Bool.not_eq_false] at h1
    simp only [Bool.or_eq_true, not_or, Bool.not_eq_true] at h2
    exact ⟨h1.1, h1.2, h2.1.1, h2.1.2, h2.2, h3⟩

theorem forM_ok {ε α : Type} {f : α → Except ε Unit} {l : List α} : l.forM f = .ok () ↔ ∀ a ∈ l, f a = .ok () := by
  induction l with
  | nil => exact iff_of_true rfl (fun a ha => absurd ha List.not_mem_nil)
  | cons a l ih =>
    rw [show (a :: l).forM f = (f a >>= fun _ => l.forM f) from rfl, bind_ok, List.forall_mem_cons, ← ih]
    grind

theorem validateEndpoints_ok {eps : List Endpoint} :
    validateEndpoints eps = .ok () ↔ eps.length ≤ maxEndpoints ∧ ∀ e ∈ eps, e.Routable := by
  unfold validateEndpoints
  by_cases h : maxEndpoints < eps.length
  · rw [if_pos h]
    exact iff_of_false (by simp) fun hh => absurd h (Nat.not_lt.mpr hh.1)
  · rw [if_neg h, forM_ok]
    simp only [validateEndpoint_ok, Nat.not_lt.mp h, true_and]

end Thawr.Control
