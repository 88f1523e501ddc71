/-
  Thawr.Control.NetMap — a peer's view of the network as the server builds it
  (`internal/control/netmap.go`, `policyvis.go`).
-/

import Thawr.Go.Netip
import Thawr.Lock.Record

namespace Thawr.Control

open Go Netip Lock

inductive EndpointKind where
  | unknown
  | locl
  | reflexive
  | stable
  deriving DecidableEq

structure Endpoint where
  addr : AddrPort
  kind : EndpointKind
  deriving DecidableEq

structure PeerSignature where
  signer : PublicKey
  signature : Signature

structure NetPeer where
  id : Str := []
  name : Str := []
  kind : Str := []
  owner : Str := []
  publicKey : Str := []
  ipv4 : Addr := .zero
  ipv6 : Addr := .zero
  online : Bool := false
  endpoints : List Endpoint := []
  symmetric : Bool := false
  keepalive : Bool := false
  allowedIPs : List Prefix := []
  viaHub : Bool := false
  signatures : List PeerSignature := []
  exitNode : Bool := false
  wanted : Bool := false
  wantSeq : UInt64 := 0

structure HubPeer where
  publicKey : Str := []
  endpoint : Str := []
  allowedIPs : List Prefix := []
  signatures : List PeerSignature := []

structure FilterRule where
  src : Addr
  proto : Str
  portLo : UInt16
  portHi : UInt16

structure ForwardRule where
  src : Addr
  dst : Prefix
  proto : Str
  portLo : UInt16
  portHi : UInt16

structure AdvertisedRoute where
  dst : Prefix
  approved : Bool

structure NetMap where
  generation : Int := 0
  selfID : Str := []
  selfName : Str := []
  selfKind : Str := []
  selfSignatures : List PeerSignature := []
  selfIPv4 : Addr := .zero
  overlay : Prefix := Prefix.none
  selfIPv6 : Addr := .zero
  overlay6 : Prefix := Prefix.none
  peers : List NetPeer := []
  hub : HubPeer := {}
  filter : List FilterRule := []
  stun : List Str := []
  lock : Option Signed := none
  forward : List ForwardRule := []
  selfAdvertised : List AdvertisedRoute := []

end Thawr.Control
