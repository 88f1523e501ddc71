/-
  Thawr.Api.Convert — the control netmap on the wire (`internal/api/convert.go`).

  The wire types are those of `thawr.v1`; a getter on an absent message reads its zero
  value, so only the lock record, which the client asks for presence, is optional.
-/

import Thawr.Control.Endpoints

namespace Thawr.Api

open Go Netip Lock Control

namespace Proto

structure PeerSignature where
  signerKey : Str := []
  signature : Str := []

structure Endpoint where
  addr : Str := []
  kind : EndpointKind := .unknown

structure EndpointReport where
  endpoints : List Endpoint := []
  listenPort : UInt32 := 0
  symmetric : Bool := false

structure AdvertisedRoute where
  dst : Str := []
  approved : Bool := false

structure SelfInfo where
  id : Str := []
  name : Str := []
  kind : Str := []
  ipv4 : Str := []
  overlayCidr : Str := []
  ipv6 : Str := []
  overlayIpv6 : Str := []
  stunAddrs : List Str := []
  signatures : List PeerSignature := []
  advertised : List AdvertisedRoute := []

structure NetPeer where
  id : Str := []
  name : Str := []
  kind : Str := []
  owner : Str := []
  publicKey : Str := []
  ipv4 : Str := []
  ipv6 : Str := []
  online : Bool := false
  endpoints : List Endpoint := []
  symmetric : Bool := false
  keepalive : Bool := false
  allowedIps : List Str := []
  viaHub : Bool := false
  signatures : List PeerSignature := []
  exitNode : Bool := false
  wanted : Bool := false
  wantSeq : UInt64 := 0

structure HubPeer where
  publicKey : Str := []
  endpoint : Str := []
  allowedIps : List Str := []
  signatures : List PeerSignature := []

structure FilterRule where
  srcIpv4 : Str := []
  srcIpv6 : Str := []
  proto : Str := []
  portLo : UInt32 := 0
  portHi : UInt32 := 0

structure ForwardRule where
  srcIpv4 : Str := []
  srcIpv6 : Str := []
  dstCidr : Str := []
  proto : Str := []
  portLo : UInt32 := 0
  portHi : UInt32 := 0

structure LockSigner where
  key : Str := []
  peerId : Str := []

structure LockRecord where
  generation : UInt64 := 0
  disabled : Bool := false
  signers : List LockSigner := []

structure SignedLockRecord where
  record : Option LockRecord := none
  signature : Str := []

structure NetMap where
  generation : Int := 0
  self : SelfInfo := {}
  peers : List NetPeer := []
  hub : HubPeer := {}
  filter : List FilterRule := []
  lock : Option SignedLockRecord := none
  forward : List ForwardRule := []
  serverVersion : Str := []

end Proto

def endpointsToProto (eps : List Endpoint) : List Proto.Endpoint := eps.map fun e => ⟨e.addr.string, e.kind⟩

def signaturesToProto (sigs : List PeerSignature) : List Proto.PeerSignature :=
  sigs.map fun s => ⟨text s.signer, text s.signature⟩

def lockToProto (s : Option Signed) : Option Proto.SignedLockRecord :=
  s.map fun s =>
    { record := some ⟨s.record.generation, s.record.disabled, s.record.signers.map fun x => ⟨text x.key, x.peerID⟩⟩
      signature := text s.signature }

def ifValid (a : Addr) (s : Str) : Str := if a.isValid then s else []

def peerToProto (p : NetPeer) : Proto.NetPeer :=
  { id := p.id, name := p.name, kind := p.kind, owner := p.owner, publicKey := p.publicKey, ipv4 := p.ipv4.string
    ipv6 := ifValid p.ipv6 p.ipv6.string, online := p.online, endpoints := endpointsToProto p.endpoints
    symmetric := p.symmetric, keepalive := p.keepalive, allowedIps := p.allowedIPs.map Prefix.string, viaHub := p.viaHub
    signatures := signaturesToProto p.signatures, exitNode := p.exitNode, wanted := p.wanted, wantSeq := p.wantSeq }

def filterToProto (f : FilterRule) : Proto.FilterRule :=
  { srcIpv4 := if f.src.is4 then f.src.string else [], srcIpv6 := if f.src.is4 then [] else f.src.string
    proto := f.proto, portLo := f.portLo.toUInt32, portHi := f.portHi.toUInt32 }

def forwardToProto (f : ForwardRule) : Proto.ForwardRule :=
  { srcIpv4 := if f.src.is4 then f.src.string else [], srcIpv6 := if f.src.is4 then [] else f.src.string
    dstCidr := f.dst.string, proto := f.proto, portLo := f.portLo.toUInt32, portHi := f.portHi.toUInt32 }

def netMapToProto (nm : NetMap) : Proto.NetMap :=
  { generation := nm.generation
    self :=
      { id := nm.selfID, name := nm.selfName, kind := nm.selfKind, ipv4 := nm.selfIPv4.string
        overlayCidr := nm.overlay.string, ipv6 := ifValid nm.selfIPv6 nm.selfIPv6.string
        overlayIpv6 := ifValid nm.selfIPv6 nm.overlay6.string, stunAddrs := nm.stun
        signatures := signaturesToProto nm.selfSignatures
        advertised := nm.selfAdvertised.map fun a => ⟨a.dst.string, a.approved⟩ }
    hub :=
      { publicKey := nm.hub.publicKey, endpoint := nm.hub.endpoint, allowedIps := nm.hub.allowedIPs.map Prefix.string
        signatures := signaturesToProto nm.hub.signatures }
    lock := lockToProto nm.lock
    peers := nm.peers.map peerToProto
    filter := nm.filter.map filterToProto
    forward := nm.forward.map forwardToProto }

/-! ## Endpoint reports -/

def endpointsFromProto (eps : List Proto.Endpoint) : Except EndpointErr (List Control.Endpoint) :=
  if maxEndpoints < eps.length then .error .tooMany else eps.mapM fun e => parseEndpoint e.addr e.kind

inductive ReportErr where
  | endpoints (e : EndpointErr)
  /-- "listen_port out of range" -/
  | listenPort

/-- `ReportEndpoints` of the peer `me`: the table, and whether its candidates changed. -/
def reportEndpoints (t : EndpointTable) (now : Int) (me : Str) (req : Proto.EndpointReport) :
    Except ReportErr (EndpointTable × Bool) := do
  let eps ← (endpointsFromProto req.endpoints).mapError .endpoints
  check (req.listenPort ≤ 65535) .listenPort
  (t.set now me eps req.symmetric req.listenPort.toUInt16).mapError .endpoints

end Thawr.Api
