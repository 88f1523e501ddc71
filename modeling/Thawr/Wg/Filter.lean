/-
  Thawr.Wg.Filter — the userspace packet filter (`internal/wg/filter.go`).

  Outbound packets record flows; an inbound packet passes when it answers a flow, is an ICMP
  diagnostic from a visible peer, an ICMPv6 error or neighbour discovery message, or matches
  a rule. On the input hook a packet for another address passes only by a forward rule; on
  the forward hook a packet for this host is not filtered. Time is nanoseconds and every
  function that reads the clock takes it as `now`.
-/

import Thawr.Go.Netip

namespace Thawr.Wg

open Go Netip

def protoAny : Str := str "any"
def protoTCP : Str := str "tcp"
def protoUDP : Str := str "udp"
def protoICMP : Str := str "icmp"

/-- Lets packets from `src` reach `dst` (the zero address: this host). -/
structure FilterRule where
  src : Prefix
  dst : Addr := .zero
  proto : Str
  lo : UInt16
  hi : UInt16

structure ForwardRule where
  src : Prefix
  dst : Prefix
  proto : Str
  lo : UInt16
  hi : UInt16

inductive FilterHook where
  | input
  | forward
  deriving DecidableEq

structure FilterSet where
  interface : Str := []
  hook : FilterHook := .input
  /-- `Local` and `Local6`. -/
  localIP : Addr := .zero
  localIP6 : Addr := .zero
  visible : List Addr := []
  rules : List FilterRule := []
  forward : List ForwardRule := []
  masquerade : List Prefix := []
  masqueradeFrom : Prefix := Prefix.none
  masqueradeFrom6 : Prefix := Prefix.none
  /-- Skips the input chain of the kernel filter. -/
  routerOnly : Bool := false

/-! ## Packets -/

structure Packet where
  proto : UInt8
  src : Addr
  dst : Addr
  /-- ICMP and ICMPv6: the type. -/
  sport : UInt16 := 0
  /-- ICMP and ICMPv6: the echo identifier. -/
  dport : UInt16 := 0
  tcpFlags : UInt8 := 0
  deriving DecidableEq

def byteAt (b : List UInt8) (i : Nat) : UInt8 := b.getD i 0

def be16 (b : List UInt8) (i : Nat) : UInt16 := UInt16.ofNat ((byteAt b i).toNat * 256 + (byteAt b (i + 1)).toNat)

def parseTransport (p : Packet) (t : List UInt8) : Option Packet :=
  if p.proto = 6 then
    if t.length < 14 then none else some { p with sport := be16 t 0, dport := be16 t 2, tcpFlags := byteAt t 13 }
  else if p.proto = 17 then
    if t.length < 4 then none else some { p with sport := be16 t 0, dport := be16 t 2 }
  else if p.proto = 1 ∨ p.proto = 58 then
    if t.length < 8 then none else some { p with sport := (byteAt t 0).toUInt16, dport := be16 t 4 }
  else some p

def parseIPv4 (b : List UInt8) : Option Packet :=
  if b.length < 20 ∨ byteAt b 0 >>> 4 ≠ 4 then none
  else
    let ihl := (byteAt b 0 &&& 0x0f).toNat * 4
    if ihl < 20 ∨ b.length < ihl then none
    else
      let p : Packet := { proto := byteAt b 9, src := .v4 (Arr.at 4 b 12), dst := .v4 (Arr.at 4 b 16) }
      -- a fragment other than the first has no transport header
      if be16 b 6 &&& 0x1fff ≠ 0 then some p else parseTransport p (b.drop ihl)

/-- The walk past the extension headers: at most `ext6Max` of them. -/
def parseExt6 (b : List UInt8) (p : Packet) : Nat → UInt8 → Nat → Option Packet
  | 0, _, _ => none
  | n + 1, next, off =>
    if next = 0 ∨ next = 43 ∨ next = 60 then
      if b.length < off + 2 then none
      else parseExt6 b p n (byteAt b off) (off + ((byteAt b (off + 1)).toNat + 1) * 8)
    else if next = 44 then
      if b.length < off + 8 then none
      else if be16 b (off + 2) >>> 3 ≠ 0 then some { p with proto := byteAt b off }
      else parseExt6 b p n (byteAt b off) (off + 8)
    else if b.length < off then none
    else parseTransport { p with proto := next } (b.drop off)

def ext6Max : Nat := 8

def parseIPv6 (b : List UInt8) : Option Packet :=
  if b.length < 40 ∨ byteAt b 0 >>> 4 ≠ 6 then none
  else parseExt6 b { proto := 0, src := .v6 (Arr.at 16 b 8) [], dst := .v6 (Arr.at 16 b 24) [] } ext6Max (byteAt b 6) 40

def parsePacket (b : List UInt8) : Option Packet :=
  match b with
  | [] => none
  | c :: _ => if c >>> 4 = 4 then parseIPv4 b else if c >>> 4 = 6 then parseIPv6 b else none

namespace Packet

def isICMP (p : Packet) : Bool := p.proto == 1 || p.proto == 58

def echoRequest (p : Packet) : UInt16 := if p.proto = 58 then 128 else 8

def echoReply (p : Packet) : UInt16 := if p.proto = 58 then 129 else 0

/-- ICMPv6 errors and neighbour discovery, which pass without a rule. -/
def icmp6Always (p : Packet) : Bool :=
  p.proto == 58 && (decide (1 ≤ p.sport) && decide (p.sport ≤ 4) || decide (133 ≤ p.sport) && decide (p.sport ≤ 137))

end Packet

/-! ## The filter -/

def second : Int := 1000000000
def flowUDP : Int := 120 * second
def flowTCP : Int := 3600 * second
def flowTCPDone : Int := 30 * second
def flowICMP : Int := 30 * second
def sweepEvery : Int := 30 * second

structure FlowKey where
  proto : UInt8
  localIP : Addr
  remote : Addr
  localPort : UInt16 := 0
  remotePort : UInt16 := 0
  deriving DecidableEq

structure PacketFilter where
  /-- The compiled set; `none` before the first `Set`. -/
  set : Option FilterSet := none
  /-- When each recorded flow expires. -/
  flows : FlowKey → Option Int := fun _ => none
  lastSweep : Int := 0
  drops : Nat := 0

def isLocal (c : FilterSet) (a : Addr) : Bool := a == c.localIP || (c.localIP6.isValid && a == c.localIP6)

/-- `portsAllow`: ICMP has no ports, so an icmp rule, or an any rule that opens every port,
    lets ICMP and ICMPv6 through. -/
def portsAllow (p : Packet) (proto : Str) (lo hi : UInt16) : Bool :=
  if p.isICMP then proto == protoICMP || (proto == protoAny && decide (lo ≤ 1) && hi == 65535)
  else if (p.proto == 6 && (proto == protoTCP || proto == protoAny)) ||
      (p.proto == 17 && (proto == protoUDP || proto == protoAny)) then
    decide (lo ≤ p.dport) && decide (p.dport ≤ hi)
  else false

def forwardAllows (c : FilterSet) (p : Packet) : Bool :=
  c.forward.any fun r => r.src.contains p.src && r.dst.contains p.dst && portsAllow p r.proto r.lo r.hi

def rulesAllow (c : FilterSet) (p : Packet) : Bool :=
  c.rules.any fun r => r.src.contains p.src && !(r.dst.isValid && r.dst != p.dst) && portsAllow p r.proto r.lo r.hi

def ttlTCP (p : Packet) : Int := if p.tcpFlags &&& 0x05 ≠ 0 then flowTCPDone else flowTCP

/-- The flow `p` answers and how long it then stays; `none` when it can answer none. -/
def replyFlow (p : Packet) : Option (FlowKey × Int) :=
  if p.proto = 6 then some (⟨p.proto, p.dst, p.src, p.dport, p.sport⟩, ttlTCP p)
  else if p.proto = 17 then some (⟨p.proto, p.dst, p.src, p.dport, p.sport⟩, flowUDP)
  else if p.isICMP then
    if p.sport ≠ p.echoReply then none else some (⟨p.proto, p.dst, p.src, p.dport, 0⟩, flowICMP)
  else none

def outFlow (p : Packet) : Option (FlowKey × Int) :=
  if p.proto = 6 then some (⟨p.proto, p.src, p.dst, p.sport, p.dport⟩, ttlTCP p)
  else if p.proto = 17 then some (⟨p.proto, p.src, p.dst, p.sport, p.dport⟩, flowUDP)
  else if p.isICMP then
    if p.sport ≠ p.echoRequest then none else some (⟨p.proto, p.src, p.dst, p.dport, 0⟩, flowICMP)
  else none

namespace PacketFilter

def install (f : PacketFilter) (set : FilterSet) : PacketFilter := { f with set := some set }

def sweep (f : PacketFilter) (now : Int) : PacketFilter :=
  if now - f.lastSweep < sweepEvery then f
  else { f with lastSweep := now, flows := fun k => (f.flows k).filter (now < ·) }

/-- `Outbound`, which reads the clock to record the flow and again to sweep. -/
def outbound (f : PacketFilter) (now later : Int) (b : List UInt8) : PacketFilter :=
  match (parsePacket b).bind outFlow with
  | none => f
  | some (key, ttl) => sweep { f with flows := Function.update f.flows key (some (now + ttl)) } later

def reply (f : PacketFilter) (now : Int) (p : Packet) : PacketFilter × Bool :=
  match replyFlow p with
  | none => (f, false)
  | some (key, ttl) =>
    match f.flows key with
    | none => (f, false)
    | some exp =>
      if now < exp then ({ f with flows := Function.update f.flows key (some (now + ttl)) }, true)
      else ({ f with flows := Function.update f.flows key none }, false)

def decideNew (c : FilterSet) (p : Packet) : Bool :=
  if c.hook == .input && c.localIP.isValid && !isLocal c p.dst then
    -- not for this host: the kernel forwards it, so only a forward rule may let it in
    forwardAllows c p
  else
    p.icmp6Always ||
    (c.visible.contains p.src &&
      (p.proto == 1 && (p.sport == 8 || p.sport == 3 || p.sport == 11 || p.sport == 12) ||
        p.proto == 58 && p.sport == 128)) ||
    rulesAllow c p

def allow (f : PacketFilter) (now : Int) (b : List UInt8) : PacketFilter × Bool :=
  match parsePacket b with
  | none => (f, false)
  | some p =>
    match f.set with
    | none => f.reply now p
    | some c =>
      if c.hook == .forward && isLocal c p.dst then (f, true)
      else
        let r := f.reply now p
        if r.2 then r else (r.1, decideNew c p)

def inbound (f : PacketFilter) (now : Int) (b : List UInt8) : PacketFilter × Bool :=
  let r := f.allow now b
  if r.2 then r else ({ r.1 with drops := r.1.drops + 1 }, false)

end PacketFilter

/-! ## TCP and UDP -/

inductive Transport where
  | tcp
  | udp

namespace Transport

def num : Transport → UInt8
  | tcp => 6
  | udp => 17

def text : Transport → Str
  | tcp => protoTCP
  | udp => protoUDP

end Transport

def ipv4HeaderLen (b : List UInt8) : Nat := (byteAt b 0 &&& 0x0f).toNat * 4

section

variable {t : Transport}

theorem byteAt_drop (b : List UInt8) (n i : Nat) : byteAt (b.drop n) i = byteAt b (n + i) := by
  simp [byteAt, List.getD_eq_getElem?_getD, List.getElem?_drop]

theorem be16_drop (b : List UInt8) (n i : Nat) : be16 (b.drop n) i = be16 b (n + i) := by
  simp only [be16, byteAt_drop, Nat.add_assoc]

/-- Without a recorded flow nothing is a reply. -/
theorem reply_no_flow {f : PacketFilter} (hflow : ∀ k, f.flows k = none) (now : Int) (p : Packet) :
    f.reply now p = (f, false) := by
  unfold PacketFilter.reply
  split
  · rfl
  · rw [hflow]

/-- Which ports a rule opens to a transport. -/
theorem portsAllow_iff {p : Packet} (hproto : p.proto = t.num) (proto : Str) (lo hi : UInt16) :
    portsAllow p proto lo hi = true ↔ (proto = t.text ∨ proto = protoAny) ∧ lo ≤ p.dport ∧ p.dport ≤ hi := by
  unfold portsAllow Packet.isICMP
  rw [hproto]
  cases t <;> simp [Transport.num, Transport.text]

end

end Thawr.Wg
