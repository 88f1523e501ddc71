/-
  Thawr.Relay.Frame — the relay's messages and how they are read off a connection
  (`internal/relay/frame.go`).

  A frame is a type, a key, a length of two bytes and a payload. `ReadFrame` reads into a buffer
  of the caller, and the payload it returns is a part of that buffer: a `Header` says how much of
  it, and `Header.frame` is the frame as the buffer stands.
-/

import Thawr.Go.Bytes

namespace Thawr.Relay

open Go

abbrev Key := Arr 32

def typeSend : UInt8 := 1

def typeRecv : UInt8 := 2

def typePing : UInt8 := 3

def typePong : UInt8 := 4

def typePeerGone : UInt8 := 5

def headerLen : Nat := 35

def maxPayload : Nat := 1500

structure Frame where
  type : UInt8
  key : Key := Arr.zero 32
  payload : List UInt8 := []
  deriving DecidableEq

/-- A frame whose payload is the `n` bytes behind the header in the buffer it was read into. -/
structure Header where
  type : UInt8
  key : Key
  n : Nat
  deriving DecidableEq

def Header.frame (h : Header) (buf : List UInt8) : Frame := ⟨h.type, h.key, (buf.drop headerLen).take h.n⟩

/-- What the connection reports once its bytes are read. -/
inductive IoErr where
  | eof
  /-- `net.ErrClosed`, or a failure of the network. -/
  | failed
  deriving DecidableEq

structure Conn where
  bytes : List UInt8
  err : IoErr := .eof

inductive ReadErr where
  | io (e : IoErr)
  /-- "relay: truncated frame" -/
  | truncated
  /-- "relay: frame payload exceeds maximum: %d bytes" -/
  | oversize (n : Nat)
  /-- "relay: read buffer too small" -/
  | smallBuffer

/-- `copy(buf[i:], b)`, for `b` no longer than that. -/
def blit (buf : List UInt8) (i : Nat) (b : List UInt8) : List UInt8 := buf.take i ++ b ++ buf.drop (i + b.length)

/-- `ReadFrame`: the header or an error, the buffer, and what is left of the connection. -/
def readFrame (c : Conn) (buf : List UInt8) : Except ReadErr Header × List UInt8 × Conn :=
  if buf.length < headerLen + maxPayload then (.error .smallBuffer, buf, c)
  else if c.bytes.length < headerLen then
    -- `io.ReadFull` calls an end inside the header unexpected
    (.error (if c.err = .eof ∧ c.bytes ≠ [] then .truncated else .io c.err), blit buf 0 c.bytes, { c with bytes := [] })
  else
    let buf := blit buf 0 (c.bytes.take headerLen)
    let rest := c.bytes.drop headerLen
    let n := beNat ((buf.drop 33).take 2)
    if maxPayload < n then (.error (.oversize n), buf, { c with bytes := rest })
    else if rest.length < n then
      (.error (if c.err = .eof then .truncated else .io c.err), blit buf headerLen rest, { c with bytes := [] })
    else
      (.ok ⟨buf.headD 0, Arr.at 32 buf 1, n⟩, blit buf headerLen (rest.take n), { c with bytes := rest.drop n })

/-- `IsWireGuard`: the payload starts like a message of type 1 to 4. -/
def isWireGuard (payload : List UInt8) : Bool :=
  decide (4 ≤ payload.length) && payload.head?.any fun c => 1 ≤ c && c ≤ 4

end Thawr.Relay
