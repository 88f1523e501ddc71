/-
  Thawr.Wg.Device — a WireGuard interface as its callers see it (`internal/wg`: device.go,
  routes.go).

  A key is `wgtypes.Key`: 32 bytes, written in base64. A device holds one peer per key.
  `configure`, `setPeer` and `removePeer` do what the interface's comments say: the listed
  peers and no others, one peer without touching the others, one peer less.
-/

import Thawr.Go.Base64
import Thawr.Go.Netip

namespace Thawr.Wg

open Go Netip

abbrev Key := Arr 32

def parseKey (s : Str) : Option Key := (Base64.decodeString s).bind (Arr.of? 32)

def keyString (k : Key) : Str := Base64.encodeToString k.bytes

theorem parseKey_keyString (k : Key) : parseKey (keyString k) = some k := by
  unfold parseKey keyString
  rw [Base64.decode_encode, Option.bind_some, Arr.of?, dif_pos k.size]

def exitRoute : Prefix := ⟨.v4 (Arr.zero 4), 1⟩
def exitRoute6 : Prefix := ⟨.v6 (Arr.zero 16) [], 1⟩

example : parsePrefix (str "0.0.0.0/0") = some exitRoute ∧ parsePrefix (str "::/0") = some exitRoute6 := by decide

def isExitRoute (p : Prefix) : Bool := p == exitRoute || p == exitRoute6

def defaultFwMark : Nat := 0x7a77

structure Peer where
  publicKey : Key
  endpoint : AddrPort := AddrPort.zero
  allowedIPs : List Prefix := []
  /-- Nanoseconds; zero is off. -/
  keepalive : Nat := 0
  deriving DecidableEq

structure Config where
  privateKey : Key
  listenPort : Nat
  addresses : List Prefix
  peers : List Peer
  fwMark : Nat := 0
  deriving DecidableEq

/-- `wg.PeerStats`. Times are nanoseconds, 0 the zero time. -/
structure PeerStats where
  publicKey : Key
  endpoint : AddrPort := AddrPort.zero
  lastHandshake : Int := 0
  rxBytes : UInt64 := 0
  txBytes : UInt64 := 0
  deriving DecidableEq

/-! ## The device -/

abbrev Device := GoMap Key Peer

/-- A listed peer without an endpoint keeps the one the device has for it. -/
def keepEndpoint (d : Device) (p : Peer) : Peer :=
  if p.endpoint.isValid then p else { p with endpoint := ((d.lookup p.publicKey).map (·.endpoint)).getD AddrPort.zero }

/-- `Configure`: the listed peers and no others; of two with one key the later counts. -/
def configure (d : Device) (cfg : Config) : Device :=
  cfg.peers.foldl (fun (m : Device) p => m.insert p.publicKey (keepEndpoint d p)) ∅

def setPeer (d : Device) (p : Peer) : Device := d.insert p.publicKey p

def removePeer (d : Device) (key : Key) : Device := d.erase key

/-- The peer a configuration lists for `key`, the later one of two. -/
def Config.peerFor (cfg : Config) (key : Key) : Option Peer := cfg.peers.reverse.find? (·.publicKey == key)

theorem lookup_configure (d : Device) (cfg : Config) (key : Key) :
    (configure d cfg).lookup key = (cfg.peerFor key).map (keepEndpoint d) := by
  unfold configure Config.peerFor
  induction cfg.peers using List.reverseRecOn with
  | nil => simp
  | append_singleton ps p ih =>
    rw [List.foldl_append, List.reverse_append]
    simp only [List.foldl_cons, List.foldl_nil, List.reverse_cons, List.reverse_nil, List.nil_append, List.singleton_append]
    by_cases h : p.publicKey = key
    · subst h; simp
    · rw [Finmap.lookup_insert_of_ne _ (Ne.symm h), ih]
      simp [h]

@[simp] theorem keepEndpoint_allowedIPs (d : Device) (p : Peer) : (keepEndpoint d p).allowedIPs = p.allowedIPs := by
  unfold keepEndpoint; split <;> rfl

end Thawr.Wg
