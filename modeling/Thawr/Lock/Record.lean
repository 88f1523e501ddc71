/-
  Thawr.Lock.Record — the network lock's records (`internal/lock`: record.go, key.go).

  A lock record lists the keys allowed to sign; a peer record is what such a key signs for
  one peer. Both have one canonical byte string. `accept` decides whether a signed lock
  record may replace the current one. Ed25519 is a parameter: nothing here looks inside it.

  `accept_ok_iff` says when a record is accepted, and every later proof about records goes
  through it.
-/

import Thawr.Go.Base64

namespace Thawr.Lock

open Go

abbrev PublicKey := Arr 32
abbrev Signature := Arr 64

/-- `crypto/ed25519`. A private key is its 32-byte seed. -/
structure Ed25519 where
  pub : Arr 32 → PublicKey
  sign : Arr 32 → Str → Signature
  verify : PublicKey → Str → Signature → Bool

/-- A scheme to run the model with: a signature is the key and a residue of the message. -/
def Ed25519.sample : Ed25519 where
  pub k := k
  sign k msg := ⟨k.bytes ++ beBytes 32 (beNat msg % (2 ^ 256 - 189)), by simp [k.size, beBytes_length]⟩
  verify k msg sig := sig.bytes == k.bytes ++ beBytes 32 (beNat msg % (2 ^ 256 - 189))

/-- `lock.PrivateKey`; `none` is the zero key of a device that has none. -/
abbrev PrivateKey := Option (Arr 32)

def parsePublicKey (s : Str) : Option PublicKey := (Base64.decodeString s).bind (Arr.of? 32)

def parseSignature (s : Str) : Option Signature := (Base64.decodeString s).bind (Arr.of? 64)

def text {n : Nat} (a : Arr n) : Str := Base64.encodeToString a.bytes

theorem parsePublicKey_text (k : PublicKey) : parsePublicKey (text k) = some k := by
  unfold parsePublicKey text
  rw [Base64.decode_encode, Option.bind_some, Arr.of?, dif_pos k.size]

theorem parseSignature_text (s : Signature) : parseSignature (text s) = some s := by
  unfold parseSignature text
  rw [Base64.decode_encode, Option.bind_some, Arr.of?, dif_pos s.size]

/-! ## Errors -/

/-- What follows `lock: invalid record: ` in an error that is `ErrInvalid`. -/
inductive Invalid where
  /-- "peer record needs id and name" -/
  | peerRecord
  /-- "field of %d bytes" -/
  | field (n : Nat)
  /-- "at most 32 signers" -/
  | tooManySigners
  /-- "an enabled record needs at least one signer" -/
  | noSigner
  /-- "signer needs key and peer id" -/
  | signerIncomplete
  /-- "duplicate signer key %s", with the key's fingerprint -/
  | duplicateKey (k : PublicKey)
  /-- "duplicate signer peer id %s" -/
  | duplicatePeer (id : Str)
  deriving DecidableEq

inductive Err where
  | invalid (why : Invalid)
  /-- "lock: record generation is not newer: %d <= %d" -/
  | stale (next current : UInt64)
  /-- "lock: record is not signed by a current lock key" -/
  | notSigned
  deriving DecidableEq

/-! ## Encoding -/

def peerPrefix : Str := str "thawr/peer/v1\n"
def lockPrefix : Str := str "thawr/lock/v1\n"

def hubID : Str := str "hub"

def maxField : Nat := 65535

/-- `writeField`: a big-endian length of two bytes, then the bytes. -/
def writeField (f : Str) : Except Err Str :=
  if maxField < f.length then .error (.invalid (.field f.length)) else .ok (beBytes 2 f.length ++ f)

def writeFields : List Str → Except Err Str
  | [] => .ok []
  | f :: fs => do
    let a ← writeField f
    let b ← writeFields fs
    return a ++ b

structure PeerRecord where
  id : Str
  name : Str
  key : Arr 32

def PeerRecord.bytes (r : PeerRecord) : Except Err Str :=
  if r.id = [] ∨ r.name = [] then .error (.invalid .peerRecord)
  else (writeFields [r.id, r.name, r.key.bytes]).map (peerPrefix ++ ·)

structure Signer where
  key : PublicKey
  peerID : Str
  deriving DecidableEq

def maxSigners : Nat := 32

structure Record where
  generation : UInt64
  disabled : Bool
  signers : List Signer
  deriving DecidableEq

namespace Record

def enabled (r : Record) : Bool := !r.disabled && !r.signers.isEmpty

def has (r : Record) (key : PublicKey) : Bool := r.signers.any (·.key == key)

def signerKey (r : Record) (peerID : Str) : Option PublicKey := (r.signers.find? (·.peerID == peerID)).map (·.key)

/-- The loop of `validate`, with the keys and peer ids seen so far. -/
def validateSigners (seen : List PublicKey) (seenPeer : List Str) : List Signer → Except Err Unit
  | [] => .ok ()
  | s :: rest =>
    if s.key = Arr.zero 32 ∨ s.peerID = [] then .error (.invalid .signerIncomplete)
    else if s.key ∈ seen then .error (.invalid (.duplicateKey s.key))
    -- one key per peer keeps `signerKey` deterministic whatever order the signers arrived in
    else if s.peerID ∈ seenPeer then .error (.invalid (.duplicatePeer s.peerID))
    else validateSigners (s.key :: seen) (s.peerID :: seenPeer) rest

def validate (r : Record) : Except Err Unit :=
  if maxSigners < r.signers.length then .error (.invalid .tooManySigners)
  else if r.disabled = false ∧ r.signers = [] then .error (.invalid .noSigner)
  else validateSigners [] [] r.signers

/-- `sorted`: by key. `validate` has made the keys distinct, so there is one such order. -/
def sorted (r : Record) : List Signer := r.signers.insertionSort fun a b => a.key.bytes ≤ b.key.bytes

def bytes (r : Record) : Except Err Str := do
  r.validate
  let s := r.sorted
  let fields ← writeFields (s.flatMap fun x => [x.key.bytes, x.peerID])
  return lockPrefix ++ beBytes 8 r.generation.toNat ++ [if r.disabled then 1 else 0] ++ beBytes 2 s.length ++ fields

/-- The record has canonical bytes: it passes `validate` and no field is too long. -/
def WellFormed (r : Record) : Prop := ∃ msg, r.bytes = .ok msg

end Record

structure Signed where
  record : Record
  signature : Signature
  deriving DecidableEq

/-- A record the sample key `k` signed. -/
def signedNo (k : Nat) (r : Record) : Signed := ⟨r, Ed25519.sample.sign (Arr.ofNat 32 k) (r.bytes.toOption.getD [])⟩

/-- A record with the signature `k` puts on its canonical bytes, where it has any. -/
def Record.signWith (E : Ed25519) (k : Arr 32) (r : Record) : Except Err Signed :=
  r.bytes.map fun msg => ⟨r, E.sign k msg⟩

theorem Record.signWith_ok {E : Ed25519} {k : Arr 32} {r : Record} {s : Signed} (h : r.signWith E k = .ok s) :
    s.record = r := by
  obtain ⟨msg, -, rfl⟩ := map_ok.mp h
  rfl

/-! ## Acceptance -/

variable (E : Ed25519)

def signedByAny (set : Record) (msg : Str) (sig : Signature) : Bool := set.signers.any fun s => E.verify s.key msg sig

/-- `sig` is a signature over the canonical bytes of `next` by a key of `set`. -/
def SignedBy (set : Record) (next : Signed) : Prop :=
  ∃ msg, next.record.bytes = .ok msg ∧ ∃ s ∈ set.signers, E.verify s.key msg next.signature = true

/-- `lock.Accept`. A current record without signers ends its lineage, like no record. -/
def accept (current : Option Record) (next : Signed) : Except Err Unit := do
  let msg ← next.record.bytes
  match current.filter fun r => !r.signers.isEmpty with
  | none => if signedByAny E next.record msg next.signature then .ok () else .error .notSigned
  | some cur =>
    if next.record.generation ≤ cur.generation then .error (.stale next.record.generation cur.generation)
    else if signedByAny E cur msg next.signature then .ok () else .error .notSigned

theorem signedByAny_iff (set : Record) (next : Signed) {msg : Str} (hm : next.record.bytes = .ok msg) :
    signedByAny E set msg next.signature = true ↔ SignedBy E set next := by
  simp only [signedByAny, List.any_eq_true, SignedBy]
  grind

/-- Over a record that still has signers, a higher generation signed by one of them; over
    none, or one without signers, a record signed by one of its own. -/
theorem accept_ok_iff (current : Option Record) (next : Signed) :
    accept E current next = .ok () ↔
      (∀ cur, current = some cur → cur.signers ≠ [] →
        cur.generation < next.record.generation ∧ SignedBy E cur next) ∧
      ((∀ cur, current = some cur → cur.signers = []) → SignedBy E next.record next) := by
  unfold accept
  cases hm : next.record.bytes with
  | error e =>
    have hno : ∀ r, ¬ SignedBy E r next := by
      rintro r ⟨msg, h, _⟩
      rw [hm] at h; cases h
    simp only [bind, Except.bind, reduceCtorEq, false_iff, not_and]
    grind
  | ok msg =>
    simp only [bind, Except.bind]
    cases current with
    | none =>
      simp only [Option.filter_none, reduceCtorEq, false_implies, implies_true, true_and, forall_const]
      rw [← signedByAny_iff E _ _ hm]
      split <;> simp_all
    | some cur =>
      by_cases hs : cur.signers = []
      · simp only [hs, Option.filter, List.isEmpty_nil, Bool.not_true, Bool.false_eq_true, if_false, Option.some.injEq,
          forall_eq', ne_eq, not_true_eq_false, false_implies, true_and, forall_const]
        rw [← signedByAny_iff E _ _ hm]
        split <;> simp_all
      · have he : (!cur.signers.isEmpty) = true := by simpa using hs
        simp only [Option.filter, he, if_true, Option.some.injEq, forall_eq', hs, ne_eq, not_false_eq_true,
          forall_const, false_implies, and_true]
        rw [← signedByAny_iff E _ _ hm]
        grind

theorem accept_wellFormed {current : Option Record} {next : Signed} (h : accept E current next = .ok ()) :
    next.record.WellFormed := by
  obtain ⟨msg, hm, -⟩ := bind_ok.mp h
  exact ⟨msg, hm⟩

theorem bytes_validate {r : Record} (h : r.WellFormed) : r.validate = .ok () := by
  obtain ⟨msg, h⟩ := h
  obtain ⟨_, hv, -⟩ := bind_ok.mp h
  exact hv

/-- A well-formed record is off only when it says so. -/
theorem disabled_of_not_enabled {r : Record} (h : r.WellFormed) (hoff : r.enabled = false) : r.disabled = true := by
  have hv := bytes_validate h
  by_contra hd
  have hd' : r.disabled = false := by simpa using hd
  have hs : r.signers = [] := by simpa [Record.enabled, hd'] using hoff
  simp [Record.validate, hd', hs, maxSigners] at hv

theorem signers_of_enabled {r : Record} (h : r.enabled = true) : r.signers ≠ [] := by
  intro hs
  simp [Record.enabled, hs] at h

end Thawr.Lock
