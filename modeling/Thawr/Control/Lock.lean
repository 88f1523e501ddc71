/-
  Thawr.Control.Lock — the server's lock service (`internal/control/lock.go`).

  The server keeps the lock record and the signatures over peer records and holds no lock
  key. `set` runs in one transaction: the stored record is read, the next one checked against
  it and the signatures sent along verified, or nothing changes. Audit rows and the netmap
  generation are left out.

  Proved: what `set` stores passed `lock.Accept` against what was stored (`set_ok`).
-/

import Thawr.Lock.Record
import Thawr.Wg.Device

namespace Thawr.Control

open Go Lock

structure StorePeer where
  id : Str
  name : Str
  publicKey : Str
  ownerID : Str := []
  deriving DecidableEq

inductive Role where
  | admin
  | member
  deriving DecidableEq

/-- Who is acting: a user who logged in, the admin socket, or a peer for itself, which has no
    role. -/
structure Principal where
  userID : Str := []
  name : Str := []
  role : Option Role := none
  /-- `Local`: over the admin socket, without a user record. -/
  onSocket : Bool := false

def Principal.isAdmin (p : Principal) : Bool := p.role == some .admin

def localAdmin : Principal := { name := str "local", role := some .admin, onSocket := true }

structure PeerSigning where
  peerID : Str
  publicKey : Str
  signer : PublicKey
  signature : Signature
  deriving DecidableEq

structure StoreUser where
  id : Str
  name : Str
  role : Role
  deriving DecidableEq

structure LockStore where
  record : Option Signed := none
  peers : List StorePeer := []
  users : List StoreUser := []
  hubKey : Str := []
  signatures : List PeerSigning := []
  deriving DecidableEq

inductive SetErr where
  /-- "only a signer of the new record may attach signatures" -/
  | attach
  /-- "the first lock record must come from a device owned by an admin; %s has no owner" -/
  | noOwner (name : Str)
  /-- "the first lock record must come from a device owned by an admin" -/
  | unknownOwner
  /-- "the first lock record must come from a device owned by an admin; %s belongs to %s (%s)" -/
  | notAdmin (name owner : Str) (role : Role)
  | accept (e : Err)
  /-- "signature over %s is not by %s's key in the record" -/
  | notByKey (peerID caller : Str)
  /-- "peer %s: not found" -/
  | notFound (peerID : Str)
  /-- "%s is not the current key of %s", with the key's fingerprint -/
  | notCurrent (publicKey name : Str)
  /-- "public_key is not a WireGuard key" -/
  | badKey
  | invalid (e : Err)
  /-- "signature over %s does not verify" -/
  | notVerified (name : Str)
  deriving DecidableEq

section

variable (E : Ed25519)

def requireAdminOwner (st : LockStore) (caller : StorePeer) : Except SetErr Unit :=
  if caller.ownerID = [] then .error (.noOwner caller.name)
  else
    match st.users.find? (·.id == caller.ownerID) with
    | none => .error .unknownOwner
    | some owner => if owner.role = .admin then .ok () else .error (.notAdmin caller.name owner.name owner.role)

/-- `LockService.Record`: the record a signer signs for a peer, the hub included, on its
    current key. -/
def recordFor (st : LockStore) (peerID publicKey : Str) : Except SetErr PeerRecord := do
  let (name, current) ←
    if peerID = hubID then .ok (peerID, st.hubKey)
    else
      match st.peers.find? (·.id == peerID) with
      | none => .error (.notFound peerID)
      | some p => .ok (p.name, p.publicKey)
  if publicKey ≠ current then .error (.notCurrent publicKey name)
  else
    match Wg.parseKey publicKey with
    | none => .error .badKey
    | some k => .ok ⟨peerID, name, k⟩

/-- Two signatures with one key of the `peer_signatures` table. -/
def PeerSigning.sameRow (a b : PeerSigning) : Bool :=
  a.peerID == b.peerID && a.publicKey == b.publicKey && a.signer == b.signer

/-- `Signatures.Put`: inserts a signature or replaces the one of its row. Its check for empty
    fields never fires: the record was encoded and the key parsed. -/
def put (sigs : List PeerSigning) (sg : PeerSigning) : List PeerSigning :=
  if sigs.any (·.sameRow sg) then sigs.map fun x => if x.sameRow sg then sg else x else sigs ++ [sg]

def signInTx (st : LockStore) (sg : PeerSigning) : Except SetErr LockStore := do
  let rec ← recordFor st sg.peerID sg.publicKey
  match rec.bytes with
  | .error e => .error (.invalid e)
  | .ok msg =>
    if E.verify sg.signer msg sg.signature then .ok { st with signatures := put st.signatures sg }
    else .error (.notVerified rec.name)

/-- The signatures sent along, each by the caller's key in the new record. -/
def signAll (caller : Str) (signerKey : Option PublicKey) (st : LockStore) : List PeerSigning → Except SetErr LockStore
  | [] => .ok st
  | sg :: rest =>
    if signerKey ≠ some sg.signer then .error (.notByKey sg.peerID caller)
    else do
      let st ← signInTx E st sg
      signAll caller signerKey st rest

def set (st : LockStore) (caller : StorePeer) (next : Signed) (sigs : List PeerSigning) : Except SetErr LockStore :=
  let signerKey := next.record.signerKey caller.id
  if sigs ≠ [] ∧ (signerKey = none ∨ next.record.enabled = false) then .error .attach
  else do
    -- the first record, or one that restarts a lineage
    if st.record.all fun c => c.record.signers.isEmpty then requireAdminOwner st caller
    match accept E (st.record.map (·.record)) next with
    | .error e => .error (.accept e)
    | .ok _ => signAll E caller.name signerKey { st with record := some next } sigs

variable {E}

variable {st st' : LockStore}

theorem signInTx_record {sg : PeerSigning} (h : signInTx E st sg = .ok st') : st'.record = st.record := by
  obtain ⟨rec, -, hs⟩ := bind_ok.mp h
  split at hs
  · cases hs
  · split at hs
    · cases hs
      rfl
    · cases hs

theorem signAll_record {caller : Str} {signerKey : Option PublicKey} {sigs : List PeerSigning}
    (h : signAll E caller signerKey st sigs = .ok st') : st'.record = st.record := by
  induction sigs generalizing st with
  | nil =>
    cases h
    rfl
  | cons sg rest ih =>
    unfold signAll at h
    split at h
    · cases h
    · obtain ⟨st1, hs, hrest⟩ := bind_ok.mp h
      exact (ih hrest).trans (signInTx_record hs)

/-- A stored record was accepted against the one it replaces. -/
theorem set_ok {caller : StorePeer} {next : Signed} {sigs : List PeerSigning}
    (h : set E st caller next sigs = .ok st') :
    st'.record = some next ∧ accept E (st.record.map (·.record)) next = .ok () := by
  unfold set at h
  simp only at h
  split at h
  · cases h
  · have hgate : ∀ u : Except SetErr Unit,
        (u >>= fun _ => match accept E (st.record.map (·.record)) next with
          | .error e => .error (.accept e)
          | .ok _ => signAll E caller.name (next.record.signerKey caller.id) { st with record := some next } sigs) = .ok st' →
        st'.record = some next ∧ accept E (st.record.map (·.record)) next = .ok () := by
      intro u hu
      obtain ⟨_, -, hset⟩ := bind_ok.mp hu
      split at hset
      · cases hset
      · rename_i ha
        exact ⟨signAll_record hset, ha⟩
    split at h
    · exact hgate _ h
    · exact hgate (.ok ()) h

end

end Thawr.Control
