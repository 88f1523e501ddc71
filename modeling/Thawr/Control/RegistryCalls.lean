/-
  Thawr.Control.RegistryCalls — the calls that change peers already registered
  (`internal/control/registry.go`, `VerifyRotation` of `internal/control/lock.go`).

  `rotateKey` stores the text of the new key as it came in, where enrollment stores the text
  of the key it parsed.
-/

import Thawr.Control.Build
import Thawr.Control.Enrollment

namespace Thawr.Control.Registry

open Go Store

variable (S : Services) (refs : Str → List Str) (env : Env) (who : Principal)

def get (name : Str) (db : Db) : Except CallErr Peer := do
  let p ← found (db.tables.getByName name) (.notFound name)
  check (who.isAdmin || p.ownerID == who.userID) (.notFound name)
  return p

/-! ## `Rename` -/

def renameChecks (name newName : Str) (force : Bool) (db : Db) : Except CallErr (Option Peer) := do
  check who.isAdmin (.forbidden .adminOnly)
  check (validPeerName newName) (.validation (.name newName))
  let p ← get who name db
  if newName = p.name then return none
  else
    check (force || (refs p.name).isEmpty) (.validation (.selected p.name (refs p.name) newName))
    return some p

def rename (name newName : Str) (force : Bool) (db : Db) : Except CallErr Unit × Db :=
  match renameChecks refs who name newName force db with
  | .error e => (.error e, db)
  | .ok none => (.ok (), db)
  | .ok (some p) =>
    inTx env.commits db fun db => do
      let db ← (db.renamePeer p.id newName).mapError fun e => if e = .conflict then .validation (.taken newName) else .store e
      return ((), db.incrementGeneration.2)

/-! ## `Delete` and `Leave` -/

/-- The transaction of `deletePeer`; the name is looked up when the caller gives none. -/
def deletePeerTx (id name : Str) (db : Db) : Except CallErr (Unit × Db) := do
  check (name != [] || (db.tables.getByID id).isSome) (.store .notFound)
  let db ← (db.deletePeer id).mapError .store
  return ((), (db.deletePeerSignatures id).incrementGeneration.2)

def delete (name : Str) (db : Db) : Except CallErr Unit × Db :=
  let checks : Except CallErr Peer := do
    check who.isAdmin (.forbidden .adminOnly)
    get who name db
  call env.commits db checks fun p => deletePeerTx p.id p.name

def leave (id : Str) (db : Db) : Except CallErr Unit × Db :=
  call env.commits db (.ok ()) fun _ db =>
    (deletePeerTx id [] db).mapError fun e => if e = .store .notFound then .notFound id else e

/-! ## `RotateKey` -/

structure SignedRotation where
  signer : Lock.PublicKey
  signature : Lock.Signature

/-- `signerKeyOf`: the current record names the peer as signer with that key. -/
def signerKeyOf (p : Peer) (key : Lock.PublicKey) (db : Db) : Except CallErr Unit := do
  let cur ← (loadLockRecord S.unmarshal db.tables).mapError fun _ => .lockRecord
  let rec ← found (cur.filter fun c => c.record.enabled) (.forbidden .lockDisabled)
  check (rec.record.signerKey p.id == some key) (.forbidden (.notSigner p.name key))

def verifyRotation (p : Peer) (newPublicKey : Str) (signed : SignedRotation) (db : Db) : Except CallErr Store.PeerSignature := do
  signerKeyOf S p signed.signer db
  let key ← parsePublicKey newPublicKey
  let msg ← (Lock.PeerRecord.bytes ⟨p.id, p.name, key⟩).mapError fun e => .validation (.record e)
  check (S.ed25519.verify signed.signer msg signed.signature) (.validation .rotation)
  return ⟨p.id, newPublicKey, Lock.text signed.signer, Lock.text signed.signature⟩

def rotation (p : Peer) (newPublicKey : Str) (db : Db) : Option SignedRotation → Except CallErr (Option Store.PeerSignature)
  | none => .ok none
  | some signed => do
    check S.withLock (.validation .noLock)
    let row ← verifyRotation S p newPublicKey signed db
    return some row

def putRotation (db : Db) : Option Store.PeerSignature → Except CallErr Db
  | none => .ok db
  | some row => (db.putSignature row).mapError .store

def rotateKeyTx (id newPublicKey : Str) (signed : Option SignedRotation) (db : Db) : Except CallErr (Int × Db) := do
  let p ← found (db.tables.getByID id) (.notFound id)
  let sig ← rotation S p newPublicKey db signed
  let db ← (db.setPublicKey id newPublicKey).mapError fun e => if e = .conflict then .validation .keyInUse else .store e
  -- signatures over the old key can never match again
  let db ← putRotation (db.deleteKeySignatures id p.publicKey) sig
  return db.incrementGeneration

def rotateKey (id newPublicKey : Str) (signed : Option SignedRotation) (db : Db) : Except CallErr Int × Db :=
  call env.commits db (parsePublicKey newPublicKey) fun _ => rotateKeyTx S id newPublicKey signed

/-! ## `SetIPv6Capable` -/

/-- The generation moves only when the value does. -/
def setIPv6Capable (id : Str) (capable : Bool) (db : Db) : Except CallErr Bool × Db :=
  call env.commits db (.ok ()) fun _ db => do
    let (changed, db) ← (db.setIPv6Capable id capable).mapError .store
    return (changed, if changed then db.incrementGeneration.2 else db)

/-! ## What a call that succeeds did -/

section

variable {S : Services} {refs : Str → List Str} {env : Env} {who : Principal} {db db' : Db} {New : Peer → Prop} {id : Str}

theorem change_of_update {set : Peer → Peer} (h : db.updatePeer id set = .ok db') (hid : ∀ p, (set p).id = p.id) :
    PeerChange New (fun p q => q = set p) db db'.peers ∧ db'.tokens = db.tokens := by
  obtain ⟨p, hp, hv, rfl⟩ := Db.updatePeer_ok h
  obtain ⟨hmem, rfl⟩ := db.tables.mem_of_getByID hp
  exact ⟨.update hmem (hid p) rfl hv, rfl⟩

variable {name newName : Str} {force : Bool}

theorem renameChecks_ok {x : Option Peer}
    (h : renameChecks refs who name newName force db = .ok x) : who.isAdmin = true ∧ validPeerName newName = true := by
  obtain ⟨_, hadmin, h⟩ := bind_ok.mp h
  obtain ⟨_, hname, -⟩ := bind_ok.mp h
  exact ⟨check_ok.mp hadmin, check_ok.mp hname⟩

theorem rename_ok (h : rename refs env who name newName force db = (.ok (), db')) :
    who.isAdmin = true ∧ validPeerName newName = true ∧ PeerChange New (fun p q => q = { p with name := newName }) db db'.peers ∧
      db'.tokens = db.tokens := by
  unfold rename at h
  split at h
  · cases h
  · rename_i hchecks
    cases h
    obtain ⟨hadmin, hname⟩ := renameChecks_ok hchecks
    exact ⟨hadmin, hname, .same, rfl⟩
  · rename_i p hchecks
    obtain ⟨hadmin, hname⟩ := renameChecks_ok hchecks
    obtain ⟨db1, hdb, h⟩ := bind_ok.mp (inTx_ok h)
    cases h
    obtain ⟨hchange, hsame⟩ := change_of_update (mapError_ok.mp hdb) fun _ => rfl
    exact ⟨hadmin, hname, hchange, hsame⟩

theorem rename_error {e : CallErr}
    (h : (rename refs env who name newName force db).1 = .error e) :
    (rename refs env who name newName force db).2 = db := by
  unfold rename at h ⊢
  split
  · rfl
  · rfl
  · rename_i p hchecks
    rw [hchecks] at h
    exact inTx_error h

/-- What `deletePeer` leaves of a token. -/
theorem deletePeerTx_ok (h : deletePeerTx id name db = .ok ((), db')) :
    db'.peers = db.others id ∧
      db'.tokens = db.tokens.map fun t => if t.usedByPeerID = id then { t with usedByPeerID := [] } else t := by
  obtain ⟨_, -, h⟩ := bind_ok.mp h
  obtain ⟨db1, hdb, h⟩ := bind_ok.mp h
  cases h
  obtain ⟨_, -, hdb⟩ := bind_ok.mp (mapError_ok.mp hdb)
  cases hdb
  exact ⟨rfl, rfl⟩

theorem delete_ok (h : delete env who name db = (.ok (), db')) :
    ∃ id, db'.peers = db.others id ∧
      db'.tokens = db.tokens.map fun t => if t.usedByPeerID = id then { t with usedByPeerID := [] } else t := by
  obtain ⟨p, -, h⟩ := call_ok h
  exact ⟨p.id, deletePeerTx_ok h⟩

theorem leave_ok (h : leave env id db = (.ok (), db')) :
    db'.peers = db.others id ∧
      db'.tokens = db.tokens.map fun t => if t.usedByPeerID = id then { t with usedByPeerID := [] } else t := by
  obtain ⟨_, -, h⟩ := call_ok h
  exact deletePeerTx_ok (mapError_ok.mp h)

theorem putRotation_ok {x : Option Store.PeerSignature} (h : putRotation db x = .ok db') :
    db'.peers = db.peers ∧ db'.tokens = db.tokens := by
  cases x with
  | none =>
    cases h
    exact ⟨rfl, rfl⟩
  | some row =>
    obtain ⟨rows, rfl⟩ := Db.putSignature_ok (mapError_ok.mp h)
    exact ⟨rfl, rfl⟩

/-- A rotation changes the key, and the server knows the peer by the new one. -/
theorem rotateKey_ok {newPublicKey : Str} {signed : Option SignedRotation} {gen : Int}
    (h : rotateKey S env id newPublicKey signed db = (.ok gen, db')) :
    (∃ k, Wg.parseKey newPublicKey = some k) ∧ PeerChange New (fun p q => q = { p with publicKey := newPublicKey }) db db'.peers ∧
      db'.tokens = db.tokens ∧
      ∃ p, db.tables.getByID id = some p ∧ db'.tables.getByID id = some { p with publicKey := newPublicKey } := by
  obtain ⟨k, hk, h⟩ := call_ok h
  obtain ⟨p, -, h⟩ := bind_ok.mp h
  obtain ⟨sig, -, h⟩ := bind_ok.mp h
  obtain ⟨db1, hset, h⟩ := bind_ok.mp h
  obtain ⟨db2, hput, h⟩ := bind_ok.mp h
  cases h
  obtain ⟨hchange, hsame⟩ := change_of_update (mapError_ok.mp hset) fun _ => rfl
  obtain ⟨q, hq, hq'⟩ := Db.getByID_updatePeer (mapError_ok.mp hset) fun _ => rfl
  obtain ⟨hpeers, htokens⟩ := putRotation_ok hput
  have hpeers : db2.incrementGeneration.2.peers = db1.peers := hpeers
  refine ⟨⟨k, found_ok.mp hk⟩, hpeers ▸ hchange, htokens.trans hsame, q, hq, ?_⟩
  show db2.peers.find? _ = _
  rw [show db2.peers = db1.peers from hpeers]
  exact hq'

theorem setIPv6Capable_ok {capable changed : Bool} (h : setIPv6Capable env id capable db = (.ok changed, db')) :
    PeerChange New (fun p q => q = { p with ipv6Capable := capable }) db db'.peers ∧ db'.tokens = db.tokens := by
  obtain ⟨_, -, h⟩ := call_ok h
  obtain ⟨⟨_, db1⟩, hset, h⟩ := bind_ok.mp h
  cases h
  have hsame : (if changed then db1.incrementGeneration.2 else db1).peers = db1.peers ∧
      (if changed then db1.incrementGeneration.2 else db1).tokens = db1.tokens := by
    cases changed with
    | false => exact ⟨rfl, rfl⟩
    | true => exact ⟨rfl, rfl⟩
  rw [hsame.1, hsame.2]
  obtain ⟨p, -, hset⟩ := bind_ok.mp (mapError_ok.mp hset)
  split at hset
  · cases hset
    exact ⟨.same, rfl⟩
  · obtain ⟨db2, hupd, hret⟩ := bind_ok.mp hset
    cases hret
    exact change_of_update hupd fun _ => rfl

end

end Thawr.Control.Registry
