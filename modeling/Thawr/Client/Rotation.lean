/-
  Thawr.Client.Rotation — replacing the WireGuard key of a device: `Daemon.RotateKey`, the
  server's handler it calls, and the key in the state directory (`SaveKey`, `LoadKey`).

  The call generates a key, has the server register its public half, then writes `node.key`,
  and last takes the key over in memory. The new private key is kept nowhere before the
  server's answer. Any step may fail; the request or the answer may get lost on the wire.

  Proved, for a device whose key is the registered one, in memory and on disk: unless the
  server committed and the answer was lost or the file not written, it still is, at once and
  after a restart; if so, neither key of the device is the registered one
  (`rotation_keeps_key_iff`). `a_lost_answer_strands` is the trace.

  Of the state directory only `node.key` is here; the device's id never changes.
-/

import Thawr.Client.Lock
import Thawr.Control.RegistryCalls
import Thawr.Go.Lines

namespace Thawr.Client

open Go Netip Lock

/-! ## `node.key` -/

inductive WriteStep where
  | mkdirAll
  | restrictToAdmins
  | createTemp
  | write
  | replaceFile

/-- `writeSecret`: the new contents go to a file of their own, which replaces the old one last. -/
def writeSecret (fails : Option WriteStep) (data : Str) (file : Option Str) : Except WriteStep Unit × Option Str :=
  match fails with
  | some step => (.error step, file)
  | none => (.ok (), some data)

def saveKey (fails : Option WriteStep) (key : Wg.Key) (file : Option Str) : Except WriteStep Unit × Option Str :=
  writeSecret fails (Wg.keyString key ++ [10]) file

inductive LoadKeyErr where
  /-- "client: not enrolled" -/
  | notEnrolled
  /-- "wg: parse key" -/
  | key

def loadKey : Option Str → Except LoadKeyErr Wg.Key
  | none => .error .notEnrolled
  | some data => found (Wg.parseKey (trimSpace data)) .key

/-- A key that was saved loads. -/
theorem loadKey_saved (k : Wg.Key) : loadKey (some (Wg.keyString k ++ [10])) = .ok k := by
  have htrim : trimSpace (Wg.keyString k ++ [10]) = Wg.keyString k := trimSpace_line (Base64.encode_plain k.bytes)
  show found (Wg.parseKey (trimSpace (Wg.keyString k ++ [10]))) LoadKeyErr.key = .ok k
  rw [htrim, Wg.parseKey_keyString]
  rfl

/-! ## The request and its handler -/

structure RotateKeyRequest where
  newPublicKey : Str
  signerKey : Str
  signature : Str

/-- `selfRotation`: a signer signs its own new key; any other device sends no signature. -/
def selfRotation (E : Ed25519) (d : Daemon) (newPub : Wg.Key) : Except Err (Str × Str) :=
  match d.lockKey, d.pins.lock with
  | some k, some rec =>
    if !rec.record.enabled then .ok ([], [])
    else if rec.record.signerKey d.state.peerID ≠ some (E.pub k) then .ok ([], [])
    else do
      let msg ← (PeerRecord.mk d.state.peerID d.state.name newPub).bytes
      return (text (E.pub k), text (E.sign k msg))
  | _, _ => .ok ([], [])

inductive RotateStatus where
  | signerKey
  | signature
  | call (e : Control.CallErr)

def RotateKeyRequest.signed (req : RotateKeyRequest) : Except RotateStatus (Option Control.Registry.SignedRotation) :=
  if req.signerKey = [] ∧ req.signature = [] then .ok none
  else do
    let signer ← found (parsePublicKey req.signerKey) .signerKey
    let sig ← found (parseSignature req.signature) .signature
    return some ⟨signer, sig⟩

def serveRotateKey (S : Control.Services) (env : Control.Env) (me : Str) (req : RotateKeyRequest) (db : Store.Db) :
    Except RotateStatus Int × Store.Db :=
  match req.signed with
  | .error e => (.error e, db)
  | .ok signed =>
    let r := Control.Registry.rotateKey S env me req.newPublicKey signed db
    (r.1.mapError .call, r.2)

/-- How far an RPC gets. -/
inductive Wire where
  /-- It fails before the handler. -/
  | requestLost
  /-- The handler runs and the client gets an error. -/
  | responseLost
  | delivered
  deriving DecidableEq

/-- What the client gets of an RPC, nothing for an error, and what the server keeps. -/
def Wire.send {α ε : Type} (w : Wire) (handler : Store.Db → Except ε α × Store.Db) (db : Store.Db) : Option α × Store.Db :=
  match w with
  | .requestLost => (none, db)
  | .responseLost => (none, (handler db).2)
  | .delivered => ((handler db).1.toOption, (handler db).2)

/-! ## `Daemon.RotateKey` -/

structure Node where
  daemon : Daemon
  connected : Bool := true
  keyFile : Option Str
  db : Store.Db

structure Outcome where
  /-- `GenerateKey`. -/
  generated : Option Wg.Key
  wire : Wire := .delivered
  server : Control.Env
  /-- The step at which `SaveKey` fails. -/
  saveFails : Option WriteStep := none
  apply : Env := {}
  /-- `Configure` takes the new configuration. -/
  configured : Bool := true

inductive RotateErr where
  /-- "client: not connected to the server" -/
  | notConnected
  /-- "wg: generate key" -/
  | generate
  | sign (e : Err)
  /-- "client: rotate key" -/
  | rpc
  | saveKey (step : WriteStep)
  | apply (e : ApplyErr)
  | configure

def Node.request (S : Control.Services) (E : Ed25519) (n : Node) (o : Outcome) :
    Except RotateErr (Wg.Key × RotateKeyRequest) := do
  check n.connected .notConnected
  let newKey ← found o.generated .generate
  let (signer, signature) ← (selfRotation E n.daemon (S.publicKey newKey)).mapError .sign
  return (newKey, ⟨Wg.keyString (S.publicKey newKey), signer, signature⟩)

def Outcome.reapply (X : Ext) (o : Outcome) (d : Daemon) : Except RotateErr Unit × Daemon :=
  match d.offered with
  | none => (.ok (), d)
  | some nm =>
    match applyConfig X o.apply d nm with
    | (d, .error e) => (.error (.apply e), d)
    | (d, .ok (applied, _)) => if o.configured then (.ok (), { d with netmap := some applied }) else (.error .configure, d)

def Node.rotateKey (S : Control.Services) (X : Ext) (n : Node) (o : Outcome) : Except RotateErr Unit × Node :=
  match n.request S X.ed o with
  | .error e => (.error e, n)
  | .ok (newKey, req) =>
    match o.wire.send (serveRotateKey S o.server n.daemon.state.peerID req) n.db with
    | (none, db) => (.error .rpc, { n with db := db })
    | (some _, db) =>
      match saveKey o.saveFails newKey n.keyFile with
      | (.error step, file) => (.error (.saveKey step), { n with db := db, keyFile := file })
      | (.ok (), file) =>
        let r := o.reapply X { n.daemon with key := newKey }
        (r.1, { n with db := db, keyFile := file, daemon := r.2 })

/-! ## Whose key is registered -/

def Node.registered (n : Node) : Option Wg.Key :=
  (n.db.tables.getByID n.daemon.state.peerID).bind fun p => Wg.parseKey p.publicKey

/-- The device holds the private key of the registered public key. -/
def Node.Holds (S : Control.Services) (n : Node) : Prop := n.registered = some (S.publicKey n.daemon.key)

instance (S : Control.Services) (n : Node) : Decidable (n.Holds S) :=
  inferInstanceAs (Decidable (n.registered = some (S.publicKey n.daemon.key)))

def Node.restart (n : Node) : Except LoadKeyErr Node :=
  (loadKey n.keyFile).map fun key =>
    { n with
      connected := false
      daemon :=
        { state := n.daemon.state, overlay := n.daemon.overlay, key := key, pins := n.daemon.pins, lockKey := n.daemon.lockKey } }

def Node.HoldsAfterRestart (S : Control.Services) (n : Node) : Prop := ∃ m, n.restart = .ok m ∧ m.Holds S

def Node.Commits (S : Control.Services) (X : Ext) (n : Node) (o : Outcome) : Prop :=
  ∃ newKey req gen db', n.request S X.ed o = .ok (newKey, req) ∧ o.wire ≠ .requestLost ∧
    serveRotateKey S o.server n.daemon.state.peerID req n.db = (.ok gen, db')

/-- The server registers the new key, and the device does not get to keep it. -/
def Node.Strands (S : Control.Services) (X : Ext) (n : Node) (o : Outcome) : Prop :=
  n.Commits S X o ∧ (o.wire = .responseLost ∨ o.saveFails ≠ none)

/-! ## What a call does -/

section

variable {S : Control.Services} {X : Ext} {n : Node} {o : Outcome} {newKey : Wg.Key} {req : RotateKeyRequest}

/-- The request asks for the public half of the new key. -/
theorem request_ok (h : n.request S X.ed o = .ok (newKey, req)) :
    o.generated = some newKey ∧ req.newPublicKey = Wg.keyString (S.publicKey newKey) := by
  obtain ⟨_, -, h⟩ := bind_ok.mp h
  obtain ⟨k, hk, h⟩ := bind_ok.mp h
  obtain ⟨sig, -, h⟩ := bind_ok.mp h
  cases h
  exact ⟨found_ok.mp hk, rfl⟩

variable {env : Control.Env} {me : Str} {db db' : Store.Db}

/-- A call the server rejects leaves its database as it was. -/
theorem serveRotateKey_error {e : RotateStatus} (h : (serveRotateKey S env me req db).1 = .error e) :
    (serveRotateKey S env me req db).2 = db := by
  unfold serveRotateKey at h ⊢
  cases hs : req.signed with
  | error e => rfl
  | ok signed =>
    rw [hs] at h
    cases hr : (Control.Registry.rotateKey S env me req.newPublicKey signed db).1 with
    | error e => exact Control.call_error hr
    | ok gen =>
      simp only [hr] at h
      cases h

theorem serveRotateKey_ok {gen : Int} (h : serveRotateKey S env me req db = (.ok gen, db')) :
    ∃ p, db.tables.getByID me = some p ∧ db'.tables.getByID me = some { p with publicKey := req.newPublicKey } := by
  unfold serveRotateKey at h
  cases hs : req.signed with
  | error e =>
    rw [hs] at h
    cases h
  | ok signed =>
    rw [hs] at h
    obtain ⟨hres, rfl⟩ := Prod.mk.inj h
    have hok : Control.Registry.rotateKey S env me req.newPublicKey signed db =
        (.ok gen, (Control.Registry.rotateKey S env me req.newPublicKey signed db).2) := Prod.ext (mapError_ok.mp hres) rfl
    have hrow : _ ∧ Store.PeerChange (fun _ => True) _ _ _ ∧ _ := Control.Registry.rotateKey_ok hok
    exact hrow.2.2.2

theorem admit_key (X : Ext) (env : Env) (d : Daemon) (nm : NetMap) : (admitMap X env d nm).1.key = d.key := by
  rw [admit_eq]
  split <;> rfl

theorem applyConfig_daemon (X : Ext) (env : Env) (d : Daemon) (nm : NetMap) :
    (applyConfig X env d nm).1 = (admitMap X env d nm).1 := by
  unfold applyConfig
  split
  · rename_i h
    rw [h]
  · rename_i h
    rw [h]
    split <;> rfl

/-- Applying a netmap again leaves the device's key and its id. -/
theorem reapply_keeps (X : Ext) (o : Outcome) (d : Daemon) :
    (o.reapply X d).2.key = d.key ∧ (o.reapply X d).2.state.peerID = d.state.peerID := by
  unfold Outcome.reapply
  cases d.offered with
  | none => exact ⟨rfl, rfl⟩
  | some nm =>
    have hkey := admit_key X o.apply d nm
    have hid : (admitMap X o.apply d nm).1.state.peerID = d.state.peerID := by
      rw [admit_state]
      exact (adoptState_keeps _ _).2
    rw [← applyConfig_daemon] at hkey hid
    grind

/-- Where a call ends: nowhere, on the server alone, or on both sides. -/
inductive Ends (S : Control.Services) (X : Ext) (n : Node) (o : Outcome) (n' : Node) : Prop
  | unchanged : ¬n.Commits S X o → n' = n → Ends S X n o n'
  /-- The server has the new key; the device has its old one. -/
  | stranded {newKey : Wg.Key} {db' : Store.Db} : n.Strands S X o → o.generated = some newKey → n' = { n with db := db' } →
      n'.registered = some (S.publicKey newKey) → Ends S X n o n'
  | moved {newKey : Wg.Key} : ¬n.Strands S X o → n'.daemon.key = newKey → n'.keyFile = some (Wg.keyString newKey ++ [10]) →
      n'.registered = some (S.publicKey newKey) → Ends S X n o n'

theorem registered_of_ok {gen : Int} (hreq : n.request S X.ed o = .ok (newKey, req))
    (h : serveRotateKey S env me req n.db = (.ok gen, db')) {n' : Node} (hdb : n'.db = db') (hid : n'.daemon.state.peerID = me) :
    n'.registered = some (S.publicKey newKey) := by
  obtain ⟨p, -, hp⟩ := serveRotateKey_ok h
  unfold Node.registered
  rw [hdb, hid, hp]
  show Wg.parseKey req.newPublicKey = _
  rw [(request_ok hreq).2, Wg.parseKey_keyString]

/-- What the server commits: the answer is lost on the way, or it is delivered and saved or not. -/
theorem ends_of_accepted {gen : Int} (hreq : n.request S X.ed o = .ok (newKey, req))
    (hserve : serveRotateKey S o.server n.daemon.state.peerID req n.db = (.ok gen, db')) :
      Ends S X n o (n.rotateKey S X o).2 := by
  have hgen := (request_ok hreq).1
  have hcommit : o.wire ≠ .requestLost → n.Commits S X o := fun hw => ⟨newKey, req, gen, db', hreq, hw, hserve⟩
  unfold Node.rotateKey
  rw [hreq]
  cases hw : o.wire with
  | requestLost =>
    refine .unchanged ?_ rfl
    rintro ⟨_, _, _, _, -, hne, -⟩
    exact hne hw
  | responseLost =>
    refine .stranded ⟨hcommit (by rw [hw]; decide), .inl hw⟩ hgen (show _ = { n with db := db' } from ?_) ?_
    · simp [Wire.send, hserve]
    · refine registered_of_ok hreq hserve ?_ rfl
      simp [Wire.send, hserve]
  | delivered =>
    simp only [Wire.send, hserve, Except.toOption]
    cases hf : o.saveFails with
    | some step =>
      refine .stranded ⟨hcommit (by rw [hw]; decide), .inr ?_⟩ hgen rfl (registered_of_ok hreq hserve rfl rfl)
      rw [hf]
      exact Option.some_ne_none _
    | none =>
      obtain ⟨hkey, hid⟩ := reapply_keeps X o { n.daemon with key := newKey }
      refine .moved ?_ hkey rfl (registered_of_ok hreq hserve rfl hid)
      rintro ⟨-, h | h⟩
      · rw [hw] at h
        cases h
      · exact h hf

theorem rotateKey_ends (S : Control.Services) (X : Ext) (n : Node) (o : Outcome) : Ends S X n o (n.rotateKey S X o).2 := by
  cases hreq : n.request S X.ed o with
  | error e =>
    refine .unchanged ?_ ?_
    · rintro ⟨_, _, _, _, h, -⟩
      rw [hreq] at h
      cases h
    · unfold Node.rotateKey
      rw [hreq]
  | ok x =>
    obtain ⟨newKey, req⟩ := x
    rcases hserve : serveRotateKey S o.server n.daemon.state.peerID req n.db with ⟨res, db'⟩
    cases res with
    | ok gen => exact ends_of_accepted hreq hserve
    | error e =>
      -- rejected: whatever reaches the client is an error
      have hdb : db' = n.db := by
        have h := serveRotateKey_error (S := S) (e := e) (by rw [hserve])
        rwa [hserve] at h
      refine .unchanged ?_ ?_
      · rintro ⟨_, _, _, _, h, -, hs⟩
        rw [hreq] at h
        cases h
        rw [hserve] at hs
        cases hs
      · unfold Node.rotateKey
        rw [hreq]
        cases hw : o.wire <;> simp [Wire.send, hserve, Except.toOption, hdb]

/-! ## The device keeps its key, or is stranded -/

theorem holdsAfterRestart_iff : n.HoldsAfterRestart S ↔ ∃ k, loadKey n.keyFile = .ok k ∧ n.registered = some (S.publicKey k) := by
  unfold Node.HoldsAfterRestart Node.restart
  constructor
  · intro h
    obtain ⟨m, hm, hholds⟩ := h
    obtain ⟨k, hk, rfl⟩ := map_ok.mp hm
    exact ⟨k, hk, hholds⟩
  · intro h
    obtain ⟨k, hk, hreg⟩ := h
    rw [hk]
    exact ⟨_, rfl, hreg⟩

/-- A rotation is safe unless the server commits it and the device then learns or keeps
    nothing of it; a device stranded so holds the registered key nowhere. -/
theorem rotation_keeps_key_iff (hnow : n.Holds S) (hdisk : n.HoldsAfterRestart S) :
    (¬n.Strands S X o → (n.rotateKey S X o).2.Holds S ∧ (n.rotateKey S X o).2.HoldsAfterRestart S) ∧
      (n.Strands S X o → (∀ k, o.generated = some k → S.publicKey k ≠ S.publicKey n.daemon.key) →
        ¬(n.rotateKey S X o).2.Holds S ∧ ¬(n.rotateKey S X o).2.HoldsAfterRestart S) := by
  have hends := rotateKey_ends S X n o
  generalize (n.rotateKey S X o).2 = n' at hends ⊢
  cases hends with
  | unchanged hno he =>
    subst he
    exact ⟨fun _ => ⟨hnow, hdisk⟩, fun h => absurd h.1 hno⟩
  | @stranded newKey db' hyes hgen he hreg =>
    subst he
    refine ⟨fun h => absurd hyes h, fun _ hfresh => ?_⟩
    have hne := hfresh newKey hgen
    refine ⟨fun h => ?_, fun h => ?_⟩
    · exact hne (Option.some.inj (hreg.symm.trans h))
    · -- the key on disk is the old one as well
      obtain ⟨k, hk, hnew⟩ := holdsAfterRestart_iff.mp h
      obtain ⟨k', hk', hold⟩ := holdsAfterRestart_iff.mp hdisk
      cases hk.symm.trans hk'
      have hsame : S.publicKey k = S.publicKey n.daemon.key := Option.some.inj (hold.symm.trans hnow)
      exact hne ((Option.some.inj (hreg.symm.trans hnew)).trans hsame)
  | @moved newKey hno hkey hfile hreg =>
    refine ⟨fun _ => ⟨?_, ?_⟩, fun h => absurd h hno⟩
    · unfold Node.Holds
      rw [hkey]
      exact hreg
    · refine holdsAfterRestart_iff.mpr ⟨newKey, ?_, hreg⟩
      rw [hfile]
      exact loadKey_saved newKey

end

/-! ## A device of a small server -/

def smallServices : Control.Services where
  overlay := Prefix.none
  overlay6 := Prefix.none
  hashSecret := id
  publicKey := id
  ed25519 := Ed25519.sample
  unmarshal := fun _ => none

/-- The device `a`, with key 1 in memory, on disk and on the server. -/
def enrolledNode : Node where
  daemon := { state := { peerID := str "a", name := str "pc" }, key := keyNo 1 }
  keyFile := some (Wg.keyString (keyNo 1) ++ [10])
  db :=
    { tables := { peers := [{ id := str "a", name := str "pc", publicKey := Wg.keyString (keyNo 1), ipv4 := str "10.0.0.2" }] } }

def toKeyTwo (wire : Wire) (saveFails : Option WriteStep) : Outcome where
  generated := some (keyNo 2)
  wire := wire
  server := { now := 0, id := Arr.zero 16, secret := Arr.zero 32 }
  saveFails := saveFails

theorem enrolledNode_holds : enrolledNode.Holds smallServices ∧ enrolledNode.HoldsAfterRestart smallServices :=
  ⟨by decide +kernel, holdsAfterRestart_iff.mpr ⟨keyNo 1, loadKey_saved _, by decide +kernel⟩⟩

/-- The server has key 2 and the device key 1, whether the answer is lost or `node.key` not
    replaced; a restart brings key 1 back. -/
theorem a_lost_answer_strands : (enrolledNode.Holds smallServices ∧ enrolledNode.HoldsAfterRestart smallServices) ∧
      ∀ x ∈ [(Wire.responseLost, none), (Wire.delivered, some WriteStep.replaceFile)],
        let n := (enrolledNode.rotateKey smallServices sample (toKeyTwo x.1 x.2)).2
        n.registered = some (keyNo 2) ∧ ¬n.Holds smallServices ∧ ¬n.HoldsAfterRestart smallServices := by
  refine ⟨enrolledNode_holds, fun x hx => ?_⟩
  obtain ⟨hfile, hkey, hreg⟩ : let n := (enrolledNode.rotateKey smallServices sample (toKeyTwo x.1 x.2)).2
      n.keyFile = enrolledNode.keyFile ∧ n.daemon.key = keyNo 1 ∧ n.registered = some (keyNo 2) := by
    rcases List.mem_pair.mp hx with rfl | rfl
    · decide +kernel
    · decide +kernel
  refine ⟨hreg, fun h => ?_, fun h => ?_⟩
  · have he := hreg.symm.trans h
    rw [hkey] at he
    exact absurd he (by decide)
  · obtain ⟨k, hk, hr⟩ := holdsAfterRestart_iff.mp h
    rw [hfile] at hk
    cases (loadKey_saved (keyNo 1)).symm.trans hk
    exact absurd (hreg.symm.trans hr) (by decide)

/-- An answered rotation whose key is written moves the device to key 2. -/
theorem an_answered_rotation_keeps :
    let n := (enrolledNode.rotateKey smallServices sample (toKeyTwo .delivered none)).2
    n.registered = some (keyNo 2) ∧ n.Holds smallServices ∧ n.HoldsAfterRestart smallServices := by
  refine ⟨by decide +kernel, ?_⟩
  refine (rotation_keeps_key_iff enrolledNode_holds.1 enrolledNode_holds.2).1 fun h => ?_
  rcases h.2 with h | h
  · cases h
  · exact h rfl

end Thawr.Client
