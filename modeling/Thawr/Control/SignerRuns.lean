/-
  Thawr.Control.SignerRuns — whose signatures are stored while `Sign`, `Set` and `RotateKey`
  run side by side (`internal/control/lock.go`, `internal/control/registry.go`).

  A transaction is one step, and so is a read outside of one. `Sign` is two: `signerKeyOf` reads
  the record in force and checks the caller's key (`check`), then a transaction verifies the
  signature and stores it (`sign`). `Set` and `RotateKey` read the record in their transactions.

  `checked` are the calls of `Sign` between their two steps. `written` is the history of the
  rows `Sign` and `RotateKey` stored, each with the lock record when its transaction committed.

  Proved: the history is of rows as they are stored (`next_written`). In the runs whose `Set`s
  leave every checked key listed for its caller, every row is by a key that the record in force
  then lists for the caller (`stored_by_current_iff`). A `Set` that takes one off lets the
  checked call store its row under the new record (`a_removed_signer_signs`).
-/

import Thawr.Conc.Runs
import Thawr.Control.LockCalls

namespace Thawr.Control.LockService

open Go Lock Store

structure Signing where
  caller : Store.Peer
  sg : PeerSigning
  deriving DecidableEq

structure Written where
  caller : Str
  signer : PublicKey
  row : Store.PeerSignature
  record : Option Str
  deriving DecidableEq

structure St where
  db : Db
  checked : List Signing := []
  written : List Written := []
  deriving DecidableEq

def Start (s : St) : Prop := s.checked = [] ∧ s.written = []

inductive Ev where
  | check (x : Signing)
  | sign (x : Signing) (commits : Bool)
  | set (caller : Store.Peer) (next : Signed) (sigs : List PeerSigning) (commits : Bool)
  | rotate (env : Env) (id newPublicKey : Str) (signed : Option Registry.SignedRotation)

def rotated (id newPublicKey : Str) (db : Db) : Option Registry.SignedRotation → List Written
  | none => []
  | some x => [⟨id, x.signer, ⟨id, newPublicKey, text x.signer, text x.signature⟩, db.tables.lockRecord⟩]

def next (C : Config) (s : St) : Ev → Option St
  | .check x =>
    match signChecks C x.caller x.sg.signer s.db with
    | .error _ => some s
    | .ok _ => some { s with checked := x :: s.checked }
  | .sign x commits =>
    if s.checked.contains x then
      match signTx C x.sg s.db with
      | .error _ => some { s with checked := s.checked.erase x }
      | .ok db =>
        if commits then
          some ⟨db, s.checked.erase x, ⟨x.caller.id, x.sg.signer, signingRow x.sg, db.tables.lockRecord⟩ :: s.written⟩
        else some { s with checked := s.checked.erase x }
    else none
  | .set caller next sigs commits => some { s with db := (set C commits caller next sigs s.db).2 }
  | .rotate env id newPublicKey signed =>
    match Registry.rotateKey C.services env id newPublicKey signed s.db with
    | (.error _, db) => some { s with db := db }
    | (.ok _, db) => some { s with db := db, written := rotated id newPublicKey db signed ++ s.written }

/-! ## Current signers -/

/-- The stored record is enabled and lists the key for the caller. -/
def Listed (C : Config) (record : Option Str) (caller : Str) (key : PublicKey) : Prop :=
  ∃ s, record.bind C.services.unmarshal = some s ∧ s.record.enabled = true ∧ s.record.signerKey caller = some key

/-- The row is by a key the record in force listed for the caller. -/
structure ByCurrent (C : Config) (w : Written) : Prop where
  listed : Listed C w.record w.caller w.signer
  key : w.row.signerKey = text w.signer

/-- A `Set` leaves the key of every checked call listed. -/
def KeepsSigners (C : Config) (s : St) : Ev → Prop
  | .set caller next sigs commits =>
    ∀ x ∈ s.checked, Listed C (set C commits caller next sigs s.db).2.tables.lockRecord x.caller.id x.sg.signer
  | _ => True

section

variable {C : Config} {s s' : St} {e : Ev} {db db' : Db}

/-- `signerKeyOf` lets exactly the listed keys pass. -/
theorem signerKeyOf_ok {p : Store.Peer} {key : PublicKey} :
    Registry.signerKeyOf C.services p key db = .ok () ↔ Listed C db.tables.lockRecord p.id key := by
  have hload : ∀ cur, loadLockRecord C.services.unmarshal db.tables = .ok (some cur) ↔
      db.tables.lockRecord.bind C.services.unmarshal = some cur := by
    intro cur
    unfold loadLockRecord
    grind
  constructor
  · intro h
    obtain ⟨cur, hcur, h⟩ := bind_ok.mp h
    obtain ⟨rec, hrec, h⟩ := bind_ok.mp h
    obtain ⟨hsome, henabled⟩ := Option.filter_eq_some_iff.mp (found_ok.mp hrec)
    refine ⟨rec, (hload rec).mp ?_, henabled, beq_iff_eq.mp (check_ok.mp h)⟩
    rw [mapError_ok.mp hcur, hsome]
  · intro h
    obtain ⟨rec, hrec, henabled, hkey⟩ := h
    refine bind_ok.mpr ⟨some rec, mapError_ok.mpr ((hload rec).mpr hrec), bind_ok.mpr ⟨rec, found_ok.mpr ?_, ?_⟩⟩
    · exact Option.filter_eq_some_iff.mpr ⟨rfl, henabled⟩
    · exact check_ok.mpr (beq_iff_eq.mpr hkey)

/-! ## What a rotation stores -/

theorem putRotation_record {x : Option Store.PeerSignature} (h : Registry.putRotation db x = .ok db') :
    db'.tables.lockRecord = db.tables.lockRecord ∧ ∀ row, x = some row → row ∈ db'.tables.signatures := by
  cases x with
  | none =>
    cases h
    exact ⟨rfl, fun row hrow => by cases hrow⟩
  | some row =>
    obtain ⟨_, -, h⟩ := bind_ok.mp (mapError_ok.mp h)
    cases h
    refine ⟨rfl, fun row' hrow => ?_⟩
    cases hrow
    exact Sql.mem_insert.mpr (.inl rfl)

theorem updatePeer_record {id : Str} {f : Store.Peer → Store.Peer} (h : db.updatePeer id f = .ok db') :
    db'.tables.lockRecord = db.tables.lockRecord := by
  obtain ⟨p, -, -, rfl⟩ := Db.updatePeer_ok h
  rfl

/-- The signature was checked against the record the transaction leaves, and it is stored. -/
theorem rotateKey_row {env : Env} {id newPublicKey : Str} {signed : Option Registry.SignedRotation} {gen : Int}
    (h : Registry.rotateKey C.services env id newPublicKey signed db = (.ok gen, db')) :
    db'.tables.lockRecord = db.tables.lockRecord ∧
      ∀ w ∈ rotated id newPublicKey db' signed, ByCurrent C w ∧ w.row ∈ db'.tables.signatures := by
  obtain ⟨k, -, h⟩ := call_ok h
  obtain ⟨p, hp, h⟩ := bind_ok.mp h
  obtain ⟨sig, hsig, h⟩ := bind_ok.mp h
  obtain ⟨db1, hset, h⟩ := bind_ok.mp h
  obtain ⟨db2, hput, h⟩ := bind_ok.mp h
  cases h
  obtain ⟨-, hid⟩ := db.tables.mem_of_getByID (found_ok.mp hp)
  obtain ⟨hrec, hrow⟩ := putRotation_record hput
  have hkept : db1.tables.lockRecord = db.tables.lockRecord := updatePeer_record (mapError_ok.mp hset)
  have hsame : db2.tables.lockRecord = db.tables.lockRecord := hrec.trans hkept
  refine ⟨hsame, fun w hw => ?_⟩
  cases signed with
  | none => cases hw
  | some x =>
    cases List.mem_singleton.mp hw
    obtain ⟨_, -, hsig⟩ := bind_ok.mp hsig
    obtain ⟨row, hverify, hsig⟩ := bind_ok.mp hsig
    cases hsig
    obtain ⟨_, hlisted, hverify⟩ := bind_ok.mp hverify
    obtain ⟨key, -, hverify⟩ := bind_ok.mp hverify
    obtain ⟨msg, -, hverify⟩ := bind_ok.mp hverify
    obtain ⟨_, -, hverify⟩ := bind_ok.mp hverify
    cases hverify
    have hlisted := signerKeyOf_ok.mp hlisted
    rw [hid] at hlisted
    refine ⟨⟨?_, rfl⟩, hid ▸ hrow _ rfl⟩
    show Listed C db2.tables.lockRecord id x.signer
    rw [hsame]
    exact hlisted

/-! ## Steps -/

/-- What a step does to the record and the history. -/
inductive Effect (C : Config) (s : St) (e : Ev) (s' : St) : Prop
  | quiet : s'.db.tables.lockRecord = s.db.tables.lockRecord → s'.written = s.written →
      (∀ x ∈ s'.checked, x ∈ s.checked ∨ Listed C s.db.tables.lockRecord x.caller.id x.sg.signer) → Effect C s e s'
  | set {caller : Store.Peer} {nxt : Signed} {sigs : List PeerSigning} {commits : Bool} : e = .set caller nxt sigs commits →
      s' = { s with db := (set C commits caller nxt sigs s.db).2 } → Effect C s e s'
  /-- A row is stored, for a caller the record lists or one that was checked. -/
  | stored {w : Written} : s'.written = w :: s.written → s'.db.tables.lockRecord = s.db.tables.lockRecord →
    s'.checked ⊆ s.checked →
      w.row ∈ s'.db.tables.signatures → w.record = s'.db.tables.lockRecord → w.row.signerKey = text w.signer →
      (Listed C s.db.tables.lockRecord w.caller w.signer ∨ ∃ x ∈ s.checked, w.caller = x.caller.id ∧ w.signer = x.sg.signer) →
      Effect C s e s'

theorem effect_sign {x : Signing} {commits : Bool} (h : next C s (.sign x commits) = some s') :
    Effect C s (.sign x commits) s' := by
  have hrest : s.checked.erase x ⊆ s.checked := List.erase_subset
  unfold LockService.next at h
  dsimp only at h
  split at h
  · rename_i hmem
    split at h
    · cases h
      exact .quiet rfl rfl fun y hy => .inl (hrest hy)
    · rename_i db hsign
      split at h
      · cases h
        obtain ⟨hsame, hstored, -⟩ := signTx_ok hsign
        exact .stored rfl hsame hrest hstored rfl rfl (.inr ⟨x, List.contains_iff_mem.mp hmem, rfl, rfl⟩)
      · cases h
        exact .quiet rfl rfl fun y hy => .inl (hrest hy)
  · cases h

theorem effect_rotate {env : Env} {id newPublicKey : Str} {signed : Option Registry.SignedRotation}
    (h : next C s (.rotate env id newPublicKey signed) = some s') : Effect C s (.rotate env id newPublicKey signed) s' := by
  unfold LockService.next at h
  dsimp only at h
  split at h
  · rename_i err db hr
    cases h
    have hsame : db = s.db := (congrArg Prod.snd hr).symm.trans (call_error (congrArg Prod.fst hr))
    exact .quiet (by rw [hsame]) rfl fun y hy => .inl hy
  · rename_i gen db hr
    cases h
    obtain ⟨hsame, hrows⟩ := rotateKey_row hr
    cases signed with
    | none => exact .quiet hsame rfl fun y hy => .inl hy
    | some x =>
      obtain ⟨hcur, hstored⟩ := hrows _ (List.mem_singleton_self _)
      exact .stored rfl hsame (fun _ hy => hy) hstored rfl rfl (.inl (hsame ▸ hcur.listed))

theorem effect (h : next C s e = some s') : Effect C s e s' := by
  cases e with
  | check x =>
    unfold LockService.next at h
    dsimp only at h
    split at h
    · cases h
      exact .quiet rfl rfl fun y hy => .inl hy
    · rename_i hcheck
      cases h
      refine .quiet rfl rfl fun y hy => ?_
      rcases List.mem_cons.mp hy with rfl | hy
      · exact .inr (signerKeyOf_ok.mp hcheck)
      · exact .inl hy
  | sign x commits => exact effect_sign h
  | set caller nxt sigs commits =>
    cases h
    exact .set rfl rfl
  | rotate env id newPublicKey signed => exact effect_rotate h

structure Inv (C : Config) (s : St) : Prop where
  checked : ∀ x ∈ s.checked, Listed C s.db.tables.lockRecord x.caller.id x.sg.signer
  written : ∀ w ∈ s.written, ByCurrent C w

theorem Inv.next (hi : Inv C s) (hok : KeepsSigners C s e) (h : next C s e = some s') : Inv C s' := by
  cases effect h with
  | quiet hsame hwritten hchecked =>
    refine ⟨fun x hx => ?_, hwritten ▸ hi.written⟩
    rw [hsame]
    exact (hchecked x hx).elim (hi.checked x) id
  | set he hs =>
    subst he hs
    exact ⟨hok, hi.written⟩
  | @stored w hwritten hsame hchecked _ hrecord hkey hlisted =>
    have hlisted : Listed C s.db.tables.lockRecord w.caller w.signer := by
      rcases hlisted with hlisted | ⟨x, hx, hcaller, hsigner⟩
      · exact hlisted
      · rw [hcaller, hsigner]
        exact hi.checked x hx
    refine ⟨fun x hx => hsame ▸ hi.checked x (hchecked hx), fun v hv => ?_⟩
    rw [hwritten] at hv
    rcases List.mem_cons.mp hv with rfl | hv
    · exact ⟨hrecord ▸ hsame ▸ hlisted, hkey⟩
    · exact hi.written v hv

theorem Start.inv (h : Start s) : Inv C s := by
  obtain ⟨hchecked, hwritten⟩ := h
  refine ⟨fun x hx => ?_, fun w hw => ?_⟩
  · rw [hchecked] at hx
    cases hx
  · rw [hwritten] at hw
    cases hw

/-- The transaction of a checked call that stores its row. -/
theorem next_sign {x : Signing} (hmem : x ∈ s.checked) (hsign : signTx C x.sg s.db = .ok db) :
    next C s (.sign x true) =
      some ⟨db, s.checked.erase x, ⟨x.caller.id, x.sg.signer, signingRow x.sg, db.tables.lockRecord⟩ :: s.written⟩ := by
  unfold LockService.next
  dsimp only
  rw [if_pos (List.contains_iff_mem.mpr hmem), hsign]
  rfl

/-! ## Runs -/

/-- In runs whose `Set`s keep the checked keys listed, current signers' rows are stored and no
    others; after a `Set` that does not, the call whose key it takes off stores its row yet. -/
theorem stored_by_current_iff (C : Config) :
    (∀ s, Conc.Reach Start (next C) (KeepsSigners C) s → ∀ w ∈ s.written, ByCurrent C w) ∧
      ∀ s caller nxt sigs commits, ¬KeepsSigners C s (.set caller nxt sigs commits) →
        ∃ x ∈ s.checked, ∀ s₁ db, next C s (.set caller nxt sigs commits) = some s₁ → signTx C x.sg s₁.db = .ok db →
          ∃ s₂, next C s₁ (.sign x true) = some s₂ ∧ ∃ w ∈ s₂.written, w.row = signingRow x.sg ∧ ¬ByCurrent C w := by
  refine ⟨fun s h => ?_, ?_⟩
  · have hi : Inv C s := h.inv (fun _ => Start.inv) fun _ _ _ hi hok hs => hi.next hok hs
    exact hi.written
  · intro s caller nxt sigs commits hbreaks
    simp only [KeepsSigners, not_forall] at hbreaks
    obtain ⟨x, hx, hoff⟩ := hbreaks
    refine ⟨x, hx, fun s₁ db h₁ hsign => ?_⟩
    cases h₁
    refine ⟨_, next_sign hx hsign, _, List.mem_cons_self, rfl, fun h => hoff ?_⟩
    rw [← (signTx_ok hsign).1]
    exact h.listed

end

/-! ## Two signers -/

def signer (n : Nat) : PublicKey := Arr.ofNat 32 n

def bothSign : Signed := signedNo 1 ⟨1, false, [⟨signer 1, str "a"⟩, ⟨signer 2, str "b"⟩]⟩

def onlyB : Signed := signedNo 2 ⟨2, false, [⟨signer 2, str "b"⟩]⟩

def pairConfig : Config where
  services :=
    { overlay := Netip.Prefix.none, overlay6 := Netip.Prefix.none, hashSecret := id, publicKey := id
      ed25519 := Ed25519.sample, unmarshal := fun raw => [bothSign, onlyB].find? fun s =>
        raw == decimal s.record.generation.toNat }
  hubKey := Wg.keyString (Arr.ofNat 32 9)
  marshal := fun s => decimal s.record.generation.toNat

def deviceRow (id : Str) (key : Nat) : Store.Peer :=
  { id := id, name := id, publicKey := Wg.keyString (Arr.ofNat 32 key), ipv4 := id }

def pairStart : St :=
  { db.tables.peers := [deviceRow (str "a") 3, deviceRow (str "b") 4]
    db.tables.lockRecord := some (pairConfig.marshal bothSign) }

def aSignsB : Signing where
  caller := deviceRow (str "a") 3
  sg :=
    { peerID := str "b", publicKey := Wg.keyString (Arr.ofNat 32 4), signer := signer 1
      signature := Ed25519.sample.sign (Arr.ofNat 32 1)
        ((PeerRecord.mk (str "b") (str "b") (Arr.ofNat 32 4)).bytes.toOption.getD []) }

/-- `a` is checked, `b` takes it off the record, and the row of `a` is stored. -/
theorem a_removed_signer_signs :
    ∃ s, Conc.Reach Start (next pairConfig) Conc.Always s ∧ ∃ w ∈ s.written, w.row = signingRow aSignsB.sg ∧
      w.row ∈ s.db.tables.signatures ∧ w.record.bind pairConfig.services.unmarshal = some onlyB ∧ ¬ByCurrent pairConfig w := by
  obtain ⟨s, hs, hf⟩ := Option.map_eq_some_iff.mp (show
    (Conc.run (next pairConfig) pairStart
      [.check aSignsB, .set (deviceRow (str "b") 4) onlyB [] true, .sign aSignsB true]).map
        (fun s => (s.written, decide (signingRow aSignsB.sg ∈ s.db.tables.signatures))) =
          some ([⟨str "a", signer 1, signingRow aSignsB.sg, some (pairConfig.marshal onlyB)⟩], true) by decide +kernel)
  obtain ⟨hw, hstored⟩ := Prod.mk.inj hf
  have hrecord : (some (pairConfig.marshal onlyB)).bind pairConfig.services.unmarshal = some onlyB := by decide +kernel
  refine ⟨s, .run (.start ⟨rfl, rfl⟩) _ hs, _, hw ▸ List.mem_singleton_self _, rfl, of_decide_eq_true hstored, hrecord, ?_⟩
  intro h
  obtain ⟨rec, hrec, -, hkey⟩ := h.listed
  cases hrecord.symm.trans hrec
  exact absurd hkey (by decide)

/-- Without the `Set` the row is that of a current signer. -/
theorem a_current_signer_signs :
    ∃ s, Conc.Reach Start (next pairConfig) (KeepsSigners pairConfig) s ∧ s.written ≠ [] ∧ ∀ w ∈ s.written,
      ByCurrent pairConfig w := by
  obtain ⟨s₁, h₁, hf⟩ := Option.map_eq_some_iff.mp (show
    (next pairConfig pairStart (.check aSignsB)).map (fun s => s) =
      some { pairStart with checked := [aSignsB] } by decide +kernel)
  subst hf
  obtain ⟨s₂, h₂, hw⟩ := Option.map_eq_some_iff.mp (show
    (next pairConfig { pairStart with checked := [aSignsB] } (.sign aSignsB true)).map (fun s => s.written.length) =
      some 1 by decide +kernel)
  have hreach : Conc.Reach Start (next pairConfig) (KeepsSigners pairConfig) s₂ :=
    .step (.sign aSignsB true) (.step (.check aSignsB) (.start ⟨rfl, rfl⟩) trivial h₁) trivial h₂
  refine ⟨s₂, hreach, fun he => ?_, (stored_by_current_iff pairConfig).1 s₂ hreach⟩
  rw [he] at hw
  cases hw

end Thawr.Control.LockService
