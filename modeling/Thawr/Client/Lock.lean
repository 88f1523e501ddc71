/-
  Thawr.Client.Lock — the lock operations of a device (`internal/client/lock.go`): turning
  the lock on, adding a signer, turning it off.

  Each operation reads the daemon under `mu`, makes a record and signs it, sends it to the
  server without `mu`, and pins it under `mu` when the server took it. Here is the reading
  and making; the interleaving is in `Thawr.Client.LockRaces`.

  `LockInit` signs the hub, this device and every peer of the netmap last received. Proved:
  on a device that does not fail closed every key it signs is the pinned one exactly when
  nothing is held (`lockInit_signs_pinned_iff`). A held key is signed like any other
  (`lockInit_signs_a_held_key`).
-/

import Thawr.Client.PinRuns

namespace Thawr.Client

open Go Netip Lock

inductive LockErr where
  /-- "client: not connected to the server" -/
  | notConnected
  /-- "client: no netmap yet" -/
  | noNetMap
  /-- "client: the network lock is already enabled; use `lock add-signer` to add a signer" -/
  | alreadyEnabled
  /-- "client: this device has no lock key; run `thawr client lock key` and let a signer add it" -/
  | noLockKey
  /-- "client: the network lock is not enabled; run `thawr client lock init` on the device that
      should hold the first key" -/
  | lockOff
  /-- "client: this device is not a signer of the network lock" -/
  | notSigner
  /-- "client: key of %s" -/
  | key (name : Str)
  | record (e : Err)
  /-- "client: lock key mismatch: the candidate's full lock public key is required (printed by
      `thawr client lock key` there)" -/
  | notFullKey
  /-- "client: lock key mismatch: the server reports %s for %s, you gave a different key; run
      `thawr client lock key` there and compare", with the key's fingerprint -/
  | mismatch (reported : PublicKey) (name : Str)
  /-- "client: unknown peer: %s" -/
  | unknownPeer (name : Str)
  /-- "client: %s has not reported a lock key; run `thawr client lock key` there first" -/
  | notReported (name : Str)
  /-- "client: lock key of %s" -/
  | lockKey (name : Str)
  deriving DecidableEq

structure SignPeerRequest where
  peerId : Str
  publicKey : Str
  signerKey : Str
  signature : Str

section

variable (E : Ed25519)

/-- `signerContext`: this device's lock key and the pinned record, if it may sign. -/
def signerContext (d : Daemon) (connected : Bool) : Except LockErr (Arr 32 × Signed) :=
  if !connected then .error .notConnected
  else
    match d.lockKey, d.pins.lock with
    | none, _ => .error .noLockKey
    | some _, none => .error .lockOff
    | some k, some rec =>
      if !rec.record.enabled then .error .lockOff
      else if rec.record.signerKey d.state.peerID ≠ some (E.pub k) then .error .notSigner
      else .ok (k, rec)

/-- `ensureLockKey`; `fresh` is the key a device without one generates. -/
def ensureLockKey (d : Daemon) (fresh : Arr 32) : Arr 32 := d.lockKey.getD fresh

structure Subject where
  id : Str
  name : Str
  key : Str
  deriving DecidableEq

def peerSigning (k : Arr 32) (s : Subject) : Except LockErr SignPeerRequest :=
  match Wg.parseKey s.key with
  | none => .error (.key s.name)
  | some wk =>
    match (PeerRecord.mk s.id s.name wk).bytes with
    | .error e => .error (.record e)
    | .ok msg => .ok ⟨s.id, s.key, text (E.pub k), text (E.sign k msg)⟩

def initPeers (offered : NetMap) : List Subject :=
  (offered.peers.filter fun p => !(p.viaHub || p.id == [] || p.publicKey == [])).map fun p => ⟨p.id, p.name, p.publicKey⟩

def initHub (offered : NetMap) : Subject := ⟨hubID, hubID, offered.hub.publicKey⟩

/-- What `LockInit` sends: the record and the signatures with what they are over, the hub's
    first, then this device's, then the peers'. -/
structure InitRequest where
  record : Signed
  hub : Subject × SignPeerRequest
  self : Subject × SignPeerRequest
  peers : List (Subject × SignPeerRequest)

def signSubject (k : Arr 32) (s : Subject) : Except LockErr (Subject × SignPeerRequest) := (peerSigning E k s).map (s, ·)

/-- The loop over the peer entries; the first that cannot be signed ends it. -/
def signSubjects (k : Arr 32) : List Subject → Except LockErr (List (Subject × SignPeerRequest))
  | [] => .ok []
  | s :: rest => do
    let a ← signSubject E k s
    let b ← signSubjects k rest
    return a :: b

/-- The generation a new lock starts at: after a pinned record that is off, the next. -/
def initGeneration (lock : Option Signed) : Except LockErr UInt64 :=
  match lock with
  | none => .ok 1
  | some s => if s.record.enabled then .error .alreadyEnabled else .ok (s.record.generation + 1)

/-- `LockInit` up to the request; `wgPub` is the public half of a WireGuard key. -/
def lockInit (wgPub : Wg.Key → Wg.Key) (d : Daemon) (connected : Bool) (fresh : Arr 32) : Except LockErr InitRequest :=
  if !connected then .error .notConnected
  else
    match d.offered with
    | none => .error .noNetMap
    | some offered => do
      let gen ← initGeneration d.pins.lock
      let k := ensureLockKey d fresh
      let hub ← signSubject E k (initHub offered)
      let self ← signSubject E k ⟨d.state.peerID, d.state.name, Wg.keyString (wgPub d.key)⟩
      let peers ← signSubjects E k (initPeers offered)
      match (⟨gen, false, [⟨E.pub k, d.state.peerID⟩]⟩ : Record).signWith E k with
      | .error e => .error (.record e)
      | .ok s => .ok ⟨s, hub, self, peers⟩

/-- The record `LockAddSigner` makes of the pinned one for the candidate it has checked. -/
def addSignerRecord (r : Record) (candidate : Signer) : Record := ⟨r.generation + 1, false, r.signers ++ [candidate]⟩

/-- The record `LockDisable` makes: the same signers, so only one of them can turn it on. -/
def disableRecord (r : Record) : Record := ⟨r.generation + 1, true, r.signers⟩

def signRecord (k : Arr 32) (r : Record) : Except LockErr Signed :=
  match r.signWith E k with
  | .error e => .error (.record e)
  | .ok s => .ok s

structure LockPeer where
  id : Str
  name : Str
  lockKey : Str := []

/-- The named peer of the server's list, with the key it reported, which must be the one the
    person supplied. -/
def candidate (list : List LockPeer) (name expected : Str) : Except LockErr Signer :=
  match list.find? (·.name == name) with
  | none => .error (.unknownPeer name)
  | some p =>
    if p.lockKey = [] then .error (.notReported name)
    else
      match parsePublicKey p.lockKey with
      | none => .error (.lockKey name)
      | some key => if matchesLockKey key expected then .ok ⟨key, p.id⟩ else .error (.mismatch key name)

/-- `LockAddSigner` up to the request; `list` is the server's answer. -/
def lockAddSigner (d : Daemon) (connected : Bool) (name expected : Str) (list : List LockPeer) :
    Except LockErr Signed :=
  let expected := trimSpace expected
  if (parsePublicKey expected).isNone then .error .notFullKey
  else do
    let (k, rec) ← signerContext E d connected
    let c ← candidate list (stripZone name) expected
    signRecord E k (addSignerRecord rec.record c)

def lockDisable (d : Daemon) (connected : Bool) : Except LockErr Signed := do
  let (k, rec) ← signerContext E d connected
  signRecord E k (disableRecord rec.record)

variable {E}

theorem signSubject_ok {k : Arr 32} {s : Subject} {x : Subject × SignPeerRequest} (h : signSubject E k s = .ok x) :
    x.1 = s ∧ s.name ≠ [] ∧ s.key ≠ [] := by
  obtain ⟨req, hs, rfl⟩ := map_ok.mp h
  unfold peerSigning at hs
  cases hk : Wg.parseKey s.key with
  | none => rw [hk] at hs; cases hs
  | some wk =>
    rw [hk] at hs
    refine ⟨rfl, fun hn => ?_, fun he => ?_⟩
    · have hb : (PeerRecord.mk s.id s.name wk).bytes = .error (.invalid .peerRecord) := if_pos (.inr hn)
      simp only [hb] at hs
      cases hs
    · rw [he, parseKey_nil] at hk
      cases hk

theorem signSubjects_ok {k : Arr 32} {l : List Subject} {xs : List (Subject × SignPeerRequest)}
    (h : signSubjects E k l = .ok xs) : xs.map (·.1) = l ∧ ∀ s ∈ l, s.name ≠ [] := by
  induction l generalizing xs with
  | nil =>
    cases h
    exact ⟨rfl, fun s hs => absurd hs List.not_mem_nil⟩
  | cons s rest ih =>
    obtain ⟨a, hs, h⟩ := bind_ok.mp h
    obtain ⟨b, hr, h⟩ := bind_ok.mp h
    cases h
    obtain ⟨ha, hn, -⟩ := signSubject_ok hs
    grind

/-- `LockInit` signs the hub and exactly the entries of the netmap last received that the
    client pins, and makes this device the only signer. -/
theorem lockInit_ok {wgPub : Wg.Key → Wg.Key} {d : Daemon} {connected : Bool} {fresh : Arr 32} {r : InitRequest}
    (h : lockInit E wgPub d connected fresh = .ok r) :
    r.record.record.signers ≠ [] ∧
      ∃ offered, d.offered = some offered ∧ r.hub.1.key = offered.hub.publicKey ∧ offered.hub.publicKey ≠ [] ∧
        ∀ s, (∃ x ∈ r.peers, x.1 = s) ↔ ∃ q ∈ offered.peers, skips q = false ∧ ⟨q.id, q.name, q.publicKey⟩ = s := by
  obtain ⟨-, h⟩ := ite_error_ok.mp h
  cases ho : d.offered with
  | none => rw [ho] at h; cases h
  | some offered =>
    rw [ho] at h
    obtain ⟨gen, -, h⟩ := bind_ok.mp h
    obtain ⟨hub, hh, h⟩ := bind_ok.mp h
    obtain ⟨self, -, h⟩ := bind_ok.mp h
    obtain ⟨peers, hp, h⟩ := bind_ok.mp h
    split at h
    · cases h
    · rename_i s hw
      cases h
      obtain ⟨he, -, hk⟩ := signSubject_ok hh
      obtain ⟨hmap, hnamed⟩ := signSubjects_ok hp
      refine ⟨by rw [Record.signWith_ok hw]; exact List.cons_ne_nil _ _, offered, rfl, by rw [he]; rfl, hk, fun s => ?_⟩
      rw [← List.mem_map (f := Prod.fst), hmap]
      unfold initPeers at hnamed ⊢
      rw [List.mem_map]
      refine exists_congr fun q => ?_
      rw [List.mem_filter, and_assoc]
      refine and_congr_right fun hq => and_congr_left fun _ => ?_
      constructor
      · intro hf
        -- an entry without a name would have ended the loop
        have hn : q.name ≠ [] := hnamed ⟨q.id, q.name, q.publicKey⟩ (List.mem_map.mpr ⟨q, List.mem_filter.mpr ⟨hq, hf⟩, rfl⟩)
        simpa [skips, hn] using hf
      · intro hs
        obtain ⟨hv, -, hid, hk⟩ := skips_false hs
        simp [hv, hid, hk]

end

/-! ## Turning the lock on -/

/-- The hub and every entry the client pins have the key pinned for them. -/
def AllPinned (p : Pins) (nm : NetMap) : Prop :=
  (∀ q ∈ nm.peers, skips q = false → p.peers.lookup q.name = some ⟨q.id, q.publicKey⟩) ∧
    (nm.hub.publicKey ≠ [] → p.hub = nm.hub.publicKey)

/-- The device was enrolled with a lock signer and has no record yet. -/
def Daemon.closed (d : Daemon) : Bool := failsClosed d.state.lockSigner d.pins

def Written (d : Daemon) (e : Ev) : Prop := ∀ env nm, e.applies d = some (env, nm) → env.saveOk = true

/-- Runs of a device with the lock off. Writes may fail, save for the one that ends failing
    closed. -/
inductive Unlocked (X : Ext) : Daemon → Prop
  | start {d : Daemon} : d.offered = none → d.held = [] → d.pins.enabled = false → Unlocked X d
  | step {d : Daemon} (e : Ev) : Unlocked X d → Legal X d e → (step X d e).pins.enabled = false →
      (d.closed = true → (step X d e).closed = false → Written d e) → Unlocked X (step X d e)

/-- With nothing held, all of the netmap last received is pinned, unless the device fails
    closed and applied none of it. -/
def OfferedPinned (d : Daemon) : Prop :=
  ∀ nm, d.offered = some nm → d.held = [] → d.closed = false → AllPinned d.pins nm

section

variable {X : Ext} {env : Env} {d : Daemon} {nm : NetMap}

theorem saveFails_false (h : env.saveOk = true) : saveFails X env d nm = false := by
  simp [saveFails, h]

theorem sort_run_nil {l : List HeldStatus} (h : X.sort.run l = []) : l = [] := by
  have hp := X.sort.perm l
  rw [h] at hp
  exact hp.symm.eq_nil

/-- With the lock off after an apply, it was off when the netmap was checked. -/
theorem lockedPins_off (h : (admitMap X env d nm).1.pins.enabled = false) : (lockedPins X d nm).enabled = false := by
  unfold Pins.enabled at h ⊢
  rwa [admit_lock] at h

theorem admit_closed : (admitMap X env d nm).1.closed = failsClosed d.state.lockSigner (lockedPins X d nm) := by
  unfold Daemon.closed failsClosed
  rw [admit_state, (adoptState_keeps _ _).1, admit_lock]

/-- An apply that goes through with the lock off pins what it received, or holds some of it. -/
theorem admit_offeredPinned {applied : NetMap} (h : (admitMap X env d nm).2 = some applied)
    (hoff : (admitMap X env d nm).1.pins.enabled = false) : OfferedPinned (admitMap X env d nm).1 := by
  obtain ⟨ho, hheld, -⟩ := admit_some h
  intro nm' ho' hnil hopen
  rw [ho] at ho'
  cases ho'
  rw [admit_closed] at hopen
  have hnm : (gateOf X env d nm).nm = nm := by
    rw [gateOf_off (lockedPins_off hoff), recordGate_nm, hopen]
    rfl
  have hpass : (passOf X env d nm).held = [] := by
    rw [hheld] at hnil
    exact sort_run_nil (List.append_eq_nil_iff.mp (sort_run_nil hnil)).2
  have hi := passOf_inv X env d nm
  rw [hnm] at hi
  unfold AllPinned
  rw [admit_pins, applySave_peers, applySave_hub]
  refine ⟨fun q hq hskip => ?_, fun hne => ?_⟩
  · rcases hi.rest q hq with hout | ⟨-, h, hh, -⟩
    · rcases (hi.out q hout).2 with hs | hl
      · rw [hs] at hskip
        cases hskip
      · exact hl
    · rw [hpass] at hh
      cases hh
  · rcases hi.outHub with ⟨-, hm⟩ | ⟨-, h, hh, -⟩
    · exact hm hne
    · rw [hpass] at hh
      cases hh

/-- With the lock off an apply leaves every pin there is, written or not. -/
theorem admit_keeps_pinned {nm' : NetMap} (hoff : (admitMap X env d nm).1.pins.enabled = false) (h : AllPinned d.pins nm') :
    AllPinned (admitMap X env d nm).1.pins nm' := by
  have hno : ∀ set, ¬LockOn X env d nm set := by
    rintro set ⟨rec, hl, rfl, hon⟩
    have he := (Pins.enabled_iff _).mpr ⟨rec, hl, hon⟩
    rw [hoff] at he
    cases he
  refine ⟨fun q hq hskip => ?_, fun hne => ?_⟩
  · rcases @admit_peer_pin X env d nm _ _ (h.1 q hq hskip) with hk | ⟨set, hon, -⟩
    · exact hk
    · exact absurd hon (hno set)
  · have hp := h.2 hne
    rcases @admit_hub_pin X env d nm (by rw [hp]; exact hne) with hk | ⟨set, hon, -⟩
    · exact hk.trans hp
    · exact absurd hon (hno set)

/-- With nothing held there is nothing to trust. -/
theorem trustNames_nil (saveOk : Nat → Bool) (names : List Str) (h : d.held = []) : (trustNames saveOk d names).1 = d := by
  unfold trustNames
  cases hs : selectHeld d.held names with
  | error e => rfl
  | ok l =>
    have hl : l = [] := by
      apply List.eq_nil_iff_forall_not_mem.mpr
      intro x hx
      have hm := (selectHeld_mem hs x hx).1
      rw [h] at hm
      cases hm
    subst hl
    unfold selectHeld at hs
    split at hs
    · cases hs
    · rename_i hne
      exact absurd hs hne

theorem Unlocked.offeredPinned (h : Unlocked X d) : OfferedPinned d := by
  induction h with
  | start ho _ _ =>
    intro nm h
    rw [ho] at h
    cases h
  | @step d e _ _ hoff hwritten ih =>
    rcases step_cases X d e with ⟨env, nm, ha, hs⟩ | ⟨saveOk, names, -, hs⟩ | ⟨hpins, hheld, ho, hst⟩
    · rw [hs] at hoff hwritten ⊢
      cases hr : (admitMap X env d nm).2 with
      | some applied => exact admit_offeredPinned hr hoff
      | none =>
        -- not written: the netmap received before stays, and so do its pins
        obtain ⟨ho, hheld⟩ := admit_none hr
        intro nm' ho' hnil hopen
        rw [ho] at ho'
        rw [hheld] at hnil
        cases hc : d.closed with
        | false => exact admit_keeps_pinned hoff (ih nm' ho' hnil hc)
        | true =>
          have hok := hwritten hc hopen env nm ha
          rw [admit_eq, saveFails_false hok] at hr
          cases hr
    · intro nm ho hnil hopen
      have hnil' : d.held = [] := by
        rw [hs, (trustNames_frame saveOk d names).1] at hnil
        exact hnil
      rw [hs, trustNames_nil saveOk names hnil'] at ho hopen ⊢
      exact ih nm ho hnil' hopen
    · unfold OfferedPinned Daemon.closed
      rw [hpins, hheld, ho, hst]
      exact ih

theorem Unlocked.reach (h : Unlocked X d) : Reach X (fun _ => True) d := by
  induction h with
  | start ho hh _ => exact .start ⟨ho, hh⟩
  | step e _ hl _ _ ih => exact .step e ih ⟨fun _ _ _ => trivial, hl⟩ rfl

/-- With the lock off an entry is held for a changed key only. -/
theorem Unlocked.keyChanged (h : Unlocked X d) : ∀ x ∈ d.held, x.reason = .keyChanged := by
  induction h with
  | start _ hh _ =>
    intro x hx
    rw [hh] at hx
    cases hx
  | @step d e _ _ hoff _ ih =>
    rcases step_cases X d e with ⟨env, nm, ha, hs⟩ | ⟨saveOk, names, -, hs⟩ | ⟨-, hheld, -⟩
    · rw [hs] at hoff ⊢
      cases hr : (admitMap X env d nm).2 with
      | none =>
        rw [(admit_none hr).2]
        exact ih
      | some applied =>
        intro x hx
        rw [(admit_some hr).2.1, X.sort.mem_iff, gateOf_off (lockedPins_off hoff), recordGate_held, List.nil_append,
          X.sort.mem_iff] at hx
        exact ((passOf_inv X env d nm).held x hx).1
    · rw [hs, (trustNames_frame saveOk d names).1]
      exact ih
    · rw [hheld]
      exact ih

/-- Every key signed is the one pinned for its name, or for the hub, and is not held. -/
structure SignsPinned (d : Daemon) (r : InitRequest) : Prop where
  hub : r.hub.1.key = d.pins.hub
  hubNotHeld : ∀ h ∈ d.held, ¬(h.name = hubName ∧ h.id = [] ∧ h.offeredKey = r.hub.1.key)
  peer : ∀ x ∈ r.peers, d.pins.peers.lookup x.1.name = some ⟨x.1.id, x.1.key⟩
  peerNotHeld : ∀ x ∈ r.peers, ∀ h ∈ d.held, ¬(h.name = x.1.name ∧ h.id = x.1.id ∧ h.offeredKey = x.1.key)

/-- All of a netmap is pinned and nothing is held: every signature over it is over a pinned
    key. -/
theorem AllPinned.signs {wgPub : Wg.Key → Wg.Key} {connected : Bool} {fresh : Arr 32} {r : InitRequest}
    (h : ∀ nm, d.offered = some nm → AllPinned d.pins nm) (hheld : d.held = [])
    (hr : lockInit X.ed wgPub d connected fresh = .ok r) : SignsPinned d r := by
  obtain ⟨-, offered, ho, hhub, hne, hpeers⟩ := lockInit_ok hr
  obtain ⟨hpin, hpinHub⟩ := h offered ho
  refine ⟨hhub.trans (hpinHub hne).symm, ?_, fun x hx => ?_, fun x _ => ?_⟩
  · rw [hheld]
    exact fun _ hm => absurd hm List.not_mem_nil
  · obtain ⟨q, hq, hskip, he⟩ := (hpeers x.1).mp ⟨x, hx, rfl⟩
    rw [← he]
    exact hpin q hq hskip
  · rw [hheld]
    exact fun _ hm => absurd hm List.not_mem_nil

/-- After a run with the lock off `LockInit` signs only pinned keys exactly when nothing is
    held; a device that fails closed has pinned nothing of what it received, so there all of
    it must have been pinned before. -/
theorem lockInit_signs_pinned_iff {wgPub : Wg.Key → Wg.Key} {connected : Bool} {fresh : Arr 32} {r : InitRequest}
    (h : Unlocked X d) (hr : lockInit X.ed wgPub d connected fresh = .ok r) :
    SignsPinned d r ↔ d.held = [] ∧ (d.closed = true → ∀ nm, d.offered = some nm → AllPinned d.pins nm) := by
  constructor
  · intro hs
    obtain ⟨-, offered, ho, hhub, -, hpeers⟩ := lockInit_ok hr
    refine ⟨List.eq_nil_iff_forall_not_mem.mpr fun x hx => ?_, fun _ nm ho' => ?_⟩
    · -- what is held is in the netmap last received, and all of that is signed
      obtain ⟨nm, ho', hx'⟩ := h.reach.heldFromOffered x hx (h.keyChanged x hx)
      rw [ho] at ho'
      cases ho'
      rcases hx' with ⟨hn, hid, hk⟩ | ⟨q, hq, hskip, hn, hid, hk⟩
      · exact hs.hubNotHeld x hx ⟨hn, hid, hk.trans hhub.symm⟩
      · obtain ⟨y, hy, he⟩ := (hpeers _).mpr ⟨q, hq, hskip, rfl⟩
        refine hs.peerNotHeld y hy x hx ?_
        rw [he]
        exact ⟨hn, hid, hk⟩
    · rw [ho] at ho'
      cases ho'
      refine ⟨fun q hq hskip => ?_, fun _ => hs.hub.symm.trans hhub⟩
      obtain ⟨y, hy, he⟩ := (hpeers _).mpr ⟨q, hq, hskip, rfl⟩
      have hpin := hs.peer y hy
      rwa [he] at hpin
  · rintro ⟨hheld, hclosed⟩
    refine AllPinned.signs (fun nm ho => ?_) hheld hr
    cases hc : d.closed with
    | true => exact hclosed hc nm ho
    | false => exact h.offeredPinned nm ho hheld hc

end

/-! ## A held key is signed -/

/-- A device that knows its id and name, after its first netmap: hub on 5, "pc" on 7. -/
def pcPinned : Daemon :=
  step sample { newDevice with state := { peerID := str "s", name := str "self" } } (.netmap {} (hubAnd "pc" 7))

theorem pcPinned_unlocked : Unlocked sample pcPinned := by
  exact .step (.netmap {} (hubAnd "pc" 7)) (.start rfl rfl rfl) (legal_netmap (by decide +kernel)) (by decide +kernel)
    fun h => nomatch h

/-- What `LockInit` signs on `d` with a new lock key: the hub's key and the peer entries. -/
def signs (d : Daemon) : Option (Str × List Subject) :=
  (lockInit sample.ed id d true (Arr.ofNat 32 1)).toOption.map fun r => (r.hub.1.key, r.peers.map (·.1))

theorem of_signs {d : Daemon} {hub : Str} {peers : List Subject} (h : signs d = some (hub, peers)) :
    ∃ r, lockInit sample.ed id d true (Arr.ofNat 32 1) = .ok r ∧ r.hub.1.key = hub ∧ r.peers.map (·.1) = peers := by
  unfold signs at h
  cases hr : lockInit sample.ed id d true (Arr.ofNat 32 1) with
  | error e => rw [hr] at h; cases h
  | ok r =>
    rw [hr] at h
    cases h
    exact ⟨r, rfl, rfl, rfl⟩

/-- On the device that holds nothing both keys signed are pinned. -/
theorem pcPinned_signs_pinned : ∃ r, lockInit sample.ed id pcPinned true (Arr.ofNat 32 1) = .ok r ∧
    r.peers.map (·.1) = [⟨str "p", str "pc", Wg.keyString (keyNo 7)⟩] ∧ SignsPinned pcPinned r := by
  have hs : signs pcPinned = some (Wg.keyString (keyNo 5), [⟨str "p", str "pc", Wg.keyString (keyNo 7)⟩]) := by
    decide +kernel
  obtain ⟨r, hr, -, hp⟩ := of_signs hs
  have hopen : pcPinned.closed = false := by decide +kernel
  refine ⟨r, hr, hp, (lockInit_signs_pinned_iff pcPinned_unlocked hr).mpr ⟨by decide +kernel, fun hc => ?_⟩⟩
  rw [hopen] at hc
  cases hc

def pcChanged : Ev := .netmap { order := [⟨str "pc", ⟨str "p", Wg.keyString (keyNo 7)⟩⟩] } (hubAnd "pc" 8)

def pcHeld : Daemon := step sample pcPinned pcChanged

theorem pcHeld_unlocked : Unlocked sample pcHeld := by
  have hopen : pcPinned.closed = false := by decide +kernel
  refine .step pcChanged pcPinned_unlocked ?_ (by decide +kernel) fun h => absurd h (by rw [hopen]; decide)
  intro env nm h
  cases h
  decide +kernel

/-- `LockInit` signs the held key, which every other device then takes without a trust. -/
theorem lockInit_signs_a_held_key :
    Unlocked sample pcHeld ∧ pcHeld.pins.enabled = false ∧
      ∃ r, lockInit sample.ed id pcHeld true (Arr.ofNat 32 1) = .ok r ∧
        r.peers.map (·.1) = [⟨str "p", str "pc", Wg.keyString (keyNo 8)⟩] ∧
        pcHeld.pins.peers.lookup (str "pc") = some ⟨str "p", Wg.keyString (keyNo 7)⟩ ∧
        (∃ h ∈ pcHeld.held, h.name = str "pc" ∧ h.id = str "p" ∧ h.offeredKey = Wg.keyString (keyNo 8)) ∧
        ¬SignsPinned pcHeld r := by
  have hs : signs pcHeld = some (Wg.keyString (keyNo 5), [⟨str "p", str "pc", Wg.keyString (keyNo 8)⟩]) := by
    decide +kernel
  have hpin : pcHeld.pins.peers.lookup (str "pc") = some ⟨str "p", Wg.keyString (keyNo 7)⟩ := by decide +kernel
  obtain ⟨r, hr, -, hp⟩ := of_signs hs
  refine ⟨pcHeld_unlocked, by decide +kernel, r, hr, hp, hpin, by decide +kernel, fun h => ?_⟩
  have hmem : (⟨str "p", str "pc", Wg.keyString (keyNo 8)⟩ : Subject) ∈ r.peers.map (·.1) := by
    rw [hp]
    exact List.mem_singleton_self _
  obtain ⟨x, hx, he⟩ := List.mem_map.mp hmem
  have hk := h.peer x hx
  rw [he, hpin] at hk
  revert hk
  decide +kernel

end Thawr.Client
