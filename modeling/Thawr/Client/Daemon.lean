/-
  Thawr.Client.Daemon — how the daemon applies a netmap and trusts held keys
  (`internal/client`: daemon.go, state.go).

  `admitMap` is the critical section of `applyLocked`: the lock record first, then what no
  signer signed, then the pins. `applyConfig` goes on to the WireGuard configuration that
  `Configure` gets. What the outside decides in one call is in `Env`: the clock, the order
  the pins are visited in, whether the file could be written, DNS.

  Proved: with the lock on, every key of a built configuration is signed exactly when the
  netmap has no entry without id or name (`locked_config_signed_iff`). `HoldUnsigned` lets
  such entries pass unsigned (`a_nameless_key_passes_the_lock`).
-/

import Thawr.Client.Pins
import Thawr.Go.Runes

namespace Thawr.Client

open Go Netip Lock

structure State where
  peerID : Str := []
  name : Str := []
  ipv6 : Str := []
  overlayIPv6 : Str := []
  exitNode : Str := []
  exitNodeID : Str := []
  /-- The lock public key given at enrolment, empty without one. -/
  lockSigner : Str := []
  listenPort : Nat := 0
  deriving DecidableEq

def adoptSelfName (st : State) (nm : NetMap) : State :=
  if nm.selfName = [] ∨ nm.selfName = st.name ∨ (nm.selfID ≠ [] ∧ nm.selfID ≠ st.peerID) then st
  else { st with name := nm.selfName }

def adoptSelfIPv6 (st : State) (nm : NetMap) : State := { st with ipv6 := nm.selfIPv6, overlayIPv6 := nm.overlay6 }

/-- `followExitNode`: the first entry that is the chosen exit node settles its name or id. -/
def followExitNode (st : State) : List Peer → State
  | [] => st
  | p :: rest =>
    if st.exitNodeID ≠ [] ∧ p.id = st.exitNodeID then { st with exitNode := p.name }
    else if st.exitNodeID = [] ∧ st.exitNode ≠ [] ∧ p.name = st.exitNode ∧ p.exitNode then { st with exitNodeID := p.id }
    else followExitNode st rest

def adoptState (st : State) (nm : NetMap) : State := adoptSelfIPv6 (followExitNode (adoptSelfName st nm) nm.peers) nm

structure Daemon where
  state : State := {}
  overlay : Prefix := Prefix.none
  key : Wg.Key := Arr.zero 32
  /-- The netmap as applied. -/
  netmap : Option NetMap := none
  /-- The last netmap as received. -/
  offered : Option NetMap := none
  pins : Pins := {}
  held : List HeldStatus := []
  lockKey : PrivateKey := none
  lockRejected : Option Refusal := none
  deriving DecidableEq

structure Ext where
  ed : Ed25519
  sort : HeldSort

structure Env where
  now : Int := 0
  order : List (Σ _ : Str, PinEntry) := []
  saveOk : Bool := true
  resolve : Str → Option AddrPort := fun _ => none

/-! ## Applying a netmap -/

structure Gate where
  pins : Pins
  nm : NetMap
  held : List HeldStatus := []
  rejected : Option Refusal

/-- Enrolled with a lock signer and no record pinned: nothing is applied. -/
def failsClosed (lockSigner : Str) (p : Pins) : Bool := lockSigner != [] && p.lock.isNone

def holdLocked (X : Ext) (now : Int) (prev : List HeldStatus) (g : Gate) : Gate :=
  match g.pins.lock with
  | none => g
  | some s =>
    if s.record.enabled then
      let r := holdUnsigned X.ed g.pins g.nm s.record now prev
      { g with pins := r.1, nm := r.2.1, held := r.2.2 }
    else g

/-- `UpdateLock`, and nothing of the netmap where the device then fails closed. -/
def recordGate (X : Ext) (d : Daemon) (nm : NetMap) : Gate :=
  let u := updateLock X.ed d.pins nm.lock d.state.lockSigner
  if failsClosed d.state.lockSigner u.1 then
    { pins := u.1, nm := { nm with peers := [], hub := {} }, rejected := some (u.2.getD (.waiting d.state.lockSigner)) }
  else { pins := u.1, nm := nm, rejected := u.2 }

/-- The part of `applyLocked` before `Pins.Apply`. -/
def gateOf (X : Ext) (env : Env) (d : Daemon) (nm : NetMap) : Gate := holdLocked X env.now d.held (recordGate X d nm)

/-- `applyLocked` under `mu`: the daemon, and the netmap to configure unless the pins could
    not be written. -/
def admitMap (X : Ext) (env : Env) (d : Daemon) (nm : NetMap) : Daemon × Option NetMap :=
  let st := adoptState d.state nm
  let g := gateOf X env d nm
  match apply X.sort env.order env.saveOk g.pins g.nm env.now d.held with
  | (p, none) => ({ d with state := st, pins := p }, none)
  | (p, some (applied, heldKeys)) =>
    ({ d with state := st, pins := p, offered := some nm, held := X.sort.run (g.held ++ heldKeys)
              lockRejected := g.rejected }, some applied)

inductive ApplyErr where
  /-- `pins.json` could not be written. -/
  | save
  | build (e : BuildErr)
  deriving DecidableEq

/-- `applyLocked` up to `Configure`: the netmap left and the configuration built from it. -/
def applyConfig (X : Ext) (env : Env) (d : Daemon) (nm : NetMap) : Daemon × Except ApplyErr (NetMap × Wg.Config) :=
  match admitMap X env d nm with
  | (d', none) => (d', .error .save)
  | (d', some applied) =>
    match buildConfigWith env.resolve applied d.key d.state.listenPort d.overlay d'.state.exitNodeID with
    | .error e => (d', .error (.build e))
    | .ok cfg => (d', .ok (applied, cfg))

def reapply (X : Ext) (env : Env) (d : Daemon) : Daemon :=
  match d.offered with
  | none => d
  | some nm => (admitMap X env d nm).1

/-! ## Trusting held keys -/

def stripZone (name : Str) : Str := trimSuffix (trimSuffix (toLower (trimSpace name)) (str ".")) (str ".thawr")

inductive TrustErr where
  /-- "client: nothing to trust: %s is not held" -/
  | notHeld (name : Str)
  /-- "client: nothing to trust: %s is unsigned, not merely changed; a signer must run: thawr
      client lock sign %s" -/
  | unsigned (name : Str)
  /-- "client: nothing to trust: no key is held for a changed key" -/
  | nothing
  /-- `pins.json` could not be written. -/
  | save

def selectNames (held : List HeldStatus) : List Str → Except TrustErr (List HeldStatus)
  | [] => .ok []
  | name :: rest =>
    let name := stripZone name
    if name = str "all" then (selectNames held rest).map (held.filter (·.reason != .unsigned) ++ ·)
    else
      match held.find? (·.name == name) with
      | none => .error (.notHeld name)
      | some h => if h.reason = .unsigned then .error (.unsigned name) else (selectNames held rest).map (h :: ·)

def selectHeld (held : List HeldStatus) (names : List Str) : Except TrustErr (List HeldStatus) :=
  match selectNames held names with
  | .ok [] => .error .nothing
  | r => r

/-- `Pins.Trust` of each entry until a write fails; `saveOk i` is how the `i`-th goes. -/
def trustAll (saveOk : Nat → Bool) : Nat → List HeldStatus → Pins → Pins × Bool
  | _, [], p => (p, true)
  | i, h :: rest, p => if saveOk i then trustAll saveOk (i + 1) rest (trust true p h) else (trust false p h, false)

/-- `Daemon.Trust` under `mu`; a `reapply` follows when it succeeds. -/
def trustNames (saveOk : Nat → Bool) (d : Daemon) (names : List Str) : Daemon × Except TrustErr (List HeldStatus) :=
  match selectHeld d.held names with
  | .error e => (d, .error e)
  | .ok accepted =>
    let r := trustAll saveOk 0 accepted d.pins
    ({ d with pins := r.1 }, if r.2 then .ok accepted else .error .save)

/-! ## What an apply does -/

/-- A netmap moves the device's name and exit node, never who it is or whom it trusts. -/
theorem adoptState_keeps (st : State) (nm : NetMap) :
    (adoptState st nm).lockSigner = st.lockSigner ∧ (adoptState st nm).peerID = st.peerID := by
  have hf : ∀ (st : State) (ps : List Peer),
      (followExitNode st ps).lockSigner = st.lockSigner ∧ (followExitNode st ps).peerID = st.peerID := by
    intro st ps
    induction ps with
    | nil => exact ⟨rfl, rfl⟩
    | cons p rest ih =>
      unfold followExitNode
      split_ifs
      · exact ⟨rfl, rfl⟩
      · exact ⟨rfl, rfl⟩
      · exact ih
  have hn : (adoptSelfName st nm).lockSigner = st.lockSigner ∧ (adoptSelfName st nm).peerID = st.peerID := by
    unfold adoptSelfName
    split_ifs
    · exact ⟨rfl, rfl⟩
    · exact ⟨rfl, rfl⟩
  exact ⟨(hf _ _).1.trans hn.1, (hf _ _).2.trans hn.2⟩

section

variable {X : Ext} {env : Env} {d : Daemon} {nm : NetMap}

@[simp] theorem saved_hub (ok : Bool) (p : Pins) : (saved ok p).hub = p.hub := by cases ok <;> rfl
@[simp] theorem saved_peers (ok : Bool) (p : Pins) : (saved ok p).peers = p.peers := by cases ok <;> rfl
@[simp] theorem saved_lock (ok : Bool) (p : Pins) : (saved ok p).lock = p.lock := by cases ok <;> rfl

@[simp] theorem applySave_hub (ok : Bool) (s : Pass) : (applySave ok s).hub = s.pins.hub := by
  unfold applySave; split <;> simp
@[simp] theorem applySave_peers (ok : Bool) (s : Pass) : (applySave ok s).peers = s.pins.peers := by
  unfold applySave; split <;> simp
@[simp] theorem applySave_lock (ok : Bool) (s : Pass) : (applySave ok s).lock = s.pins.lock := by
  unfold applySave; split <;> simp

def passOf (X : Ext) (env : Env) (d : Daemon) (nm : NetMap) : Pass :=
  applyPass env.order (gateOf X env d nm).pins (gateOf X env d nm).nm env.now d.held

theorem passOf_inv (X : Ext) (env : Env) (d : Daemon) (nm : NetMap) :
    ApplyInv env.order (gateOf X env d nm).pins (gateOf X env d nm).nm (gateOf X env d nm).nm.peers
      (passOf X env d nm) := apply_spec

def saveFails (X : Ext) (env : Env) (d : Daemon) (nm : NetMap) : Bool :=
  ((passOf X env d nm).changed || (passOf X env d nm).pins.dirty) && !env.saveOk

theorem admit_eq : admitMap X env d nm =
    if saveFails X env d nm then
      ({ d with state := adoptState d.state nm, pins := applySave env.saveOk (passOf X env d nm) }, none)
    else
      ({ d with
          state := adoptState d.state nm, pins := applySave env.saveOk (passOf X env d nm), offered := some nm
          held := X.sort.run ((gateOf X env d nm).held ++ X.sort.run (passOf X env d nm).held)
          lockRejected := (gateOf X env d nm).rejected },
        some { (gateOf X env d nm).nm with hub := (passOf X env d nm).hub, peers := (passOf X env d nm).peers }) := by
  unfold admitMap apply
  by_cases hs : saveFails X env d nm = true
  · rw [if_pos hs]
    unfold saveFails passOf at hs
    simp only [hs, if_true]
    rfl
  · rw [if_neg hs]
    unfold saveFails passOf at hs
    simp only [hs]
    rfl

theorem admit_pins : (admitMap X env d nm).1.pins = applySave env.saveOk (passOf X env d nm) := by
  rw [admit_eq]
  split <;> rfl

theorem admit_state : (admitMap X env d nm).1.state = adoptState d.state nm := by
  rw [admit_eq]
  split <;> rfl

/-- When the netmap passes, the device keeps it as received together with what it holds. -/
theorem admit_some {applied : NetMap} (h : (admitMap X env d nm).2 = some applied) :
    (admitMap X env d nm).1.offered = some nm ∧
      (admitMap X env d nm).1.held = X.sort.run ((gateOf X env d nm).held ++ X.sort.run (passOf X env d nm).held) ∧
      applied = { (gateOf X env d nm).nm with hub := (passOf X env d nm).hub, peers := (passOf X env d nm).peers } := by
  rw [admit_eq] at h ⊢
  grind

/-- When it does not, what is offered and held stays. -/
theorem admit_none (h : (admitMap X env d nm).2 = none) :
    (admitMap X env d nm).1.offered = d.offered ∧ (admitMap X env d nm).1.held = d.held := by
  rw [admit_eq] at h ⊢
  grind

def lockedPins (X : Ext) (d : Daemon) (nm : NetMap) : Pins := (updateLock X.ed d.pins nm.lock d.state.lockSigner).1

theorem recordGate_pins : (recordGate X d nm).pins = lockedPins X d nm := by
  unfold recordGate
  simp only
  split <;> rfl

theorem recordGate_held : (recordGate X d nm).held = [] := by
  unfold recordGate
  simp only
  split <;> rfl

theorem recordGate_nm : (recordGate X d nm).nm =
    if failsClosed d.state.lockSigner (lockedPins X d nm) then { nm with peers := [], hub := {} } else nm := by
  unfold recordGate lockedPins
  simp only
  split <;> rfl

/-- With the lock on the netmap is what `HoldUnsigned` left of the one received. -/
theorem gateOf_on (env : Env) {rec : Signed} (hl : (lockedPins X d nm).lock = some rec) (hon : rec.record.enabled = true) :
    ∃ s, HoldInv X.ed (lockedPins X d nm) nm rec.record nm.peers s ∧ (gateOf X env d nm).pins = s.pins ∧
      (gateOf X env d nm).held = s.held ∧ (gateOf X env d nm).nm = { nm with hub := s.hub, peers := s.peers } := by
  have hopen : failsClosed d.state.lockSigner (lockedPins X d nm) = false := by simp [failsClosed, hl]
  have hnm : (recordGate X d nm).nm = nm := by rw [recordGate_nm, hopen]; rfl
  refine ⟨holdPass X.ed (lockedPins X d nm) nm rec.record env.now d.held, hold_spec, ?_⟩
  unfold gateOf holdLocked
  simp only [recordGate_pins, hl, hon, if_true, hnm]
  exact ⟨rfl, rfl, rfl⟩

/-- With the lock off the lock holds nothing. -/
theorem gateOf_off (hoff : (lockedPins X d nm).enabled = false) : gateOf X env d nm = recordGate X d nm := by
  unfold gateOf holdLocked
  rw [recordGate_pins]
  unfold Pins.enabled at hoff
  grind

/-- The lock is on and `HoldUnsigned` has run, or only `UpdateLock` has. -/
theorem gateOf_cases (X : Ext) (env : Env) (d : Daemon) (nm : NetMap) :
    (∃ rec, (lockedPins X d nm).lock = some rec ∧ rec.record.enabled = true ∧
      ∃ s, HoldInv X.ed (lockedPins X d nm) nm rec.record nm.peers s ∧ (gateOf X env d nm).pins = s.pins ∧
        (gateOf X env d nm).held = s.held ∧ (gateOf X env d nm).nm = { nm with hub := s.hub, peers := s.peers }) ∨
    gateOf X env d nm = recordGate X d nm := by
  by_cases hon : (lockedPins X d nm).enabled = true
  · obtain ⟨rec, hl, hr⟩ := (Pins.enabled_iff _).mp hon
    exact .inl ⟨rec, hl, hr, gateOf_on env hl hr⟩
  · exact .inr (gateOf_off (by simpa using hon))

/-- Only `UpdateLock` changes the pinned record. -/
theorem gateOf_lock : (gateOf X env d nm).pins.lock = (lockedPins X d nm).lock := by
  rcases gateOf_cases X env d nm with ⟨_, -, -, s, hi, hp, -⟩ | hoff
  · rw [hp, hi.lock]
  · rw [hoff, recordGate_pins]

theorem admit_lock : (admitMap X env d nm).1.pins.lock = (lockedPins X d nm).lock := by
  rw [admit_pins, applySave_lock, (passOf_inv X env d nm).lock, gateOf_lock]

/-! ## With the lock on -/

/-- The key `k` comes from `applied`, and every entry it comes from was in `nm` with a
    signature of `set` over its own (id, name, key), the hub with one over (hub, hub, key). -/
structure KeySigned (E : Ed25519) (set : Record) (nm applied : NetMap) (k : Wg.Key) : Prop where
  source : (∃ q ∈ applied.peers, q.viaHub = false ∧ Wg.parseKey q.publicKey = some k) ∨
    Wg.parseKey applied.hub.publicKey = some k
  peer : ∀ q ∈ applied.peers, q.viaHub = false → Wg.parseKey q.publicKey = some k →
    q ∈ nm.peers ∧ SignedOver E set q.id q.name k q.signatures
  hub : Wg.parseKey applied.hub.publicKey = some k →
    applied.hub = nm.hub ∧ SignedOver E set hubID hubID k nm.hub.signatures

theorem parseKey_nil : Wg.parseKey [] = none := rfl

/-- An entry both loops let pass unlooked at, though a WireGuard peer is built from it. -/
theorem skips_nameless {q : Peer} {k : Wg.Key} (hv : q.viaHub = false) (hk : Wg.parseKey q.publicKey = some k)
    (hs : skips q = true) : q.id = [] ∨ q.name = [] := by
  have hne : q.publicKey ≠ [] := by
    intro he
    rw [he, parseKey_nil] at hk
    cases hk
  simp only [skips, hv, Bool.false_or, Bool.or_eq_true, beq_iff_eq, hne, or_false] at hs
  exact hs.symm

theorem skips_of_nameless {q : Peer} (h : q.id = [] ∨ q.name = []) : skips q = true := by
  rcases h with h | h <;> simp [skips, h]

/-- The netmap that is left holds entries of the netmap received, each skipped or vouched
    for, and all that are skipped. -/
theorem admit_on_peers {rec : Signed} (hl : (admitMap X env d nm).1.pins.lock = some rec) (hon : rec.record.enabled = true)
    {applied : NetMap} (h : (admitMap X env d nm).2 = some applied) :
    (∀ q ∈ applied.peers, q ∈ nm.peers ∧ (skips q = true ∨ Vouched X.ed rec.record q)) ∧
      (∀ q ∈ nm.peers, skips q = true → q ∈ applied.peers) ∧
      (applied.hub.publicKey ≠ [] → applied.hub = nm.hub ∧ VouchedHub X.ed rec.record nm.hub) := by
  obtain ⟨s, hi, -, -, hnm⟩ := gateOf_on env (admit_lock.symm.trans hl) hon
  obtain ⟨-, -, happ⟩ := admit_some h
  have ha := passOf_inv X env d nm
  rw [hnm] at ha
  subst happ
  refine ⟨fun q hq => (hi.out q).mp (ha.out q hq).1, fun q hq hs => ?_, fun hne => ?_⟩
  · rcases ha.rest q ((hi.out q).mpr ⟨hq, .inl hs⟩) with h | ⟨h, _⟩
    · exact h
    · rw [hs] at h
      cases h
  · simp only at hne ⊢
    rcases ha.outHub with ⟨hub, -⟩ | ⟨hub, -⟩
    · rw [hub] at hne ⊢
      rcases hi.outHub with ⟨hh, hv⟩ | hh
      · simp only [hh] at hne ⊢
        exact ⟨trivial, hv hne⟩
      · simp only [hh] at hne
        exact absurd rfl hne
    · rw [hub] at hne
      exact absurd rfl hne

theorem applyConfig_ok {d' : Daemon} {applied : NetMap} {cfg : Wg.Config}
    (h : applyConfig X env d nm = (d', .ok (applied, cfg))) :
    d' = (admitMap X env d nm).1 ∧ (admitMap X env d nm).2 = some applied ∧
      buildConfigWith env.resolve applied d.key d.state.listenPort d.overlay d'.state.exitNodeID = .ok cfg := by
  unfold applyConfig at h
  grind

/-- With the lock on, every key of the configuration is signed exactly when every entry that
    is not reached through the hub has an id and a name. -/
theorem locked_config_signed_iff {d' : Daemon} {applied : NetMap} {cfg : Wg.Config} {rec : Signed}
    (h : applyConfig X env d nm = (d', .ok (applied, cfg))) (hl : d'.pins.lock = some rec)
    (hon : rec.record.enabled = true) :
    (∀ w ∈ cfg.peers, KeySigned X.ed rec.record nm applied w.publicKey) ↔
      ∀ q ∈ nm.peers, q.viaHub = false → q.id ≠ [] ∧ q.name ≠ [] := by
  obtain ⟨rfl, ha, hb⟩ := applyConfig_ok h
  obtain ⟨hout, hskip, hhub⟩ := admit_on_peers hl hon ha
  constructor
  · intro hall q hq hv
    by_contra hn
    have hnl : q.id = [] ∨ q.name = [] := by
      by_contra h'
      exact hn (not_or.mp h')
    have hqa := hskip q hq (skips_of_nameless hnl)
    obtain ⟨k, hk⟩ := buildConfigWith_parses hb q hqa hv
    obtain ⟨w, hw, rfl⟩ := (buildConfigWith_keys hb k).mpr (.inr ⟨q, hqa, hv, hk⟩)
    exact hn ((hall w hw).peer q hqa hv hk).2.named
  · intro hnamed w hw
    refine ⟨?_, fun q hq hv hk => ?_, fun hk => ?_⟩
    · rcases (buildConfigWith_keys hb w.publicKey).mp ⟨w, hw, rfl⟩ with ⟨_, hk⟩ | hq
      · exact .inr hk
      · exact .inl hq
    · obtain ⟨hqm, hs | ⟨k, hk', hsig⟩⟩ := hout q hq
      · obtain ⟨hid, hname⟩ := hnamed q hqm hv
        rcases skips_nameless hv hk hs with h | h
        · exact absurd h hid
        · exact absurd h hname
      · rw [hk] at hk'
        cases hk'
        exact ⟨hqm, hsig⟩
    · have hne : applied.hub.publicKey ≠ [] := by
        intro he
        rw [he, parseKey_nil] at hk
        cases hk
      obtain ⟨he, k, hk', hsig⟩ := hhub hne
      rw [he, hk'] at hk
      cases hk
      exact ⟨he, hsig⟩

end

/-! ## A key nobody signed -/

def sample : Ext := ⟨Ed25519.sample, SliceSort.byText _⟩

def keyNo (n : Nat) : Wg.Key := Arr.ofNat 32 n

def oneSigner : Record := ⟨1, false, [⟨Arr.ofNat 32 1, str "a"⟩]⟩

def peerSignature (k : Nat) (id name : Str) (key : Wg.Key) : PeerSignature :=
  ⟨text (Arr.ofNat 32 k : PublicKey),
    text (Ed25519.sample.sign (Arr.ofNat 32 k) ((PeerRecord.mk id name key).bytes.toOption.getD []))⟩

def lockedDevice : Daemon := { pins := { lock := some (signedNo 1 oneSigner) }, overlay := prefixFrom (.v4 (Arr.zero 4)) 8 }

def mapOf (peers : List Peer) : NetMap :=
  { selfIPv4 := str "10.0.0.1", lock := some (signedNo 1 oneSigner), peers := peers }

/-- What an entry with key `n` and no prefixes of its own becomes. -/
def configOf (n : Nat) : Wg.Config :=
  { privateKey := Arr.zero 32, listenPort := 0, addresses := [prefixFrom (.v4 (Arr.ofNat 4 0x0a000001)) 8]
    peers := [{ publicKey := keyNo n, allowedIPs := [prefixFrom (.v4 (Arr.ofNat 4 0x0a000007)) 32] }] }

def signedPeer : Peer :=
  { id := str "p", name := str "pc", publicKey := Wg.keyString (keyNo 7), ipv4 := str "10.0.0.7"
    signatures := [peerSignature 1 (str "p") (str "pc") (keyNo 7)] }

theorem signedPeer_config : (configOf 7).peers ≠ [] ∧
    ∀ w ∈ (configOf 7).peers, KeySigned sample.ed oneSigner (mapOf [signedPeer]) (mapOf [signedPeer]) w.publicKey := by
  have h : applyConfig sample {} lockedDevice (mapOf [signedPeer]) =
      ((applyConfig sample {} lockedDevice (mapOf [signedPeer])).1, .ok (mapOf [signedPeer], configOf 7)) := by
    decide +kernel
  have hl : (applyConfig sample {} lockedDevice (mapOf [signedPeer])).1.pins.lock = some (signedNo 1 oneSigner) := by
    decide +kernel
  refine ⟨by decide, (locked_config_signed_iff h hl rfl).mpr ?_⟩
  intro q hq _
  rw [List.mem_singleton.mp hq]
  decide

def nameless : Peer := { id := str "p", publicKey := Wg.keyString (keyNo 7), ipv4 := str "10.0.0.7" }

/-- The lock is on and the netmap carries no signature, yet its key is configured. -/
theorem a_nameless_key_passes_the_lock :
    ∃ d', applyConfig sample {} lockedDevice (mapOf [nameless]) = (d', .ok (mapOf [nameless], configOf 7)) ∧
      d'.pins.lock = some (signedNo 1 oneSigner) ∧ oneSigner.enabled = true ∧
      (∀ q ∈ (mapOf [nameless]).peers, q.signatures = []) ∧ (mapOf [nameless]).hub.signatures = [] ∧
      ∃ w ∈ (configOf 7).peers, ¬KeySigned sample.ed oneSigner (mapOf [nameless]) (mapOf [nameless]) w.publicKey := by
  refine ⟨(applyConfig sample {} lockedDevice (mapOf [nameless])).1, by decide +kernel, by decide +kernel, rfl, ?_, rfl,
    _, List.mem_singleton_self _, fun h => ?_⟩
  · intro q hq
    rw [List.mem_singleton.mp hq]
    rfl
  · obtain ⟨-, s, hs, -⟩ := h.peer nameless (List.mem_singleton_self _) rfl (by decide +kernel)
    cases hs

end Thawr.Client
