/-
  Thawr.Client.Pins — the keys a device has accepted (`internal/client/pins.go`).

  `apply` pins names it sees for the first time and holds entries whose id or key is not the
  pinned one; with the network lock on, `holdUnsigned` runs first, holds what no signer
  signed and accepts what one did. `updateLock` decides which lock record is pinned.

  `Pins.file` is the content of `pins.json`; the JSON encoding is taken to be lossless. A
  save either replaces the file or leaves it (`saveOk`).

  Proved, one lemma per function, which the runs are built on:
  - `updateLock_cases`: an offer leaves the pins as they are, or `lock.Accept` took it.
  - `hold_spec`: what passes `holdUnsigned` is signed, or an entry it does not look at.
  - `apply_spec`: pinned names keep their pins, what passes matches its pin.
-/

import Thawr.Client.NetMap

namespace Thawr.Client

open Go Netip Lock

/-- The hub's name among the pins and in the held list; no peer may take it. -/
def hubName : Str := str "hub"

structure PinEntry where
  id : Str
  key : Str
  deriving DecidableEq

structure PinFile where
  hub : Str
  peers : GoMap Str PinEntry
  lock : Option Signed
  deriving DecidableEq

structure Pins where
  hub : Str := []
  peers : GoMap Str PinEntry := ∅
  lock : Option Signed := none
  /-- The set in memory is ahead of the file. -/
  dirty : Bool := false
  file : Option PinFile := none
  deriving DecidableEq

inductive Reason where
  | keyChanged
  | unsigned
  deriving DecidableEq

structure HeldStatus where
  name : Str
  ipv4 : Str := []
  kind : Str := []
  owner : Str := []
  pinnedKey : Str
  offeredKey : Str
  since : Int
  reason : Reason
  /-- The offered peer id; empty for the hub. -/
  id : Str := []
  deriving DecidableEq

/-- The order `sort.Slice` puts a held list in. -/
abbrev HeldSort := SliceSort fun a b : HeldStatus => decide (a.name < b.name)

/-! ## The file -/

inductive LoadErr where
  /-- "entry %q is incomplete" -/
  | incomplete (name : Str)
  /-- "lock record: %w" -/
  | lockRecord (e : Err)

section

variable (E : Ed25519)

def incomplete (name : Str) (e : PinEntry) : Prop := name = [] ∨ e.id = [] ∨ e.key = []

instance (name : Str) (e : PinEntry) : Decidable (incomplete name e) := inferInstanceAs (Decidable (_ ∨ _))

/-- `LoadPins`; `order` is how the loop visits the file's entries. -/
def loadPins (order : List (Σ _ : Str, PinEntry)) : Option PinFile → Except LoadErr Pins
  | none => .ok {}
  | some f =>
    match order.find? fun x => decide (incomplete x.1 x.2) with
    | some x => .error (.incomplete x.1)
    | none =>
      match f.lock with
      | none => .ok { hub := f.hub, peers := f.peers, lock := none, file := some f }
      | some s =>
        match accept E none s with
        | .error e => .error (.lockRecord e)
        | .ok _ => .ok { hub := f.hub, peers := f.peers, lock := some s, file := some f }

/-- Setting `dirty`, `save`, and clearing `dirty` when it worked. -/
def saved (saveOk : Bool) (p : Pins) : Pins :=
  if saveOk then { p with dirty := false, file := some ⟨p.hub, p.peers, p.lock⟩ } else { p with dirty := true }

/-! ## The lock record -/

/-- Why an offered lock record was not adopted. -/
inductive Refusal where
  /-- "server offers no lock record; keeping the pinned one" -/
  | noneOffered
  /-- "first record (generation %d) refused: %v" -/
  | firstInvalid (generation : UInt64) (e : Err)
  /-- "first record (generation %d) refused: it lists the signer %s given at enrolment but is
      signed by %s", with the last listed key that verifies, or an unlisted one -/
  | firstSignedBy (generation : UInt64) (expected : Str) (signer : Option PublicKey)
  /-- "first record (generation %d) refused: it does not name the signer %s given at enrolment" -/
  | firstUnnamed (generation : UInt64) (expected : Str)
  /-- "offered record (generation %d) refused: %v" -/
  | refused (generation : UInt64) (e : Err)
  /-- "waiting for a lock record signed by %s; nothing is applied until it arrives" -/
  | waiting (signer : Str)
  deriving DecidableEq

/-- `matchesLockKey`: `given` is `key` in full base64. -/
def matchesLockKey (key : PublicKey) (given : Str) : Bool := parsePublicKey (trimSpace given) == some key

/-- `firstRecordBy`: the first listed key that is the expected one must have signed. -/
def firstRecordBy (offered : Signed) (expected : Str) : Option Refusal :=
  let r := offered.record
  match r.bytes with
  | .error e => some (.firstInvalid r.generation e)
  | .ok msg =>
    match r.signers.find? fun s => matchesLockKey s.key expected with
    | none => some (.firstUnnamed r.generation expected)
    | some s =>
      if E.verify s.key msg offered.signature then none
      else some (.firstSignedBy r.generation expected
        ((r.signers.reverse.find? fun o => E.verify o.key msg offered.signature).map (·.key)))

/-- `UpdateLock`, and why the offer was not adopted (`none` when it was, or when nothing
    changed). -/
def updateLock (p : Pins) (offered : Option Signed) (expected : Str) : Pins × Option Refusal :=
  match offered, p.lock with
  | none, none => (p, none)
  | none, some _ => (p, some .noneOffered)
  | some o, some cur =>
    if cur.record.generation = o.record.generation ∧ cur.signature = o.signature then (p, none)
    else
      match accept E (some cur.record) o with
      | .error e => (p, some (.refused o.record.generation e))
      | .ok _ => ({ p with lock := some o, dirty := true }, none)
  | some o, none =>
    match if expected ≠ [] then firstRecordBy E o expected else none with
    | some r => (p, some r)
    | none =>
      match accept E none o with
      | .error e => (p, some (.refused o.record.generation e))
      | .ok _ => ({ p with lock := some o, dirty := true }, none)

def Pins.enabled (p : Pins) : Bool := p.lock.any fun s => s.record.enabled

def setLock (saveOk : Bool) (p : Pins) (s : Signed) : Pins := saved saveOk { p with lock := some s }

/-! ## Holding what no signer signed -/

/-- `signedBy`: one of `sigs` is a signature by a key of `set` over (id, name, key). -/
def signedBy (set : Record) (id name key : Str) (sigs : List PeerSignature) : Bool :=
  match Wg.parseKey key with
  | none => false
  | some wk =>
    match (PeerRecord.mk id name wk).bytes with
    | .error _ => false
    | .ok msg => sigs.any fun s =>
      match parsePublicKey s.signer, parseSignature s.signature with
      | some signer, some sig => set.has signer && E.verify signer msg sig
      | _, _ => false

def hubAddr (nm : NetMap) : Str :=
  ((nm.hub.allowedIPs.findSome? fun a => (parsePrefix a).bind fun p => if p.bits = 32 then some p.ip.string else none)).getD []

/-- `Pins.Accept`: the lock's signers vouched for the key. -/
def acceptPin (p : Pins) (name id key : Str) : Pins :=
  if name = hubName then
    if p.hub ≠ key then { p with hub := key, dirty := true } else p
  else if (p.peers.lookup name).getD ⟨[], []⟩ ≠ ⟨id, key⟩ then
    { p with peers := p.peers.insert name ⟨id, key⟩, dirty := true }
  else p

/-- Entries neither loop looks at: they pass as they are. -/
def skips (q : Peer) : Bool := q.viaHub || q.name == [] || q.id == [] || q.publicKey == []

/-- What a loop over a netmap has made so far: the pins, whether `Apply` changed them, the
    hub and the entries that pass, the entries held. -/
structure Pass where
  pins : Pins
  changed : Bool := false
  hub : HubPeer
  peers : List Peer := []
  held : List HeldStatus := []

def sinceOf (prev : List HeldStatus) (now : Int) (name offered : Str) (reason : Option Reason) : Int :=
  ((prev.find? fun h => h.name == name && h.offeredKey == offered && reason.all (· == h.reason)).map (·.since)).getD now

def heldHub (nm : NetMap) (pinnedKey : Str) (since : Int) (reason : Reason) : HeldStatus :=
  { name := hubName, ipv4 := hubAddr nm, kind := str "server", pinnedKey := pinnedKey, offeredKey := nm.hub.publicKey
    since := since, reason := reason }

def heldPeer (q : Peer) (pinnedKey : Str) (since : Int) (reason : Reason) : HeldStatus :=
  { name := q.name, ipv4 := q.ipv4, kind := q.kind, owner := q.owner, pinnedKey := pinnedKey, offeredKey := q.publicKey
    since := since, reason := reason, id := q.id }

def holdHub (p : Pins) (nm : NetMap) (set : Record) (now : Int) (prev : List HeldStatus) : Pass :=
  if nm.hub.publicKey = [] then { pins := p, hub := nm.hub }
  else if signedBy E set hubID hubID nm.hub.publicKey nm.hub.signatures then
    { pins := acceptPin p hubName [] nm.hub.publicKey, hub := nm.hub }
  else
    { pins := p, hub := {}
      held := [heldHub nm p.hub (sinceOf prev now hubName nm.hub.publicKey (some .unsigned)) .unsigned] }

def holdEntry (set : Record) (now : Int) (prev : List HeldStatus) (s : Pass) (q : Peer) : Pass :=
  if skips q then { s with peers := s.peers ++ [q] }
  else if signedBy E set q.id q.name q.publicKey q.signatures then
    { s with pins := acceptPin s.pins q.name q.id q.publicKey, peers := s.peers ++ [q] }
  else
    { s with held := s.held ++ [heldPeer q ((s.pins.peers.lookup q.name).map (·.key) |>.getD [])
        (sinceOf prev now q.name q.publicKey (some .unsigned)) .unsigned] }

def holdPass (p : Pins) (nm : NetMap) (set : Record) (now : Int) (prev : List HeldStatus) : Pass :=
  nm.peers.foldl (holdEntry E set now prev) (holdHub E p nm set now prev)

/-- `HoldUnsigned`: the pins, the netmap left and the held entries. -/
def holdUnsigned (p : Pins) (nm : NetMap) (set : Record) (now : Int) (prev : List HeldStatus) :
    Pins × NetMap × List HeldStatus :=
  let s := holdPass E p nm set now prev
  (s.pins, { nm with hub := s.hub, peers := s.peers }, s.held)

end

/-! ## Checking a netmap against the pins -/

def applyHub (p : Pins) (nm : NetMap) (now : Int) (prev : List HeldStatus) : Pass :=
  if nm.hub.publicKey = [] then { pins := p, hub := nm.hub }
  else if p.hub = [] then { pins := { p with hub := nm.hub.publicKey }, changed := true, hub := nm.hub }
  else if p.hub = nm.hub.publicKey then { pins := p, hub := nm.hub }
  else
    { pins := p, hub := {}
      held := [heldHub nm p.hub (sinceOf prev now hubName nm.hub.publicKey none) .keyChanged] }

/-- The pin `byID` holds for an id: of several names the one visited last. -/
def movedPin (order : List (Σ _ : Str, PinEntry)) (id : Str) : Option PinEntry :=
  (order.reverse.find? fun x => x.2.id == id).map (·.2)

/-- The pin an entry is checked against: that of its name; for a new name the one that
    travels with its id, else its own. -/
def pinFor (order : List (Σ _ : Str, PinEntry)) (p : Pins) (q : Peer) : PinEntry :=
  match p.peers.lookup q.name with
  | some pin => pin
  | none => (movedPin order q.id).getD ⟨q.id, q.publicKey⟩

def pinName (order : List (Σ _ : Str, PinEntry)) (s : Pass) (q : Peer) : Pass :=
  match s.pins.peers.lookup q.name with
  | some _ => s
  | none => { s with pins := { s.pins with peers := s.pins.peers.insert q.name (pinFor order s.pins q) }, changed := true }

def applyEntry (order : List (Σ _ : Str, PinEntry)) (now : Int) (prev : List HeldStatus) (s : Pass) (q : Peer) : Pass :=
  if skips q then { s with peers := s.peers ++ [q] }
  else
    let pin := pinFor order s.pins q
    let s := pinName order s q
    if pin = ⟨q.id, q.publicKey⟩ then { s with peers := s.peers ++ [q] }
    else { s with held := s.held ++ [heldPeer q pin.key (sinceOf prev now q.name q.publicKey none) .keyChanged] }

def applyPass (order : List (Σ _ : Str, PinEntry)) (p : Pins) (nm : NetMap) (now : Int) (prev : List HeldStatus) : Pass :=
  nm.peers.foldl (applyEntry order now prev) (applyHub p nm now prev)

/-- The pins after `Apply` has written them, if there was something to write. -/
def applySave (saveOk : Bool) (s : Pass) : Pins := if s.changed || s.pins.dirty then saved saveOk s.pins else s.pins

/-- `Apply`: the pins, and the netmap to apply with the held list unless the write failed.
    `order` is how the first loop visits the pins. -/
def apply (S : HeldSort) (order : List (Σ _ : Str, PinEntry)) (saveOk : Bool) (p : Pins) (nm : NetMap) (now : Int)
    (prev : List HeldStatus) : Pins × Option (NetMap × List HeldStatus) :=
  let s := applyPass order p nm now prev
  (applySave saveOk s,
    if (s.changed || s.pins.dirty) && !saveOk then none
    else some ({ nm with hub := s.hub, peers := s.peers }, S.run s.held))

def trust (saveOk : Bool) (p : Pins) (h : HeldStatus) : Pins :=
  saved saveOk (if h.name = hubName then { p with hub := h.offeredKey }
    else { p with peers := p.peers.insert h.name ⟨h.id, h.offeredKey⟩ })

/-! ## What `UpdateLock` can do -/

theorem Pins.enabled_iff (p : Pins) : p.enabled = true ↔ ∃ rec, p.lock = some rec ∧ rec.record.enabled = true := by
  unfold Pins.enabled
  cases p.lock <;> simp

section

variable {E : Ed25519}

/-- The offer `o` is taken: `lock.Accept` passes it against the pin, and a first record is
    signed by the signer given at enrolment, if one was. -/
structure Adopts (E : Ed25519) (p : Pins) (o : Signed) (expected : Str) : Prop where
  accepted : accept E (p.lock.map (·.record)) o = .ok ()
  first : p.lock = none → expected ≠ [] → firstRecordBy E o expected = none

/-- An offer leaves the pins as they are, or it is adopted. -/
theorem updateLock_cases (p : Pins) (offered : Option Signed) (expected : Str) :
    (updateLock E p offered expected).1 = p ∨
      ∃ o, offered = some o ∧ updateLock E p offered expected = ({ p with lock := some o, dirty := true }, none) ∧
        Adopts E p o expected := by
  cases offered with
  | none =>
    left
    unfold updateLock
    cases p.lock <;> rfl
  | some o =>
    cases hl : p.lock with
    | none =>
      cases hf : (if expected ≠ [] then firstRecordBy E o expected else none) with
      | some r => left; simp only [updateLock, hl, hf]
      | none =>
        cases ha : accept E none o with
        | error e => left; simp only [updateLock, hl, hf, ha]
        | ok _ =>
          right
          refine ⟨o, rfl, by simp only [updateLock, hl, hf, ha], by rw [hl]; exact ha, ?_⟩
          intro _ he
          rwa [if_pos he] at hf
    | some cur =>
      by_cases hsame : cur.record.generation = o.record.generation ∧ cur.signature = o.signature
      · left; simp only [updateLock, hl, if_pos hsame]
      · cases ha : accept E (some cur.record) o with
        | error e => left; simp only [updateLock, hl, if_neg hsame, ha]
        | ok _ =>
          right
          refine ⟨o, rfl, by simp only [updateLock, hl, if_neg hsame, ha], by rw [hl]; exact ha, ?_⟩
          intro hn
          rw [hl] at hn
          cases hn

/-- A refusal comes with unchanged pins. -/
theorem updateLock_refused {p : Pins} {offered : Option Signed} {expected : Str}
    (h : (updateLock E p offered expected).2 ≠ none) : (updateLock E p offered expected).1 = p := by
  rcases updateLock_cases (E := E) p offered expected with hp | ⟨o, _, he, _⟩
  · exact hp
  · rw [he] at h
    exact absurd rfl h

end

/-! ## What the two loops do -/

def Offers (h : HeldStatus) (q : Peer) : Prop := h.name = q.name ∧ h.id = q.id ∧ h.offeredKey = q.publicKey

def OffersHub (h : HeldStatus) (nm : NetMap) : Prop := h.name = hubName ∧ h.id = [] ∧ h.offeredKey = nm.hub.publicKey

/-- `sigs` holds a signature over (id, name, key) by a key that `set` lists. -/
def SignedOver (E : Ed25519) (set : Record) (id name : Str) (key : Wg.Key) (sigs : List PeerSignature) : Prop :=
  ∃ s ∈ sigs, ∃ signer sig msg, parsePublicKey s.signer = some signer ∧ parseSignature s.signature = some sig ∧
    (∃ x ∈ set.signers, x.key = signer) ∧ (PeerRecord.mk id name key).bytes = .ok msg ∧ E.verify signer msg sig = true

/-- `q` carries a signature of `set` over its own (id, name, key). -/
def Vouched (E : Ed25519) (set : Record) (q : Peer) : Prop :=
  ∃ k, Wg.parseKey q.publicKey = some k ∧ SignedOver E set q.id q.name k q.signatures

def VouchedHub (E : Ed25519) (set : Record) (hub : HubPeer) : Prop :=
  ∃ k, Wg.parseKey hub.publicKey = some k ∧ SignedOver E set hubID hubID k hub.signatures

theorem signedBy_iff (E : Ed25519) (set : Record) (id name key : Str) (sigs : List PeerSignature) :
    signedBy E set id name key sigs = true ↔
      ∃ k, Wg.parseKey key = some k ∧ SignedOver E set id name k sigs := by
  unfold signedBy
  cases hk : Wg.parseKey key with
  | none => simp
  | some k =>
    simp only [Option.some.injEq, exists_eq_left']
    unfold SignedOver
    cases hm : (PeerRecord.mk id name k).bytes with
    | error e => simp
    | ok msg =>
      simp only [List.any_eq_true, Except.ok.injEq]
      refine exists_congr fun s => and_congr_right fun _ => ?_
      cases hp : parsePublicKey s.signer with
      | none => simp
      | some signer =>
        cases hg : parseSignature s.signature with
        | none => simp
        | some sig =>
          simp only [Option.some.injEq, Bool.and_eq_true, Record.has, List.any_eq_true, beq_iff_eq]
          grind

/-- A record without id or name has no canonical bytes, so nothing signs it. -/
theorem SignedOver.named {E : Ed25519} {set : Record} {id name : Str} {key : Wg.Key} {sigs : List PeerSignature}
    (h : SignedOver E set id name key sigs) : id ≠ [] ∧ name ≠ [] := by
  obtain ⟨_, _, _, _, _, _, _, _, hm, _⟩ := h
  unfold PeerRecord.bytes at hm
  grind

theorem acceptPin_lock (p : Pins) (name id key : Str) : (acceptPin p name id key).lock = p.lock := by
  unfold acceptPin; split_ifs <;> rfl

theorem acceptPin_file (p : Pins) (name id key : Str) : (acceptPin p name id key).file = p.file := by
  unfold acceptPin; split_ifs <;> rfl

/-- `Accept` of a peer name pins it; of the hub's name it leaves the peers alone. -/
theorem acceptPin_peers (p : Pins) (name id key n : Str) :
    (acceptPin p name id key).peers.lookup n = p.peers.lookup n ∨
      n = name ∧ name ≠ hubName ∧ (acceptPin p name id key).peers.lookup n = some ⟨id, key⟩ := by
  unfold acceptPin
  split_ifs with hn hk hk
  · exact .inl rfl
  · exact .inl rfl
  · by_cases h : n = name
    · subst h
      exact .inr ⟨rfl, hn, Finmap.lookup_insert _⟩
    · exact .inl (Finmap.lookup_insert_of_ne _ h)
  · exact .inl rfl

theorem acceptPin_hub (p : Pins) (name id key : Str) :
    (acceptPin p name id key).hub = p.hub ∨ name = hubName ∧ (acceptPin p name id key).hub = key := by
  unfold acceptPin
  grind

theorem acceptPin_clean {p : Pins} {name id key : Str} (h : (acceptPin p name id key).dirty = false) :
    acceptPin p name id key = p := by
  unfold acceptPin at h ⊢
  split_ifs at h ⊢
  · rfl
  · rfl

structure HoldInv (E : Ed25519) (p : Pins) (nm : NetMap) (set : Record) (l : List Peer) (s : Pass) : Prop where
  lock : s.pins.lock = p.lock
  file : s.pins.file = p.file
  clean : s.pins.dirty = false → s.pins = p
  outHub : s.hub = nm.hub ∧ (nm.hub.publicKey ≠ [] → VouchedHub E set nm.hub) ∨ s.hub = {}
  out : ∀ q, q ∈ s.peers ↔ q ∈ l ∧ (skips q = true ∨ Vouched E set q)
  held : ∀ h ∈ s.held, h.reason = .unsigned
  peers : ∀ n, s.pins.peers.lookup n = p.peers.lookup n ∨
    ∃ q ∈ nm.peers, skips q = false ∧ q.name = n ∧ Vouched E set q ∧ s.pins.peers.lookup n = some ⟨q.id, q.publicKey⟩
  hub : s.pins.hub = p.hub ∨ (nm.hub.publicKey ≠ [] ∧ VouchedHub E set nm.hub ∧ s.pins.hub = nm.hub.publicKey) ∨
    ∃ q ∈ nm.peers, skips q = false ∧ q.name = hubName ∧ Vouched E set q ∧ s.pins.hub = q.publicKey

section

variable {E : Ed25519} {p : Pins} {nm : NetMap} {set : Record} {now : Int} {prev : List HeldStatus}

theorem holdHub_inv : HoldInv E p nm set [] (holdHub E p nm set now prev) := by
  unfold holdHub
  split_ifs with hk hs
  · exact ⟨rfl, rfl, fun _ => rfl, .inl ⟨rfl, fun h => absurd hk h⟩, by simp, by simp, fun _ => .inl rfl, .inl rfl⟩
  · have hv : VouchedHub E set nm.hub := (signedBy_iff _ _ _ _ _ _).mp hs
    refine ⟨acceptPin_lock _ _ _ _, acceptPin_file _ _ _ _, acceptPin_clean, .inl ⟨rfl, fun _ => hv⟩, by simp, by simp,
      fun n => ?_, ?_⟩
    · rcases acceptPin_peers p hubName [] nm.hub.publicKey n with h | ⟨_, h, _⟩
      · exact .inl h
      · exact absurd rfl h
    · rcases acceptPin_hub p hubName [] nm.hub.publicKey with h | ⟨_, h⟩
      · exact .inl h
      · exact .inr (.inl ⟨hk, hv, h⟩)
  · refine ⟨rfl, rfl, fun _ => rfl, .inr rfl, by simp, fun h hh => ?_, fun _ => .inl rfl, .inl rfl⟩
    rw [List.mem_singleton.mp hh]
    rfl

/-- The entries let through, after one more of which `keep` says whether it is. -/
theorem mem_snoc_filter {l out : List Peer} {P : Peer → Prop} (h : ∀ r, r ∈ out ↔ r ∈ l ∧ P r) (q r : Peer) :
    (P q → (r ∈ out ++ [q] ↔ r ∈ l ++ [q] ∧ P r)) ∧ (¬P q → (r ∈ out ↔ r ∈ l ++ [q] ∧ P r)) := by
  simp only [List.mem_append, List.mem_singleton, h r]
  grind

theorem holdEntry_inv {l : List Peer} {s : Pass} {q : Peer} (hq : q ∈ nm.peers) (hi : HoldInv E p nm set l s) :
    HoldInv E p nm set (l ++ [q]) (holdEntry E set now prev s q) := by
  unfold holdEntry
  split_ifs with hskip hs
  · exact { hi with out := fun r => (mem_snoc_filter hi.out q r).1 (.inl hskip) }
  · have hskip' : skips q = false := by simpa using hskip
    have hv : Vouched E set q := (signedBy_iff _ _ _ _ _ _).mp hs
    refine ⟨(acceptPin_lock _ _ _ _).trans hi.lock, (acceptPin_file _ _ _ _).trans hi.file, fun h => ?_, hi.outHub,
      fun r => (mem_snoc_filter hi.out q r).1 (.inr hv), hi.held, fun n => ?_, ?_⟩
    · have he := acceptPin_clean h
      simp only [he] at h ⊢
      exact hi.clean h
    · rcases acceptPin_peers s.pins q.name q.id q.publicKey n with h | ⟨hn, _, h⟩
      · simp only [h]
        exact hi.peers n
      · exact .inr ⟨q, hq, hskip', hn.symm, hv, h⟩
    · rcases acceptPin_hub s.pins q.name q.id q.publicKey with h | ⟨hn, h⟩
      · simp only [h]
        exact hi.hub
      · exact .inr (.inr ⟨q, hq, hskip', hn, hv, h⟩)
  · refine { hi with out := fun r => (mem_snoc_filter hi.out q r).2 ?_, held := fun h hh => ?_ }
    · rintro (h | h)
      · exact hskip h
      · exact hs ((signedBy_iff _ _ _ _ _ _).mpr h)
    · rcases List.mem_append.mp hh with hh | hh
      · exact hi.held h hh
      · rw [List.mem_singleton.mp hh]
        rfl

theorem hold_spec : HoldInv E p nm set nm.peers (holdPass E p nm set now prev) :=
  loop_inv holdHub_inv fun _ _ _ hq hi => holdEntry_inv hq hi

end

structure ApplyInv (order : List (Σ _ : Str, PinEntry)) (p : Pins) (nm : NetMap) (l : List Peer) (s : Pass) : Prop where
  lock : s.pins.lock = p.lock
  file : s.pins.file = p.file
  dirty : s.pins.dirty = p.dirty
  same : s.changed = false → s.pins = p
  hub : s.pins.hub = if p.hub = [] then nm.hub.publicKey else p.hub
  outHub : s.hub = nm.hub ∧ (nm.hub.publicKey ≠ [] → s.pins.hub = nm.hub.publicKey) ∨
    s.hub = {} ∧ ∃ h ∈ s.held, OffersHub h nm
  known : ∀ n e, p.peers.lookup n = some e → s.pins.peers.lookup n = some e
  fresh : ∀ n e, s.pins.peers.lookup n = some e → p.peers.lookup n = some e ∨
    ∃ q ∈ nm.peers, skips q = false ∧ q.name = n ∧ (e = ⟨q.id, q.publicKey⟩ ∨ ∃ m, ⟨m, e⟩ ∈ order)
  out : ∀ q ∈ s.peers, q ∈ nm.peers ∧ (skips q = true ∨ s.pins.peers.lookup q.name = some ⟨q.id, q.publicKey⟩)
  rest : ∀ q ∈ l, q ∈ s.peers ∨ skips q = false ∧ ∃ h ∈ s.held, Offers h q
  held : ∀ h ∈ s.held, h.reason = .keyChanged ∧
    (nm.hub.publicKey ≠ [] ∧ OffersHub h nm ∨ ∃ q ∈ nm.peers, skips q = false ∧ Offers h q)

section

variable {order : List (Σ _ : Str, PinEntry)} {p : Pins} {nm : NetMap} {now : Int} {prev : List HeldStatus}

theorem applyHub_inv : ApplyInv order p nm [] (applyHub p nm now prev) := by
  unfold applyHub
  split_ifs with hk hp he
  · refine ⟨rfl, rfl, rfl, fun _ => rfl, ?_, .inl ⟨rfl, fun h => absurd hk h⟩, fun _ _ h => h, fun _ _ h => .inl h, by simp,
      by simp, by simp⟩
    by_cases hp : p.hub = []
    · rw [if_pos hp, hk]
      exact hp
    · rw [if_neg hp]
  · exact ⟨rfl, rfl, rfl, fun h => absurd h (by simp), by rw [if_pos hp], .inl ⟨rfl, fun _ => rfl⟩, fun _ _ h => h,
      fun _ _ h => .inl h, by simp, by simp, by simp⟩
  · exact ⟨rfl, rfl, rfl, fun _ => rfl, by rw [if_neg hp], .inl ⟨rfl, fun _ => he⟩, fun _ _ h => h, fun _ _ h => .inl h,
      by simp, by simp, by simp⟩
  · refine ⟨rfl, rfl, rfl, fun _ => rfl, by rw [if_neg hp], .inr ⟨rfl, _, List.mem_singleton_self _, rfl, rfl, rfl⟩,
      fun _ _ h => h, fun _ _ h => .inl h, by simp, by simp, fun h hh => ?_⟩
    rw [List.mem_singleton.mp hh]
    exact ⟨rfl, .inl ⟨hk, rfl, rfl, rfl⟩⟩

/-- The pin an entry is checked against is the one its name has afterwards. -/
theorem pinName_lookup (s : Pass) (q : Peer) :
    (pinName order s q).pins.peers.lookup q.name = some (pinFor order s.pins q) := by
  unfold pinName
  cases h : s.pins.peers.lookup q.name with
  | some pin => simp only [h, pinFor]
  | none => exact Finmap.lookup_insert _

theorem movedPin_mem {id : Str} {e : PinEntry} (h : movedPin order id = some e) :
    ∃ m, (⟨m, e⟩ : Σ _ : Str, PinEntry) ∈ order := by
  unfold movedPin at h
  rw [Option.map_eq_some_iff] at h
  grind

/-- A new name takes the entry's own (id, key) or a pin that was there before. -/
theorem pinFor_new {s : Pins} {q : Peer} (h : s.peers.lookup q.name = none) :
    pinFor order s q = ⟨q.id, q.publicKey⟩ ∨ ∃ m, ⟨m, pinFor order s q⟩ ∈ order := by
  unfold pinFor
  rw [h]
  cases hm : movedPin order q.id with
  | none => exact .inl rfl
  | some e => exact .inr (movedPin_mem hm)

theorem pinName_inv {l : List Peer} {s : Pass} {q : Peer} (hq : q ∈ nm.peers) (hskip : skips q = false)
    (hi : ApplyInv order p nm l s) : ApplyInv order p nm l (pinName order s q) := by
  unfold pinName
  cases hl : s.pins.peers.lookup q.name with
  | some pin => exact hi
  | none =>
    have hmono : ∀ n e, s.pins.peers.lookup n = some e →
        (s.pins.peers.insert q.name (pinFor order s.pins q)).lookup n = some e := by
      intro n e h
      exact lookup_insert_new hl h
    refine { hi with same := fun h => absurd h (by simp), known := fun n e h => hmono n e (hi.known n e h),
                     fresh := fun n e h => ?_, out := fun r hr => ?_ }
    · rcases of_lookup_insert h with ⟨rfl, rfl⟩ | ⟨-, h⟩
      · exact .inr ⟨q, hq, hskip, rfl, pinFor_new hl⟩
      · exact hi.fresh n e h
    · obtain ⟨hrm, hr⟩ := hi.out r hr
      exact ⟨hrm, hr.imp id (hmono _ _)⟩

theorem applyEntry_inv {l : List Peer} {s : Pass} {q : Peer} (hq : q ∈ nm.peers) (hi : ApplyInv order p nm l s) :
    ApplyInv order p nm (l ++ [q]) (applyEntry order now prev s q) := by
  unfold applyEntry
  by_cases hskip : skips q = true
  · rw [if_pos hskip]
    refine { hi with out := fun r hr => ?_, rest := fun r hr => ?_ }
    · rcases List.mem_append.mp hr with hr | hr
      · exact hi.out r hr
      · rw [List.mem_singleton.mp hr]
        exact ⟨hq, .inl hskip⟩
    · rcases List.mem_append.mp hr with hr | hr
      · exact (hi.rest r hr).imp (List.mem_append_left _) id
      · exact .inl (List.mem_append_right _ hr)
  · rw [if_neg hskip]
    have hskip' : skips q = false := by simpa using hskip
    have hn := pinName_inv hq hskip' hi
    have hpin : (pinName order s q).pins.peers.lookup q.name = _ := pinName_lookup s q
    by_cases hmatch : pinFor order s.pins q = ⟨q.id, q.publicKey⟩
    · simp only [if_pos hmatch]
      refine { hn with out := fun r hr => ?_, rest := fun r hr => ?_ }
      · rcases List.mem_append.mp hr with hr | hr
        · exact hn.out r hr
        · grind
      · rcases List.mem_append.mp hr with hr | hr
        · exact (hn.rest r hr).imp (List.mem_append_left _) id
        · exact .inl (List.mem_append_right _ hr)
    · simp only [if_neg hmatch]
      refine { hn with outHub := ?_, rest := fun r hr => ?_, held := fun h hh => ?_ }
      · refine hn.outHub.imp id ?_
        rintro ⟨ho, h, hh, hoff⟩
        exact ⟨ho, h, List.mem_append_left _ hh, hoff⟩
      · rcases List.mem_append.mp hr with hr | hr
        · refine (hn.rest r hr).imp id ?_
          rintro ⟨hs, h, hh, hoff⟩
          exact ⟨hs, h, List.mem_append_left _ hh, hoff⟩
        · rw [List.mem_singleton.mp hr]
          exact .inr ⟨hskip', _, List.mem_append_right _ (List.mem_singleton_self _), rfl, rfl, rfl⟩
      · rcases List.mem_append.mp hh with hh | hh
        · exact hn.held h hh
        · rw [List.mem_singleton.mp hh]
          exact ⟨rfl, .inr ⟨q, hq, hskip', rfl, rfl, rfl⟩⟩

theorem apply_spec : ApplyInv order p nm nm.peers (applyPass order p nm now prev) :=
  loop_inv applyHub_inv fun _ _ _ hq hi => applyEntry_inv hq hi

end

end Thawr.Client
