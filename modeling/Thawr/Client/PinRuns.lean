/-
  Thawr.Client.PinRuns — who can change a pin, over every run of netmaps, trusts and
  re-applies.

  A run starts with any pins, nothing received and nothing held; its netmaps are arbitrary
  and its writes may fail. `Legal` says that the pins are visited in an order a `range` over
  them may take.

  Proved, in every run whose netmaps name no peer "hub" (`pins_kept`):
  (a) a peer pin changes only by trusting a held entry of its name or by an entry that a
      signer of the pinned enabled record signed over exactly its (id, name, key);
  (b) a hub pin changes only by trusting the held hub or by a hub key so signed;
  (c) what an apply returns matches its pins.
  (a) and (c) need no condition on the netmaps (`admit_peer_pin`, `admit_matches`). (b) does:
  `Trust` and `Accept` take any entry named "hub" for the hub, one of the peer list included
  (`a_peer_named_hub_becomes_the_hub`).
-/

import Thawr.Client.Daemon
import Thawr.Conc.Runs

namespace Thawr.Client

open Go Netip Lock

/-! ## Runs -/

inductive Ev where
  | netmap (env : Env) (nm : NetMap)
  | reapply (env : Env)
  | trust (saveOk : Nat → Bool) (names : List Str)
  | rotate (key : Wg.Key)

def step (X : Ext) (d : Daemon) : Ev → Daemon
  | .netmap env nm => (admitMap X env d nm).1
  | .reapply env => reapply X env d
  | .trust saveOk names => (trustNames saveOk d names).1
  | .rotate key => { d with key := key }

def Ev.applies (d : Daemon) : Ev → Option (Env × NetMap)
  | .netmap env nm => some (env, nm)
  | .reapply env => d.offered.map (env, ·)
  | _ => none

/-- The loop over the pins visits them in an order they have. -/
def Legal (X : Ext) (d : Daemon) (e : Ev) : Prop :=
  ∀ env nm, e.applies d = some (env, nm) → Ranges (gateOf X env d nm).pins.peers env.order

variable {d : Daemon} {nm : NetMap} {ok : NetMap → Prop}

theorem legal_netmap {X : Ext} {env : Env} (h : Ranges (gateOf X env d nm).pins.peers env.order) :
    Legal X d (.netmap env nm) := by
  intro env' nm' he
  cases he
  exact h

def Fresh (d : Daemon) : Prop := d.offered = none ∧ d.held = []

/-- Runs whose received netmaps all satisfy `ok`. -/
abbrev Reach (X : Ext) (ok : NetMap → Prop) : Daemon → Prop :=
  Conc.Reach Fresh (fun d e => some (step X d e)) fun d e => (∀ env nm, e = .netmap env nm → ok nm) ∧ Legal X d e

/-- An event applies a netmap, trusts held keys, or touches neither pins nor held list. -/
theorem step_cases (X : Ext) (d : Daemon) (e : Ev) :
    (∃ env nm, e.applies d = some (env, nm) ∧ step X d e = (admitMap X env d nm).1) ∨
    (∃ saveOk names, e = .trust saveOk names ∧ step X d e = (trustNames saveOk d names).1) ∨
    ((step X d e).pins = d.pins ∧ (step X d e).held = d.held ∧ (step X d e).offered = d.offered ∧
      (step X d e).state = d.state) := by
  cases e with
  | netmap env nm => exact .inl ⟨env, nm, rfl, rfl⟩
  | reapply env =>
    cases ho : d.offered with
    | none =>
      refine .inr (.inr ?_)
      simp only [step, Thawr.Client.reapply, ho]
      trivial
    | some nm =>
      refine .inl ⟨env, nm, ?_, ?_⟩
      · simp only [Ev.applies, ho, Option.map_some]
      · simp only [step, Thawr.Client.reapply, ho]
  | trust saveOk names => exact .inr (.inl ⟨saveOk, names, rfl, rfl⟩)
  | rotate key => exact .inr (.inr ⟨rfl, rfl, rfl, rfl⟩)

/-! ## What an apply can do to a pin -/

section

variable {X : Ext} {env : Env} {d : Daemon} {nm : NetMap}

theorem lockedPins_peers : (lockedPins X d nm).peers = d.pins.peers := by
  unfold lockedPins
  rcases updateLock_cases (E := X.ed) d.pins nm.lock d.state.lockSigner with h | ⟨_, _, h, _⟩ <;> rw [h]

theorem lockedPins_hub : (lockedPins X d nm).hub = d.pins.hub := by
  unfold lockedPins
  rcases updateLock_cases (E := X.ed) d.pins nm.lock d.state.lockSigner with h | ⟨_, _, h, _⟩ <;> rw [h]

/-- The lock is on after the apply, by the record `set`. -/
def LockOn (X : Ext) (env : Env) (d : Daemon) (nm : NetMap) (set : Record) : Prop :=
  ∃ rec, (admitMap X env d nm).1.pins.lock = some rec ∧ rec.record = set ∧ set.enabled = true

theorem lockOn_of {rec : Signed} (hl : (lockedPins X d nm).lock = some rec) (hon : rec.record.enabled = true) :
    LockOn X env d nm rec.record := ⟨rec, admit_lock.trans hl, rfl, hon⟩

/-- A pinned name keeps its pin unless a signer signed the entry that replaces it. -/
theorem admit_peer_pin {n : Str} {e : PinEntry} (h : d.pins.peers.lookup n = some e) :
    (admitMap X env d nm).1.pins.peers.lookup n = some e ∨
      ∃ set, LockOn X env d nm set ∧ ∃ q ∈ nm.peers, q.name = n ∧ Vouched X.ed set q ∧
        (admitMap X env d nm).1.pins.peers.lookup n = some ⟨q.id, q.publicKey⟩ := by
  rw [admit_pins, applySave_peers]
  have hi := passOf_inv X env d nm
  rcases gateOf_cases X env d nm with ⟨rec, hl, hr, s, hh, hp, -, -⟩ | hoff
  · rcases hh.peers n with hn | ⟨q, hq, -, hqn, hv, hn⟩
    · left
      apply hi.known
      rw [hp, hn, lockedPins_peers]
      exact h
    · right
      refine ⟨rec.record, lockOn_of hl hr, q, hq, hqn, hv, hi.known n _ ?_⟩
      rw [hp]
      exact hn
  · left
    apply hi.known
    rw [hoff, recordGate_pins, lockedPins_peers]
    exact h

/-- A set hub pin stays unless a signer signed the hub key, or an entry named "hub". -/
theorem admit_hub_pin (h : d.pins.hub ≠ []) :
    (admitMap X env d nm).1.pins.hub = d.pins.hub ∨
      ∃ set, LockOn X env d nm set ∧
        (VouchedHub X.ed set nm.hub ∧ (admitMap X env d nm).1.pins.hub = nm.hub.publicKey ∨
          ∃ q ∈ nm.peers, skips q = false ∧ q.name = hubName) := by
  rw [admit_pins, applySave_hub]
  have hi := (passOf_inv X env d nm).hub
  rcases gateOf_cases X env d nm with ⟨rec, hl, hr, s, hh, hp, -, -⟩ | hoff
  · rw [hp] at hi
    rcases hh.hub with hs | ⟨hne, hv, hs⟩ | ⟨q, hq, hskip, hqn, -⟩
    · left
      rw [hi, hs, lockedPins_hub, if_neg h]
    · right
      refine ⟨rec.record, lockOn_of hl hr, .inl ⟨hv, ?_⟩⟩
      rw [hi, hs, if_neg hne]
    · exact .inr ⟨rec.record, lockOn_of hl hr, .inr ⟨q, hq, hskip, hqn⟩⟩
  · left
    rw [hoff, recordGate_pins, lockedPins_hub, if_neg h] at hi
    exact hi

/-- What an apply returns matches the pins: each entry that is checked, and the hub. -/
theorem admit_matches {applied : NetMap} (h : (admitMap X env d nm).2 = some applied) :
    (∀ q ∈ applied.peers, q.viaHub = false → q.id ≠ [] → q.name ≠ [] → q.publicKey ≠ [] →
      (admitMap X env d nm).1.pins.peers.lookup q.name = some ⟨q.id, q.publicKey⟩) ∧
    (applied.hub.publicKey ≠ [] → applied.hub.publicKey = (admitMap X env d nm).1.pins.hub) := by
  obtain ⟨-, -, rfl⟩ := admit_some h
  rw [admit_pins, applySave_peers, applySave_hub]
  have hi := passOf_inv X env d nm
  refine ⟨fun q hq hv hid hn hk => ?_, fun hne => ?_⟩
  · rcases (hi.out q hq).2 with hs | hl
    · simp [skips, hv, hid, hn, hk] at hs
    · exact hl
  · simp only at hne ⊢
    rcases hi.outHub with ⟨hh, hm⟩ | ⟨hh, -⟩
    · rw [hh] at hne ⊢
      exact (hm hne).symm
    · rw [hh] at hne
      exact absurd rfl hne

/-- The entries the lock leaves are entries of the netmap received. -/
theorem gateOf_peers_sub : ∀ q ∈ (gateOf X env d nm).nm.peers, q ∈ nm.peers := by
  intro q hq
  rcases gateOf_cases X env d nm with ⟨_, -, -, s, hh, -, -, hnm⟩ | hoff
  · rw [hnm] at hq
    exact ((hh.out q).mp hq).1
  · rw [hoff, recordGate_nm] at hq
    split at hq
    · cases hq
    · exact hq

/-- The lock leaves the hub as received or takes it out. -/
theorem gateOf_hub (h : (gateOf X env d nm).nm.hub.publicKey ≠ []) : (gateOf X env d nm).nm.hub = nm.hub := by
  rcases gateOf_cases X env d nm with ⟨_, -, -, s, hh, -, -, hnm⟩ | hoff
  · rw [hnm] at h ⊢
    rcases hh.outHub with ⟨he, -⟩ | he
    · exact he
    · exact absurd (congrArg HubPeer.publicKey he) h
  · rw [hoff, recordGate_nm] at h ⊢
    grind

/-- The lock holds entries as unsigned only. -/
theorem gateOf_held : ∀ h ∈ (gateOf X env d nm).held, h.reason = .unsigned := by
  intro h hh
  rcases gateOf_cases X env d nm with ⟨_, -, -, s, hi, -, hheld, -⟩ | hoff
  · rw [hheld] at hh
    exact hi.held h hh
  · rw [hoff, recordGate_held] at hh
    cases hh

end

/-! ## What a trust can do to a pin -/

theorem selectNames_mem {held : List HeldStatus} {names : List Str} {l : List HeldStatus}
    (h : selectNames held names = .ok l) : ∀ x ∈ l, x ∈ held ∧ x.reason = .keyChanged := by
  have hreason : ∀ r : Reason, r ≠ .unsigned → r = .keyChanged := by
    intro r hr
    cases r
    · rfl
    · exact absurd rfl hr
  induction names generalizing l with
  | nil =>
    cases h
    intro x hx
    cases hx
  | cons name rest ih =>
    unfold selectNames at h
    simp only at h
    by_cases hall : stripZone name = str "all"
    · rw [if_pos hall] at h
      obtain ⟨l', hr, rfl⟩ := map_ok.mp h
      intro x hx
      rcases List.mem_append.mp hx with hx | hx
      · obtain ⟨hm, hne⟩ := List.mem_filter.mp hx
        exact ⟨hm, hreason _ (by simpa using hne)⟩
      · exact ih hr x hx
    · rw [if_neg hall] at h
      cases hf : held.find? (·.name == stripZone name) with
      | none => rw [hf] at h; cases h
      | some y =>
        rw [hf] at h
        simp only at h
        by_cases hu : y.reason = .unsigned
        · rw [if_pos hu] at h
          cases h
        · rw [if_neg hu] at h
          obtain ⟨l', hr, rfl⟩ := map_ok.mp h
          intro x hx
          rcases List.mem_cons.mp hx with rfl | hx
          · exact ⟨List.mem_of_find?_eq_some hf, hreason _ hu⟩
          · exact ih hr x hx

theorem selectHeld_mem {held : List HeldStatus} {names : List Str} {l : List HeldStatus}
    (h : selectHeld held names = .ok l) : ∀ x ∈ l, x ∈ held ∧ x.reason = .keyChanged := by
  unfold selectHeld at h
  split at h
  · cases h
  · exact selectNames_mem h

theorem trust_peers (ok : Bool) (p : Pins) (h : HeldStatus) (n : Str) :
    (trust ok p h).peers.lookup n = p.peers.lookup n ∨
      h.name = n ∧ n ≠ hubName ∧ (trust ok p h).peers.lookup n = some ⟨h.id, h.offeredKey⟩ := by
  unfold trust
  rw [saved_peers]
  split_ifs with hh
  · exact .inl rfl
  · by_cases hn : n = h.name
    · subst hn
      exact .inr ⟨rfl, hh, Finmap.lookup_insert _⟩
    · exact .inl (Finmap.lookup_insert_of_ne _ hn)

theorem trust_hub (ok : Bool) (p : Pins) (h : HeldStatus) :
    (trust ok p h).hub = p.hub ∨ h.name = hubName ∧ (trust ok p h).hub = h.offeredKey := by
  unfold trust
  rw [saved_hub]
  split_ifs with hh
  · exact .inr ⟨hh, rfl⟩
  · exact .inl rfl

/-- Trusting several entries: each pin ends as it was or as one of them offers. -/
theorem trustAll_pins (saveOk : Nat → Bool) (i : Nat) (l : List HeldStatus) (p : Pins) :
    (∀ n, (trustAll saveOk i l p).1.peers.lookup n = p.peers.lookup n ∨
      ∃ h ∈ l, h.name = n ∧ n ≠ hubName ∧ (trustAll saveOk i l p).1.peers.lookup n = some ⟨h.id, h.offeredKey⟩) ∧
    ((trustAll saveOk i l p).1.hub = p.hub ∨
      ∃ h ∈ l, h.name = hubName ∧ (trustAll saveOk i l p).1.hub = h.offeredKey) := by
  induction l generalizing i p with
  | nil => exact ⟨fun _ => .inl rfl, .inl rfl⟩
  | cons h rest ih =>
    unfold trustAll
    split_ifs with hok
    · obtain ⟨hpeers, hhub⟩ := ih (i + 1) (trust true p h)
      refine ⟨fun n => ?_, ?_⟩
      · rcases hpeers n with hp | ⟨x, hx, hp⟩
        · rcases trust_peers true p h n with ht | ⟨hn, hne, ht⟩
          · exact .inl (hp.trans ht)
          · exact .inr ⟨h, List.mem_cons_self, hn, hne, hp.trans ht⟩
        · exact .inr ⟨x, List.mem_cons_of_mem _ hx, hp⟩
      · rcases hhub with hp | ⟨x, hx, hp⟩
        · rcases trust_hub true p h with ht | ⟨hn, ht⟩
          · exact .inl (hp.trans ht)
          · exact .inr ⟨h, List.mem_cons_self, hn, hp.trans ht⟩
        · exact .inr ⟨x, List.mem_cons_of_mem _ hx, hp⟩
    · refine ⟨fun n => ?_, ?_⟩
      · rcases trust_peers false p h n with ht | ht
        · exact .inl ht
        · exact .inr ⟨h, List.mem_cons_self, ht⟩
      · rcases trust_hub false p h with ht | ht
        · exact .inl ht
        · exact .inr ⟨h, List.mem_cons_self, ht⟩

/-- `Daemon.Trust` moves a pin only to what an entry it selected offers. -/
theorem trustNames_pins (saveOk : Nat → Bool) (d : Daemon) (names : List Str) :
    (∀ n, (trustNames saveOk d names).1.pins.peers.lookup n = d.pins.peers.lookup n ∨
      ∃ accepted, selectHeld d.held names = .ok accepted ∧ ∃ h ∈ accepted, h.name = n ∧ n ≠ hubName ∧
        (trustNames saveOk d names).1.pins.peers.lookup n = some ⟨h.id, h.offeredKey⟩) ∧
    ((trustNames saveOk d names).1.pins.hub = d.pins.hub ∨
      ∃ accepted, selectHeld d.held names = .ok accepted ∧ ∃ h ∈ accepted, h.name = hubName ∧
        (trustNames saveOk d names).1.pins.hub = h.offeredKey) := by
  unfold trustNames
  cases hs : selectHeld d.held names with
  | error e => exact ⟨fun _ => .inl rfl, .inl rfl⟩
  | ok l =>
    obtain ⟨hpeers, hhub⟩ := trustAll_pins saveOk 0 l d.pins
    grind

theorem trustNames_frame (saveOk : Nat → Bool) (d : Daemon) (names : List Str) :
    (trustNames saveOk d names).1.held = d.held ∧ (trustNames saveOk d names).1.offered = d.offered ∧
      (trustNames saveOk d names).1.state = d.state := by
  unfold trustNames
  cases selectHeld d.held names <;> exact ⟨rfl, rfl, rfl⟩

/-! ## The held list -/

/-- What is held for a changed key is the hub or an entry of the netmap last received. -/
def HeldFromOffered (d : Daemon) : Prop :=
  ∀ h ∈ d.held, h.reason = .keyChanged → ∃ nm, d.offered = some nm ∧
    (OffersHub h nm ∨ ∃ q ∈ nm.peers, skips q = false ∧ Offers h q)

theorem admit_held (X : Ext) (env : Env) (d : Daemon) (nm : NetMap) (hd : HeldFromOffered d) :
    HeldFromOffered (admitMap X env d nm).1 := by
  intro h hh hr
  cases ha : (admitMap X env d nm).2 with
  | none =>
    obtain ⟨ho, hheld⟩ := admit_none ha
    rw [hheld] at hh
    rw [ho]
    exact hd h hh hr
  | some applied =>
    obtain ⟨ho, hheld, -⟩ := admit_some ha
    refine ⟨nm, ho, ?_⟩
    rw [hheld, X.sort.mem_iff, List.mem_append, X.sort.mem_iff] at hh
    rcases hh with hh | hh
    · rw [gateOf_held h hh] at hr
      cases hr
    · rcases ((passOf_inv X env d nm).held h hh).2 with ⟨hne, hn, hid, hk⟩ | ⟨q, hq, hs, hoff⟩
      · rw [gateOf_hub hne] at hk
        exact .inl ⟨hn, hid, hk⟩
      · exact .inr ⟨q, gateOf_peers_sub q hq, hs, hoff⟩

theorem Reach.heldFromOffered {X : Ext} (h : Reach X ok d) : HeldFromOffered d := by
  refine h.inv (fun d hd h hm => ?_) fun d e d' ih _ hs => ?_
  · rw [hd.2] at hm
    cases hm
  · cases hs
    rcases step_cases X d e with ⟨env, nm, -, hs⟩ | ⟨saveOk, names, -, hs⟩ | ⟨-, hheld, ho, -⟩
    · rw [hs]
      exact admit_held X env d nm ih
    · obtain ⟨hheld, ho, -⟩ := trustNames_frame saveOk d names
      intro h hm hr
      rw [hs, hheld] at hm
      rw [hs, ho]
      exact ih h hm hr
    · intro h hm hr
      rw [hheld] at hm
      rw [ho]
      exact ih h hm hr

theorem Ev.applies_ok {e : Ev} (ho : ∀ nm, d.offered = some nm → ok nm)
    (hok : ∀ env nm, e = .netmap env nm → ok nm) {env : Env} (ha : e.applies d = some (env, nm)) : ok nm := by
  cases e with
  | netmap env' nm' =>
    cases ha
    exact hok env nm rfl
  | reapply env' =>
    obtain ⟨nm', hoff, he⟩ := Option.map_eq_some_iff.mp ha
    cases he
    exact ho nm hoff
  | trust _ _ => cases ha
  | rotate _ => cases ha

theorem Reach.offered_ok {X : Ext} (h : Reach X ok d) :
    ∀ nm, d.offered = some nm → ok nm := by
  refine h.inv (I := fun d => ∀ nm, d.offered = some nm → ok nm) (fun d hd nm ho => ?_) fun d e d' ih hok hs nm ho => ?_
  · rw [hd.1] at ho
    cases ho
  · cases hs
    rcases step_cases X d e with ⟨env, nm', ha, hs⟩ | ⟨saveOk, names, -, hs⟩ | ⟨-, -, ho', -⟩
    · rw [hs] at ho
      cases hr : (admitMap X env d nm').2 with
      | none =>
        rw [(admit_none hr).1] at ho
        exact ih nm ho
      | some applied =>
        rw [(admit_some hr).1] at ho
        cases ho
        exact Ev.applies_ok ih hok.1 ha
    · rw [hs, (trustNames_frame saveOk d names).2.1] at ho
      exact ih nm ho
    · rw [ho'] at ho
      exact ih nm ho

/-! ## Pins are kept -/

section

variable (X : Ext) (d : Daemon) (e : Ev)

/-- The event trusts a held peer entry named `n` that the user selected, and that is the pin
    now. -/
def TrustsPeer (n : Str) : Prop :=
  ∃ saveOk names accepted h, e = .trust saveOk names ∧ selectHeld d.held names = .ok accepted ∧ h ∈ accepted ∧
    h ∈ d.held ∧ h.name = n ∧ h.id ≠ [] ∧ (step X d e).pins.peers.lookup n = some ⟨h.id, h.offeredKey⟩

/-- The event applies a netmap with an entry named `n` that a signer of the pinned enabled
    record signed, and that is the pin now. -/
def SignsPeer (n : Str) : Prop :=
  ∃ env nm rec, e.applies d = some (env, nm) ∧ (step X d e).pins.lock = some rec ∧ rec.record.enabled = true ∧
    ∃ q ∈ nm.peers, q.name = n ∧ Vouched X.ed rec.record q ∧
      (step X d e).pins.peers.lookup n = some ⟨q.id, q.publicKey⟩

/-- The event trusts the held hub: the entry named "hub" that is not of the peer list. -/
def TrustsHub : Prop :=
  ∃ saveOk names accepted h, e = .trust saveOk names ∧ selectHeld d.held names = .ok accepted ∧ h ∈ accepted ∧
    h ∈ d.held ∧ h.name = hubName ∧ h.id = [] ∧ (step X d e).pins.hub = h.offeredKey

def SignsHub : Prop :=
  ∃ env nm rec, e.applies d = some (env, nm) ∧ (step X d e).pins.lock = some rec ∧ rec.record.enabled = true ∧
    VouchedHub X.ed rec.record nm.hub ∧ (step X d e).pins.hub = nm.hub.publicKey

/-- What an apply in this event returns matches the pins. -/
def ReturnsPinned : Prop :=
  ∀ env nm applied, e.applies d = some (env, nm) → (admitMap X env d nm).2 = some applied →
    (∀ q ∈ applied.peers, q.viaHub = false → q.id ≠ [] → q.name ≠ [] → q.publicKey ≠ [] →
      (admitMap X env d nm).1.pins.peers.lookup q.name = some ⟨q.id, q.publicKey⟩) ∧
    (applied.hub.publicKey ≠ [] → applied.hub.publicKey = (admitMap X env d nm).1.pins.hub)

end

/-- No entry the client pins is named like the hub. -/
def NoPeerNamedHub (nm : NetMap) : Prop := ∀ q ∈ nm.peers, skips q = false → q.name ≠ hubName

section

variable {X : Ext} {ok : NetMap → Prop} {d : Daemon} {e : Ev}

theorem skips_false {q : Peer} (h : skips q = false) : q.viaHub = false ∧ q.name ≠ [] ∧ q.id ≠ [] ∧ q.publicKey ≠ [] := by
  simpa [skips, and_assoc] using h

theorem peer_pin_kept (h : Reach X ok d) {n : Str} {pin : PinEntry} (hp : d.pins.peers.lookup n = some pin)
    (hc : (step X d e).pins.peers.lookup n ≠ some pin) : TrustsPeer X d e n ∨ SignsPeer X d e n := by
  rcases step_cases X d e with ⟨env, nm, ha, hs⟩ | ⟨saveOk, names, rfl, hs⟩ | ⟨hpins, -⟩
  · rcases admit_peer_pin (X := X) hp with hk | ⟨set, ⟨rec, hl, rfl, hon⟩, q, hq, hn, hv, hk⟩
    · rw [hs] at hc
      exact absurd hk hc
    · right
      refine ⟨env, nm, rec, ha, ?_, hon, q, hq, hn, hv, ?_⟩
      · rw [hs]
        exact hl
      · rw [hs]
        exact hk
  · rcases (trustNames_pins saveOk d names).1 n with hk | ⟨accepted, hsel, x, hxa, hn, hne, hk⟩
    · rw [hs, hk] at hc
      exact absurd hp hc
    · left
      obtain ⟨hx, hr⟩ := selectHeld_mem hsel x hxa
      refine ⟨saveOk, names, accepted, x, rfl, hsel, hxa, hx, hn, ?_, ?_⟩
      · obtain ⟨nm, -, ⟨hhub, -⟩ | ⟨q, -, hskip, hoff⟩⟩ := h.heldFromOffered x hx hr
        · exact absurd (hn.symm.trans hhub) hne
        · rw [hoff.2.1]
          exact (skips_false hskip).2.2.1
      · rw [hs]
        exact hk
  · rw [hpins] at hc
    exact absurd hp hc

theorem hub_pin_kept (h : Reach X NoPeerNamedHub d) (hok : ∀ env nm, e = .netmap env nm → NoPeerNamedHub nm)
    (hp : d.pins.hub ≠ []) (hc : (step X d e).pins.hub ≠ d.pins.hub) : TrustsHub X d e ∨ SignsHub X d e := by
  rcases step_cases X d e with ⟨env, nm, ha, hs⟩ | ⟨saveOk, names, rfl, hs⟩ | ⟨hpins, -⟩
  · have hnm : NoPeerNamedHub nm := Ev.applies_ok h.offered_ok hok ha
    rcases admit_hub_pin (X := X) hp with hk | ⟨set, ⟨rec, hl, rfl, hon⟩, ⟨hv, hk⟩ | ⟨q, hq, hskip, hn⟩⟩
    · rw [hs] at hc
      exact absurd hk hc
    · right
      refine ⟨env, nm, rec, ha, ?_, hon, hv, ?_⟩
      · rw [hs]
        exact hl
      · rw [hs]
        exact hk
    · exact absurd hn (hnm q hq hskip)
  · rcases (trustNames_pins saveOk d names).2 with hk | ⟨accepted, hsel, x, hxa, hn, hk⟩
    · rw [hs] at hc
      exact absurd hk hc
    · left
      obtain ⟨hx, hr⟩ := selectHeld_mem hsel x hxa
      refine ⟨saveOk, names, accepted, x, rfl, hsel, hxa, hx, hn, ?_, ?_⟩
      · obtain ⟨nm, ho, ⟨-, hid, -⟩ | ⟨q, hq, hskip, hoff⟩⟩ := h.heldFromOffered x hx hr
        · exact hid
        · exact absurd (hoff.1.symm.trans hn) (h.offered_ok nm ho q hq hskip)
      · rw [hs]
        exact hk
  · rw [hpins] at hc
    exact absurd rfl hc

/-- In every run whose netmaps name no peer "hub". -/
theorem pins_kept (h : Reach X NoPeerNamedHub d) (hok : ∀ env nm, e = .netmap env nm → NoPeerNamedHub nm) :
    (∀ n pin, d.pins.peers.lookup n = some pin → (step X d e).pins.peers.lookup n ≠ some pin →
      TrustsPeer X d e n ∨ SignsPeer X d e n) ∧
    (d.pins.hub ≠ [] → (step X d e).pins.hub ≠ d.pins.hub → TrustsHub X d e ∨ SignsHub X d e) ∧
    ReturnsPinned X d e :=
  ⟨fun _ _ => peer_pin_kept h, hub_pin_kept h hok, fun _ _ _ _ ha => admit_matches ha⟩

end

/-! ## A peer named like the hub -/

def newDevice : Daemon := { overlay := prefixFrom (.v4 (Arr.zero 4)) 8 }

def hubAnd (name : String) (n : Nat) : NetMap :=
  { selfIPv4 := str "10.0.0.1", hub := { publicKey := Wg.keyString (keyNo 5) }
    peers := [{ id := str "p", name := str name, publicKey := Wg.keyString (keyNo n), ipv4 := str "10.0.0.7" }] }

/-- A device that has pinned the hub and a peer on key 7. -/
def pinnedOn (name : String) : Daemon := step sample newDevice (.netmap {} (hubAnd name 7))

def pinOrder (name : String) : Env := { order := [⟨str name, ⟨str "p", Wg.keyString (keyNo 7)⟩⟩] }

theorem pinnedOn_reach {name : String} (hok : ok (hubAnd name 7))
    (hlegal : Legal sample newDevice (.netmap {} (hubAnd name 7))) : Reach sample ok (pinnedOn name) := by
  refine .step (.netmap {} (hubAnd name 7)) (.start ⟨rfl, rfl⟩) ⟨fun env nm h => ?_, hlegal⟩ rfl
  cases h
  exact hok

/-- The peer's key and the hub's change; both are held. -/
def bothChanged : Daemon :=
  step sample (pinnedOn "pc") (.netmap (pinOrder "pc") { hubAnd "pc" 8 with hub := { publicKey := Wg.keyString (keyNo 6) } })

theorem named_pc {n : Nat} (h : nm.peers = (hubAnd "pc" n).peers) : NoPeerNamedHub nm := by
  intro q hq _
  rw [h] at hq
  rw [List.mem_singleton.mp hq]
  show str "pc" ≠ hubName
  decide

theorem bothChanged_reach : Reach sample NoPeerNamedHub bothChanged := by
  refine .step _ (pinnedOn_reach (named_pc rfl) (legal_netmap (by decide +kernel)))
    ⟨fun env nm h => ?_, legal_netmap (by decide +kernel)⟩ rfl
  cases h
  exact named_pc (n := 8) rfl

/-- Trusting all that is held moves both pins. -/
theorem both_pins_trusted :
    let e : Ev := .trust (fun _ => true) [str "all"]
    bothChanged.pins.peers.lookup (str "pc") = some ⟨str "p", Wg.keyString (keyNo 7)⟩ ∧
      (step sample bothChanged e).pins.peers.lookup (str "pc") = some ⟨str "p", Wg.keyString (keyNo 8)⟩ ∧
      bothChanged.pins.hub = Wg.keyString (keyNo 5) ∧ (step sample bothChanged e).pins.hub = Wg.keyString (keyNo 6) ∧
      (TrustsPeer sample bothChanged e (str "pc") ∨ SignsPeer sample bothChanged e (str "pc")) ∧
      (TrustsHub sample bothChanged e ∨ SignsHub sample bothChanged e) ∧
      ReturnsPinned sample (pinnedOn "pc") (.netmap (pinOrder "pc") (hubAnd "pc" 7)) := by
  intro e
  have hold : bothChanged.pins.peers.lookup (str "pc") = some ⟨str "p", Wg.keyString (keyNo 7)⟩ := by decide +kernel
  have hnew : (step sample bothChanged e).pins.peers.lookup (str "pc") =
    some ⟨str "p", Wg.keyString (keyNo 8)⟩ := by decide +kernel
  have hhub : bothChanged.pins.hub = Wg.keyString (keyNo 5) := by decide +kernel
  have hhub' : (step sample bothChanged e).pins.hub = Wg.keyString (keyNo 6) := by decide +kernel
  obtain ⟨hpeers, hhubs, -⟩ := pins_kept (e := e) bothChanged_reach fun _ _ h => nomatch h
  refine ⟨hold, hnew, hhub, hhub', hpeers _ _ hold ?_, hhubs ?_ ?_, ?_⟩
  · rw [hnew]
    decide +kernel
  · rw [hhub]
    decide +kernel
  · rw [hhub, hhub']
    decide +kernel
  · refine (pins_kept (pinnedOn_reach (named_pc rfl) (legal_netmap (by decide +kernel))) fun env nm h => ?_).2.2
    cases h
    exact named_pc rfl

/-! A peer named "hub" is pinned on key 7, then its key changes to 8 and it is held. -/

def hubSwapped : Daemon := step sample (pinnedOn "hub") (.netmap (pinOrder "hub") (hubAnd "hub" 8))

theorem hubSwapped_reach : Reach sample (fun _ => True) hubSwapped :=
  .step _ (pinnedOn_reach trivial (legal_netmap (by decide +kernel)))
    ⟨fun _ _ _ => trivial, legal_netmap (by decide +kernel)⟩ rfl

/-- Trusting the held peer replaces the hub's key with the peer's. -/
theorem a_peer_named_hub_becomes_the_hub :
    let e : Ev := .trust (fun _ => true) [str "hub"]
    Reach sample (fun _ => True) hubSwapped ∧ hubSwapped.pins.hub = Wg.keyString (keyNo 5) ∧
      (step sample hubSwapped e).pins.hub = Wg.keyString (keyNo 8) ∧
      (∀ h ∈ hubSwapped.held, ∃ q ∈ (hubAnd "hub" 8).peers, Offers h q ∧ h.id ≠ []) ∧
      ¬TrustsHub sample hubSwapped e ∧ ¬SignsHub sample hubSwapped e := by
  have hheld : hubSwapped.held.map (fun h => (h.name, h.id, h.offeredKey)) =
      [(str "hub", str "p", Wg.keyString (keyNo 8))] := by decide +kernel
  have hone : ∀ h ∈ hubSwapped.held, h.name = str "hub" ∧ h.id = str "p" ∧ h.offeredKey = Wg.keyString (keyNo 8) := by
    intro h hm
    have hmem := List.mem_map_of_mem (f := fun h : HeldStatus => (h.name, h.id, h.offeredKey)) hm
    rw [hheld, List.mem_singleton] at hmem
    simpa using hmem
  refine ⟨hubSwapped_reach, by decide +kernel, by decide +kernel, fun h hm => ?_, ?_, ?_⟩
  · exact ⟨_, List.mem_singleton_self _, hone h hm, by rw [(hone h hm).2.1]; decide⟩
  · rintro ⟨_, _, _, h, -, -, -, hm, -, hid, -⟩
    rw [(hone h hm).2.1] at hid
    revert hid
    decide
  · rintro ⟨env, nm, rec, ha, -⟩
    cases ha

end Thawr.Client
