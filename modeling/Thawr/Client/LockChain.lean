/-
  Thawr.Client.LockChain — the lock record a device pins, over whole runs.

  Proved:
  (1) `pinned_records_chain`: through any sequence of offers a nil or refused one leaves the
      pin, a record is pinned only with a higher generation and a signature by a key of the
      record it replaces (by one of its own where that one has no signers), and the lock goes
      off only by a disabled record that a pinned key signed.
  (2) `enrolled_signer_anchors`: on a device enrolled with a lock signer nothing is configured
      before a record signed by that signer was pinned, and the first record pinned is one.
  The signer gates the first record only: once a record without signers is pinned, the next
  one starts over and any key may have signed it (`a_restart_needs_no_enrolled_signer`).
-/

import Thawr.Client.Daemon

namespace Thawr.Client

open Go Netip Lock

section

variable (E : Ed25519)

/-- What a record must be to replace the pinned one. -/
structure Follows (pinned : Option Signed) (s : Signed) : Prop where
  wellFormed : s.record.WellFormed
  bySigner : ∀ c, pinned = some c → c.record.signers ≠ [] →
    c.record.generation < s.record.generation ∧ SignedBy E c.record s
  byItself : (∀ c, pinned = some c → c.record.signers = []) → SignedBy E s.record s

variable {E}

theorem Adopts.follows {p : Pins} {o : Signed} {expected : Str} (h : Adopts E p o expected) : Follows E p.lock o := by
  obtain ⟨hcur, hnone⟩ := (accept_ok_iff E _ _).mp h.accepted
  refine ⟨accept_wellFormed E h.accepted, fun c hc hs => hcur c.record (by rw [hc]; rfl) hs, fun hall => hnone ?_⟩
  intro r hr
  rw [Option.map_eq_some_iff] at hr
  obtain ⟨c, hc, rfl⟩ := hr
  exact hall c hc

/-- A pin that moved was replaced by the offer. -/
theorem updateLock_moved {p : Pins} {o : Option Signed} {expected : Str}
    (h : (updateLock E p o expected).1.lock ≠ p.lock) :
    ∃ s, o = some s ∧ (updateLock E p o expected).1.lock = some s ∧ Adopts E p s expected := by
  rcases updateLock_cases (E := E) p o expected with hp | ⟨s, ho, he, ha⟩
  · rw [hp] at h
    exact absurd rfl h
  · refine ⟨s, ho, ?_, ha⟩
    rw [he]

/-- The lock goes off only by a record that says so, signed by a key of the pinned set. -/
theorem updateLock_off {p : Pins} {o : Option Signed} {expected : Str} (hon : p.enabled = true)
    (hoff : (updateLock E p o expected).1.enabled = false) :
    ∃ c s, p.lock = some c ∧ o = some s ∧ (updateLock E p o expected).1.lock = some s ∧ s.record.disabled = true ∧
      SignedBy E c.record s := by
  have hmoved : (updateLock E p o expected).1.lock ≠ p.lock := by
    intro he
    unfold Pins.enabled at hon hoff
    rw [he, hon] at hoff
    cases hoff
  obtain ⟨s, ho, hs, ha⟩ := updateLock_moved hmoved
  obtain ⟨c, hc, hce⟩ := (Pins.enabled_iff p).mp hon
  have hf := ha.follows
  have hse : s.record.enabled = false := by simpa [Pins.enabled, hs] using hoff
  exact ⟨c, s, hc, ho, hs, disabled_of_not_enabled hf.wellFormed hse, (hf.bySigner c hc (signers_of_enabled hce)).2⟩

variable (E)

/-- The pins after a sequence of offers, without an enrolled signer. -/
def offerAll (p : Pins) (offers : List (Option Signed)) : Pins := offers.foldl (fun p o => (updateLock E p o []).1) p

/-- Along every sequence of offers to a device that has no record yet. -/
theorem pinned_records_chain (p : Pins) (offers : List (Option Signed)) (o : Option Signed) :
    let before := offerAll E { p with lock := none } offers
    let r := updateLock E before o []
    (o = none ∨ r.2 ≠ none → r.1.lock = before.lock) ∧
    (r.1.lock ≠ before.lock → ∃ s, o = some s ∧ r.1.lock = some s ∧ Follows E before.lock s) ∧
    (before.enabled = true → r.1.enabled = false → ∃ c s, before.lock = some c ∧ o = some s ∧ r.1.lock = some s ∧
      s.record.disabled = true ∧ SignedBy E c.record s) := by
  intro before r
  refine ⟨?_, ?_, updateLock_off⟩
  · rintro (rfl | hr)
    · rcases updateLock_cases (E := E) before none [] with hp | ⟨s, hs, _⟩
      · exact congrArg Pins.lock hp
      · cases hs
    · exact congrArg Pins.lock (updateLock_refused hr)
  · intro hmoved
    obtain ⟨s, ho, hs, ha⟩ := updateLock_moved hmoved
    exact ⟨s, ho, hs, ha.follows⟩

end

/-! ## Enrolled with a lock signer -/

/-- The record is signed by the key the text `signer` spells. -/
def SignedByKey (E : Ed25519) (signer : Str) (s : Signed) : Prop :=
  ∃ key msg, parsePublicKey (trimSpace signer) = some key ∧ s.record.bytes = .ok msg ∧ E.verify key msg s.signature = true

theorem firstRecordBy_none {E : Ed25519} {o : Signed} {expected : Str} (h : firstRecordBy E o expected = none) :
    SignedByKey E expected o := by
  unfold firstRecordBy at h
  cases hm : o.record.bytes with
  | error e => simp only [hm] at h; cases h
  | ok msg =>
    simp only [hm] at h
    cases hf : o.record.signers.find? fun s => matchesLockKey s.key expected with
    | none => simp only [hf] at h; cases h
    | some s =>
      simp only [hf] at h
      have hkey := List.find?_some hf
      simp only [matchesLockKey, beq_iff_eq] at hkey
      by_cases hv : E.verify s.key msg o.signature = true
      · exact ⟨s.key, msg, hkey, hm, hv⟩
      · rw [if_neg hv] at h
        cases h

/-- Runs of `applyLocked` from `d₀`, with the first record that was pinned on the way. -/
inductive Applies (X : Ext) (d₀ : Daemon) : Option Signed → Daemon → Prop
  | start : Applies X d₀ none d₀
  | apply {first : Option Signed} {d : Daemon} (env : Env) (nm : NetMap) : Applies X d₀ first d →
      Applies X d₀ (first.or (admitMap X env d nm).1.pins.lock) (admitMap X env d nm).1

section

variable {X : Ext} {d₀ d : Daemon} {first : Option Signed}

theorem Applies.lockSigner (h : Applies X d₀ first d) : d.state.lockSigner = d₀.state.lockSigner := by
  induction h with
  | start => rfl
  | apply env nm _ ih => rw [admit_state, (adoptState_keeps _ _).1, ih]

/-- A device without a record pins its first only when the enrolled signer signed it. -/
theorem first_pin_signed {env : Env} {nm : NetMap} {s : Signed} (hnone : d.pins.lock = none)
    (hs : d.state.lockSigner ≠ []) (h : (admitMap X env d nm).1.pins.lock = some s) :
    SignedByKey X.ed d.state.lockSigner s := by
  rw [admit_lock] at h
  have hmoved : (lockedPins X d nm).lock ≠ d.pins.lock := by
    rw [h, hnone]
    exact fun he => nomatch he
  obtain ⟨s', -, hs', ha⟩ := updateLock_moved hmoved
  have he : some s = some s' := h.symm.trans hs'
  cases he
  exact firstRecordBy_none (ha.first hnone hs)

/-- No record was pinned yet, or the first one was signed by the enrolled signer. -/
theorem Applies.anchored (h : Applies X d₀ first d) (hnone : d₀.pins.lock = none) (hs : d₀.state.lockSigner ≠ []) :
    (first = none → d.pins.lock = none) ∧ ∀ s, first = some s → SignedByKey X.ed d₀.state.lockSigner s := by
  induction h with
  | start => exact ⟨fun _ => hnone, fun s hs => nomatch hs⟩
  | @apply first d env nm hr ih =>
    obtain ⟨hfirst, hsigned⟩ := ih
    cases hf : first with
    | some s => exact ⟨fun h => absurd h (by simp), fun t ht => hsigned t (hf.trans ht)⟩
    | none =>
      rw [Option.none_or]
      refine ⟨id, fun s h => ?_⟩
      rw [← hr.lockSigner]
      refine first_pin_signed (hfirst hf) ?_ h
      rw [hr.lockSigner]
      exact hs

/-- While no record is pinned the configuration is empty. -/
theorem closed_config_empty {env : Env} {nm applied : NetMap} {d' : Daemon} {cfg : Wg.Config}
    (h : applyConfig X env d nm = (d', .ok (applied, cfg))) (hs : d.state.lockSigner ≠ []) (hnone : d'.pins.lock = none) :
    cfg.peers = [] := by
  obtain ⟨rfl, ha, hb⟩ := applyConfig_ok h
  rw [admit_lock] at hnone
  have hoff : (lockedPins X d nm).enabled = false := by simp [Pins.enabled, hnone]
  have hclosed : failsClosed d.state.lockSigner (lockedPins X d nm) = true := by simp [failsClosed, hs, hnone]
  have hnm : (gateOf X env d nm).nm = { nm with peers := [], hub := {} } := by
    rw [gateOf_off hoff, recordGate_nm, hclosed]
    rfl
  have hi := passOf_inv X env d nm
  rw [hnm] at hi
  obtain ⟨-, -, rfl⟩ := admit_some ha
  have hpeers : (passOf X env d nm).peers = [] := by
    apply List.eq_nil_iff_forall_not_mem.mpr
    intro q hq
    exact absurd (hi.out q hq).1 (List.not_mem_nil)
  have hhub : (passOf X env d nm).hub.publicKey = [] := by
    rcases hi.outHub with ⟨hh, -⟩ | ⟨hh, -⟩ <;> rw [hh]
  apply List.eq_nil_iff_forall_not_mem.mpr
  intro w hw
  rcases (buildConfigWith_keys hb w.publicKey).mp ⟨w, hw, rfl⟩ with ⟨hne, -⟩ | ⟨q, hq, -⟩
  · exact hne hhub
  · rw [show _ = ([] : List Peer) from hpeers] at hq
    cases hq

/-- In every run of a device enrolled with a signer: a configuration holds a peer or the hub
    only once a record signed by that signer was pinned, the first record pinned is one, and
    every later one follows the record it replaces. -/
theorem enrolled_signer_anchors {env : Env} {nm : NetMap} (h : Applies X d₀ first d) (hnone : d₀.pins.lock = none)
    (hs : d₀.state.lockSigner ≠ []) :
    (∀ d' applied cfg, applyConfig X env d nm = (d', .ok (applied, cfg)) → cfg.peers ≠ [] →
      ∃ s, first.or d'.pins.lock = some s ∧ SignedByKey X.ed d₀.state.lockSigner s) ∧
    (d.pins.lock = none → ∀ s, (admitMap X env d nm).1.pins.lock = some s → SignedByKey X.ed d₀.state.lockSigner s) ∧
    ((admitMap X env d nm).1.pins.lock ≠ d.pins.lock →
      ∃ s, nm.lock = some s ∧ (admitMap X env d nm).1.pins.lock = some s ∧ Follows X.ed d.pins.lock s) := by
  have hs' : d.state.lockSigner ≠ [] := by
    rw [h.lockSigner]
    exact hs
  refine ⟨fun d' applied cfg hc hne => ?_, fun hn s hp => ?_, fun hmoved => ?_⟩
  · obtain ⟨rfl, -, -⟩ := applyConfig_ok hc
    have hpin : (admitMap X env d nm).1.pins.lock ≠ none := fun hn => hne (closed_config_empty hc hs' hn)
    obtain ⟨s, hsome⟩ := Option.ne_none_iff_exists'.mp hpin
    have hrun := (Applies.apply env nm h).anchored hnone hs
    grind
  · rw [← h.lockSigner]
    exact first_pin_signed hn hs' hp
  · rw [admit_lock] at hmoved ⊢
    obtain ⟨s, ho, hp, ha⟩ := updateLock_moved hmoved
    exact ⟨s, ho, hp, ha.follows⟩

end

/-! ## A lineage that starts over -/

def enrolledDevice : Daemon :=
  { state := { lockSigner := text (Arr.ofNat 32 1 : PublicKey) }, overlay := prefixFrom (.v4 (Arr.zero 4)) 8 }

def offering (s : Signed) : NetMap := { selfIPv4 := str "10.0.0.1", lock := some s }

/-- A record that turns the lock off and names nobody, signed by seed 1. -/
def signerless : Signed := signedNo 1 ⟨2, true, []⟩

def foreign : Signed := signedNo 9 ⟨1, false, [⟨Arr.ofNat 32 9, str "z"⟩]⟩

/-- Its first configuration with a peer follows a record of its signer. -/
theorem enrolled_device_configured : (configOf 7).peers ≠ [] ∧
      ∃ s, (none : Option Signed).or (admitMap sample {} enrolledDevice (mapOf [signedPeer])).1.pins.lock = some s ∧
        SignedByKey sample.ed enrolledDevice.state.lockSigner s := by
  have hc : applyConfig sample {} enrolledDevice (mapOf [signedPeer]) =
      ((admitMap sample {} enrolledDevice (mapOf [signedPeer])).1, .ok (mapOf [signedPeer], configOf 7)) := by
    decide +kernel
  exact ⟨by decide, (enrolled_signer_anchors .start rfl (by decide)).1 _ _ _ hc (by decide)⟩

def applyAll (d : Daemon) (nms : List NetMap) : Daemon := nms.foldl (fun d nm => (admitMap sample {} d nm).1) d

theorem applyAll_applies (nms : List NetMap) : ∃ first, Applies sample enrolledDevice first (applyAll enrolledDevice nms) := by
  refine loop_inv (I := fun _ d => ∃ first, Applies sample enrolledDevice first d) ⟨none, .start⟩ ?_
  rintro l nm d - ⟨first, h⟩
  exact ⟨_, .apply {} nm h⟩

/-- The last record replaces the one without signers, and the enrolled signer did not sign it. -/
theorem a_restart_needs_no_enrolled_signer :
    let d := applyAll enrolledDevice [offering (signedNo 1 oneSigner), offering signerless]
    (∃ first, Applies sample enrolledDevice first d) ∧ enrolledDevice.pins.lock = none ∧
      enrolledDevice.state.lockSigner = text (Arr.ofNat 32 1 : PublicKey) ∧ d.pins.lock = some signerless ∧
      (admitMap sample {} d (offering foreign)).1.pins.lock = some foreign ∧
      ¬SignedByKey sample.ed enrolledDevice.state.lockSigner foreign := by
  refine ⟨applyAll_applies _, rfl, rfl, by decide +kernel, by decide +kernel, ?_⟩
  rintro ⟨key, msg, hk, hm, hv⟩
  have hkey : parsePublicKey (trimSpace enrolledDevice.state.lockSigner) = some (Arr.ofNat 32 1) := by decide +kernel
  have hno : (foreign.record.bytes.toOption.all fun m => !sample.ed.verify (Arr.ofNat 32 1) m foreign.signature) = true := by
    decide +kernel
  rw [hkey] at hk
  cases hk
  rw [hm] at hno
  simp only [Except.toOption, Option.all_some, Bool.not_eq_true'] at hno
  rw [hno] at hv
  cases hv

end Thawr.Client
