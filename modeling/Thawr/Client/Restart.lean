/-
  Thawr.Client.Restart — what `LoadPins` makes of a file `save` wrote.

  Runs start with no file and no pins; every operation on the pins may come in any order,
  with any records and netmaps, and every write succeeds. `Accept` and `Trust` get complete
  entries: a name, an id and a key (the hub has no id).

  Proved: when every record that `lock.Accept` takes lists the key that signed it, the file
  loads and gives back what was written, which is the set in memory unless that is ahead of
  the file (`pins_survive_restart`). A record may also be adopted for the signature of a key
  that only its predecessor lists; `LoadPins` refuses the file that holds it
  (`a_saved_record_is_refused_at_load`).
-/

import Thawr.Client.LockChain
import Thawr.Client.PinRuns

namespace Thawr.Client

open Go Netip Lock

inductive PinOp where
  | updateLock (offered : Option Signed) (expected : Str)
  | holdUnsigned (nm : NetMap) (set : Record) (now : Int) (prev : List HeldStatus)
  | apply (order : List (Σ _ : Str, PinEntry)) (nm : NetMap) (now : Int) (prev : List HeldStatus)
  | accept (name id key : Str)
  | trust (h : HeldStatus)

def PinOp.run (X : Ext) (p : Pins) : PinOp → Pins
  | .updateLock offered expected => (Thawr.Client.updateLock X.ed p offered expected).1
  | .holdUnsigned nm set now prev => (Thawr.Client.holdUnsigned X.ed p nm set now prev).1
  | .apply order nm now prev => (Thawr.Client.apply X.sort order true p nm now prev).1
  | .accept name id key => acceptPin p name id key
  | .trust h => Thawr.Client.trust true p h

/-- The hub, or a peer with a name, an id and a key. -/
def Complete (name id key : Str) : Prop := name = hubName ∨ ¬incomplete name ⟨id, key⟩

/-- The operation gets complete entries and visits the pins in an order they have. -/
def PinOp.Legal (p : Pins) : PinOp → Prop
  | .apply order _ _ _ => Ranges p.peers order
  | .accept name id key => Complete name id key
  | .trust h => Complete h.name h.id h.offeredKey
  | _ => True

/-- Runs whose offered records all meet `ok` against what is pinned. -/
inductive PinReach (X : Ext) (ok : Pins → Signed → Prop) : Pins → Prop
  | empty : PinReach X ok {}
  | op {p : Pins} (o : PinOp) : PinReach X ok p → o.Legal p → (∀ s x, o = .updateLock (some s) x → ok p s) →
      PinReach X ok (o.run X p)

def SelfSigned (E : Ed25519) (s : Signed) : Prop := SignedBy E s.record s

/-- A record `lock.Accept` takes over the pinned one lists the key that signed it. -/
def KeepsSigner (E : Ed25519) (p : Pins) (s : Signed) : Prop :=
  accept E (p.lock.map (·.record)) s = .ok () → SelfSigned E s

/-! ## The file -/

/-- `LoadPins` takes a set: every entry is complete, and the record passes as a first one. -/
structure Loadable (E : Ed25519) (peers : GoMap Str PinEntry) (lock : Option Signed) : Prop where
  entries : ∀ n e, peers.lookup n = some e → ¬incomplete n e
  record : ∀ s, lock = some s → SelfSigned E s

theorem loadPins_ok {E : Ed25519} {f : PinFile} {order : List (Σ _ : Str, PinEntry)} (h : Loadable E f.peers f.lock)
    (ho : Ranges f.peers order) :
    loadPins E order (some f) = .ok { hub := f.hub, peers := f.peers, lock := f.lock, file := some f } := by
  have hnone : order.find? (fun x => decide (incomplete x.1 x.2)) = none := by
    rw [List.find?_eq_none]
    rintro ⟨n, e⟩ hx
    simpa using h.entries n e ((ho.mem_iff n e).mp hx)
  unfold loadPins
  simp only [hnone]
  cases hl : f.lock with
  | none => rfl
  | some s =>
    have hacc : accept E none s = .ok () := by
      rw [accept_ok_iff]
      exact ⟨fun c hc => absurd hc (by simp), fun _ => h.record s hl⟩
    simp only [hacc]

structure Durable (E : Ed25519) (p : Pins) : Prop where
  memory : Loadable E p.peers p.lock
  file : ∀ f, p.file = some f → Loadable E f.peers f.lock
  sync : p.dirty = false → p.file = some ⟨p.hub, p.peers, p.lock⟩ ∨ p = {}

section

variable {E : Ed25519}

theorem durable_empty : Durable E {} := by
  refine ⟨⟨?_, ?_⟩, ?_, fun _ => .inr rfl⟩
  · intro n e h
    simp at h
  · intro s h
    cases h
  · intro f h
    cases h

/-- A set that loads is durable once it is written. -/
theorem durable_saved {p : Pins} (h : Loadable E p.peers p.lock) : Durable E (saved true p) := by
  refine ⟨h, ?_, fun _ => .inl rfl⟩
  intro f hf
  cases hf
  exact h

/-- Changing the set in memory only is durable while it would load. -/
theorem durable_unsaved {p q : Pins} (hp : Durable E p) (hf : q.file = p.file) (hq : Loadable E q.peers q.lock)
    (hc : q.dirty = false → q = p) : Durable E q := by
  refine ⟨hq, ?_, ?_⟩
  · rw [hf]
    exact hp.file
  · intro hd
    have he := hc hd
    subst he
    exact hp.sync hd

theorem updateLock_durable {p : Pins} {offered : Option Signed} {expected : Str} (hp : Durable E p)
    (hok : ∀ s, offered = some s → KeepsSigner E p s) : Durable E (updateLock E p offered expected).1 := by
  rcases updateLock_cases (E := E) p offered expected with h | ⟨s, ho, h, ha⟩
  · rw [h]
    exact hp
  · rw [h]
    refine durable_unsaved hp rfl ⟨hp.memory.entries, ?_⟩ (fun hd => absurd hd (by simp))
    intro t ht
    cases ht
    exact hok s ho ha.accepted

theorem complete_entry {q : Peer} (h : skips q = false) : ¬incomplete q.name ⟨q.id, q.publicKey⟩ := by
  obtain ⟨-, hn, hid, hk⟩ := skips_false h
  rintro (h | h | h)
  · exact hn h
  · exact hid h
  · exact hk h

theorem hold_durable {p : Pins} {nm : NetMap} {set : Record} {now : Int} {prev : List HeldStatus} (hp : Durable E p) :
    Durable E (holdUnsigned E p nm set now prev).1 := by
  have hi : HoldInv E p nm set nm.peers (holdPass E p nm set now prev) := hold_spec
  refine durable_unsaved hp hi.file ⟨?_, ?_⟩ hi.clean
  · intro n e he
    rcases hi.peers n with hn | ⟨q, -, hs, rfl, -, hn⟩
    · exact hp.memory.entries n e (hn.symm.trans he)
    · have hq : some e = some _ := he.symm.trans hn
      cases hq
      exact complete_entry hs
  · intro s hs
    exact hp.memory.record s (hi.lock.symm.trans hs)

theorem apply_durable {S : HeldSort} {order : List (Σ _ : Str, PinEntry)} {p : Pins} {nm : NetMap} {now : Int}
    {prev : List HeldStatus} (hp : Durable E p) (ho : Ranges p.peers order) :
    Durable E (apply S order true p nm now prev).1 := by
  have hi : ApplyInv order p nm nm.peers (applyPass order p nm now prev) := apply_spec
  have hload : Loadable E (applyPass order p nm now prev).pins.peers (applyPass order p nm now prev).pins.lock := by
    refine ⟨fun n e he => ?_, fun s hs => hp.memory.record s (hi.lock.symm.trans hs)⟩
    rcases hi.fresh n e he with hn | ⟨q, -, hs, rfl, rfl | ⟨m, hm⟩⟩
    · exact hp.memory.entries n e hn
    · exact complete_entry hs
    · -- the pin travelled with the id from a name that had it
      have hold := hp.memory.entries m e ((ho.mem_iff m e).mp hm)
      rintro (h | h)
      · exact (skips_false hs).2.1 h
      · exact hold (.inr h)
  show Durable E (applySave true _)
  unfold applySave
  by_cases hw : ((applyPass order p nm now prev).changed || (applyPass order p nm now prev).pins.dirty) = true
  · rw [if_pos hw]
    exact durable_saved hload
  · rw [if_neg hw]
    simp only [Bool.or_eq_true, not_or, Bool.not_eq_true] at hw
    rw [hi.same hw.1]
    exact hp

theorem accept_durable {p : Pins} {name id key : Str} (hp : Durable E p) (hc : Complete name id key) :
    Durable E (acceptPin p name id key) := by
  refine durable_unsaved hp (acceptPin_file _ _ _ _) ⟨?_, ?_⟩ acceptPin_clean
  · intro n e he
    rcases acceptPin_peers p name id key n with hn | ⟨rfl, hne, hn⟩
    · exact hp.memory.entries n e (hn.symm.trans he)
    · have hq : some e = some _ := he.symm.trans hn
      cases hq
      exact hc.resolve_left hne
  · intro s hs
    exact hp.memory.record s ((acceptPin_lock p name id key).symm.trans hs)

theorem trust_durable {p : Pins} {h : HeldStatus} (hp : Durable E p) (hc : Complete h.name h.id h.offeredKey) :
    Durable E (trust true p h) := by
  unfold trust
  split_ifs with hh
  · exact durable_saved hp.memory
  · refine durable_saved ⟨?_, hp.memory.record⟩
    intro n e he
    rcases of_lookup_insert he with ⟨rfl, rfl⟩ | ⟨-, he⟩
    · exact hc.resolve_left hh
    · exact hp.memory.entries n e he

end

theorem PinReach.durable {X : Ext} {p : Pins} (h : PinReach X (KeepsSigner X.ed) p) : Durable X.ed p := by
  induction h with
  | empty => exact durable_empty
  | op o _ hl hok ih =>
    cases o with
    | updateLock offered expected =>
      refine updateLock_durable ih ?_
      rintro s rfl
      exact hok s expected rfl
    | holdUnsigned nm set now prev => exact hold_durable ih
    | apply order nm now prev => exact apply_durable ih hl
    | accept name id key => exact accept_durable ih hl
    | trust h => exact trust_durable ih hl

/-- In every run in which each record `lock.Accept` takes lists the key that signed it. -/
theorem pins_survive_restart {X : Ext} {p : Pins} {f : PinFile} {order : List (Σ _ : Str, PinEntry)}
    (h : PinReach X (KeepsSigner X.ed) p) (hf : p.file = some f) (ho : Ranges f.peers order) :
    loadPins X.ed order p.file = .ok { hub := f.hub, peers := f.peers, lock := f.lock, file := some f } ∧
      (p.dirty = false → f = ⟨p.hub, p.peers, p.lock⟩) := by
  have hd := h.durable
  refine ⟨?_, fun hc => ?_⟩
  · rw [hf]
    exact loadPins_ok (hd.file f hf) ho
  · rcases hd.sync hc with hs | rfl
    · exact Option.some.inj (hf.symm.trans hs)
    · cases hf

/-! ## A record its predecessor signed -/

def offerFirst : PinOp := .updateLock (some (signedNo 1 oneSigner)) []

def offerSignerless : PinOp := .updateLock (some signerless) []

def applyPc (order : List (Σ _ : Str, PinEntry)) : PinOp := .apply order (hubAnd "pc" 7) 0 []

def pcPin : List (Σ _ : Str, PinEntry) := [⟨str "pc", ⟨str "p", Wg.keyString (keyNo 7)⟩⟩]

def firstSaved : Pins := (applyPc []).run sample (offerFirst.run sample {})

theorem firstSaved_reach {ok : Pins → Signed → Prop} (hok : ok {} (signedNo 1 oneSigner)) :
    PinReach sample ok firstSaved := by
  have h1 : PinReach sample ok (offerFirst.run sample {}) := by
    refine .op offerFirst .empty trivial ?_
    rintro s x he
    cases he
    exact hok
  have hr : Ranges (offerFirst.run sample {}).peers [] := by decide +kernel
  exact .op (applyPc []) h1 hr (by rintro s x he; cases he)

def firstFile : PinFile := ⟨Wg.keyString (keyNo 5), firstSaved.peers, some (signedNo 1 oneSigner)⟩

/-- A record that lists its signer comes back. -/
theorem firstSaved_loads :
    loadPins sample.ed pcPin firstSaved.file =
      .ok { hub := firstFile.hub, peers := firstFile.peers, lock := firstFile.lock, file := some firstFile } ∧
      (firstSaved.dirty = false → firstFile = ⟨firstSaved.hub, firstSaved.peers, firstSaved.lock⟩) := by
  have hself : SelfSigned sample.ed (signedNo 1 oneSigner) :=
    ⟨oneSigner.bytes.toOption.getD [], by decide +kernel, _, List.mem_singleton_self _, by decide +kernel⟩
  have hf : firstSaved.file = some firstFile := by decide +kernel
  have ho : Ranges firstFile.peers pcPin := by decide +kernel
  exact pins_survive_restart (firstSaved_reach fun _ => hself) hf ho

/-- Then a record that turns the lock off and names nobody, signed by the pinned signer. -/
def turnedOff : Pins := (applyPc pcPin).run sample (offerSignerless.run sample firstSaved)

theorem turnedOff_reach : PinReach sample (fun _ _ => True) turnedOff := by
  have h1 : PinReach sample (fun _ _ => True) (offerSignerless.run sample firstSaved) :=
    .op offerSignerless (firstSaved_reach trivial) trivial (fun _ _ _ => trivial)
  have hr : Ranges (offerSignerless.run sample firstSaved).peers pcPin := by decide +kernel
  exact .op (applyPc pcPin) h1 hr (fun _ _ _ => trivial)

/-- The file holds exactly the set in memory, and does not load. -/
theorem a_saved_record_is_refused_at_load :
    PinReach sample (fun _ _ => True) turnedOff ∧
      turnedOff.file = some ⟨turnedOff.hub, turnedOff.peers, turnedOff.lock⟩ ∧ Ranges turnedOff.peers pcPin ∧
      turnedOff.lock = some signerless ∧ loadPins sample.ed pcPin turnedOff.file = .error (.lockRecord .notSigned) := by
  refine ⟨turnedOff_reach, by decide +kernel, by decide +kernel, by decide +kernel, ?_⟩
  have hacc : accept sample.ed none signerless = .error .notSigned := by decide +kernel
  have hcomplete : pcPin.find? (fun x => decide (incomplete x.1 x.2)) = none := by decide +kernel
  have hf : turnedOff.file = some ⟨Wg.keyString (keyNo 5), turnedOff.peers, some signerless⟩ := by decide +kernel
  rw [hf]
  simp only [loadPins, hcomplete, hacc]

end Thawr.Client
