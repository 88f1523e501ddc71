/-
  Thawr.Client.LockHistory — the lock records a server stores one after the other, and a
  device that missed some of them.

  The first record of a history is whatever `LockService.Set` takes; each later one a signer
  of its predecessor made with `LockAddSigner` or `LockDisable`, so it is signed by a key of
  the predecessor. `UpdateLock` asks for a signature by a key of the record the device has
  pinned, which may be older. Proved: a device adopts the current record exactly when a
  signer of the record it has pinned signed it (`missed_records_adopted_iff`). A signer that
  was added while the device was away does not count (`a_new_signers_record_is_refused`).
-/

import Thawr.Client.Lock
import Thawr.Client.LockChain
import Thawr.Control.Lock

namespace Thawr.Client

open Go Netip Lock

/-! ## What a signer makes -/

section

variable {E : Ed25519} {d : Daemon} {connected : Bool} {s : Signed}

theorem signerContext_ok {k : Arr 32} {rec : Signed} (h : signerContext E d connected = .ok (k, rec)) :
    d.lockKey = some k ∧ d.pins.lock = some rec ∧ rec.record.enabled = true ∧
      rec.record.signerKey d.state.peerID = some (E.pub k) := by
  unfold signerContext at h
  grind

theorem signRecord_ok {k : Arr 32} {r : Record} (h : signRecord E k r = .ok s) : s.record = r := by
  unfold signRecord at h
  cases hw : r.signWith E k with
  | error e => rw [hw] at h; cases h
  | ok t =>
    rw [hw] at h
    cases h
    exact Record.signWith_ok hw

/-- A record made by `LockAddSigner` or `LockDisable` on a device. -/
def MadeOn (E : Ed25519) (d : Daemon) (s : Signed) : Prop :=
  (∃ connected name expected list, lockAddSigner E d connected name expected list = .ok s) ∨
    ∃ connected, lockDisable E d connected = .ok s

/-- Its maker had an enabled record pinned, and it keeps every signer of that one. -/
theorem MadeOn.keeps (h : MadeOn E d s) :
    ∃ rec, d.pins.lock = some rec ∧ rec.record.enabled = true ∧ rec.record.signers ⊆ s.record.signers := by
  rcases h with ⟨connected, name, expected, list, h⟩ | ⟨connected, h⟩
  · unfold lockAddSigner at h
    simp only at h
    split at h
    · cases h
    · obtain ⟨⟨k, rec⟩, hc, hmade⟩ := bind_ok.mp h
      obtain ⟨c, -, hsign⟩ := bind_ok.mp hmade
      obtain ⟨-, hl, hon, -⟩ := signerContext_ok hc
      refine ⟨rec, hl, hon, ?_⟩
      rw [signRecord_ok hsign]
      exact List.subset_append_left _ _
  · obtain ⟨⟨k, rec⟩, hc, hsign⟩ := bind_ok.mp h
    obtain ⟨-, hl, hon, -⟩ := signerContext_ok hc
    refine ⟨rec, hl, hon, ?_⟩
    rw [signRecord_ok hsign]
    exact List.Subset.refl _

theorem MadeOn.signers (h : MadeOn E d s) : s.record.signers ≠ [] := by
  obtain ⟨rec, -, hon, hsub⟩ := h.keeps
  intro hnil
  rw [hnil] at hsub
  exact signers_of_enabled hon (List.subset_nil.mp hsub)

end

/-! ## A server's records -/

/-- The records a server stored, oldest first, and its store after the last. -/
inductive History (E : Ed25519) : List Signed → Control.LockStore → Prop
  | first (st : Control.LockStore) (caller : Control.StorePeer) (sigs : List Control.PeerSigning) (s : Signed)
      {st' : Control.LockStore} : st.record = none → Control.set E st caller s sigs = .ok st' → History E [s] st'
  | next {hist : List Signed} {st st' : Control.LockStore} (caller : Control.StorePeer) (d : Daemon) (s : Signed) :
      History E hist st → d.pins.lock = st.record → MadeOn E d s → Control.set E st caller s [] = .ok st' →
      History E (hist ++ [s]) st'

section

variable {E : Ed25519} {hist : List Signed} {st : Control.LockStore}

/-- Every record before the last is enabled and has a lower generation. -/
theorem History.earlier (h : History E hist st) {r c : Signed} (hr : r ∈ hist) (hc : st.record = some c) :
    r = c ∨ r.record.enabled = true ∧ r.record.generation < c.record.generation := by
  induction h generalizing c with
  | first _ _ _ s _ hset =>
    rw [(Control.set_ok hset).1] at hc
    cases hc
    exact .inl (List.mem_singleton.mp hr)
  | @next hist st st' _ d s _ hpin hmade hset ih =>
    obtain ⟨hrec, hacc⟩ := Control.set_ok hset
    rw [hrec] at hc
    cases hc
    rcases List.mem_append.mp hr with hr | hr
    · obtain ⟨cur, hl, hon, -⟩ := hmade.keeps
      rw [hpin] at hl
      rw [hl] at hacc
      have hlt := (((accept_ok_iff E _ _).mp hacc).1 cur.record rfl (signers_of_enabled hon)).1
      grind
    · exact .inl (List.mem_singleton.mp hr)

/-- With a pinned record that has signers, a record of a higher generation is adopted exactly
    when one of them signed it. -/
theorem updateLock_newer {p : Pins} {r c : Signed} {expected : Str} (hp : p.lock = some r) (hs : r.record.signers ≠ [])
    (hgen : r.record.generation < c.record.generation) :
    (updateLock E p (some c) expected).1.lock = some c ↔ SignedBy E r.record c := by
  have hne : r ≠ c := by
    rintro rfl
    exact UInt64.lt_irrefl _ hgen
  constructor
  · intro h
    have hmoved : (updateLock E p (some c) expected).1.lock ≠ p.lock := by
      rw [h, hp]
      exact fun he => hne (Option.some.inj he).symm
    obtain ⟨s, ho, -, ha⟩ := updateLock_moved hmoved
    cases ho
    exact (ha.follows.bySigner r hp hs).2
  · intro hsig
    have hacc : accept E (some r.record) c = .ok () := by
      refine (accept_ok_iff E _ _).mpr ⟨fun cur hcur _ => ?_, fun hall => absurd (hall _ rfl) hs⟩
      cases hcur
      exact ⟨hgen, hsig⟩
    unfold updateLock
    simp [hp, hacc, UInt64.ne_of_lt hgen]

theorem signedBy_of_accept {r : Record} {c : Signed} (h : accept E (some r) c = .ok ()) (hs : r.signers ≠ []) :
    SignedBy E r c := (((accept_ok_iff E _ _).mp h).1 r rfl hs).2

/-- A device that has an earlier record of the history pinned, offered the current one. -/
theorem missed_records_adopted_iff {p : Pins} {r c : Signed} {expected : Str} (h : History E hist st) (hr : r ∈ hist)
    (hc : st.record = some c) (hne : r ≠ c) (hp : p.lock = some r) :
    (updateLock E p (some c) expected).1.lock = some c ↔ SignedBy E r.record c := by
  obtain ⟨hon, hgen⟩ := (h.earlier hr hc).resolve_left hne
  exact updateLock_newer hp (signers_of_enabled hon) hgen

end

/-! ## A device that was away -/

def signerNo (k : Nat) (id : String) : Signer := ⟨Arr.ofNat 32 k, str id⟩

def twoSigners : Signed := signedNo 1 ⟨2, false, [signerNo 1 "a", signerNo 2 "b"]⟩

def threeSigners : Signed := signedNo 2 ⟨3, false, [signerNo 1 "a", signerNo 2 "b", signerNo 3 "c"]⟩

def signerDevice (k : Nat) (id : String) (s : Signed) : Daemon :=
  { lockKey := some (Arr.ofNat 32 k), state := { peerID := str id }, pins := { lock := some s } }

def storing (o : Option Signed) : Control.LockStore := { record := o, users := [⟨str "u", str "ada", .admin⟩] }

def deviceOf (id : String) : Control.StorePeer := { id := str id, name := str id, publicKey := [], ownerID := str "u" }

theorem adds_signer {k : Nat} {id : String} {s t : Signed} (name : String) (n : Nat)
    (h : lockAddSigner sample.ed (signerDevice k id s) true (str name) (text (Arr.ofNat 32 n : PublicKey))
      [⟨str name, str name, text (Arr.ofNat 32 n : PublicKey)⟩] = .ok t) : MadeOn sample.ed (signerDevice k id s) t :=
  .inl ⟨_, _, _, _, h⟩

theorem history_one : History sample.ed [signedNo 1 oneSigner] (storing (some (signedNo 1 oneSigner))) :=
  .first (storing none) (deviceOf "a") [] _ rfl (by decide +kernel)

theorem history_two : History sample.ed [signedNo 1 oneSigner, twoSigners] (storing (some twoSigners)) :=
  .next (deviceOf "a") (signerDevice 1 "a" (signedNo 1 oneSigner)) twoSigners history_one rfl
    (adds_signer "b" 2 (by decide +kernel)) (by decide +kernel)

theorem history_three :
    History sample.ed [signedNo 1 oneSigner, twoSigners, threeSigners] (storing (some threeSigners)) :=
  .next (deviceOf "b") (signerDevice 2 "b" twoSigners) threeSigners history_two rfl (adds_signer "c" 3 (by decide +kernel))
    (by decide +kernel)

/-- A device that saw only the first record takes the one a signed. -/
theorem the_second_record_is_adopted :
    (updateLock sample.ed { lock := some (signedNo 1 oneSigner) } (some twoSigners) []).1.lock = some twoSigners := by
  refine (missed_records_adopted_iff (r := signedNo 1 oneSigner) history_two List.mem_cons_self rfl (by decide +kernel)
    rfl).mpr ?_
  exact signedBy_of_accept (by decide +kernel) (by decide)

/-- It refuses the one b signed, which every device that saw the second record takes. -/
theorem a_new_signers_record_is_refused :
    History sample.ed [signedNo 1 oneSigner, twoSigners, threeSigners] (storing (some threeSigners)) ∧
      (updateLock sample.ed { lock := some (signedNo 1 oneSigner) } (some threeSigners) []).1.lock =
        some (signedNo 1 oneSigner) ∧
      (updateLock sample.ed { lock := some twoSigners } (some threeSigners) []).1.lock = some threeSigners :=
  ⟨history_three, by decide +kernel, by decide +kernel⟩

end Thawr.Client
