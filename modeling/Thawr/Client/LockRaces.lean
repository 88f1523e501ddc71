/-
  Thawr.Client.LockRaces — netmaps and lock operations of one device interleaved, against an
  honest server.

  A lock operation reads the pin under `mu`, sends its record without `mu`, and pins what it
  sent under `mu` when the server took it (`setLockRecord`). Anything may happen in between.
  The server's records form one chain of rising generations; every netmap carries the newest
  record at the time it was built, and netmaps arrive in order.

  `Pins.SetLock` writes its record whatever is pinned by then. Proved: as long as nothing
  newer is pinned or received between the server taking a record and its `SetLock`, the
  generation pinned never goes down (`pin_never_rolls_back`). When a netmap with a newer
  record gets in between, `SetLock` undoes it (`setLock_rolls_back`). A pinned record without
  signers gives way to any other, so the netmap that brings one must be written and kept.
-/

import Thawr.Client.LockHistory

namespace Thawr.Client

open Go Netip Lock

/-- A lock operation past its first part: its record on the way to the server, or taken by
    the server and not pinned yet. -/
inductive Pending where
  | sending (s : Signed)
  | stored (s : Signed)
  deriving DecidableEq

structure World where
  /-- The server's records, oldest first. -/
  recs : List Signed
  /-- How many of them there were when the netmap last applied was built. -/
  sent : Nat
  d : Daemon
  pending : List Pending := []

structure NextRecord (E : Ed25519) (recs : List Signed) (s : Signed) : Prop where
  accepted : accept E (recs.getLast?.map (·.record)) s = .ok ()
  newer : ∀ r ∈ recs, r.record.generation < s.record.generation

inductive WEv where
  /-- Another device's record reaches the server. -/
  | other (s : Signed)
  /-- A netmap built when the server had `j` records is applied. -/
  | netmap (env : Env) (nm : NetMap) (j : Nat)
  | reapply (env : Env)
  /-- `LockInit` up to its request. -/
  | init (wgPub : Wg.Key → Wg.Key) (fresh : Arr 32) (r : InitRequest)
  /-- `LockAddSigner` or `LockDisable` up to its request. -/
  | make (s : Signed)
  | rpc (s : Signed)
  | rpcFails (s : Signed)
  /-- `Pins.SetLock`, with how its write goes. -/
  | pin (saveOk : Bool) (s : Signed)

/-- When an event can happen. -/
def Can (X : Ext) (w : World) : WEv → Prop
  | .other s => NextRecord X.ed w.recs s
  | .netmap _ nm j => w.sent ≤ j ∧ j ≤ w.recs.length ∧ nm.lock = (w.recs.take j).getLast?
  | .reapply _ => True
  | .init wgPub fresh r => lockInit X.ed wgPub w.d true fresh = .ok r
  | .make s => MadeOn X.ed w.d s
  | .rpc s => .sending s ∈ w.pending ∧ NextRecord X.ed w.recs s
  | .rpcFails s => .sending s ∈ w.pending
  | .pin _ s => .stored s ∈ w.pending

def World.after (X : Ext) (w : World) : WEv → World
  | .other s => { w with recs := w.recs ++ [s] }
  | .netmap env nm j => { w with d := (admitMap X env w.d nm).1, sent := j }
  | .reapply env => { w with d := reapply X env w.d }
  | .init _ fresh r =>
    { w with d := { w.d with lockKey := some (ensureLockKey w.d fresh) }, pending := .sending r.record :: w.pending }
  | .make s => { w with pending := .sending s :: w.pending }
  | .rpc s => { w with recs := w.recs ++ [s], pending := .stored s :: w.pending.erase (.sending s) }
  | .rpcFails s => { w with pending := w.pending.erase (.sending s) }
  | .pin ok s => { w with d := { w.d with pins := setLock ok w.d.pins s }, pending := w.pending.erase (.stored s) }

structure WStart (w : World) : Prop where
  idle : w.pending = []
  unoffered : w.d.offered = none
  rising : w.recs.Pairwise fun a b => a.record.generation < b.record.generation
  sentLe : w.sent ≤ w.recs.length
  pinned : ∀ r, w.d.pins.lock = some r → r ∈ w.recs.take w.sent

abbrev WReach (X : Ext) (ok : World → WEv → Prop) : World → Prop :=
  Conc.Reach WStart (fun w e => some (w.after X e)) fun w e => Can X w e ∧ ok w e

/-- While the server has taken a record that is not pinned yet, no netmap with a newer record
    is applied and no newer record of the device's own is pinned. A netmap that offers a
    record without signers is written. -/
def Undisturbed (w : World) : WEv → Prop
  | .netmap env nm _ => ∀ c, nm.lock = some c → (c.record.signers = [] → env.saveOk = true) ∧
      ∀ s, .stored s ∈ w.pending → c.record.generation ≤ s.record.generation
  | .pin _ s => ∀ t, .stored t ∈ w.pending.erase (.stored s) → s.record.generation ≤ t.record.generation
  | _ => True

/-- The pin is kept or replaced by one of at least its generation. -/
def NotOlder (before after : Option Signed) : Prop :=
  ∀ r, before = some r → ∃ r', after = some r' ∧ r.record.generation ≤ r'.record.generation

theorem NotOlder.refl (o : Option Signed) : NotOlder o o := fun r h => ⟨r, h, UInt64.le_refl _⟩

/-- A netmap was built when the server had `i` of its records: it carries the newest. -/
structure BuiltAt (recs : List Signed) (pin : Option Signed) (nm : NetMap) (i : Nat) : Prop where
  newest : nm.lock = (recs.take i).getLast?
  /-- A pinned record without signers was there by then, so nothing older replaces it. -/
  restart : ∀ r, pin = some r → r.record.signers = [] → r ∈ recs.take i

structure WInv (w : World) : Prop where
  rising : w.recs.Pairwise fun a b => a.record.generation < b.record.generation
  sentLe : w.sent ≤ w.recs.length
  pinned : ∀ r, w.d.pins.lock = some r → r ∈ w.recs
  /-- A record without signers is pinned only by a netmap. -/
  restart : ∀ r, w.d.pins.lock = some r → r.record.signers = [] → r ∈ w.recs.take w.sent
  offered : ∀ nm, w.d.offered = some nm → ∃ i ≤ w.sent, BuiltAt w.recs w.d.pins.lock nm i
  sending : ∀ s, .sending s ∈ w.pending → s.record.signers ≠ []
  stored : ∀ s, .stored s ∈ w.pending → s ∈ w.recs ∧ s.record.signers ≠ []
  /-- Neither the pin nor the netmap kept is newer than a record about to be pinned. -/
  newest : ∀ s, .stored s ∈ w.pending →
    (∀ r, w.d.pins.lock = some r → r.record.generation ≤ s.record.generation) ∧
      ∀ nm c, w.d.offered = some nm → nm.lock = some c → c.record.generation ≤ s.record.generation

section

variable {X : Ext} {w : World}

theorem WStart.inv (h : WStart w) : WInv w where
  rising := h.rising
  sentLe := h.sentLe
  pinned r hr := List.mem_of_mem_take (h.pinned r hr)
  restart r hr _ := h.pinned r hr
  offered nm ho := by rw [h.unoffered] at ho; cases ho
  sending s hs := by rw [h.idle] at hs; cases hs
  stored s hs := by rw [h.idle] at hs; cases hs
  newest s hs := by rw [h.idle] at hs; cases hs

/-- In a rising list the last element of a prefix is the newest of it. -/
theorem newest_of_take {l : List Signed} {s r : Signed}
    (h : l.Pairwise fun a b => a.record.generation < b.record.generation) (hs : l.getLast? = some s) (hr : r ∈ l) :
    r.record.generation ≤ s.record.generation := by
  obtain ⟨l', rfl⟩ := List.getLast?_eq_some_iff.mp hs
  rcases List.mem_append.mp hr with hr | hr
  · exact UInt64.le_of_lt ((List.pairwise_append.mp h).2.2 r hr s (List.mem_singleton_self s))
  · rw [List.mem_singleton.mp hr]
    exact UInt64.le_refl _

/-- The server stores one more record. -/
theorem WInv.grow (hi : WInv w) {s : Signed} (hn : NextRecord X.ed w.recs s) : WInv { w with recs := w.recs ++ [s] } where
  rising := by
    refine List.pairwise_append.mpr ⟨hi.rising, List.pairwise_singleton _ _, fun a ha b hb => ?_⟩
    rw [List.mem_singleton.mp hb]
    exact hn.newer a ha
  sentLe := by
    have h := hi.sentLe
    simp only [List.length_append]
    omega
  pinned r hr := List.mem_append_left _ (hi.pinned r hr)
  restart r hr hnil := by
    rw [List.take_append_of_le_length hi.sentLe]
    exact hi.restart r hr hnil
  offered nm ho := by
    obtain ⟨i, hle, hl, hr⟩ := hi.offered nm ho
    have htake : (w.recs ++ [s]).take i = w.recs.take i := List.take_append_of_le_length (hle.trans hi.sentLe)
    exact ⟨i, hle, by rw [htake]; exact hl, by rw [htake]; exact hr⟩
  sending := hi.sending
  stored t ht := by
    obtain ⟨hm, hne⟩ := hi.stored t ht
    exact ⟨List.mem_append_left _ hm, hne⟩
  newest := hi.newest

/-- A netmap built when the server had `i` records: the pin stays or becomes the newest of
    them, which is not older. -/
theorem admit_pin (hi : WInv w) {env : Env} {nm : NetMap} {i : Nat} (hb : BuiltAt w.recs w.d.pins.lock nm i) :
    NotOlder w.d.pins.lock (admitMap X env w.d nm).1.pins.lock ∧
      ((admitMap X env w.d nm).1.pins.lock = w.d.pins.lock ∨
        ∃ s ∈ w.recs.take i, nm.lock = some s ∧ (admitMap X env w.d nm).1.pins.lock = some s) := by
  rw [admit_lock]
  by_cases hsame : (lockedPins X w.d nm).lock = w.d.pins.lock
  · rw [hsame]
    exact ⟨.refl _, .inl rfl⟩
  · obtain ⟨s, ho, hs, ha⟩ := updateLock_moved hsame
    have hlast : (w.recs.take i).getLast? = some s := hb.newest.symm.trans ho
    refine ⟨fun r hr => ⟨s, hs, ?_⟩, .inr ⟨s, List.mem_of_getLast? hlast, ho, hs⟩⟩
    by_cases hnil : r.record.signers = []
    · exact newest_of_take (hi.rising.sublist (List.take_sublist i _)) hlast (hb.restart r hr hnil)
    · exact UInt64.le_of_lt (ha.follows.bySigner r hr hnil).1

/-- A netmap in order, built when the server had `j` records. -/
theorem WInv.built (hi : WInv w) {nm : NetMap} {j : Nat} (hj : w.sent ≤ j) (hl : nm.lock = (w.recs.take j).getLast?) :
    BuiltAt w.recs w.d.pins.lock nm j := ⟨hl, fun r hr hnil => List.take_subset_take_left w.recs hj (hi.restart r hr hnil)⟩

/-- An apply keeps the netmap it gets, or the one kept before. -/
theorem admit_offered (X : Ext) (env : Env) (d : Daemon) (nm : NetMap) :
    (admitMap X env d nm).1.offered = some nm ∨
      env.saveOk = false ∧ (admitMap X env d nm).1.offered = d.offered := by
  cases hr : (admitMap X env d nm).2 with
  | some applied => exact .inl (admit_some hr).1
  | none =>
    refine .inr ⟨?_, (admit_none hr).1⟩
    by_contra hok
    rw [admit_eq, saveFails_false (by simpa using hok)] at hr
    cases hr

/-- An apply of a netmap that offers nothing newer than a record about to be pinned, and that
    is kept when it brings a record without signers. -/
theorem WInv.applied (hi : WInv w) {env : Env} {nm : NetMap} {i j : Nat} (hb : BuiltAt w.recs w.d.pins.lock nm i) (hij : i ≤ j)
    (hj : w.sent ≤ j) (hle : j ≤ w.recs.length)
    (hkept : ∀ c, nm.lock = some c → c.record.signers = [] → (admitMap X env w.d nm).1.offered = some nm)
    (hnew : ∀ c, nm.lock = some c → ∀ s, .stored s ∈ w.pending → c.record.generation ≤ s.record.generation) :
    WInv { w with d := (admitMap X env w.d nm).1, sent := j } := by
  obtain ⟨-, hpin⟩ := @admit_pin X w hi env nm i hb
  have hbuilt : BuiltAt w.recs (admitMap X env w.d nm).1.pins.lock nm i := by
    refine ⟨hb.newest, fun r hr hnil => ?_⟩
    rcases hpin with he | ⟨s, hs, -, he⟩
    · exact hb.restart r (he.symm.trans hr) hnil
    · cases he.symm.trans hr
      exact hs
  refine ⟨hi.rising, hle, fun r hr => ?_, fun r hr hnil => ?_, fun nm' ho => ?_, hi.sending, hi.stored,
    fun s hs => ⟨fun r hr => ?_, fun nm' c ho hc => ?_⟩⟩
  · rcases hpin with he | ⟨s, hs, -, he⟩
    · exact hi.pinned r (he.symm.trans hr)
    · cases he.symm.trans hr
      exact List.mem_of_mem_take hs
  · exact List.take_subset_take_left w.recs hij (hbuilt.restart r hr hnil)
  · by_cases hk : (admitMap X env w.d nm).1.offered = some nm
    · cases hk.symm.trans ho
      exact ⟨i, hij, hbuilt⟩
    · have he := ((admit_offered X env w.d nm).resolve_left hk).2
      obtain ⟨k, hle', hb'⟩ := hi.offered nm' (he.symm.trans ho)
      refine ⟨k, hle'.trans hj, hb'.newest, fun r hr hnil => ?_⟩
      rcases hpin with hp | ⟨t, -, hlt, hp⟩
      · exact hb'.restart r (hp.symm.trans hr) hnil
      · -- a record without signers that came with this netmap: then the netmap was kept
        cases hp.symm.trans hr
        exact absurd (hkept r hlt hnil) hk
  · rcases hpin with he | ⟨t, -, hlt, he⟩
    · exact (hi.newest s hs).1 r (he.symm.trans hr)
    · cases he.symm.trans hr
      exact hnew r hlt s hs
  · rcases admit_offered X env w.d nm with he | ⟨-, he⟩
    · cases he.symm.trans ho
      exact hnew c hc s hs
    · exact (hi.newest s hs).2 nm' c (he.symm.trans ho) hc

/-- A request goes out; the pins and the netmap kept stay as they are. -/
theorem WInv.send {d : Daemon} {s : Signed} (hi : WInv w) (hs : s.record.signers ≠ []) (hlock : d.pins.lock = w.d.pins.lock)
    (hoffered : d.offered = w.d.offered) : WInv { w with d := d, pending := .sending s :: w.pending } := by
  have hstored : ∀ t, .stored t ∈ Pending.sending s :: w.pending → .stored t ∈ w.pending := by
    intro t ht
    rcases List.mem_cons.mp ht with he | ht
    · cases he
    · exact ht
  refine ⟨hi.rising, hi.sentLe, ?_, ?_, ?_, fun t ht => ?_, fun t ht => hi.stored t (hstored t ht), fun t ht => ?_⟩
  · rw [hlock]
    exact hi.pinned
  · rw [hlock]
    exact hi.restart
  · rw [hlock, hoffered]
    exact hi.offered
  · rcases List.mem_cons.mp ht with he | ht
    · cases he
      exact hs
    · exact hi.sending t ht
  · rw [hlock, hoffered]
    exact hi.newest t (hstored t ht)

/-- The server takes a record. -/
theorem WInv.store {s : Signed} (hi : WInv w) (hp : .sending s ∈ w.pending) (hn : NextRecord X.ed w.recs s) :
    WInv { w with recs := w.recs ++ [s], pending := .stored s :: w.pending.erase (.sending s) } := by
  have hg := hi.grow hn
  refine { hg with sending := fun t ht => ?_, stored := fun t ht => ?_, newest := fun t ht => ?_ }
  · rcases List.mem_cons.mp ht with he | ht
    · cases he
    · exact hi.sending t (List.mem_of_mem_erase ht)
  · rcases List.mem_cons.mp ht with he | ht
    · cases he
      exact ⟨List.mem_append_right _ (List.mem_singleton_self s), hi.sending s hp⟩
    · exact hg.stored t (List.mem_of_mem_erase ht)
  · rcases List.mem_cons.mp ht with he | ht
    · -- the record just taken is newer than all there were
      cases he
      refine ⟨fun r hr => UInt64.le_of_lt (hn.newer r (hi.pinned r hr)), fun nm c ho hc => ?_⟩
      obtain ⟨i, -, hb⟩ := hi.offered nm ho
      have hmem : c ∈ w.recs.take i := List.mem_of_getLast? (hb.newest.symm.trans hc)
      exact UInt64.le_of_lt (hn.newer c (List.mem_of_mem_take hmem))
    · exact hi.newest t (List.mem_of_mem_erase ht)

/-- The device pins a record the server took, none newer being under way. -/
theorem WInv.pin {ok : Bool} {s : Signed} (hi : WInv w) (hp : .stored s ∈ w.pending)
    (hok : ∀ t, .stored t ∈ w.pending.erase (.stored s) → s.record.generation ≤ t.record.generation) :
    WInv { w with d := { w.d with pins := setLock ok w.d.pins s }, pending := w.pending.erase (.stored s) } ∧
      NotOlder w.d.pins.lock (setLock ok w.d.pins s).lock := by
  obtain ⟨hmem, hne⟩ := hi.stored s hp
  have hlock : (setLock ok w.d.pins s).lock = some s := by
    unfold setLock
    rw [saved_lock]
  have hown : ∀ {r : Signed}, (setLock ok w.d.pins s).lock = some r → r = s := by
    intro r hr
    exact Option.some.inj (hr.symm.trans hlock)
  refine ⟨⟨hi.rising, hi.sentLe, fun r hr => ?_, fun r hr hnil => ?_, fun nm ho => ?_,
    fun t ht => hi.sending t (List.mem_of_mem_erase ht), fun t ht => hi.stored t (List.mem_of_mem_erase ht),
    fun t ht => ⟨fun r hr => ?_, (hi.newest t (List.mem_of_mem_erase ht)).2⟩⟩,
    fun r hr => ⟨s, hlock, (hi.newest s hp).1 r hr⟩⟩
  · rw [hown hr]
    exact hmem
  · rw [hown hr] at hnil
    exact absurd hnil hne
  · obtain ⟨i, hle, hb⟩ := hi.offered nm ho
    refine ⟨i, hle, hb.newest, fun r hr hnil => ?_⟩
    rw [hown hr] at hnil
    exact absurd hnil hne
  · rw [hown hr]
    exact hok t ht

/-- An undisturbed step keeps the invariant and does not roll the pin back. -/
theorem WInv.after {e : WEv} (hi : WInv w) (hcan : Can X w e) (hok : Undisturbed w e) :
    WInv (w.after X e) ∧ NotOlder w.d.pins.lock (w.after X e).d.pins.lock := by
  cases e with
  | other s => exact ⟨hi.grow hcan, .refl _⟩
  | netmap env nm j =>
    obtain ⟨hj, hle, hl⟩ := hcan
    have hb := hi.built hj hl
    refine ⟨hi.applied hb (Nat.le_refl j) hj hle (fun c hc hnil => ?_) (fun c hc => (hok c hc).2), (admit_pin hi hb).1⟩
    refine (admit_offered X env w.d nm).resolve_right fun hf => ?_
    rw [(hok c hc).1 hnil] at hf
    exact absurd hf.1 (by decide)
  | reapply env =>
    unfold World.after Client.reapply
    cases ho : w.d.offered with
    | none => exact ⟨hi, .refl _⟩
    | some nm =>
      -- the netmap kept stays the netmap kept, written or not
      obtain ⟨i, hle, hb⟩ := hi.offered nm ho
      refine ⟨hi.applied hb hle (Nat.le_refl _) hi.sentLe (fun _ _ _ => ?_)
        (fun c hc s hs => (hi.newest s hs).2 nm c ho hc), (admit_pin hi hb).1⟩
      rcases admit_offered X env w.d nm with he | ⟨-, he⟩
      · exact he
      · exact he.trans ho
  | init wgPub fresh r => exact ⟨hi.send (lockInit_ok hcan).1 rfl rfl, .refl _⟩
  | make s => exact ⟨hi.send hcan.signers rfl rfl, .refl _⟩
  | rpc s => exact ⟨hi.store hcan.1 hcan.2, .refl _⟩
  | rpcFails s =>
    refine ⟨{ hi with sending := fun t ht => ?_, stored := fun t ht => ?_, newest := fun t ht => ?_ }, .refl _⟩
    · exact hi.sending t (List.mem_of_mem_erase ht)
    · exact hi.stored t (List.mem_of_mem_erase ht)
    · exact hi.newest t (List.mem_of_mem_erase ht)
  | pin ok s => exact hi.pin hcan hok

theorem WReach.winv (h : WReach X Undisturbed w) : WInv w := by
  refine h.inv (fun _ hs => hs.inv) fun w e w' hi hok hs => ?_
  cases hs
  exact (hi.after hok.1 hok.2).1

/-- In every undisturbed run no step lowers the generation pinned. -/
theorem pin_never_rolls_back {e : WEv} (h : WReach X Undisturbed w) (hcan : Can X w e) (hok : Undisturbed w e) :
    NotOlder w.d.pins.lock (w.after X e).d.pins.lock := ((WReach.winv h).after hcan hok).2

end

/-! ## `SetLock` undoes a newer record -/

/-- The device of a, which has the second record pinned and adds c. -/
def aAddsC : Signed := signedNo 1 ⟨3, false, [signerNo 1 "a", signerNo 2 "b", signerNo 3 "c"]⟩

def bDisables : Signed := signedNo 2 ⟨4, true, [signerNo 1 "a", signerNo 2 "b", signerNo 3 "c"]⟩

def raceStart : World := { recs := [twoSigners], sent := 1, d := signerDevice 1 "a" twoSigners }

def raceStored : World := { raceStart with recs := [twoSigners, aAddsC], pending := [.stored aAddsC] }

theorem raceStored_reach {ok : World → WEv → Prop} (hmake : ∀ w s, ok w (.make s)) (hrpc : ∀ w s, ok w (.rpc s)) :
    WReach sample ok raceStored := by
  have hstart : WStart raceStart :=
    ⟨rfl, rfl, List.pairwise_singleton _ _, Nat.le_refl _, fun r hr => by cases hr; exact List.mem_singleton_self _⟩
  have hsent : WReach sample ok { raceStart with pending := [.sending aAddsC] } :=
    .step (.make aAddsC) (.start hstart) ⟨adds_signer "c" 3 (by decide +kernel), hmake _ _⟩ rfl
  refine .step (.rpc aAddsC) hsent ⟨⟨List.mem_cons_self, by decide +kernel, by decide +kernel⟩, hrpc _ _⟩ ?_
  simp only [World.after, List.erase_cons_head]
  rfl

/-- Left alone, a pins its own record over the second. -/
theorem own_record_pinned : (raceStored.after sample (.pin true aAddsC)).d.pins.lock = some aAddsC ∧
      NotOlder raceStored.d.pins.lock (raceStored.after sample (.pin true aAddsC)).d.pins.lock := by
  refine ⟨rfl, pin_never_rolls_back (raceStored_reach (fun _ _ => trivial) fun _ _ => trivial) List.mem_cons_self ?_⟩
  intro t ht
  have hnil : raceStored.pending.erase (.stored aAddsC) = [] := List.erase_cons_head _ _
  rw [hnil] at ht
  cases ht

def raceApplied : World :=
  { raceStored with
    recs := [twoSigners, aAddsC, bDisables], sent := 3
    d := (admitMap sample {} raceStored.d (offering bDisables)).1 }

/-- The lock is off when b says so, and a's late `SetLock` turns it on again: generation 3
    over 4. -/
theorem setLock_rolls_back :
    WReach sample (fun _ _ => True) raceApplied ∧ Can sample raceApplied (.pin true aAddsC) ∧
      raceApplied.d.pins.lock = some bDisables ∧ (raceApplied.after sample (.pin true aAddsC)).d.pins.lock = some aAddsC ∧
      ¬NotOlder raceApplied.d.pins.lock (raceApplied.after sample (.pin true aAddsC)).d.pins.lock := by
  have hother : WReach sample (fun _ _ => True) { raceStored with recs := [twoSigners, aAddsC, bDisables] } :=
    .step (.other bDisables) (raceStored_reach (fun _ _ => trivial) fun _ _ => trivial)
      ⟨⟨by decide +kernel, by decide +kernel⟩, trivial⟩ rfl
  have hlock : raceApplied.d.pins.lock = some bDisables := by decide +kernel
  refine ⟨.step (.netmap {} (offering bDisables) 3) hother ⟨⟨by decide, by decide, rfl⟩, trivial⟩ rfl,
    List.mem_cons_self, hlock, rfl,
    fun h => ?_⟩
  obtain ⟨r, hr, hle⟩ := h bDisables hlock
  cases hr
  exact absurd hle (by decide)

end Thawr.Client
