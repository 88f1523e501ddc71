/-
  Thawr.Client.Held — which entries of a netmap are held (`HoldUnsigned` and `Apply` in
  `internal/client/pins.go`), told from the pins, the lock record and the signatures.

  An entry is held when the lock is on and no signer signed it, or when the pin its name has
  is another one. The pin of a name is the one the device has; with the lock on, that of the
  last entry of the name a signer vouched for; and for a new name, that of the first entry
  that comes with it, whose key may have travelled with its id. The hub is held likewise; a
  vouched entry named "hub" is pinned as the hub, and the hub is then held in its place.

  Proved: the two functions take the held entries out of a netmap and no other
  (`mem_checked_peers`, `checked_hub`).
-/

import Thawr.Client.Daemon

namespace Thawr.Client

open Go Netip Lock

/-- What `HoldUnsigned`, where a lock record is on, and then `Apply` leave of a netmap, and
    what `Apply` holds; `none` when the pins could not be written. -/
def checkedMap (X : Ext) (env : Env) (prev : List HeldStatus) (p : Pins) (set : Option Record) (nm : NetMap) :
    Option (NetMap × List HeldStatus) :=
  match set with
  | none => (apply X.sort env.order env.saveOk p nm env.now prev).2
  | some set =>
    let r := holdUnsigned X.ed p nm set env.now prev
    (apply X.sort env.order env.saveOk r.1 r.2.1 env.now prev).2

/-! ## Held entries -/

/-- What a netmap is checked against; `order` is how `Apply` visits the pins, `set` the lock
    record if the lock is on. -/
structure Checks where
  ed : Ed25519
  order : List (Σ _ : Str, PinEntry)
  pins : Pins
  set : Option Record

namespace Checks

variable (c : Checks)

/-- With the lock on, one of its signers signed the entry. -/
def signed (q : Peer) : Bool := c.set.all fun set => signedBy c.ed set q.id q.name q.publicKey q.signatures

def hubSigned (hub : HubPeer) : Bool := c.set.all fun set => signedBy c.ed set hubID hubID hub.publicKey hub.signatures

/-- An entry `Apply` compares with a pin. -/
def compared (name : Str) (q : Peer) : Bool := !skips q && c.signed q && q.name == name

/-- With the lock on, the last entry of a name is accepted into the pins. -/
def vouched (l : List Peer) (name : Str) : Option Peer := if c.set.isSome then l.reverse.find? (c.compared name) else none

/-- The pin of a name before `Apply` looks at its entries. -/
def known (l : List Peer) (name : Str) : Option PinEntry :=
  (if name = hubName then none else (c.vouched l name).map fun q => ⟨q.id, q.publicKey⟩).or (c.pins.peers.lookup name)

/-- The pin the entries of a name are compared with. -/
def namePin (l : List Peer) (name : Str) : Option PinEntry :=
  (c.known l name).or ((l.find? (c.compared name)).map fun q => (movedPin c.order q.id).getD ⟨q.id, q.publicKey⟩)

def Held (l : List Peer) (q : Peer) : Prop :=
  skips q = false ∧ (c.signed q = true → c.namePin l q.name ≠ some ⟨q.id, q.publicKey⟩)

instance (l : List Peer) (q : Peer) : Decidable (c.Held l q) := inferInstanceAs (Decidable (_ ∧ _))

/-- The key the hub is compared with, empty when there is none. -/
def hubPin (nm : NetMap) : Str :=
  if c.set.isSome then ((c.vouched nm.peers hubName).map (·.publicKey)).getD nm.hub.publicKey else c.pins.hub

def HubHeld (nm : NetMap) : Prop :=
  nm.hub.publicKey ≠ [] ∧ (c.hubSigned nm.hub = true → c.hubPin nm ≠ [] ∧ c.hubPin nm ≠ nm.hub.publicKey)

instance (nm : NetMap) : Decidable (c.HubHeld nm) := inferInstanceAs (Decidable (_ ∧ _))

end Checks

/-! ## `Apply` -/

section

variable {order : List (Σ _ : Str, PinEntry)} {p : Pins} {nm : NetMap} {now : Int} {prev : List HeldStatus} {l : List Peer}
  {q : Peer} {s : Pass} {n : Str}

/-- The pin of a name once `Apply` has seen the entries `l`. -/
def pinOf (order : List (Σ _ : Str, PinEntry)) (p : Pins) (l : List Peer) (n : Str) : Option PinEntry :=
  (p.peers.lookup n).or
    ((l.find? fun q => !skips q && q.name == n).map fun q => (movedPin order q.id).getD ⟨q.id, q.publicKey⟩)

theorem pinOf_concat (order : List (Σ _ : Str, PinEntry)) (p : Pins) (l : List Peer) (q : Peer) (n : Str) :
    pinOf order p (l ++ [q]) n =
      (pinOf order p l n).or
        (if !skips q && q.name == n then some ((movedPin order q.id).getD ⟨q.id, q.publicKey⟩) else none) := by
  unfold pinOf
  rw [List.find?_append, Option.map_or, Option.or_assoc, List.find?_singleton]
  split <;> rfl

/-- A name that has come has a pin. -/
theorem pinOf_of_mem (hq : q ∈ l) (hskip : skips q = false) : ∃ e, pinOf order p l q.name = some e := by
  have hfound : (l.find? fun r => !skips r && r.name == q.name).isSome = true := by
    rw [List.find?_isSome]
    exact ⟨q, hq, by simp [hskip]⟩
  obtain ⟨r, hr⟩ := Option.isSome_iff_exists.mp hfound
  unfold pinOf
  rw [hr]
  cases p.peers.lookup q.name with
  | none => exact ⟨_, rfl⟩
  | some e => exact ⟨e, rfl⟩

/-- What `Apply` has made of the entries `l`. -/
structure Applied (order : List (Σ _ : Str, PinEntry)) (p : Pins) (l : List Peer) (s : Pass) : Prop where
  pins : ∀ n, s.pins.peers.lookup n = pinOf order p l n
  out : ∀ q, q ∈ s.peers ↔ q ∈ l ∧ (skips q = true ∨ pinOf order p l q.name = some ⟨q.id, q.publicKey⟩)

theorem applyHub_applied : Applied order p [] (applyHub p nm now prev) := by
  have hpins : (applyHub p nm now prev).pins.peers = p.peers ∧ (applyHub p nm now prev).peers = [] := by
    unfold applyHub
    split_ifs
    all_goals exact ⟨rfl, rfl⟩
  refine ⟨fun n => ?_, fun q => ?_⟩
  · rw [hpins.1]
    simp [pinOf]
  · simp [hpins.2]

/-- The entry is compared with the pin its name has once it is visited. -/
theorem pinFor_eq (h : Applied order p l s) (hskip : skips q = false) :
    pinOf order p (l ++ [q]) q.name = some (pinFor order s.pins q) := by
  have hpin := h.pins q.name
  unfold pinFor
  rw [pinOf_concat]
  cases hl : s.pins.peers.lookup q.name with
  | some e =>
    rw [← hpin, hl]
    rfl
  | none =>
    rw [← hpin, hl]
    simp [hskip]

theorem pinName_pins (h : Applied order p l s) (hskip : skips q = false) (n : Str) :
    (pinName order s q).pins.peers.lookup n = pinOf order p (l ++ [q]) n := by
  by_cases hn : n = q.name
  · rw [hn, pinName_lookup, pinFor_eq h hskip]
  · have hkeep : pinOf order p (l ++ [q]) n = pinOf order p l n := by
      rw [pinOf_concat, if_neg (by simp [Ne.symm hn])]
      simp
    rw [hkeep, ← h.pins n]
    unfold pinName
    cases s.pins.peers.lookup q.name with
    | some e => rfl
    | none => exact Finmap.lookup_insert_of_ne _ hn

/-- The pin of an entry that was visited stays. -/
theorem pinOf_keep {r : Peer} (hr : r ∈ l) (e : PinEntry) :
    (skips r = true ∨ pinOf order p (l ++ [q]) r.name = some e) ↔ (skips r = true ∨ pinOf order p l r.name = some e) := by
  cases hskip : skips r with
  | true => simp
  | false =>
    obtain ⟨f, hf⟩ : ∃ f, pinOf order p l r.name = some f := pinOf_of_mem hr hskip
    rw [pinOf_concat, hf]
    rfl

/-- The entries before go out as they did; the next one goes out when `b`. -/
theorem Applied.out_concat (h : Applied order p l s) {t : Pass} {b : Bool}
    (hpeers : t.peers = if b then s.peers ++ [q] else s.peers)
    (hown : (skips q = true ∨ pinOf order p (l ++ [q]) q.name = some ⟨q.id, q.publicKey⟩) ↔ b = true) (r : Peer) :
    r ∈ t.peers ↔ r ∈ l ++ [q] ∧ (skips r = true ∨ pinOf order p (l ++ [q]) r.name = some ⟨r.id, r.publicKey⟩) := by
  have hmem : r ∈ t.peers ↔ r ∈ s.peers ∨ r = q ∧ b = true := by
    rw [hpeers]
    cases b <;> simp
  rw [hmem, List.mem_append, List.mem_singleton, h.out r, or_and_right]
  refine or_congr (and_congr_right fun hr => (pinOf_keep hr _).symm) (and_congr_right ?_)
  rintro rfl
  exact hown.symm

theorem applyEntry_applied (h : Applied order p l s) : Applied order p (l ++ [q]) (applyEntry order now prev s q) := by
  unfold applyEntry
  by_cases hskip : skips q = true
  · rw [if_pos hskip]
    refine ⟨fun n => ?_, h.out_concat (b := true) rfl (by simp [hskip])⟩
    rw [pinOf_concat, if_neg (by simp [hskip]), Option.or_none]
    exact h.pins n
  · rw [if_neg hskip]
    have hskip' : skips q = false := by simpa using hskip
    have hpeers : (pinName order s q).peers = s.peers := by
      unfold pinName
      cases s.pins.peers.lookup q.name <;> rfl
    have hown : (skips q = true ∨ pinOf order p (l ++ [q]) q.name = some ⟨q.id, q.publicKey⟩) ↔
        pinFor order s.pins q = ⟨q.id, q.publicKey⟩ := by
      rw [pinFor_eq h hskip', Option.some_inj, or_iff_right hskip]
    by_cases hmatch : pinFor order s.pins q = ⟨q.id, q.publicKey⟩
    · simp only [if_pos hmatch]
      exact ⟨pinName_pins h hskip', h.out_concat (b := true) (by simp [hpeers]) (by simp [hown, hmatch])⟩
    · simp only [if_neg hmatch]
      exact ⟨pinName_pins h hskip', h.out_concat (b := false) hpeers (by simp [hown, hmatch])⟩

theorem applyPass_applied : Applied order p nm.peers (applyPass order p nm now prev) :=
  loop_inv applyHub_applied fun _ _ _ _ h => applyEntry_applied h

theorem applyPass_hub : (applyPass order p nm now prev).hub =
    if nm.hub.publicKey ≠ [] ∧ p.hub ≠ [] ∧ p.hub ≠ nm.hub.publicKey then {} else nm.hub := by
  have hkeep : (applyPass order p nm now prev).hub = (applyHub p nm now prev).hub := by
    refine loop_inv (I := fun _ (s : Pass) => s.hub = (applyHub p nm now prev).hub) rfl fun _ q t _ h => ?_
    rw [← h]
    unfold applyEntry pinName
    grind
  rw [hkeep]
  unfold applyHub
  grind

end

/-! ## `HoldUnsigned` -/

section

variable {E : Ed25519} {set : Record} {p : Pins} {nm : NetMap} {now : Int} {prev : List HeldStatus} {l : List Peer}
  {q : Peer} {s : Pass}

def signedAs (E : Ed25519) (set : Record) (n : Str) (q : Peer) : Bool :=
  !skips q && signedBy E set q.id q.name q.publicKey q.signatures && q.name == n

def hubAccepted (E : Ed25519) (set : Record) (hub : HubPeer) : Bool :=
  hub.publicKey != [] && signedBy E set hubID hubID hub.publicKey hub.signatures

/-- What `HoldUnsigned` has made of the entries `l`. -/
structure HeldBack (E : Ed25519) (set : Record) (p : Pins) (nm : NetMap) (l : List Peer) (s : Pass) : Prop where
  out : s.peers = l.filter fun q => skips q || signedBy E set q.id q.name q.publicKey q.signatures
  outHub : s.hub = if nm.hub.publicKey ≠ [] ∧ hubAccepted E set nm.hub = false then {} else nm.hub
  pins : ∀ n, s.pins.peers.lookup n =
    (if n = hubName then none else (l.reverse.find? (signedAs E set n)).map fun q => ⟨q.id, q.publicKey⟩).or (p.peers.lookup n)
  hub : s.pins.hub = ((l.reverse.find? (signedAs E set hubName)).map (·.publicKey)).getD
    (if hubAccepted E set nm.hub then nm.hub.publicKey else p.hub)

theorem acceptPin_hub_eq (p : Pins) (id key : Str) :
    (acceptPin p hubName id key).hub = key ∧ (acceptPin p hubName id key).peers = p.peers := by
  unfold acceptPin
  grind

theorem acceptPin_peer (p : Pins) {name id : Str} (key : Str) (hne : name ≠ hubName) (hid : id ≠ []) :
    (acceptPin p name id key).hub = p.hub ∧ ∀ n, (acceptPin p name id key).peers.lookup n =
      if n = name then some ⟨id, key⟩ else p.peers.lookup n := by
  unfold acceptPin
  rw [if_neg hne]
  split_ifs with hold
  · refine ⟨rfl, fun n => ?_⟩
    by_cases hn : n = name
    · rw [if_pos hn, hn]
      exact Finmap.lookup_insert _
    · rw [if_neg hn]
      exact Finmap.lookup_insert_of_ne _ hn
  · refine ⟨rfl, fun n => ?_⟩
    by_cases hn : n = name
    · rw [if_pos hn, hn]
      rw [not_not] at hold
      cases hl : p.peers.lookup name with
      | some e =>
        rw [hl] at hold
        rw [← hold]
        rfl
      | none =>
        -- an entry that is looked at has an id
        rw [hl] at hold
        exact absurd (congrArg PinEntry.id hold).symm hid
    · rw [if_neg hn]

theorem holdHub_heldBack : HeldBack E set p nm [] (holdHub E p nm set now prev) := by
  unfold holdHub
  split_ifs with hk hs
  · have hno : hubAccepted E set nm.hub = false := by simp [hubAccepted, hk]
    exact ⟨rfl, by simp [hk], fun n => by simp, by simp [hno]⟩
  · have hyes : hubAccepted E set nm.hub = true := by simp [hubAccepted, hk, hs]
    obtain ⟨hhub, hpeers⟩ := acceptPin_hub_eq p [] nm.hub.publicKey
    exact ⟨rfl, by simp [hyes], fun n => by simp [hpeers], by simp [hyes, hhub]⟩
  · have hno : hubAccepted E set nm.hub = false := by simp [hubAccepted, hs]
    exact ⟨rfl, by simp [hk, hno], fun n => by simp, by simp [hno]⟩

theorem find_signedAs (n : Str) : (l ++ [q]).reverse.find? (signedAs E set n) =
    if signedAs E set n q then some q else l.reverse.find? (signedAs E set n) := by
  rw [List.reverse_append, List.reverse_singleton, List.singleton_append, List.find?_cons]
  cases signedAs E set n q <;> rfl

/-- An entry that is skipped or unsigned is pinned nowhere. -/
theorem HeldBack.quiet (h : HeldBack E set p nm l s) (hno : ∀ n, signedAs E set n q = false) {s' : Pass} (hp : s'.pins = s.pins)
    (hh : s'.hub = s.hub)
    (ho : s'.peers = (l ++ [q]).filter fun q => skips q || signedBy E set q.id q.name q.publicKey q.signatures) :
    HeldBack E set p nm (l ++ [q]) s' := by
  refine ⟨ho, hh ▸ h.outHub, fun n => ?_, ?_⟩
  · rw [hp, find_signedAs, hno]
    exact h.pins n
  · rw [hp, find_signedAs, hno]
    exact h.hub

theorem HeldBack.accept (h : HeldBack E set p nm l s) (hskip : skips q = false)
    (hs : signedBy E set q.id q.name q.publicKey q.signatures = true) :
    HeldBack E set p nm (l ++ [q]) { s with pins := acceptPin s.pins q.name q.id q.publicKey, peers := s.peers ++ [q] } := by
  have hsigned : ∀ n, signedAs E set n q = (q.name == n) := fun n => by simp [signedAs, hskip, hs]
  have hout : s.peers ++ [q] = (l ++ [q]).filter fun q => skips q || signedBy E set q.id q.name q.publicKey q.signatures := by
    simp [List.filter_append, h.out, hs]
  by_cases hname : q.name = hubName
  · obtain ⟨hhub, hpeers⟩ := acceptPin_hub_eq s.pins q.id q.publicKey
    rw [hname]
    refine ⟨hout, h.outHub, fun n => ?_, ?_⟩
    · simp only [hpeers]
      rw [h.pins n, find_signedAs, hsigned]
      by_cases hn : n = hubName
      · rw [if_pos hn, if_pos hn]
      · rw [if_neg hn, if_neg hn, if_neg (by simp [hname, Ne.symm hn])]
    · simp only [hhub]
      rw [find_signedAs, hsigned, if_pos (by simp [hname])]
      rfl
  · have hid : q.id ≠ [] := by
      intro he
      simp [skips, he] at hskip
    obtain ⟨hhub, hpeers⟩ := acceptPin_peer s.pins q.publicKey hname hid
    refine ⟨hout, h.outHub, fun n => ?_, ?_⟩
    · simp only [hpeers n]
      rw [find_signedAs, hsigned]
      by_cases hn : n = q.name
      · rw [if_pos hn, if_neg (by rw [hn]; exact hname), if_pos (by simp [hn])]
        rfl
      · rw [if_neg hn, h.pins n, if_neg (c := (q.name == n) = true) (by simp [Ne.symm hn])]
    · simp only [hhub]
      rw [find_signedAs, hsigned, if_neg (by simp [hname])]
      exact h.hub

theorem holdEntry_heldBack (h : HeldBack E set p nm l s) : HeldBack E set p nm (l ++ [q]) (holdEntry E set now prev s q) := by
  unfold holdEntry
  split_ifs with hskip hs
  · exact h.quiet (fun n => by simp [signedAs, hskip]) rfl rfl (by simp [List.filter_append, h.out, hskip])
  · exact h.accept (Bool.eq_false_iff.mpr hskip) hs
  · exact h.quiet (fun n => by simp [signedAs, hs]) rfl rfl (by simp [List.filter_append, h.out, hskip, hs])

theorem holdPass_heldBack : HeldBack E set p nm nm.peers (holdPass E p nm set now prev) :=
  loop_inv holdHub_heldBack fun _ _ _ _ h => holdEntry_heldBack h

end

/-! ## Both -/

section

variable {X : Ext} {env : Env} {prev held : List HeldStatus} {p : Pins} {set : Option Record} {nm out : NetMap}

/-- What the two functions check a netmap against. -/
def checksOf (X : Ext) (env : Env) (p : Pins) (set : Option Record) : Checks := ⟨X.ed, env.order, p, set⟩

theorem apply_out {p : Pins} {m : NetMap} (h : (apply X.sort env.order env.saveOk p m env.now prev).2 = some (out, held)) :
    let s := applyPass env.order p m env.now prev
    out = { m with hub := s.hub, peers := s.peers } := by
  unfold apply at h
  simp only at h
  split_ifs at h
  cases h
  rfl

/-- `Apply` compares the entries the lock left with the pins of their names. -/
theorem pinOf_none (n : Str) : pinOf env.order p nm.peers n = (checksOf X env p none).namePin nm.peers n := by
  have hcompared : (fun q : Peer => !skips q && q.name == n) = (checksOf X env p none).compared n := by
    funext q
    simp [Checks.compared, Checks.signed, checksOf]
  unfold pinOf Checks.namePin Checks.known Checks.vouched
  rw [hcompared]
  simp [checksOf]

theorem pinOf_some (env : Env) {rec : Record} {s : Pass} (h : HeldBack X.ed rec p nm nm.peers s) (n : Str) :
    pinOf env.order s.pins s.peers n = (checksOf X env p (some rec)).namePin nm.peers n := by
  have hcompared : (fun q : Peer => decide ((skips q || signedBy X.ed rec q.id q.name q.publicKey q.signatures) = true ∧
      (!skips q && q.name == n) = true)) = (checksOf X env p (some rec)).compared n := by
    funext q
    rw [Bool.eq_iff_iff]
    cases hskip : skips q <;> simp [Checks.compared, Checks.signed, checksOf, hskip]
  unfold pinOf Checks.namePin
  rw [h.pins n, h.out, List.find?_filter, hcompared]
  rfl

theorem mem_checked_peers (h : checkedMap X env prev p set nm = some (out, held)) (q : Peer) :
    q ∈ out.peers ↔ q ∈ nm.peers ∧ ¬(checksOf X env p set).Held nm.peers q := by
  cases set with
  | none =>
    rw [apply_out h]
    show q ∈ (applyPass env.order p nm env.now prev).peers ↔ _
    rw [applyPass_applied.out, pinOf_none (X := X)]
    simp only [Checks.Held, Checks.signed, checksOf, Option.all_none]
    grind
  | some rec =>
    rw [apply_out h]
    have hback : HeldBack X.ed rec p nm nm.peers (holdPass X.ed p nm rec env.now prev) := holdPass_heldBack
    show q ∈ (applyPass env.order (holdPass X.ed p nm rec env.now prev).pins
      { nm with hub := (holdPass X.ed p nm rec env.now prev).hub, peers := (holdPass X.ed p nm rec env.now prev).peers }
      env.now prev).peers ↔ _
    rw [applyPass_applied.out, pinOf_some env hback, hback.out]
    simp only [List.mem_filter, Checks.Held, Checks.signed, checksOf, Option.all_some]
    grind

theorem checked_hub (h : checkedMap X env prev p set nm = some (out, held)) :
    out.hub = if (checksOf X env p set).HubHeld nm then {} else nm.hub := by
  cases set with
  | none =>
    rw [apply_out h]
    show (applyPass env.order p nm env.now prev).hub = _
    rw [applyPass_hub]
    simp [Checks.HubHeld, Checks.hubSigned, Checks.hubPin, checksOf]
  | some rec =>
    rw [apply_out h]
    have hback : HeldBack X.ed rec p nm nm.peers (holdPass X.ed p nm rec env.now prev) := holdPass_heldBack
    show (applyPass env.order (holdPass X.ed p nm rec env.now prev).pins
      { nm with hub := (holdPass X.ed p nm rec env.now prev).hub, peers := (holdPass X.ed p nm rec env.now prev).peers }
      env.now prev).hub = _
    have hpin : hubAccepted X.ed rec nm.hub = true →
        (holdPass X.ed p nm rec env.now prev).pins.hub = (checksOf X env p (some rec)).hubPin nm := by
      intro hyes
      rw [hback.hub, if_pos hyes]
      rfl
    have hheld : (checksOf X env p (some rec)).HubHeld nm ↔ nm.hub.publicKey ≠ [] ∧
        (signedBy X.ed rec hubID hubID nm.hub.publicKey nm.hub.signatures = true →
          (checksOf X env p (some rec)).hubPin nm ≠ [] ∧ (checksOf X env p (some rec)).hubPin nm ≠ nm.hub.publicKey) := Iff.rfl
    rw [applyPass_hub, hback.outHub]
    by_cases hk : nm.hub.publicKey = []
    · simp [hheld, hk]
    · cases hs : signedBy X.ed rec hubID hubID nm.hub.publicKey nm.hub.signatures with
      | true =>
        have hyes : hubAccepted X.ed rec nm.hub = true := by simp [hubAccepted, hk, hs]
        simp [hheld, hk, hs, hyes, hpin hyes]
      | false =>
        have hno : hubAccepted X.ed rec nm.hub = false := by simp [hubAccepted, hs]
        simp [hheld, hk, hs, hno]

/-- The record entries have to be signed under, while the lock is on. -/
def Pins.lockSet (p : Pins) : Option Record := (p.lock.map (·.record)).filter (·.enabled)

theorem admit_apply (X : Ext) (env : Env) (d : Daemon) (nm : NetMap) : (admitMap X env d nm).2 =
    (apply X.sort env.order env.saveOk (gateOf X env d nm).pins (gateOf X env d nm).nm env.now d.held).2.map (·.1) := by
  unfold admitMap
  simp only
  split
  · rename_i h
    rw [h]
    rfl
  · rename_i h
    rw [h]
    rfl

/-- `applyLocked` checks what the lock record leaves of a netmap. -/
theorem admit_checked (X : Ext) (env : Env) (d : Daemon) (nm : NetMap) : (admitMap X env d nm).2 =
    (checkedMap X env d.held (lockedPins X d nm) (lockedPins X d nm).lockSet (recordGate X d nm).nm).map (·.1) := by
  have hpins : (recordGate X d nm).pins = lockedPins X d nm := recordGate_pins
  rw [admit_apply]
  unfold gateOf holdLocked Pins.lockSet
  rw [← hpins]
  cases (recordGate X d nm).pins.lock with
  | none => rfl
  | some s =>
    cases hon : s.record.enabled with
    | true => simp [checkedMap, Option.filter, hon]
    | false => simp [checkedMap, Option.filter, hon]

end

end Thawr.Client
