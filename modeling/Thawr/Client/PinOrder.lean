/-
  Thawr.Client.PinOrder — what of `Pins.Apply` the order of the pins decides
  (`internal/client`: pins.go).

  `Apply` first fills `byID` by going through the pins, in an order the language leaves open:
  of several names with one id the one visited last stays. A name the pins do not have yet
  takes that pin over. So the order shows exactly when a new name comes with an id that has
  two keys pinned (`apply_order_iff`).

  Such pins come about: a rename copies the pin to the new name and keeps the old one, and a
  key trusted afterwards replaces the pin of the new name only. At the next rename the device
  is applied or held depending on the order (`renamed_after_trust`).
-/

import Thawr.Client.PinRuns

namespace Thawr.Client

open Go

/-! ## Which pin travels with an id -/

section

variable {order o o' : List (Σ _ : Str, PinEntry)} {p : Pins} {id : Str} {e : PinEntry}

theorem movedPin_some (ho : Ranges p.peers o) (h : movedPin o id = some e) :
    ∃ n, p.peers.lookup n = some e ∧ e.id = id := by
  unfold movedPin at h
  obtain ⟨⟨n, e'⟩, hf, rfl⟩ := Option.map_eq_some_iff.mp h
  have hmem : (⟨n, e'⟩ : Σ _ : Str, PinEntry) ∈ o := List.mem_reverse.mp (List.mem_of_find?_eq_some hf)
  have hid : (e'.id == id) = true := by simpa using List.find?_some hf
  exact ⟨n, (ho.mem_iff n e').mp hmem, beq_iff_eq.mp hid⟩

theorem movedPin_none (ho : Ranges p.peers o) (h : movedPin o id = none) {n : Str} (hn : p.peers.lookup n = some e) :
    e.id ≠ id := by
  unfold movedPin at h
  have hmem : (⟨n, e⟩ : Σ _ : Str, PinEntry) ∈ o.reverse := List.mem_reverse.mpr ((ho.mem_iff n e).mpr hn)
  simpa using List.find?_eq_none.mp (Option.map_eq_none_iff.mp h) _ hmem

/-- All pins with this id are the same. -/
def OneKey (p : Pins) (id : Str) : Prop :=
  ∀ n m e f, p.peers.lookup n = some e → p.peers.lookup m = some f → e.id = id → f.id = id → e = f

theorem OneKey.movedPin_eq (h : OneKey p id) (ho : Ranges p.peers o) (ho' : Ranges p.peers o') :
    movedPin o id = movedPin o' id := by
  cases hm : movedPin o id with
  | none =>
    cases hm' : movedPin o' id with
    | none => rfl
    | some f =>
      obtain ⟨n, hn, hid⟩ := movedPin_some ho' hm'
      exact absurd hid (movedPin_none ho hm hn)
  | some e =>
    obtain ⟨n, hn, hid⟩ := movedPin_some ho hm
    cases hm' : movedPin o' id with
    | none => exact absurd hid (movedPin_none ho' hm' hn)
    | some f =>
      obtain ⟨m, hm, hid'⟩ := movedPin_some ho' hm'
      rw [h n m e f hn hm hid hid']

theorem movedPin_last {n : Str} (hid : e.id = id) : movedPin (order ++ [⟨n, e⟩]) id = some e := by
  unfold movedPin
  rw [List.reverse_append]
  simp [hid]

/-- Every pin is visited last in some order. -/
theorem exists_order_last {n : Str} (h : p.peers.lookup n = some e) : ∃ o, Ranges p.peers (o ++ [⟨n, e⟩]) := by
  obtain ⟨l, hl⟩ := Quot.exists_rep p.peers.entries
  have hmem : (⟨n, e⟩ : Σ _ : Str, PinEntry) ∈ l := ((show Ranges p.peers l from hl).mem_iff n e).mpr h
  refine ⟨l.erase ⟨n, e⟩, ?_⟩
  have hperm : (l.erase ⟨n, e⟩ ++ [(⟨n, e⟩ : Σ _ : Str, PinEntry)]).Perm l :=
    (List.perm_append_singleton _ _).trans (List.perm_cons_erase hmem).symm
  exact (Multiset.coe_eq_coe.mpr hperm).trans hl

end

/-! ## One entry after the other -/

section

variable {order o o' : List (Σ _ : Str, PinEntry)} {p : Pins} {nm : NetMap} {now : Int} {prev : List HeldStatus}
  {l : List Peer} {s : Pass} {q : Peer}

theorem applyEntry_pins : (applyEntry order now prev s q).pins = if skips q then s.pins else (pinName order s q).pins := by
  unfold applyEntry
  grind

/-- The names with a pin after the entries `l`: those that had one, and those of `l`. -/
def Visited (p : Pins) (l : List Peer) (s : Pass) : Prop :=
  ∀ n, s.pins.peers.lookup n = none ↔ p.peers.lookup n = none ∧ ∀ x ∈ l, skips x = false → x.name ≠ n

theorem applyHub_peers : (applyHub p nm now prev).pins.peers = p.peers := by
  unfold applyHub
  split_ifs <;> rfl

theorem applyHub_visited : Visited p [] (applyHub p nm now prev) := by
  intro n
  rw [applyHub_peers]
  simp

theorem pinName_none {n : Str} :
    (pinName order s q).pins.peers.lookup n = none ↔ s.pins.peers.lookup n = none ∧ q.name ≠ n := by
  unfold pinName
  cases hl : s.pins.peers.lookup q.name with
  | some pin => grind
  | none =>
    by_cases hn : n = q.name
    · rw [hn, Finmap.lookup_insert]
      simp
    · rw [Finmap.lookup_insert_of_ne _ hn]
      exact (and_iff_left (Ne.symm hn)).symm

theorem Visited.entry (h : Visited p l s) : Visited p (l ++ [q]) (applyEntry order now prev s q) := by
  intro n
  rw [applyEntry_pins]
  have hsnoc : (∀ x ∈ l ++ [q], skips x = false → x.name ≠ n) ↔
      (∀ x ∈ l, skips x = false → x.name ≠ n) ∧ (skips q = false → q.name ≠ n) := by
    simp only [List.mem_append, List.mem_singleton, or_imp, forall_and, forall_eq]
  rw [hsnoc, ← and_assoc, ← h n]
  by_cases hs : skips q = true
  · simp [hs]
  · have hs' : skips q = false := by simpa using hs
    rw [if_neg hs, pinName_none]
    simp [hs']

/-- A pin stays for the rest of the loop. -/
theorem applyEntry_keeps {n : Str} {e : PinEntry} (h : s.pins.peers.lookup n = some e) :
    (applyEntry order now prev s q).pins.peers.lookup n = some e := by
  rw [applyEntry_pins]
  by_cases hs : skips q = true
  · rw [if_pos hs]
    exact h
  · rw [if_neg hs]
    unfold pinName
    cases hl : s.pins.peers.lookup q.name with
    | some pin => exact h
    | none => exact lookup_insert_new hl h

theorem foldl_keeps {r : List Peer} {n : Str} {e : PinEntry} (h : s.pins.peers.lookup n = some e) :
    (r.foldl (applyEntry order now prev) s).pins.peers.lookup n = some e := by
  induction r generalizing s with
  | nil => exact h
  | cons q r ih => exact ih (applyEntry_keeps h)

theorem foldl_visited {r : List Peer} (h : Visited p l s) : Visited p (l ++ r) (r.foldl (applyEntry order now prev) s) := by
  induction r generalizing l s with
  | nil =>
    rw [List.append_nil]
    exact h
  | cons q r ih =>
    rw [List.append_cons]
    exact ih h.entry

/-- The entry `q` after the entries `l` is the first of a name that has no pin. -/
def NewName (p : Pins) (l : List Peer) (q : Peer) : Prop :=
  skips q = false ∧ p.peers.lookup q.name = none ∧ ∀ x ∈ l, skips x = false → x.name ≠ q.name

/-- Every new name comes with an id that has one key pinned at most. -/
def Settled (p : Pins) (nm : NetMap) : Prop := ∀ l q r, nm.peers = l ++ q :: r → NewName p l q → OneKey p q.id

/-- An entry's turn is the same for two orders, unless its name is new. -/
theorem applyEntry_congr (hv : Visited p l s) (hone : NewName p l q → OneKey p q.id) (ho : Ranges p.peers o)
    (ho' : Ranges p.peers o') : applyEntry o now prev s q = applyEntry o' now prev s q := by
  unfold applyEntry
  by_cases hs : skips q = true
  · rw [if_pos hs, if_pos hs]
  · rw [if_neg hs, if_neg hs]
    have hs' : skips q = false := by simpa using hs
    have hpin : pinFor o s.pins q = pinFor o' s.pins q := by
      unfold pinFor
      cases hl : s.pins.peers.lookup q.name with
      | some pin => rfl
      | none => simp only [(hone ⟨hs', (hv q.name).mp hl⟩).movedPin_eq ho ho']
    have hname : pinName o s q = pinName o' s q := by
      unfold pinName
      rw [hpin]
    rw [hpin, hname]

theorem foldl_congr_order (hset : Settled p nm) (ho : Ranges p.peers o) (ho' : Ranges p.peers o') {r : List Peer}
    (hr : nm.peers = l ++ r) (hv : Visited p l s) :
    r.foldl (applyEntry o now prev) s = r.foldl (applyEntry o' now prev) s := by
  induction r generalizing l s with
  | nil => rfl
  | cons q r ih =>
    rw [List.foldl_cons, List.foldl_cons, applyEntry_congr hv (hset l q r hr) ho ho']
    refine ih ?_ hv.entry
    rw [hr, List.append_cons]

/-- A new name ends up with the pin that travels with its id. -/
theorem applyPass_new {r : List Peer} (hr : nm.peers = l ++ q :: r) (hnew : NewName p l q) :
    (applyPass order p nm now prev).pins.peers.lookup q.name =
      some ((movedPin order q.id).getD ⟨q.id, q.publicKey⟩) := by
  obtain ⟨hs, hnone, hfront⟩ := hnew
  have hv : Visited p l (l.foldl (applyEntry order now prev) (applyHub p nm now prev)) := foldl_visited applyHub_visited
  have hl := (hv q.name).mpr ⟨hnone, hfront⟩
  unfold applyPass
  rw [hr, List.foldl_append, List.foldl_cons]
  apply foldl_keeps
  rw [applyEntry_pins, if_neg (by simp [hs]), pinName_lookup]
  unfold pinFor
  rw [hl]

theorem apply_peers {S : HeldSort} {saveOk : Bool} :
    (apply S order saveOk p nm now prev).1.peers = (applyPass order p nm now prev).pins.peers := by
  show (applySave saveOk _).peers = _
  unfold applySave saved
  split_ifs <;> rfl

end

/-- `Apply` gives the same netmap, held list and pins for every order of the pins exactly when
    every new name comes with an id that has one key pinned at most. -/
theorem apply_order_iff (S : HeldSort) (saveOk : Bool) (p : Pins) (nm : NetMap) (now : Int) (prev : List HeldStatus) :
    (∀ o o', Ranges p.peers o → Ranges p.peers o' →
      apply S o saveOk p nm now prev = apply S o' saveOk p nm now prev) ↔ Settled p nm := by
  constructor
  · intro h l q r hr hnew n m e f hn hm he hf
    -- visited last, each of the two pins is the one the new name takes over
    obtain ⟨oe, hoe⟩ := exists_order_last hn
    obtain ⟨of, hof⟩ := exists_order_last hm
    have hsame := congrArg (fun x : Pins × Option (NetMap × List HeldStatus) => x.1.peers.lookup q.name) (h _ _ hoe hof)
    simp only [apply_peers, applyPass_new hr hnew, movedPin_last he, movedPin_last hf, Option.getD_some] at hsame
    exact Option.some.inj hsame
  · intro h o o' ho ho'
    have hpass : applyPass o p nm now prev = applyPass o' p nm now prev :=
      foldl_congr_order h ho ho' rfl applyHub_visited
    unfold apply
    rw [hpass]

/-! ## A rename after a trusted key -/

/-- The pins, and the list of held entries, that `Apply` and `Trust` make of an empty set. -/
inductive PinsReach (S : HeldSort) : Pins → List HeldStatus → Prop
  | empty : PinsReach S {} []
  | netmap {p : Pins} {held : List HeldStatus} (order : List (Σ _ : Str, PinEntry)) (saveOk : Bool) (nm : NetMap) (now : Int)
      (p' : Pins) (nm' : NetMap) (held' : List HeldStatus) : PinsReach S p held → Ranges p.peers order →
      apply S order saveOk p nm now held = (p', some (nm', held')) → PinsReach S p' held'
  /-- The pins could not be written: the held list stays. -/
  | unsaved {p : Pins} {held : List HeldStatus} (order : List (Σ _ : Str, PinEntry)) (nm : NetMap) (now : Int) (p' : Pins) :
      PinsReach S p held → Ranges p.peers order → apply S order false p nm now held = (p', none) → PinsReach S p' held
  | trust {p : Pins} {held : List HeldStatus} (saveOk : Bool) (h : HeldStatus) : PinsReach S p held → h ∈ held →
      PinsReach S (trust saveOk p h) held

def pinOn (name : String) (n : Nat) : Σ _ : Str, PinEntry := ⟨str name, ⟨str "p", Wg.keyString (keyNo n)⟩⟩

/-- The pins of the hub on key 5 and of the peer under the names given. -/
def pinsOf (l : List (Σ _ : Str, PinEntry)) : Pins :=
  let peers := l.foldl (fun m x => m.insert x.1 x.2) (∅ : GoMap Str PinEntry)
  { hub := Wg.keyString (keyNo 5), peers := peers, file := some ⟨Wg.keyString (keyNo 5), peers, none⟩ }

/-- The peer, renamed to "nb", with key 8 in place of its pinned key 7. -/
def newKeyHeld : HeldStatus :=
  { name := str "nb", ipv4 := str "10.0.0.7", pinnedKey := Wg.keyString (keyNo 7), offeredKey := Wg.keyString (keyNo 8)
    since := 0, reason := .keyChanged, id := str "p" }

/-- First seen as "pc", renamed to "nb", its new key trusted under that name. -/
theorem trusted_reach : PinsReach sample.sort (pinsOf [pinOn "pc" 7, pinOn "nb" 8]) [newKeyHeld] := by
  have first : PinsReach sample.sort (pinsOf [pinOn "pc" 7]) [] :=
    .netmap [] true (hubAnd "pc" 7) 0 _ (hubAnd "pc" 7) [] .empty (by decide +kernel) (by decide +kernel)
  have renamed : PinsReach sample.sort (pinsOf [pinOn "pc" 7, pinOn "nb" 7]) [] :=
    .netmap [pinOn "pc" 7] true (hubAnd "nb" 7) 0 _ (hubAnd "nb" 7) [] first (by decide +kernel) (by decide +kernel)
  have changed : PinsReach sample.sort (pinsOf [pinOn "pc" 7, pinOn "nb" 7]) [newKeyHeld] :=
    .netmap [pinOn "pc" 7, pinOn "nb" 7] true (hubAnd "nb" 8) 0 _ { hubAnd "nb" 8 with peers := [] } [newKeyHeld] renamed
      (by decide +kernel) (by decide +kernel)
  have trusted := PinsReach.trust true newKeyHeld changed (List.mem_singleton_self _)
  have heq : trust true (pinsOf [pinOn "pc" 7, pinOn "nb" 7]) newKeyHeld = pinsOf [pinOn "pc" 7, pinOn "nb" 8] := by
    decide +kernel
  rwa [heq] at trusted

/-- Renamed once more, on its trusted key, the device is applied when the pin of "nb" is
    visited last and held when that of "pc" is. -/
theorem renamed_after_trust :
    let p := pinsOf [pinOn "pc" 7, pinOn "nb" 8]
    PinsReach sample.sort p [newKeyHeld] ∧ Ranges p.peers [pinOn "pc" 7, pinOn "nb" 8] ∧
      Ranges p.peers [pinOn "nb" 8, pinOn "pc" 7] ∧
      ((apply sample.sort [pinOn "pc" 7, pinOn "nb" 8] true p (hubAnd "tv" 8) 0 [newKeyHeld]).2.map fun r =>
        (r.1.peers.map (·.name), r.2.map (·.name))) = some ([str "tv"], []) ∧
      ((apply sample.sort [pinOn "nb" 8, pinOn "pc" 7] true p (hubAnd "tv" 8) 0 [newKeyHeld]).2.map fun r =>
        (r.1.peers.map (·.name), r.2.map (·.name))) = some ([], [str "tv"]) := by
  refine ⟨trusted_reach, ?_, ?_, ?_, ?_⟩
  all_goals decide +kernel

end Thawr.Client
