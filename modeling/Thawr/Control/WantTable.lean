/-
  Thawr.Control.WantTable — how large the table of reach requests gets
  (`internal/control/hub.go`: `Want` and what else touches `wants`).

  The comment of `Want` has it that the table never holds more requests than the connected peers
  have visible peers. `Want` asks whether its target has a stream open, and nothing about the
  one who asks; and a request stays when the stream of its target closes, until someone asks for
  the pair or for the target again. So

  - a client no one sees fills the table (`a_stranger_is_recorded`), and what is recorded
    outlives the stream (same theorem);
  - in runs where only peers a target sees ask for it, and a peer's last stream closes with no
    request for it in the table, the bound holds (`want_table_bounded`).

  The open streams are kept beside the hub (`opened`): `Forget` drops the hub's own count while
  the streams of the peer may still be open.
-/

import Thawr.Control.Wants
import Mathlib.Algebra.BigOperators.Group.Finset.Sigma

namespace Thawr.Control.WantTable

open Go Conc Wants

structure St where
  base : Wants.St := {}
  opened : List Str := []

/-- One call; only an open stream closes. Times are whatever the clock says. -/
def next (s : St) (e : Ev) : Option St :=
  match e with
  | .connected id _ => some ⟨act s.base e, id :: s.opened⟩
  | .disconnected id _ => if s.opened.contains id then some ⟨act s.base e, s.opened.erase id⟩ else none
  | .want _ _ _ => some ⟨act s.base e, s.opened⟩
  | .wantSeq _ _ _ => some ⟨act s.base e, s.opened⟩
  | .forget _ => some ⟨act s.base e, s.opened⟩

def pairs (h : Hub) : List (Str × Str) := h.wants.flatMap fun x => x.2.map fun y => (x.1, y.1)

/-- For each peer with an open stream, how many peers it sees. -/
def room (visible : Str → Finset Str) (s : St) : Nat := ∑ id ∈ s.opened.toFinset, (visible id).card

/-- Requests come from peers the target sees, and the last stream of a peer closes with no
    request for it. -/
def Seen (visible : Str → Finset Str) (s : St) : Ev → Prop
  | .want target source _ => target ∈ s.opened → source ∈ visible target
  | .disconnected id _ => s.opened.count id = 1 → ∀ source, s.base.hub.wantOf id source = none
  | _ => True

structure Inv (visible : Str → Finset Str) (s : St) : Prop where
  tidy : Tidy s.base.hub
  /-- The hub counts no stream that is not open. -/
  streams : ∀ id, streamsOf s.base.hub id ≤ s.opened.count id
  /-- What is in the table has a place in the bound. -/
  placed : ∀ t f r, s.base.hub.wantOf t f = some r → t ∈ s.opened ∧ f ∈ visible t

section

variable {visible : Str → Finset Str} {s s' : St} {h : Hub} {t f id : Str}

/-! ## The table as pairs -/

theorem wantOf_of_mem (ht : Tidy h) (hp : (t, f) ∈ pairs h) : ∃ r, h.wantOf t f = some r := by
  unfold pairs at hp
  obtain ⟨x, hx, hp⟩ := List.mem_flatMap.mp hp
  obtain ⟨y, hy, heq⟩ := List.mem_map.mp hp
  cases heq
  refine ⟨y.2, ?_⟩
  have hinner : h.wants.lookup x.1 = some x.2 := ht.targets.lookup hx
  rw [Hub.wantOf, hinner]
  exact (ht.sources x hx).lookup hy

theorem pairs_nodup (ht : Tidy h) : (pairs h).Nodup := by
  unfold pairs
  refine List.nodup_flatMap.mpr ⟨fun x hx => ?_, ?_⟩
  · refine List.Nodup.of_map (·.2) ?_
    rw [List.map_map]
    exact ht.sources x hx
  · refine (List.pairwise_map.mp ht.targets).imp fun {x y} hne => ?_
    intro p hp hq
    grind

theorem Inv.bound (hi : Inv visible s) : (pairs s.base.hub).length ≤ room visible s := by
  have hsub : (pairs s.base.hub).toFinset.map (Equiv.sigmaEquivProd Str Str).symm.toEmbedding ⊆
    s.opened.toFinset.sigma visible := by
    intro p hp
    obtain ⟨⟨t, f⟩, hq, rfl⟩ := Finset.mem_map.mp hp
    obtain ⟨r, hr⟩ := wantOf_of_mem hi.tidy (List.mem_toFinset.mp hq)
    obtain ⟨ht, hf⟩ := hi.placed t f r hr
    exact Finset.mem_sigma.mpr ⟨List.mem_toFinset.mpr ht, hf⟩
  have hcard := Finset.card_le_card hsub
  rwa [Finset.card_map, List.toFinset_card_of_nodup (pairs_nodup hi.tidy), Finset.card_sigma] at hcard

/-! ## One call -/

/-- A call after which the table holds no pair it did not hold. -/
theorem Inv.shrink (hi : Inv visible s) {base : Wants.St} (ht : Tidy base.hub)
    (hs : ∀ id, streamsOf base.hub id ≤ streamsOf s.base.hub id)
    (hw : ∀ t f r, base.hub.wantOf t f = some r → ∃ r, s.base.hub.wantOf t f = some r) : Inv visible ⟨base, s.opened⟩ := by
  refine ⟨ht, fun id => (hs id).trans (hi.streams id), fun t f r hr => ?_⟩
  obtain ⟨r, hr⟩ := hw t f r hr
  exact hi.placed t f r hr

/-- A hub whose table is untouched. -/
theorem tidy_congr {h' : Hub} (ht : Tidy h) (hw : h'.wants = h.wants) : Tidy h' :=
  ⟨by rw [hw]; exact ht.targets, by rw [hw]; exact ht.sources⟩

theorem Inv.connected (hi : Inv visible s) (id : Str) (gen : Option Int) :
    Inv visible ⟨act s.base (.connected id gen), id :: s.opened⟩ := by
  obtain ⟨hwants, hstreams⟩ : (act s.base (.connected id gen)).hub.wants = s.base.hub.wants ∧
      streamsOf (act s.base (.connected id gen)).hub = streamsOf (s.base.hub.connected id) := by
    simp only [act]
    split
    · exact ⟨rfl, rfl⟩
    · exact ⟨rfl, rfl⟩
  refine ⟨tidy_congr hi.tidy hwants, fun x => ?_, fun t f r hr => ?_⟩
  · have hx := hi.streams x
    rw [hstreams, streamsOf_connected]
    grind
  · rw [Hub.wantOf, hwants] at hr
    obtain ⟨ht, hf⟩ := hi.placed t f r hr
    exact ⟨List.mem_cons_of_mem _ ht, hf⟩

theorem Inv.disconnected (hi : Inv visible s) (id : Str) (now : Int) (hseen : Seen visible s (.disconnected id now)) :
    Inv visible ⟨act s.base (.disconnected id now), s.opened.erase id⟩ := by
  have hwants : (s.base.hub.disconnected now id).wants = s.base.hub.wants := by
    unfold Hub.disconnected
    split
    · rfl
    · rfl
  refine ⟨tidy_congr hi.tidy hwants, fun x => ?_, fun t f r hr => ?_⟩
  · have hx := hi.streams x
    show streamsOf (s.base.hub.disconnected now id) x ≤ _
    rw [streamsOf_disconnected]
    grind
  · have hold : s.base.hub.wantOf t f = some r := by
      rw [Hub.wantOf, ← hwants]
      exact hr
    obtain ⟨ht, hf⟩ := hi.placed t f r hold
    refine ⟨?_, hf⟩
    by_cases hti : t = id
    · -- another stream of the target stays open
      subst hti
      have hone : s.opened.count t ≠ 1 := by
        intro hone
        rw [hseen hone f] at hold
        cases hold
      have hpos := List.count_pos_iff.mpr ht
      refine List.count_pos_iff.mp ?_
      rw [List.count_erase_self]
      omega
    · exact (List.mem_erase_of_ne hti).mpr ht

theorem wantOf_fresh {now : Int} {x : Option WantReq} {r : WantReq} (h : fresh now x = some r) : x = some r :=
  (Option.filter_eq_some_iff.mp h).1

/-- A request that is recorded has a place when its source is seen. -/
theorem Inv.record (hi : Inv visible s) {base : Wants.St} {now : Int} {target source : Str} {r : WantReq}
    (hwants : base.hub.wants = (record s.base.hub now target source r).wants)
    (hpresence : base.hub.presence = s.base.hub.presence) (hopen : target ∈ s.opened) (hsource : source ∈ visible target) :
    Inv visible ⟨base, s.opened⟩ := by
  refine ⟨tidy_congr hi.tidy.record hwants, fun id => ?_, fun t f q hq => ?_⟩
  · have hid := hi.streams id
    unfold streamsOf at hid ⊢
    rwa [hpresence]
  · have hq : (Wants.record s.base.hub now target source r).wantOf t f = some q := by
      rw [Hub.wantOf, ← hwants]
      exact hq
    rw [wantOf_record hi.tidy] at hq
    split at hq
    · rename_i hpair
      rw [hpair.1, hpair.2]
      exact ⟨hopen, hsource⟩
    · split at hq
      · exact hi.placed t f q (wantOf_fresh hq)
      · exact hi.placed t f q hq

theorem Inv.want (hi : Inv visible s) (target source : Str) (now : Int) (hseen : Seen visible s (.want target source now)) :
    Inv visible ⟨act s.base (.want target source now), s.opened⟩ := by
  obtain ⟨subs, hsubs⟩ := wake_frame (h := (s.base.hub.want now target source).1) (s.base.hub.want now target source).2
  have hhub : (act s.base (.want target source now)).hub = { (s.base.hub.want now target source).1 with subs := subs } := by
    simp only [act]
    exact hsubs
  by_cases h0 : streamsOf s.base.hub target = 0
  · rw [want_idle h0] at hhub
    have hsame : (act s.base (.want target source now)).hub.wants = s.base.hub.wants := by rw [hhub]
    refine hi.shrink (tidy_congr hi.tidy hsame) (fun id => ?_) fun t f r hr => ⟨r, ?_⟩
    · rw [hhub]
      exact Nat.le_refl _
    · rw [Hub.wantOf, hsame] at hr
      exact hr
  · have hopen : target ∈ s.opened := by
      refine List.count_pos_iff.mp ?_
      have := hi.streams target
      omega
    rcases want_open hi.tidy h0 now source with ⟨r, -, hw⟩ | ⟨-, hw⟩
    · exact hi.record (by rw [hhub, hw]) (by rw [hhub, hw]; rfl) hopen (hseen hopen)
    · exact hi.record (by rw [hhub, hw]) (by rw [hhub, hw]; rfl) hopen (hseen hopen)

theorem Inv.wantSeq (hi : Inv visible s) (target source : Str) (now : Int) :
    Inv visible ⟨act s.base (.wantSeq target source now), s.opened⟩ := by
  simp only [act, Hub.wantSeqOf]
  split
  · exact hi
  · split
    · exact hi
    · refine hi.shrink hi.tidy.drop (fun id => Nat.le_refl _) fun t f r hr => ⟨r, ?_⟩
      have hr : (s.base.hub.dropWant target source).wantOf t f = some r := hr
      rw [wantOf_drop] at hr
      split at hr
      · cases hr
      · exact hr

theorem Inv.forget (hi : Inv visible s) (id : Str) : Inv visible ⟨act s.base (.forget id), s.opened⟩ := by
  refine hi.shrink hi.tidy.forget (fun x => ?_) fun t f r hr => ⟨r, ?_⟩
  · show streamsOf (s.base.hub.forget id) x ≤ _
    rw [streamsOf_forget]
    grind
  · have hr : (s.base.hub.forget id).wantOf t f = some r := hr
    rw [wantOf_forget hi.tidy] at hr
    split at hr
    · cases hr
    · exact hr

theorem Inv.next {e : Ev} (hi : Inv visible s) (hok : Seen visible s e) (hs : WantTable.next s e = some s') : Inv visible s' := by
  cases e with
  | connected id gen =>
    cases hs
    exact hi.connected id gen
  | disconnected id now =>
    unfold WantTable.next at hs
    simp only at hs
    split at hs
    · cases hs
      exact hi.disconnected id now hok
    · cases hs
  | want target source now =>
    cases hs
    exact hi.want target source now hok
  | wantSeq target source now =>
    cases hs
    exact hi.wantSeq target source now
  | forget id =>
    cases hs
    exact hi.forget id

theorem Inv.begin : Inv visible {} :=
  ⟨⟨List.nodup_nil, fun x hx => by cases hx⟩, fun _ => Nat.le_refl _, fun t f r hr => by cases hr⟩

end

/-- In every run in which only peers a target sees ask for it, and a peer's last stream closes
with no request for it in the table, the table holds no more pairs than the peers with an open
stream have visible peers. -/
theorem want_table_bounded (visible : Str → Finset Str) {s : St} (h : Reach (fun s : St => s = {}) next (Seen visible) s) :
    (pairs s.base.hub).Nodup ∧ (pairs s.base.hub).length ≤ room visible s := by
  have hi : Inv visible s := h.inv (fun s hs => hs ▸ Inv.begin) fun s e s' hi hok hs => hi.next hok hs
  exact ⟨pairs_nodup hi.tidy, hi.bound⟩

def both (id : Str) : Finset Str := if id = str "a" then {str "b"} else {str "a"}

theorem want_table_bounded_both :
    ∃ s, Reach (fun s : St => s = {}) next (Seen both) s ∧ pairs s.base.hub = [(str "b", str "a")] ∧
      (pairs s.base.hub).length ≤ room both s := by
  have hstart : Reach (fun s : St => s = {}) next (Seen both) {} := .start rfl
  have hopen := hstart.step (Ev.connected (str "b") none) trivial rfl
  have hseen : str "a" ∈ both (str "b") := by decide +kernel
  have hwant := hopen.step (Ev.want (str "b") (str "a") 0) (fun _ => hseen) rfl
  exact ⟨_, hwant, by decide +kernel, (want_table_bounded both hwant).2⟩

/-- A peer nobody sees asks for one with an open stream, and a peer asks for one whose stream
then closes: both requests are in the table, which has room for none. -/
theorem a_stranger_is_recorded :
    ((Conc.run next {} [.connected (str "b") none, .want (str "b") (str "c") 0]).map fun s =>
      (pairs s.base.hub, room (fun _ => ∅) s)) =
        some ([(str "b", str "c")], 0) ∧
      ((Conc.run next {} [.connected (str "b") none, .want (str "b") (str "a") 0, .disconnected (str "b") 0]).map fun s =>
        (pairs s.base.hub, room both s)) = some ([(str "b", str "a")], 0) := by
  constructor
  · decide +kernel
  · decide +kernel

end Thawr.Control.WantTable
