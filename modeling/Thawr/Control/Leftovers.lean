/-
  Thawr.Control.Leftovers — what the server keeps in memory of a peer that is gone
  (`internal/control`: hub.go, endpoints.go, registry.go; `internal/api/grpc.go`).

  `Hub.Forget`, `EndpointTable.Delete` and `PathTable.Delete` are there to forget a deleted
  peer, and nothing calls them: `Registry.Delete` and `Leave` take the peer out of the database
  and tell the hub that something changed. A presence entry is marked offline by `Sweep` and
  stays; a path report stays; reported endpoints and reach requests expire only when someone
  asks for them, and no netmap asks for a peer that is gone. So

  - a peer that had a stream open and reported is still in all four tables when it is deleted
    and its stream has closed (`a_deleted_peer_stays`);
  - in runs where calls are made for registered peers alone, and a peer is deleted with no
    entry of its own, the tables know registered peers only (`tables_know_registered`).

  A stream, a report or a request belongs to a peer that was authenticated, which is to say
  enrolled at some time; it may have been deleted since.
-/

import Thawr.Control.Endpoints
import Thawr.Control.Wants

namespace Thawr.Control.Leftovers

open Go Netip Conc Wants

structure St where
  /-- The registered peers. -/
  peers : List Str := []
  /-- The peers that were deleted. -/
  gone : List Str := []
  /-- The open streams, by peer. -/
  opened : List Str := []
  hub : Hub := {}
  endpoints : EndpointTable := {}
  paths : PathTable := {}

inductive Ev where
  | enroll (id : Str) (gen : Option Int)
  /-- A Sync stream opens and closes. -/
  | connected (id : Str) (gen : Option Int)
  | disconnected (id : Str) (now : Int)
  | reportEndpoints (id : Str) (eps : List Endpoint) (symmetric : Bool) (listenPort : UInt16) (now : Int)
  /-- The hub interface saw the peer's packets come from an address. -/
  | observed (id : Str) (addr : AddrPort) (now : Int)
  | reportPath (id : Str) (paths : List PathState) (now : Int)
  /-- A netmap is built with the peer in it. -/
  | endpointsOf (id : Str) (now : Int)
  | want (target source : Str) (now : Int)
  | wantSeq (target source : Str) (now : Int)
  /-- `Registry.Delete`, and `Leave`. -/
  | delete (id : Str) (gen : Option Int)
  | sweep (offlineAfter now : Int)

/-- The peer was enrolled, whatever became of it. -/
def Enrolled (s : St) (id : Str) : Bool := s.peers.contains id || s.gone.contains id

def next (s : St) : Ev → Option St
  | .enroll id gen => if Enrolled s id then none else some { s with peers := id :: s.peers, hub := s.hub.changed gen }
  | .connected id gen =>
    if Enrolled s id then
      let h := s.hub.connected id
      some { s with hub := if s.hub.online id then h else h.changed gen, opened := id :: s.opened }
    else none
  | .disconnected id now =>
    if s.opened.contains id then some { s with hub := s.hub.disconnected now id, opened := s.opened.erase id } else none
  | .reportEndpoints id eps symmetric listenPort now =>
    if Enrolled s id then
      match s.endpoints.set now id eps symmetric listenPort with
      | .error _ => some s
      | .ok r => some { s with endpoints := r.1 }
    else none
  | .observed id addr now => if Enrolled s id then some { s with endpoints := (s.endpoints.setObserved now id addr).1 } else none
  | .reportPath id paths now =>
    if Enrolled s id then
      match Control.reportPath s.paths now id paths with
      | .error _ => some s
      | .ok t => some { s with paths := t }
    else none
  | .endpointsOf id now => some { s with endpoints := (s.endpoints.get now id).1 }
  | .want target source now =>
    if Enrolled s source then
      let r := s.hub.want now target source
      some { s with hub := r.2.foldl Hub.wake r.1 }
    else none
  | .wantSeq target source now => some { s with hub := (s.hub.wantSeqOf now target source).1 }
  | .delete id gen =>
    if s.peers.contains id then
      some { s with peers := s.peers.filter (· != id), gone := id :: s.gone, hub := s.hub.changed gen }
    else none
  | .sweep offlineAfter now => some { s with hub := s.hub.sweep offlineAfter now }

/-- The hub has an entry of the peer, requests for it or one of its own. -/
def HubKeeps (h : Hub) (id : Str) : Prop :=
  h.presence.lookup id ≠ none ∨ h.wants.lookup id ≠ none ∨ ∃ t, h.wantOf t id ≠ none

/-- One of the tables has something of the peer. -/
def Kept (s : St) (id : Str) : Prop :=
  HubKeeps s.hub id ∨ id ∈ s.endpoints.m ∨ id ∈ s.endpoints.observed ∨ id ∈ s.paths.m

/-- Calls are made for registered peers, and a peer is deleted with nothing kept of it. -/
def Clean (s : St) : Ev → Prop
  | .connected id _ => id ∈ s.peers
  | .reportEndpoints id _ _ _ _ => id ∈ s.peers
  | .observed id _ _ => id ∈ s.peers
  | .reportPath id _ _ => id ∈ s.peers
  | .want _ source _ => source ∈ s.peers
  | .delete id _ => ¬Kept s id
  | _ => True

/-! ## The hub -/

structure HubTidy (h : Hub) : Prop where
  wants : Tidy h
  presence : Assoc.Keyed h.presence

section

variable {h h' : Hub} {id x t f : Str} {now : Int}

def KeepsMore (h h' : Hub) (new : Str → Prop) : Prop := HubTidy h → HubTidy h' ∧ ∀ x, HubKeeps h' x → HubKeeps h x ∨ new x

theorem keeps_connected (id : Str) : KeepsMore h (h.connected id) (· = id) := by
  intro ht
  refine ⟨⟨⟨ht.wants.targets, ht.wants.sources⟩, keyed_setEntry ht.presence⟩, fun x hx => ?_⟩
  rcases hx with hx | hx
  · simp only [Hub.connected, lookup_setEntry] at hx
    split at hx
    · exact .inr (by assumption)
    · exact .inl (.inl hx)
  · exact .inl (.inr hx)

theorem keeps_disconnected (now : Int) (id : Str) : KeepsMore h (h.disconnected now id) (fun _ => False) := by
  intro ht
  unfold Hub.disconnected
  cases he : h.presence.lookup id with
  | none => exact ⟨ht, fun x hx => .inl hx⟩
  | some e =>
    refine ⟨⟨⟨ht.wants.targets, ht.wants.sources⟩, keyed_setEntry ht.presence⟩, fun x hx => .inl ?_⟩
    rcases hx with hx | hx
    · simp only [lookup_setEntry] at hx
      split at hx
      · rename_i heq
        refine .inl ?_
        rw [heq, he]
        exact Option.some_ne_none e
      · exact .inl hx
    · exact .inr hx

def swept (offlineAfter now : Int) (e : Presence) : Presence :=
    if Hub.expired offlineAfter now e then { e with online := false } else e

theorem keeps_sweep (offlineAfter now : Int) : KeepsMore h (h.sweep offlineAfter now) (fun _ => False) := by
  intro ht
  have hmap : (h.sweep offlineAfter now).presence = h.presence.map fun x => (x.1, swept offlineAfter now x.2) := by
    refine List.map_congr_left fun x _ => ?_
    unfold swept
    split
    · rfl
    · rfl
  refine ⟨⟨⟨ht.wants.targets, ht.wants.sources⟩, ?_⟩, fun x hx => .inl ?_⟩
  · rw [hmap]
    exact ht.presence.map (swept offlineAfter now)
  · rcases hx with hx | hx
    · rw [hmap, Assoc.lookup_map (swept offlineAfter now)] at hx
      refine .inl fun hnone => hx ?_
      rw [hnone]
      rfl
    · exact .inr hx

/-- A request that is recorded: its target had an entry. -/
theorem keeps_record {r : WantReq} (hw : h'.wants = (record h now t f r).wants) (hp : h'.presence = h.presence)
    (hopen : h.presence.lookup t ≠ none) : KeepsMore h h' (· = f) := by
  intro ht
  have hrec : Tidy (record h now t f r) := ht.wants.record
  refine ⟨⟨⟨by rw [hw]; exact hrec.targets, by rw [hw]; exact hrec.sources⟩, by rw [hp]; exact ht.presence⟩, fun x hx => ?_⟩
  rcases hx with hx | hx | ⟨u, hu⟩
  · rw [hp] at hx
    exact .inl (.inl hx)
  · simp only [hw, record, lookup_setEntry] at hx
    split at hx
    · rename_i heq
      rw [heq]
      exact .inl (.inl hopen)
    · exact .inl (.inr (.inl hx))
  · have hwant : h'.wantOf u x = (record h now t f r).wantOf u x := by rw [Hub.wantOf, Hub.wantOf, hw]
    rw [hwant, wantOf_record ht.wants] at hu
    split at hu
    · rename_i hpair
      exact .inr hpair.2
    · split at hu
      · refine .inl (.inr (.inr ⟨u, fun hnone => hu ?_⟩))
        rw [hnone]
        rfl
      · exact .inl (.inr (.inr ⟨u, hu⟩))

theorem keeps_want (now : Int) (target source : Str) :
    KeepsMore h ((h.want now target source).2.foldl Hub.wake (h.want now target source).1) (· = source) := by
  intro ht
  obtain ⟨subs, hsubs⟩ := wake_frame (h := (h.want now target source).1) (h.want now target source).2
  rw [hsubs]
  by_cases h0 : streamsOf h target = 0
  · rw [want_idle h0]
    exact ⟨⟨⟨ht.wants.targets, ht.wants.sources⟩, ht.presence⟩, fun x hx => .inl hx⟩
  · have hopen : h.presence.lookup target ≠ none := by
      intro hnone
      rw [streamsOf, hnone] at h0
      exact h0 rfl
    rcases want_open ht.wants h0 now source with ⟨r, -, hw⟩ | ⟨-, hw⟩
    · exact keeps_record (by rw [hw]) (by rw [hw]; rfl) hopen ht
    · exact keeps_record (by rw [hw]) (by rw [hw]; rfl) hopen ht

theorem keeps_wantSeq (now : Int) (target source : Str) : KeepsMore h (h.wantSeqOf now target source).1 (fun _ => False) := by
  intro ht
  unfold Hub.wantSeqOf
  split
  · exact ⟨ht, fun x hx => .inl hx⟩
  · rename_i r hr
    split
    · exact ⟨ht, fun x hx => .inl hx⟩
    · refine ⟨⟨ht.wants.drop, ht.presence⟩, fun x hx => .inl ?_⟩
      rcases hx with hx | hx | ⟨u, hu⟩
      · exact .inl hx
      · -- the entry of the target is dropped or kept, never made
        have hthere : h.wants.lookup target ≠ none := by
          intro hnone
          rw [Hub.wantOf, hnone] at hr
          cases hr
        simp only [Hub.dropWant] at hx
        refine .inr (.inl fun hnone => hx ?_)
        split
        · rw [Assoc.lookup_filter_key, hnone, ite_self]
        · rw [lookup_setEntry, if_neg, hnone]
          rintro rfl
          exact hthere hnone
      · rw [wantOf_drop] at hu
        split at hu
        · exact absurd rfl hu
        · exact .inr (.inr ⟨u, hu⟩)

end

/-! ## The reports -/

section

variable {tbl : EndpointTable} {id x : Str} {now : Int}

theorem set_keys {eps : List Endpoint} {symmetric : Bool} {listenPort : UInt16} {r : EndpointTable × Bool}
    (h : tbl.set now id eps symmetric listenPort = .ok r) : (x ∈ r.1.m ↔ x = id ∨ x ∈ tbl.m) ∧ r.1.observed = tbl.observed := by
  unfold EndpointTable.set at h
  obtain ⟨_, -, h⟩ := bind_ok.mp h
  cases h
  exact ⟨Finmap.mem_insert, rfl⟩

theorem setObserved_keys (addr : AddrPort) :
    (x ∈ (tbl.setObserved now id addr).1.observed → x = id ∨ x ∈ tbl.observed) ∧ (tbl.setObserved now id addr).1.m = tbl.m := by
  unfold EndpointTable.setObserved
  simp only
  split
  · exact ⟨.inr, rfl⟩
  · exact ⟨Finmap.mem_insert.mp, rfl⟩

/-- Reading a peer's candidates only drops entries. -/
theorem get_keys : (x ∈ (tbl.get now id).1.m → x ∈ tbl.m) ∧ (x ∈ (tbl.get now id).1.observed → x ∈ tbl.observed) := by
  unfold EndpointTable.get
  simp only
  constructor
  · split
    · exact fun h => h
    · split
      · exact fun h => (Finmap.mem_erase.mp h).2
      · exact fun h => h
  · split
    · exact fun h => h
    · split
      · exact fun h => (Finmap.mem_erase.mp h).2
      · exact fun h => h

theorem reportPath_keys {t t' : PathTable} {paths : List PathState} (h : Control.reportPath t now id paths = .ok t') :
    x ∈ t'.m ↔ x = id ∨ x ∈ t.m := by
  obtain ⟨-, h⟩ := ite_error_ok.mp h
  split at h
  · cases h
  · cases h
    exact Finmap.mem_insert

end

/-! ## Runs -/

structure Inv (s : St) : Prop where
  hub : HubTidy s.hub
  known : ∀ id, Kept s id → id ∈ s.peers
  apart : ∀ id ∈ s.gone, id ∉ s.peers

section

variable {s s' : St} {e : Ev}

/-- A call of the hub that keeps something new of registered peers only. -/
theorem Inv.ofHub (hi : Inv s) {h : Hub} {new : Str → Prop} (opened : List Str) (hmore : KeepsMore s.hub h new)
    (hnew : ∀ x, new x → x ∈ s.peers) : Inv { s with hub := h, opened := opened } := by
  obtain ⟨htidy, hkeeps⟩ := hmore hi.hub
  refine ⟨htidy, fun id hid => ?_, hi.apart⟩
  rcases hid with hid | hid
  · rcases hkeeps id hid with hid | hid
    · exact hi.known id (.inl hid)
    · exact hnew id hid
  · exact hi.known id (.inr hid)

/-- A report of a registered peer. -/
theorem Inv.ofTables (hi : Inv s) {endpoints : EndpointTable} {paths : PathTable} {p : Str → Prop}
    (hm : ∀ x, x ∈ endpoints.m → p x ∨ x ∈ s.endpoints.m) (ho : ∀ x, x ∈ endpoints.observed → p x ∨ x ∈ s.endpoints.observed)
    (hp : ∀ x, x ∈ paths.m → p x ∨ x ∈ s.paths.m) (hnew : ∀ x, p x → x ∈ s.peers) :
    Inv { s with endpoints := endpoints, paths := paths } := by
  refine ⟨hi.hub, fun id hid => ?_, hi.apart⟩
  rcases hid with hid | hid | hid | hid
  · exact hi.known id (.inl hid)
  · rcases hm id hid with hid | hid
    · exact hnew id hid
    · exact hi.known id (.inr (.inl hid))
  · rcases ho id hid with hid | hid
    · exact hnew id hid
    · exact hi.known id (.inr (.inr (.inl hid)))
  · rcases hp id hid with hid | hid
    · exact hnew id hid
    · exact hi.known id (.inr (.inr (.inr hid)))

theorem HubTidy.changed {h : Hub} (ht : HubTidy h) (gen : Option Int) : HubTidy (h.changed gen) :=
  ⟨⟨ht.wants.targets, ht.wants.sources⟩, ht.presence⟩

theorem Inv.enroll (hi : Inv s) {id : Str} (hfresh : ¬Enrolled s id = true) (gen : Option Int) :
    Inv { s with peers := id :: s.peers, hub := s.hub.changed gen } := by
  have hgone : id ∉ s.gone := by
    intro hg
    rw [Enrolled, List.contains_iff_mem.mpr hg, Bool.or_true] at hfresh
    exact hfresh rfl
  refine ⟨hi.hub.changed gen, fun x hx => List.mem_cons_of_mem _ (hi.known x hx), fun x hx hmem => ?_⟩
  rcases List.mem_cons.mp hmem with rfl | hmem
  · exact hgone hx
  · exact hi.apart x hx hmem

/-- The condition on a deletion is what `known` asks for. -/
theorem Inv.delete (hi : Inv s) {id : Str} (hkept : ¬Kept s id) (gen : Option Int) :
    Inv { s with peers := s.peers.filter (· != id), gone := id :: s.gone, hub := s.hub.changed gen } := by
  refine ⟨hi.hub.changed gen, fun x hx => ?_, fun x hx hmem => ?_⟩
  · have hne : x ≠ id := by
      rintro rfl
      exact hkept hx
    exact List.mem_filter.mpr ⟨hi.known x hx, bne_iff_ne.mpr hne⟩
  · obtain ⟨hmem, hne⟩ := List.mem_filter.mp hmem
    rcases List.mem_cons.mp hx with rfl | hx
    · exact absurd rfl (bne_iff_ne.mp hne)
    · exact hi.apart x hx hmem

theorem Inv.connected (hi : Inv s) {id : Str} (hid : id ∈ s.peers) {gen : Option Int}
    (hs : Leftovers.next s (.connected id gen) = some s') : Inv s' := by
  obtain ⟨-, rfl⟩ := Option.ite_some_none_eq_some.mp hs
  refine hi.ofHub _ (?_ : KeepsMore _ _ (· = id)) fun x hx => hx ▸ hid
  split
  · exact keeps_connected id
  · intro ht
    obtain ⟨htidy, hkeeps⟩ := keeps_connected id ht
    exact ⟨htidy.changed gen, hkeeps⟩

theorem Inv.reportEndpoints (hi : Inv s) {id : Str} (hid : id ∈ s.peers) {eps : List Endpoint} {symmetric : Bool} {port : UInt16}
    {now : Int} (hs : Leftovers.next s (.reportEndpoints id eps symmetric port now) = some s') : Inv s' := by
  obtain ⟨-, hs⟩ := Option.ite_none_right_eq_some.mp hs
  split at hs
  · cases hs
    exact hi
  · rename_i r hr
    cases hs
    refine hi.ofTables (p := (· = id)) (fun x => (set_keys hr).1.mp) (fun x hx => .inr ?_) (fun x => .inr) fun x hx => hx ▸ hid
    rwa [(set_keys (x := x) hr).2] at hx

theorem Inv.reportPath (hi : Inv s) {id : Str} (hid : id ∈ s.peers) {paths : List PathState} {now : Int}
    (hs : Leftovers.next s (.reportPath id paths now) = some s') : Inv s' := by
  obtain ⟨-, hs⟩ := Option.ite_none_right_eq_some.mp hs
  split at hs
  · cases hs
    exact hi
  · rename_i t ht
    cases hs
    exact hi.ofTables (p := (· = id)) (fun x => .inr) (fun x => .inr) (fun x => (reportPath_keys ht).mp) fun x hx => hx ▸ hid

theorem Inv.next (hi : Inv s) (hok : Clean s e) (hs : Leftovers.next s e = some s') : Inv s' := by
  cases e with
  | enroll id gen =>
    obtain ⟨hfresh, hs⟩ := Option.ite_none_left_eq_some.mp hs
    cases hs
    exact hi.enroll hfresh gen
  | connected id gen => exact hi.connected hok hs
  | disconnected id now =>
    obtain ⟨-, rfl⟩ := Option.ite_some_none_eq_some.mp hs
    exact hi.ofHub _ (keeps_disconnected now id) fun x hx => hx.elim
  | reportEndpoints id eps symmetric port now => exact hi.reportEndpoints hok hs
  | observed id addr now =>
    obtain ⟨-, rfl⟩ := Option.ite_some_none_eq_some.mp hs
    refine hi.ofTables (p := (· = id)) (fun x hx => .inr ?_) (fun x => (setObserved_keys addr).1) (fun x => .inr)
      fun x hx => hx ▸ hok
    rwa [(setObserved_keys (x := x) addr).2] at hx
  | reportPath id paths now => exact hi.reportPath hok hs
  | endpointsOf id now =>
    cases hs
    exact hi.ofTables (p := fun _ => False) (fun x hx => .inr (get_keys.1 hx)) (fun x hx => .inr (get_keys.2 hx)) (fun x => .inr)
      fun x hx => hx.elim
  | want target source now =>
    obtain ⟨-, rfl⟩ := Option.ite_some_none_eq_some.mp hs
    exact hi.ofHub _ (keeps_want now target source) fun x hx => hx ▸ hok
  | wantSeq target source now =>
    cases hs
    exact hi.ofHub _ (keeps_wantSeq now target source) fun x hx => hx.elim
  | delete id gen =>
    obtain ⟨-, rfl⟩ := Option.ite_some_none_eq_some.mp hs
    exact hi.delete hok gen
  | sweep offlineAfter now =>
    cases hs
    exact hi.ofHub _ (keeps_sweep offlineAfter now) fun x hx => hx.elim

theorem Inv.begin : Inv {} := by
  refine ⟨⟨⟨List.nodup_nil, fun x hx => ?_⟩, List.nodup_nil⟩, fun id hid => ?_, fun id hid => ?_⟩
  · cases hx
  · rcases hid with (hid | hid | ⟨t, ht⟩) | hid | hid | hid
    · exact absurd rfl hid
    · exact absurd rfl hid
    · exact absurd rfl ht
    · exact absurd hid (Finmap.notMem_empty)
    · exact absurd hid (Finmap.notMem_empty)
    · exact absurd hid (Finmap.notMem_empty)
  · cases hid

end

/-! ## How large the tables get -/

section

variable {α : Type}

theorem length_le_of_keys {m : List (Str × α)} {ids : List Str} (hm : Assoc.Keyed m) (h : ∀ id, m.lookup id ≠ none → id ∈ ids) :
    m.length ≤ ids.length := by
  have hsub : m.map (·.1) ⊆ ids := by grind
  have hle := (hm.subperm hsub).length_le
  rwa [List.length_map] at hle

theorem card_le_of_keys {m : GoMap Str α} {ids : List Str} (h : ∀ id, id ∈ m → id ∈ ids) : m.keys.card ≤ ids.length := by
  have hsub : m.keys ⊆ ids.toFinset := fun id hid => List.mem_toFinset.mpr (h id (Finmap.mem_keys.mp hid))
  exact (Finset.card_le_card hsub).trans (List.toFinset_card_le ids)

end

/-- In every run in which calls are made for registered peers and a peer is deleted with nothing
kept of it, the tables have no entry of a deleted peer once its streams have closed, and none
has more entries than there are registered peers. -/
theorem tables_know_registered {s : St} (h : Reach (fun s : St => s = {}) next Clean s) :
    (∀ id ∈ s.gone, id ∉ s.opened → ¬Kept s id) ∧ s.hub.presence.length ≤ s.peers.length ∧ s.hub.wants.length ≤ s.peers.length ∧
      (∀ x ∈ s.hub.wants, x.2.length ≤ s.peers.length) ∧ s.endpoints.m.keys.card ≤ s.peers.length ∧
      s.endpoints.observed.keys.card ≤ s.peers.length ∧ s.paths.m.keys.card ≤ s.peers.length := by
  have hi : Inv s := h.inv (fun s hs => hs ▸ Inv.begin) fun s e s' hi hok hs => hi.next hok hs
  refine ⟨fun id hid _ hkept => hi.apart id hid (hi.known id hkept), ?_, ?_, fun x hx => ?_, ?_, ?_, ?_⟩
  · exact length_le_of_keys hi.hub.presence fun id hid => hi.known id (.inl (.inl hid))
  · exact length_le_of_keys hi.hub.wants.targets fun id hid => hi.known id (.inl (.inr (.inl hid)))
  · refine length_le_of_keys (hi.hub.wants.sources x hx) fun id hid => hi.known id (.inl (.inr (.inr ⟨x.1, ?_⟩)))
    rw [Hub.wantOf, hi.hub.wants.targets.lookup hx]
    exact hid
  · exact card_le_of_keys fun id hid => hi.known id (.inr (.inl hid))
  · exact card_le_of_keys fun id hid => hi.known id (.inr (.inr (.inl hid)))
  · exact card_le_of_keys fun id hid => hi.known id (.inr (.inr (.inr hid)))

/-- A peer that is deleted as it was enrolled, beside one with a stream. -/
theorem tables_know_registered_two :
    ∃ s, Reach (fun s : St => s = {}) next Clean s ∧ s.gone = [str "p"] ∧ s.peers = [str "q"] ∧ ¬Kept s (str "p") ∧
      s.hub.presence.length ≤ 1 := by
  have hstart : Reach (fun s : St => s = {}) next Clean {} := .start rfl
  have hp := hstart.step (Ev.enroll (str "p") none) trivial rfl
  have hnone : ¬Kept { peers := [str "p"] } (str "p") := fun hkept => List.not_mem_nil (Inv.begin.known _ hkept)
  have hdel := hp.step (Ev.delete (str "p") none) hnone rfl
  have hq := hdel.step (Ev.enroll (str "q") none) trivial rfl
  have hopen := hq.step (Ev.connected (str "q") none) List.mem_cons_self rfl
  obtain ⟨hgone, hsize, -⟩ := tables_know_registered hopen
  exact ⟨_, hopen, rfl, rfl, hgone _ List.mem_cons_self (by decide +kernel), hsize⟩

/-- A peer opens a stream, reports where it is and how it reaches another, which it then asks to
answer; it is deleted and its stream closes. Nothing of it goes, whatever time passes. -/
theorem a_deleted_peer_stays : ((Conc.run next {}
      [.enroll (str "p") none, .enroll (str "q") none, .connected (str "p") none, .connected (str "q") none,
        .reportEndpoints (str "p") [] false 51820 0, .reportPath (str "p") [⟨str "q", str "probing", [], 0⟩] 0,
          .want (str "q") (str "p") 0,
        .delete (str "p") none, .disconnected (str "p") 0, .sweep 120000000000 86400000000000]).map fun s =>
        ((s.peers, s.gone, s.opened), [(s.hub.presence.lookup (str "p")).isSome, (s.hub.wantOf (str "q") (str "p")).isSome,
          (s.endpoints.m.lookup (str "p")).isSome, (s.paths.m.lookup (str "p")).isSome])) =
      some (([str "q"], [str "p"], [str "q"]), [true, true, true, true]) := by
  decide +kernel

end Thawr.Control.Leftovers
