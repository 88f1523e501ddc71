/-
  Thawr.Client.HeldFilter — what held entries leave in the packet filter
  (`internal/client`: `HoldUnsigned`, `Apply` in pins.go, `FilterSetFor` in netmap.go).

  Holding an entry takes it out of the netmap's peers, so its addresses are not visible. The
  filter and forward rules travel in lists of their own, which holding leaves alone: no source
  of the filter is an address listed on held entries only exactly when the netmap has no rule
  from an address of which the pins, the lock record and the signatures hold every entry
  (`no_held_source_iff`). A server that lists a held peer's address as a source keeps it in
  the filter (`a_held_peer_stays_in_the_filter`).
-/

import Thawr.Client.Held

namespace Thawr.Client

open Go Netip Lock

def Peer.Has (q : Peer) (a : Addr) : Prop := parseAddr q.ipv4 = some a ∨ parseAddr q.ipv6 = some a

def HubPeer.Has (hub : HubPeer) (a : Addr) : Prop :=
  ∃ x ∈ hub.allowedIPs, ∃ pf, parsePrefix x = some pf ∧ pf.bits = pf.ip.bitLen ∧ pf.ip = a

def NetMap.Lists (nm : NetMap) (a : Addr) : Prop := (∃ q ∈ nm.peers, q.Has a) ∨ nm.hub.Has a

/-- The received netmap has the address on entries that are held, and on no other. -/
def HeldOnly (received checked : NetMap) (a : Addr) : Prop := received.Lists a ∧ ¬checked.Lists a

/-- The address is a source of the filter: visible, or the source of a rule. -/
def Sources (set : Wg.FilterSet) (a : Addr) : Prop :=
  a ∈ set.visible ∨ (∃ r ∈ set.rules, r.src.ip = a) ∨ ∃ r ∈ set.forward, r.src.ip = a

/-! ## The visible addresses -/

theorem mem_foldl_once (l : List Addr) (a : Addr) : ∀ seen : List Addr,
    a ∈ l.foldl (fun seen ip => if ip ∈ seen then seen else seen ++ [ip]) seen ↔ a ∈ seen ∨ a ∈ l := by
  induction l with
  | nil =>
    intro seen
    simp
  | cons b l ih => grind

theorem mem_visibleAddrs {nm : NetMap} {a : Addr} : a ∈ visibleAddrs nm ↔ nm.Lists a := by
  unfold visibleAddrs NetMap.Lists Peer.Has HubPeer.Has
  simp only [mem_foldl_once, List.not_mem_nil, false_or, List.mem_append]
  refine or_congr ?_ ?_
  · simp [List.mem_flatMap]
  · simp only [List.mem_filterMap, Option.bind_eq_some_iff, Option.ite_none_right_eq_some, Option.some.injEq]

/-! ## What holding leaves alone -/

section

variable {X : Ext} {env : Env} {prev held : List HeldStatus} {p : Pins} {set : Option Record} {nm out : NetMap}

/-- Only the peers and the hub of a netmap change. -/
theorem checkedMap_rules (h : checkedMap X env prev p set nm = some (out, held)) :
    out.filter = nm.filter ∧ out.forward = nm.forward ∧ selfIPv6 out = selfIPv6 nm := by
  have happly : ∀ {p : Pins} {m : NetMap}, (apply X.sort env.order env.saveOk p m env.now prev).2 = some (out, held) →
      out.filter = m.filter ∧ out.forward = m.forward ∧ selfIPv6 out = selfIPv6 m := by
    intro p m ha
    unfold apply at ha
    simp only at ha
    split_ifs at ha
    cases ha
    exact ⟨rfl, rfl, rfl⟩
  unfold checkedMap at h
  cases set with
  | none => exact happly h
  | some set => exact happly (m := (holdUnsigned X.ed p nm set env.now prev).2.1) h

/-- The netmap lists the address, and the checks hold every entry that has it. -/
structure Checks.HoldsAll (c : Checks) (nm : NetMap) (a : Addr) : Prop where
  listed : nm.Lists a
  peers : ∀ q ∈ nm.peers, q.Has a → c.Held nm.peers q
  hub : nm.hub.Has a → c.HubHeld nm

theorem HubPeer.not_has_empty (a : Addr) : ¬HubPeer.Has {} a := by
  rintro ⟨x, hx, -⟩
  exact absurd hx List.not_mem_nil

theorem checked_lists (h : checkedMap X env prev p set nm = some (out, held)) (a : Addr) :
    out.Lists a ↔ (∃ q ∈ nm.peers, q.Has a ∧ ¬(checksOf X env p set).Held nm.peers q) ∨
      nm.hub.Has a ∧ ¬(checksOf X env p set).HubHeld nm := by
  refine or_congr ?_ ?_
  · constructor
    · rintro ⟨q, hq, ha⟩
      obtain ⟨hq, hfree⟩ := (mem_checked_peers h q).mp hq
      exact ⟨q, hq, ha, hfree⟩
    · rintro ⟨q, hq, ha, hfree⟩
      exact ⟨q, (mem_checked_peers h q).mpr ⟨hq, hfree⟩, ha⟩
  · rw [checked_hub h]
    split_ifs with hhub
    · simp [HubPeer.not_has_empty, hhub]
    · simp [hhub]

theorem heldOnly_iff (h : checkedMap X env prev p set nm = some (out, held)) (a : Addr) :
    HeldOnly nm out a ↔ (checksOf X env p set).HoldsAll nm a := by
  unfold HeldOnly
  rw [checked_lists h]
  constructor
  · rintro ⟨hlisted, hgone⟩
    refine ⟨hlisted, fun q hq ha => ?_, fun ha => ?_⟩
    · by_contra hfree
      exact hgone (.inl ⟨q, hq, ha, hfree⟩)
    · by_contra hfree
      exact hgone (.inr ⟨ha, hfree⟩)
  · rintro ⟨hlisted, hpeers, hhub⟩
    refine ⟨hlisted, ?_⟩
    rintro (⟨q, hq, ha, hfree⟩ | ⟨ha, hfree⟩)
    · exact hfree (hpeers q hq ha)
    · exact hfree (hhub ha)

/-- The received netmap has no rule from an address of which every entry is held; of the
    forward rules those count whose destination this device serves. -/
structure NoHeldRule (c : Checks) (nm : NetMap) (advertised : List Prefix) : Prop where
  filter : ∀ f ∈ nm.filter, ∀ r, filterRule f = some r → ¬c.HoldsAll nm r.src.ip
  forward : ∀ f ∈ nm.forward, ∀ r, forwardRule advertised (selfIPv6 nm).isSome f = some r → ¬c.HoldsAll nm r.src.ip

/-- No source of the filter is an address the received netmap lists on held entries only,
    exactly when it has no rule from one. -/
theorem no_held_source_iff {iface : Str} {self : Addr} {overlay : Prefix} {advertised : List Prefix}
    (h : checkedMap X env prev p set nm = some (out, held)) :
    (∀ a, HeldOnly nm out a → ¬Sources (filterSetFor out iface self overlay advertised) a) ↔
      NoHeldRule (checksOf X env p set) nm advertised := by
  obtain ⟨hfilter, hforward, hself⟩ := checkedMap_rules h
  have hrules : (filterSetFor out iface self overlay advertised).rules = nm.filter.filterMap filterRule := by
    rw [← hfilter]
    rfl
  have hfwd : (filterSetFor out iface self overlay advertised).forward =
      nm.forward.filterMap (forwardRule advertised (selfIPv6 nm).isSome) := by
    rw [← hforward, ← hself]
    rfl
  constructor
  · intro hsources
    refine ⟨fun f hf r hr hheld => ?_, fun f hf r hr hheld => ?_⟩
    · refine hsources _ ((heldOnly_iff h _).mpr hheld) (.inr (.inl ⟨r, ?_, rfl⟩))
      rw [hrules]
      exact List.mem_filterMap.mpr ⟨f, hf, hr⟩
    · refine hsources _ ((heldOnly_iff h _).mpr hheld) (.inr (.inr ⟨r, ?_, rfl⟩))
      rw [hfwd]
      exact List.mem_filterMap.mpr ⟨f, hf, hr⟩
  · rintro hnone a hheld (hv | ⟨r, hr, rfl⟩ | ⟨r, hr, rfl⟩)
    · -- the visible addresses are those of the entries that are left
      exact hheld.2 (mem_visibleAddrs.mp hv)
    · rw [hrules] at hr
      obtain ⟨f, hf, hr⟩ := List.mem_filterMap.mp hr
      exact hnone.filter f hf r hr ((heldOnly_iff h _).mp hheld)
    · rw [hfwd] at hr
      obtain ⟨f, hf, hr⟩ := List.mem_filterMap.mp hr
      exact hnone.forward f hf r hr ((heldOnly_iff h _).mp hheld)

/-! ## A held peer in the filter -/

/-- The device has pinned key 7 for `pc`; the netmap offers key 8, unsigned, and a rule from
    `src`. -/
def pinnedPc : Pins := { hub := str "h", peers := Finmap.singleton (str "pc") ⟨str "p", Wg.keyString (keyNo 7)⟩ }

def changedKey (src : Str) : NetMap :=
  { selfIPv4 := str "10.0.0.1"
    peers := [{ id := str "p", name := str "pc", publicKey := Wg.keyString (keyNo 8), ipv4 := str "10.0.0.7" }]
    filter := [⟨src, str "tcp", 22, 22⟩] }

def pcAddr : Addr := .v4 ⟨[10, 0, 0, 7], rfl⟩

/-- Neither the pin nor the lock lets the entry pass. -/
theorem changedKey_checked {set : Option Record} (hset : set = none ∨ set = some oneSigner) {src : Str}
    (hsrc : src = str "10.0.0.7" ∨ src = str "10.0.0.9") :
    ∃ held, checkedMap sample {} [] pinnedPc set (changedKey src) = some ({ changedKey src with peers := [] }, held) := by
  have h : (checkedMap sample {} [] pinnedPc set (changedKey src)).map Prod.fst = some { changedKey src with peers := [] } := by
    rcases hset with rfl | rfl
    all_goals rcases hsrc with rfl | rfl
    all_goals decide +kernel
  obtain ⟨⟨out, held⟩, hc, ho⟩ := Option.map_eq_some_iff.mp h
  cases ho
  exact ⟨held, hc⟩

theorem changedKey_heldOnly (src : Str) (a : Addr) :
    HeldOnly (changedKey src) { changedKey src with peers := [] } a ↔ a = pcAddr := by
  have hparse : parseAddr (str "10.0.0.7") = some pcAddr := by decide +kernel
  have hnone : parseAddr [] = none := by decide +kernel
  simp [HeldOnly, NetMap.Lists, Peer.Has, HubPeer.Has, changedKey, hparse, hnone, eq_comm]

theorem no_held_source_elsewhere : ∃ out held,
    checkedMap sample {} [] pinnedPc none (changedKey (str "10.0.0.9")) = some (out, held) ∧
    HeldOnly (changedKey (str "10.0.0.9")) out pcAddr ∧
    ∀ a, HeldOnly (changedKey (str "10.0.0.9")) out a → ¬Sources (filterSetFor out [] .zero Prefix.none []) a := by
  obtain ⟨held, hc⟩ := @changedKey_checked none (.inl rfl) (str "10.0.0.9") (.inr rfl)
  refine ⟨_, held, hc, (changedKey_heldOnly _ _).mpr rfl, (no_held_source_iff hc).mpr ⟨?_, ?_⟩⟩
  · intro f hf r hr hheld
    cases List.mem_singleton.mp hf
    have hip : (filterRule ⟨str "10.0.0.9", str "tcp", 22, 22⟩).map (fun r => decide (r.src.ip = pcAddr)) = some false := by
      decide +kernel
    rw [hr, Option.map_some, decide_eq_true ((changedKey_heldOnly _ _).mp ((heldOnly_iff hc _).mpr hheld))] at hip
    cases hip
  · intro f hf
    exact absurd hf List.not_mem_nil

theorem heldOnly_source {set : Option Record} (hset : set = none ∨ set = some oneSigner) : ∃ out held a,
    checkedMap sample {} [] pinnedPc set (changedKey (str "10.0.0.7")) = some (out, held) ∧
    HeldOnly (changedKey (str "10.0.0.7")) out a ∧ Sources (filterSetFor out [] .zero Prefix.none []) a := by
  obtain ⟨held, hc⟩ := @changedKey_checked _ hset (str "10.0.0.7") (.inl rfl)
  refine ⟨_, held, pcAddr, hc, (changedKey_heldOnly _ _).mpr rfl, .inr (.inl ?_)⟩
  obtain ⟨r, hr, hip⟩ := Option.map_eq_some_iff.mp
    (show (filterRule ⟨str "10.0.0.7", str "tcp", 22, 22⟩).map (fun r => r.src.ip) = some pcAddr by decide +kernel)
  exact ⟨r, List.mem_filterMap.mpr ⟨_, List.mem_singleton_self _, hr⟩, hip⟩

/-- The peer is held, by its pin with the lock off and by the lock with it on, and is listed
    nowhere else, yet its address is the source of a rule of the filter. -/
theorem a_held_peer_stays_in_the_filter :
    (∃ out held a, checkedMap sample {} [] pinnedPc none (changedKey (str "10.0.0.7")) = some (out, held) ∧
      HeldOnly (changedKey (str "10.0.0.7")) out a ∧ Sources (filterSetFor out [] .zero Prefix.none []) a) ∧
    ∃ out held a, checkedMap sample {} [] pinnedPc (some oneSigner) (changedKey (str "10.0.0.7")) = some (out, held) ∧
      HeldOnly (changedKey (str "10.0.0.7")) out a ∧ Sources (filterSetFor out [] .zero Prefix.none []) a :=
  ⟨heldOnly_source (.inl rfl), heldOnly_source (.inr rfl)⟩

end

end Thawr.Client
