/-
  Thawr.Client.FilterOrder — when the peers of a netmap get on the device and when its filter
  does (`applyLocked`, `installRoutes` and `installFilter` of `internal/client/daemon.go`).

  Applies run one at a time, under `applyMu`, on a device that was just opened. An apply that
  got past the pins configures the device, sets the routes, then sets the filter. `Configure`
  puts the peers on and takes others off one by one, and may fail on the way; that ends the
  apply. A failure to set the routes or the filter is logged, and the apply goes on.

  Beside the device the state has the history: the netmaps that were to be applied, those of
  them whose filter or a later one's was installed (`vetted`), and which these were when a peer
  was put on the device (`added`). The filter comes last, so a peer is behind a filter when it
  is put on only if an earlier netmap listed it already, behind the hub say.

  Proved: in the runs whose netmaps have, on entries that are not held, no direct peer but those
  on the device and those a vetted netmap listed, every peer on the device was listed by a
  vetted netmap when it was put on, in every state; a netmap that has another ends that when
  `Configure` succeeds (`filter_before_peers_iff`). The first netmap with a peer does
  (`a_first_peer_precedes_its_filter`).
-/

import Thawr.Client.Held
import Thawr.Conc.Runs

namespace Thawr.Client.FilterOrder

open Go Netip

structure Setup where
  iface : Str := []
  selfIP : Addr := .zero
  advertise : List Prefix := []

inductive Phase where
  | idle
  | configuring (nm : NetMap) (cfg : Wg.Config)
  | routing (nm : NetMap)
  | filtering (nm : NetMap)
  deriving DecidableEq

structure St where
  daemon : Daemon
  phase : Phase := .idle
  dev : Wg.Device := ∅
  filter : Option Wg.FilterSet := none
  taken : List NetMap := []
  vetted : List NetMap := []
  added : Wg.Key → List NetMap := fun _ => []

def Start (s : St) : Prop := s.phase = .idle ∧ s.dev = ∅ ∧ s.filter = none ∧ s.taken = [] ∧ s.vetted = []

inductive Ev where
  /-- An apply up to `Configure`; it ends there when the pins are not written or the netmap is
      malformed. -/
  | apply (env : Env) (nm : NetMap)
  /-- `Configure` writes one peer. -/
  | write (p : Wg.Peer)
  /-- `Configure` removes a peer that is not listed. -/
  | remove (key : Wg.Key)
  | configured
  | configureFails
  | routes (ok : Bool)
  | filter (ok : Bool)

def St.put (s : St) (dev : Wg.Device) : St :=
  { s with dev := dev, added := fun k => if (s.dev.lookup k).isSome then s.added k else s.vetted }

def Phase.after : Except ApplyErr (NetMap × Wg.Config) → Phase
  | .error _ => .idle
  | .ok (applied, cfg) => .configuring applied cfg

def St.begin (X : Ext) (s : St) (env : Env) (nm : NetMap) : St :=
  { s with
    daemon := (applyConfig X env s.daemon nm).1
    phase := .after (applyConfig X env s.daemon nm).2
    taken := s.taken ++ (admitMap X env s.daemon nm).2.toList }

def next (X : Ext) (u : Setup) (s : St) (e : Ev) : Option St :=
  match s.phase, e with
  | .idle, .apply env nm =>
    if Ranges (gateOf X env s.daemon nm).pins.peers env.order then some (s.begin X env nm) else none
  | .configuring _ cfg, .write p => if cfg.peers.contains p then some (s.put (Wg.setPeer s.dev p)) else none
  | .configuring _ cfg, .remove key => if (cfg.peerFor key).isNone then some (s.put (Wg.removePeer s.dev key)) else none
  | .configuring nm cfg, .configured => some { s.put (Wg.configure s.dev cfg) with phase := .routing nm }
  | .configuring _ _, .configureFails => some { s with phase := .idle }
  | .routing nm, .routes _ => some { s with phase := .filtering nm }
  | .filtering nm, .filter ok =>
    let s := { s with phase := .idle, daemon := { s.daemon with netmap := some nm } }
    if ok then
      some { s with
        filter := some (filterSetFor nm u.iface u.selfIP s.daemon.overlay u.advertise)
        vetted := s.taken }
    else some s
  | _, _ => none

/-! ## Peers behind a filter -/

def Lists (nm : NetMap) (key : Wg.Key) : Prop :=
  Wg.parseKey nm.hub.publicKey = some key ∨ ∃ p ∈ nm.peers, Wg.parseKey p.publicKey = some key

/-- Every peer on the device belongs to a netmap whose filter, or a later one's, was installed
    before the peer was put on. -/
def Filtered (s : St) : Prop := ∀ key, (s.dev.lookup key).isSome = true → ∃ nm ∈ s.added key, Lists nm key

/-- What a received netmap is checked against. -/
def checksFor (X : Ext) (env : Env) (d : Daemon) (nm : NetMap) : Checks :=
  checksOf X env (lockedPins X d nm) (lockedPins X d nm).lockSet

/-- The received netmap has a direct entry with the key that is not held. A device that fails
    closed takes nothing of it. -/
def Brings (X : Ext) (env : Env) (d : Daemon) (nm : NetMap) (key : Wg.Key) : Prop :=
  failsClosed d.state.lockSigner (lockedPins X d nm) = false ∧
    ((Wg.parseKey nm.hub.publicKey = some key ∧ ¬(checksFor X env d nm).HubHeld nm) ∨
      ∃ p ∈ nm.peers, p.viaHub = false ∧ Wg.parseKey p.publicKey = some key ∧ ¬(checksFor X env d nm).Held nm.peers p)

/-- The peer is on the device already, or was listed before the last filter. -/
def Known (s : St) (key : Wg.Key) : Prop := (s.dev.lookup key).isSome = true ∨ ∃ nm ∈ s.vetted, Lists nm key

/-- A netmap that comes has only such peers. -/
def BringsKnown (X : Ext) (s : St) : Ev → Prop
  | .apply env nm => ∀ key, Brings X env s.daemon nm key → Known s key
  | _ => True

section

variable {X : Ext} {u : Setup} {s s' : St} {e : Ev} {key : Wg.Key} {dev : Wg.Device} {env : Env} {d : Daemon}
  {nm applied : NetMap} {cfg : Wg.Config}

/-- What is configured of a netmap are its direct entries that are not held. -/
theorem config_brings (h : (applyConfig X env d nm).2 = .ok (applied, cfg)) :
    (∃ p ∈ cfg.peers, p.publicKey = key) ↔ Brings X env d nm key := by
  have hok : applyConfig X env d nm = ((applyConfig X env d nm).1, .ok (applied, cfg)) := Prod.ext rfl h
  obtain ⟨-, hadmit, hbuild⟩ := applyConfig_ok hok
  rw [admit_checked, recordGate_nm] at hadmit
  obtain ⟨⟨out, held⟩, hc, rfl⟩ := Option.map_eq_some_iff.mp hadmit
  have hpeers := mem_checked_peers hc
  have hhub := checked_hub hc
  rw [buildConfigWith_keys hbuild]
  unfold Brings
  cases hclosed : failsClosed d.state.lockSigner (lockedPins X d nm) with
  | true =>
    rw [hclosed, if_pos rfl] at hpeers hhub
    have hnil : out.hub.publicKey = [] := by
      rw [hhub]
      split <;> rfl
    simp [hnil, hpeers]
  | false =>
    rw [hclosed, if_neg Bool.false_ne_true] at hpeers hhub
    refine (or_congr ?_ ?_).trans (and_iff_right rfl).symm
    · rw [hhub]
      split_ifs with hheld
      · simp [checksFor, hheld, parseKey_nil]
      · refine ⟨fun h => ⟨h.2, hheld⟩, fun h => ⟨fun hnil => ?_, h.1⟩⟩
        rw [hnil, parseKey_nil] at h
        cases h.1
    · simp only [hpeers, and_assoc, and_comm (a := ¬_), checksFor]

theorem begin_phase : (s.begin X env nm).phase = .configuring applied cfg ↔
    (applyConfig X env s.daemon nm).2 = .ok (applied, cfg) := by
  show Phase.after (applyConfig X env s.daemon nm).2 = _ ↔ _
  cases (applyConfig X env s.daemon nm).2 with
  | error err => simp [Phase.after]
  | ok x => simp [Phase.after, Prod.ext_iff]

/-! ## A step keeps what is known -/

structure Inv (s : St) : Prop where
  filtered : Filtered s
  /-- `Configure` has only known peers to write. -/
  pending : ∀ nm cfg, s.phase = .configuring nm cfg → ∀ p ∈ cfg.peers, Known s p.publicKey

theorem Inv.put (h : Inv s) (hdev : ∀ k, (dev.lookup k).isSome = true → Known s k) : Filtered (s.put dev) := by
  intro k hk
  show ∃ nm ∈ if (s.dev.lookup k).isSome then s.added k else s.vetted, Lists nm k
  split
  · rename_i hon
    exact h.filtered k hon
  · rename_i hoff
    exact (hdev k hk).resolve_left hoff

/-- While `Configure` writes, what it has to write stays known. -/
theorem Known.put {k : Wg.Key} (h : Known s k) (hdev : (s.dev.lookup k).isSome = true → (dev.lookup k).isSome = true) :
    Known (s.put dev) k := by
  rcases h with h | h
  · exact .inl (hdev h)
  · exact .inr h

theorem peerFor_isSome {k : Wg.Key} : (cfg.peerFor k).isSome = true ↔ ∃ p ∈ cfg.peers, p.publicKey = k := by
  unfold Wg.Config.peerFor
  rw [List.find?_isSome]
  simp

/-- `Configure` writes a listed peer. -/
theorem Inv.setPeer {p : Wg.Peer} (hi : Inv s) (hphase : s.phase = .configuring nm cfg)
    (hlisted : p ∈ cfg.peers) : Inv (s.put (Wg.setPeer s.dev p)) := by
  have hpending := hi.pending nm cfg hphase
  refine ⟨hi.put fun k hk => ?_, fun nm' cfg' hp q hq => ?_⟩
  · by_cases hkey : k = p.publicKey
    · rw [hkey]
      exact hpending p hlisted
    · rw [Wg.setPeer, Finmap.lookup_insert_of_ne _ hkey] at hk
      exact .inl hk
  · cases hphase.symm.trans hp
    refine (hpending q hq).put fun hon => ?_
    by_cases hkey : q.publicKey = p.publicKey
    · rw [Wg.setPeer, hkey, Finmap.lookup_insert]
      rfl
    · rw [Wg.setPeer, Finmap.lookup_insert_of_ne _ hkey]
      exact hon

/-- `Configure` removes a peer that is not listed. -/
theorem Inv.removePeer (hi : Inv s) (hphase : s.phase = .configuring nm cfg)
    (hgone : cfg.peerFor key = none) : Inv (s.put (Wg.removePeer s.dev key)) := by
  refine ⟨hi.put fun k hk => ?_, fun nm' cfg' hp q hq => ?_⟩
  · by_cases hkey : k = key
    · rw [Wg.removePeer, hkey, Finmap.lookup_erase] at hk
      cases hk
    · rw [Wg.removePeer, Finmap.lookup_erase_ne hkey] at hk
      exact .inl hk
  · cases hphase.symm.trans hp
    refine (hi.pending nm cfg hphase q hq).put fun hon => ?_
    have hkey : q.publicKey ≠ key := by
      intro he
      have hsome := peerFor_isSome.mpr ⟨q, hq, he⟩
      rw [hgone] at hsome
      cases hsome
    rw [Wg.removePeer, Finmap.lookup_erase_ne hkey]
    exact hon

theorem Inv.configured (hi : Inv s) (hphase : s.phase = .configuring nm cfg) :
    Filtered (s.put (Wg.configure s.dev cfg)) := by
  refine hi.put fun k hk => ?_
  rw [Wg.lookup_configure, Option.isSome_map] at hk
  obtain ⟨p, hp, rfl⟩ := peerFor_isSome.mp hk
  exact hi.pending nm cfg hphase p hp

/-- Outside of `Configure` nothing is pending. -/
theorem Inv.of_filtered (h : Filtered s) (hphase : ∀ nm cfg, s.phase ≠ .configuring nm cfg) : Inv s :=
  ⟨h, fun nm cfg hp => absurd hp (hphase nm cfg)⟩

theorem Inv.begin (hi : Inv s) (hok : BringsKnown X s (.apply env nm)) : Inv (s.begin X env nm) := by
  refine ⟨hi.filtered, fun applied cfg hp p hmem => ?_⟩
  exact hok p.publicKey ((config_brings (begin_phase.mp hp)).mp ⟨p, hmem, rfl⟩)

theorem Inv.next (hi : Inv s) (hok : BringsKnown X s e) (h : next X u s e = some s') : Inv s' := by
  unfold FilterOrder.next at h
  split at h
  · obtain ⟨-, rfl⟩ := Option.ite_some_none_eq_some.mp h
    exact hi.begin hok
  · rename_i nm cfg p hphase
    obtain ⟨hlisted, rfl⟩ := Option.ite_some_none_eq_some.mp h
    exact hi.setPeer hphase (List.contains_iff_mem.mp hlisted)
  · rename_i nm cfg key hphase
    obtain ⟨hgone, rfl⟩ := Option.ite_some_none_eq_some.mp h
    exact hi.removePeer hphase (Option.isNone_iff_eq_none.mp hgone)
  · rename_i nm cfg hphase
    cases h
    exact .of_filtered (hi.configured hphase) fun _ _ => Phase.noConfusion
  · cases h
    exact .of_filtered hi.filtered fun _ _ => Phase.noConfusion
  · cases h
    exact .of_filtered hi.filtered fun _ _ => Phase.noConfusion
  · split at h
    all_goals
      cases h
      exact .of_filtered hi.filtered fun _ _ => Phase.noConfusion
  · cases h

theorem Start.inv (h : Start s) : Inv s := by
  refine .of_filtered (fun k hk => ?_) fun nm cfg hp => ?_
  · rw [h.2.1, Finmap.lookup_empty] at hk
    cases hk
  · rw [h.1] at hp
    cases hp

theorem next_apply : next X u s (.apply env nm) = some s' ↔
    s.phase = .idle ∧ Ranges (gateOf X env s.daemon nm).pins.peers env.order ∧ s.begin X env nm = s' := by
  unfold FilterOrder.next
  cases s.phase with
  | idle => simp
  | _ => simp

theorem next_configured : next X u s .configured = some s' ↔
    ∃ nm cfg, s.phase = .configuring nm cfg ∧ { s.put (Wg.configure s.dev cfg) with phase := .routing nm } = s' := by
  unfold FilterOrder.next
  cases s.phase with
  | configuring nm cfg => simp
  | _ => simp

/-! ## Runs -/

/-- Runs whose netmaps bring only known peers keep every peer behind a filter; a netmap that
    brings another puts it on the device before its filter. -/
theorem filter_before_peers_iff (X : Ext) (u : Setup) :
    (∀ s, Conc.Reach Start (next X u) (BringsKnown X) s → Filtered s) ∧
      ∀ s env nm s₁ s₂, Conc.Reach Start (next X u) Conc.Always s → ¬BringsKnown X s (.apply env nm) →
        next X u s (.apply env nm) = some s₁ → next X u s₁ .configured = some s₂ → ¬Filtered s₂ := by
  refine ⟨fun s h => ?_, ?_⟩
  · have hi : Inv s := h.inv (fun _ => Start.inv) fun _ _ _ hi hok hs => hi.next hok hs
    exact hi.filtered
  · intro s env nm s₁ s₂ _ hnew h₁ h₂ hfiltered
    simp only [BringsKnown, not_forall] at hnew
    obtain ⟨key, hbrings, hunknown⟩ := hnew
    obtain ⟨-, -, rfl⟩ := next_apply.mp h₁
    obtain ⟨applied, cfg, hphase, rfl⟩ := next_configured.mp h₂
    -- `Configure` puts the peer on, with what was vetted before
    have hon : ((Wg.configure s.dev cfg).lookup key).isSome = true := by
      rw [Wg.lookup_configure, Option.isSome_map]
      exact peerFor_isSome.mpr ((config_brings (begin_phase.mp hphase)).mpr hbrings)
    have hadded : ∃ nm ∈ if (s.dev.lookup key).isSome then s.added key else s.vetted, Lists nm key := hfiltered key hon
    rw [if_neg fun h => hunknown (.inl h)] at hadded
    exact hunknown (.inr hadded)

end

/-! ## A device with one peer -/

def opened : St := { daemon := lockedDevice }

def visiting : Env := { order := [⟨str "pc", ⟨str "p", Wg.keyString (keyNo 7)⟩⟩] }

theorem opened_start : Start opened := ⟨rfl, rfl, rfl, rfl, rfl⟩

/-- The peer is on the device as soon as `Configure` returned, and stays there without a
    filter when `SetFilter` fails. -/
theorem a_first_peer_precedes_its_filter :
    (∃ s, Conc.Reach Start (next sample {}) Conc.Always s ∧ s.phase = .routing (mapOf [signedPeer]) ∧
        (s.dev.lookup (keyNo 7)).isSome = true ∧ s.filter = none ∧ ¬Filtered s) ∧
      ∃ s, Conc.Reach Start (next sample {}) Conc.Always s ∧ s.phase = .idle ∧
        (s.dev.lookup (keyNo 7)).isSome = true ∧ s.filter = none ∧ ¬Filtered s := by
  have hend : ∀ es phase, (Conc.run (next sample {}) opened es).map
        (fun s => (s.phase, (s.dev.lookup (keyNo 7)).isSome, s.filter.isNone, s.added (keyNo 7))) =
          some (phase, true, true, []) →
      ∃ s, Conc.Reach Start (next sample {}) Conc.Always s ∧ s.phase = phase ∧
        (s.dev.lookup (keyNo 7)).isSome = true ∧ s.filter = none ∧ ¬Filtered s := by
    intro es phase h
    obtain ⟨s, hs, hf⟩ := Option.map_eq_some_iff.mp h
    simp only [Prod.mk.injEq] at hf
    obtain ⟨hphase, hon, hnone, hadded⟩ := hf
    refine ⟨s, .run (.start opened_start) es hs, hphase, hon, Option.isNone_iff_eq_none.mp hnone, fun hfilt => ?_⟩
    obtain ⟨nm, hnm, -⟩ := hfilt _ hon
    rw [hadded] at hnm
    cases hnm
  refine ⟨hend [.apply visiting (mapOf [signedPeer]), .configured] _ ?_,
    hend [.apply visiting (mapOf [signedPeer]), .configured, .routes true, .filter false] _ ?_⟩
  · decide +kernel
  · decide +kernel

/-- The same peer while it is reached through the hub, and needs no place on the device. -/
def behindHub : NetMap := mapOf [{ signedPeer with viaHub := true }]

def Ev.inApply : Ev → Bool
  | .apply _ _ => false
  | _ => true

/-- A peer that an earlier netmap listed, with its filter installed, is behind that filter
    when it gets on the device. -/
theorem a_listed_peer_is_filtered :
    ∃ s, Conc.Reach Start (next sample {}) (BringsKnown sample) s ∧ (s.dev.lookup (keyNo 7)).isSome = true ∧ Filtered s := by
  -- the netmap with the peer behind the hub brings nothing
  have hempty : (applyConfig sample {} opened.daemon behindHub).2 = .ok (behindHub, { configOf 7 with peers := [] }) := by
    decide +kernel
  have h₁ : Conc.Reach Start (next sample {}) (BringsKnown sample) (opened.begin sample {} behindHub) := by
    refine .step (.apply {} behindHub) (.start opened_start) ?_ (next_apply.mpr ⟨rfl, by decide +kernel, rfl⟩)
    intro key hkey
    obtain ⟨p, hp, -⟩ := (config_brings hempty).mpr hkey
    cases hp
  obtain ⟨s, hs, hf⟩ := Option.map_eq_some_iff.mp (show
    (Conc.run (Conc.guarded (fun _ e => e.inApply) (next sample {})) (opened.begin sample {} behindHub)
      [.configured, .routes true, .filter true]).map (fun s => (s.phase, s.vetted,
        (applyConfig sample visiting s.daemon (mapOf [signedPeer])).2,
        decide (Ranges (gateOf sample visiting s.daemon (mapOf [signedPeer])).pins.peers visiting.order))) =
      some (.idle, [behindHub], .ok (mapOf [signedPeer], configOf 7), true) by decide +kernel)
  simp only [Prod.mk.injEq, decide_eq_true_eq] at hf
  obtain ⟨hphase, hvetted, hcfg, hranges⟩ := hf
  have hreach : Conc.Reach Start (next sample {}) (BringsKnown sample) s := by
    refine .run_of (fun e _ s s' hs => ?_) h₁ hs
    obtain ⟨he, hs⟩ := Option.ite_none_right_eq_some.mp hs
    refine ⟨?_, hs⟩
    cases e with
    | apply env nm => cases he
    | _ => trivial
  -- the next one brings the peer, which is vetted by then
  have hknown : BringsKnown sample s (.apply visiting (mapOf [signedPeer])) := by
    intro key hkey
    obtain ⟨p, hp, rfl⟩ := (config_brings hcfg).mpr hkey
    cases List.mem_singleton.mp hp
    refine .inr ⟨behindHub, ?_, .inr ⟨_, List.mem_singleton_self _, Wg.parseKey_keyString _⟩⟩
    rw [hvetted]
    exact List.mem_singleton_self _
  have h₂ := hreach.step _ hknown (next_apply.mpr ⟨hphase, hranges, rfl⟩)
  have h₃ := h₂.step Ev.configured trivial (next_configured.mpr ⟨_, _, begin_phase.mpr hcfg, rfl⟩)
  refine ⟨_, h₃, ?_, (filter_before_peers_iff sample {}).1 _ h₃⟩
  show ((Wg.configure s.dev (configOf 7)).lookup (keyNo 7)).isSome = true
  rw [Wg.lookup_configure, Option.isSome_map]
  decide

end Thawr.Client.FilterOrder
