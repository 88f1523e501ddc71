/-
  Thawr.Server.RegistrySource — the names the hub's resolver knows (`internal/server/dns.go`).

  A call of `Lookup` or `Reverse` first calls `refresh`, which reads the hub's sequence,
  compares it with the number of the maps under `mu`, lists the peer table when they differ and
  stores new maps under `mu`; the call then takes `mu` again and answers from the maps it finds.
  Commits, `Changed` and any number of calls interleave; maps are named by the version of the
  table they were listed from.

  Proved: while no refresh stores its maps over maps of a newer number, a call answers from maps
  at least as new as every commit whose `Changed` had returned when it started, and a name or an
  address that is in no table since such a commit does not resolve (`resolver_fresh_in_order`).
  As built nothing keeps a slow refresh from doing so: `overtaken_resolves_deleted` is a call
  that starts after the deletion of a peer was announced and still resolves its name.
-/

import Thawr.Conc.Runs
import Thawr.Control.Hub
import Thawr.Control.Names
import Thawr.Control.Registry

namespace Thawr.Server.RegistrySource

open Go Netip Control

/-! ## The maps and what they answer -/

structure Maps where
  byName : GoMap Str Store.Peer := ∅
  byAddr : GoMap Addr Store.Peer := ∅

def peerIPv6 (p : Store.Peer) : Option Addr := if p.ipv6Capable then (parseAddr p.ipv6).filter fun a => a.is6 else none

def addrs (p : Store.Peer) : List Addr := (parseAddr p.ipv4).toList ++ (peerIPv6 p).toList

def Maps.add (m : Maps) (p : Store.Peer) : Maps where
  byName := m.byName.insert (toLower p.name) p
  byAddr := (addrs p).foldl (fun byAddr a => byAddr.insert a p) m.byAddr

def maps (rows : List Store.Peer) : Maps := rows.foldl Maps.add {}

/-- The fields of `registrySource` that stay as they are; `hub6` is zero without an IPv6 overlay. -/
structure Source where
  hub : Addr
  hub6 : Addr := .zero
  visible : Store.Peer → Store.Peer → Bool

namespace Source

variable (r : Source) (m : Maps)

def visibleLocked (src : Addr) (target : Store.Peer) : Bool :=
  if src = r.hub ∨ src.isLoopback then true
  else
    match m.byAddr.lookup src with
    | none => false
    | some requester => requester.id == target.id || r.visible requester target

def ipv6CapableLocked (src : Addr) : Bool :=
  if src = r.hub ∨ src = r.hub6 ∨ src.isLoopback then true
  else
    match m.byAddr.lookup src with
    | none => false
    | some requester => requester.ipv6Capable

def lookup (src : Addr) (name : Str) : Option (List Addr) :=
  let v6 := r.ipv6CapableLocked m src
  if name = hubName then some (r.hub :: if v6 && r.hub6.isValid then [r.hub6] else [])
  else
    match m.byName.lookup (toLower name) with
    | none => none
    | some target =>
      if r.visibleLocked m src target then
        match parseAddr target.ipv4 with
        | none => none
        | some addr => some (addr :: if v6 then (peerIPv6 target).toList else [])
      else none

def isHub (addr : Addr) : Bool := addr == r.hub || (r.hub6.isValid && addr == r.hub6)

def reverse (src addr : Addr) : Option Str :=
  if r.isHub addr then some hubName
  else
    match m.byAddr.lookup addr with
    | none => none
    | some target => if r.visibleLocked m src target then some target.name else none

end Source

/-! ## Lookups in the maps -/

section

variable {rows : List Store.Peer} {p : Store.Peer} {m : Maps} {name : Str} {addr : Addr}

theorem mem_of_byName (h : (maps rows).byName.lookup name = some p) : p ∈ rows ∧ toLower p.name = name := by
  unfold maps at h
  revert h
  refine loop_inv (I := fun l (m : Maps) => m.byName.lookup name = some p → p ∈ l ∧ toLower p.name = name) ?_ ?_
  · intro h
    cases h
  · intro l q m _ ih h
    unfold Maps.add at h
    rcases of_lookup_insert h with ⟨rfl, rfl⟩ | ⟨-, h⟩
    · exact ⟨by simp, rfl⟩
    · exact ⟨List.mem_append_left _ (ih h).1, (ih h).2⟩

theorem byName_maps_some (hp : p ∈ rows) : ∃ q, (maps rows).byName.lookup (toLower p.name) = some q := by
  unfold maps
  refine loop_inv (I := fun l (m : Maps) => p ∈ l → ∃ q, m.byName.lookup (toLower p.name) = some q) ?_ ?_ hp
  · intro h
    cases h
  · intro l q m _ ih h
    unfold Maps.add
    by_cases hq : toLower q.name = toLower p.name
    · exact ⟨q, by rw [hq, Finmap.lookup_insert]⟩
    · rw [Finmap.lookup_insert_of_ne _ (Ne.symm hq)]
      grind

theorem byAddr_add_of_not_mem (h : addr ∉ addrs p) : (m.add p).byAddr.lookup addr = m.byAddr.lookup addr := by
  unfold Maps.add
  refine loop_inv (I := fun _ (b : GoMap Addr Store.Peer) => b.lookup addr = m.byAddr.lookup addr) rfl ?_
  intro l a b ha hb
  have hne : addr ≠ a := by
    intro he
    rw [he] at h
    exact h ha
  rw [Finmap.lookup_insert_of_ne _ hne]
  exact hb

theorem byAddr_add_of_mem (h : addr ∈ addrs p) : (m.add p).byAddr.lookup addr = some p := by
  unfold Maps.add
  refine loop_inv (I := fun l (b : GoMap Addr Store.Peer) => addr ∈ l → b.lookup addr = some p) ?_ ?_ h
  · intro h
    cases h
  · intro l a b _ ih h
    by_cases ha : addr = a
    · rw [ha, Finmap.lookup_insert]
    · rw [Finmap.lookup_insert_of_ne _ ha]
      grind

theorem mem_of_byAddr (h : (maps rows).byAddr.lookup addr = some p) : p ∈ rows ∧ addr ∈ addrs p := by
  unfold maps at h
  revert h
  refine loop_inv (I := fun l (m : Maps) => m.byAddr.lookup addr = some p → p ∈ l ∧ addr ∈ addrs p) ?_ ?_
  · intro h
    cases h
  · intro l q m _ ih h
    by_cases hq : addr ∈ addrs q
    · rw [byAddr_add_of_mem hq] at h
      cases h
      exact ⟨by simp, hq⟩
    · rw [byAddr_add_of_not_mem hq] at h
      exact ⟨List.mem_append_left _ (ih h).1, (ih h).2⟩

theorem byAddr_maps_some (hp : p ∈ rows) (ha : addr ∈ addrs p) : ∃ q, (maps rows).byAddr.lookup addr = some q := by
  unfold maps
  refine loop_inv (I := fun l (m : Maps) => p ∈ l → ∃ q, m.byAddr.lookup addr = some q) ?_ ?_ hp
  · intro h
    cases h
  · intro l q m _ ih h
    by_cases hq : addr ∈ addrs q
    · exact ⟨q, byAddr_add_of_mem hq⟩
    · rw [byAddr_add_of_not_mem hq]
      grind

theorem byName_maps_none (h : ∀ p ∈ rows, toLower p.name ≠ name) : (maps rows).byName.lookup name = none := by
  cases hl : (maps rows).byName.lookup name with
  | none => rfl
  | some p =>
    obtain ⟨hp, hname⟩ := mem_of_byName hl
    exact absurd hname (h p hp)

theorem byAddr_maps_none (h : ∀ p ∈ rows, addr ∉ addrs p) : (maps rows).byAddr.lookup addr = none := by
  cases hl : (maps rows).byAddr.lookup addr with
  | none => rfl
  | some p =>
    obtain ⟨hp, ha⟩ := mem_of_byAddr hl
    exact absurd ha (h p hp)

end

/-! ## Concurrent calls -/

/-- Where a call is. `since` is the newest commit whose `Changed` had returned when it started. -/
inductive Call where
  | none
  | started (since : Nat)
  | read (since : Nat) (gen : Int)
  /-- The maps have another number. -/
  | missed (since : Nat) (gen : Int)
  | listed (since : Nat) (gen : Int) (version : Nat)
  /-- `refresh` has returned. -/
  | ready (since : Nat) (gen : Int)
  /-- It has answered from the maps of a version; `none` for nil maps. -/
  | answered (since : Nat) (version : Option Nat)
  | failed

structure St where
  changes : Changes := {}
  gen : Int := -1
  /-- The version of the table the maps were listed from; `none` for nil. -/
  stored : Option Nat := none
  calls : Nat → Call := fun _ => .none

inductive Ev where
  | commit
  | changed (v : Nat) (gen : Option Int)
  /-- The next step of a call; `ok`: its listing succeeds. -/
  | call (k : Nat) (ok : Bool)

def St.setCall (s : St) (k : Nat) (c : Call) : St := { s with calls := Function.update s.calls k c }

def callStep (s : St) (k : Nat) (ok : Bool) : Option St :=
  match s.calls k with
  | .none => some (s.setCall k (.started s.changes.clock.news))
  | .started since => some (s.setCall k (.read since s.changes.hub.generation))
  | .read since gen => some (s.setCall k (if gen = s.gen then .ready since gen else .missed since gen))
  | .missed since gen => some (s.setCall k (if ok then .listed since gen s.changes.version else .failed))
  | .listed since gen v => some ({ s with gen := gen, stored := some v }.setCall k (.ready since gen))
  | .ready since _ => some (s.setCall k (.answered since s.stored))
  | _ => none

def step (s : St) : Ev → Option St
  | .commit => some { s with changes := s.changes.commit }
  | .changed v gen => if v ≤ s.changes.version then some { s with changes := s.changes.changed v gen } else none
  | .call k ok => callStep s k ok

def Start (s : St) : Prop := ∃ hub : Hub, 0 ≤ hub.sequence ∧ s = { changes := { hub := hub } }

/-- No refresh stores its maps over maps of a newer number. -/
def inOrder (s : St) : Ev → Bool
  | .call k _ =>
    match s.calls k with
    | .listed _ gen _ => decide (s.gen ≤ gen)
    | _ => true
  | _ => true

/-! ## The invariant of runs in order -/

/-- What a call has is as new as it should be; a call that is ready finds maps of its number or
    a newer one. -/
def Call.Ok (c : Conc.Clock) (gen : Int) : Call → Prop
  | .started since => since ≤ c.news
  | .read since g => 0 ≤ g ∧ c.Since since g
  | .missed since g => 0 ≤ g ∧ c.Since since g
  | .listed since g v => 0 ≤ g ∧ c.Since since g ∧ c.Labelled g v
  | .ready since g => 0 ≤ g ∧ c.Since since g ∧ g ≤ gen
  | .answered since o => ∃ v, o = some v ∧ since ≤ v ∧ v ≤ c.version
  | _ => True

structure St.Inv (s : St) : Prop where
  valid : s.changes.clock.Valid
  nonneg : 0 ≤ s.changes.clock.seq
  stored : ∀ v, s.stored = some v → s.changes.clock.Labelled s.gen v
  /-- Nil maps have the number -1, which no call reads. -/
  empty : s.stored = none → s.gen < 0
  calls : ∀ k, (s.calls k).Ok s.changes.clock s.gen

section

variable {s s' : St} {k : Nat} {c : Call} {cl : Conc.Clock} {gen gen' : Int}

theorem St.Inv.call (hi : s.Inv) (hk : s.calls k = c) : c.Ok s.changes.clock s.gen := hk ▸ hi.calls k

theorem Call.Ok.commit (h : c.Ok cl gen) : c.Ok cl.commit gen := by
  cases c with
  | none => trivial
  | started since => exact h
  | read since g => exact ⟨h.1, h.2.commit⟩
  | missed since g => exact ⟨h.1, h.2.commit⟩
  | listed since g v => exact ⟨h.1, h.2.1.commit, h.2.2.commit⟩
  | ready since g => exact ⟨h.1, h.2.1.commit, h.2.2⟩
  | answered since o =>
    obtain ⟨v, ho, hv, hle⟩ := h
    exact ⟨v, ho, hv, Nat.le_succ_of_le hle⟩
  | failed => trivial

theorem Call.Ok.announce (h : c.Ok cl gen) {v : Nat} {seq : Int} (hseq : cl.seq < seq) : c.Ok (cl.announce v seq) gen := by
  cases c with
  | none => trivial
  | started since =>
    show since ≤ (cl.announce v seq).news
    rw [Conc.Clock.news_announce]
    exact Nat.le_trans h (Nat.le_max_left _ _)
  | read since g => exact ⟨h.1, h.2.announce hseq⟩
  | missed since g => exact ⟨h.1, h.2.announce hseq⟩
  | listed since g v => exact ⟨h.1, h.2.1.announce hseq, h.2.2.announce hseq⟩
  | ready since g => exact ⟨h.1, h.2.1.announce hseq, h.2.2⟩
  | answered since o => exact h
  | failed => trivial

/-- Newer maps serve every call older ones served. -/
theorem Call.Ok.newer (h : c.Ok cl gen) (hgen : gen ≤ gen') : c.Ok cl gen' := by
  cases c with
  | ready since g => exact ⟨h.1, h.2.1, Int.le_trans h.2.2 hgen⟩
  | _ => exact h

/-- A call moves on to something as new as it should be. -/
theorem St.Inv.setCall (hi : s.Inv) (hc : c.Ok s.changes.clock s.gen) : (s.setCall k c).Inv :=
  ⟨hi.valid, hi.nonneg, hi.stored, hi.empty,
    (Function.forall_update_iff s.calls fun _ c => c.Ok s.changes.clock s.gen).mpr ⟨hc, fun j _ => hi.calls j⟩⟩

theorem callStep_inv {ok : Bool} (hi : s.Inv) (hok : inOrder s (.call k ok) = true) (hs : callStep s k ok = some s') :
    s'.Inv := by
  have hc := hi.calls k
  unfold callStep at hs
  cases hk : s.calls k
  all_goals
    rw [hk] at hs hc
    cases hs
  · exact hi.setCall (Nat.le_refl _)
  · exact hi.setCall ⟨hi.nonneg, Conc.Clock.since_read hc⟩
  · refine hi.setCall ?_
    split
    · exact ⟨hc.1, hc.2, Int.le_of_eq ‹_›⟩
    · exact hc
  · refine hi.setCall ?_
    split
    · exact ⟨hc.1, hc.2, Conc.Clock.labelled_read hi.valid hc.2.le⟩
    · trivial
  · rename_i since gen v
    have hle : s.gen ≤ gen := by
      simp only [inOrder, hk, decide_eq_true_eq] at hok
      exact hok
    have hi' : St.Inv { s with gen := gen, stored := some v } :=
      ⟨hi.valid, hi.nonneg, fun w hw => Option.some.inj hw ▸ hc.2.2, by simp, fun j => (hi.calls j).newer hle⟩
    exact hi'.setCall ⟨hc.1, hc.2.1, Int.le_refl _⟩
  · obtain ⟨hgen, hsince, hle⟩ := hc
    cases hv : s.stored with
    | none => exact absurd (hi.empty hv) (by omega)
    | some v =>
      have hlabel := hi.stored v hv
      exact hi.setCall ⟨v, rfl, hlabel.fresh hi.valid hsince hle, hlabel.version⟩

theorem step_inv {e : Ev} (hi : s.Inv) (hok : inOrder s e = true) (hs : step s e = some s') : s'.Inv := by
  cases e with
  | commit =>
    cases hs
    exact ⟨hi.valid.commit, hi.nonneg, fun v hv => (hi.stored v hv).commit, hi.empty, fun k => (hi.calls k).commit⟩
  | changed v gen =>
    obtain ⟨hv, hs⟩ := Option.ite_none_right_eq_some.mp hs
    cases hs
    have hseq := s.changes.seq_changed gen
    exact ⟨hi.valid.announce hv, Int.le_trans hi.nonneg (Int.le_of_lt hseq), fun v hv => (hi.stored v hv).announce hseq, hi.empty,
      fun k => (hi.calls k).announce hseq⟩
  | call k ok => exact callStep_inv hi hok hs

theorem Start.inv (h : Start s) : s.Inv := by
  obtain ⟨hub, hseq, rfl⟩ := h
  exact ⟨Conc.Clock.valid_start _ _, hseq, by simp, by simp, fun _ => trivial⟩

theorem reach_inv (h : Conc.Reach Start step (Conc.Holds inOrder) s) : s.Inv :=
  h.inv (fun _ hs => Start.inv hs) fun _ _ _ hi hok hs => step_inv hi hok hs

end

/-! ## What a call answers -/

/-- A name that no row has does not resolve. -/
theorem lookup_gone {r : Source} {rows : List Store.Peer} {name : Str} (hname : name ≠ hubName)
    (h : ∀ p ∈ rows, toLower p.name ≠ toLower name) (src : Addr) : r.lookup (maps rows) src name = none := by
  unfold Source.lookup
  rw [if_neg hname, byName_maps_none h]

/-- An address that no row has does not resolve. -/
theorem reverse_gone {r : Source} {rows : List Store.Peer} {addr : Addr} (haddr : r.isHub addr = false)
    (h : ∀ p ∈ rows, addr ∉ addrs p) (src : Addr) : r.reverse (maps rows) src addr = none := by
  unfold Source.reverse
  rw [haddr, byAddr_maps_none h]
  rfl

/-- The resolver never answers from a stale registry, while no refresh stores its maps over
    newer ones. A call answers from maps at least as new as every commit whose `Changed` had
    returned when it started; a name or an address that is in no table since such a commit
    does not resolve. `table v` is the peer table of version `v`. -/
theorem resolver_fresh_in_order (r : Source) (table : Nat → List Store.Peer) (s : St)
    (h : Conc.Reach Start step (Conc.Holds inOrder) s) (k since : Nat) (stored : Option Nat)
      (hk : s.calls k = .answered since stored) :
    ∃ version, stored = some version ∧ since ≤ version ∧
      ∀ commit ≤ since,
        (∀ name, name ≠ hubName →
          (∀ v, commit ≤ v → v ≤ s.changes.version → ∀ p ∈ table v, toLower p.name ≠ toLower name) →
          ∀ src, r.lookup (maps (table version)) src name = none) ∧
        ∀ addr, r.isHub addr = false →
          (∀ v, commit ≤ v → v ≤ s.changes.version → ∀ p ∈ table v, addr ∉ addrs p) →
          ∀ src, r.reverse (maps (table version)) src addr = none := by
  obtain ⟨version, hstored, hsince, hle⟩ := (reach_inv h).call hk
  refine ⟨version, hstored, hsince, fun commit hc => ?_⟩
  have hcv := Nat.le_trans hc hsince
  constructor
  · intro name hname hgone src
    exact lookup_gone hname (hgone version hcv hle) src
  · intro addr haddr hgone src
    exact reverse_gone haddr (hgone version hcv hle) src

def deletedTable (v : Nat) : List Store.Peer :=
  { id := str "a1", name := str "phone", ipv4 := str "100.64.0.2" } ::
    if v = 0 then [{ id := str "a2", name := str "nas", ipv4 := str "100.64.0.3" }] else []

def site : Source where
  hub := (parseAddr (str "100.64.0.1")).getD .zero
  visible _ _ := true

def phone : Addr := (parseAddr (str "100.64.0.2")).getD .zero

/-- A call up to its listing. -/
def listing (k : Nat) : List Ev := List.replicate 4 (.call k true)

def orderedRun : List Ev :=
  listing 0 ++ [.call 0 true, .commit, .changed 1 (some 9)] ++ listing 1 ++ [.call 0 true, .call 1 true, .call 1 true]

theorem orderedRun_fresh : ∃ s, Conc.run (Conc.guarded inOrder step) {} orderedRun = some s ∧ s.calls 1 = .answered 1 (some 1) ∧
    site.lookup (maps (deletedTable 1)) phone (str "nas") = none := by
  refine ⟨_, rfl, rfl, ?_⟩
  have hstart : Start {} := ⟨{}, by decide, rfl⟩
  have hr : Conc.Reach Start step (Conc.Holds inOrder) _ := .run_guarded (.start hstart) orderedRun rfl
  obtain ⟨version, hv, -, hgone⟩ := resolver_fresh_in_order site deletedTable _ hr 1 1 (some 1) rfl
  cases hv
  refine (hgone 1 (by decide)).1 (str "nas") (by decide +kernel) (fun v hv hle p hp => ?_) phone
  rw [deletedTable, if_neg (by omega), List.mem_singleton] at hp
  rw [hp]
  decide +kernel

def overtakenRun : List Ev :=
  listing 0 ++ [.commit, .changed 1 (some 9)] ++ listing 1 ++ [.call 1 true, .call 0 true, .call 1 true]

/-- The call 1 starts after the deletion of the nas was announced, and answers with its address. -/
theorem overtaken_resolves_deleted : ∃ s, Conc.Reach Start step Conc.Always s ∧ s.calls 1 = .answered 1 (some 0) ∧
    (∀ p ∈ deletedTable 1, toLower p.name ≠ toLower (str "nas")) ∧
    site.lookup (maps (deletedTable 0)) phone (str "nas") = some [(parseAddr (str "100.64.0.3")).getD .zero] := by
  have hstart : Start {} := ⟨{}, by decide, rfl⟩
  exact ⟨_, (Conc.Reach.start hstart).run overtakenRun rfl, rfl, by decide +kernel, by decide +kernel⟩

end Thawr.Server.RegistrySource
