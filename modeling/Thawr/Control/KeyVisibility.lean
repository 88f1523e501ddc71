/-
  Thawr.Control.KeyVisibility — the relay's view of the peer table
  (`internal/control/visibility.go`).

  The relay asks by public key. `peers` reads the hub's sequence, takes `mu`, and answers from
  the table it has under that number or lists the table again. Commits, `Changed` and any
  number of calls interleave; a listing names the version of the table it read.

  Proved: a call never answers from a table older than a commit whose `Changed` had returned
  when the call started; so a key that commit deleted or rotated away, and that no later one
  brought back, is not visible and has no peer id (`relay_view_fresh`).
-/

import Thawr.Conc.Runs
import Thawr.Control.Hub
import Thawr.Control.Registry

namespace Thawr.Control.KeyVisibility

open Go

def byKey (rows : List Store.Peer) : GoMap Str Store.Peer := rows.foldl (fun m p => m.insert p.publicKey p) ∅

/-- `Visible`, once it has the map; `vis` is the rule. -/
def visible (vis : Store.Peer → Store.Peer → Bool) (peers : GoMap Str Store.Peer) (src dst : Str) : Bool :=
  match peers.lookup src, peers.lookup dst with
  | some a, some b => vis a b
  | _, _ => false

def peerID (peers : GoMap Str Store.Peer) (key : Str) : Option Str := (peers.lookup key).map (·.id)

/-- Where a call of `Visible` or `PeerID` is in `peers`. `since` is the newest commit whose
    `Changed` had returned when it started. -/
inductive Call where
  | none
  | started (since : Nat)
  /-- It has the sequence and waits for `mu`. -/
  | read (since : Nat) (gen : Int)
  /-- It holds `mu` and lists the table. -/
  | listing (since : Nat) (gen : Int)
  /-- It answers from the table of a version. -/
  | answers (since version : Nat)
  | failed

structure St where
  changes : Changes := {}
  /-- A call holds `mu`. -/
  held : Bool := false
  gen : Int := -1
  /-- The version of the table in `byKey`; `none` for nil. -/
  cached : Option Nat := none
  calls : Nat → Call := fun _ => .none

inductive Ev where
  | commit
  | changed (v : Nat) (gen : Option Int)
  /-- The next step of a call; `ok`: its listing succeeds. -/
  | call (k : Nat) (ok : Bool)

def St.setCall (s : St) (k : Nat) (c : Call) : St := { s with calls := Function.update s.calls k c }

def callStep (s : St) (k : Nat) (ok : Bool) : Option St :=
  match s.calls k with
  | .none => some (s.setCall k (.started s.changes.clock.news))
  | .started since => some (s.setCall k (.read since s.changes.hub.generation))
  | .read since gen =>
    -- takes `mu` and looks at the cache
    if s.held then none
    else
      match s.cached with
      | some v => if gen = s.gen then some (s.setCall k (.answers since v))
          else some ({ s with held := true }.setCall k (.listing since gen))
      | none => some ({ s with held := true }.setCall k (.listing since gen))
  | .listing since gen =>
    -- keeps the table it listed and gives up `mu`
    if ok then
      some ({ s with held := false, gen := gen, cached := some s.changes.version }.setCall k (.answers since s.changes.version))
    else some ({ s with held := false }.setCall k .failed)
  | _ => none

def step (s : St) : Ev → Option St
  | .commit => some { s with changes := s.changes.commit }
  | .changed v gen => if v ≤ s.changes.version then some { s with changes := s.changes.changed v gen } else none
  | .call k ok => callStep s k ok

def Start (s : St) : Prop := ∃ hub, s = { changes := { hub := hub } }

abbrev Reach : St → Prop := Conc.Reach Start step Conc.Always

/-! ## The invariant -/

/-- What a call has is as new as it should be. -/
def Call.Ok (c : Conc.Clock) : Call → Prop
  | .started since => since ≤ c.news
  | .read since gen => c.Since since gen
  | .listing since gen => c.Since since gen
  | .answers since v => since ≤ v ∧ v ≤ c.version
  | _ => True

structure St.Inv (s : St) : Prop where
  valid : s.changes.clock.Valid
  cached : ∀ v, s.cached = some v → s.changes.clock.Labelled s.gen v
  calls : ∀ k, (s.calls k).Ok s.changes.clock

section

variable {s s' : St} {k : Nat} {c : Call}

theorem St.Inv.call (hi : s.Inv) (hk : s.calls k = c) : c.Ok s.changes.clock := hk ▸ hi.calls k

theorem Call.Ok.commit {cl : Conc.Clock} (h : c.Ok cl) : c.Ok cl.commit := by
  cases c with
  | none => trivial
  | started since => exact h
  | read since gen => exact Conc.Clock.Since.commit h
  | listing since gen => exact Conc.Clock.Since.commit h
  | answers since v => exact ⟨h.1, Nat.le_succ_of_le h.2⟩
  | failed => trivial

theorem Call.Ok.announce {cl : Conc.Clock} (h : c.Ok cl) {v : Nat} {seq : Int} (hseq : cl.seq < seq) :
    c.Ok (cl.announce v seq) := by
  cases c with
  | none => trivial
  | started since =>
    show since ≤ (cl.announce v seq).news
    rw [Conc.Clock.news_announce]
    exact Nat.le_trans h (Nat.le_max_left _ _)
  | read since gen => exact Conc.Clock.Since.announce h hseq
  | listing since gen => exact Conc.Clock.Since.announce h hseq
  | answers since v => exact h
  | failed => trivial

/-- A call moves on to something as new as it should be. -/
theorem St.Inv.setCall (hi : s.Inv) (hc : c.Ok s.changes.clock) : (s.setCall k c).Inv :=
  { hi with calls := (Function.forall_update_iff s.calls fun _ c => c.Ok s.changes.clock).mpr ⟨hc, fun j _ => hi.calls j⟩ }

theorem St.Inv.withHeld (hi : s.Inv) (held : Bool) : St.Inv { s with held := held } := ⟨hi.valid, hi.cached, hi.calls⟩

theorem callStep_inv {ok : Bool} (hi : s.Inv) (hs : callStep s k ok = some s') : s'.Inv := by
  unfold callStep at hs
  split at hs
  · cases hs
    exact hi.setCall (Nat.le_refl _)
  · rename_i hk
    cases hs
    exact hi.setCall (Conc.Clock.since_read (hi.call hk))
  · rename_i since gen hk
    have hok : s.changes.clock.Since since gen := hi.call hk
    obtain ⟨-, hs⟩ := Option.ite_none_left_eq_some.mp hs
    split at hs
    · rename_i v hv
      split at hs
      · -- a hit: the label is the number the call read
        rename_i hgen
        cases hs
        have hlabel := hi.cached v hv
        rw [← hgen] at hlabel
        exact hi.setCall ⟨hlabel.fresh hi.valid hok (Int.le_refl _), hlabel.version⟩
      · cases hs
        exact (hi.withHeld true).setCall hok
    · cases hs
      exact (hi.withHeld true).setCall hok
  · rename_i since gen hk
    have hok : s.changes.clock.Since since gen := hi.call hk
    split at hs
    · cases hs
      have hlabel := Conc.Clock.labelled_read hi.valid hok.le
      have hi' : St.Inv { s with held := false, gen := gen, cached := some s.changes.version } :=
        ⟨hi.valid, fun v hv => Option.some.inj hv ▸ hlabel, hi.calls⟩
      exact hi'.setCall ⟨hlabel.fresh hi.valid hok (Int.le_refl _), Nat.le_refl _⟩
    · cases hs
      exact (hi.withHeld false).setCall trivial
  · cases hs

theorem step_inv {e : Ev} (hi : s.Inv) (hs : step s e = some s') : s'.Inv := by
  cases e with
  | commit =>
    cases hs
    exact ⟨hi.valid.commit, fun v hv => (hi.cached v hv).commit, fun k => (hi.calls k).commit⟩
  | changed v gen =>
    obtain ⟨hv, hs⟩ := Option.ite_none_right_eq_some.mp hs
    cases hs
    have hseq := s.changes.seq_changed gen
    exact ⟨hi.valid.announce hv, fun v hv => (hi.cached v hv).announce hseq, fun k => (hi.calls k).announce hseq⟩
  | call k ok => exact callStep_inv hi hs

theorem Start.inv (h : Start s) : s.Inv := by
  obtain ⟨hub, rfl⟩ := h
  refine ⟨Conc.Clock.valid_start _ _, fun v hv => ?_, fun _ => trivial⟩
  cases hv

theorem reach_inv (h : Reach s) : s.Inv := h.inv (fun _ hs => Start.inv hs) fun _ _ _ hi _ hs => step_inv hi hs

/-! ## What a call answers -/

theorem lookup_byKey_none {rows : List Store.Peer} {key : Str} (h : ∀ p ∈ rows, p.publicKey ≠ key) :
    (byKey rows).lookup key = none := by
  unfold byKey
  refine loop_inv (I := fun (l : List Store.Peer) (m : GoMap Str Store.Peer) => m.lookup key = none) ?_ ?_
  · exact Finmap.lookup_empty _
  · intro l p m hp hm
    rw [Finmap.lookup_insert_of_ne _ (Ne.symm (h p hp))]
    exact hm

end

/-- The relay never acts on a revoked key. A call answers from a table at least as new as every
    commit whose `Changed` had returned when it started; a key that is in no table since such a
    commit is visible to nobody and has no peer id. `table v` is the peer table of version
    `v`. -/
theorem relay_view_fresh (table : Nat → List Store.Peer) (vis : Store.Peer → Store.Peer → Bool) (s : St) (h : Reach s) (k : Nat)
    (since version : Nat) (hk : s.calls k = .answers since version) :
    since ≤ version ∧
      ∀ commit ≤ since, ∀ key, (∀ v, commit ≤ v → v ≤ s.changes.version → ∀ p ∈ table v, p.publicKey ≠ key) →
        peerID (byKey (table version)) key = none ∧
          ∀ other, visible vis (byKey (table version)) key other = false ∧
            visible vis (byKey (table version)) other key = false := by
  obtain ⟨hsince, hle⟩ : since ≤ version ∧ version ≤ s.changes.version := (reach_inv h).call hk
  refine ⟨hsince, fun commit hc key hgone => ?_⟩
  have hnone := lookup_byKey_none (hgone version (Nat.le_trans hc hsince) hle)
  refine ⟨?_, fun other => ⟨?_, ?_⟩⟩
  · unfold peerID
    rw [hnone]
    rfl
  · unfold visible
    rw [hnone]
  · unfold visible
    grind

/-- A peer is deleted and announced while another call lists the table; a call that starts
    then answers without it. -/
def deletedRun : List Ev :=
  [.call 0 true, .call 0 true, .call 0 true, .commit, .changed 1 (some 9), .call 1 true, .call 1 true, .call 0 true,
    .call 1 true, .call 1 true]

def deletedTable (v : Nat) : List Store.Peer :=
  if v = 0 then [{ id := str "a1", name := str "laptop", publicKey := str "k1", ipv4 := str "100.64.0.2" }] else []

theorem deletedRun_fresh :
    ∃ s, Conc.run step {} deletedRun = some s ∧ s.calls 1 = .answers 1 1 ∧ peerID (byKey (deletedTable 1)) (str "k1") = none := by
  refine ⟨_, rfl, rfl, ?_⟩
  refine ((relay_view_fresh deletedTable (fun _ _ => true) _ (.run (.start ⟨{}, rfl⟩) deletedRun rfl) 1 1 1 rfl).2 1 (by decide)
    (str "k1") fun v hv hle p hp => ?_).1
  rw [deletedTable, if_neg (Nat.ne_of_gt hv)] at hp
  cases hp

end Thawr.Control.KeyVisibility
