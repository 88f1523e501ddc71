/-
  Thawr.Server.StaticPresence — when the server takes a static peer for online
  (`internal/server/server.go`: `observeOnce`, `noteStaticHandshake`, `Online`).

  A static peer holds no sync stream; it is online while its last handshake with the hub is
  younger than three minutes. `observeOnce` goes through the device's statistics and, where a
  static peer's verdict flipped, has the netmaps rebuilt. But `noteStaticHandshake` judges the
  previous handshake by the present clock, not by the clock of the previous observation. So it
  answers right exactly when that handshake did not go stale in between
  (`flip_reported_iff`): a phone that falls silent goes offline unnoticed
  (`a_silent_phone_goes_unnoticed`).

  The device's and the store's answers are inputs, and so is what others do to the hub. `verdicts`
  is history: no step reads it.
-/

import Thawr.Conc.Runs
import Thawr.Control.Endpoints
import Thawr.Control.Hub
import Thawr.Control.Path.Moves
import Thawr.Control.Registry
import Thawr.Wg.Device

namespace Thawr.Server.StaticPresence

open Go Control Control.Path

def staticOnline : Duration := 180 * second

structure Row where
  peer : Store.Peer
  lastSeenAt : Option Time := none
  deriving DecidableEq

/-- A run of `observeOnce` that has read statistics and peers. -/
structure Round where
  byKey : GoMap Str Row
  changed : Bool := false
  deriving DecidableEq

structure St where
  hub : Hub := {}
  endpoints : EndpointTable := {}
  /-- The latest hub handshake of each static peer. -/
  staticSeen : GoMap Str Time := ∅
  round : Option Round := none
  /-- The writes of `last_seen_at` asked for. -/
  touches : List (Str × Time) := []
  /-- The last time shown. -/
  clock : Time := 0
  /-- What `Online` said of each static peer right after it was last observed. -/
  verdicts : GoMap Str Bool := ∅

def isFresh (seen : Option Time) (now : Time) : Bool := seen.getD 0 != 0 && decide (since now (seen.getD 0) < staticOnline)

def online (s : St) (now : Time) (peerID : Str) : Bool := s.hub.online peerID || isFresh (s.staticSeen.lookup peerID) now

/-- `noteStaticHandshake`: the state after it, and whether the peer's online state flipped. -/
def noteStaticHandshake (s : St) (p : Row) (handshake now : Time) : St × Bool :=
  let wasOnline := isFresh (s.staticSeen.lookup p.peer.id) now
  let isOnline := decide (since now handshake < staticOnline)
  ({ s with
      staticSeen := s.staticSeen.insert p.peer.id handshake
      touches := if p.lastSeenAt.all (· < handshake) then s.touches ++ [(p.peer.id, handshake)] else s.touches },
    wasOnline != isOnline)

def rowsByKey (rows : List Row) : GoMap Str Row := rows.foldl (fun m p => m.insert p.peer.publicKey p) ∅

def observeStat (s : St) (r : Round) (st : Wg.PeerStats) (now : Time) : St :=
  if !st.endpoint.isValid || st.lastHandshake == 0 then s
  else
    match r.byKey.lookup (Wg.keyString st.publicKey) with
    | none => s
    | some p =>
      if p.peer.mode = .static then
        let x := noteStaticHandshake s p st.lastHandshake now
        { x.1 with
          round := some { r with changed := x.2 || r.changed }
          verdicts := s.verdicts.insert p.peer.id (online x.1 now p.peer.id) }
      else
        let x := s.endpoints.setObserved now p.peer.id st.endpoint
        { s with endpoints := x.1, round := some { r with changed := x.2 || r.changed } }

inductive Ev where
  /-- `observeOnce` has read the statistics and the peers. -/
  | list (rows : List Row)
  | stat (st : Wg.PeerStats) (now : Time)
  /-- The end of the loop; `gen` is the database generation `Changed` reads. -/
  | finish (gen : Option Int)
  /-- What others do to the hub. -/
  | hub (h : Hub)

def next (s : St) : Ev → Option St
  | .list rows =>
    match s.round with
    | none => some { s with round := some { byKey := rowsByKey rows } }
    | some _ => none
  | .stat st now =>
    match s.round with
    | none => none
    | some r => if s.clock ≤ now then some { observeStat s r st now with clock := now } else none
  | .finish gen =>
    match s.round with
    | none => none
    | some r => some { s with hub := if r.changed then s.hub.changed gen else s.hub, round := none }
  | .hub h => some { s with hub := h }

structure Start (id : Str) (s : St) : Prop where
  seen : s.staticSeen = ∅
  verdicts : s.verdicts = ∅
  round : s.round = none
  stream : s.hub.online id = false

def noStream (id : Str) (_ : St) : Ev → Bool
  | .hub h => !h.online id
  | _ => true

/-- The verdict right after the previous observation; offline before the first. -/
def lastVerdict (s : St) (id : Str) : Bool := (s.verdicts.lookup id).getD false

/-! ## What is remembered of a static peer -/

/-- The verdict on record was made of the handshake on record, at a time the clock has shown. -/
structure Inv (id : Str) (s : St) : Prop where
  stream : s.hub.online id = false
  unseen : s.verdicts.lookup id = none → s.staticSeen.lookup id = none
  seen : ∀ v, s.verdicts.lookup id = some v → ∃ t, t ≤ s.clock ∧ v = isFresh (s.staticSeen.lookup id) t

section

variable {id : Str} {s s' : St} {r : Round} {st : Wg.PeerStats} {now : Time}

theorem Start.inv (h : Start id s) : Inv id s := by
  refine ⟨h.stream, fun _ => ?_, fun v hv => ?_⟩
  · rw [h.seen, Finmap.lookup_empty]
  · rw [h.verdicts, Finmap.lookup_empty] at hv
    cases hv

/-- Steps that leave what is known of the peer alone. -/
theorem Inv.frame (h : Inv id s) (hhub : s'.hub.online id = false)
    (hseen : s'.staticSeen.lookup id = s.staticSeen.lookup id) (hver : s'.verdicts.lookup id = s.verdicts.lookup id)
      (hclock : s.clock ≤ s'.clock) : Inv id s' := by
  refine ⟨hhub, ?_, ?_⟩
  · rw [hseen, hver]
    exact h.unseen
  · rw [hseen, hver]
    intro v hv
    obtain ⟨t, ht, hvt⟩ := h.seen v hv
    exact ⟨t, le_trans ht hclock, hvt⟩

theorem online_of_noStream (h : s.hub.online id = false) (now : Time) :
    online s now id = isFresh (s.staticSeen.lookup id) now := by
  unfold online
  rw [h, Bool.false_or]

theorem noteStaticHandshake_hub (p : Row) (handshake : Time) : (noteStaticHandshake s p handshake now).1.hub = s.hub := rfl

theorem noteStaticHandshake_seen (p : Row) (handshake : Time) :
    (noteStaticHandshake s p handshake now).1.staticSeen = s.staticSeen.insert p.peer.id handshake := rfl

theorem Inv.observe (h : Inv id s) (hnow : s.clock ≤ now) : Inv id { observeStat s r st now with clock := now } := by
  unfold observeStat
  split_ifs with hskip
  · exact h.frame h.stream rfl rfl hnow
  · cases hrow : r.byKey.lookup (Wg.keyString st.publicKey) with
    | none => exact h.frame h.stream rfl rfl hnow
    | some p =>
      by_cases hmode : p.peer.mode = .static
      · simp only [hmode, if_true]
        by_cases hid : id = p.peer.id
        · subst hid
          refine ⟨h.stream, fun hnone => ?_, fun v hv => ⟨now, le_refl _, ?_⟩⟩
          · rw [Finmap.lookup_insert] at hnone
            cases hnone
          · rw [Finmap.lookup_insert] at hv
            rw [← Option.some.inj hv, online_of_noStream (by rw [noteStaticHandshake_hub]; exact h.stream)]
        · exact h.frame h.stream (Finmap.lookup_insert_of_ne _ hid) (Finmap.lookup_insert_of_ne _ hid) hnow
      · simp only [hmode, if_false]
        exact h.frame h.stream rfl rfl hnow

theorem Inv.next {e : Ev} (h : Inv id s) (hok : noStream id s e = true) (hs : next s e = some s') : Inv id s' := by
  cases e with
  | list rows =>
    unfold StaticPresence.next at hs
    cases hr : s.round with
    | none =>
      simp only [hr, Option.some.injEq] at hs
      subst hs
      exact h.frame h.stream rfl rfl (le_refl _)
    | some r => simp [hr] at hs
  | stat st now =>
    unfold StaticPresence.next at hs
    cases hr : s.round with
    | none => simp [hr] at hs
    | some r =>
      simp only [hr] at hs
      split_ifs at hs with hnow
      cases hs
      exact h.observe hnow
  | finish gen =>
    unfold StaticPresence.next at hs
    cases hr : s.round with
    | none => simp [hr] at hs
    | some r =>
      simp only [hr, Option.some.injEq] at hs
      subst hs
      refine h.frame ?_ rfl rfl (le_refl _)
      show (if r.changed then s.hub.changed gen else s.hub).online id = false
      split_ifs
      · exact h.stream
      · exact h.stream
  | hub h' =>
    cases hs
    exact h.frame ((Bool.not_eq_true' _).mp hok) rfl rfl (le_refl _)

theorem since_mono {t u b : Time} (h : t ≤ u) : since t b ≤ since u b := by
  unfold since
  exact max_le_max_right _ (min_le_min_right _ (Int.sub_le_sub_right h b))

/-- Fresh now, fresh then. -/
theorem isFresh_mono {seen : Option Time} {t u : Time} (h : t ≤ u) (hf : isFresh seen u = true) : isFresh seen t = true := by
  unfold isFresh at hf ⊢
  rw [Bool.and_eq_true, decide_eq_true_eq] at hf ⊢
  exact ⟨hf.1, lt_of_le_of_lt (since_mono h) hf.2⟩

/-- A handshake that is fresh now made the last verdict online. -/
theorem Inv.lastVerdict (h : Inv id s) (hnow : s.clock ≤ now) (hf : isFresh (s.staticSeen.lookup id) now = true) :
    lastVerdict s id = true := by
  unfold StaticPresence.lastVerdict
  cases hv : s.verdicts.lookup id with
  | none =>
    rw [h.unseen hv] at hf
    cases hf
  | some v =>
    obtain ⟨t, ht, rfl⟩ := h.seen v hv
    exact isFresh_mono (le_trans ht hnow) hf

end

/-- The loop calls `noteStaticHandshake` for the peer of this row. -/
structure Observes (s : St) (st : Wg.PeerStats) (r : Round) (p : Row) : Prop where
  round : s.round = some r
  endpoint : st.endpoint.isValid = true
  handshake : st.lastHandshake ≠ 0
  row : r.byKey.lookup (Wg.keyString st.publicKey) = some p
  static : p.peer.mode = .static

/-- In every run with a clock that never goes back, in which the static peer opens no stream:
    `noteStaticHandshake` says that the peer flipped, which has the netmaps rebuilt, exactly when
    the verdict after this observation differs from the one after the previous observation,
    unless the peer was online then and that handshake has gone stale since. -/
theorem flip_reported_iff {s s' : St} {p : Row} {r : Round}
    (h : Conc.Reach (Start p.peer.id) next (Conc.Holds (noStream p.peer.id)) s)
    (st : Wg.PeerStats) (now : Time) (ho : Observes s st r p) (hs : next s (.stat st now) = some s') :
    let flipped := (noteStaticHandshake s p st.lastHandshake now).2
    s'.round = some { r with changed := flipped || r.changed } ∧
      ((flipped = true ↔ online s' now p.peer.id ≠ lastVerdict s p.peer.id) ↔
        ¬(lastVerdict s p.peer.id = true ∧ isFresh (s.staticSeen.lookup p.peer.id) now = false)) := by
  intro flipped
  have hi : Inv p.peer.id s := h.inv (fun _ hst => hst.inv) (fun _ _ _ hi hok hs => hi.next hok hs)
  -- the step is the call
  have hskip : (!st.endpoint.isValid || st.lastHandshake == 0) = false := by
    rw [ho.endpoint]
    simpa using ho.handshake
  simp only [next, ho.round] at hs
  split_ifs at hs with hnow
  simp only [observeStat, hskip, Bool.false_eq_true, if_false, ho.row, ho.static, if_true, Option.some.injEq] at hs
  have hround : s'.round = some { r with changed := flipped || r.changed } := by rw [← hs]
  have hhub : s'.hub = s.hub := by rw [← hs, noteStaticHandshake_hub]
  have hseen : s'.staticSeen = s.staticSeen.insert p.peer.id st.lastHandshake := by rw [← hs, noteStaticHandshake_seen]
  -- the verdict after it is that of the new handshake
  have honline : online s' now p.peer.id = decide (since now st.lastHandshake < staticOnline) := by
    rw [online_of_noStream (by rw [hhub]; exact hi.stream), hseen, Finmap.lookup_insert]
    unfold isFresh
    simp [ho.handshake]
  have hflipped : flipped =
      (isFresh (s.staticSeen.lookup p.peer.id) now != decide (since now st.lastHandshake < staticOnline)) := rfl
  have hlast := hi.lastVerdict hnow
  grind

/-! ## A phone that falls silent -/

def phone : Row :=
  { peer := { id := str "ph", name := str "phone", mode := .static, publicKey := Wg.keyString (Arr.ofNat 32 7), ipv4 := [] } }

def phoneStats (t : Time) : Wg.PeerStats := { publicKey := Arr.ofNat 32 7, endpoint := wan, lastHandshake := t }

/-- A round of `observeOnce` at `now` that finds the phone's last handshake at `t`, and the next
    one up to its look at the phone. -/
def observed (t now : Time) : List Ev := [.list [phone], .stat (phoneStats t) now, .finish none, .list [phone]]

theorem observed_reach {t now : Time} {s : St}
    (h : Conc.run (Conc.guarded (noStream phone.peer.id) next) {} (observed t now) = some s) :
    Conc.Reach (Start phone.peer.id) next (Conc.Holds (noStream phone.peer.id)) s :=
  (Conc.Reach.start ⟨rfl, rfl, rfl, rfl⟩).run_guarded _ h

/-- What a look at the phone says: the last verdict, whether the flip is reported, the verdict
    after it. -/
def look (s : St) (t now : Time) : Bool × Bool × Option Bool :=
  (lastVerdict s phone.peer.id, (noteStaticHandshake s phone t now).2,
    (next s (.stat (phoneStats t) now)).map fun s' => online s' now phone.peer.id)

def secondRound : Round := { byKey := rowsByKey [phone] }

theorem secondRound_row : secondRound.byKey.lookup (Wg.keyString (Arr.ofNat 32 7)) = some phone := by decide +kernel

theorem secondRound_observes {t : Time} {s : St} (ht : t ≠ 0) (hr : s.round = some secondRound) :
    Observes s (phoneStats t) secondRound phone := ⟨hr, rfl, ht, secondRound_row, rfl⟩

/-- Online at 100 s, the phone is silent. At 300 s it is offline, and no flip is reported. -/
theorem a_silent_phone_goes_unnoticed : ∃ s,
    Conc.Reach (Start phone.peer.id) next (Conc.Holds (noStream phone.peer.id)) s ∧
    Observes s (phoneStats (100 * second)) secondRound phone ∧
    look s (100 * second) (300 * second) = (true, false, some false) := by
  obtain ⟨s, hs, hfacts⟩ := Option.map_eq_some_iff.mp (show
    (Conc.run (Conc.guarded (noStream phone.peer.id) next) {} (observed (100 * second) (100 * second))).map
      (fun s => (s.round, look s (100 * second) (300 * second))) = some (some secondRound, true, false, some false)
    by decide +kernel)
  exact ⟨s, observed_reach hs, secondRound_observes (by decide) (congrArg Prod.fst hfacts), congrArg Prod.snd hfacts⟩

/-- A phone that shakes hands again within three minutes stays online, and no flip is
    reported. -/
theorem a_live_phone_stays_online : ∃ s s',
    next s (.stat (phoneStats (120 * second)) (130 * second)) = some s' ∧
    look s (120 * second) (130 * second) = (true, false, some true) ∧
    ((noteStaticHandshake s phone (120 * second) (130 * second)).2 = true ↔
      online s' (130 * second) phone.peer.id ≠ lastVerdict s phone.peer.id) := by
  obtain ⟨s, hs, hfacts⟩ := Option.map_eq_some_iff.mp (show
    (Conc.run (Conc.guarded (noStream phone.peer.id) next) {} (observed (100 * second) (100 * second))).map
      (fun s => (s.round, look s (120 * second) (130 * second),
        isFresh (s.staticSeen.lookup phone.peer.id) (130 * second))) =
      some (some secondRound, (true, false, some true), true)
    by decide +kernel)
  have hlook : look s (120 * second) (130 * second) = (true, false, some true) := congrArg (·.2.1) hfacts
  have hfresh : isFresh (s.staticSeen.lookup phone.peer.id) (130 * second) = true := congrArg (·.2.2) hfacts
  obtain ⟨s', hs', -⟩ := Option.map_eq_some_iff.mp (congrArg (·.2.2) hlook)
  obtain ⟨-, hiff⟩ := flip_reported_iff (observed_reach hs) (phoneStats (120 * second)) (130 * second)
    (secondRound_observes (by decide) (congrArg Prod.fst hfacts)) hs'
  refine ⟨s, s', hs', hlook, hiff.mpr ?_⟩
  rintro ⟨-, hstale⟩
  rw [hfresh] at hstale
  cases hstale

end Thawr.Server.StaticPresence
