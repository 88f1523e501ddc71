/-
  Thawr.Control.Wants — runs of reach requests (`internal/control/hub.go`: `Connected`,
  `Disconnected`, `Want`, `WantSeq` and `Forget`).

  Beside the hub the state keeps the history of the run, which no step reads: how many streams
  each peer has open, and notes, the newest first, of the requests made for a peer with an open
  stream (with the number of the wake, if there was one) and of the peers forgotten. `Forget`
  drops a deleted peer's presence, so a stream it still has open then is not counted.

  `request` says what the notes mean: of a pair the latest request and the latest wake since one
  of the two was forgotten. Proved, in every run with a clock that does not go back
  (`wants_numbered`): a request that has not expired is in the hub's table as the notes have it,
  however lazily the table is cleaned. So wakes count up by one from the hub's start, two wakes
  of a pair are `wantRepeat` apart or have a `Forget` of one of the two between them, and
  `WantSeq` gives the number of the pair's latest wake exactly while a request lies less than
  `wantTTL` back with no such `Forget` since, and 0 otherwise.

  The counter has 64 bits: past 2^64 wakes numbers come again, and a peer that was forgotten with
  a stream open is not woken (`a_number_comes_again_and_a_forgotten_peer_is_not_woken`).
-/

import Thawr.Conc.Runs
import Thawr.Control.Hub
import Thawr.Go.Assoc
import Mathlib.Data.Finset.Card
import Mathlib.Data.Finset.Range

namespace Thawr.Control.Wants

open Go Conc

inductive Note where
  | forget (id : Str)
  /-- `wake`: the number, when the request woke its target. -/
  | want (target source : Str) (at_ : Int) (wake : Option UInt64)

structure St where
  hub : Hub := {}
  clock : Int := 0
  /-- The hub's counter when it was made. -/
  start : UInt64 := 0
  streams : Str → Nat := fun _ => 0
  notes : List Note := []

inductive Ev where
  /-- `gen`: what `Changed` reads as the database generation. -/
  | connected (id : Str) (gen : Option Int)
  | disconnected (id : Str) (now : Int)
  | want (target source : Str) (now : Int)
  | wantSeq (target source : Str) (now : Int)
  | forget (id : Str)

def Ev.time : Ev → Option Int
  | connected _ _ => none
  | disconnected _ now => some now
  | want _ _ now => some now
  | wantSeq _ _ now => some now
  | forget _ => none

def wakeOf (old new : Hub) : Option UInt64 := if new.wantSeq = old.wantSeq then none else some new.wantSeq

def act (s : St) : Ev → St
  | .connected id gen =>
    let h := s.hub.connected id
    { s with
      hub := if s.hub.online id then h else h.changed gen
      streams := Function.update s.streams id (s.streams id + 1) }
  | .disconnected id now => { s with
      hub := s.hub.disconnected now id
      streams := Function.update s.streams id (s.streams id - 1) }
  | .want target source now =>
    let r := s.hub.want now target source
    let h := r.2.foldl Hub.wake r.1
    { s with
      hub := h
      notes := if s.streams target = 0 then s.notes else .want target source now (wakeOf s.hub h) :: s.notes }
  | .wantSeq target source now => { s with hub := (s.hub.wantSeqOf now target source).1 }
  | .forget id => { s with hub := s.hub.forget id, streams := Function.update s.streams id 0, notes := .forget id :: s.notes }

def next (s : St) (e : Ev) : Option St :=
  match e.time with
  | none => some (act s e)
  | some now => if now < s.clock then none else some (act { s with clock := now } e)

/-- A new hub: its counter starts at the nanoseconds since 1970, a number of 63 bits. -/
def Start (s : St) : Prop :=
  s.hub.wants = [] ∧ s.hub.presence = [] ∧ s.hub.wantSeq = s.start ∧ s.start.toNat < 2 ^ 63 ∧
    s.streams = (fun _ => 0) ∧ s.notes = []

/-! ## What the notes mean -/

/-- The latest request of a pair and its latest wake, since one of the two was forgotten. -/
def request (target source : Str) : List Note → Option WantReq
  | [] => none
  | .forget id :: ns => if id = target ∨ id = source then none else request target source ns
  | .want t f now wake :: ns =>
    if t = target ∧ f = source then
      match wake with
      | some n => some ⟨now, now, n⟩
      | none => (request target source ns).map fun r => { r with at_ := now }
    else request target source ns

def numbers (ns : List Note) : List UInt64 :=
  ns.filterMap fun
    | .want _ _ _ wake => wake
    | .forget _ => none

def NoForget (target source : Str) (ns : List Note) : Prop := ∀ id, Note.forget id ∈ ns → id ≠ target ∧ id ≠ source

/-- A request of the pair, made while the target had a stream open, lies less than `wantTTL` back
    with no `Forget` of either since. -/
def Asked (target source : Str) (now : Int) (ns : List Note) : Prop :=
  ∃ newer a wake older, ns = newer ++ .want target source a wake :: older ∧ NoForget target source newer ∧ now - a < wantTTL

def LatestWake (target source : Str) (n : UInt64) (ns : List Note) : Prop :=
  ∃ newer a older, ns = newer ++ .want target source a (some n) :: older ∧ ∀ b m, Note.want target source b (some m) ∉ newer

/-- Two wakes of one pair, with no `Forget` of either between them, are `wantRepeat` apart. -/
def Spaced (ns : List Note) : Prop :=
  ∀ target source newer a n between b m older,
    ns = newer ++ .want target source a (some n) :: (between ++ .want target source b (some m) :: older) →
    NoForget target source between → b + wantRepeat ≤ a

/-- What a note of a request says about the pair's request so far: one that did not wake
    repeats it, one that did comes long enough after its last wake. -/
def Fits (before : Option WantReq) (now : Int) : Option UInt64 → Prop
  | none => before.isSome = true
  | some _ => ∀ r, before = some r → r.woke + wantRepeat ≤ now

def Sound : List Note → Prop
  | [] => True
  | .forget _ :: ns => Sound ns
  | .want t f now wake :: ns => Sound ns ∧ (∀ t' f' b w, Note.want t' f' b w ∈ ns → b ≤ now) ∧ Fits (request t f ns) now wake

section

variable {t f t' f' : Str} {a b now : Int} {wake : Option UInt64} {ns newer older : List Note} {r : WantReq} {id : Str}

theorem request_forget (h : id ≠ t ∧ id ≠ f) : request t f (.forget id :: ns) = request t f ns := by
  rw [request, if_neg (by simp [h.1, h.2])]

theorem request_want_other (h : ¬(t' = t ∧ f' = f)) : request t f (.want t' f' a wake :: ns) = request t f ns := by
  rw [request.eq_def]
  exact if_neg h

theorem request_woke (n : UInt64) : request t f (.want t f a (some n) :: ns) = some ⟨a, a, n⟩ := by
  rw [request, if_pos ⟨rfl, rfl⟩]

theorem request_again : request t f (.want t f a none :: ns) = (request t f ns).map fun r => { r with at_ := a } := by
  rw [request, if_pos ⟨rfl, rfl⟩]

theorem noForget_cons {x : Note} :
    NoForget t f (x :: ns) ↔ (∀ id, x = .forget id → id ≠ t ∧ id ≠ f) ∧ NoForget t f ns := by
  unfold NoForget
  grind

theorem Sound.suffix (h : Sound (newer ++ older)) : Sound older := by
  induction newer with
  | nil => exact h
  | cons x newer ih =>
    cases x with
    | forget id => exact ih h
    | want t f a wake => exact ih h.1

/-- A request of the pair that was not followed by a `Forget` is still there, as it was or made
    again since. -/
theorem request_of_want (hs : Sound (newer ++ .want t f a wake :: older)) (hno : NoForget t f newer) :
    ∃ r, request t f (newer ++ .want t f a wake :: older) = some r ∧ a ≤ r.at_ ∧ (wake.isSome = true → a ≤ r.woke) := by
  induction newer with
  | nil =>
    cases wake with
    | some n => exact ⟨_, request_woke n, Int.le_refl _, fun _ => Int.le_refl _⟩
    | none =>
      obtain ⟨r, hr⟩ := Option.isSome_iff_exists.mp hs.2.2
      refine ⟨{ r with at_ := a }, ?_, Int.le_refl _, fun h => by cases h⟩
      rw [List.nil_append, request_again, hr]
      rfl
  | cons x newer ih =>
    cases x with
    | forget id =>
      obtain ⟨hid, hno⟩ := noForget_cons.mp hno
      rw [List.cons_append, request_forget (hid id rfl)]
      exact ih hs hno
    | want t' f' b w =>
      obtain ⟨r, hr, hat, hwoke⟩ := ih hs.1 (noForget_cons.mp hno).2
      by_cases hpair : t' = t ∧ f' = f
      · obtain ⟨rfl, rfl⟩ := hpair
        have hab : a ≤ b := hs.2.1 t' f' a wake (List.mem_append_right _ List.mem_cons_self)
        cases w with
        | some n => exact ⟨_, request_woke n, hab, fun _ => hab⟩
        | none =>
          refine ⟨{ r with at_ := b }, ?_, hab, hwoke⟩
          rw [List.cons_append, request_again, hr]
          rfl
      · exact ⟨r, by rw [List.cons_append, request_want_other hpair]; exact hr, hat, hwoke⟩

/-- A request that was made and its pair's latest wake, which is no later. -/
structure Made (t f : Str) (r : WantReq) (ns : List Note) : Prop where
  made : ∃ newer wake older, ns = newer ++ .want t f r.at_ wake :: older ∧ NoForget t f newer
  latest : LatestWake t f r.seq ns
  woke : r.woke ≤ r.at_

/-- A note that is no wake of the pair leaves its latest one. -/
theorem LatestWake.cons {n : UInt64} {x : Note} (h : LatestWake t f n ns) (hx : ∀ b m, x ≠ .want t f b (some m)) :
    LatestWake t f n (x :: ns) := by
  obtain ⟨newer, b, older, rfl, hlatest⟩ := h
  refine ⟨x :: newer, b, older, rfl, fun b' m hmem => ?_⟩
  grind

theorem Made.cons {x : Note} (h : Made t f r ns) (hno : ∀ id, x = .forget id → id ≠ t ∧ id ≠ f)
    (hx : ∀ b w, x ≠ .want t f b w) : Made t f r (x :: ns) := by
  obtain ⟨newer, wake, older, hsplit, hnewer⟩ := h.made
  exact ⟨⟨x :: newer, wake, older, by rw [hsplit]; rfl, noForget_cons.mpr ⟨hno, hnewer⟩⟩, h.latest.cons fun b m => hx b _, h.woke⟩

/-- The request the notes have of a pair. -/
theorem request_made (hs : Sound ns) (h : request t f ns = some r) : Made t f r ns := by
  induction ns generalizing r with
  | nil => cases h
  | cons x ns ih =>
    cases x with
    | forget id =>
      rw [request] at h
      split at h
      · cases h
      · rename_i hid
        exact (ih hs h).cons (by grind) (by simp)
    | want t' f' b w =>
      by_cases hpair : t' = t ∧ f' = f
      · obtain ⟨rfl, rfl⟩ := hpair
        cases w with
        | some n =>
          rw [request_woke] at h
          cases h
          exact ⟨⟨[], some n, ns, rfl, nofun⟩, ⟨[], b, ns, rfl, nofun⟩, Int.le_refl _⟩
        | none =>
          rw [request_again] at h
          obtain ⟨q, hq, rfl⟩ := Option.map_eq_some_iff.mp h
          have hq := ih hs.1 hq
          obtain ⟨newer, w, older, hsplit, -⟩ := hq.made
          have hqb : q.at_ ≤ b := hs.2.1 t' f' q.at_ w (by rw [hsplit]; exact List.mem_append_right _ List.mem_cons_self)
          exact ⟨⟨[], none, ns, rfl, nofun⟩, hq.latest.cons (by simp), hq.woke.trans hqb⟩
      · rw [request_want_other hpair] at h
        exact (ih hs.1 h).cons nofun (by grind)

theorem Sound.spaced (h : Sound ns) : Spaced ns := by
  intro target source newer a n between b m older hsplit hno
  subst hsplit
  obtain ⟨hsound, -, hfits⟩ := Sound.suffix h
  obtain ⟨r, hr, -, hwoke⟩ := request_of_want hsound hno
  have := hfits r hr
  have := hwoke rfl
  omega

theorem asked_iff (h : Sound ns) : Asked t f now ns ↔ ∃ r, request t f ns = some r ∧ now - r.at_ < wantTTL := by
  constructor
  · rintro ⟨newer, a, wake, older, rfl, hno, hlt⟩
    obtain ⟨r, hr, hat, -⟩ := request_of_want h hno
    exact ⟨r, hr, by omega⟩
  · rintro ⟨r, hr, hlt⟩
    obtain ⟨newer, wake, older, hsplit, hno⟩ := (request_made h hr).made
    exact ⟨newer, r.at_, wake, older, hsplit, hno, hlt⟩

end

/-! ## The numbers -/

def Counts (start : UInt64) : List UInt64 → Prop
  | [] => True
  | n :: ns => n = start + UInt64.ofNat (ns.length + 1) ∧ Counts start ns

/-- As long as the counter does not wrap, each number is greater than all before it. -/
theorem Counts.increasing {start : UInt64} {ns : List UInt64} (h : Counts start ns) (hfit : start.toNat + ns.length < 2 ^ 64) :
    ns.Pairwise (· > ·) ∧ ∀ n ∈ ns, start < n ∧ n.toNat ≤ start.toNat + ns.length := by
  induction ns with
  | nil => exact ⟨.nil, fun n hn => by cases hn⟩
  | cons n ns ih =>
    obtain ⟨rfl, hrest⟩ := h
    rw [List.length_cons] at hfit
    obtain ⟨hpair, hall⟩ := ih hrest (by omega)
    have hnum : (start + UInt64.ofNat (ns.length + 1)).toNat = start.toNat + (ns.length + 1) := by
      rw [UInt64.toNat_add, UInt64.toNat_ofNat']
      omega
    refine ⟨List.pairwise_cons.mpr ⟨fun m hm => ?_, hpair⟩, List.forall_mem_cons.mpr ⟨⟨?_, ?_⟩, fun m hm => ⟨(hall m hm).1, ?_⟩⟩⟩
    · have := (hall m hm).2
      rw [gt_iff_lt, UInt64.lt_iff_toNat_lt, hnum]
      omega
    · rw [UInt64.lt_iff_toNat_lt, hnum]
      omega
    · rw [hnum, List.length_cons]
    · have := (hall m hm).2
      rw [List.length_cons]
      omega

theorem succ_ne (n : UInt64) : n + 1 ≠ n := by
  intro h
  have := congrArg UInt64.toNat h
  rw [UInt64.toNat_add, UInt64.toNat_one] at this
  have := n.toNat_lt
  omega

/-! ## The table -/

def streamsOf (h : Hub) (id : Str) : Nat := ((h.presence.lookup id).map (·.streams)).getD 0

def fresh (now : Int) (r : Option WantReq) : Option WantReq := r.filter fun r => decide (now - r.at_ < wantTTL)

structure Tidy (h : Hub) : Prop where
  targets : Assoc.Keyed h.wants
  sources : ∀ x ∈ h.wants, Assoc.Keyed x.2

/-- A request recorded: the others for its target that expired are dropped. -/
def record (h : Hub) (now : Int) (target source : Str) (r : WantReq) : Hub :=
  { h with wants := setEntry h.wants target (setEntry (h.liveWants now target) source r) }

section

variable {h : Hub} {now now' : Int} {target source t f id id' : Str} {r : WantReq}

theorem lookup_setEntry {α : Type} {m : List (Str × α)} {k k' : Str} {v : α} :
    (setEntry m k v).lookup k' = if k' = k then some v else m.lookup k' := by
  unfold setEntry
  rw [Assoc.lookup_cons_eq, Assoc.lookup_filter_key]
  by_cases hk : k' = k
  · rw [if_pos hk, if_pos hk]
  · rw [if_neg hk, if_neg hk, if_neg hk]

theorem keyed_setEntry {α : Type} {m : List (Str × α)} {k : Str} {v : α} (hm : Assoc.Keyed m) : Assoc.Keyed (setEntry m k v) := by
  unfold setEntry Assoc.Keyed
  rw [List.map_cons, List.nodup_cons]
  refine ⟨?_, hm.filter _⟩
  simp

theorem fresh_some : fresh now (some r) = if now - r.at_ < wantTTL then some r else none := by
  unfold fresh
  grind

/-- What has not expired later has not expired now. -/
theorem fresh_fresh (hle : now ≤ now') (x : Option WantReq) : fresh now' (fresh now x) = fresh now' x := by
  cases x with
  | none => rfl
  | some r =>
    rw [fresh_some]
    by_cases hlt : now - r.at_ < wantTTL
    · rw [if_pos hlt]
    · rw [if_neg hlt, fresh_some, if_neg (by omega)]
      rfl

theorem Tidy.inner (ht : Tidy h) (target : Str) : Assoc.Keyed ((h.wants.lookup target).getD []) := by
  cases hl : h.wants.lookup target with
  | none => exact List.nodup_nil
  | some l => exact ht.sources _ (Assoc.mem_of_lookup hl)

theorem Tidy.live (ht : Tidy h) : (h.liveWants now target).lookup source = fresh now (h.wantOf target source) :=
  Assoc.lookup_filter (ht.inner target) _

theorem Tidy.set (ht : Tidy h) {l : List (Str × WantReq)} (hl : Assoc.Keyed l) :
    Tidy { h with wants := setEntry h.wants target l } := by
  refine ⟨keyed_setEntry ht.targets, fun x hx => ?_⟩
  rcases List.mem_cons.mp hx with rfl | hx
  · exact hl
  · exact ht.sources x (List.mem_of_mem_filter hx)

theorem Tidy.record (ht : Tidy h) : Tidy (record h now target source r) :=
  ht.set (keyed_setEntry ((ht.inner target).filter _))

theorem wantOf_record (ht : Tidy h) : (record h now target source r).wantOf t f =
    if t = target ∧ f = source then some r else if t = target then fresh now (h.wantOf t f) else h.wantOf t f := by
  unfold Hub.wantOf record
  simp only
  rw [lookup_setEntry]
  by_cases hte : t = target
  · subst hte
    rw [if_pos rfl, Option.getD_some, lookup_setEntry, ht.live]
    by_cases hf : f = source
    · simp [hf]
    · simp [hf, Hub.wantOf]
  · simp [hte]

/-- The table without one request. -/
theorem Tidy.drop (ht : Tidy h) : Tidy (h.dropWant target source) := by
  unfold Hub.dropWant
  simp only
  split
  · exact ⟨ht.targets.filter _, fun x hx => ht.sources x (List.mem_of_mem_filter hx)⟩
  · exact ht.set ((ht.inner target).filter _)

theorem wantOf_drop : (h.dropWant target source).wantOf t f = if t = target ∧ f = source then none else h.wantOf t f := by
  have hrest : (((h.wants.lookup target).getD []).filter fun x => x.1 != source).lookup f =
      if f = source then none else ((h.wants.lookup target).getD []).lookup f := Assoc.lookup_filter_key
  unfold Hub.dropWant Hub.wantOf
  simp only
  by_cases hte : t = target
  · subst hte
    split
    · grind
    · rw [lookup_setEntry, if_pos rfl, Option.getD_some, hrest]
      by_cases hf : f = source
      · simp [hf]
      · simp [hf]
  · rw [if_neg (show ¬(t = target ∧ f = source) from fun hpair => hte hpair.1)]
    split
    · rw [Assoc.lookup_filter_key, if_neg hte]
    · rw [lookup_setEntry, if_neg hte]

theorem Tidy.forget (ht : Tidy h) : Tidy (h.forget id) := by
  refine ⟨((ht.targets.filter _).map (List.filter fun y : Str × WantReq => y.1 != id)).filter _, fun x hx => ?_⟩
  obtain ⟨y, hy, rfl⟩ := List.mem_map.mp (List.mem_of_mem_filter hx)
  exact (ht.sources y (List.mem_of_mem_filter hy)).filter _

theorem wantOf_forget (ht : Tidy h) : (h.forget id).wantOf t f = if id = t ∨ id = f then none else h.wantOf t f := by
  have hmap : ((h.wants.filter fun x => x.1 != id).map fun x => (x.1, x.2.filter fun y => y.1 != id)).lookup t =
      if t = id then none else (h.wants.lookup t).map fun l => l.filter fun y => y.1 != id := by
    rw [Assoc.lookup_map (List.filter fun y : Str × WantReq => y.1 != id), Assoc.lookup_filter_key]
    grind
  unfold Hub.wantOf Hub.forget
  simp only
  rw [Assoc.lookup_filter ((ht.targets.filter _).map (List.filter fun y : Str × WantReq => y.1 != id)), hmap]
  by_cases hte : t = id
  · simp [hte]
  · rw [if_neg hte]
    cases hl : h.wants.lookup t with
    | none => simp
    | some l =>
      -- a list that became empty reads as the missing one
      have hempty : ∀ l : List (Str × WantReq), ((some l).filter fun l => !l.isEmpty).getD [] = l := by
        intro l
        cases l with
        | nil => rfl
        | cons x l => rfl
      rw [Option.map_some, hempty, Assoc.lookup_filter_key, Option.getD_some]
      grind

/-! ## What a call does -/

theorem streamsOf_connected : streamsOf (h.connected id) = Function.update (streamsOf h) id (streamsOf h id + 1) := by
  funext x
  simp only [streamsOf, Hub.connected, lookup_setEntry, Function.update_apply]
  cases he : h.presence.lookup id with
  | none => grind
  | some e => grind

theorem streamsOf_disconnected : streamsOf (h.disconnected now id) = Function.update (streamsOf h) id (streamsOf h id - 1) := by
  funext x
  simp only [streamsOf, Hub.disconnected, Function.update_apply]
  cases he : h.presence.lookup id with
  | none => grind
  | some e =>
    simp only [lookup_setEntry]
    grind

theorem streamsOf_forget : streamsOf (h.forget id) = Function.update (streamsOf h) id 0 := by
  funext x
  simp only [streamsOf, Hub.forget, Assoc.lookup_filter_key, Function.update_apply]
  grind

/-- The sends of `Want` fill channels only. -/
theorem wake_frame (keys : List Nat) : ∃ subs, keys.foldl Hub.wake h = { h with subs := subs } := by
  induction keys generalizing h with
  | nil => exact ⟨h.subs, rfl⟩
  | cons k keys ih =>
    obtain ⟨subs, hsubs⟩ := ih (h := h.wake k)
    exact ⟨subs, hsubs⟩

/-- A peer without an open stream is not wanted. -/
theorem want_idle (h0 : streamsOf h target = 0) : h.want now target source = (h, []) := by
  unfold Hub.want
  unfold streamsOf at h0
  grind

/-- A request for a peer with an open stream is recorded. It wakes the peer unless one that has
    not expired did so a short time ago. -/
theorem want_open (ht : Tidy h) (h0 : streamsOf h target ≠ 0) (now : Int) (source : Str) :
    (∃ r, fresh now (h.wantOf target source) = some r ∧
      (h.want now target source).1 = record h now target source { r with at_ := now }) ∨
    ((∀ r, fresh now (h.wantOf target source) = some r → r.woke + wantRepeat ≤ now) ∧
      (h.want now target source).1 = { record h now target source ⟨now, now, h.wantSeq + 1⟩ with wantSeq := h.wantSeq + 1 }) := by
  unfold Hub.want
  unfold streamsOf at h0
  cases he : h.presence.lookup target with
  | none =>
    rw [he] at h0
    exact absurd rfl h0
  | some e =>
    rw [he] at h0
    have h0 : ¬e.streams = 0 := h0
    simp only
    rw [if_neg h0, ← ht.live]
    cases hl : (h.liveWants now target).lookup source with
    | none =>
      refine .inr ⟨fun r hr => ?_, rfl⟩
      cases hr
    | some r =>
      simp only
      split
      · rename_i hlong
        refine .inr ⟨fun q hq => ?_, rfl⟩
        cases hq
        omega
      · exact .inl ⟨r, rfl, rfl⟩

end

/-! ## The invariant -/

structure Inv (s : St) : Prop where
  tidy : Tidy s.hub
  streams : streamsOf s.hub = s.streams
  sound : Sound s.notes
  past : ∀ t f b w, Note.want t f b w ∈ s.notes → b ≤ s.clock
  /-- What has not expired is in the table as the notes have it. -/
  live : ∀ t f now, s.clock ≤ now → fresh now (s.hub.wantOf t f) = fresh now (request t f s.notes)
  seq : s.hub.wantSeq = s.start + UInt64.ofNat (numbers s.notes).length
  counts : Counts s.start (numbers s.notes)
  small : s.start.toNat < 2 ^ 63

section

variable {s s' : St} {now : Int} {t f target source id : Str} {r : WantReq}

theorem Inv.begin (h : Start s) : Inv s := by
  obtain ⟨hwants, hpresence, hseq, hsmall, hstreams, hnotes⟩ := h
  constructor
  · exact ⟨by rw [hwants]; exact List.nodup_nil, by simp [hwants]⟩
  · funext x
    simp [streamsOf, hpresence, hstreams]
  · rw [hnotes]
    trivial
  · simp [hnotes]
  · intro t f now _
    rw [hnotes, Hub.wantOf, hwants]
    rfl
  · rw [hseq, hnotes]
    simp [numbers]
  · rw [hnotes]
    trivial
  · exact hsmall

theorem Inv.tick (h : Inv s) (hnow : s.clock ≤ now) : Inv { s with clock := now } :=
  { h with
    past := fun t f b w hn => Int.le_trans (h.past t f b w hn) hnow
    live := fun t f now' hle => h.live t f now' (Int.le_trans hnow hle) }

/-- A call that leaves the notes and the requests alone. -/
theorem Inv.frame (h : Inv s) {hub : Hub} {streams : Str → Nat} (hwants : hub.wants = s.hub.wants)
    (hseq : hub.wantSeq = s.hub.wantSeq) (hstreams : streamsOf hub = streams) :
      Inv { s with hub := hub, streams := streams } where
  tidy := ⟨hwants ▸ h.tidy.targets, hwants ▸ h.tidy.sources⟩
  streams := hstreams
  sound := h.sound
  past := h.past
  live t f now hle := by
    have hsame : hub.wantOf t f = s.hub.wantOf t f := by rw [Hub.wantOf, Hub.wantOf, hwants]
    rw [hsame]
    exact h.live t f now hle
  seq := hseq.trans h.seq
  counts := h.counts
  small := h.small

theorem Inv.connected (h : Inv s) (gen : Option Int) : Inv (act s (.connected id gen)) := by
  have hstreams : streamsOf (s.hub.connected id) = Function.update s.streams id (s.streams id + 1) := by
    rw [streamsOf_connected, h.streams]
  simp only [act]
  split
  · exact h.frame rfl rfl hstreams
  · exact h.frame rfl rfl hstreams

theorem Inv.disconnected (h : Inv s) : Inv (act s (.disconnected id now)) := by
  have hsame : (s.hub.disconnected now id).wants = s.hub.wants ∧ (s.hub.disconnected now id).wantSeq = s.hub.wantSeq := by
    unfold Hub.disconnected
    split
    · exact ⟨rfl, rfl⟩
    · exact ⟨rfl, rfl⟩
  exact h.frame hsame.1 hsame.2 (by rw [streamsOf_disconnected, h.streams])

theorem Inv.wantSeq (h : Inv s) : Inv (act s (.wantSeq target source s.clock)) := by
  simp only [act, Hub.wantSeqOf]
  split
  · exact h
  · rename_i r hr
    split
    · exact h
    · rename_i hold
      refine ⟨h.tidy.drop, h.streams, h.sound, h.past, fun t f now hle => ?_, h.seq, h.counts, h.small⟩
      change fresh now ((s.hub.dropWant target source).wantOf t f) = _
      rw [wantOf_drop, ← h.live t f now hle]
      split
      · rename_i hpair
        obtain ⟨rfl, rfl⟩ := hpair
        have hle : s.clock ≤ now := hle
        rw [hr, fresh_some, if_neg (by omega)]
        rfl
      · rfl

theorem Inv.forget (h : Inv s) : Inv (act s (.forget id)) := by
  have hstreams : streamsOf (s.hub.forget id) = Function.update s.streams id 0 := by rw [streamsOf_forget, h.streams]
  refine ⟨h.tidy.forget, hstreams, h.sound, ?_, fun t f now hle => ?_, h.seq, h.counts, h.small⟩
  · intro t f b w hn
    rcases List.mem_cons.mp hn with hn | hn
    · cases hn
    · exact h.past t f b w hn
  · change fresh now ((s.hub.forget id).wantOf t f) = fresh now (request t f (.forget id :: s.notes))
    rw [wantOf_forget h.tidy, request]
    split
    · rfl
    · exact h.live t f now hle

/-- A request that is recorded as the notes then have it. -/
theorem Inv.recorded (h : Inv s) {hub : Hub} {wake : Option UInt64}
    (hwants : hub.wants = (record s.hub s.clock target source r).wants)
    (hstreams : streamsOf hub = s.streams) (hfits : Fits (request target source s.notes) s.clock wake)
    (hr : request target source (.want target source s.clock wake :: s.notes) = some r)
    (hseq : hub.wantSeq = s.start + UInt64.ofNat (numbers (.want target source s.clock wake :: s.notes)).length)
    (hcounts : Counts s.start (numbers (.want target source s.clock wake :: s.notes))) :
    Inv { s with hub := hub, notes := .want target source s.clock wake :: s.notes } := by
  have hsame : ∀ t f, hub.wantOf t f = (record s.hub s.clock target source r).wantOf t f := by
    intro t f
    rw [Hub.wantOf, Hub.wantOf, hwants]
  have htidy : Tidy (record s.hub s.clock target source r) := h.tidy.record
  refine ⟨⟨hwants ▸ htidy.targets, hwants ▸ htidy.sources⟩, hstreams, ⟨h.sound, h.past, hfits⟩, ?_, fun t f now hle => ?_,
    hseq, hcounts, h.small⟩
  · intro t f b w hn
    rcases List.mem_cons.mp hn with hn | hn
    · cases hn
      exact Int.le_refl _
    · exact h.past t f b w hn
  · change fresh now (hub.wantOf t f) = fresh now (request t f (.want target source s.clock wake :: s.notes))
    rw [hsame, wantOf_record h.tidy]
    by_cases hpair : t = target ∧ f = source
    · rw [if_pos hpair, hpair.1, hpair.2, hr]
    · rw [if_neg hpair, request_want_other (fun hp => hpair ⟨hp.1.symm, hp.2.symm⟩), ← h.live t f now hle]
      split
      · exact fresh_fresh hle _
      · rfl

theorem Inv.want (h : Inv s) : Inv (act s (.want target source s.clock)) := by
  obtain ⟨subs, hsubs⟩ := wake_frame (h := (s.hub.want s.clock target source).1) (s.hub.want s.clock target source).2
  simp only [act]
  rw [hsubs]
  by_cases h0 : s.streams target = 0
  · rw [if_pos h0, want_idle (by rw [h.streams]; exact h0)]
    exact h.frame rfl rfl h.streams
  · rw [if_neg h0]
    have hlive := h.live target source s.clock (Int.le_refl _)
    rcases want_open h.tidy (by rw [h.streams]; exact h0) s.clock source with ⟨r, hr, hw⟩ | ⟨hr, hw⟩
    · -- the request repeats one that woke the target a short time ago
      have hreq : request target source s.notes = some r := by
        rw [hlive] at hr
        exact (Option.filter_eq_some_iff.mp hr).1
      rw [hw, show wakeOf s.hub { record s.hub s.clock target source { r with at_ := s.clock } with subs := subs } =
        none from if_pos rfl]
      refine h.recorded rfl h.streams ?_ ?_ h.seq h.counts
      · rw [Fits, hreq]
        rfl
      · rw [request_again, hreq]
        rfl
    · have hnum : (numbers (.want target source s.clock (some (s.hub.wantSeq + 1)) :: s.notes)) =
          (s.hub.wantSeq + 1) :: numbers s.notes := rfl
      have hcount : s.hub.wantSeq + 1 = s.start + UInt64.ofNat ((numbers s.notes).length + 1) := by
        rw [h.seq, UInt64.ofNat_add, UInt64.add_assoc]
        rfl
      have hwake : ∀ h : Hub, wakeOf s.hub { h with subs := subs, wantSeq := s.hub.wantSeq + 1 } = some (s.hub.wantSeq + 1) :=
        fun _ => if_neg (succ_ne _)
      rw [hw, hwake]
      refine h.recorded rfl h.streams ?_ (request_woke _) ?_ ?_
      · intro r hreq
        by_cases hfresh : s.clock - r.at_ < wantTTL
        · refine hr r ?_
          rw [hlive, hreq, fresh_some, if_pos hfresh]
        · -- one that expired woke the target longer ago still
          have hwoke := (request_made h.sound hreq).woke
          have hrepeat : wantRepeat ≤ wantTTL := by decide
          omega
      · rw [hnum]
        exact hcount
      · rw [hnum]
        exact ⟨hcount, h.counts⟩

/-- A call at the time the clock shows. -/
theorem Inv.act {e : Ev} (h : Inv s) (htime : ∀ now, e.time = some now → now = s.clock) : Inv (Wants.act s e) := by
  cases e with
  | connected id gen => exact h.connected gen
  | disconnected id now => exact h.disconnected
  | want target source now =>
    rw [htime now rfl]
    exact h.want
  | wantSeq target source now =>
    rw [htime now rfl]
    exact h.wantSeq
  | forget id => exact h.forget

theorem Inv.next {e : Ev} (h : Inv s) (hs : Wants.next s e = some s') : Inv s' := by
  unfold Wants.next at hs
  split at hs
  · rename_i hnone
    cases hs
    exact h.act fun now hnow => by rw [hnone] at hnow; cases hnow
  · rename_i now hnow
    split at hs
    · cases hs
    · rename_i hclock
      cases hs
      refine (h.tick (Int.not_lt.mp hclock)).act fun now' hnow' => ?_
      rw [hnow] at hnow'
      exact (Option.some.inj hnow').symm

theorem reach_inv (h : Reach Start Wants.next Always s) : Inv s :=
  h.inv (fun _ => Inv.begin) (fun _ _ _ hi _ hs => hi.next hs)

/-- What `WantSeq` answers, by the notes. -/
theorem Inv.answer (h : Inv s) (hnow : s.clock ≤ now) :
    (s.hub.wantSeqOf now t f).2 = ((fresh now (request t f s.notes)).map (·.seq)).getD 0 := by
  rw [← h.live t f now hnow]
  unfold Hub.wantSeqOf
  cases hr : s.hub.wantOf t f with
  | none => rfl
  | some r =>
    simp only
    rw [fresh_some]
    split
    · rfl
    · rfl

theorem LatestWake.mem {n : UInt64} {ns : List Note} (h : LatestWake t f n ns) : n ∈ numbers ns := by
  obtain ⟨newer, a, older, rfl, -⟩ := h
  exact List.mem_filterMap.mpr ⟨_, List.mem_append_right _ List.mem_cons_self, rfl⟩

/-- `WantSeq` is the number of the pair's latest wake while it was asked for, else 0. -/
theorem Inv.latest (h : Inv s) (hnow : s.clock ≤ now) :
    (Asked t f now s.notes → LatestWake t f (s.hub.wantSeqOf now t f).2 s.notes) ∧
      (¬Asked t f now s.notes → (s.hub.wantSeqOf now t f).2 = 0) := by
  rw [asked_iff h.sound, h.answer hnow]
  constructor
  · rintro ⟨r, hr, hlt⟩
    rw [hr, fresh_some, if_pos hlt]
    exact (request_made h.sound hr).latest
  · intro hnot
    cases hr : request t f s.notes with
    | none => rfl
    | some r =>
      rw [fresh_some, if_neg (fun hlt => hnot ⟨r, hr, hlt⟩)]
      rfl

/-- The counter has room for 2^63 wakes. -/
theorem Inv.increasing (h : Inv s) (hfit : (numbers s.notes).length ≤ 2 ^ 63) :
    (numbers s.notes).Pairwise (· > ·) ∧ ∀ n ∈ numbers s.notes, n ≠ 0 := by
  have hsmall := h.small
  obtain ⟨hpair, hall⟩ := h.counts.increasing (by omega)
  grind

end

theorem wants_numbered {s : St} (h : Reach Start next Always s) (hfit : (numbers s.notes).length ≤ 2 ^ 63) :
    (numbers s.notes).Pairwise (· > ·) ∧ Spaced s.notes ∧
    ∀ target source now, s.clock ≤ now →
      ((s.hub.wantSeqOf now target source).2 ≠ 0 ↔ Asked target source now s.notes) ∧
      (Asked target source now s.notes → LatestWake target source (s.hub.wantSeqOf now target source).2 s.notes) := by
  have hi := reach_inv h
  obtain ⟨hpair, hnonzero⟩ := hi.increasing hfit
  refine ⟨hpair, hi.sound.spaced, fun target source now hnow => ?_⟩
  obtain ⟨hasked, hnot⟩ := hi.latest (t := target) (f := source) hnow
  refine ⟨⟨fun hne => ?_, fun ha => hnonzero _ (hasked ha).mem⟩, hasked⟩
  by_contra ha
  exact hne (hnot ha)

/-- A request, made again after a second, which does not wake, and after six, which does. -/
theorem wants_numbered_twice :
    ∃ s, Reach Start next Always s ∧ numbers s.notes = [2, 1] ∧
      ((s.hub.wantSeqOf 35000000000 (str "b") (str "a")).2 ≠ 0 ↔ Asked (str "b") (str "a") 35000000000 s.notes) ∧
      (s.hub.wantSeqOf 35000000000 (str "b") (str "a")).2 = 2 := by
  obtain ⟨s, hrun, hs⟩ := Option.map_eq_some_iff.mp
    (show (Conc.run next {} [.connected (str "b") none, .want (str "b") (str "a") 0, .want (str "b") (str "a") 1000000000,
      .want (str "b") (str "a") 6000000000]).map (fun s =>
        (numbers s.notes, s.clock, (s.hub.wantSeqOf 35000000000 (str "b") (str "a")).2)) =
      some ([2, 1], 6000000000, 2) by decide +kernel)
  have hreach : Reach Start next Always s := .run (.start ⟨rfl, rfl, rfl, by decide, rfl, rfl⟩) _ hrun
  simp only [Prod.mk.injEq] at hs
  refine ⟨s, hreach, hs.1, ((wants_numbered hreach ?_).2.2 _ _ _ ?_).1, hs.2.2⟩
  · rw [hs.1]
    decide
  · rw [hs.2.1]
    decide

/-! ## Where numbers come again -/

/-- Runs of any number of wakes: the same request, with its source forgotten in between. -/
theorem exists_wakes (n : Nat) :
    ∃ s, Reach Start next Always s ∧ (numbers s.notes).length = n ∧ s.streams (str "b") ≠ 0 ∧
      request (str "b") (str "a") s.notes = none ∧ s.clock = 0 := by
  induction n with
  | zero =>
    have hstart : Reach Start next Always {} := .start ⟨rfl, rfl, rfl, by decide, rfl, rfl⟩
    exact ⟨_, .step (.connected (str "b") none) hstart trivial rfl, rfl, by decide, rfl, rfl⟩
  | succ n ih =>
    obtain ⟨s, hreach, hlen, hopen, hreq, hclock⟩ := ih
    have hwant : next s (.want (str "b") (str "a") 0) = some (act { s with clock := 0 } (.want (str "b") (str "a") 0)) := by
      unfold next
      simp only [Ev.time]
      rw [if_neg (by omega)]
    have hreach' := Reach.step _ hreach trivial hwant
    -- nothing is there to repeat, so the request wakes
    obtain ⟨m, hm⟩ : ∃ m, (act { s with clock := 0 } (.want (str "b") (str "a") 0)).notes =
      .want (str "b") (str "a") 0 (some m) :: s.notes := by
      have hsound := (reach_inv hreach').sound
      simp only [act] at hsound ⊢
      rw [if_neg hopen] at hsound ⊢
      cases hwake : wakeOf s.hub ((s.hub.want 0 (str "b") (str "a")).2.foldl Hub.wake (s.hub.want 0 (str "b") (str "a")).1) with
      | some m => exact ⟨m, rfl⟩
      | none =>
        rw [hwake] at hsound
        have hsome := hsound.2.2
        rw [Fits, hreq] at hsome
        cases hsome
    refine ⟨_, .step (.forget (str "a")) hreach' trivial rfl, ?_, ?_, rfl, rfl⟩
    · change (numbers (.forget (str "a") :: (act { s with clock := 0 } (.want (str "b") (str "a") 0)).notes)).length = _
      rw [hm, ← hlen]
      rfl
    · change Function.update s.streams (str "a") 0 (str "b") ≠ 0
      rw [Function.update_of_ne (by decide)]
      exact hopen

/-- There are no more different numbers than the counter has. -/
theorem length_le_of_nodup {l : List UInt64} (h : l.Nodup) : l.length ≤ 2 ^ 64 := by
  have hinj : (l.map UInt64.toNat).Nodup := h.map fun a b hab => UInt64.toNat_inj.mp hab
  have hsub : (l.map UInt64.toNat).toFinset ⊆ Finset.range (2 ^ 64) := by
    intro x hx
    obtain ⟨n, -, rfl⟩ := List.mem_map.mp (List.mem_toFinset.mp hx)
    exact Finset.mem_range.mpr n.toNat_lt
  have hcard := Finset.card_le_card hsub
  rwa [List.toFinset_card_of_nodup hinj, List.length_map, Finset.card_range] at hcard

def opened (id : Str) : List Ev → Nat :=
  List.foldl (fun n e =>
    match e with
    | .connected i _ => if i = id then n + 1 else n
    | .disconnected i _ => if i = id then n - 1 else n
    | _ => n) 0

theorem a_number_comes_again_and_a_forgotten_peer_is_not_woken :
    (∃ s, Reach Start next Always s ∧ ¬(numbers s.notes).Nodup) ∧
    opened (str "b") [.connected (str "b") none, .forget (str "b")] = 1 ∧
    (Conc.run next {} [.connected (str "b") none, .forget (str "b"), .want (str "b") (str "a") 0]).map
      (fun s => (s.hub.wantSeqOf 0 (str "b") (str "a")).2) = some 0 := by
  refine ⟨?_, by decide, by decide +kernel⟩
  obtain ⟨s, hreach, hlen, -⟩ := exists_wakes (2 ^ 64 + 1)
  refine ⟨s, hreach, fun hnd => ?_⟩
  have := length_le_of_nodup hnd
  omega

end Thawr.Control.Wants
