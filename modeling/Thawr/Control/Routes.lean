/-
  Thawr.Control.Routes — advertised routes and their approval
  (`internal/control/routes.go`, `internal/store/routes.go`).

  A peer replaces the set of prefixes it advertises; an admin approves or revokes one of them;
  deleting a peer takes its rows along. Each call is one transaction: it happens as a whole or
  changes nothing. The audit rows are left out.

  The history of a run is told from the calls alone (`Act`): who was asked for what, and that
  the call succeeded. A prefix is advertised from an advertisement that names it until one of
  the same peer does not, or the peer is deleted. Proved over every run: a row is one the peer
  advertises, and a row that is approved was approved by an admin after the advertisement that
  added it, and neither withdrawn nor revoked since (`run_recorded`). So every prefix a netmap
  puts on a router lies inside such a one, and an exit node has one for 0.0.0.0/0
  (`distributed_routes_approved`).
-/

import Thawr.Control.Build
import Thawr.Control.Lock

namespace Thawr.Control

open Go Netip

inductive RouteErr where
  /-- "static peers cannot advertise routes" -/
  | static
  /-- "at most %d routes" -/
  | tooMany
  /-- "route %q: ..." -/
  | route (r : Str)
  /-- "route %q: only IPv4 prefixes are supported" -/
  | onlyIPv4 (r : Str)
  /-- "route %q is not canonical (use %s)" -/
  | notCanonical (r : Str) (masked : Prefix)
  /-- "route %q overlaps the overlay %s" -/
  | overlaps (r : Str) (overlay : Prefix)
  /-- "route %q listed twice" -/
  | twice (r : Str)
  /-- The row of a peer that is gone: a foreign key. -/
  | noPeer (id : Str)
  | forbidden
  /-- "prefix %q: ..." -/
  | parse (s : Str)
  /-- "peer %q: not found" -/
  | notFound (name : Str)
  /-- "%s does not advertise %s" -/
  | notAdvertised (name : Str) (route : Prefix)

def maxAdvertisedRoutes : Nat := 64

/-! ## The calls -/

/-- The loop of `ParseRoutePrefixes`; `out` is also its map of seen prefixes. -/
def parseRoutes (overlay : Prefix) (out : List Prefix) : List Str → Except RouteErr (List Prefix)
  | [] => .ok out
  | r :: rest =>
    match parsePrefix r with
    | none => .error (.route r)
    | some p =>
      if !p.ip.is4 then .error (.onlyIPv4 r)
      else if p.masked ≠ p then .error (.notCanonical r p.masked)
      else if overlay.isValid && p != Policy.exitPrefix && p.overlaps overlay then .error (.overlaps r overlay)
      else if p ∈ out then .error (.twice r)
      else parseRoutes overlay (out ++ [p]) rest

def parseRoutePrefixes (raw : List Str) (overlay : Prefix) : Except RouteErr (List Prefix) :=
  if maxAdvertisedRoutes < raw.length then .error .tooMany else parseRoutes overlay [] raw

def rowLe (a b : Store.PeerRoute) : Prop := a.peerID < b.peerID ∨ (a.peerID = b.peerID ∧ a.route ≤ b.route)

instance (a b : Store.PeerRoute) : Decidable (rowLe a b) := inferInstanceAs (Decidable (_ ∨ _))

/-- `Routes.Replace`: what it deletes and what it inserts. -/
def replace (t : Store.Tables) (id : Str) (texts : List Str) : Except RouteErr Store.Tables :=
  let current := (t.listPeer id).map (·.route)
  let removed := current.filter fun r => !texts.contains r
  let added := texts.filter fun r => !current.contains r
  if added ≠ [] ∧ t.getByID id = none then .error (.noPeer id)
  else
    let kept := t.routes.filter fun r => !(r.peerID == id && removed.contains r.route)
    let rows := kept ++ added.map fun r => { peerID := id, route := r }
    .ok { t with routes := rows.insertionSort rowLe }

def advertise (overlay : Prefix) (t : Store.Tables) (caller : Store.Peer) (raw : List Str) : Except RouteErr Store.Tables :=
  if caller.mode = .static then .error .static
  else (parseRoutePrefixes raw overlay).bind fun prefixes => replace t caller.id (prefixes.map (·.string))

def approveRow (caller : Principal) (id route : Str) (approved : Bool) (r : Store.PeerRoute) : Store.PeerRoute :=
  if r.peerID = id ∧ r.route = route then
    { r with approved := approved, approvedBy := if approved then caller.name else [] }
  else r

def setApproved (t : Store.Tables) (caller : Principal) (name route : Str) (approved : Bool) : Except RouteErr Store.Tables :=
  if !caller.isAdmin then .error .forbidden
  else
    match parsePrefix route with
    | none => .error (.parse route)
    | some p =>
      match t.getByName name with
      | none => .error (.notFound name)
      | some peer =>
        let text := p.masked.string
        if t.routes.any fun r => r.peerID == peer.id && r.route == text then
          .ok { t with routes := t.routes.map (approveRow caller peer.id text approved) }
        else .error (.notAdvertised name p.masked)

/-- `Peers.Delete` and `Signatures.DeletePeer`; the routes go with the peer. -/
def deletePeer (t : Store.Tables) (id : Str) : Except RouteErr Store.Tables :=
  if t.getByID id = none then .error (.notFound id)
  else
    .ok { t with
      peers := t.peers.filter fun p => p.id != id
      routes := t.routes.filter fun r => r.peerID != id
      signatures := t.signatures.filter fun s => s.peerID != id }

inductive Call where
  | advertise (caller : Store.Peer) (raw : List Str)
  | setApproved (caller : Principal) (name route : Str) (approved : Bool)
  | deletePeer (id : Str)

def Call.run (overlay : Prefix) (t : Store.Tables) : Call → Except RouteErr Store.Tables
  | .advertise caller raw => Control.advertise overlay t caller raw
  | .setApproved caller name route approved => Control.setApproved t caller name route approved
  | .deletePeer id => Control.deletePeer t id

/-- What a call that succeeded was asked for. -/
inductive Act where
  | advertised (id : Str) (prefixes : List Prefix)
  | approved (caller : Principal) (id : Str) (route : Prefix)
  | revoked (id : Str) (route : Prefix)
  | deleted (id : Str)

/-- The call by its arguments; a name stands for the peer that has it at the time. -/
def Call.act (t : Store.Tables) : Call → Option Act
  | .advertise caller raw => some (.advertised caller.id (raw.filterMap parsePrefix))
  | .setApproved caller name route approved =>
    match parsePrefix route, t.getByName name with
    | some p, some peer => some (if approved then .approved caller peer.id p.masked else .revoked peer.id p.masked)
    | _, _ => none
  | .deletePeer id => some (.deleted id)

/-- A call in a run: a call that fails changes nothing. -/
def step (overlay : Prefix) (s : Store.Tables × List Act) (c : Call) : Store.Tables × List Act :=
  match c.run overlay s.1 with
  | .error _ => s
  | .ok t => (t, s.2 ++ (c.act s.1).toList)

/-- The tables after a run, and the calls that succeeded, the oldest first. -/
def run (overlay : Prefix) (t : Store.Tables) (calls : List Call) : Store.Tables × List Act :=
  calls.foldl (step overlay) (t, [])

/-! ## What the calls were about -/

/-- The peer advertises without the prefix, or is deleted. -/
def Act.withdraws (id : Str) (P : Prefix) : Act → Prop
  | .advertised i prefixes => i = id ∧ P ∉ prefixes
  | .deleted i => i = id
  | .approved _ _ _ => False
  | .revoked _ _ => False

def Act.revokes (id : Str) (P : Prefix) : Act → Prop
  | .revoked i route => i = id ∧ route = P
  | _ => False

/-- An advertisement of the peer names the prefix, and it was not withdrawn since. -/
def Advertises (acts : List Act) (id : Str) (P : Prefix) : Prop :=
  ∃ a prefixes b, acts = a ++ .advertised id prefixes :: b ∧ P ∈ prefixes ∧ ∀ x ∈ b, ¬x.withdraws id P

/-- An admin approved the prefix after the advertisement that added it, the first one since it
    was not advertised; and it was neither withdrawn since then nor revoked since the
    approval. -/
def Standing (acts : List Act) (id : Str) (P : Prefix) : Prop :=
  ∃ a prefixes b caller c, acts = a ++ .advertised id prefixes :: (b ++ .approved caller id P :: c) ∧
    ¬Advertises a id P ∧ P ∈ prefixes ∧ caller.isAdmin = true ∧
    (∀ x ∈ b, ¬x.withdraws id P) ∧ ∀ x ∈ c, ¬x.withdraws id P ∧ ¬x.revokes id P

section

variable {acts : List Act} {id : Str} {P : Prefix} {x : Act}

theorem Advertises.snoc (h : Advertises acts id P) (hx : ¬x.withdraws id P) : Advertises (acts ++ [x]) id P := by
  obtain ⟨a, prefixes, b, rfl, hP, hb⟩ := h
  refine ⟨a, prefixes, b ++ [x], by simp, hP, fun y hy => ?_⟩
  rcases List.mem_append.mp hy with hy | hy
  · exact hb y hy
  · rw [List.mem_singleton.mp hy]
    exact hx

theorem Standing.snoc (h : Standing acts id P) (hw : ¬x.withdraws id P) (hr : ¬x.revokes id P) : Standing (acts ++ [x]) id P := by
  obtain ⟨a, prefixes, b, caller, c, rfl, hnew, hP, hadmin, hb, hc⟩ := h
  refine ⟨a, prefixes, b, caller, c ++ [x], by simp, hnew, hP, hadmin, hb, fun y hy => ?_⟩
  rcases List.mem_append.mp hy with hy | hy
  · exact hc y hy
  · rw [List.mem_singleton.mp hy]
    exact ⟨hw, hr⟩

/-- What is advertised was added by the first advertisement of an unbroken row of them. -/
theorem Advertises.added (h : Advertises acts id P) : ∃ a prefixes b, acts = a ++ .advertised id prefixes :: b ∧
    ¬Advertises a id P ∧ P ∈ prefixes ∧ ∀ x ∈ b, ¬x.withdraws id P := by
  obtain ⟨a, prefixes, b, hacts, hP, hb⟩ := h
  -- on the length of what came before the advertisement
  induction hn : a.length using Nat.strongRecOn generalizing a prefixes b with
  | ind n ih =>
    by_cases hbefore : Advertises a id P
    · obtain ⟨a', prefixes', b', rfl, hP', hb'⟩ := hbefore
      refine ih a'.length ?_ a' prefixes' (b' ++ .advertised id prefixes :: b) ?_ hP' ?_ rfl
      · rw [← hn, List.length_append, List.length_cons]
        omega
      · rw [hacts, List.append_assoc, List.cons_append]
      · intro y hy
        rcases List.mem_append.mp hy with hy | hy
        · exact hb' y hy
        · rcases List.mem_cons.mp hy with rfl | hy
          · exact fun hw => hw.2 hP
          · exact hb y hy
    · exact ⟨a, prefixes, b, hacts, hbefore, hP, hb⟩

theorem Advertises.approve (h : Advertises acts id P) {caller : Principal} (hadmin : caller.isAdmin = true) :
    Standing (acts ++ [.approved caller id P]) id P := by
  obtain ⟨a, prefixes, b, rfl, hnew, hP, hb⟩ := h.added
  exact ⟨a, prefixes, b, caller, [], by simp, hnew, hP, hadmin, hb, by simp⟩

end

/-- The row is of a prefix that is advertised, and stands if it is approved. -/
def RowRecorded (acts : List Act) (r : Store.PeerRoute) : Prop :=
  ∃ P : Prefix, P.IsV4 ∧ r.route = P.string ∧ Advertises acts r.peerID P ∧ (r.approved = true → Standing acts r.peerID P)

def Recorded (t : Store.Tables) (acts : List Act) : Prop := ∀ r ∈ t.routes, RowRecorded acts r

/-- How a row after a call comes about. -/
inductive Outcome (t : Store.Tables) (x : Act) (r : Store.PeerRoute) : Prop
  | kept : r ∈ t.routes → (∀ P : Prefix, P.IsV4 → r.route = P.string → ¬x.withdraws r.peerID P ∧ ¬x.revokes r.peerID P) →
      Outcome t x r
  | revoked (old : Store.PeerRoute) : old ∈ t.routes → old.peerID = r.peerID → old.route = r.route → r.approved = false →
      (∀ P, ¬x.withdraws r.peerID P) → Outcome t x r
  | fresh (P : Prefix) (prefixes : List Prefix) : P.IsV4 → r.route = P.string → r.approved = false →
      x = .advertised r.peerID prefixes → P ∈ prefixes → Outcome t x r
  | approved (old : Store.PeerRoute) (caller : Principal) (P : Prefix) : old ∈ t.routes → old.peerID = r.peerID →
      old.route = r.route → caller.isAdmin = true → P.WellFormed → r.route = P.string →
        x = .approved caller r.peerID P → Outcome t x r

variable {t t' : Store.Tables} {overlay : Prefix}

theorem Recorded.row {acts : List Act} {x : Act} (h : Recorded t acts) {r : Store.PeerRoute}
    (ho : Outcome t x r) : RowRecorded (acts ++ [x]) r := by
  cases ho with
  | kept hr hx =>
    obtain ⟨P, hv4, htext, hadv, hstands⟩ := h r hr
    obtain ⟨hw, hrev⟩ := hx P hv4 htext
    exact ⟨P, hv4, htext, hadv.snoc hw, fun ha => (hstands ha).snoc hw hrev⟩
  | revoked old hold hid hroute hno hw =>
    obtain ⟨P, hv4, htext, hadv, -⟩ := h old hold
    rw [hid] at hadv
    refine ⟨P, hv4, hroute ▸ htext, hadv.snoc (hw P), fun ha => ?_⟩
    rw [hno] at ha
    cases ha
  | fresh P prefixes hv4 htext hno hx hP =>
    refine ⟨P, hv4, htext, ⟨acts, prefixes, [], by rw [hx], hP, by simp⟩, fun ha => ?_⟩
    rw [hno] at ha
    cases ha
  | approved old caller P hold hid hroute hadmin hwf htext hx =>
    obtain ⟨Q, hv4, hQ, hadv, -⟩ := h old hold
    have hPQ : Q = P := hv4.string_inj hwf (hQ.symm.trans (hroute.trans htext))
    rw [hid, hPQ] at hadv
    rw [hx]
    exact ⟨P, hPQ ▸ hv4, htext, hadv.snoc id, fun _ => hadv.approve hadmin⟩

/-! ## Each call -/

/-- The prefixes an advertisement names are IPv4, and they are those its texts parse to. -/
theorem parseRoutes_ok {raw : List Str} {out prefixes : List Prefix} (hout : ∀ p ∈ out, p.IsV4)
    (h : parseRoutes overlay out raw = .ok prefixes) : prefixes = out ++ raw.filterMap parsePrefix ∧ ∀ p ∈ prefixes, p.IsV4 := by
  induction raw generalizing out with
  | nil =>
    cases h
    exact ⟨by simp, hout⟩
  | cons r rest ih =>
    rw [parseRoutes] at h
    split at h
    · cases h
    · rename_i p hp
      simp only [ite_error_ok] at h
      obtain ⟨h4, -, -, -, h⟩ := h
      have hp4 : p.IsV4 := parsePrefix_isV4 hp (by simpa using h4)
      obtain ⟨hprefixes, hv4⟩ := ih (List.forall_mem_append.mpr ⟨hout, by simpa using hp4⟩) h
      refine ⟨?_, hv4⟩
      rw [hprefixes, List.filterMap_cons_some hp, List.append_assoc]
      rfl

/-- The rows after an advertisement: the peer's own are those named, and those of others stay. -/
theorem replace_ok {id : Str} {texts : List Str} (h : replace t id texts = .ok t') :
    ∀ r ∈ t'.routes, (r ∈ t.routes ∧ (r.peerID = id → r.route ∈ texts)) ∨ r.peerID = id ∧ r.route ∈ texts ∧
      r.approved = false := by
  obtain ⟨-, h⟩ := ite_error_ok.mp h
  cases h
  intro r hr
  rcases List.mem_append.mp (List.mem_insertionSort _ |>.mp hr) with hr | hr
  · obtain ⟨hr, hkeep⟩ := List.mem_filter.mp hr
    refine .inl ⟨hr, fun hid => ?_⟩
    -- a row that stays is not among those removed
    have hcurrent : r.route ∈ (t.listPeer id).map (·.route) :=
      List.mem_map.mpr ⟨r, List.mem_filter.mpr ⟨hr, beq_iff_eq.mpr hid⟩, rfl⟩
    by_contra hnot
    have hremoved : r.route ∈ ((t.listPeer id).map (·.route)).filter fun r => !texts.contains r :=
      List.mem_filter.mpr ⟨hcurrent, by simpa using hnot⟩
    rw [beq_iff_eq.mpr hid, List.contains_iff_mem.mpr hremoved] at hkeep
    cases hkeep
  · obtain ⟨x, hx, rfl⟩ := List.mem_map.mp hr
    exact .inr ⟨rfl, (List.mem_filter.mp hx).1, rfl⟩

theorem advertise_ok {caller : Store.Peer} {raw : List Str} (h : advertise overlay t caller raw = .ok t') :
    ∀ r ∈ t'.routes, Outcome t (.advertised caller.id (raw.filterMap parsePrefix)) r := by
  obtain ⟨-, h⟩ := ite_error_ok.mp h
  obtain ⟨prefixes, hp, h⟩ := bind_ok.mp h
  obtain ⟨-, hp⟩ := ite_error_ok.mp hp
  obtain ⟨hprefixes, hv4⟩ := parseRoutes_ok (by simp) hp
  rw [List.nil_append] at hprefixes
  intro r hr
  rw [← hprefixes]
  rcases replace_ok h r hr with ⟨hold, hnamed⟩ | ⟨hid, htext, hno⟩
  · refine .kept hold fun P hP htext => ⟨fun ⟨hid, hnot⟩ => ?_, fun hrev => hrev⟩
    obtain ⟨Q, hQ, hQP⟩ := List.mem_map.mp (hnamed hid.symm)
    rw [(hv4 Q hQ).string_inj hP.wellFormed (hQP.trans htext)] at hQ
    exact hnot hQ
  · obtain ⟨P, hP, hPt⟩ := List.mem_map.mp htext
    exact .fresh P prefixes (hv4 P hP) hPt.symm hno (by rw [hid]) hP

/-- What an approval or a revocation does: an admin sets one row. -/
theorem setApproved_sets {caller : Principal} {name route : Str} {approved : Bool}
    (h : setApproved t caller name route approved = .ok t') :
    caller.isAdmin = true ∧ ∃ p peer, parsePrefix route = some p ∧ t.getByName name = some peer ∧
      t' = { t with routes := t.routes.map (approveRow caller peer.id p.masked.string approved) } := by
  obtain ⟨hadmin, h⟩ := ite_error_ok.mp h
  refine ⟨by simpa using hadmin, ?_⟩
  split at h
  · cases h
  · rename_i p hp
    split at h
    · cases h
    · rename_i peer hpeer
      simp only at h
      split at h
      · cases h
        exact ⟨p, peer, hp, hpeer, rfl⟩
      · cases h

theorem setApproved_ok {caller : Principal} {name route : Str} {approved : Bool}
    (h : setApproved t caller name route approved = .ok t') :
    ∃ x, Call.act t (.setApproved caller name route approved) = some x ∧ ∀ r ∈ t'.routes, Outcome t x r := by
  obtain ⟨hadmin, p, peer, hp, hpeer, rfl⟩ := setApproved_sets h
  refine ⟨if approved then .approved caller peer.id p.masked
    else .revoked peer.id p.masked, by simp only [Call.act, hp, hpeer], ?_⟩
  intro r hr
  obtain ⟨old, hold, rfl⟩ := List.mem_map.mp hr
  unfold approveRow
  by_cases hkey : old.peerID = peer.id ∧ old.route = p.masked.string
  · rw [if_pos hkey]
    cases approved with
    | true => exact .approved old caller p.masked hold rfl rfl hadmin p.wellFormed_masked hkey.2 (by rw [if_pos rfl, hkey.1])
    | false => exact .revoked old hold rfl rfl rfl fun P hw => hw
  · rw [if_neg hkey]
    refine .kept hold fun P hP htext => ?_
    cases approved with
    | true => exact ⟨fun hw => hw, fun hrev => hrev⟩
    | false =>
      refine ⟨fun hw => hw, fun hrev => hkey ⟨hrev.1.symm, ?_⟩⟩
      rw [htext, ← hrev.2]

theorem deletePeer_ok {id : Str} (h : deletePeer t id = .ok t') : ∀ r ∈ t'.routes, Outcome t (.deleted id) r := by
  obtain ⟨-, h⟩ := ite_error_ok.mp h
  cases h
  intro r hr
  obtain ⟨hr, hne⟩ := List.mem_filter.mp hr
  exact .kept hr fun P _ _ => ⟨fun hw => bne_iff_ne.mp hne hw.symm, fun hrev => hrev⟩

/-! ## Every run -/

theorem step_recorded {s : Store.Tables × List Act} (h : Recorded s.1 s.2) (c : Call) :
    Recorded (step overlay s c).1 (step overlay s c).2 := by
  unfold step
  cases hrun : c.run overlay s.1 with
  | error e => exact h
  | ok t =>
    obtain ⟨x, hx, hout⟩ : ∃ x, c.act s.1 = some x ∧ ∀ r ∈ t.routes, Outcome s.1 x r := by
      cases c with
      | advertise caller raw => exact ⟨_, rfl, advertise_ok hrun⟩
      | setApproved caller name route approved => exact setApproved_ok hrun
      | deletePeer id => exact ⟨_, rfl, deletePeer_ok hrun⟩
    simp only [hx, Option.toList_some]
    exact fun r hr => h.row (hout r hr)

theorem run_recorded (overlay : Prefix) (ht : t.routes = []) (calls : List Call) :
    Recorded (run overlay t calls).1 (run overlay t calls).2 := by
  unfold run
  suffices h : ∀ s : Store.Tables × List Act, Recorded s.1 s.2 →
      Recorded (calls.foldl (step overlay) s).1 (calls.foldl (step overlay) s).2 by
    refine h (t, []) fun r hr => ?_
    rw [show (t, ([] : List Act)).1.routes = [] from ht] at hr
    cases hr
  induction calls with
  | nil => exact fun s h => h
  | cons c calls ih => exact fun s h => ih _ (step_recorded h c)

/-- An approved row stands for the prefix it parses to. -/
theorem Recorded.approved {acts : List Act} (h : Recorded t acts) {r : Store.PeerRoute} (hr : r ∈ t.routes)
    (ha : r.approved = true) {P : Prefix} (hP : parsePrefix r.route = some P) :
    Advertises acts r.peerID P ∧ Standing acts r.peerID P := by
  obtain ⟨Q, hv4, htext, hadv, hstands⟩ := h r hr
  rw [htext, hv4.parse] at hP
  cases hP
  exact ⟨hadv, hstands ha⟩

/-! ## What netmaps distribute -/

section

variable {p : Policy.Policy} {overlay : Prefix} {t : Store.Tables}

/-- A router carries what lies in one of its approved rows. -/
theorem approved_of_carried {b : Policy.Peer} (hb : b ∈ policyPeers t) {g : Policy.RouteDst} (hint : g.internet = false)
    (hc : g.carriedBy b = true) :
    ∃ r ∈ t.routes, r.peerID = b.id ∧ r.approved = true ∧
      ∃ q, parsePrefix r.route = some q ∧ q.bits ≤ g.route.bits ∧ q.contains g.route.ip = true := by
  obtain ⟨row, -, rfl⟩ := List.mem_map.mp hb
  obtain ⟨q, hq, hadv⟩ := List.any_eq_true.mp hc
  rw [if_neg (by simp [hint]), Bool.and_eq_true, Bool.and_eq_true, decide_eq_true_eq] at hadv
  obtain ⟨r, hr, hid, happ, hparse⟩ := mem_approvedRoutes.mp hq
  exact ⟨r, hr, hid, happ, q, hparse, hadv.1.2, hadv.2⟩

/-- A prefix `RoutesFor` sends through a router lies in one of the router's approved rows. -/
theorem approved_of_route (T : Policy.RouteSort) {me : Str} {x : Policy.Route}
    (hx : x ∈ (compiled p t overlay).routesFor T me) :
    ∃ r ∈ t.routes, r.peerID = x.via ∧ r.approved = true ∧
      ∃ q, parsePrefix r.route = some q ∧ q.bits ≤ x.route.bits ∧ q.contains x.route.ip = true := by
  unfold Policy.Compiled.routesFor at hx
  split at hx
  · cases hx
  · rename_i i hi
    obtain ⟨a, ha, -⟩ := Policy.index_lookup hi
    have hcand := ((Policy.assigned _).least x).mp (T.mem_iff.mp hx)
    obtain ⟨j, b, hb, -, hvia, g, hg, hint, hroute⟩ := (Policy.mem_viaCandidates ha).mp hcand.1
    rw [← hvia, ← hroute]
    exact approved_of_carried (List.mem_of_getElem? hb) hint (Policy.mem_routed.mp hg).2

/-- An exit node has an approved row for 0.0.0.0/0. -/
theorem approved_of_exitNode {me id : Str} (hid : id ∈ (compiled p t overlay).exitNodesFor me) :
    ∃ r ∈ t.routes, r.peerID = id ∧ r.approved = true ∧ parsePrefix r.route = some Policy.exitPrefix := by
  unfold Policy.Compiled.exitNodesFor at hid
  split at hid
  · cases hid
  · rename_i i hi
    obtain ⟨a, ha, -⟩ := Policy.index_lookup hi
    rw [List.mem_insertionSort, (Policy.collect_spec _).2] at hid
    obtain ⟨j, b, hb, -, hbid, g, hg, hint⟩ := (Policy.mem_exitCandidates ha).mp hid
    obtain ⟨q, hq, hadv⟩ := List.any_eq_true.mp (Policy.mem_routed.mp hg).2
    rw [if_pos hint, beq_iff_eq] at hadv
    obtain ⟨row, -, rfl⟩ := List.mem_map.mp (List.mem_of_getElem? hb)
    obtain ⟨r, hr, hrid, happ, hparse⟩ := mem_approvedRoutes.mp hq
    exact ⟨r, hr, hrid.trans hbid, happ, hadv ▸ hparse⟩

end

theorem mem_ownPrefixes {ip ip6 : Addr} {q : Prefix} (h : q ∈ ownPrefixes ip ip6) :
    q = prefixFrom ip 32 ∨ q = prefixFrom ip6 128 := by
  unfold ownPrefixes at h
  grind

/-- What a built netmap says of a peer comes from the routing of its receiver. -/
theorem build_peers {S : Sorts} {unmarshal : Str → Option Lock.Signed} {hub : HubConfig} {c : Option Policy.Compiled}
    {live : Live} {g : Int} {me : Str} {nm : NetMap} (h : build S unmarshal hub c t live g me = .ok nm)
    {np : NetPeer} (hnp : np ∈ nm.peers) :
    (∀ q ∈ np.allowedIPs, q = prefixFrom np.ipv4 32 ∨ q = prefixFrom np.ipv6 128 ∨
        q ∈ viaRoutes (PolicyVisibility.routing S c me) np.id) ∧
      (np.exitNode = true → np.id ∈ (PolicyVisibility.routing S c me).exitNodes) := by
  obtain ⟨self, selfIP, rec, -, rfl, -, rfl⟩ := build_ok h
  obtain ⟨⟨r, ip⟩, -, rfl⟩ := List.mem_map.mp hnp
  unfold netPeer
  by_cases hmode : r.mode = .static
  · simp [hmode]
  · simp only [hmode, if_false]
    refine ⟨fun q hq => ?_, fun he => List.contains_iff_mem.mp he⟩
    rcases List.mem_append.mp hq with hq | hq
    · exact (mem_ownPrefixes hq).imp_right .inl
    · exact .inr (.inr hq)

/-- No unapproved route is distributed. After every run of the calls, whatever the policy and
    whoever the netmap is for: a prefix on a peer that is not its own /32 or /128 lies inside
    a prefix the peer advertises, that an admin approved since it was last added, and that was
    neither withdrawn nor revoked since; and an exit node has that for 0.0.0.0/0. -/
theorem distributed_routes_approved (routesOverlay : Prefix) (t₀ : Store.Tables) (hempty : t₀.routes = []) (calls : List Call)
    (p : Policy.Policy) (overlay : Prefix) (S : Sorts) (unmarshal : Str → Option Lock.Signed) (hub : HubConfig) (live : Live)
    (g : Int) (me : Str) (nm : NetMap)
    (hbuild : build S unmarshal hub (some (compiled p (run routesOverlay t₀ calls).1 overlay)) (run routesOverlay t₀ calls).1 live
      g me = .ok nm) :
    ∀ np ∈ nm.peers,
      (∀ q ∈ np.allowedIPs, q ≠ prefixFrom np.ipv4 32 → q ≠ prefixFrom np.ipv6 128 →
        ∃ P : Prefix, P.bits ≤ q.bits ∧ P.contains q.ip = true ∧ Advertises (run routesOverlay t₀ calls).2 np.id P ∧
          Standing (run routesOverlay t₀ calls).2 np.id P) ∧
        (np.exitNode = true → Advertises (run routesOverlay t₀ calls).2 np.id Policy.exitPrefix ∧
          Standing (run routesOverlay t₀ calls).2 np.id Policy.exitPrefix) := by
  have hrec := run_recorded routesOverlay hempty calls
  intro np hnp
  obtain ⟨hprefixes, hexit⟩ := build_peers hbuild hnp
  refine ⟨fun q hq h4 h6 => ?_, fun he => ?_⟩
  · have hvia := ((hprefixes q hq).resolve_left h4).resolve_left h6
    obtain ⟨x, hx, rfl⟩ := List.mem_map.mp hvia
    obtain ⟨hx, hid⟩ := List.mem_filter.mp hx
    obtain ⟨r, hr, hpeer, happ, P, hP, hbits, hcontains⟩ := approved_of_route S.routes hx
    have hstands := hrec.approved hr happ hP
    rw [hpeer.trans (beq_iff_eq.mp hid)] at hstands
    exact ⟨P, hbits, hcontains, hstands⟩
  · obtain ⟨r, hr, hpeer, happ, hparse⟩ := approved_of_exitNode (hexit he)
    exact hpeer ▸ hrec.approved hr happ hparse

/-! ## A router that offers a subnet and the internet -/

def gatewayRow : Store.Peer := { id := str "r1", name := str "gateway", ipv4 := str "100.64.0.2" }

def officeTables : Store.Tables where
  peers := [gatewayRow, { id := str "a1", name := str "laptop", ownerID := str "u1", ipv4 := str "100.64.0.1" }]
  users := [⟨str "u1", str "alice"⟩]

def officeOverlay : Prefix := ⟨.v4 (Arr.ofNat 4 0x64400000), 17⟩

/-- The gateway advertises, withdraws the internet and advertises it again; an admin approves
    both, the internet before and after that, and a member may not. -/
def officeCalls : List Call :=
  [.advertise gatewayRow [str "10.1.0.0/16", str "0.0.0.0/0"],
    .setApproved { name := str "mallory", role := some .member } (str "gateway") (str "10.1.0.0/16") true,
    .setApproved { name := str "root", role := some .admin } (str "gateway") (str "10.1.2.3/16") true,
    .setApproved { name := str "root", role := some .admin } (str "gateway") (str "0.0.0.0/0") true,
    .advertise gatewayRow [str "10.1.0.0/16"],
    .advertise gatewayRow [str "10.1.0.0/16", str "0.0.0.0/0"],
    .setApproved { name := str "root", role := some .admin } (str "gateway") (str "0.0.0.0/0") true]

def officeDoc : Policy.Doc where
  version := 1
  acls := [{ action := str "accept", src := [str "alice"], dst := [str "10.1.0.0/16:22", str "internet:*"] }]

def officePolicy : Policy.Policy := ⟨officeDoc, officeDoc.acls.map (Policy.parsedRule Policy.rangeSort)⟩

def officeMap : Except BuildErr NetMap :=
  build insertionSorts (fun _ => none) {}
    (some (compiled officePolicy (run officeOverlay officeTables officeCalls).1 officeOverlay))
    (run officeOverlay officeTables officeCalls).1 {} 0 (str "a1")

/-- Alice's laptop is offered the gateway as exit node, which an admin approved. -/
theorem office_exitNode_approved :
    ∃ (nm : NetMap) (np : NetPeer), officeMap = .ok nm ∧ np ∈ nm.peers ∧ np.exitNode = true ∧
      Advertises (run officeOverlay officeTables officeCalls).2 np.id Policy.exitPrefix ∧
        Standing (run officeOverlay officeTables officeCalls).2 np.id Policy.exitPrefix := by
  have hexit : officeMap.toOption.any (fun nm => nm.peers.any (·.exitNode)) = true := by decide +kernel
  cases hmap : officeMap with
  | error e =>
    rw [hmap] at hexit
    cases hexit
  | ok nm =>
    rw [hmap] at hexit
    obtain ⟨np, hnp, he⟩ := List.any_eq_true.mp hexit
    exact ⟨nm, np, rfl, hnp, he, (distributed_routes_approved officeOverlay officeTables rfl officeCalls officePolicy
      officeOverlay insertionSorts (fun _ => none) {} {} 0 (str "a1") nm hmap np hnp).2 he⟩

end Thawr.Control
