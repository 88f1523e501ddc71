/-
  Thawr.Control.Build — the netmap of one peer (`internal/control/netmap.go`,
  `PolicyVisibility` of `policyvis.go`).

  `build` collects everything a peer is told: its own row, the hub, the peers it may see with
  their routes and signatures, the rules it enforces. One compilation answers all of it.

  Proved: a netmap discloses nothing about peers its receiver may not see
  (`netmap_discloses_visible_only`). Every answer of the policy is a sum over the peers, and
  each peer's part vanishes unless it is visible; so two registries that agree on what the
  receiver sees give it the same netmap, whatever else they hold.
-/

import Thawr.Control.Registry
import Thawr.Control.Policy.Visible

namespace Thawr.Control

open Go Netip Lock

structure HubConfig where
  publicKey : Str := []
  endpoint : Str := []
  address : Addr := .zero
  overlay : Prefix := Prefix.none
  address6 : Addr := .zero
  overlay6 : Prefix := Prefix.none
  stunAddrs : List Str := []

/-- What the tables in memory answer during a build: `EndpointTable.Get`, `Presence.Online`
    and `Hub.WantSeq`. -/
structure Live where
  endpoints : Str → List Endpoint × Bool := fun _ => ([], false)
  online : Str → Bool := fun _ => false
  wantSeq : Str → Str → UInt64 := fun _ _ => 0

structure Routing where
  routes : List Policy.Route := []
  exitNodes : List Str := []
  forward : List ForwardRule := []

inductive BuildErr where
  /-- "peer %s: not found" -/
  | notFound (id : Str)
  /-- "control: peer %s address %q" -/
  | address (id ipv4 : Str)
  /-- "control: lock record in meta" -/
  | lockRecord

/-- What `sort.Slice` does in the two places of a compilation that use it. -/
structure Sorts where
  ranges : Policy.RangeSort
  routes : Policy.RouteSort

def insertionSorts : Sorts := ⟨Policy.rangeSort, Policy.routeSort⟩

/-! ## `PolicyVisibility`

`none` is a server that has no compilation yet. -/

namespace PolicyVisibility

def visible (c : Option Policy.Compiled) (a b : Str) : Bool :=
  match c with
  | none => false
  | some c => c.visible a b

def filterFor (S : Sorts) (c : Option Policy.Compiled) (dst : Str) : List FilterRule :=
  match c with
  | none => []
  | some c => Policy.filterRules (c.filterFor S.ranges dst)

def routing (S : Sorts) (c : Option Policy.Compiled) (self : Str) : Routing :=
  match c with
  | none => {}
  | some c =>
    { routes := c.routesFor S.routes self
      exitNodes := c.exitNodesFor self
      forward := (c.forwardFor S.ranges self).map fun f => ⟨f.src, f.dst, f.proto.text, f.lo, f.hi⟩ }

end PolicyVisibility

/-! ## `Build` -/

def indexSignatures (rows : List Store.PeerSignature) (k : Str) : List PeerSignature :=
  rows.filterMap fun r =>
    match parsePublicKey r.signerKey, parseSignature r.signature with
    | some signer, some sig => if r.peerID ++ 0 :: r.publicKey = k then some ⟨signer, sig⟩ else none
    | _, _ => none

/-- `LoadLockRecord`; `unmarshal` is `json.Unmarshal` of a signed record. -/
def loadLockRecord (unmarshal : Str → Option Signed) (t : Store.Tables) : Except BuildErr (Option Signed) :=
  match t.lockRecord with
  | none => .ok none
  | some raw =>
    match unmarshal raw with
    | none => .error .lockRecord
    | some rec => .ok (some rec)

def capableIPv6 (p : Store.Peer) : Addr :=
  if p.ipv6Capable = false ∨ p.ipv6 = [] then .zero else ((parseAddr p.ipv6).filter fun a => a.is6).getD .zero

def ipv4Filter (rules : List FilterRule) : List FilterRule := rules.filter fun r => r.src.is4

def ipv4Forward (rules : List ForwardRule) : List ForwardRule := rules.filter fun r => r.src.is4 && r.dst.ip.is4

def viaRoutes (routing : Routing) (id : Str) : List Prefix := (routing.routes.filter fun r => r.via == id).map (·.route)

/-- The rows the loop of `Build` goes on with, and their addresses. -/
def shown (c : Option Policy.Compiled) (t : Store.Tables) (self : Store.Peer) : List (Store.Peer × Addr) :=
  t.peers.filterMap fun p =>
    if p.id = self.id then none
    else
      match parseAddr p.ipv4 with
      | none => none
      | some ip => if PolicyVisibility.visible c self.id p.id then some (p, ip) else none

/-- A peer's IPv6 address for a receiver with the address `self6`. -/
def shownIPv6 (self6 : Addr) (p : Store.Peer) : Addr := if self6.isValid then capableIPv6 p else .zero

def ownPrefixes (ip ip6 : Addr) : List Prefix := prefixFrom ip 32 :: if ip6.isValid then [prefixFrom ip6 128] else []

def hubPrefixes (self6 : Addr) (x : Store.Peer × Addr) : List Prefix :=
  if x.1.mode = .static then ownPrefixes x.2 (shownIPv6 self6 x.1) else []

def netPeer (t : Store.Tables) (live : Live) (routing : Routing) (self : Store.Peer) (self6 : Addr) (x : Store.Peer × Addr) :
    NetPeer :=
  let (p, ip) := x
  let entry : NetPeer :=
    { id := p.id
      name := p.name
      kind := p.kind
      owner := ownerName t p.ownerID
      publicKey := p.publicKey
      ipv4 := ip
      ipv6 := shownIPv6 self6 p
      online := live.online p.id
      signatures := indexSignatures t.signatures (p.id ++ 0 :: p.publicKey) }
  if p.mode = .static then { entry with viaHub := true }
  else
    { entry with
      endpoints := (live.endpoints p.id).1
      symmetric := (live.endpoints p.id).2
      allowedIPs := ownPrefixes ip (shownIPv6 self6 p) ++ viaRoutes routing p.id
      exitNode := routing.exitNodes.contains p.id
      wanted := live.wantSeq self.id p.id != 0
      wantSeq := live.wantSeq self.id p.id }

/-- The netmap of the row `self`, once its address and the lock record are read. -/
def netMapOf (S : Sorts) (hub : HubConfig) (c : Option Policy.Compiled) (t : Store.Tables) (live : Live) (generation : Int)
    (self : Store.Peer) (selfIP : Addr) (lockRec : Option Signed) : NetMap :=
  let routing := PolicyVisibility.routing S c self.id
  let filter := PolicyVisibility.filterFor S c self.id
  -- IPv6 goes only to a receiver that asked for it
  let v6 := (capableIPv6 self).isValid && hub.overlay6.isValid
  let self6 := if v6 then capableIPv6 self else .zero
  let peers := shown c t self
  { generation := generation
    selfID := self.id
    selfName := self.name
    selfKind := self.kind
    selfSignatures := indexSignatures t.signatures (self.id ++ 0 :: self.publicKey)
    selfIPv4 := selfIP
    overlay := hub.overlay
    selfIPv6 := self6
    overlay6 := if v6 then hub.overlay6 else Prefix.none
    peers := peers.map (netPeer t live routing self self6)
    hub :=
      { publicKey := hub.publicKey
        endpoint := hub.endpoint
        allowedIPs := prefixFrom hub.address 32 :: (if v6 && hub.address6.isValid then [prefixFrom hub.address6 128] else []) ++
          peers.flatMap (hubPrefixes self6)
        signatures := indexSignatures t.signatures (hubID ++ 0 :: hub.publicKey) }
    filter := if v6 then filter else ipv4Filter filter
    stun := hub.stunAddrs
    lock := lockRec
    forward := if v6 then routing.forward else ipv4Forward routing.forward
    selfAdvertised := (t.listPeer self.id).filterMap fun a => (parsePrefix a.route).map fun q => ⟨q, a.approved⟩ }

def build (S : Sorts) (unmarshal : Str → Option Signed) (hub : HubConfig) (c : Option Policy.Compiled) (t : Store.Tables)
    (live : Live) (generation : Int) (peerID : Str) : Except BuildErr NetMap :=
  match t.getByID peerID with
  | none => .error (.notFound peerID)
  | some self =>
    match parseAddr self.ipv4 with
    | none => .error (.address self.id self.ipv4)
    | some selfIP => (loadLockRecord unmarshal t).map (netMapOf S hub c t live generation self selfIP)

variable {t : Store.Tables}

theorem build_ok {S : Sorts} {unmarshal : Str → Option Signed} {hub : HubConfig} {c : Option Policy.Compiled}
    {live : Live} {generation : Int} {peerID : Str} {nm : NetMap}
    (h : build S unmarshal hub c t live generation peerID = .ok nm) :
    ∃ self selfIP rec, self ∈ t.peers ∧ self.id = peerID ∧ parseAddr self.ipv4 = some selfIP ∧
      nm = netMapOf S hub c t live generation self selfIP rec := by
  unfold build at h
  split at h
  · cases h
  · rename_i self hself
    obtain ⟨hmem, hid⟩ := t.mem_of_getByID hself
    split at h
    · cases h
    · rename_i selfIP hip
      obtain ⟨rec, -, hnm⟩ := map_ok.mp h
      exact ⟨self, selfIP, rec, hmem, hid, hip, hnm.symm⟩

/-! ## What two registries share -/

/-- Both registries hold the same about the peer `id`, as the policy compiler reads them. -/
structure SameEntry (id : Str) (t u : Store.Tables) : Prop where
  row : ∀ r : Store.Peer, r.id = id → (r ∈ t.peers ↔ r ∈ u.peers)
  owner : ∀ r ∈ t.peers, r.id = id → ownerName t r.ownerID = ownerName u r.ownerID
  routes : ∀ r : Store.PeerRoute, r.peerID = id → r.approved = true → (r ∈ t.routes ↔ r ∈ u.routes)

/-- Both states hold the same about the peer `id`, as far as `me` is told of it. -/
structure SamePeer (me id : Str) (t : Store.Tables) (l : Live) (u : Store.Tables) (m : Live) : Prop extends SameEntry id t u where
  signatures : ∀ s : Store.PeerSignature, s.peerID = id → (s ∈ t.signatures ↔ s ∈ u.signatures)
  endpoints : l.endpoints id = m.endpoints id
  online : l.online id = m.online id
  wants : l.wantSeq me id = m.wantSeq me id

/-- Both states agree on `me`, on the hub and the lock record, and on every peer visible to
    `me` in either. -/
structure SameView (p : Policy.Policy) (overlay : Prefix) (me : Str) (t : Store.Tables) (l : Live) (u : Store.Tables)
    (m : Live) : Prop where
  lock : t.lockRecord = u.lockRecord
  hub : ∀ s : Store.PeerSignature, s.peerID = hubID → (s ∈ t.signatures ↔ s ∈ u.signatures)
  own : SamePeer me me t l u m
  advertised : ∀ r : Store.PeerRoute, r.peerID = me → (r ∈ t.routes ↔ r ∈ u.routes)
  visible : ∀ id, (compiled p t overlay).visible me id = true ∨ (compiled p u overlay).visible me id = true →
    SamePeer me id t l u m

/-- Both registries agree on `me` and on every peer visible to `me` in either. -/
structure SameSight (p : Policy.Policy) (overlay : Prefix) (me : Str) (t u : Store.Tables) : Prop where
  own : SameEntry me t u
  visible : ∀ id, (compiled p t overlay).visible me id = true ∨ (compiled p u overlay).visible me id = true → SameEntry id t u

section

variable {me id : Str} {t u : Store.Tables} {l m : Live}

theorem SameView.sight {p : Policy.Policy} {overlay : Prefix} (h : SameView p overlay me t l u m) : SameSight p overlay me t u :=
  ⟨h.own.toSameEntry, fun id hid => (h.visible id hid).toSameEntry⟩

theorem SameEntry.approved (h : SameEntry id t u) (ht : t.Valid) (hu : u.Valid) :
    approvedRoutes t.routes id = approvedRoutes u.routes id := by
  have hfilter : ∀ rows : List Store.PeerRoute, approvedRoutes rows id =
      (rows.filter fun r => r.peerID == id && r.approved).filterMap fun r => parsePrefix r.route := by
    intro rows
    unfold approvedRoutes
    rw [List.filterMap_filter]
    grind
  rw [hfilter, hfilter, Store.filter_routes_ext ht hu fun r hr => ?_]
  rw [Bool.and_eq_true, beq_iff_eq] at hr
  exact h.routes r hr.1 hr.2

variable {r : Store.Peer}

theorem SameEntry.policyPeer (h : SameEntry id t u) (ht : t.Valid) (hu : u.Valid) (hr : r ∈ t.peers)
    (hid : r.id = id) : policyPeer t r = policyPeer u r := by
  unfold Control.policyPeer
  rw [h.owner r hr hid, hid, h.approved ht hu]

/-- The signatures at a key are those of its peer: ids have no byte 0. -/
theorem indexSignatures_eq (ht : t.Valid) (hid : (0 : UInt8) ∉ id) (key : Str) :
    indexSignatures t.signatures (id ++ 0 :: key) =
      (t.signatures.filter fun s => s.peerID == id && s.publicKey == key).filterMap fun r =>
        match parsePublicKey r.signerKey, parseSignature r.signature with
        | some signer, some sig => some ⟨signer, sig⟩
        | _, _ => none := by
  have hinj : ∀ {a b : Str} {x y : Str}, (0 : UInt8) ∉ a → (0 : UInt8) ∉ b → (a ++ 0 :: x = b ++ 0 :: y ↔ a = b ∧ x = y) := by
    intro a b x y ha hb
    constructor
    · intro he
      induction a generalizing b with
      | nil =>
        cases b with
        | nil => exact ⟨rfl, (List.cons.inj he).2⟩
        | cons c b => exact absurd ((List.cons.inj he).1 ▸ List.mem_cons_self) hb
      | cons c a ih =>
        cases b with
        | nil => exact absurd ((List.cons.inj he).1 ▸ List.mem_cons_self) ha
        | cons c' b => grind
    · intro he
      rw [he.1, he.2]
  unfold indexSignatures
  rw [List.filterMap_filter]
  refine List.filterMap_congr fun r hr => ?_
  have hkey := hinj (x := r.publicKey) (y := key) (ht.noNul.2 r hr) hid
  grind

theorem indexSignatures_same (ht : t.Valid) (hu : u.Valid) (hid : (0 : UInt8) ∉ id)
    (h : ∀ s : Store.PeerSignature, s.peerID = id → (s ∈ t.signatures ↔ s ∈ u.signatures)) (key : Str) :
    indexSignatures t.signatures (id ++ 0 :: key) = indexSignatures u.signatures (id ++ 0 :: key) := by
  rw [indexSignatures_eq ht hid, indexSignatures_eq hu hid, Store.filter_signatures_ext ht hu id key h]

theorem SameEntry.symm (h : SameEntry id t u) : SameEntry id u t where
  row r hr := (h.row r hr).symm
  owner r hr hid := (h.owner r ((h.row r hid).mpr hr) hid).symm
  routes r hr ha := (h.routes r hr ha).symm

theorem SameSight.symm {p : Policy.Policy} {overlay : Prefix} (h : SameSight p overlay me t u) : SameSight p overlay me u t :=
  ⟨h.own.symm, fun id hid => (h.visible id hid.symm).symm⟩

theorem SameEntry.getByID (h : SameEntry id t u) (hu : u.Valid) (hr : t.getByID id = some r) :
    u.getByID id = some r := by
  obtain ⟨hmem, hid⟩ := t.mem_of_getByID hr
  rw [← hid]
  exact hu.getByID ((h.row r hid).mp hmem)

/-! ## The rows a receiver sees -/

def rowsSeen (c : Policy.Compiled) (t : Store.Tables) (me : Str) : List Store.Peer :=
  t.peers.filter fun r => r.id != me && c.visible me r.id

theorem mem_rowsSeen {c : Policy.Compiled} :
    r ∈ rowsSeen c t me ↔ r ∈ t.peers ∧ r.id ≠ me ∧ c.visible me r.id = true := by
  unfold rowsSeen
  rw [List.mem_filter, Bool.and_eq_true, bne_iff_ne]

theorem shown_eq (c : Policy.Compiled) (t : Store.Tables) (self : Store.Peer) :
    shown (some c) t self = (rowsSeen c t self.id).filterMap fun r => (parseAddr r.ipv4).map fun ip => (r, ip) := by
  unfold shown rowsSeen
  rw [List.filterMap_filter]
  congr 1
  funext r
  by_cases hid : r.id = self.id
  · simp [hid]
  · rw [if_neg hid]
    by_cases hv : c.visible self.id r.id = true
    · rw [if_pos (by simp [hid, hv])]
      cases parseAddr r.ipv4 with
      | none => rfl
      | some ip => simp [PolicyVisibility.visible, hv]
    · rw [if_neg (by simp [hv])]
      cases parseAddr r.ipv4 with
      | none => rfl
      | some ip => simp [PolicyVisibility.visible, hv]

variable {p : Policy.Policy} {overlay : Prefix} {self : Store.Peer}

theorem visible_row (ht : t.Valid) (hself : self ∈ t.peers) (hr : r ∈ t.peers) (hne : r.id ≠ self.id) :
    (compiled p t overlay).visible self.id r.id = Policy.seen p overlay (policyPeer t self) (policyPeer t r) := by
  obtain ⟨i, hi⟩ := List.mem_iff_getElem?.mp hself
  obtain ⟨j, hj⟩ := List.mem_iff_getElem?.mp hr
  have hi' := getElem?_policyPeers hi
  have hj' := getElem?_policyPeers hj
  refine Policy.visible_eq_seen (ids_policyPeers ht.ids) hi' hj' fun hij => hne ?_
  exact ((Policy.index_eq_iff (ids_policyPeers ht.ids) hi' hj').mp hij).symm

/-- The peers the compiler counts as seen are the rows seen. -/
theorem seenBy_eq (ht : t.Valid) (hself : self ∈ t.peers) :
    Policy.seenBy p overlay (policyPeer t self) (policyPeers t) =
      (rowsSeen (compiled p t overlay) t self.id).map (policyPeer t) := by
  unfold Policy.seenBy policyPeers rowsSeen
  rw [List.filter_map]
  congr 1
  refine List.filter_congr fun r hr => ?_
  show (r.id != self.id && Policy.seen p overlay (policyPeer t self) (policyPeer t r)) = _
  by_cases hid : r.id = self.id
  · simp [hid]
  · rw [visible_row ht hself hr hid]

/-- What `me` sees in one state it sees in the other, and it is the same row. -/
theorem SameSight.rowsSeen_sub (h : SameSight p overlay self.id t u) (ht : t.Valid) (hu : u.Valid) (hself : self ∈ t.peers)
    (hr : r ∈ rowsSeen (compiled p t overlay) t self.id) :
    r ∈ rowsSeen (compiled p u overlay) u self.id ∧ policyPeer t r = policyPeer u r := by
  obtain ⟨hrt, hne, hvis⟩ := mem_rowsSeen.mp hr
  have hsame := h.visible r.id (.inl hvis)
  have hru := (hsame.row r rfl).mp hrt
  have hpp := hsame.policyPeer ht hu hrt rfl
  refine ⟨mem_rowsSeen.mpr ⟨hru, hne, ?_⟩, hpp⟩
  rw [visible_row hu ((h.own.row self rfl).mp hself) hru hne, ← hpp, ← h.own.policyPeer ht hu hself rfl,
    ← visible_row ht hself hrt hne]
  exact hvis

theorem SameSight.rowsSeen_eq (h : SameSight p overlay self.id t u) (ht : t.Valid) (hu : u.Valid) (hself : self ∈ t.peers) :
    rowsSeen (compiled p t overlay) t self.id = rowsSeen (compiled p u overlay) u self.id := by
  unfold rowsSeen
  refine Store.filter_peers_ext ht hu fun r => ?_
  have hself' := (h.own.row self rfl).mp hself
  rw [Bool.and_eq_true, bne_iff_ne, Bool.and_eq_true, bne_iff_ne, ← mem_rowsSeen, ← mem_rowsSeen]
  exact ⟨fun hr => (h.rowsSeen_sub ht hu hself hr).1, fun hr => (h.symm.rowsSeen_sub hu ht hself' hr).1⟩

theorem SameSight.seenBy_eq (h : SameSight p overlay self.id t u) (ht : t.Valid) (hu : u.Valid) (hself : self ∈ t.peers) :
    Policy.seenBy p overlay (policyPeer t self) (policyPeers t) =
      Policy.seenBy p overlay (policyPeer t self) (policyPeers u) := by
  have hself' := (h.own.row self rfl).mp hself
  rw [Control.seenBy_eq ht hself, h.own.policyPeer ht hu hself rfl, Control.seenBy_eq hu hself', ← h.rowsSeen_eq ht hu hself]
  exact List.map_congr_left fun r hr => (h.rowsSeen_sub ht hu hself hr).2

/-! ## The netmap -/

/-- The policy answers `me` alike in both states. -/
theorem SameView.answers (h : SameView p overlay self.id t l u m) (hw : Policy.WellFormed p) (ht : t.Valid) (hu : u.Valid)
    (hself : self ∈ t.peers) (S T : Sorts) :
    PolicyVisibility.filterFor S (some (compiled p t overlay)) self.id =
        PolicyVisibility.filterFor T (some (compiled p u overlay)) self.id ∧
      PolicyVisibility.routing S (some (compiled p t overlay)) self.id =
        PolicyVisibility.routing T (some (compiled p u overlay)) self.id := by
  have hself' := (h.own.row self rfl).mp hself
  obtain ⟨i, hi⟩ := List.mem_iff_getElem?.mp hself
  obtain ⟨j, hj⟩ := List.mem_iff_getElem?.mp hself'
  have hi' : (policyPeers t)[i]? = some (policyPeer t self) := getElem?_policyPeers hi
  have hj' : (policyPeers u)[j]? = some (policyPeer t self) := by
    rw [h.own.toSameEntry.policyPeer ht hu hself rfl]
    exact getElem?_policyPeers hj
  have hP := ids_policyPeers ht.ids
  have hQ := ids_policyPeers hu.ids
  have hs := h.sight.seenBy_eq ht hu hself
  have hfilter := Policy.filterFor_of_seen hP hQ hi' hj' hs hw S.ranges T.ranges
  have hforward := Policy.forwardFor_of_seen hP hQ hi' hj' hs hw S.ranges T.ranges
  have hroutes := Policy.routesFor_of_seen hP hQ hi' hj' hs hw S.routes T.routes
  have hexit := Policy.exitNodesFor_of_seen hP hQ hi' hj' hs
  constructor
  · show Policy.filterRules ((Policy.compileWith p (policyPeers t) overlay).filterFor _ (policyPeer t self).id) = _
    rw [hfilter]
    rfl
  · show Routing.mk ((Policy.compileWith p (policyPeers t) overlay).routesFor _ (policyPeer t self).id)
      ((Policy.compileWith p (policyPeers t) overlay).exitNodesFor (policyPeer t self).id)
      (((Policy.compileWith p (policyPeers t) overlay).forwardFor _ (policyPeer t self).id).map _) = _
    rw [hroutes, hexit, hforward]
    rfl

theorem SameView.netPeer (h : SameView p overlay self.id t l u m) (ht : t.Valid) (hu : u.Valid) (routing : Routing) (self6 : Addr)
    {x : Store.Peer × Addr} (hx : x.1 ∈ rowsSeen (compiled p t overlay) t self.id) :
    netPeer t l routing self self6 x = netPeer u m routing self self6 x := by
  obtain ⟨r, ip⟩ := x
  obtain ⟨hr, -, hvis⟩ := mem_rowsSeen.mp hx
  have hsame := h.visible r.id (.inl hvis)
  unfold Control.netPeer
  simp only [hsame.owner r hr rfl, hsame.online, hsame.endpoints, hsame.wants,
    indexSignatures_same ht hu (ht.noNul.1 r hr) hsame.signatures]

theorem SameView.selfAdvertised (h : SameView p overlay self.id t l u m) (ht : t.Valid) (hu : u.Valid) :
    t.listPeer self.id = u.listPeer self.id :=
  Store.filter_routes_ext ht hu fun r hr => h.advertised r (beq_iff_eq.mp hr)

end

/-- A netmap without its generation number. -/
def NetMap.content (nm : NetMap) : NetMap := { nm with generation := 0 }

theorem netMapOf_same {p : Policy.Policy} (hp : Policy.WellFormed p) {overlay : Prefix} {u : Store.Tables} {l m : Live}
    {self : Store.Peer} (ht : t.Valid) (hu : u.Valid) (h : SameView p overlay self.id t l u m) (hself : self ∈ t.peers)
    (hub : HubConfig) (S T : Sorts) (g g' : Int) (ip : Addr) (rec : Option Signed) :
    (netMapOf S hub (some (compiled p t overlay)) t l g self ip rec).content =
      (netMapOf T hub (some (compiled p u overlay)) u m g' self ip rec).content := by
  obtain ⟨hfilter, hrouting⟩ := h.answers hp ht hu hself S T
  have hshown : shown (some (compiled p t overlay)) t self = shown (some (compiled p u overlay)) u self := by
    rw [shown_eq, shown_eq, h.sight.rowsSeen_eq ht hu hself]
  have hpeers : ∀ routing self6, (shown (some (compiled p u overlay)) u self).map (netPeer t l routing self self6) =
      (shown (some (compiled p u overlay)) u self).map (netPeer u m routing self self6) := by
    intro routing self6
    refine List.map_congr_left fun x hx => h.netPeer ht hu routing self6 ?_
    rw [← hshown, shown_eq] at hx
    obtain ⟨r, hr, hx⟩ := List.mem_filterMap.mp hx
    obtain ⟨ip, -, rfl⟩ := Option.map_eq_some_iff.mp hx
    exact hr
  have hsigs := indexSignatures_same ht hu (ht.noNul.1 self hself) h.own.signatures self.publicKey
  have hnul : (0 : UInt8) ∉ hubID := by decide +kernel
  have hhub := indexSignatures_same ht hu hnul h.hub hub.publicKey
  unfold netMapOf NetMap.content
  simp only [hfilter, hrouting, hshown, hpeers, hsigs, hhub, h.selfAdvertised ht hu]

/-- A netmap discloses nothing about peers its receiver may not see: two registries that agree
    on the receiver, the lock record and every peer visible to the receiver in either give it
    the same netmap, the generation apart. -/
theorem netmap_discloses_visible_only (p : Policy.Policy) (hp : Policy.Parsed p) (overlay : Prefix) (hub : HubConfig)
    (unmarshal : Str → Option Signed) (me : Str) (t u : Store.Tables) (l m : Live) (ht : t.Valid) (hu : u.Valid)
    (h : SameView p overlay me t l u m) (S T : Sorts) (g g' : Int) :
    (build S unmarshal hub (some (compiled p t overlay)) t l g me).map NetMap.content =
      (build T unmarshal hub (some (compiled p u overlay)) u m g' me).map NetMap.content := by
  have hload : loadLockRecord unmarshal t = loadLockRecord unmarshal u := by
    unfold loadLockRecord
    rw [h.lock]
  unfold build
  cases hget : t.getByID me with
  | none =>
    cases hget' : u.getByID me with
    | none => rfl
    | some r =>
      rw [h.own.toSameEntry.symm.getByID ht hget'] at hget
      cases hget
  | some self =>
    rw [h.own.toSameEntry.getByID hu hget]
    obtain ⟨hself, rfl⟩ := t.mem_of_getByID hget
    cases hip : parseAddr self.ipv4 with
    | none => simp only [hip]
    | some ip =>
      simp only [hip, hload]
      cases loadLockRecord unmarshal u with
      | error e => rfl
      | ok rec => exact congrArg Except.ok (netMapOf_same hp.wellFormed ht hu h hself hub S T g g' ip rec)

/-! ## Two registries that look alike -/

def homeDoc : Policy.Doc where
  version := 1
  acls := [{ action := str "accept", src := [str "*"], dst := [str "self:22"] }]

def homePolicy : Policy.Policy := ⟨homeDoc, homeDoc.acls.map (Policy.parsedRule Policy.rangeSort)⟩

theorem homePolicy_parsed : Policy.Parsed homePolicy := ⟨Policy.rangeSort, fun _ => some homeDoc, {}, [], by decide +kernel⟩

def homePeers : List Store.Peer :=
  [{ id := str "a1", name := str "laptop", ownerID := str "u1", ipv4 := str "10.0.0.1" },
    { id := str "a2", name := str "nas", ownerID := str "u1", ipv4 := str "10.0.0.2" }]

def bobRow : Store.Peer := { id := str "b1", name := str "pc", ownerID := str "u2", ipv4 := str "10.0.0.3" }

def carolRow : Store.Peer :=
  { id := str "c1", name := str "tablet", mode := .static, ownerID := str "u3", ipv4 := str "10.0.0.4" }

def bobHome : Store.Tables where
  peers := homePeers ++ [bobRow]
  users := [⟨str "u1", str "alice"⟩, ⟨str "u2", str "bob"⟩]
  routes := [{ peerID := str "b1", route := str "10.1.0.0/16", approved := true }]

def carolHome : Store.Tables where
  peers := homePeers ++ [carolRow]
  users := [⟨str "u1", str "alice"⟩, ⟨str "u3", str "carol"⟩]

theorem bobHome_valid : bobHome.Valid :=
  ⟨by decide +kernel, by decide +kernel, by decide +kernel, by decide +kernel, by decide +kernel, by decide +kernel⟩

theorem carolHome_valid : carolHome.Valid :=
  ⟨by decide +kernel, by decide +kernel, by decide +kernel, by decide +kernel, by decide +kernel, by decide +kernel⟩

theorem home_samePeer (me : Str) {id : Str} (hb : bobRow.id ≠ id) (hc : carolRow.id ≠ id) :
    SamePeer me id bobHome {} carolHome {} where
  row r hr := by
    show r ∈ homePeers ++ [bobRow] ↔ r ∈ homePeers ++ [carolRow]
    grind
  owner r hr hid := by
    have halice : ∀ r ∈ homePeers, ownerName bobHome r.ownerID = ownerName carolHome r.ownerID := by decide +kernel
    rcases List.mem_append.mp hr with hr | hr
    · exact halice r hr
    · exact absurd (List.mem_singleton.mp hr ▸ hid) hb
  routes r hr _ := by
    have hbob : ∀ r ∈ bobHome.routes, r.peerID = bobRow.id := by decide +kernel
    constructor
    · intro hmem
      exact absurd ((hbob r hmem).symm.trans hr) hb
    · intro hmem
      cases hmem
  signatures s _ := Iff.rfl
  endpoints := rfl
  online := rfl
  wants := rfl

/-- What is visible is registered. -/
theorem visible_mem {p : Policy.Policy} {overlay : Prefix} {me id : Str}
    (h : (compiled p t overlay).visible me id = true) : ∃ r ∈ t.peers, r.id = id := by
  have hsome : ∃ j, (compiled p t overlay).index.lookup id = some j := by
    unfold Policy.Compiled.visible at h
    split at h
    · rename_i j _ hj
      exact ⟨_, hj⟩
    · cases h
  obtain ⟨j, hj⟩ := hsome
  obtain ⟨b, hb, hid⟩ := Policy.index_lookup hj
  have hmem : b ∈ policyPeers t := List.mem_of_getElem? hb
  unfold policyPeers at hmem
  obtain ⟨r, hr, rfl⟩ := List.mem_map.mp hmem
  exact ⟨r, hr, hid⟩

/-- An id visible to alice's laptop is that of no peer outside `homePeers`. -/
theorem home_visible {row : Store.Peer} (ht : t.peers = homePeers ++ [row])
    (hrow : (compiled homePolicy t Prefix.none).visible (str "a1") row.id = false) {id : Str}
    (h : (compiled homePolicy t Prefix.none).visible (str "a1") id = true) : ∃ r ∈ homePeers, r.id = id := by
  obtain ⟨r, hr, hid⟩ := visible_mem h
  grind

/-- Alice's laptop sees the same in both. -/
theorem home_sameView : SameView homePolicy Prefix.none (str "a1") bobHome {} carolHome {} := by
  have hids : ∀ r ∈ homePeers, bobRow.id ≠ r.id ∧ carolRow.id ≠ r.id := by decide +kernel
  refine ⟨rfl, fun _ _ => Iff.rfl, home_samePeer _ (by decide +kernel) (by decide +kernel), fun r hr => ?_, fun id hid => ?_⟩
  · have hbob : ∀ r ∈ bobHome.routes, r.peerID ≠ str "a1" := by decide +kernel
    constructor
    · intro hmem
      exact absurd hr (hbob r hmem)
    · intro hmem
      cases hmem
  · have hhome : ∃ r ∈ homePeers, r.id = id := by
      rcases hid with hid | hid
      · exact home_visible rfl (by decide +kernel) hid
      · exact home_visible rfl (by decide +kernel) hid
    obtain ⟨r, hr, rfl⟩ := hhome
    exact home_samePeer _ (hids r hr).1 (hids r hr).2

/-- Alice's laptop gets the same netmap in both, whoever else is registered. -/
theorem home_netmap_same :
    (build insertionSorts (fun _ => none) {} (some (compiled homePolicy bobHome Prefix.none)) bobHome {} 1 (str "a1")).map
        NetMap.content =
      (build insertionSorts (fun _ => none) {} (some (compiled homePolicy carolHome Prefix.none)) carolHome {} 2 (str "a1")).map
        NetMap.content := by
  exact netmap_discloses_visible_only homePolicy homePolicy_parsed Prefix.none {} _ (str "a1") bobHome carolHome {} {}
    bobHome_valid
    carolHome_valid home_sameView _ _ 1 2

end Thawr.Control
