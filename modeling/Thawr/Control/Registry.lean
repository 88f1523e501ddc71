/-
  Thawr.Control.Registry — the rows of the server's store and the peers the policy compiler
  sees (`internal/store`, `PolicyPeers` of `internal/control/policyvis.go`, `ApprovedRoutes`
  of `internal/control/routes.go`).

  A table is the list its query returns: peers by name, advertised routes by peer id and
  prefix, signatures by peer id and signer key. `Tables.Valid` states the keys of the schema
  and these orders. Columns no modelled function reads are left out.
-/

import Thawr.Control.Policy.Pairs

namespace Thawr.Store

open Go

inductive Mode where
  | agent
  | static
  deriving DecidableEq

structure Peer where
  id : Str
  name : Str
  kind : Str := []
  mode : Mode := .agent
  /-- Empty for a peer without owner. -/
  ownerID : Str := []
  tags : List Str := []
  publicKey : Str := []
  ipv4 : Str
  /-- Empty until the server filled it. -/
  ipv6 : Str := []
  ipv6Capable : Bool := false
  deriving DecidableEq

structure User where
  id : Str
  name : Str
  deriving DecidableEq

structure PeerRoute where
  peerID : Str
  route : Str
  approved : Bool := false
  approvedBy : Str := []
  deriving DecidableEq

structure PeerSignature where
  peerID : Str
  publicKey : Str
  signerKey : Str
  signature : Str
  deriving DecidableEq

structure Tables where
  peers : List Peer := []
  users : List User := []
  routes : List PeerRoute := []
  signatures : List PeerSignature := []
  /-- The `lock_record` of the meta table. -/
  lockRecord : Option Str := none
  deriving DecidableEq

/-- The keys of the schema, and the orders of the queries. Ids are hex digits, or the hub's,
    so none has the byte 0. -/
structure Tables.Valid (t : Tables) : Prop where
  ids : (t.peers.map (·.id)).Nodup
  names : t.peers.Pairwise fun a b => a.name < b.name
  routes : t.routes.Pairwise fun a b => a.peerID < b.peerID ∨ (a.peerID = b.peerID ∧ a.route < b.route)
  signatures : t.signatures.Pairwise fun a b => a.peerID < b.peerID ∨ (a.peerID = b.peerID ∧ a.signerKey ≤ b.signerKey)
  keys : (t.signatures.map fun s => (s.peerID, s.publicKey, s.signerKey)).Nodup
  noNul : (∀ p ∈ t.peers, (0 : UInt8) ∉ p.id) ∧ ∀ s ∈ t.signatures, (0 : UInt8) ∉ s.peerID

def Tables.getByID (t : Tables) (id : Str) : Option Peer := t.peers.find? fun p => p.id == id

def Tables.getByName (t : Tables) (name : Str) : Option Peer := t.peers.find? fun p => p.name == name

def Tables.listPeer (t : Tables) (id : Str) : List PeerRoute := t.routes.filter fun r => r.peerID == id

variable {t u : Tables}

theorem Tables.mem_of_getByID {id : Str} {p : Peer} (h : t.getByID id = some p) : p ∈ t.peers ∧ p.id = id := by
  refine ⟨List.mem_of_find?_eq_some h, ?_⟩
  have := List.find?_some h
  exact beq_iff_eq.mp this

theorem Tables.Valid.getByID (hv : t.Valid) {p : Peer} (hp : p ∈ t.peers) : t.getByID p.id = some p := by
  cases h : t.getByID p.id with
  | none => exact absurd (beq_self_eq_true p.id) (List.find?_eq_none.mp h p hp)
  | some q =>
    obtain ⟨hq, hid⟩ := t.mem_of_getByID h
    rw [List.inj_on_of_nodup_map hv.ids hq hp hid]

/-- The peers a query keeps depend only on which rows they are. -/
theorem filter_peers_ext (ht : t.Valid) (hu : u.Valid) {f g : Peer → Bool}
    (h : ∀ r, (r ∈ t.peers ∧ f r = true) ↔ (r ∈ u.peers ∧ g r = true)) : t.peers.filter f = u.peers.filter g := by
  refine sorted_ext (R := fun a b : Peer => a.name < b.name) (fun a b => List.lt_asymm) (ht.names.filter f) (hu.names.filter g) ?_
  simpa only [List.mem_filter] using h

theorem filter_routes_ext (ht : t.Valid) (hu : u.Valid) {f : PeerRoute → Bool}
    (h : ∀ r, f r = true → (r ∈ t.routes ↔ r ∈ u.routes)) : t.routes.filter f = u.routes.filter f := by
  refine sorted_ext (fun a b hab hba => ?_) (ht.routes.filter f) (hu.routes.filter f) fun r => ?_
  · grind
  · grind

/-- The signatures over one key of one peer come by signer key, which their primary key
    makes distinct. -/
theorem filter_signatures_ext (ht : t.Valid) (hu : u.Valid) (id key : Str)
    (h : ∀ s, s.peerID = id → (s ∈ t.signatures ↔ s ∈ u.signatures)) :
    (t.signatures.filter fun s => s.peerID == id && s.publicKey == key) =
      u.signatures.filter fun s => s.peerID == id && s.publicKey == key := by
  have hsorted : ∀ {t : Tables}, t.Valid → (t.signatures.filter fun s => s.peerID == id && s.publicKey == key).Pairwise
      fun a b => a.signerKey < b.signerKey := by
    intro t ht
    have hkeys : t.signatures.Pairwise fun a b => (a.peerID, a.publicKey, a.signerKey) ≠ (b.peerID, b.publicKey, b.signerKey) :=
      List.pairwise_map.mp ht.keys
    refine List.Pairwise.imp_of_mem (fun {a b} ha hb hab => ?_) ((ht.signatures.and hkeys).filter _)
    grind
  refine sorted_ext (R := fun a b : PeerSignature => a.signerKey < b.signerKey) (fun a b => List.lt_asymm)
    (hsorted ht) (hsorted hu)
    fun s => ?_
  grind

end Thawr.Store

namespace Thawr.Control

open Go Netip

/-! ## Rows as the policy compiler sees them -/

def ownerNames (users : List Store.User) : GoMap Str Str := users.foldl (fun m u => m.insert u.id u.name) ∅

def ownerName (t : Store.Tables) (id : Str) : Str := ((ownerNames t.users).lookup id).getD []

def approvedRoutes (rows : List Store.PeerRoute) (id : Str) : List Prefix :=
  rows.filterMap fun r => if r.peerID = id ∧ r.approved = true then parsePrefix r.route else none

def policyPeer (t : Store.Tables) (p : Store.Peer) : Policy.Peer where
  id := p.id
  name := p.name
  owner := ownerName t p.ownerID
  tags := p.tags
  ipv4 := (parseAddr p.ipv4).getD .zero
  ipv6 := ((parseAddr p.ipv6).filter fun a => a.is6).getD .zero
  routes := approvedRoutes t.routes p.id

def policyPeers (t : Store.Tables) : List Policy.Peer := t.peers.map (policyPeer t)

def compiled (p : Policy.Policy) (t : Store.Tables) (overlay : Prefix) : Policy.Compiled :=
  Policy.compileWith p (policyPeers t) overlay

theorem ids_policyPeers {t : Store.Tables} (hids : (t.peers.map (·.id)).Nodup) : ((policyPeers t).map (·.id)).Nodup := by
  unfold policyPeers
  rw [List.map_map]
  exact hids

theorem getElem?_policyPeers {t : Store.Tables} {i : Nat} {r : Store.Peer} (h : t.peers[i]? = some r) :
    (policyPeers t)[i]? = some (policyPeer t r) := by
  unfold policyPeers
  rw [List.getElem?_map, h]
  rfl

theorem mem_approvedRoutes {rows : List Store.PeerRoute} {id : Str} {q : Prefix} :
    q ∈ approvedRoutes rows id ↔ ∃ r ∈ rows, r.peerID = id ∧ r.approved = true ∧ parsePrefix r.route = some q := by
  unfold approvedRoutes
  grind

end Thawr.Control
