/-
  Thawr.Store.Database — the statements the registry's calls make (`internal/store`).

  A statement fails or gives the database after it. The unique indexes of the schema are
  enforced by `Sql.violates`, its foreign keys by the checks on the owner; a text column that
  may be NULL is NULL when it is empty. Times are in nanoseconds; they are stored exactly.

  Proved: whatever the statements of a call do to the rows of peers or tokens (`PeerChange`,
  `TokenChange`), the unique columns stay unique (`PeerChange.keyed`, `TokenChange.ids`).
-/

import Thawr.Control.Registry
import Thawr.Sql.Table

namespace Thawr.Store

open Go

structure Token where
  id : Str
  secretHash : Str
  ownerID : Str
  kind : Str
  tags : List Str
  peerName : Str
  createdBy : Str
  issuedByAdmin : Bool
  createdAt : Int
  expiresAt : Int
  usedAt : Option Int := none
  usedByPeerID : Str := []
  deriving DecidableEq

structure Db where
  tables : Tables
  tokens : List Token := []
  generation : Int := 0
  deriving DecidableEq

inductive Error where
  /-- "store: not found" -/
  | notFound
  /-- "store: already exists" -/
  | conflict
  /-- Any other failure of the database. -/
  | database
  deriving DecidableEq

def nullString (s : Str) : Option Str := if s = [] then none else some s

/-! ## Peers -/

def peerKeys : List (Peer → Option Str) :=
  [fun p => some p.id, fun p => some p.name, fun p => some p.publicKey, fun p => some p.ipv4, fun p => nullString p.ipv6]

def byName (a b : Peer) : Bool := a.name < b.name

namespace Db

def peers (db : Db) : List Peer := db.tables.peers

def setPeers (db : Db) (rows : List Peer) : Db := { db with tables := { db.tables with peers := rows } }

def userExists (db : Db) (id : Str) : Bool := db.tables.users.any fun u => u.id == id

def userByName (db : Db) (name : Str) : Option User := db.tables.users.find? fun u => u.name == name

def createPeer (db : Db) (p : Peer) : Except Error Db := do
  check (!Sql.violates peerKeys p db.peers) .conflict
  check (p.ownerID == [] || db.userExists p.ownerID) .database
  return db.setPeers (Sql.insert byName p db.peers)

def others (db : Db) (id : Str) : List Peer := db.peers.filter fun p => p.id != id

def updatePeer (db : Db) (id : Str) (set : Peer → Peer) : Except Error Db := do
  let p ← found (db.tables.getByID id) .notFound
  check (!Sql.violates peerKeys (set p) (db.others id)) .conflict
  return db.setPeers (Sql.insert byName (set p) (db.others id))

def renamePeer (db : Db) (id name : Str) : Except Error Db := db.updatePeer id fun p => { p with name := name }

def setPublicKey (db : Db) (id publicKey : Str) : Except Error Db := db.updatePeer id fun p => { p with publicKey := publicKey }

/-- `Peers.SetIPv6Capable`: also whether the stored value changed. -/
def setIPv6Capable (db : Db) (id : Str) (capable : Bool) : Except Error (Bool × Db) := do
  let p ← found (db.tables.getByID id) .notFound
  if p.ipv6Capable = capable then return (false, db)
  else
    let db ← db.updatePeer id fun p => { p with ipv6Capable := capable }
    return (true, db)

/-- `Peers.Delete`: the peer's routes go with it, and no token names it any more. -/
def deletePeer (db : Db) (id : Str) : Except Error Db := do
  let _ ← found (db.tables.getByID id) .notFound
  return { db with
    tables := { db.tables with
      peers := db.others id
      routes := db.tables.routes.filter fun r => r.peerID != id }
    tokens := db.tokens.map fun t => if t.usedByPeerID = id then { t with usedByPeerID := [] } else t }

def allocatedIPv4s (db : Db) : List Str := db.peers.map (·.ipv4)

/-- `Peers.NamesWithPrefix`. LIKE ignores case; peer names have no capital letters. -/
def namesWithPrefix (db : Db) (base : Str) : List Str :=
  (db.peers.map (·.name)).filter fun n => n == base || (base ++ [45]).isPrefixOf n

/-! ## Signatures, tokens and the generation -/

def setSignatures (db : Db) (rows : List PeerSignature) : Db := { db with tables := { db.tables with signatures := rows } }

def bySigner (a b : PeerSignature) : Bool := a.peerID < b.peerID || (a.peerID == b.peerID && a.signerKey < b.signerKey)

/-- `Signatures.Put`: the signature replaces the one with its key. -/
def putSignature (db : Db) (s : PeerSignature) : Except Error Db := do
  check (s.peerID != [] && s.publicKey != [] && s.signerKey != [] && s.signature != []) .database
  return db.setSignatures (Sql.insert bySigner s (db.tables.signatures.filter fun r =>
    !(r.peerID == s.peerID && r.publicKey == s.publicKey && r.signerKey == s.signerKey)))

def deletePeerSignatures (db : Db) (id : Str) : Db := db.setSignatures (db.tables.signatures.filter fun r => r.peerID != id)

def deleteKeySignatures (db : Db) (id publicKey : Str) : Db :=
  db.setSignatures (db.tables.signatures.filter fun r => !(r.peerID == id && r.publicKey == publicKey))

def tokenKeys : List (Token → Option Str) := [fun t => some t.id, fun t => some t.secretHash]

def createToken (db : Db) (t : Token) : Except Error Db := do
  check (!Sql.violates tokenKeys t db.tokens) .conflict
  check (db.userExists t.ownerID && db.userExists t.createdBy) .database
  return { db with tokens := db.tokens ++ [t] }

def getByHash (db : Db) (hash : Str) : Option Token := db.tokens.find? fun t => t.secretHash == hash

def markUsed (db : Db) (id peerID : Str) (now : Int) : Except Error Db := do
  check (db.tokens.any fun t => t.id == id && t.usedAt.isNone) .conflict
  return { db with
    tokens := db.tokens.map fun t =>
      if t.id = id ∧ t.usedAt = none then { t with usedAt := some now, usedByPeerID := peerID } else t }

def incrementGeneration (db : Db) : Int × Db := (db.generation + 1, { db with generation := db.generation + 1 })

/-! ## What a statement leaves -/

section

variable {db db' : Db} {p q : Peer} {id : Str} {set : Peer → Peer}

@[simp] theorem mem_others : q ∈ db.others id ↔ q ∈ db.peers ∧ q.id ≠ id := by
  unfold others
  rw [List.mem_filter, bne_iff_ne]

theorem mem_of_getByHash {hash : Str} {t : Token} (h : db.getByHash hash = some t) : t ∈ db.tokens ∧ t.secretHash = hash := by
  have heq := List.find?_some h
  exact ⟨List.mem_of_find?_eq_some h, beq_iff_eq.mp heq⟩

theorem createPeer_ok (h : db.createPeer p = .ok db') :
    Sql.violates peerKeys p db.peers = false ∧ db' = db.setPeers (Sql.insert byName p db.peers) := by
  obtain ⟨_, hv, h⟩ := bind_ok.mp h
  obtain ⟨_, -, h⟩ := bind_ok.mp h
  cases h
  exact ⟨Bool.not_eq_true' _ |>.mp (check_ok.mp hv), rfl⟩

theorem updatePeer_ok (h : db.updatePeer id set = .ok db') :
    ∃ p, db.tables.getByID id = some p ∧ Sql.violates peerKeys (set p) (db.others id) = false ∧
      db' = db.setPeers (Sql.insert byName (set p) (db.others id)) := by
  obtain ⟨p, hp, h⟩ := bind_ok.mp h
  obtain ⟨_, hv, h⟩ := bind_ok.mp h
  cases h
  exact ⟨p, found_ok.mp hp, Bool.not_eq_true' _ |>.mp (check_ok.mp hv), rfl⟩

/-- The row an update writes is the one found by its id. -/
theorem getByID_updatePeer (h : db.updatePeer id set = .ok db') (hid : ∀ p, (set p).id = p.id) :
    ∃ p, db.tables.getByID id = some p ∧ db'.tables.getByID id = some (set p) := by
  obtain ⟨p, hp, -, rfl⟩ := updatePeer_ok h
  have hset : (set p).id = id := (hid p).trans (db.tables.mem_of_getByID hp).2
  refine ⟨p, hp, ?_⟩
  cases hq : (db.setPeers (Sql.insert byName (set p) (db.others id))).tables.getByID id with
  | none => exact absurd (beq_iff_eq.mpr hset) (List.find?_eq_none.mp hq _ (Sql.mem_insert.mpr (.inl rfl)))
  | some q =>
    obtain ⟨hmem, hqid⟩ := Tables.mem_of_getByID hq
    rcases Sql.mem_insert.mp hmem with rfl | hmem
    · rfl
    · exact absurd hqid (mem_others.mp hmem).2

theorem putSignature_ok {s : PeerSignature} (h : db.putSignature s = .ok db') : ∃ rows, db' = db.setSignatures rows := by
  obtain ⟨_, -, h⟩ := bind_ok.mp h
  cases h
  exact ⟨_, rfl⟩

theorem createToken_ok {t : Token} (h : db.createToken t = .ok db') :
    Sql.violates tokenKeys t db.tokens = false ∧ db' = { db with tokens := db.tokens ++ [t] } := by
  obtain ⟨_, hv, h⟩ := bind_ok.mp h
  obtain ⟨_, -, h⟩ := bind_ok.mp h
  cases h
  exact ⟨Bool.not_eq_true' _ |>.mp (check_ok.mp hv), rfl⟩

theorem markUsed_ok {peerID : Str} {now : Int} (h : db.markUsed id peerID now = .ok db') :
    db' = { db with
      tokens := db.tokens.map fun t =>
        if t.id = id ∧ t.usedAt = none then { t with usedAt := some now, usedByPeerID := peerID } else t } := by
  obtain ⟨_, -, h⟩ := bind_ok.mp h
  cases h
  rfl

end

end Db

/-! ## Changes to the rows of peers -/

structure Keyed (rows : List Peer) : Prop where
  sorted : rows.Pairwise fun a b => a.name < b.name
  unique : ∀ col ∈ peerKeys, Sql.Unique col rows

/-- The rows after one call: `New` says what a row that is added is like, `Set` what a row
    that is replaced becomes. -/
inductive PeerChange (New : Peer → Prop) (Set : Peer → Peer → Prop) (db : Db) : List Peer → Prop where
  | same : PeerChange New Set db db.peers
  | add {p : Peer} (hnew : New p) (hv : Sql.violates peerKeys p db.peers = false) :
      PeerChange New Set db (Sql.insert byName p db.peers)
  | update {p q : Peer} (hp : p ∈ db.peers) (hid : q.id = p.id) (hset : Set p q)
      (hv : Sql.violates peerKeys q (db.others p.id) = false) : PeerChange New Set db (Sql.insert byName q (db.others p.id))
  | remove (id : Str) : PeerChange New Set db (db.others id)

section

variable {New : Peer → Prop} {Set : Peer → Peer → Prop} {db : Db} {rows : List Peer} {p : Peer}

theorem Keyed.insert (h : Keyed rows) (hv : Sql.violates peerKeys p rows = false) : Keyed (Sql.insert byName p rows) := by
  refine ⟨Sql.pairwise_insert (fun a c => List.lt_trans) h.sorted ?_ ?_,
    fun col hcol => (h.unique col hcol).add hv hcol fun _ => Sql.mem_insert.mp⟩
  · intro q hq hlt
    have hne := Sql.violates_false hv (fun p => some p.name) (by simp [peerKeys]) hq rfl
    have hle : q.name ≤ p.name := List.not_lt.mp (of_decide_eq_false hlt)
    refine List.not_le.mp fun hge => hne ?_
    rw [List.le_antisymm hle hge]
  · intro q _ hlt
    exact of_decide_eq_true hlt

theorem Keyed.others (h : Keyed db.peers) (id : Str) : Keyed (db.others id) :=
  ⟨h.sorted.filter _, fun col hcol => (h.unique col hcol).subset (List.filter_subset_self _)⟩

/-- The indexes stay what they are through every change. -/
theorem PeerChange.keyed (h : PeerChange New Set db rows) (hk : Keyed db.peers) : Keyed rows := by
  cases h with
  | same => exact hk
  | add _ hv => exact hk.insert hv
  | update _ _ _ hv => exact (hk.others _).insert hv
  | remove id => exact hk.others id

theorem PeerChange.imp {New' : Peer → Prop} {Set' : Peer → Peer → Prop} (h : PeerChange New Set db rows)
    (hnew : ∀ p, New p → New' p)
    (hset : ∀ p q, Set p q → Set' p q) : PeerChange New' Set' db rows := by
  cases h with
  | same => exact .same
  | add hn hv => exact .add (hnew _ hn) hv
  | update hp hid hs hv => exact .update hp hid (hset _ _ hs) hv
  | remove id => exact .remove id

/-- What new rows have and replaced rows keep, every row has. -/
theorem PeerChange.keeps {I : Peer → Prop} (h : PeerChange New Set db rows) (hnew : ∀ p, New p → I p)
    (hset : ∀ p q, I p → Set p q → I q) (hI : ∀ p ∈ db.peers, I p) : ∀ p ∈ rows, I p := by
  intro x hx
  cases h with
  | same => exact hI x hx
  | add hn _ =>
    rcases Sql.mem_insert.mp hx with rfl | hx
    · exact hnew x hn
    · exact hI x hx
  | update hp _ hs _ =>
    rcases Sql.mem_insert.mp hx with rfl | hx
    · exact hset _ x (hI _ hp) hs
    · exact hI x (Db.mem_others.mp hx).1
  | remove id => exact hI x (Db.mem_others.mp hx).1

/-- A row whose id and name no row had before was added, or replaces one with another name. -/
theorem PeerChange.acquired (h : PeerChange New Set db rows) (hp : p ∈ rows)
    (hn : ∀ q ∈ db.peers, q.id = p.id → q.name ≠ p.name) :
    New p ∨ ∃ q ∈ db.peers, Set q p ∧ q.name ≠ p.name := by
  cases h with
  | same => exact absurd rfl (hn p hp rfl)
  | add hnew _ =>
    rcases Sql.mem_insert.mp hp with rfl | hp
    · exact .inl hnew
    · exact absurd rfl (hn p hp rfl)
  | update hq hid hs _ =>
    rcases Sql.mem_insert.mp hp with rfl | hp
    · exact .inr ⟨_, hq, hs, hn _ hq hid.symm⟩
    · exact absurd rfl (hn p (Db.mem_others.mp hp).1 rfl)
  | remove id => exact absurd rfl (hn p (Db.mem_others.mp hp).1 rfl)

end

/-! ## Changes to the rows of tokens -/

/-- What no statement changes in a token; a token that was used stays so. -/
structure Token.Kept (t u : Token) : Prop where
  id : u.id = t.id
  peerName : u.peerName = t.peerName
  issuedByAdmin : u.issuedByAdmin = t.issuedByAdmin
  usedAt : t.usedAt.isSome = true → u.usedAt.isSome = true

theorem Token.Kept.refl (t : Token) : t.Kept t := ⟨rfl, rfl, rfl, fun h => h⟩

inductive TokenChange (New : Token → Prop) (db : Db) : List Token → Prop where
  | add {t : Token} (hnew : New t) (hv : Sql.violates Db.tokenKeys t db.tokens = false) : TokenChange New db (db.tokens ++ [t])
  | update (f : Token → Token) (hf : ∀ t : Token, t.Kept (f t)) : TokenChange New db (db.tokens.map f)

section

variable {New : Token → Prop} {db : Db} {rows : List Token}

/-- No two tokens get one id. -/
theorem TokenChange.ids (h : TokenChange New db rows) (hu : Sql.Unique (fun t : Token => some t.id) db.tokens) :
    Sql.Unique (fun t : Token => some t.id) rows := by
  cases h with
  | add _ hv =>
    refine hu.add hv (by simp [Db.tokenKeys]) fun a ha => ?_
    rw [List.mem_append, List.mem_singleton] at ha
    exact ha.symm
  | update f hf =>
    intro a ha b hb hs he
    obtain ⟨x, hx, rfl⟩ := List.mem_map.mp ha
    obtain ⟨y, hy, rfl⟩ := List.mem_map.mp hb
    have he : some (f x).id = some (f y).id := he
    rw [(hf x).id, (hf y).id] at he
    rw [hu x hx y hy rfl he]

theorem TokenChange.keeps {I : Token → Prop} (h : TokenChange New db rows) (hnew : ∀ t, New t → I t)
    (hkept : ∀ t u : Token, I t → t.Kept u → I u) (hI : ∀ t ∈ db.tokens, I t) : ∀ t ∈ rows, I t := by
  intro x hx
  cases h with
  | add hn _ => grind
  | update f hf =>
    obtain ⟨t, ht, rfl⟩ := List.mem_map.mp hx
    exact hkept t _ (hI t ht) (hf t)

/-- Every token is still there. -/
theorem TokenChange.mem (h : TokenChange New db rows) {t : Token} (ht : t ∈ db.tokens) : ∃ u ∈ rows, t.Kept u := by
  cases h with
  | add _ _ => exact ⟨t, List.mem_append_left _ ht, .refl t⟩
  | update f hf => exact ⟨f t, List.mem_map_of_mem ht, hf t⟩

end

end Thawr.Store
