/-
  Thawr.Control.Enrollment — how peers come into the registry (`internal/control/tokens.go`,
  `enroll.go` and `static.go`).

  A call checks its request and then runs one transaction (`call`). What a call takes from
  outside is an argument: the time, the random bytes, the hooks `TagAllowed` and `PeerRefs`,
  whether the rate limiter lets it pass and whether the transaction commits. Audit rows and
  logs are left out, and so are the columns of a peer that no modelled function reads.

  Proved: a call that fails leaves the database as it was (`call_error`); what a call that
  succeeds found and wrote (`Tokens.create_ok`, `Enroller.enroll_ok`,
  `Registry.createStatic_ok`).
-/

import Thawr.Control.Addresses
import Thawr.Control.Lock
import Thawr.Control.Names
import Thawr.Store.Database

namespace Thawr.Control

open Go Netip Store

/-! ## Errors -/

inductive BadInput where
  /-- "public_key is not a WireGuard key" -/
  | key
  /-- "hostname longer than 63 characters" -/
  | hostname
  /-- "name %q must be a DNS label other than %q" -/
  | name (n : Str)
  /-- "peer name %q must be a DNS label other than %q" -/
  | peerName (n : Str)
  /-- "kind %q must be human, server or agent" -/
  | kind (k : Str)
  /-- "tag %q must be tag:<label>" -/
  | tag (t : Str)
  /-- "owner is required" -/
  | noOwner
  /-- "owner %q does not exist", or "unknown owner %q" -/
  | unknownOwner (n : Str)
  /-- "expiry must be positive" -/
  | expiry
  /-- "expiry exceeds the maximum of %s" -/
  | maxExpiry
  /-- "name %q is taken" -/
  | taken (n : Str)
  /-- "the policy selects peer:%s (%s); renaming would drop those grants from %s. Change the
      policy to peer:%s and reload, then rename with --force" -/
  | selected (n : Str) (refs : List Str) (newName : Str)
  /-- "key already in use" -/
  | keyInUse
  /-- "this server has no network lock" -/
  | noLock
  /-- The record of the rotated key cannot be encoded. -/
  | record (e : Lock.Err)
  /-- "rotation signature does not verify" -/
  | rotation
  deriving DecidableEq

inductive Refused where
  /-- Nothing: only an admin may make the call. -/
  | adminOnly
  /-- ": members can only create tokens for themselves" -/
  | tokenOwner
  /-- ": %s may not create tokens with %s" -/
  | tokenTag (user tag : Str)
  /-- ": the policy selects peer:%s (%s); only an admin may issue a token for that name" -/
  | tokenName (n : Str) (refs : List Str)
  /-- ": %s may only add peers for themselves" -/
  | peerOwner (user : Str)
  /-- ": %s may not use %s" -/
  | peerTag (user tag : Str)
  /-- ": the policy selects peer:%s (%s); only an admin may add a peer with that name" -/
  | peerName (n : Str) (refs : List Str)
  /-- ": the network lock is not enabled" -/
  | lockDisabled
  /-- ": %s is not a signer with key %s", with the key's fingerprint -/
  | notSigner (peer : Str) (key : Lock.PublicKey)
  deriving DecidableEq

inductive CallErr where
  /-- "too many attempts" -/
  | rateLimited
  /-- "client version too old: client %s, server requires at least %s" -/
  | version (client minimum : Str)
  /-- "invalid token" -/
  | invalidToken
  | validation (why : BadInput)
  | forbidden (why : Refused)
  /-- "peer %q: not found" -/
  | notFound (peer : Str)
  | alloc (e : AllocErr)
  /-- "control: no free name derived from %q" -/
  | noFreeName (base : Str)
  /-- "control: registry has no overlay prefix" -/
  | noOverlay
  /-- "control: lock record in meta" -/
  | lockRecord
  | store (e : Store.Error)
  deriving DecidableEq

structure Services where
  overlay : Prefix
  overlay6 : Prefix
  minVersion : Str := []
  /-- `hashSecret`: SHA-256 in hex. -/
  hashSecret : Str → Str
  /-- The public key of a WireGuard private key. -/
  publicKey : Wg.Key → Wg.Key
  ed25519 : Lock.Ed25519
  /-- `json.Unmarshal` of a signed lock record. -/
  unmarshal : Str → Option Lock.Signed
  /-- The registry has a lock service. -/
  withLock : Bool := true

structure Env where
  now : Int
  id : Arr 16
  /-- The bytes of a secret, or a private key. -/
  secret : Arr 32
  /-- The rate limiter's answer. -/
  allowed : Bool := true
  /-- The answers of the running policy's tag owners. -/
  tagAllowed : Str → Str → Bool := fun _ _ => false
  /-- False when the database fails the transaction. -/
  commits : Bool := true

def hexString (b : List UInt8) : Str := b.flatMap fun x => [hexDigit (x.toNat / 16), hexDigit (x.toNat % 16)]

def newID (b : Arr 16) : Str := hexString b.bytes

theorem newID_ne_nil (b : Arr 16) : newID b ≠ [] := by
  obtain ⟨bytes, hsize⟩ := b
  cases bytes with
  | nil => cases hsize
  | cons x rest => exact List.cons_ne_nil _ _

def newSecret (b : Arr 32) : Str := Base64.rawURLEncodeToString b.bytes

/-! ## Transactions -/

/-- `InTx`: what the body wrote, or the database before when the body or the commit fails. -/
def inTx {α : Type} (commits : Bool) (db : Db) (body : Db → Except CallErr (α × Db)) : Except CallErr α × Db :=
  match body db with
  | .error e => (.error e, db)
  | .ok (a, db') => if commits then (.ok a, db') else (.error (.store .database), db)

/-- Checks that only read, then one transaction. -/
def call {α β : Type} (commits : Bool) (db : Db) (checks : Except CallErr α) (body : α → Db → Except CallErr (β × Db)) :
    Except CallErr β × Db :=
  match checks with
  | .error e => (.error e, db)
  | .ok a => inTx commits db (body a)

section

variable {α β : Type} {commits : Bool} {db db' : Db} {checks : Except CallErr α}

theorem inTx_error {body : Db → Except CallErr (α × Db)} {e : CallErr} (h : (inTx commits db body).1 = .error e) :
    (inTx commits db body).2 = db := by
  unfold inTx at h ⊢
  grind

theorem inTx_ok {body : Db → Except CallErr (α × Db)} {a : α} (h : inTx commits db body = (.ok a, db')) :
    body db = .ok (a, db') := by
  unfold inTx at h
  grind

/-- A call that fails changes nothing. -/
theorem call_error {body : α → Db → Except CallErr (β × Db)} {e : CallErr} (h : (call commits db checks body).1 = .error e) :
    (call commits db checks body).2 = db := by
  unfold call at h ⊢
  split
  · rfl
  · rename_i a
    exact inTx_error h

theorem call_ok {body : α → Db → Except CallErr (β × Db)} {b : β} (h : call commits db checks body = (.ok b, db')) :
    ∃ a, checks = .ok a ∧ body a db = .ok (b, db') := by
  unfold call at h
  split at h
  · cases h
  · exact ⟨_, rfl, inTx_ok h⟩

end

/-! ## Checks the calls share -/

def kindHuman : Str := str "human"

def validKind (kind : Str) : Except CallErr Unit :=
  check (kind == kindHuman || kind == str "server" || kind == str "agent") (.validation (.kind kind))

def normalizeTags (out : List Str) : List Str → Except CallErr (List Str)
  | [] => .ok out
  | raw :: rest =>
    let tag := trimSpace raw
    if tag = [] then normalizeTags out rest
    else if (str "tag:").isPrefixOf tag && validLabel (tag.drop 4) then
      normalizeTags (if out.contains tag then out else out ++ [tag]) rest
    else .error (.validation (.tag tag))

/-- The first tag the principal may not use; an admin may use all. -/
def refusedTag (env : Env) (who : Principal) (tags : List Str) : Option Str :=
  if who.isAdmin then none else tags.find? fun tag => !env.tagAllowed who.name tag

def checkTags (env : Env) (who : Principal) (tags : List Str) (e : Str → Refused) : Except CallErr Unit :=
  match refusedTag env who tags with
  | none => .ok ()
  | some tag => .error (.forbidden (e tag))

def parsePublicKey (s : Str) : Except CallErr Wg.Key := found (Wg.parseKey s) (.validation .key)

def allocated (db : Db) : List Addr := db.allocatedIPv4s.filterMap parseAddr

/-! ## `Tokens.Create` -/

def defaultTokenTTL : Int := 3600 * 10 ^ 9
def maxTokenTTL : Int := 30 * 24 * 3600 * 10 ^ 9
def tokenPrefix : Str := str "thawr_"
def tokenIDLen : Nat := 8

structure TokenRequest where
  ownerName : Str
  kind : Str
  tags : List Str := []
  peerName : Str := []
  ttl : Int := 0

structure CreatedToken where
  token : Token
  secret : Str

namespace Tokens

variable (S : Services) (refs : Str → List Str) (env : Env) (who : Principal) (req : TokenRequest)

def token (db : Db) : Except CallErr CreatedToken := do
  let owner ← found (db.userByName req.ownerName) (.validation (.unknownOwner req.ownerName))
  check (who.isAdmin || owner.id == who.userID) (.forbidden .tokenOwner)
  validKind req.kind
  let tags ← normalizeTags [] req.tags
  checkTags env who tags (.tokenTag who.name)
  check (req.peerName == [] || validPeerName req.peerName) (.validation (.peerName req.peerName))
  check (req.peerName == [] || who.isAdmin || (refs req.peerName).isEmpty)
    (.forbidden (.tokenName req.peerName (refs req.peerName)))
  check (0 ≤ req.ttl) (.validation .expiry)
  check (req.ttl ≤ maxTokenTTL) (.validation .maxExpiry)
  let secret := tokenPrefix ++ newSecret env.secret
  return {
    secret := secret
    token :=
      { id := str "tk_" ++ (newID env.id).take tokenIDLen
        secretHash := S.hashSecret secret
        ownerID := owner.id
        kind := req.kind
        tags := tags
        peerName := req.peerName
        -- the socket has no user record
        createdBy := if who.onSocket then owner.id else who.userID
        issuedByAdmin := who.isAdmin
        createdAt := env.now
        expiresAt := env.now + if req.ttl = 0 then defaultTokenTTL else req.ttl } }

def create (db : Db) : Except CallErr CreatedToken × Db :=
  call env.commits db (token S refs env who req db) fun t db => do
    let db ← (db.createToken t.token).mapError .store
    return (t, db)

end Tokens

/-! ## `Enroll` -/

structure EnrollRequest where
  token : Str
  publicKey : Str
  hostname : Str := []
  clientVersion : Str := []
  name : Str := []
  remoteIP : Str := []
  ipv6 : Bool := false

structure EnrollResult where
  peer : Peer
  nodeSecret : Str
  generation : Int

def parseMajorMinor (v : Str) : Option (Int × Int) :=
  let v := if v.head? = some 118 then v.tail else v
  match split v 46 with
  | major :: minor :: _ =>
    match atoi major, atoi ((split minor 45).headD []) with
    | some major, some minor => some (major, minor)
    | _, _ => none
  | _ => none

def checkVersion (client minimum : Str) : Except CallErr Unit :=
  if minimum = [] then .ok ()
  else
    match parseMajorMinor client, parseMajorMinor minimum with
    | some c, some m => check (!(c.1 < m.1 || (c.1 == m.1 && c.2 < m.2))) (.version client minimum)
    | _, _ => .ok ()

namespace Enroller

variable (S : Services) (refs : Str → List Str) (env : Env) (req : EnrollRequest)

def checks : Except CallErr Wg.Key := do
  check (req.remoteIP == [] || env.allowed) .rateLimited
  checkVersion req.clientVersion S.minVersion
  let pub ← parsePublicKey req.publicKey
  check (req.hostname.length ≤ 63) (.validation .hostname)
  check (req.name == [] || validPeerName req.name) (.validation (.name req.name))
  check (tokenPrefix.isPrefixOf req.token && req.token.length == tokenPrefix.length + 43) .invalidToken
  return pub

def base (tok : Token) : Str :=
  if req.name ≠ [] then req.name else if tok.peerName ≠ [] then tok.peerName else sanitizeName req.hostname

/-- Only a token an admin issued for a name may take one the policy selects. -/
def reserved (tok : Token) (n : Str) : Bool :=
  n == hubName || (!(refs n).isEmpty && (n != tok.peerName || !tok.issuedByAdmin))

def row (tok : Token) (pub : Wg.Key) (ip : Addr) (name : Str) : Peer where
  id := newID env.id
  name := name
  kind := tok.kind
  mode := .agent
  ownerID := tok.ownerID
  tags := tok.tags
  publicKey := Wg.keyString pub
  ipv4 := ip.string
  ipv6 := addrString (ipv6For S.overlay6 ip)
  ipv6Capable := req.ipv6

/-- The transaction: the token is used up and the peer created, or neither. -/
def enrollTx (pub : Wg.Key) (db : Db) : Except CallErr (EnrollResult × Db) := do
  let tok ← found (db.getByHash (S.hashSecret req.token)) .invalidToken
  check (tok.usedAt.isNone && env.now < tok.expiresAt) .invalidToken
  let ip ← (nextAddress S.overlay.masked (allocated db)).mapError .alloc
  let name ← found (uniqueName (db.namesWithPrefix (base req tok)) (base req tok) (reserved refs tok))
    (.noFreeName (base req tok))
  let peer := row S env req tok pub ip name
  let db ← (db.createPeer peer).mapError .store
  let db ← (db.markUsed tok.id peer.id env.now).mapError fun e => if e = .conflict then .invalidToken else .store e
  let (gen, db) := db.incrementGeneration
  return (⟨peer, newSecret env.secret, gen⟩, db)

def enroll (db : Db) : Except CallErr EnrollResult × Db := call env.commits db (checks S env req) (enrollTx S refs env req)

end Enroller

/-! ## `CreateStatic` -/

structure StaticRequest where
  ownerName : Str
  name : Str
  kind : Str := []
  tags : List Str := []

structure StaticResult where
  peer : Peer
  privateKey : Wg.Key
  generation : Int

namespace Registry

variable (S : Services) (refs : Str → List Str) (env : Env) (who : Principal) (req : StaticRequest)

/-- What is checked before the transaction: the owner, the kind and the tags. -/
def staticChecks (db : Db) : Except CallErr (User × Str × List Str) := do
  check S.overlay.isValid .noOverlay
  check (req.ownerName != []) (.validation .noOwner)
  check (who.isAdmin || who.name == req.ownerName) (.forbidden (.peerOwner who.name))
  check (req.name != [] && validPeerName req.name) (.validation (.name req.name))
  check (who.isAdmin || (refs req.name).isEmpty) (.forbidden (.peerName req.name (refs req.name)))
  let kind := if req.kind = [] then kindHuman else req.kind
  validKind kind
  let tags ← normalizeTags [] req.tags
  checkTags env who tags (.peerTag who.name)
  let owner ← found (db.userByName req.ownerName) (.validation (.unknownOwner req.ownerName))
  return (owner, kind, tags)

def staticRow (x : User × Str × List Str) (ip : Addr) : Peer where
  id := newID env.id
  name := req.name
  kind := x.2.1
  mode := .static
  ownerID := x.1.id
  tags := x.2.2
  publicKey := Wg.keyString (S.publicKey env.secret)
  ipv4 := ip.string
  ipv6 := addrString (ipv6For S.overlay6 ip)
  ipv6Capable := (ipv6For S.overlay6 ip).isValid

def createStatic (db : Db) : Except CallErr StaticResult × Db :=
  call env.commits db (staticChecks S refs env who req db) fun x db => do
    let ip ← (nextAddress S.overlay (allocated db)).mapError .alloc
    let peer := staticRow S env req x ip
    let db ← (db.createPeer peer).mapError .store
    let (gen, db) := db.incrementGeneration
    return (⟨peer, env.secret, gen⟩, db)

end Registry

/-! ## What a call that succeeds did -/

structure NewPeer (S : Services) (p : Peer) : Prop where
  id : p.id ≠ []
  name : validPeerName p.name = true
  key : ∃ k, p.publicKey = Wg.keyString k
  address : S.overlay.WellFormed →
    ∃ b, Host S.overlay (.v4 b) ∧ p.ipv4 = (Addr.v4 b).string ∧ p.ipv6 = addrString (ipv6For S.overlay6 (.v4 b))

structure NewToken (who : Principal) (req : TokenRequest) (t : Token) : Prop where
  peerName : t.peerName = req.peerName
  valid : t.peerName = [] ∨ validPeerName t.peerName = true
  issuedByAdmin : t.issuedByAdmin = who.isAdmin
  unused : t.usedAt = none

section

variable {S : Services} {refs : Str → List Str} {env : Env} {who : Principal} {db db' : Db}

theorem Tokens.token_ok {req : TokenRequest} {t : CreatedToken} (h : Tokens.token S refs env who req db = .ok t) :
    NewToken who req t.token := by
  simp only [Tokens.token, bind_ok] at h
  obtain ⟨owner, -, _, -, _, -, tags, -, _, -, _, hname, _, -, _, -, _, -, h⟩ := h
  cases h
  refine ⟨rfl, ?_, rfl, rfl⟩
  simpa using check_ok.mp hname

theorem Tokens.create_ok {req : TokenRequest} {t : CreatedToken} (h : Tokens.create S refs env who req db = (.ok t, db')) :
    NewToken who req t.token ∧ Sql.violates Db.tokenKeys t.token db.tokens = false ∧ db'.peers = db.peers ∧
      db'.tokens = db.tokens ++ [t.token] := by
  obtain ⟨a, hchecks, hbody⟩ := call_ok h
  obtain ⟨db1, hdb, hret⟩ := bind_ok.mp hbody
  cases hret
  obtain ⟨hv, rfl⟩ := Db.createToken_ok (mapError_ok.mp hdb)
  exact ⟨Tokens.token_ok hchecks, hv, rfl, rfl⟩

/-- What both calls that create a peer do with the next address. -/
theorem NewPeer.of_nextAddress {p : Peer} {used : List Addr} {ip : Addr}
    (hip : S.overlay.WellFormed → nextAddress S.overlay used = .ok ip) (hid : p.id ≠ []) (hname : validPeerName p.name = true)
    (hkey : ∃ k, p.publicKey = Wg.keyString k) (h4 : p.ipv4 = ip.string) (h6 : p.ipv6 = addrString (ipv6For S.overlay6 ip)) :
    NewPeer S p := by
  refine ⟨hid, hname, hkey, fun hw => ?_⟩
  obtain ⟨⟨b, rfl⟩, hhost, -⟩ := nextAddress_ok hw (hip hw)
  exact ⟨b, hhost, h4, h6⟩

namespace Enroller

variable {req : EnrollRequest} {tok : Token}

theorem base_valid (hreq : req.name = [] ∨ validPeerName req.name = true)
    (htok : tok.peerName = [] ∨ validPeerName tok.peerName = true) : validLabel (base req tok) = true := by
  unfold base
  split
  · rename_i hne
    exact (Bool.and_eq_true_iff.mp (hreq.resolve_left hne)).1
  · split
    · rename_i hne
      exact (Bool.and_eq_true_iff.mp (htok.resolve_left hne)).1
    · exact sanitizeName_valid req.hostname

/-- Requested, taken from the token, made of the host name or numbered: the name is valid. -/
theorem name_valid {taken : List Str} {n : Str} (hbase : validLabel (base req tok) = true)
    (h : uniqueName taken (base req tok) (reserved refs tok) = some n) : validPeerName n = true := by
  obtain ⟨-, hfree, hn⟩ := uniqueName_some h
  have hhub : n ≠ hubName := by
    intro he
    simp [reserved, he] at hfree
  refine Bool.and_eq_true_iff.mpr ⟨?_, bne_iff_ne.mpr hhub⟩
  rcases hn with rfl | ⟨i, hi, rfl⟩
  · exact hbase
  · exact candidate_valid hbase hi.2

theorem checks_ok {pub : Wg.Key} (h : checks S env req = .ok pub) : req.name = [] ∨ validPeerName req.name = true := by
  simp only [checks, bind_ok] at h
  obtain ⟨_, -, _, -, _, -, _, -, _, hname, -⟩ := h
  simpa using check_ok.mp hname

/-- A peer that enrolled used a token that was neither used nor expired, and has a name that
    was not reserved. -/
theorem enroll_ok {r : EnrollResult} (h : enroll S refs env req db = (.ok r, db'))
    (hnames : ∀ t ∈ db.tokens, t.peerName = [] ∨ validPeerName t.peerName = true) :
    ∃ tok, db.getByHash (S.hashSecret req.token) = some tok ∧ tok.usedAt = none ∧ env.now < tok.expiresAt ∧
      reserved refs tok r.peer.name = false ∧ NewPeer S r.peer ∧ Sql.violates peerKeys r.peer db.peers = false ∧
      db'.peers = Sql.insert byName r.peer db.peers ∧
      db'.tokens = db.tokens.map fun t =>
        if t.id = tok.id ∧ t.usedAt = none then { t with usedAt := some env.now, usedByPeerID := r.peer.id } else t := by
  obtain ⟨pub, hchecks, h⟩ := call_ok h
  simp only [enrollTx, bind_ok, found_ok, check_ok, mapError_ok, exists_const, Bool.and_eq_true, Option.isNone_iff_eq_none,
    decide_eq_true_eq] at h
  obtain ⟨tok, htok, ⟨hunused, htime⟩, ip, hip, name, hname, db1, hcreate, db2, hmark, h⟩ := h
  cases h
  obtain ⟨hv, rfl⟩ := Db.createPeer_ok hcreate
  have hbase := base_valid (checks_ok hchecks) (hnames tok (Db.mem_of_getByHash htok).1)
  have hnew : NewPeer S (row S env req tok pub ip name) :=
    .of_nextAddress (fun hw => nextAddress_masked hw hip) (newID_ne_nil _) (name_valid hbase hname) ⟨pub, rfl⟩ rfl rfl
  rw [Db.markUsed_ok hmark]
  exact ⟨tok, htok, hunused, htime, (uniqueName_some hname).2.1, hnew, hv, rfl, rfl⟩

end Enroller

namespace Registry

variable {req : StaticRequest}

theorem staticChecks_ok {x : User × Str × List Str} (h : staticChecks S refs env who req db = .ok x) :
    validPeerName req.name = true ∧ (who.isAdmin = true ∨ refs req.name = []) := by
  simp only [staticChecks, bind_ok] at h
  obtain ⟨_, -, _, -, _, -, _, hname, _, hrefs, -⟩ := h
  refine ⟨(Bool.and_eq_true_iff.mp (check_ok.mp hname)).2, ?_⟩
  simpa using check_ok.mp hrefs

/-- Only an admin gives a static peer a name the policy selects. -/
theorem createStatic_ok {r : StaticResult} (h : createStatic S refs env who req db = (.ok r, db')) :
    (who.isAdmin = true ∨ refs r.peer.name = []) ∧ NewPeer S r.peer ∧ Sql.violates peerKeys r.peer db.peers = false ∧
      db'.peers = Sql.insert byName r.peer db.peers ∧ db'.tokens = db.tokens := by
  obtain ⟨x, hchecks, h⟩ := call_ok h
  obtain ⟨ip, hip, h⟩ := bind_ok.mp h
  obtain ⟨db1, hcreate, h⟩ := bind_ok.mp h
  cases h
  obtain ⟨hname, hrefs⟩ := staticChecks_ok hchecks
  obtain ⟨hv, rfl⟩ := Db.createPeer_ok (mapError_ok.mp hcreate)
  exact ⟨hrefs, .of_nextAddress (fun _ => mapError_ok.mp hip) (newID_ne_nil _) hname ⟨_, rfl⟩ rfl rfl, hv, rfl, rfl⟩

end Registry

end

end Thawr.Control
