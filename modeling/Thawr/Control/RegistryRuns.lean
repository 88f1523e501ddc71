/-
  Thawr.Control.RegistryRuns — runs of the calls that change the registry.

  An event is one call with its arguments, or a reload of the policy; calls are atomic. Two
  logs are kept beside the database: who issued a token for which name, and which token each
  enrollment used and when.

  Proved:
  (1) In every run whose `RotateKey` calls write their key the way `Key.String` does, peers
      have distinct names, keys and addresses, each in its place in the overlays; no token is
      used twice or after it expired; a call that fails changes nothing
      (`registry_sound_canonical`). All but the distinct keys holds in every run
      (`registry_sound`). With another text of a key, a peer can rotate to the key of another peer
      (`rotated_to_used_key`): `RotateKey` stores the text it was sent, and the index compares
      texts.
  (2) In every run a peer gets a name the running policy selects only from an admin's call,
      or with a token an admin issued for that name (`selected_name_granted`).
-/

import Thawr.Conc.Runs
import Thawr.Control.RegistryCalls

namespace Thawr.Control.RegistryRuns

open Go Netip Store Registry

inductive Ev where
  | createToken (env : Env) (who : Principal) (req : TokenRequest)
  | enroll (env : Env) (req : EnrollRequest)
  | createStatic (env : Env) (who : Principal) (req : StaticRequest)
  | rename (env : Env) (who : Principal) (name newName : Str) (force : Bool)
  | rotateKey (env : Env) (id newPublicKey : Str) (signed : Option SignedRotation)
  | setIPv6Capable (env : Env) (id : Str) (capable : Bool)
  | delete (env : Env) (who : Principal) (name : Str)
  | leave (env : Env) (id : Str)
  | reload (policy : Policy.Policy)

structure Issue where
  who : Principal
  peerName : Str
  tokenID : Str

structure Use where
  token : Token
  now : Int

structure St where
  db : Db
  policy : Policy.Policy
  issued : List Issue := []
  used : List Use := []

/-- The error of a call, if any, and the database after it. -/
def outcome {α : Type} (r : Except CallErr α × Db) : Option CallErr × Db :=
  match r with
  | (.error e, db) => (some e, db)
  | (.ok _, db) => (none, db)

def logged {α β : Type} (r : Except CallErr α × Db) (entries : α → List β) : List β :=
  match r with
  | (.error _, _) => []
  | (.ok a, _) => entries a

section

variable (S : Services)

def answer (s : St) : Ev → Option CallErr × Db
  | .createToken env who req => outcome (Tokens.create S s.policy.peerReferences env who req s.db)
  | .enroll env req => outcome (Enroller.enroll S s.policy.peerReferences env req s.db)
  | .createStatic env who req => outcome (createStatic S s.policy.peerReferences env who req s.db)
  | .rename env who name newName force => outcome (rename s.policy.peerReferences env who name newName force s.db)
  | .rotateKey env id newPublicKey signed => outcome (rotateKey S env id newPublicKey signed s.db)
  | .setIPv6Capable env id capable => outcome (setIPv6Capable env id capable s.db)
  | .delete env who name => outcome (delete env who name s.db)
  | .leave env id => outcome (leave env id s.db)
  | .reload _ => (none, s.db)

def issues (s : St) : Ev → List Issue
  | .createToken env who req =>
    logged (Tokens.create S s.policy.peerReferences env who req s.db) fun t => [⟨who, req.peerName, t.token.id⟩]
  | _ => []

def uses (s : St) : Ev → List Use
  | .enroll env req =>
    logged (Enroller.enroll S s.policy.peerReferences env req s.db) fun _ =>
      ((s.db.getByHash (S.hashSecret req.token)).map fun t => ⟨t, env.now⟩).toList
  | _ => []

def nextPolicy (s : St) : Ev → Policy.Policy
  | .reload p => p
  | _ => s.policy

def after (s : St) (e : Ev) : St where
  db := (answer S s e).2
  policy := nextPolicy s e
  issued := issues S s e ++ s.issued
  used := uses S s e ++ s.used

def step (s : St) (e : Ev) : Option St := some (after S s e)

def Start (s : St) : Prop := s.db.peers = [] ∧ s.db.tokens = [] ∧ s.issued = [] ∧ s.used = []

/-- Every key that is rotated to is written as `Key.String` writes it. -/
def canonical (_ : St) : Ev → Bool
  | .rotateKey _ _ newPublicKey _ => (Wg.parseKey newPublicKey).all fun k => Wg.keyString k == newPublicKey
  | _ => true

end

/-! ## What a step can do -/

/-- What a call may change in a row: the name to a valid one, the key to the text of one, or
    whether the client handles IPv6. -/
inductive Edit (key : Str → Prop) (p : Peer) : Peer → Prop where
  | name {n : Str} (h : validPeerName n = true) : Edit key p { p with name := n }
  | publicKey {t : Str} (h : key t) : Edit key p { p with publicKey := t }
  | ipv6Capable (c : Bool) : Edit key p { p with ipv6Capable := c }

/-- The call may give a peer the name `n`, whatever the policy selects. -/
def Permitted (S : Services) (s : St) (n : Str) : Ev → Prop
  | .createStatic _ who _ => who.isAdmin = true
  | .rename _ who _ _ _ => who.isAdmin = true
  | .enroll _ req => ∃ t, s.db.getByHash (S.hashSecret req.token) = some t ∧ t.peerName = n ∧ t.issuedByAdmin = true
  | _ => False

structure Added (S : Services) (s : St) (e : Ev) (p : Peer) : Prop where
  new : NewPeer S p
  name : s.policy.peerReferences p.name = [] ∨ Permitted S s p.name e

structure Effect (S : Services) (key : Str → Prop) (s : St) (e : Ev) (s' : St) : Prop where
  peers : PeerChange (Added S s e) (fun p q => Edit key p q ∧ (q.name = p.name ∨ Permitted S s q.name e)) s.db s'.db.peers
  tokens : TokenChange (fun t => ∃ who req, NewToken who req t ∧ ⟨who, req.peerName, t.id⟩ ∈ s'.issued) s.db s'.db.tokens
  issued : s.issued ⊆ s'.issued
  used : s'.used = s.used ∨ ∃ u, s'.used = u :: s.used ∧ u.token ∈ s.db.tokens ∧ u.token.usedAt = none ∧
    u.now < u.token.expiresAt ∧ ∃ t ∈ s'.db.tokens, t.id = u.token.id ∧ t.usedAt.isSome = true

section

variable {S : Services} {key : Str → Prop} {s : St} {e : Ev}

theorem outcome_error {α : Type} {r : Except CallErr α × Db} {db : Db} {err : CallErr} (hr : ∀ e, r.1 = .error e → r.2 = db)
    (h : (outcome r).1 = some err) : (outcome r).2 = db := by
  obtain ⟨x, db1⟩ := r
  cases x with
  | error e => exact hr e rfl
  | ok a => cases h

/-- A call that fails leaves the registry, the tokens and the generation as they were. -/
theorem answer_error {err : CallErr} (h : (answer S s e).1 = some err) : (answer S s e).2 = s.db := by
  cases e with
  | rename env who name newName force => exact outcome_error (fun _ => rename_error) h
  | reload policy => cases h
  | _ => exact outcome_error (fun _ => call_error) h

theorem outcome_none {α : Type} {r : Except CallErr α × Db} (h : (outcome r).1 = none) : ∃ a, r = (.ok a, (outcome r).2) := by
  obtain ⟨x, db⟩ := r
  cases x with
  | error e => cases h
  | ok a => exact ⟨a, rfl⟩

theorem logged_failed {α β : Type} {r : Except CallErr α × Db} {entries : α → List β} {err : CallErr}
    (h : (outcome r).1 = some err) :
    logged r entries = [] := by
  obtain ⟨x, db⟩ := r
  cases x with
  | error e => rfl
  | ok a => cases h

theorem uses_failed {err : CallErr} (h : (answer S s e).1 = some err) : uses S s e = [] := by
  cases e with
  | enroll env req => exact logged_failed h
  | _ => rfl

/-- An event that adds no token and uses none. -/
theorem Effect.quiet
    (hp : PeerChange (Added S s e) (fun p q => Edit key p q ∧ (q.name = p.name ∨ Permitted S s q.name e)) s.db
      (answer S s e).2.peers)
    (ht : ∃ f, (∀ t : Token, t.Kept (f t)) ∧ (answer S s e).2.tokens = s.db.tokens.map f)
    (hu : uses S s e = []) : Effect S key s e (after S s e) := by
  obtain ⟨f, hf, htokens⟩ := ht
  refine ⟨hp, ?_, fun i hmem => List.mem_append_right _ hmem, .inl (by rw [after, hu]; rfl)⟩
  rw [show (after S s e).db.tokens = _ from htokens]
  exact .update f hf

theorem kept_same {rows : List Token} (h : rows = s.db.tokens) : ∃ f, (∀ t : Token, t.Kept (f t)) ∧ rows = s.db.tokens.map f :=
  ⟨id, Token.Kept.refl, by rw [h, List.map_id]⟩

theorem Effect.failed {err : CallErr} (h : (answer S s e).1 = some err) : Effect S key s e (after S s e) := by
  have hsame := answer_error h
  exact .quiet (hsame ▸ .same) (kept_same (by rw [hsame])) (uses_failed h)

/-- The tokens of a peer that goes lose its id. -/
theorem kept_deleted (id : Str) (t : Token) : t.Kept (if t.usedByPeerID = id then { t with usedByPeerID := [] } else t) := by
  split
  · exact ⟨rfl, rfl, rfl, fun h => h⟩
  · exact .refl t

theorem kept_used (id peerID : Str) (now : Int) (t : Token) :
    t.Kept (if t.id = id ∧ t.usedAt = none then { t with usedAt := some now, usedByPeerID := peerID } else t) := by
  split
  · exact ⟨rfl, rfl, rfl, fun _ => rfl⟩
  · exact .refl t

theorem change_createToken {env : Env} {who : Principal} {req : TokenRequest}
    (herr : (answer S s (.createToken env who req)).1 = none) :
    Effect S key s (.createToken env who req) (after S s (.createToken env who req)) := by
  obtain ⟨t, h⟩ := outcome_none herr
  obtain ⟨hnew, hv, hpeers, htokens⟩ := Tokens.create_ok h
  have hissued : (after S s (.createToken env who req)).issued = ⟨who, req.peerName, t.token.id⟩ :: s.issued := by
    simp only [after, issues]
    rw [h]
    rfl
  refine ⟨hpeers ▸ .same, ?_, fun i hi => hissued ▸ List.mem_cons_of_mem _ hi, .inl rfl⟩
  rw [show (after S s (.createToken env who req)).db.tokens = s.db.tokens ++ [t.token] from htokens]
  exact .add ⟨who, req, hnew, hissued ▸ List.mem_cons_self⟩ hv

theorem change_enroll {env : Env} {req : EnrollRequest} (herr : (answer S s (.enroll env req)).1 = none)
    (hnames : ∀ t ∈ s.db.tokens, t.peerName = [] ∨ validPeerName t.peerName = true) :
    Effect S key s (.enroll env req) (after S s (.enroll env req)) := by
  obtain ⟨r, h⟩ := outcome_none herr
  obtain ⟨tok, htok, hunused, htime, hfree, hnew, hv, hpeers, htokens⟩ := Enroller.enroll_ok h hnames
  have hmem := (Db.mem_of_getByHash htok).1
  have hused : (after S s (.enroll env req)).used = ⟨tok, env.now⟩ :: s.used := by
    simp only [after, uses]
    rw [h, logged, htok]
    rfl
  have htokens : (after S s (.enroll env req)).db.tokens = _ := htokens
  refine ⟨?_, htokens ▸ .update _ (kept_used tok.id r.peer.id env.now), fun i hi => hi,
    .inr ⟨_, hused, hmem, hunused, htime, ?_⟩⟩
  · rw [show (after S s (.enroll env req)).db.peers = Sql.insert byName r.peer s.db.peers from hpeers]
    refine .add ⟨hnew, ?_⟩ hv
    -- a name that is not reserved is not selected, or an admin issued the token for it
    simp only [Enroller.reserved, Bool.or_eq_false_iff, Bool.and_eq_false_iff, Bool.not_eq_false', List.isEmpty_iff,
      bne_eq_false_iff_eq] at hfree
    rcases hfree.2 with hnone | ⟨hname, hadmin⟩
    · exact .inl hnone
    · exact .inr ⟨tok, htok, hname.symm, hadmin⟩
  · rw [htokens]
    refine ⟨_, List.mem_map_of_mem hmem, (kept_used _ _ _ _).id, ?_⟩
    rw [if_pos ⟨rfl, hunused⟩]
    rfl

/-- What every step does. `key` says what is known of the key texts that are rotated to. -/
theorem change (hnames : ∀ t ∈ s.db.tokens, t.peerName = [] ∨ validPeerName t.peerName = true)
    (hkey : ∀ env id t signed k, e = .rotateKey env id t signed → Wg.parseKey t = some k → key t) :
    Effect S key s e (after S s e) := by
  cases herr : (answer S s e).1 with
  | some err => exact .failed herr
  | none =>
    cases e with
    | createToken env who req => exact change_createToken herr
    | enroll env req => exact change_enroll herr hnames
    | createStatic env who req =>
      obtain ⟨r, h⟩ := outcome_none herr
      obtain ⟨hrefs, hnew, hv, hpeers, htokens⟩ := createStatic_ok h
      refine .quiet ?_ (kept_same htokens) rfl
      rw [show (answer S s (.createStatic env who req)).2.peers = Sql.insert byName r.peer s.db.peers from hpeers]
      exact .add ⟨hnew, hrefs.symm⟩ hv
    | rename env who name newName force =>
      obtain ⟨_, h⟩ := outcome_none herr
      obtain ⟨hadmin, hname, hpeers, htokens⟩ := rename_ok h
      refine .quiet (hpeers.imp (fun _ hp => hp) ?_) (kept_same htokens) rfl
      intro p q hq
      exact ⟨hq ▸ .name hname, .inr hadmin⟩
    | rotateKey env id newPublicKey signed =>
      obtain ⟨_, h⟩ := outcome_none herr
      obtain ⟨⟨k, hk⟩, hpeers, htokens, -⟩ := rotateKey_ok h
      refine .quiet (hpeers.imp (fun _ hp => hp) ?_) (kept_same htokens) rfl
      intro p q hq
      exact ⟨hq ▸ .publicKey (hkey _ _ _ _ k rfl hk), .inl (hq ▸ rfl)⟩
    | setIPv6Capable env id capable =>
      obtain ⟨_, h⟩ := outcome_none herr
      obtain ⟨hpeers, htokens⟩ := setIPv6Capable_ok h
      refine .quiet (hpeers.imp (fun _ hp => hp) ?_) (kept_same htokens) rfl
      intro p q hq
      exact ⟨hq ▸ .ipv6Capable capable, .inl (hq ▸ rfl)⟩
    | delete env who name =>
      obtain ⟨_, h⟩ := outcome_none herr
      obtain ⟨id, hpeers, htokens⟩ := delete_ok h
      refine .quiet ?_ ⟨_, kept_deleted id, htokens⟩ rfl
      rw [show (answer S s (.delete env who name)).2.peers = s.db.others id from hpeers]
      exact .remove id
    | leave env id =>
      obtain ⟨_, h⟩ := outcome_none herr
      obtain ⟨hpeers, htokens⟩ := leave_ok h
      refine .quiet ?_ ⟨_, kept_deleted id, htokens⟩ rfl
      rw [show (answer S s (.leave env id)).2.peers = s.db.others id from hpeers]
      exact .remove id
    | reload policy => exact .quiet .same (kept_same rfl) rfl

end

/-! ## What every run keeps -/

structure Row (S : Services) (key : Str → Prop) (p : Peer) : Prop where
  id : p.id ≠ []
  name : validPeerName p.name = true
  key : key p.publicKey
  address : S.overlay.WellFormed →
    ∃ b, Host S.overlay (.v4 b) ∧ p.ipv4 = (Addr.v4 b).string ∧ p.ipv6 = addrString (ipv6For S.overlay6 (.v4 b))

structure Inv (S : Services) (key : Str → Prop) (s : St) : Prop where
  keyed : Keyed s.db.peers
  rows : ∀ p ∈ s.db.peers, Row S key p
  ids : Sql.Unique (fun t : Token => some t.id) s.db.tokens
  peerNames : ∀ t ∈ s.db.tokens, t.peerName = [] ∨ validPeerName t.peerName = true
  issued : ∀ t ∈ s.db.tokens, t.issuedByAdmin = true →
    ∃ i ∈ s.issued, i.tokenID = t.id ∧ i.peerName = t.peerName ∧ i.who.isAdmin = true
  once : (s.used.map (·.token.id)).Nodup
  marked : ∀ u ∈ s.used, ∃ t ∈ s.db.tokens, t.id = u.token.id ∧ t.usedAt.isSome = true
  inTime : ∀ u ∈ s.used, u.now < u.token.expiresAt

section

variable {S : Services} {key : Str → Prop} {s s' : St} {e : Ev}

theorem Inv.start (h : Start s) : Inv S key s := by
  obtain ⟨hp, ht, hi, hu⟩ := h
  constructor
  · rw [hp]
    exact ⟨.nil, fun _ _ _ h => nomatch h⟩
  all_goals simp [hp, ht, hu, Sql.Unique]

theorem Edit.row {p q : Peer} (h : Edit key p q) (hp : Row S key p) : Row S key q := by
  cases h with
  | name hn => exact ⟨hp.id, hn, hp.key, hp.address⟩
  | publicKey hk => exact ⟨hp.id, hp.name, hk, hp.address⟩
  | ipv6Capable c => exact ⟨hp.id, hp.name, hp.key, hp.address⟩

theorem Inv.step (h : Inv S key s) (he : Effect S key s e s') (hcanon : ∀ k, key (Wg.keyString k)) : Inv S key s' where
  keyed := he.peers.keyed h.keyed
  rows := by
    refine he.peers.keeps (fun p hp => ?_) (fun p q hp hq => hq.1.row hp) h.rows
    obtain ⟨k, hk⟩ := hp.new.key
    exact ⟨hp.new.id, hp.new.name, hk ▸ hcanon k, hp.new.address⟩
  ids := he.tokens.ids h.ids
  peerNames := by
    refine he.tokens.keeps ?_ (fun t u ht hu => hu.peerName ▸ ht) h.peerNames
    intro t ⟨who, req, hnew, _⟩
    exact hnew.valid
  issued := by
    refine he.tokens.keeps ?_ ?_ fun t ht => ?_
    · intro t ⟨who, req, hnew, hi⟩ hadmin
      exact ⟨_, hi, rfl, hnew.peerName.symm, hnew.issuedByAdmin ▸ hadmin⟩
    · intro t u ht hu hadmin
      rw [hu.id, hu.peerName]
      exact ht (hu.issuedByAdmin ▸ hadmin)
    · intro hadmin
      obtain ⟨i, hi, hrest⟩ := h.issued t ht hadmin
      exact ⟨i, he.issued hi, hrest⟩
  once := by
    rcases he.used with hu | ⟨u, hu, hmem, hunused, -, -⟩
    · exact hu ▸ h.once
    · rw [hu, List.map_cons, List.nodup_cons]
      refine ⟨fun hin => ?_, h.once⟩
      -- a token used before is marked, and the id is its alone
      obtain ⟨v, hv, hid⟩ := List.mem_map.mp hin
      obtain ⟨t, ht, htid, hmarked⟩ := h.marked v hv
      have heq : t = u.token := h.ids t ht u.token hmem rfl (congrArg some (htid.trans hid))
      rw [heq, hunused] at hmarked
      cases hmarked
  marked := by
    have hold : ∀ u ∈ s.used, ∃ t ∈ s'.db.tokens, t.id = u.token.id ∧ t.usedAt.isSome = true := by
      intro u hu
      obtain ⟨t, ht, hid, hmarked⟩ := h.marked u hu
      obtain ⟨t', ht', hkept⟩ := he.tokens.mem ht
      exact ⟨t', ht', hkept.id.trans hid, hkept.usedAt hmarked⟩
    rcases he.used with hu | ⟨u, hu, -, -, -, hmarked⟩
    · exact hu ▸ hold
    · rw [hu]
      exact List.forall_mem_cons.mpr ⟨hmarked, hold⟩
  inTime := by
    rcases he.used with hu | ⟨u, hu, -, -, htime, -⟩
    · exact hu ▸ h.inTime
    · rw [hu]
      exact List.forall_mem_cons.mpr ⟨htime, h.inTime⟩

def KeyText (t : Str) : Prop := ∃ k, Wg.parseKey t = some k

def CanonicalText (t : Str) : Prop := ∃ k, t = Wg.keyString k

theorem Inv.effect {e : Ev} (h : Inv S KeyText s) : Effect S KeyText s e (after S s e) :=
  change h.peerNames fun _ _ _ _ k _ hk => ⟨k, hk⟩

theorem reach_inv (h : Conc.Reach Start (step S) Conc.Always s) : Inv S KeyText s := by
  refine h.inv (fun s hs => .start hs) fun s e s' hi _ hs => ?_
  cases hs
  exact hi.step hi.effect fun k => ⟨k, Wg.parseKey_keyString k⟩

theorem reach_canonical (h : Conc.Reach Start (step S) (Conc.Holds canonical) s) : Inv S CanonicalText s := by
  refine h.inv (fun s hs => .start hs) fun s e s' hi hok hs => ?_
  cases hs
  refine hi.step (change hi.peerNames fun env id t signed k he hk => ⟨k, ?_⟩) fun k => ⟨k, rfl⟩
  subst he
  have hc : (Wg.parseKey t).all (fun k => Wg.keyString k == t) = true := hok
  rw [hk] at hc
  exact (beq_iff_eq.mp hc).symm

end

/-! ## The registry is sound -/

/-- No two peers have one key, however it is written. -/
def DistinctKeys (s : St) : Prop := s.db.peers.Pairwise fun p q => Wg.parseKey p.publicKey ≠ Wg.parseKey q.publicKey

structure Sound (S : Services) (s : St) : Prop where
  names : s.db.peers.Pairwise fun p q => p.name ≠ q.name
  ipv4 : s.db.peers.Pairwise fun p q => parseAddr p.ipv4 ≠ parseAddr q.ipv4
  ipv6 : s.db.peers.Pairwise fun p q => parseAddr p.ipv6 ≠ parseAddr q.ipv6
  labels : ∀ p ∈ s.db.peers, validLabel p.name = true ∧ p.name ≠ hubName
  addresses : ∀ p ∈ s.db.peers, ∃ a, parseAddr p.ipv4 = some a ∧ S.overlay.contains a = true ∧ a ≠ S.overlay.masked.ip ∧
    a ≠ S.overlay.masked.ip.next ∧ a ≠ lastAddr S.overlay.masked ∧ (ipv6For S.overlay6 a).isValid = true ∧
    parseAddr p.ipv6 = some (ipv6For S.overlay6 a)
  tokens : (s.used.map (·.token.id)).Nodup ∧ ∀ u ∈ s.used, u.now < u.token.expiresAt
  failures : ∀ e err, (answer S s e).1 = some err → (answer S s e).2 = s.db

section

variable {S : Services} {key : Str → Prop} {s : St}

/-- Rows that agree in a unique column are one row. -/
theorem Inv.eq_of_column (h : Inv S key s) {p q : Peer} (hp : p ∈ s.db.peers) (hq : q ∈ s.db.peers) (col : Peer → Option Str)
    (hcol : col ∈ peerKeys) {v : Str} (hpv : col p = some v) (hqv : col q = some v) : p = q :=
  h.keyed.unique col hcol p hp q hq (by rw [hpv]; rfl) (hpv.trans hqv.symm)

/-- Rows that differ in a column whenever they are two rows. -/
theorem Inv.pairwise (h : Inv S key s) {R : Peer → Peer → Prop}
    (hR : ∀ p ∈ s.db.peers, ∀ q ∈ s.db.peers, p ≠ q → R p q) : s.db.peers.Pairwise R := by
  refine h.keyed.sorted.imp_of_mem fun {p q} hp hq hlt => hR p hp q hq ?_
  intro he
  rw [he] at hlt
  exact List.lt_irrefl _ hlt

structure At (S : Services) (p : Peer) (b : Arr 4) : Prop where
  host : Host S.overlay (.v4 b)
  text : p.ipv4 = (Addr.v4 b).string
  ipv4 : parseAddr p.ipv4 = some (.v4 b)
  ipv6 : parseAddr p.ipv6 = some (ipv6For S.overlay6 (.v4 b))
  valid : (ipv6For S.overlay6 (.v4 b)).isValid = true

theorem Inv.placed (h : Inv S key s) (hw : S.overlay.WellFormed) (h6 : Is64 S.overlay6) {p : Peer} (hp : p ∈ s.db.peers) :
    ∃ b, At S p b := by
  obtain ⟨b, hhost, h4, hv6⟩ := (h.rows p hp).address hw
  obtain ⟨c, hc, -⟩ := h6.ipv6For b
  have hvalid : (ipv6For S.overlay6 (.v4 b)).isValid = true := by
    rw [hc]
    rfl
  rw [addrString, if_pos hvalid] at hv6
  exact ⟨b, hhost, h4, by rw [h4, parseAddr_string_v4], by rw [hv6, h6.parse b], hvalid⟩

/-- Peers with one address are one peer, in either family. -/
theorem Inv.eq_of_address (h : Inv S key s) (hw : S.overlay.WellFormed) (h6 : Is64 S.overlay6) {p q : Peer} (hp : p ∈ s.db.peers)
    (hq : q ∈ s.db.peers) (he : parseAddr p.ipv4 = parseAddr q.ipv4 ∨ parseAddr p.ipv6 = parseAddr q.ipv6) : p = q := by
  obtain ⟨b, hb⟩ := h.placed hw h6 hp
  obtain ⟨c, hc⟩ := h.placed hw h6 hq
  have hbc : b = c := by
    rcases he with he | he
    · rw [hb.ipv4, hc.ipv4, Option.some_inj] at he
      injection he
    · rw [hb.ipv6, hc.ipv6, Option.some_inj] at he
      exact ipv6For_inj hb.valid he
  exact h.eq_of_column hp hq (fun p => some p.ipv4) (by simp [peerKeys]) rfl (by rw [hb.text, hc.text, hbc])

theorem Inv.eq_of_name (h : Inv S key s) {p q : Peer} (hp : p ∈ s.db.peers) (hq : q ∈ s.db.peers)
    (he : p.name = q.name) : p = q :=
  h.eq_of_column hp hq (fun p => some p.name) (by simp [peerKeys]) rfl (congrArg some he.symm)

theorem Inv.label (h : Inv S key s) {p : Peer} (hp : p ∈ s.db.peers) : validLabel p.name = true :=
  (Bool.and_eq_true_iff.mp (h.rows p hp).name).1

theorem Inv.distinct_ids (h : Inv S key s) : (s.db.peers.map (·.id)).Nodup := by
  rw [List.Nodup, List.pairwise_map]
  refine h.pairwise fun p hp q hq hne he => hne ?_
  exact h.eq_of_column hp hq (fun p => some p.id) (by simp [peerKeys]) rfl (congrArg some he.symm)

/-- Peers with one key have one text of it. -/
theorem Inv.keys (h : Inv S CanonicalText s) {p q : Peer} (hp : p ∈ s.db.peers) (hq : q ∈ s.db.peers)
    (he : Wg.parseKey p.publicKey = Wg.parseKey q.publicKey) : p = q := by
  obtain ⟨k, hk⟩ := (h.rows p hp).key
  obtain ⟨l, hl⟩ := (h.rows q hq).key
  rw [hk, hl, Wg.parseKey_keyString, Wg.parseKey_keyString, Option.some_inj] at he
  exact h.eq_of_column hp hq (fun p => some p.publicKey) (by simp [peerKeys]) rfl (by rw [hk, hl, he])

theorem Inv.sound (h : Inv S key s) (hw : S.overlay.WellFormed) (h6 : Is64 S.overlay6) : Sound S s where
  names := h.pairwise fun _ hp _ hq hne he => hne (h.eq_of_name hp hq he)
  ipv4 := h.pairwise fun _ hp _ hq hne he => hne (h.eq_of_address hw h6 hp hq (.inl he))
  ipv6 := h.pairwise fun _ hp _ hq hne he => hne (h.eq_of_address hw h6 hp hq (.inr he))
  labels := by
    intro p hp
    exact ⟨h.label hp, bne_iff_ne.mp (Bool.and_eq_true_iff.mp (h.rows p hp).name).2⟩
  addresses := by
    intro p hp
    obtain ⟨b, hb⟩ := h.placed hw h6 hp
    obtain ⟨hnet, hhub, hlast⟩ := hb.host.ne
    exact ⟨.v4 b, hb.ipv4, hb.host.1, hnet, hhub, hlast, hb.valid, hb.ipv6⟩
  tokens := ⟨h.once, h.inTime⟩
  failures := fun _ _ => answer_error

/-- All but the distinct keys holds in every run. -/
theorem registry_sound (hw : S.overlay.WellFormed) (h6 : Is64 S.overlay6)
    (h : Conc.Reach Start (step S) Conc.Always s) : Sound S s :=
  (reach_inv h).sound hw h6

theorem registry_sound_canonical (hw : S.overlay.WellFormed) (h6 : Is64 S.overlay6)
    (h : Conc.Reach Start (step S) (Conc.Holds canonical) s) : Sound S s ∧ DistinctKeys s := by
  have hi := reach_canonical h
  exact ⟨hi.sound hw h6, hi.pairwise fun p hp q hq hne he => hne (hi.keys hp hq he)⟩

end

/-! ## Two devices of one user -/

def homeServices : Services where
  overlay := (parsePrefix (str "10.0.0.0/24")).getD .none
  overlay6 := (parsePrefix (str "fd00::/64")).getD .none
  hashSecret := id
  publicKey := id
  ed25519 := Lock.Ed25519.sample
  unmarshal := fun _ => none

def homeEnv (n : Nat) : Env := { now := n, id := Arr.ofNat 16 (n * 2 ^ 96), secret := Arr.ofNat 32 n }

def homeKey (n : Nat) : Str := Wg.keyString (Arr.ofNat 32 n)

def selecting (name : Str) : Policy.Policy := ⟨{}, [⟨[.peer name], [], .any⟩]⟩

/-- An empty registry with one user, under a policy that selects `peer:nas`. -/
def home : St where
  db := { tables := { users := [⟨str "u1", str "alice"⟩] } }
  policy := selecting (str "nas")

/-- The socket issues the `n`-th token, for a peer name if one is given. -/
def issue (n : Nat) (peerName : Str) : Ev :=
  .createToken (homeEnv n) localAdmin { ownerName := str "alice", kind := kindHuman, peerName := peerName }

def join (n : Nat) (hostname : Str) : Ev :=
  .enroll (homeEnv n) { token := tokenPrefix ++ newSecret (Arr.ofNat 32 n), publicKey := homeKey n, hostname := hostname }

def homeRun (rotated : Str) : List Ev :=
  [issue 1 [], join 1 (str "laptop"), issue 2 (str "nas"), join 2 (str "box"),
    .rotateKey (homeEnv 3) (newID (homeEnv 2).id) rotated none]

theorem homeServices_fit : homeServices.overlay.WellFormed ∧ Is64 homeServices.overlay6 := by
  refine ⟨fun _ => by decide +kernel, ?_⟩
  unfold Is64
  decide +kernel

theorem home_start : Start home := ⟨rfl, rfl, rfl, rfl⟩

/-- A line feed after the key of another peer: the text is new, the key is not. -/
theorem rotated_to_used_key :
    homeServices.overlay.WellFormed ∧ Is64 homeServices.overlay6 ∧
      ∃ s, Conc.Reach Start (step homeServices) Conc.Always s ∧ s.db.peers.length = 2 ∧ ¬DistinctKeys s := by
  refine ⟨homeServices_fit.1, homeServices_fit.2, ?_⟩
  have hkeys : ((Conc.run (step homeServices) home (homeRun (homeKey 1 ++ [10]))).map fun s =>
      s.db.peers.map fun p => Wg.parseKey p.publicKey) = some [some (Arr.ofNat 32 1), some (Arr.ofNat 32 1)] := by
    decide +kernel
  obtain ⟨s, hs, hkeys⟩ := Option.map_eq_some_iff.mp hkeys
  refine ⟨s, .run (.start home_start) _ hs, ?_, fun hd => ?_⟩
  · have hlen := congrArg List.length hkeys
    rwa [List.length_map] at hlen
  · have hd := List.pairwise_map.mpr hd
    rw [hkeys] at hd
    simp at hd

theorem home_sound_canonical :
    ∃ s, Conc.Reach Start (step homeServices) (Conc.Holds canonical) s ∧ s.db.peers.length = 2 ∧ Sound homeServices s ∧
      DistinctKeys s := by
  have hlen : ((Conc.run (Conc.guarded canonical (step homeServices)) home (homeRun (homeKey 3))).map fun s =>
    s.db.peers.length) =
      some 2 := by decide +kernel
  obtain ⟨s, hs, hlen⟩ := Option.map_eq_some_iff.mp hlen
  have hr : Conc.Reach Start (step homeServices) (Conc.Holds canonical) s := .run_guarded (.start home_start) _ hs
  exact ⟨s, hr, hlen, registry_sound_canonical homeServices_fit.1 homeServices_fit.2 hr⟩

/-! ## Names the policy selects -/

/-- An admin made the call, or an admin issued its token for exactly this name. -/
def Granted (S : Services) (s : St) (n : Str) : Ev → Prop
  | .createStatic _ who _ => who.isAdmin = true
  | .rename _ who _ _ _ => who.isAdmin = true
  | .enroll _ req => ∃ t, s.db.getByHash (S.hashSecret req.token) = some t ∧ t.peerName = n ∧
      ∃ i ∈ s.issued, i.tokenID = t.id ∧ i.peerName = n ∧ i.who.isAdmin = true
  | _ => False

section

variable {S : Services} {key : Str → Prop} {s s' : St} {e : Ev} {n : Str}

/-- The flag of a token says who issued it. -/
theorem Inv.granted (h : Inv S key s) (hp : Permitted S s n e) : Granted S s n e := by
  cases e with
  | createStatic env who req => exact hp
  | rename env who name newName force => exact hp
  | enroll env req =>
    obtain ⟨t, ht, hname, hadmin⟩ := hp
    obtain ⟨i, hi, hid, hpeer, hwho⟩ := h.issued t (Db.mem_of_getByHash ht).1 hadmin
    exact ⟨t, ht, hname, i, hi, hid, hpeer.trans hname, hwho⟩
  | _ => exact hp.elim

theorem selected_name_granted {p : Peer} (h : Conc.Reach Start (step S) Conc.Always s) (hs : step S s e = some s')
    (hp : p ∈ s'.db.peers) (hnew : ∀ q ∈ s.db.peers, q.id = p.id → q.name ≠ p.name) (hsel : s.policy.Selects p.name) :
    Granted S s p.name e := by
  have hi := reach_inv h
  cases hs
  rcases hi.effect.peers.acquired hp hnew with hadded | ⟨q, -, ⟨-, hname⟩, hne⟩
  · rcases hadded.name with hnone | hperm
    · exact absurd hsel (Policy.peerReferences_nil.mp hnone)
    · exact hi.granted hperm
  · rcases hname with hsame | hperm
    · exact absurd hsame.symm hne
    · exact hi.granted hperm

end

/-- The device the socket issued a token for takes the name the policy selects. -/
theorem home_nas_granted :
    ∃ s s' p, Conc.Reach Start (step homeServices) Conc.Always s ∧ step homeServices s (join 2 (str "box")) = some s' ∧
      p ∈ s'.db.peers ∧ s.policy.Selects p.name ∧ Granted homeServices s p.name (join 2 (str "box")) := by
  have hrun : ((Conc.run (step homeServices) home ((homeRun []).take 3)).map fun s =>
      (s.db.peers.map (·.name), s.policy.peerReferences (str "nas"),
        (after homeServices s (join 2 (str "box"))).db.peers.map (·.name))) =
      some ([str "laptop"], [str "acls[0].src[0]"], [str "laptop", str "nas"]) := by decide +kernel
  obtain ⟨s, hs, heq⟩ := Option.map_eq_some_iff.mp hrun
  simp only [Prod.mk.injEq] at heq
  obtain ⟨hbefore, hrefs, hafter⟩ := heq
  obtain ⟨p, hp, hname⟩ : ∃ p ∈ (after homeServices s (join 2 (str "box"))).db.peers, p.name = str "nas" := by
    rw [← List.mem_map, hafter]
    decide
  have hsel : s.policy.Selects p.name := by
    by_contra hn
    rw [hname, ← Policy.peerReferences_nil, hrefs] at hn
    cases hn
  have hr : Conc.Reach Start (step homeServices) Conc.Always s := .run (.start home_start) _ hs
  refine ⟨s, _, p, hr, rfl, hp, hsel, selected_name_granted hr rfl hp (fun q hq _ he => ?_) hsel⟩
  have hq := List.mem_map_of_mem (f := (·.name)) hq
  rw [hbefore, he, hname] at hq
  exact absurd hq (by decide)

end Thawr.Control.RegistryRuns
