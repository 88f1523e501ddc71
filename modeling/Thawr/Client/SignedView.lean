/-
  Thawr.Client.SignedView — what the server lists as signed and what a client holds.

  Two functions judge a peer's signatures. `ListPeers` tells a signer what is left to sign: it
  takes the rows `IndexSignatures` could parse and checks them over `mustKey` of the stored key
  (`IsSigned`). A client decides what to hold: it parses the key and the signatures of its netmap
  entry, texts that `Build` made of the same rows and the wire carried (`signedBy`).

  Proved (`lists_what_clients_hold`): over the rows of any run of the registry, any signature rows
  and any enabled record, the two give one verdict on the hub and on each peer of a netmap; a
  client with this record pinned holds the hub if it is listed unsigned and, in order, the
  agent peers of its netmap that are listed unsigned, and nothing else.

  A stored key always parses (`RegistryRuns.reach_inv`), and stored ids and names are not
  empty; both matter. Of a text that is no key `mustKey` makes the zero key, where `signedBy`
  refuses; and an entry without an id or name passes the client unheld.
-/

import Thawr.Client.Pins
import Thawr.Control.LockCalls
import Thawr.Control.RegistryRuns

namespace Thawr.Client.SignedView

open Go Netip Lock Control Control.LockService

/-- The netmap as the client has it: sent by the server, received at `now`. -/
def received (nm : Control.NetMap) (now : Int) : NetMap := netMapFromProto (Api.netMapToProto nm) now

/-- The agent rows in the netmap of `me`; `Build` leaves a row without an address out. -/
def agentsSeen (c : Option Policy.Compiled) (t : Store.Tables) (me : Str) : List Store.Peer :=
  t.peers.filter fun p => p.mode == .agent && p.id != me && (parseAddr p.ipv4).isSome && PolicyVisibility.visible c me p.id

def unsigned (list : List LockService.LockPeer) (id : Str) : Bool := list.any fun l => l.id == id && !l.signed

/-- What is held of an entry: the peer id, empty for the hub, the name and the key. -/
def offered (h : HeldStatus) : Str × Str × Str := (h.id, h.name, h.offeredKey)

def offeredHub (hub : LockService.LockPeer) : List (Str × Str × Str) := if hub.signed then [] else [([], hubName, hub.publicKey)]

/-- The list and the client agree on the entries of the netmap `m`. -/
structure Agree (E : Ed25519) (set : Record) (list : List LockService.LockPeer) (hub : LockService.LockPeer)
    (m : NetMap) : Prop where
  listed : ∀ q ∈ m.peers, ∃ l ∈ list, l.id = q.id
  peers : ∀ q ∈ m.peers, ∀ l ∈ list, l.id = q.id → l.signed = signedBy E set q.id q.name q.publicKey q.signatures
  hub : hub.signed = signedBy E set hubID hubID m.hub.publicKey m.hub.signatures

structure Stored (p : Store.Peer) : Prop where
  id : p.id ≠ []
  name : p.name ≠ []
  key : ∃ k, Wg.parseKey p.publicKey = some k

theorem stored_of_reach {S : Services} {s : RegistryRuns.St}
    (h : Conc.Reach RegistryRuns.Start (RegistryRuns.step S) Conc.Always s) {p : Store.Peer} (hp : p ∈ s.db.peers) :
      Stored p where
  id := ((RegistryRuns.reach_inv h).rows p hp).id
  name := (validLabel_iff.mp ((RegistryRuns.reach_inv h).label hp)).1
  key := ((RegistryRuns.reach_inv h).rows p hp).key

theorem key_ne_nil {key : Str} (h : ∃ k, Wg.parseKey key = some k) : key ≠ [] := by
  intro he
  obtain ⟨k, hk⟩ := h
  rw [he] at hk
  cases hk

/-! ## One verdict -/

section

variable {E : Ed25519} {set : Record}

theorem isSigned_iff (hon : set.enabled = true) (rec : PeerRecord) (sigs : List Control.PeerSignature) :
    isSigned E set rec sigs = true ↔ ∃ msg, rec.bytes = .ok msg ∧
      ∃ s ∈ sigs, (∃ x ∈ set.signers, x.key = s.signer) ∧ E.verify s.signer msg s.signature = true := by
  unfold isSigned
  rw [hon]
  cases rec.bytes with
  | error e => simp
  | ok msg => simp [Record.has]

/-- The wire keeps a signature: its texts parse to what they were made of. -/
theorem signedOver_carried {id name : Str} {k : Wg.Key} {sigs : List Control.PeerSignature} :
    SignedOver E set id name k (signaturesFromProto (Api.signaturesToProto sigs)) ↔
      ∃ msg, (PeerRecord.mk id name k).bytes = .ok msg ∧
        ∃ s ∈ sigs, (∃ x ∈ set.signers, x.key = s.signer) ∧ E.verify s.signer msg s.signature = true := by
  unfold SignedOver signaturesFromProto Api.signaturesToProto
  rw [List.map_map]
  constructor
  · intro h
    obtain ⟨y, hy, signer, sig, msg, hsigner, hsig, hlisted, hmsg, hv⟩ := h
    obtain ⟨s, hs, rfl⟩ := List.mem_map.mp hy
    obtain rfl := Option.some.inj ((parsePublicKey_text s.signer).symm.trans hsigner)
    obtain rfl := Option.some.inj ((parseSignature_text s.signature).symm.trans hsig)
    exact ⟨msg, hmsg, s, hs, hlisted, hv⟩
  · intro h
    obtain ⟨msg, hmsg, s, hs, hlisted, hv⟩ := h
    exact ⟨_, List.mem_map_of_mem hs, s.signer, s.signature, msg, parsePublicKey_text _, parseSignature_text _, hlisted, hmsg, hv⟩

theorem isSigned_eq_signedBy (hon : set.enabled = true) {key : Str} (hkey : ∃ k, Wg.parseKey key = some k) (id name : Str)
    (sigs : List Control.PeerSignature) :
    isSigned E set ⟨id, name, mustKey key⟩ sigs = signedBy E set id name key
      (signaturesFromProto (Api.signaturesToProto sigs)) := by
  obtain ⟨k, hk⟩ := hkey
  have hmust : mustKey key = k := by
    unfold mustKey
    rw [hk, Option.getD_some]
  rw [Bool.eq_iff_iff, hmust, isSigned_iff hon, signedBy_iff, ← signedOver_carried]
  grind

/-! ## What a client holds -/

def holds (E : Ed25519) (set : Record) (q : Peer) : Bool := !skips q && !signedBy E set q.id q.name q.publicKey q.signatures

theorem holdEntries_held (now : Int) (prev : List HeldStatus) (l : List Peer) (s : Pass) :
    (l.foldl (holdEntry E set now prev) s).held.map offered =
      s.held.map offered ++ (l.filter (holds E set)).map fun q => (q.id, q.name, q.publicKey) := by
  induction l generalizing s with
  | nil => simp
  | cons q rest ih =>
    rw [List.foldl_cons, ih]
    unfold holdEntry
    by_cases hskip : skips q = true
    · rw [if_pos hskip, List.filter_cons_of_neg (by simp [holds, hskip])]
    · rw [if_neg hskip]
      by_cases hsig : signedBy E set q.id q.name q.publicKey q.signatures = true
      · rw [if_pos hsig, List.filter_cons_of_neg (by simp [holds, hsig])]
      · rw [if_neg hsig, List.filter_cons_of_pos (by simp [holds, hskip, hsig])]
        simp [offered, heldPeer]

theorem holdUnsigned_held (pins : Pins) (m : NetMap) (now : Int) (prev : List HeldStatus) (hhub : m.hub.publicKey ≠ []) :
    (holdUnsigned E pins m set now prev).2.2.map offered =
      (if signedBy E set hubID hubID m.hub.publicKey m.hub.signatures then [] else [([], hubName, m.hub.publicKey)]) ++
        (m.peers.filter (holds E set)).map fun q => (q.id, q.name, q.publicKey) := by
  show (holdPass E pins m set now prev).held.map offered = _
  unfold holdPass
  rw [holdEntries_held]
  congr 1
  unfold holdHub
  rw [if_neg hhub]
  split_ifs with hsig
  · rfl
  · rfl

end

/-! ## The entries of a netmap -/

section

variable {E : Ed25519} {set : Record} {c : Option Policy.Compiled} {t : Store.Tables} {live : Live} {routing : Routing}
  {self p : Store.Peer} {self6 : Addr} {x : Store.Peer × Addr} {reported : Str → Str}

/-- What the client checks and shows of an entry is the row's. -/
theorem entry_of_row (t : Store.Tables) (live : Live) (routing : Routing) (self : Store.Peer) (self6 : Addr)
    (x : Store.Peer × Addr)
    (q : Peer) (hq : q = peerFromProto (Api.peerToProto (netPeer t live routing self self6 x))) :
    q.id = x.1.id ∧ q.name = x.1.name ∧ q.publicKey = x.1.publicKey ∧ q.viaHub = (x.1.mode == .static) ∧
      q.signatures = signaturesFromProto (Api.signaturesToProto
        (indexSignatures t.signatures (x.1.id ++ 0 :: x.1.publicKey))) := by
  subst hq
  unfold netPeer
  cases hm : x.1.mode with
  | agent => simp [hm, peerFromProto, Api.peerToProto]
  | static => simp [hm, peerFromProto, Api.peerToProto]

theorem entry_signed (hon : set.enabled = true) (hx : Stored x.1) {q : Peer}
    (hq : q = peerFromProto (Api.peerToProto (netPeer t live routing self self6 x))) :
    (lockPeer E set t.signatures reported x.1).signed = signedBy E set q.id q.name q.publicKey q.signatures := by
  obtain ⟨hid, hname, hkey, -, hsigs⟩ := entry_of_row t live routing self self6 x q hq
  rw [hid, hname, hkey, hsigs]
  exact isSigned_eq_signedBy hon hx.key x.1.id x.1.name _

theorem entry_holds (hon : set.enabled = true) (hx : Stored x.1) {q : Peer}
    (hq : q = peerFromProto (Api.peerToProto (netPeer t live routing self self6 x))) :
    holds E set q = (x.1.mode == .agent && !(lockPeer E set t.signatures reported x.1).signed) := by
  obtain ⟨hid, hname, hkey, hvia, -⟩ := entry_of_row t live routing self self6 x q hq
  have hskips : skips q = (x.1.mode == .static) := by
    unfold skips
    rw [hid, hname, hkey, hvia, beq_false_of_ne hx.id, beq_false_of_ne hx.name, beq_false_of_ne (key_ne_nil hx.key)]
    simp only [Bool.or_false]
  rw [holds, ← entry_signed hon hx hq, hskips]
  cases x.1.mode with
  | agent => rfl
  | static => rfl

theorem shown_rows (c : Option Policy.Compiled) (t : Store.Tables) (self : Store.Peer) :
    (shown c t self).map (·.1) =
      t.peers.filter fun p => p.id != self.id && (parseAddr p.ipv4).isSome && PolicyVisibility.visible c self.id p.id := by
  unfold shown
  induction t.peers with
  | nil => rfl
  | cons p rest ih => grind

theorem agentsSeen_eq (c : Option Policy.Compiled) (t : Store.Tables) (self : Store.Peer) :
    agentsSeen c t self.id = ((shown c t self).map (·.1)).filter fun p => p.mode == .agent := by
  rw [shown_rows, List.filter_filter]
  unfold agentsSeen
  simp only [Bool.and_assoc]

theorem mem_of_shown (h : x ∈ shown c t self) : x.1 ∈ t.peers := by
  have hx := List.mem_map_of_mem (f := Prod.fst) h
  rw [shown_rows] at hx
  exact (List.mem_filter.mp hx).1

/-- Ids are the rows' primary key: what is listed under one is its row's. -/
theorem unsigned_row (hids : (t.peers.map (·.id)).Nodup) (hp : p ∈ t.peers) :
    unsigned (t.peers.map (lockPeer E set t.signatures reported)) p.id = !(lockPeer E set t.signatures reported p).signed := by
  rw [Bool.eq_iff_iff]
  simp only [unsigned, List.any_map, List.any_eq_true, Function.comp_apply, Bool.and_eq_true, beq_iff_eq]
  constructor
  · intro h
    obtain ⟨q, hq, hid, hs⟩ := h
    rwa [List.inj_on_of_nodup_map hids hq hp hid] at hs
  · intro h
    exact ⟨p, hp, rfl, h⟩

theorem held_rows (hon : set.enabled = true) (hstored : ∀ p ∈ t.peers, Stored p) (hids : (t.peers.map (·.id)).Nodup) :
    (((shown c t self).map fun x => peerFromProto (Api.peerToProto (netPeer t live routing self self6 x))).filter
      (holds E set)).map
        (fun q => (q.id, q.name, q.publicKey)) =
      ((agentsSeen c t self.id).filter fun p => unsigned (t.peers.map (lockPeer E set t.signatures reported)) p.id).map
        fun p => (p.id, p.name, p.publicKey) := by
  rw [agentsSeen_eq, List.filter_filter, List.filter_map, List.filter_map, List.map_map, List.map_map]
  have hfilter : (shown c t self).filter
      (holds E set ∘ fun x => peerFromProto (Api.peerToProto (netPeer t live routing self self6 x))) =
      (shown c t self).filter ((fun p => unsigned (t.peers.map (lockPeer E set t.signatures reported)) p.id && p.mode == .agent) ∘
        fun x => x.1) := by
    refine List.filter_congr fun x hx => ?_
    have hp := mem_of_shown hx
    simp only [Function.comp_apply]
    rw [entry_holds hon (hstored x.1 hp) rfl, unsigned_row hids hp, Bool.and_comm]
  rw [hfilter]
  refine List.map_congr_left fun x _ => ?_
  obtain ⟨hid, hname, hkey, -, -⟩ := entry_of_row t live routing self self6 x _ rfl
  simp only [Function.comp_apply]
  rw [hid, hname, hkey]

end

/-! ## The list and the client -/

theorem received_peers (S : Sorts) (hub : HubConfig) (c : Option Policy.Compiled) (t : Store.Tables) (live : Live)
    (generation : Int)
    (self : Store.Peer) (selfIP : Addr) (rec : Option Signed) (now : Int) :
    ∃ routing self6, (received (netMapOf S hub c t live generation self selfIP rec) now).peers =
      (shown c t self).map fun x => peerFromProto (Api.peerToProto (netPeer t live routing self self6 x)) := by
  refine ⟨PolicyVisibility.routing S c self.id, if (capableIPv6 self).isValid && hub.overlay6.isValid then
    capableIPv6 self else .zero, ?_⟩
  show (((shown c t self).map _).map Api.peerToProto).map peerFromProto = _
  rw [List.map_map, List.map_map]
  rfl

section

variable {E : Ed25519} {set : Record} {S : Sorts} {hub : HubConfig} {c : Option Policy.Compiled} {t : Store.Tables} {live : Live}
  {generation : Int} {self : Store.Peer} {selfIP : Addr} {rec : Option Signed} {now : Int}

theorem hub_signed (hon : set.enabled = true) (hkey : ∃ k, Wg.parseKey hub.publicKey = some k) :
    (lockHub E set t.signatures hub.publicKey).signed =
      signedBy E set hubID hubID (received (netMapOf S hub c t live generation self selfIP rec) now).hub.publicKey
        (received (netMapOf S hub c t live generation self selfIP rec) now).hub.signatures :=
  isSigned_eq_signedBy hon hkey hubID hubID _

theorem netMap_agrees (hon : set.enabled = true) (hstored : ∀ p ∈ t.peers, Stored p) (hids : (t.peers.map (·.id)).Nodup)
    (hkey : ∃ k, Wg.parseKey hub.publicKey = some k) (reported : Str → Str) :
    Agree E set (t.peers.map (lockPeer E set t.signatures reported)) (lockHub E set t.signatures hub.publicKey)
      (received (netMapOf S hub c t live generation self selfIP rec) now) := by
  obtain ⟨routing, self6, hpeers⟩ := received_peers S hub c t live generation self selfIP rec now
  refine ⟨fun q hq => ?_, fun q hq l hl hid => ?_, hub_signed hon hkey⟩
  · rw [hpeers] at hq
    obtain ⟨x, hx, rfl⟩ := List.mem_map.mp hq
    exact ⟨_, List.mem_map_of_mem (mem_of_shown hx), (entry_of_row t live routing self self6 x _ rfl).1.symm⟩
  · rw [hpeers] at hq
    obtain ⟨x, hx, rfl⟩ := List.mem_map.mp hq
    obtain ⟨p, hp, rfl⟩ := List.mem_map.mp hl
    -- the ids are one, so the rows are
    have hpx : p = x.1 :=
      List.inj_on_of_nodup_map hids hp (mem_of_shown hx) (hid.trans (entry_of_row t live routing self self6 x _ rfl).1)
    rw [hpx]
    exact entry_signed hon (hstored x.1 (mem_of_shown hx)) rfl

theorem netMap_held (hon : set.enabled = true) (hstored : ∀ p ∈ t.peers, Stored p) (hids : (t.peers.map (·.id)).Nodup)
    (hkey : ∃ k, Wg.parseKey hub.publicKey = some k) (reported : Str → Str) (pins : Pins) (later : Int) (prev : List HeldStatus) :
    (holdUnsigned E pins (received (netMapOf S hub c t live generation self selfIP rec) now) set later prev).2.2.map offered =
      offeredHub (lockHub E set t.signatures hub.publicKey) ++
        ((agentsSeen c t self.id).filter fun p => unsigned (t.peers.map (lockPeer E set t.signatures reported)) p.id).map
          fun p => (p.id, p.name, p.publicKey) := by
  obtain ⟨routing, self6, hpeers⟩ := received_peers S hub c t live generation self selfIP rec now
  rw [holdUnsigned_held pins _ later prev (key_ne_nil hkey), hpeers, held_rows hon hstored hids, ← hub_signed hon hkey]
  rfl

end

/-- The list and the clients go by one verdict: with the record in force pinned, a client holds
    the hub and the agent peers it sees exactly where `ListPeers` has them unsigned. -/
theorem lists_what_clients_hold {C : Config} {s : RegistryRuns.St}
    (hs : Conc.Reach RegistryRuns.Start (RegistryRuns.step C.services) Conc.Always s)
    {t : Store.Tables} (hrows : t.peers = s.db.peers)
    {cur : Signed} (hcur : loadLockRecord C.services.unmarshal t = .ok (some cur)) (hon : cur.record.enabled = true)
    {hubKey : Wg.Key} (hlisted : C.hubKey = Wg.keyString hubKey)
    {S : Sorts} {hub : HubConfig} (hhub : hub.publicKey = Wg.keyString hubKey) {c : Option Policy.Compiled} {live : Live}
    {generation : Int} {me : Str} {nm : Control.NetMap}
    (hbuild : build S C.services.unmarshal hub c t live generation me = .ok nm) (reported : Str → Str) (now : Int) :
    ∃ list hubPeer, listPeers C reported t = .ok (list, hubPeer) ∧
      Agree C.services.ed25519 cur.record list hubPeer (received nm now) ∧
      ∀ (pins : Pins) (later : Int) (prev : List HeldStatus),
        (holdUnsigned C.services.ed25519 pins (received nm now) cur.record later prev).2.2.map offered =
          offeredHub hubPeer ++ ((agentsSeen c t me).filter fun p => unsigned list p.id).map fun p =>
            (p.id, p.name, p.publicKey) := by
  have hstored : ∀ p ∈ t.peers, Stored p := fun p hp => stored_of_reach hs (hrows ▸ hp)
  have hids : (t.peers.map (·.id)).Nodup := hrows ▸ (RegistryRuns.reach_inv hs).distinct_ids
  have hkey : ∃ k, Wg.parseKey hub.publicKey = some k := ⟨hubKey, hhub ▸ Wg.parseKey_keyString hubKey⟩
  obtain ⟨self, selfIP, rec, -, rfl, -, rfl⟩ := build_ok hbuild
  refine ⟨t.peers.map (lockPeer C.services.ed25519 cur.record t.signatures reported),
    lockHub C.services.ed25519 cur.record t.signatures hub.publicKey, ?_, netMap_agrees hon hstored hids hkey reported,
    netMap_held hon hstored hids hkey reported⟩
  unfold listPeers
  rw [hcur, hlisted, hhub]
  rfl

/-! ## A home with one box left to sign -/

def laptopID : Str := newID (RegistryRuns.homeEnv 1).id

def laptopSigns : Signed := ⟨⟨1, false, [⟨Arr.ofNat 32 7, laptopID⟩]⟩, Arr.zero 64⟩

def homeLock : Config where
  services := { RegistryRuns.homeServices with unmarshal := fun _ => some laptopSigns }
  hubKey := RegistryRuns.homeKey 9
  marshal := fun _ => []

def homeCalls : List RegistryRuns.Ev :=
  [RegistryRuns.issue 1 [], RegistryRuns.join 1 (str "laptop"), RegistryRuns.issue 2 (str "nas"), RegistryRuns.join 2 (str "nas"),
    RegistryRuns.issue 3 [], RegistryRuns.join 3 (str "box"),
    .createStatic (RegistryRuns.homeEnv 4) localAdmin { ownerName := str "alice", name := str "phone" }]

def homeRow (n : Nat) (name ipv4 ipv6 : String) : Store.Peer where
  id := newID (RegistryRuns.homeEnv n).id
  name := str name
  kind := kindHuman
  ownerID := str "u1"
  publicKey := RegistryRuns.homeKey n
  ipv4 := str ipv4
  ipv6 := str ipv6

def homeRows : List Store.Peer :=
  [homeRow 3 "box" "10.0.0.4" "fd00::a00:4", homeRow 1 "laptop" "10.0.0.2" "fd00::a00:2",
    homeRow 2 "nas" "10.0.0.3" "fd00::a00:3",
    { homeRow 4 "phone" "10.0.0.5" "fd00::a00:5" with mode := .static, ipv6Capable := true }]

def signatureRow (id name : Str) (key : Nat) : Store.PeerSignature :=
  signingRow ⟨id, RegistryRuns.homeKey key, Arr.ofNat 32 7,
    Ed25519.sample.sign (Arr.ofNat 32 7) ((PeerRecord.mk id name (Arr.ofNat 32 key)).bytes.toOption.getD [])⟩

def homeTables : Store.Tables where
  peers := homeRows
  users := RegistryRuns.home.db.tables.users
  signatures := [signatureRow hubID hubID 9, signatureRow (newID (RegistryRuns.homeEnv 2).id) (str "nas") 2]
  lockRecord := some []

def homeHub : HubConfig where
  publicKey := RegistryRuns.homeKey 9
  endpoint := str "hub.test:51820"
  address := homeLock.services.overlay.ip.next
  overlay := homeLock.services.overlay

def homeView : Option Policy.Compiled := some (compiled homePolicy homeTables homeLock.services.overlay)

/-- The laptop is listed unsigned itself, and the phone is; of what it sees it holds the box. -/
theorem the_unsigned_box_is_held :
    ∃ nm list hubPeer, build insertionSorts homeLock.services.unmarshal homeHub homeView homeTables {} 0 laptopID = .ok nm ∧
      listPeers homeLock (fun _ => []) homeTables = .ok (list, hubPeer) ∧
      (list.map fun l => (l.name, l.signed)) =
        [(str "box", false), (str "laptop", false), (str "nas", true), (str "phone", false)] ∧
      Agree Ed25519.sample laptopSigns.record list hubPeer (received nm 0) ∧
      ∀ pins, ((holdUnsigned Ed25519.sample pins (received nm 0) laptopSigns.record 5 []).2.2.map offered).map (·.2.1) =
        [str "box"] := by
  obtain ⟨s, hs, hrows⟩ := Option.map_eq_some_iff.mp (show
    (Conc.run (RegistryRuns.step homeLock.services) RegistryRuns.home homeCalls).map (·.db.peers) =
      some homeRows by decide +kernel)
  have hreach : Conc.Reach RegistryRuns.Start (RegistryRuns.step homeLock.services) Conc.Always s :=
    .run (.start RegistryRuns.home_start) _ hs
  have hrows : homeTables.peers = s.db.peers := hrows.symm
  have hcur : loadLockRecord homeLock.services.unmarshal homeTables = .ok (some laptopSigns) := rfl
  have hhub : homeLock.hubKey = Wg.keyString (Arr.ofNat 32 9) := rfl
  have hok : (build insertionSorts homeLock.services.unmarshal homeHub homeView homeTables {} 0 laptopID).isOk = true := by
    decide +kernel
  cases hbuild : build insertionSorts homeLock.services.unmarshal homeHub homeView homeTables {} 0 laptopID with
  | error e =>
    rw [hbuild] at hok
    cases hok
  | ok nm =>
    obtain ⟨list, hubPeer, hlist, hagree, hheld⟩ := lists_what_clients_hold hreach hrows hcur rfl hhub rfl hbuild (fun _ => []) 0
    have hlisted : (listPeers homeLock (fun _ => []) homeTables).toOption.map (fun x => x.1.map fun l => (l.name, l.signed)) =
        some [(str "box", false), (str "laptop", false), (str "nas", true), (str "phone", false)] := by decide +kernel
    have hoffered : (listPeers homeLock (fun _ => []) homeTables).toOption.map (fun x => (offeredHub x.2 ++
        ((agentsSeen homeView homeTables laptopID).filter fun p => unsigned x.1 p.id).map fun p =>
          (p.id, p.name, p.publicKey)).map
          fun y => y.2.1) = some [str "box"] := by decide +kernel
    rw [hlist] at hlisted hoffered
    refine ⟨nm, list, hubPeer, rfl, hlist, Option.some.inj hlisted, hagree, fun pins => ?_⟩
    have hnames := congrArg (List.map fun y : Str × Str × Str => y.2.1) (hheld pins 5 [])
    exact hnames.trans (Option.some.inj hoffered)

end Thawr.Client.SignedView
