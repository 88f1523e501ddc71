/-
  Thawr.Lock.Encoding — what the canonical bytes of the lock's records determine
  (`internal/lock`: record.go).

  Every lock signature is over `PeerRecord.bytes` or `Record.bytes`. A field is its length and
  its bytes, so a run of fields can be read back whatever follows it (`writeFields_inj`).
  `sorted` uses `sort.Slice`, which may put equal keys in any order; `validate` has refused
  those, so every such sort gives the same bytes or the same error (`bytesBy_eq`).

  - `PeerRecord.bytes_inj`, `Record.bytes_inj`: bytes determine what was encoded, a lock
    record up to the order its signers arrived in.
  - `Record.bytes_perm`: that order never shows in the bytes.
  - `encodings_unambiguous`: all of it, with the two kinds of records kept apart.
-/

import Thawr.Lock.Record

namespace Thawr.Lock

open Go

/-! ## Fields -/

theorem beBytes_inj {n x y : Nat} (hx : x < 256 ^ n) (hy : y < 256 ^ n) (h : beBytes n x = beBytes n y) : x = y := by
  have hnat := congrArg beNat h
  rwa [beNat_beBytes hx, beNat_beBytes hy] at hnat

variable {a msg : Str}

theorem writeField_ok {f : Str} : writeField f = .ok a ↔ f.length ≤ maxField ∧ beBytes 2 f.length ++ f = a := by
  unfold writeField
  grind

/-- The length in front says where a field ends. -/
theorem writeField_inj {f g b x y : Str} (hf : writeField f = .ok a) (hg : writeField g = .ok b)
    (h : a ++ x = b ++ y) : f = g ∧ x = y := by
  obtain ⟨hfl, rfl⟩ := writeField_ok.mp hf
  obtain ⟨hgl, rfl⟩ := writeField_ok.mp hg
  rw [List.append_assoc, List.append_assoc] at h
  obtain ⟨hlen, hrest⟩ := List.append_inj h (by rw [beBytes_length, beBytes_length])
  have hfb : f.length < 256 ^ 2 := Nat.lt_of_le_of_lt hfl (by decide)
  have hgb : g.length < 256 ^ 2 := Nat.lt_of_le_of_lt hgl (by decide)
  exact List.append_inj hrest (beBytes_inj hfb hgb hlen)

theorem writeFields_cons_ok {f : Str} {fs : List Str} :
    writeFields (f :: fs) = .ok a ↔ ∃ b c, writeField f = .ok b ∧ writeFields fs = .ok c ∧ b ++ c = a := by
  constructor
  · intro h
    obtain ⟨b, hb, h⟩ := bind_ok.mp h
    obtain ⟨c, hc, h⟩ := bind_ok.mp h
    exact ⟨b, c, hb, hc, Except.ok.inj h⟩
  · rintro ⟨b, c, hb, hc, rfl⟩
    exact bind_ok.mpr ⟨b, hb, bind_ok.mpr ⟨c, hc, rfl⟩⟩

theorem writeFields_inj {fs gs : List Str} (hn : fs.length = gs.length) {b x y : Str} (hf : writeFields fs = .ok a)
    (hg : writeFields gs = .ok b) (h : a ++ x = b ++ y) : fs = gs ∧ x = y := by
  -- field by field: what follows a field is the rest of the fields and the rest after them
  induction fs generalizing gs a b with
  | nil =>
    obtain rfl := List.length_eq_zero_iff.mp hn.symm
    cases hf
    cases hg
    exact ⟨rfl, h⟩
  | cons f fs ih =>
    cases gs with
    | nil => cases hn
    | cons g gs =>
      obtain ⟨a1, a2, ha1, ha2, rfl⟩ := writeFields_cons_ok.mp hf
      obtain ⟨b1, b2, hb1, hb2, rfl⟩ := writeFields_cons_ok.mp hg
      rw [List.append_assoc, List.append_assoc] at h
      obtain ⟨rfl, hrest⟩ := writeField_inj ha1 hb1 h
      obtain ⟨rfl, hxy⟩ := ih (Nat.succ.inj hn) ha2 hb2 hrest
      exact ⟨rfl, hxy⟩

/-! ## Peer records -/

theorem PeerRecord.bytes_ok {r : PeerRecord} (h : r.bytes = .ok msg) :
    ∃ fields, writeFields [r.id, r.name, r.key.bytes] = .ok fields ∧ peerPrefix ++ fields = msg := by
  obtain ⟨-, h⟩ := ite_error_ok.mp h
  exact map_ok.mp h

theorem PeerRecord.bytes_inj {a b : PeerRecord} (ha : a.bytes = .ok msg) (hb : b.bytes = .ok msg) :
    a = b := by
  obtain ⟨fa, hfa, rfl⟩ := PeerRecord.bytes_ok ha
  obtain ⟨fb, hfb, h⟩ := PeerRecord.bytes_ok hb
  have hfields : fa ++ [] = fb ++ [] := by
    rw [List.append_cancel_left h]
  have hcount : [a.id, a.name, a.key.bytes].length = [b.id, b.name, b.key.bytes].length := rfl
  obtain ⟨hlist, -⟩ := writeFields_inj hcount hfa hfb hfields
  obtain ⟨hid, hname, hkey⟩ : a.id = b.id ∧ a.name = b.name ∧ a.key.bytes = b.key.bytes := by simpa using hlist
  cases a
  cases b
  rw [PeerRecord.mk.injEq]
  exact ⟨hid, hname, Arr.ext hkey⟩

/-! ## Signer lists -/

/-- What `sort.Slice` may do to a list of signers in `sorted`. -/
abbrev SignerSort := SliceSort fun a b : Signer => decide (a.key.bytes < b.key.bytes)

namespace Record

/-- `Record.Bytes` with the sort left open. -/
def bytesBy (S : SignerSort) (r : Record) : Except Err Str := do
  r.validate
  let s := S.run r.signers
  let fields ← writeFields (s.flatMap fun x => [x.key.bytes, x.peerID])
  return lockPrefix ++ beBytes 8 r.generation.toNat ++ [if r.disabled then 1 else 0] ++ beBytes 2 s.length ++ fields

def insertion : SignerSort := .byText fun s : Signer => s.key.bytes

theorem bytesBy_insertion (r : Record) : r.bytesBy insertion = r.bytes := rfl

/-- A signer `validateSigners` lets pass on its own. -/
def Complete (s : Signer) : Prop := s.key ≠ Arr.zero 32 ∧ s.peerID ≠ []

variable {l : List Signer} {r r' : Record} {msg : Str}

/-- What the loop of `validate` lets pass: complete signers, no key and no peer id twice. -/
theorem validateSigners_ok {seen : List PublicKey} {seenPeer : List Str} :
    validateSigners seen seenPeer l = .ok () ↔
      (∀ s ∈ l, Complete s ∧ s.key ∉ seen ∧ s.peerID ∉ seenPeer) ∧ (l.map (·.key)).Nodup ∧ (l.map (·.peerID)).Nodup := by
  induction l generalizing seen seenPeer with
  | nil => simp [validateSigners]
  | cons s rest ih =>
    unfold validateSigners Complete
    by_cases h0 : s.key = Arr.zero 32 ∨ s.peerID = []
    · grind
    · by_cases h1 : s.key ∈ seen
      · grind
      · by_cases h2 : s.peerID ∈ seenPeer
        · grind
        · rw [if_neg h0, if_neg h1, if_neg h2, ih]
          simp only [Complete, List.mem_cons, List.map_cons, List.nodup_cons, List.mem_map]
          grind

structure Valid (r : Record) : Prop where
  few : r.signers.length ≤ maxSigners
  someone : r.disabled = false → r.signers ≠ []
  complete : ∀ s ∈ r.signers, Complete s
  keys : (r.signers.map (·.key)).Nodup
  peers : (r.signers.map (·.peerID)).Nodup

theorem validate_ok : r.validate = .ok () ↔ r.Valid := by
  unfold validate
  by_cases hmany : maxSigners < r.signers.length
  · rw [if_pos hmany]
    constructor
    · intro h
      cases h
    · intro h
      exact absurd h.few (Nat.not_le.mpr hmany)
  · rw [if_neg hmany]
    by_cases hnone : r.disabled = false ∧ r.signers = []
    · rw [if_pos hnone]
      constructor
      · intro h
        cases h
      · intro h
        exact absurd hnone.2 (h.someone hnone.1)
    · rw [if_neg hnone, validateSigners_ok]
      constructor
      · rintro ⟨hall, hkeys, hpeers⟩
        exact ⟨Nat.not_lt.mp hmany, fun hd hs => hnone ⟨hd, hs⟩, fun s hs => (hall s hs).1, hkeys, hpeers⟩
      · intro h
        exact ⟨fun s hs => ⟨h.complete s hs, List.not_mem_nil, List.not_mem_nil⟩, h.keys, h.peers⟩

/-- A record whose signers come in another order is as valid. -/
theorem Valid.perm (h : r.Valid) (hd : r.disabled = r'.disabled) (hs : r.signers.Perm r'.signers) :
    r'.Valid where
  few := hs.length_eq ▸ h.few
  someone hoff hnil := h.someone (hd.trans hoff) (List.perm_nil.mp (hnil ▸ hs))
  complete s hmem := h.complete s (hs.mem_iff.mpr hmem)
  keys := (hs.map _).nodup_iff.mp h.keys
  peers := (hs.map _).nodup_iff.mp h.peers

/-- Distinct keys have one sorted order, whichever sort finds it and whatever order they
    came in. -/
theorem sort_unique {m : List Signer} (hl : (l.map (·.key)).Nodup) (S T : SignerSort) (hlm : l.Perm m) :
    S.run l = T.run m := by
  have hperm : (S.run l).Perm (T.run m) := (S.perm l).trans (hlm.trans (T.perm m).symm)
  have hkey : ∀ a ∈ S.run l, ∀ b ∈ S.run l, a.key = b.key → a = b := by
    intro a ha b hb hab
    exact List.inj_on_of_nodup_map hl (S.mem_iff.mp ha) (S.mem_iff.mp hb) hab
  refine hperm.eq_of_pairwise ?_ (S.sorted l) (T.sorted m)
  intro a b ha hb hab hba
  apply hkey a ha b (hperm.mem_iff.mpr hb)
  have hle : a.key.bytes ≤ b.key.bytes := List.not_lt.mp (of_decide_eq_false hab)
  have hge : b.key.bytes ≤ a.key.bytes := List.not_lt.mp (of_decide_eq_false hba)
  exact Arr.ext (List.le_antisymm hle hge)

theorem bytesBy_ok {S : SignerSort} :
    r.bytesBy S = .ok msg ↔ r.Valid ∧ ∃ fields,
      writeFields ((S.run r.signers).flatMap fun x => [x.key.bytes, x.peerID]) = .ok fields ∧
      lockPrefix ++ (beBytes 8 r.generation.toNat ++ ([if r.disabled then 1 else 0] ++
        (beBytes 2 (S.run r.signers).length ++ fields))) = msg := by
  unfold bytesBy
  constructor
  · intro h
    obtain ⟨_, hv, h⟩ := bind_ok.mp h
    obtain ⟨fields, hf, h⟩ := bind_ok.mp h
    refine ⟨validate_ok.mp hv, fields, hf, ?_⟩
    rw [← Except.ok.inj h]
    simp only [List.append_assoc]
  · rintro ⟨hv, fields, hf, rfl⟩
    rw [validate_ok.mpr hv]
    simp only [bind, Except.bind, hf, pure, Except.pure, List.append_assoc]

/-- The order signers arrived in and the sort that was used never show in the bytes. -/
theorem bytes_perm (S T : SignerSort) (hg : r.generation = r'.generation) (hd : r.disabled = r'.disabled)
    (hs : r.signers.Perm r'.signers) (h : r.bytesBy S = .ok msg) : r'.bytesBy T = .ok msg := by
  obtain ⟨hv, fields, hf, rfl⟩ := bytesBy_ok.mp h
  have hrun : S.run r.signers = T.run r'.signers := sort_unique hv.keys S T hs
  refine bytesBy_ok.mpr ⟨hv.perm hd hs, fields, hrun ▸ hf, ?_⟩
  rw [hrun, hg, hd]

/-- Every sort `sort.Slice` may be gives the canonical bytes, or the same error. -/
theorem bytesBy_eq (S : SignerSort) (r : Record) : r.bytesBy S = r.bytes := by
  rw [← bytesBy_insertion]
  unfold bytesBy
  cases hv : r.validate with
  | error e => rfl
  | ok u => rw [sort_unique (validate_ok.mp hv).keys S insertion (List.Perm.refl _)]

/-- The two fields of a signer. -/
theorem fields_inj {m : List Signer} (hn : l.length = m.length)
    (h : (l.flatMap fun x => [x.key.bytes, x.peerID]) = m.flatMap fun x => [x.key.bytes, x.peerID]) : l = m := by
  induction l generalizing m with
  | nil => exact (List.length_eq_zero_iff.mp hn.symm).symm
  | cons a l ih =>
    cases m with
    | nil => cases hn
    | cons b m =>
      simp only [List.flatMap_cons, List.cons_append, List.nil_append, List.cons.injEq] at h
      obtain ⟨hkey, hpeer, hrest⟩ := h
      obtain rfl := ih (Nat.succ.inj hn) hrest
      cases a
      cases b
      cases Arr.ext hkey
      cases hpeer
      rfl

theorem length_fields (l : List Signer) : (l.flatMap fun x => [x.key.bytes, x.peerID]).length = l.length * 2 := by
  rw [List.length_flatMap]
  simp

/-- The bytes determine the generation, the flag and the sorted signers. -/
theorem bytes_inj {S T : SignerSort} (h : r.bytesBy S = .ok msg) (h' : r'.bytesBy T = .ok msg) :
    r.generation = r'.generation ∧ r.disabled = r'.disabled ∧ S.run r.signers = T.run r'.signers := by
  obtain ⟨hv, fs, hf, rfl⟩ := bytesBy_ok.mp h
  obtain ⟨hv', fs', hf', heq⟩ := bytesBy_ok.mp h'
  obtain ⟨hgen, heq⟩ := List.append_inj (List.append_cancel_left heq) (by rw [beBytes_length, beBytes_length])
  obtain ⟨hflag, heq⟩ := List.append_inj heq rfl
  obtain ⟨hcount, heq⟩ := List.append_inj heq (by rw [beBytes_length, beBytes_length])
  have hlt : ∀ {q : Record} (U : SignerSort), q.Valid → (U.run q.signers).length < 256 ^ 2 := by
    intro q U hq
    rw [(U.perm q.signers).length_eq]
    exact Nat.lt_of_le_of_lt hq.few (by decide)
  have hn : (S.run r.signers).length = (T.run r'.signers).length := beBytes_inj (hlt S hv) (hlt T hv') hcount.symm
  have hfields : fs ++ [] = fs' ++ [] := by rw [heq]
  have hsame := (writeFields_inj (by rw [length_fields, length_fields, hn]) hf hf' hfields).1
  refine ⟨?_, ?_, fields_inj hn hsame⟩
  · exact UInt64.toNat_inj.mp (beBytes_inj r.generation.toNat_lt r'.generation.toNat_lt hgen.symm)
  · cases hd : r.disabled <;> cases hd' : r'.disabled <;> simp_all

end Record

/-! ## The two kinds of records -/

theorem peer_ne_lock {p : PeerRecord} {S : SignerSort} {r : Record} (hp : p.bytes = .ok msg)
    (hr : r.bytesBy S = .ok msg) : False := by
  obtain ⟨fields, -, rfl⟩ := PeerRecord.bytes_ok hp
  obtain ⟨-, fs, -, h⟩ := Record.bytesBy_ok.mp hr
  have hfront : lockPrefix = peerPrefix := (List.append_inj h rfl).1
  exact absurd hfront (by decide +kernel)

/-- Lock encodings are unambiguous. Of two peer records with the same bytes id, name and key
    are the same; of two lock records with the same bytes generation, flag and signer set are,
    and a record that differs only in the order of its signers has the same bytes, whatever
    sort is used on either side; no peer record's bytes are a lock record's. -/
theorem encodings_unambiguous (S T : SignerSort) :
    (∀ (a b : PeerRecord) (msg : Str), a.bytes = .ok msg → b.bytes = .ok msg →
      a.id = b.id ∧ a.name = b.name ∧ a.key = b.key) ∧
    (∀ (r r' : Record) (msg : Str), r.bytesBy S = .ok msg → r'.bytesBy T = .ok msg →
      r.generation = r'.generation ∧ r.disabled = r'.disabled ∧ ∀ s, s ∈ r.signers ↔ s ∈ r'.signers) ∧
    (∀ (r r' : Record) (msg msg' : Str), r.bytesBy S = .ok msg → r'.bytesBy T = .ok msg' →
      r.generation = r'.generation → r.disabled = r'.disabled → (∀ s, s ∈ r.signers ↔ s ∈ r'.signers) → msg = msg') ∧
    (∀ (r r' : Record) (msg : Str), r.bytesBy S = .ok msg → r.generation = r'.generation → r.disabled = r'.disabled →
      r.signers.Perm r'.signers → r'.bytesBy T = .ok msg) ∧
    ∀ (p : PeerRecord) (r : Record) (msg msg' : Str), p.bytes = .ok msg → r.bytesBy S = .ok msg' → msg ≠ msg' := by
  refine ⟨?_, ?_, ?_, ?_, ?_⟩
  · intro a b msg ha hb
    rw [PeerRecord.bytes_inj ha hb]
    exact ⟨rfl, rfl, rfl⟩
  · intro r r' msg h h'
    obtain ⟨hg, hd, hrun⟩ := Record.bytes_inj h h'
    refine ⟨hg, hd, fun s => ?_⟩
    rw [← S.mem_iff, hrun, T.mem_iff]
  · intro r r' msg msg' h h' hg hd hset
    have hv := (Record.bytesBy_ok.mp h).1
    have hv' := (Record.bytesBy_ok.mp h').1
    have hperm : r.signers.Perm r'.signers := (List.perm_ext_iff_of_nodup hv.keys.of_map hv'.keys.of_map).mpr hset
    exact Except.ok.inj ((Record.bytes_perm S T hg hd hperm h).symm.trans h')
  · intro r r' msg h hg hd hperm
    exact Record.bytes_perm S T hg hd hperm h
  · rintro p r msg _ hp hr rfl
    exact peer_ne_lock hp hr

/-- Two signers in either order. -/
theorem encodings_unambiguous_two :
    let s : Signer := ⟨.ofNat 32 1, str "laptop"⟩
    let t : Signer := ⟨.ofNat 32 2, str "phone"⟩
    Record.bytes ⟨3, false, [s, t]⟩ = Record.bytes ⟨3, false, [t, s]⟩ ∧ (Record.bytes ⟨3, false, [s, t]⟩).isOk = true ∧
      (PeerRecord.bytes ⟨str "p1", str "laptop", .ofNat 32 7⟩).isOk = true := by
  intro s t
  obtain ⟨msg, hmsg⟩ : ∃ msg, Record.bytesBy Record.insertion ⟨3, false, [s, t]⟩ = .ok msg := ⟨_, rfl⟩
  have hswap := (encodings_unambiguous Record.insertion Record.insertion).2.2.2.1 ⟨3, false, [s, t]⟩ ⟨3, false, [t, s]⟩ msg
    hmsg rfl rfl (List.Perm.swap t s [])
  rw [Record.bytesBy_insertion] at hmsg hswap
  exact ⟨hmsg.trans hswap.symm, by rw [hmsg]; rfl, by decide +kernel⟩

end Thawr.Lock
