/-
  Thawr.Control.FreeNames — whether the name an enrolment picks is free
  (`internal/control/names.go` over `internal/store/peers.go`).

  `uniqueName` asks the store for the names that are the base or start with the base and a
  hyphen, and takes the first candidate that is not among them. A candidate that does not fit a
  label is cut, and a cut candidate no longer starts with the base, so the store never lists it
  (`cut_not_listed`).

  Proved: every name `uniqueName` can return is a label that is free and not reserved, and that
  `Peers.Create` does not refuse, exactly when no registered peer has a cut candidate for its
  name (`uniqueName_free_iff`). Three devices with one host name of 62 letters show it: the
  third is given the second's name (`a_cut_name_is_given_twice`).
-/

import Thawr.Control.Names
import Thawr.Store.Database

namespace Thawr.Control

open Go Store

def registered (db : Db) : List Str := db.peers.map (·.name)

/-- The numbers whose candidate is cut. -/
def IsCut (base : Str) (i : Nat) : Prop := 2 ≤ i ∧ i < 10000 ∧ 63 < (base ++ 45 :: decimal i).length

/-- A registered peer has the value of a unique column other than the name. -/
def OtherKeyTaken (db : Db) (p : Peer) : Prop :=
  ∃ q ∈ db.peers, q.id = p.id ∨ q.publicKey = p.publicKey ∨ q.ipv4 = p.ipv4 ∨ (q.ipv6 ≠ [] ∧ q.ipv6 = p.ipv6)

structure Usable (db : Db) (reserved : Str → Bool) (n : Str) : Prop where
  label : validLabel n = true
  length : n.length ≤ 63
  free : n ∉ registered db
  notReserved : reserved n = false
  /-- `Peers.Create` reports a conflict only for another column. -/
  created : ∀ p : Peer, p.name = n → db.createPeer p = .error .conflict → OtherKeyTaken db p

section

variable {db : Db} {base n : Str} {i : Nat}

theorem candidate_cut (h : 63 < (base ++ 45 :: decimal i).length) :
    candidate base i = base.take (63 - (45 :: decimal i).length) ++ 45 :: decimal i := if_pos h

theorem candidate_whole (h : ¬63 < (base ++ 45 :: decimal i).length) : candidate base i = base ++ 45 :: decimal i := if_neg h

theorem mem_namesWithPrefix : n ∈ db.namesWithPrefix base ↔ n ∈ registered db ∧ (n = base ∨ base ++ [45] <+: n) := by
  unfold Db.namesWithPrefix registered
  rw [List.mem_filter, Bool.or_eq_true, beq_iff_eq, List.isPrefixOf_iff_prefix]

/-- A cut candidate does not start with the base and a hyphen: what is left of the base where it
    is cut would have to be the hyphen of the number and digits, with a hyphen after them. -/
theorem cut_not_listed (hi : i < 10000) (hcut : 63 < (base ++ 45 :: decimal i).length) : ¬base ++ [45] <+: candidate base i := by
  intro h
  rw [candidate_cut hcut, ← List.take_append_drop (63 - (45 :: decimal i).length) base, List.append_assoc] at h
  rw [List.take_append_drop, List.prefix_append_right_inj] at h
  cases hrest : base.drop (63 - (45 :: decimal i).length) with
  | nil =>
    rw [List.drop_eq_nil_iff] at hrest
    have hdigits := decimal_length hi
    simp only [List.length_append, List.length_cons] at hcut hrest
    omega
  | cons c rest =>
    rw [hrest, List.cons_append, List.cons_prefix_cons] at h
    have hmem : (45 : UInt8) ∈ decimal i := h.2.subset (by simp)
    exact absurd (decimal_digits i 45 hmem) (by decide)

/-- A candidate the store does not list though it is registered is a cut one. -/
theorem cut_of_unlisted (hlt : i < 10000) (hi : 2 ≤ i) (hreg : candidate base i ∈ registered db)
    (hfree : candidate base i ∉ db.namesWithPrefix base) : IsCut base i ∧ candidate base i ≠ base := by
  rw [mem_namesWithPrefix, not_and, not_or] at hfree
  obtain ⟨hbase, hstart⟩ := hfree hreg
  refine ⟨⟨hi, hlt, ?_⟩, hbase⟩
  by_contra hwhole
  refine hstart ?_
  rw [candidate_whole hwhole]
  exact ⟨decimal i, by simp⟩

/-- With every name but one reserved, that one is the name picked. -/
theorem uniqueName_only {taken : List Str} (hi : 2 ≤ i) (hlt : i < 10000) (hne : candidate base i ≠ base)
    (hfree : candidate base i ∉ taken) :
    uniqueName taken base (fun n => n != candidate base i) = some (candidate base i) := by
  unfold uniqueName
  simp only
  rw [if_neg (by simp [Ne.symm hne])]
  cases hfind : ((List.range' 2 9998).map (candidate base)).find? fun n => !taken.contains n && !(n != candidate base i) with
  | none => grind
  | some n => grind

/-- `Peers.Create` refuses a row with a free name only for another column. -/
theorem conflict_other {p : Peer} (hfree : p.name ∉ registered db) (h : db.createPeer p = .error .conflict) :
    OtherKeyTaken db p := by
  have hv : Sql.violates peerKeys p db.peers = true := by
    unfold Db.createPeer check at h
    cases hv : Sql.violates peerKeys p db.peers with
    | true => rfl
    | false =>
      rw [hv] at h
      cases hu : p.ownerID == [] || db.userExists p.ownerID with
      | true =>
        rw [hu] at h
        cases h
      | false =>
        rw [hu] at h
        cases h
  obtain ⟨col, hcol, q, hq, hsome, heq⟩ := Sql.violates_true hv
  refine ⟨q, hq, ?_⟩
  simp only [peerKeys, List.mem_cons, List.not_mem_nil, or_false] at hcol
  rcases hcol with rfl | rfl | rfl | rfl | rfl
  · exact .inl (Option.some.inj heq)
  · exact absurd (List.mem_map.mpr ⟨q, hq, Option.some.inj heq⟩) hfree
  · exact .inr (.inl (Option.some.inj heq))
  · exact .inr (.inr (.inl (Option.some.inj heq)))
  · refine .inr (.inr (.inr ?_))
    simp only [nullString] at hsome heq
    grind

theorem uniqueName_free_iff (hbase : validLabel base = true) :
    (∀ reserved n, uniqueName (db.namesWithPrefix base) base reserved = some n → Usable db reserved n) ↔
      ∀ i, IsCut base i → candidate base i ≠ base → candidate base i ∉ registered db := by
  constructor
  · intro h i hcut hne hreg
    obtain ⟨hi, hlt, hlong⟩ := hcut
    refine (h _ _ (uniqueName_only hi hlt hne ?_)).free hreg
    rw [mem_namesWithPrefix, not_and, not_or]
    exact fun _ => ⟨hne, cut_not_listed hlt hlong⟩
  · intro h reserved n hn
    obtain ⟨hfree, hres, hform⟩ := uniqueName_some hn
    have hlabel : validLabel n = true := by
      rcases hform with rfl | ⟨i, hi, rfl⟩
      · exact hbase
      · exact candidate_valid hbase hi.2
    have hnot : n ∉ registered db := by
      intro hreg
      rcases hform with rfl | ⟨i, hi, rfl⟩
      · exact hfree (mem_namesWithPrefix.mpr ⟨hreg, .inl rfl⟩)
      · obtain ⟨hcut, hne⟩ := cut_of_unlisted hi.2 hi.1 hreg hfree
        exact h i hcut hne hreg
    exact ⟨hlabel, (validLabel_iff.mp hlabel).2.2, hnot, hres, fun p hp => conflict_other (hp ▸ hnot)⟩

end

/-! ## A host name of 62 letters -/

def longName : Str := List.replicate 62 97

def device (n : UInt8) (name : Str) : Peer := { id := [n], name := name, publicKey := [n], ipv4 := [n] }

def registryOf (names : List Str) : Db := { tables := { peers := names.mapIdx fun i n => device (UInt8.ofNat i) n } }

/-- The first device gets the name, the second the cut candidate with the number 2, and the
    third the second's name again, with which it cannot be created. -/
theorem a_cut_name_is_given_twice :
    validLabel longName = true ∧
    uniqueName ((registryOf []).namesWithPrefix longName) longName (fun _ => false) = some longName ∧
    uniqueName ((registryOf [longName]).namesWithPrefix longName) longName (fun _ => false) = some (candidate longName 2) ∧
    uniqueName ((registryOf [longName, candidate longName 2]).namesWithPrefix longName) longName (fun _ => false) =
      some (candidate longName 2) ∧
    candidate longName 2 ∈ registered (registryOf [longName, candidate longName 2]) ∧
    (registryOf [longName, candidate longName 2]).createPeer (device 2 (candidate longName 2)) = .error .conflict ∧
    ¬OtherKeyTaken (registryOf [longName, candidate longName 2]) (device 2 (candidate longName 2)) := by
  refine ⟨by decide +kernel, by decide +kernel, by decide +kernel, by decide +kernel, by decide +kernel, by rfl, ?_⟩
  rintro ⟨q, hq, h⟩
  have hrows : (registryOf [longName, candidate longName 2]).peers = [device 0 longName, device 1 (candidate longName 2)] := rfl
  rw [hrows] at hq
  simp only [List.mem_cons, List.not_mem_nil, or_false] at hq
  rcases hq with rfl | rfl
  · simp [device] at h
  · simp [device] at h

/-- A base with room for every number is never cut. -/
theorem uniqueName_free_short :
    uniqueName ((registryOf [str "web", str "web-2"]).namesWithPrefix (str "web")) (str "web") (· == str "web-3") =
      some (str "web-4") ∧
      Usable (registryOf [str "web", str "web-2"]) (· == str "web-3") (str "web-4") := by
  have hname : uniqueName ((registryOf [str "web", str "web-2"]).namesWithPrefix (str "web")) (str "web") (· == str "web-3") =
      some (str "web-4") := by decide +kernel
  refine ⟨hname, (uniqueName_free_iff (by decide)).mpr (fun i hcut => ?_) _ _ hname⟩
  obtain ⟨-, hi, hlong⟩ := hcut
  have hdigits := decimal_length hi
  have hbase : (str "web").length = 3 := rfl
  simp only [List.length_append, List.length_cons, hbase] at hlong
  omega

end Thawr.Control
