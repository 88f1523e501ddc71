/-
  Thawr.Control.Policy.Groups — whom a group stands for
  (`internal/control/policy/compile.go`).

  A member of a group and an owner of a tag are selectors: `Parse` and `Validate` read them
  with `ParseSelector`, which trims white space and takes "user:alice" for "alice".
  `CompileWith` reads the owners of tags the same way, but compares the members of groups with
  user names as they are written.

  Proved: of an accepted policy, the selector of a group matches the peers of its users, and
  the owners of a tag are the users they are read as, for every peer list, exactly when every
  member is written as the bare user name (`groups_mean_users_iff`). A group of "user:alice"
  is accepted, and matches no peer that alice owns (`a_written_out_member_is_not_matched`).
-/

import Thawr.Control.Policy.Validate
import Thawr.Go.Lines

namespace Thawr.Control.Policy

open Go Netip

/-! ## What the members mean -/

/-- A member of the group is read as the user. -/
def Doc.Member (doc : Doc) (g u : Str) : Prop := ∃ m ∈ (doc.groups.lookup g).getD [], parseSelector m false = .ok (.user u)

/-- An owner of the tag is read as the user, or as a group with a member that is. -/
def Doc.TagUser (doc : Doc) (tag u : Str) : Prop :=
  ∃ o ∈ (doc.tagOwners.lookup tag).getD [],
    parseSelector o false = .ok (.user u) ∨ ∃ g, parseSelector o false = .ok (.group g) ∧ doc.Member g u

/-- Groups and tags stand for the users they are read as. -/
structure MeansUsers (p : Policy) (peers : List Peer) (overlay : Prefix) : Prop where
  group : ∀ g i pe, peers[i]? = some pe → ((resolve p.doc peers (.group g)).has i = true ↔ p.doc.Member g pe.owner)
  tag : ∀ user tag, (compileWith p peers overlay).mayUseTag user tag = true ↔ p.doc.TagUser tag user

/-! ## Reading a label -/

theorem label_byte {s : Str} (h : validLabel s = true) : ∀ c ∈ s, (32 < c ∧ c < 127) ∧ c ≠ 58 := by
  intro c hc
  simp only [validLabel, Bool.and_eq_true, List.all_eq_true] at h
  obtain ⟨i, hi⟩ := exists_zipIdx hc
  have hbyte := h.2 _ hi
  simp only [labelByte, isDigit, Bool.or_eq_true, Bool.and_eq_true, decide_eq_true_eq, beq_iff_eq] at hbyte
  grind

theorem nameSelector_user {s u : Str} (h : nameSelector s = .ok (.user u)) :
    validLabel u = true ∧ ((∀ c ∈ s, c ≠ 58) → u = s) := by
  unfold nameSelector at h
  split at h
  · rename_i kind name hcut
    constructor
    · unfold namedSelector at h
      grind
    · intro hs
      rw [cut_none hs] at hcut
      cases hcut
  · split at h
    · rename_i hv
      cases h
      exact ⟨hv, fun _ => rfl⟩
    · cases h

theorem member_label {m u : Str} (h : parseSelector m false = .ok (.user u)) : validLabel u = true :=
  (nameSelector_user (parseSelector_user h)).1

/-- A label that is read as a user is read as itself. -/
theorem label_user {m u : Str} (hm : validLabel m = true) (h : parseSelector m false = .ok (.user u)) : u = m := by
  have hname := parseSelector_user h
  rw [trimSpace_word fun c hc => (label_byte hm c hc).1] at hname
  exact (nameSelector_user hname).2 fun c hc => (label_byte hm c hc).2

/-! ## Members as they are written -/

section

variable {p : Policy} {peers : List Peer} {overlay : Prefix} {g u tag : Str}

theorem members_mem {doc : Doc} {m : Str} (h : m ∈ (doc.groups.lookup g).getD []) :
    ∃ ms, doc.groups.lookup g = some ms ∧ m ∈ ms := by
  cases hg : doc.groups.lookup g with
  | none =>
    rw [hg] at h
    cases h
  | some ms =>
    rw [hg] at h
    exact ⟨ms, rfl, h⟩

/-- Of bare members, those read as a user are the user's name. -/
theorem Doc.Bare.member_iff {doc : Doc} (h : doc.Bare) : doc.Member g u ↔ u ∈ (doc.groups.lookup g).getD [] := by
  constructor
  · intro hm
    obtain ⟨m, hm, hu⟩ := hm
    obtain ⟨ms, hg, hin⟩ := members_mem hm
    rw [h g ms hg m hin] at hu
    cases hu
    exact hm
  · intro hu
    obtain ⟨ms, hg, hin⟩ := members_mem hu
    exact ⟨u, hu, h g ms hg u hin⟩

theorem mem_ownerUsers {doc : Doc} {o : Str} :
    u ∈ ownerUsers doc o ↔
      parseSelector o false = .ok (.user u) ∨ ∃ g, parseSelector o false = .ok (.group g) ∧
        u ∈ (doc.groups.lookup g).getD [] := by
  unfold ownerUsers
  grind

theorem mayUseTag_iff : (compileWith p peers overlay).mayUseTag u tag = true ↔
    ∃ o ∈ (p.doc.tagOwners.lookup tag).getD [], u ∈ ownerUsers p.doc o := by
  simp only [Compiled.mayUseTag, compileWith, List.contains_iff_mem, List.mem_flatMap]

theorem Doc.Bare.means (h : p.doc.Bare) : MeansUsers p peers overlay := by
  constructor
  · intro g i pe hi
    rw [resolve_has hi, h.member_iff]
    simp only [hits, Bool.and_eq_true, bne_iff_ne, List.contains_iff_mem]
    constructor
    · intro hhit
      exact hhit.2
    · intro hin
      -- a peer without an owner is in no group: no member is empty
      obtain ⟨ms, hg, hm⟩ := members_mem hin
      refine ⟨fun hnil => ?_, hin⟩
      have hlabel := member_label (h g ms hg _ hm)
      rw [hnil] at hlabel
      cases hlabel
  · intro user tag
    rw [mayUseTag_iff]
    simp only [Doc.TagUser, mem_ownerUsers, h.member_iff]

/-- What `Parse` accepts as a member is read as a user. -/
theorem Accepted.member {S : RangeSort} {decode : Str → Option Doc} {data : Str} {reg : Registry}
    (h : Accepted S decode data reg p) {ms : List Str} (hg : p.doc.groups.lookup g = some ms) {m : Str} (hm : m ∈ ms) :
    ∃ u, parseSelector m false = .ok (.user u) := by
  obtain ⟨o, ho, hparse⟩ := h.parsed
  obtain ⟨-, hgroups, -⟩ := parseRules_errs (parse_rules hparse)
  exact groupErrs_nil (hgroups _ ((ho.1.mem_iff g ms).mpr hg)) m hm

theorem groups_mean_users_iff {S : RangeSort} {decode : Str → Option Doc} {data : Str} {reg : Registry}
    (h : Accepted S decode data reg p) : (∀ peers overlay, MeansUsers p peers overlay) ↔ p.doc.Bare := by
  constructor
  · intro hmeans g ms hg m hm
    obtain ⟨u, hu⟩ := h.member hg hm
    -- a peer owned by the text of the member is matched, so the text is a user's name
    have hne : m ≠ [] := by
      rintro rfl
      cases hu
    have hhit : hits p.doc (.group g) { id := [], owner := m } = true := by
      simp [hits, hg, hm, hne]
    have hi : [({ id := [], owner := m } : Peer)][0]? = some { id := [], owner := m } := rfl
    obtain ⟨m', -, hm'⟩ := ((hmeans _ Prefix.none).group g 0 _ hi).mp ((resolve_has hi).mpr hhit)
    rw [label_user (member_label hm') hu] at hu
    exact hu
  · intro hbare peers overlay
    exact hbare.means

/-- A group of one member that owns a tag and may reach everything. -/
def crewDoc (member : String) : Doc where
  version := 1
  groups := (∅ : GoMap Str (List Str)).insert (str "crew") [str member]
  tagOwners := (∅ : GoMap Str (List Str)).insert (str "tag:prod") [str "group:crew"]
  acls := [{ action := str "accept", src := [str "group:crew"], dst := [str "*:*"] }]

def crewPolicy (member : String) : Policy := ⟨crewDoc member, (crewDoc member).acls.map (parsedRule rangeSort)⟩

def crewOrders (member : String) : Orders where
  groups := [⟨str "crew", [str member]⟩]
  tags := [⟨str "tag:prod", [str "group:crew"]⟩]

def aliceOnly : Registry := { users := [str "alice"] }

def aliceLaptop : Peer := { id := str "1", owner := str "alice" }

theorem bareCrew_accepted : Accepted rangeSort (fun _ => some (crewDoc "alice")) [] aliceOnly (crewPolicy "alice") :=
  ⟨⟨crewOrders "alice", by decide +kernel, by decide +kernel⟩, ⟨crewOrders "alice", by decide +kernel, by decide +kernel⟩⟩

theorem groups_mean_users_crew :
    (crewDoc "alice").Bare ∧ MeansUsers (crewPolicy "alice") [aliceLaptop] Prefix.none := by
  have hbare : (crewDoc "alice").Bare := by
    intro g ms hg m hm
    have hranges : Ranges (crewDoc "alice").groups (crewOrders "alice").groups := by decide +kernel
    have hmem := (hranges.mem_iff g ms).mpr hg
    simp only [crewOrders, List.mem_singleton, Sigma.mk.injEq, heq_eq_eq] at hmem
    rw [hmem.2, List.mem_singleton] at hm
    rw [hm]
    decide +kernel
  exact ⟨hbare, (groups_mean_users_iff bareCrew_accepted).mpr hbare _ _⟩

/-- "user:alice" is read as the user alice everywhere but in the compiled group. -/
theorem a_written_out_member_is_not_matched :
    Accepted rangeSort (fun _ => some (crewDoc "user:alice")) [] aliceOnly (crewPolicy "user:alice") ∧
      (crewDoc "user:alice").Member (str "crew") aliceLaptop.owner ∧
      (resolve (crewDoc "user:alice") [aliceLaptop] (.group (str "crew"))).has 0 = false ∧
      (crewDoc "user:alice").TagUser (str "tag:prod") (str "alice") ∧
      (compileWith (crewPolicy "user:alice") [aliceLaptop] Prefix.none).mayUseTag (str "alice") (str "tag:prod") = false := by
  have hmember : (crewDoc "user:alice").Member (str "crew") (str "alice") :=
    ⟨str "user:alice", by decide +kernel, by decide +kernel⟩
  exact ⟨⟨⟨crewOrders "user:alice", by decide +kernel, by decide +kernel⟩,
      ⟨crewOrders "user:alice", by decide +kernel, by decide +kernel⟩⟩, hmember, by decide +kernel,
    ⟨str "group:crew", by decide +kernel, .inr ⟨str "crew", by decide +kernel, hmember⟩⟩, by decide +kernel⟩

end

end Thawr.Control.Policy
