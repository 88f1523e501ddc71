/-
  Thawr.Control.Policy.Validate — a policy checked against the registry
  (`internal/control/policy/validate.go`).

  An unknown user or group is an error, a tag or peer that nobody has yet a warning. An IPv4
  prefix of a rule is meant to lie inside the overlay, where it selects peers, or outside it,
  where it is a subnet route; what is checked is that the overlay contains the prefix's
  address if the two overlap.

  Proved: the policy is accepted exactly when every name it uses is known and every prefix
  passes (`validate_ok`), in whatever order the maps are visited; of an accepted policy, an
  IPv4 prefix lies inside the overlay or outside it exactly when it is not a shorter prefix
  whose address is in the overlay (`prefixes_unambiguous_iff`). A shorter prefix with the
  overlay's own base address is accepted, contains the overlay and is no route
  (`a_prefix_around_the_overlay_is_accepted`).
-/

import Thawr.Control.Policy.Pairs

namespace Thawr.Control.Policy

open Go Netip

/-! ## The check -/

structure Registry where
  users : List Str := []
  peers : List Str := []
  /-- As peers carry them, with "tag:". -/
  tags : List Str := []
  overlay : Prefix := .none
  overlay6 : Prefix := .none

/-- Where in the document a selector stands. -/
inductive Field where
  /-- "tagOwners.%s[%d]" -/
  | tagOwner (tag : Str) (i : Nat)
  /-- "acls[%d].src[%d]" -/
  | src (i j : Nat)
  /-- "acls[%d].dst[%d]" -/
  | dst (i j : Nat)
  deriving DecidableEq

inductive RegistryErr where
  /-- "groups.%s[%d]: unknown user %q" -/
  | groupUser (name : Str) (i : Nat) (user : Str)
  /-- "%s: unknown user %q" -/
  | user (field : Field) (name : Str)
  /-- "%s: unknown group %q" -/
  | group (field : Field) (name : Str)
  /-- "%s: %s is outside the IPv6 overlay %s; IPv6 subnet routes are not supported" -/
  | outside6 (field : Field) (p overlay6 : Prefix)
  /-- "%s: %s overlaps the overlay %s" -/
  | overlaps (field : Field) (p overlay : Prefix)
  deriving DecidableEq

inductive Warning where
  /-- "%s: no peer carries tag:%s yet" -/
  | noTag (field : Field) (name : Str)
  /-- "%s: no peer named %q yet" -/
  | noPeer (field : Field) (name : Str)

structure Report where
  warnings : List Warning := []
  errs : List RegistryErr := []

def Report.all (l : List Report) : Report := ⟨l.flatMap (·.warnings), l.flatMap (·.errs)⟩

def Selector.name : Selector → Str
  | .user name => name
  | .group name => name
  | .tag name => name
  | .peer name => name
  | _ => []

def checkMember (reg : Registry) (group : Str) (m : Str × Nat) : Report :=
  match parseSelector m.1 false with
  | .ok sel => if reg.users.contains sel.name then {} else { errs := [.groupUser group m.2 sel.name] }
  | .error _ => {}

/-- An IPv6 prefix must lie inside the IPv6 overlay; an IPv4 prefix that overlaps the overlay
    must have its address there. -/
def checkCidr (reg : Registry) (field : Field) (q : Prefix) : Report :=
  if q.ip.is6 then
    if reg.overlay6.isValid && (decide (q.bits < reg.overlay6.bits) || !reg.overlay6.contains q.ip) then
      { errs := [.outside6 field q reg.overlay6] }
    else {}
  else if reg.overlay.isValid && q.overlaps reg.overlay && !reg.overlay.contains q.ip then
    { errs := [.overlaps field q reg.overlay] }
  else {}

def checkSelector (reg : Registry) (doc : Doc) (field : Field) : Selector → Report
  | .user name => if reg.users.contains name then {} else { errs := [.user field name] }
  | .group name => if (doc.groups.lookup name).isSome then {} else { errs := [.group field name] }
  | .tag name => if reg.tags.contains (str "tag:" ++ name) then {} else { warnings := [.noTag field name] }
  | .peer name => if reg.peers.contains name then {} else { warnings := [.noPeer field name] }
  | .cidr q => checkCidr reg field q
  | .any => {}
  | .self => {}
  | .internet => {}

def checkOwner (reg : Registry) (doc : Doc) (tag : Str) (o : Str × Nat) : Report :=
  match parseSelector o.1 false with
  | .ok sel => checkSelector reg doc (.tagOwner tag o.2) sel
  | .error _ => {}

def checkRule (reg : Registry) (doc : Doc) (r : ParsedRule × Nat) : List Report :=
  (r.1.src.zipIdx.map fun s => checkSelector reg doc (.src r.2 s.2) s.1) ++
    r.1.dst.zipIdx.map fun d => checkSelector reg doc (.dst r.2 d.2) d.1.host

def sortedKeys (order : List (Σ _ : Str, List Str)) : List Str := (SliceSort.byText fun k : Str => k).run (order.map (·.1))

def Policy.report (p : Policy) (o : Orders) (reg : Registry) : Report :=
  .all (((sortedKeys o.groups).flatMap fun name =>
      ((p.doc.groups.lookup name).getD []).zipIdx.map (checkMember reg name)) ++
    ((sortedKeys o.tags).flatMap fun tag =>
      ((p.doc.tagOwners.lookup tag).getD []).zipIdx.map (checkOwner reg p.doc tag)) ++
    p.rules.zipIdx.flatMap (checkRule reg p.doc))

/-- `Validate`: the warnings, and every error at once. -/
def Policy.validate (p : Policy) (o : Orders) (reg : Registry) : List Warning × Except (List RegistryErr) Unit :=
  let r := p.report o reg
  (r.warnings, if r.errs = [] then .ok () else .error r.errs)

/-! ## What is accepted -/

def Policy.Names (p : Policy) (sel : Selector) : Prop := ∃ r ∈ p.rules, sel ∈ r.src ∨ ∃ d ∈ r.dst, d.host = sel

structure Passes (reg : Registry) (q : Prefix) : Prop where
  inside6 : q.ip.is6 = true → reg.overlay6.isValid = true →
    reg.overlay6.bits ≤ q.bits ∧ reg.overlay6.contains q.ip = true
  address : q.ip.is6 = false → reg.overlay.isValid = true → q.overlaps reg.overlay = true → reg.overlay.contains q.ip = true

/-- What is asked of a selector. -/
def Known (reg : Registry) (doc : Doc) : Selector → Prop
  | .user name => name ∈ reg.users
  | .group name => ∃ members, doc.groups.lookup name = some members
  | .cidr q => Passes reg q
  | _ => True

structure Valid (reg : Registry) (p : Policy) : Prop where
  members : ∀ g ms, p.doc.groups.lookup g = some ms → ∀ m ∈ ms, ∀ sel, parseSelector m false = .ok sel → sel.name ∈ reg.users
  owners : ∀ t os, p.doc.tagOwners.lookup t = some os → ∀ o ∈ os, ∀ sel, parseSelector o false = .ok sel → Known reg p.doc sel
  rules : ∀ sel, p.Names sel → Known reg p.doc sel

def Orders.Visits (o : Orders) (doc : Doc) : Prop := Ranges doc.groups o.groups ∧ Ranges doc.tagOwners o.tags

instance (o : Orders) (doc : Doc) : Decidable (o.Visits doc) := inferInstanceAs (Decidable (_ ∧ _))

structure Accepted (S : RangeSort) (decode : Str → Option Doc) (data : Str) (reg : Registry) (p : Policy) : Prop where
  parsed : ∃ o : Orders, o.Visits p.doc ∧ parse S decode o data = .ok p
  validated : ∃ o : Orders, o.Visits p.doc ∧ (p.validate o reg).2 = .ok ()

section

variable {reg : Registry} {doc : Doc} {p : Policy} {o : Orders}

theorem checkMember_errs {g m : Str} {i : Nat} :
    (checkMember reg g (m, i)).errs = [] ↔ ∀ sel, parseSelector m false = .ok sel → sel.name ∈ reg.users := by
  unfold checkMember
  grind

theorem checkCidr_errs {field : Field} {q : Prefix} : (checkCidr reg field q).errs = [] ↔ Passes reg q := by
  unfold checkCidr
  constructor
  · intro h
    refine ⟨fun h6 hv => ?_, fun h6 hv hov => ?_⟩
    · grind
    · grind
  · intro h
    cases h6 : q.ip.is6 with
    | true =>
      rw [if_pos rfl, if_neg]
      intro hout
      simp only [Bool.and_eq_true, Bool.or_eq_true, decide_eq_true_eq, Bool.not_eq_true'] at hout
      obtain ⟨hbits, hin⟩ := h.inside6 h6 hout.1
      rcases hout.2 with hlt | hnot
      · omega
      · rw [hin] at hnot
        cases hnot
    | false =>
      rw [if_neg Bool.false_ne_true, if_neg]
      intro hout
      simp only [Bool.and_eq_true, Bool.not_eq_true'] at hout
      rw [h.address h6 hout.1.1 hout.1.2] at hout
      cases hout.2

theorem checkSelector_errs {field : Field} {sel : Selector} :
    (checkSelector reg doc field sel).errs = [] ↔ Known reg doc sel := by
  cases sel with
  | user name =>
    by_cases hu : name ∈ reg.users
    · simp [checkSelector, Known, hu]
    · simp [checkSelector, Known, hu]
  | group name =>
    cases hg : doc.groups.lookup name with
    | none => simp [checkSelector, Known, hg]
    | some members => simp [checkSelector, Known, hg]
  | tag name =>
    simp only [checkSelector, Known, iff_true]
    split <;> rfl
  | peer name =>
    simp only [checkSelector, Known, iff_true]
    split <;> rfl
  | cidr q => exact checkCidr_errs
  | any => simp [checkSelector, Known]
  | self => simp [checkSelector, Known]
  | internet => simp [checkSelector, Known]

theorem checkOwner_errs {t m : Str} {i : Nat} :
    (checkOwner reg doc t (m, i)).errs = [] ↔ ∀ sel, parseSelector m false = .ok sel → Known reg doc sel := by
  unfold checkOwner
  cases hm : parseSelector m false with
  | error e => simp
  | ok sel => simp [checkSelector_errs]

theorem mem_sortedKeys {m : GoMap Str (List Str)} {order : List (Σ _ : Str, List Str)} (h : Ranges m order) {k : Str} :
    k ∈ sortedKeys order ↔ ∃ v, m.lookup k = some v := by
  rw [sortedKeys, SliceSort.mem_iff, List.mem_map]
  constructor
  · intro hk
    obtain ⟨⟨k, v⟩, hmem, rfl⟩ := hk
    exact ⟨v, (h.mem_iff k v).mp hmem⟩
  · intro hk
    obtain ⟨v, hv⟩ := hk
    exact ⟨⟨k, v⟩, (h.mem_iff k v).mpr hv, rfl⟩

/-- A check of each entry of each list finds nothing. -/
theorem entries_errs {m : GoMap Str (List Str)} {order : List (Σ _ : Str, List Str)} (h : Ranges m order)
    {f : Str → Str × Nat → Report} {P : Str → Prop} (hf : ∀ k a i, (f k (a, i)).errs = [] ↔ P a) :
    (∀ r ∈ (sortedKeys order).flatMap fun k => ((m.lookup k).getD []).zipIdx.map (f k), r.errs = []) ↔
      ∀ k v, m.lookup k = some v → ∀ a ∈ v, P a := by
  simp only [List.mem_flatMap, List.mem_map, mem_sortedKeys h]
  constructor
  · intro hall k v hv a ha
    obtain ⟨i, hi⟩ := exists_zipIdx ha
    refine (hf k a i).mp (hall _ ⟨k, ⟨v, hv⟩, (a, i), ?_, rfl⟩)
    rw [hv]
    exact hi
  · intro hall r hr
    obtain ⟨k, ⟨v, hv⟩, ⟨a, i⟩, ha, rfl⟩ := hr
    rw [hv] at ha
    exact (hf k a i).mpr (hall k v hv a (List.fst_mem_of_mem_zipIdx ha))

theorem rules_errs {rules : List ParsedRule} :
    (∀ r ∈ rules.zipIdx.flatMap (checkRule reg doc), r.errs = []) ↔
      ∀ r ∈ rules, (∀ s ∈ r.src, Known reg doc s) ∧ ∀ d ∈ r.dst, Known reg doc d.host := by
  simp only [List.mem_flatMap, checkRule, List.mem_append, List.mem_map]
  constructor
  · intro hall r hr
    obtain ⟨i, hi⟩ := exists_zipIdx hr
    constructor
    · intro s hs
      obtain ⟨j, hj⟩ := exists_zipIdx hs
      exact checkSelector_errs.mp (hall _ ⟨_, hi, .inl ⟨_, hj, rfl⟩⟩)
    · intro d hd
      obtain ⟨j, hj⟩ := exists_zipIdx hd
      exact checkSelector_errs.mp (hall _ ⟨_, hi, .inr ⟨_, hj, rfl⟩⟩)
  · intro hall x hx
    obtain ⟨r, hr, hx⟩ := hx
    obtain ⟨hsrc, hdst⟩ := hall r.1 (List.fst_mem_of_mem_zipIdx hr)
    rcases hx with ⟨s, hs, rfl⟩ | ⟨d, hd, rfl⟩
    · exact checkSelector_errs.mpr (hsrc _ (List.fst_mem_of_mem_zipIdx hs))
    · exact checkSelector_errs.mpr (hdst _ (List.fst_mem_of_mem_zipIdx hd))

/-- What `Validate` accepts does not depend on the orders. -/
theorem validate_ok (ho : o.Visits p.doc) : (p.validate o reg).2 = .ok () ↔ Valid reg p := by
  have herrs : (p.validate o reg).2 = .ok () ↔ (p.report o reg).errs = [] := by
    by_cases he : (p.report o reg).errs = []
    · simp [Policy.validate, he]
    · simp [Policy.validate, he]
  rw [herrs, Policy.report, Report.all, List.flatMap_eq_nil_iff]
  simp only [List.forall_mem_append]
  rw [entries_errs ho.1 fun _ _ _ => checkMember_errs, entries_errs ho.2 fun _ _ _ => checkOwner_errs, rules_errs]
  constructor
  · intro h
    obtain ⟨⟨hmembers, howners⟩, hrules⟩ := h
    refine ⟨hmembers, howners, fun sel hsel => ?_⟩
    obtain ⟨r, hr, hs | ⟨d, hd, rfl⟩⟩ := hsel
    · exact (hrules r hr).1 _ hs
    · exact (hrules r hr).2 _ hd
  · intro h
    exact ⟨⟨h.members, h.owners⟩, fun r hr =>
      ⟨fun s hs => h.rules s ⟨r, hr, .inl hs⟩, fun d hd => h.rules _ ⟨r, hr, .inr ⟨d, hd, rfl⟩⟩⟩⟩

end

/-! ## Prefixes and the overlay -/

def Inside (q overlay : Prefix) : Prop := ∀ a, q.contains a = true → overlay.contains a = true

def Outside (q overlay : Prefix) : Prop := ∀ a, ¬(q.contains a = true ∧ overlay.contains a = true)

/-- The prefix selects peers or is a route, and does not go beyond an overlay it contains. -/
structure Unambiguous (overlay q : Prefix) : Prop where
  placed : (Inside q overlay ∧ isRoute q overlay = false) ∨ (Outside q overlay ∧ isRoute q overlay = true)
  around : Inside overlay q → Inside q overlay

section

variable {reg : Registry} {p : Policy} {overlay q : Prefix}

theorem Parsed.selector (h : Parsed p) {sel : Selector} (hs : p.Names sel) : ∃ raw dst, parseSelector raw dst = .ok sel := by
  obtain ⟨r, hr, hs | ⟨d, hd, rfl⟩⟩ := hs
  · obtain ⟨S, decode, o, data, h⟩ := h
    rw [(parse_ok h).1] at hr
    obtain ⟨acl, -, rfl⟩ := List.mem_map.mp hr
    obtain ⟨raw, -, hraw⟩ := List.mem_filterMap.mp hs
    refine ⟨raw, false, ?_⟩
    cases hp : parseSelector raw false with
    | error e =>
      rw [hp] at hraw
      cases hraw
    | ok sel' =>
      rw [hp] at hraw
      cases hraw
      rfl
  · obtain ⟨S, raw, hraw⟩ := h.dst r hr d hd
    obtain ⟨s, hs⟩ := parseDst_host hraw
    exact ⟨s, true, hs⟩

theorem parseSelector_isV4 {raw : Str} {dst : Bool} (h : parseSelector raw dst = .ok (.cidr q)) (h4 : q.ip.is4 = true) :
    q.IsV4 := by
  refine (parseSelector_wellFormed h).isV4 ?_ h4
  rcases parseSelector_cidr h with ⟨p, hp, rfl⟩ | ⟨a, -, -, rfl⟩
  · obtain ⟨a, n, -, rfl⟩ := parsePrefix_ok hp
    by_cases hv : (prefixFrom a n).isValid = true
    · rw [(wellFormed_prefixFrom a n).masked_eq hv]
      rfl
    · rw [Prefix.masked, if_neg hv] at h4
      cases h4
  · cases a with
    | zero => cases h4
    | v6 b z => cases h4
    | v4 b => rfl

theorem outside_iff (hq : q.IsV4) (ho : overlay.IsV4) : Outside q overlay ↔ isRoute q overlay = true := by
  have h4 : q.ip.is4 = true := by
    obtain ⟨b, n, -, rfl⟩ := hq
    rfl
  have hover := overlaps_iff hq.wellFormed ho.wellFormed
  simp only [isRoute, ho.valid, hq.valid, h4, Bool.and_self, Bool.true_and, Bool.not_eq_true', ← Bool.not_eq_true, hover,
    not_exists]
  exact Iff.rfl

/-- Of the prefixes that pass, those that do not start in the overlay and go beyond it are unambiguous. -/
theorem unambiguous_iff (hq : q.IsV4) (ho : overlay.IsV4) (hpass : q.overlaps overlay = true → overlay.contains q.ip = true) :
    Unambiguous overlay q ↔ ¬(overlay.contains q.ip = true ∧ q.bits < overlay.bits) := by
  have hself := hq.wellFormed.contains_ip hq.valid
  constructor
  · intro h hshort
    rcases h.placed with ⟨hin, -⟩ | ⟨hout, -⟩
    · have hbits := ((inside_iff hq ho).mp hin).1
      omega
    · exact hout q.ip ⟨hself, hshort.1⟩
  · intro h
    by_cases hover : q.overlaps overlay = true
    · have haddr := hpass hover
      have hbits : overlay.bits ≤ q.bits := Nat.not_lt.mp fun hlt => h ⟨haddr, hlt⟩
      have hin : Inside q overlay := (inside_iff hq ho).mpr ⟨hbits, haddr⟩
      have hroute : isRoute q overlay = false := by simp [isRoute, hover]
      exact ⟨.inl ⟨hin, hroute⟩, fun _ => hin⟩
    · have hout : Outside q overlay := fun a ha => hover ((overlaps_iff hq.wellFormed ho.wellFormed).mpr ⟨a, ha⟩)
      refine ⟨.inr ⟨hout, (outside_iff hq ho).mp hout⟩, fun haround => ?_⟩
      have hbase := ho.wellFormed.contains_ip ho.valid
      exact absurd ⟨haround _ hbase, hbase⟩ (hout _)

theorem prefixes_unambiguous_iff {S : RangeSort} {decode : Str → Option Doc} {data : Str} (h : Accepted S decode data reg p)
    (ho : reg.overlay.IsV4) :
    ∀ q, p.Names (.cidr q) → q.ip.is4 = true →
      (Unambiguous reg.overlay q ↔ ¬(reg.overlay.contains q.ip = true ∧ q.bits < reg.overlay.bits)) := by
  intro q hq h4
  obtain ⟨o, -, hparse⟩ := h.parsed
  obtain ⟨o', ho', hvalid⟩ := h.validated
  obtain ⟨raw, dst, hraw⟩ := Parsed.selector ⟨S, decode, o, data, hparse⟩ hq
  have hv4 := parseSelector_isV4 hraw h4
  have h6 : q.ip.is6 = false := by
    obtain ⟨b, n, -, rfl⟩ := hv4
    rfl
  have hpass : Passes reg q := ((validate_ok ho').mp hvalid).rules _ hq
  exact unambiguous_iff hv4 ho (hpass.address h6 ho.valid)

def oneRule (dst : String) : Doc where
  version := 1
  acls := [{ action := str "accept", src := [str "*"], dst := [str dst] }]

def onePolicy (dst : String) : Policy := ⟨oneRule dst, (oneRule dst).acls.map (parsedRule rangeSort)⟩

def smallOverlay : Registry := { overlay := prefixFrom (.v4 (Arr.ofNat 4 0x0a000000)) 24 }

theorem smallOverlay_isV4 : smallOverlay.overlay.IsV4 := ⟨Arr.ofNat 4 0x0a000000, 24, by decide, rfl⟩

def farNet : Prefix := prefixFrom (.v4 (Arr.ofNat 4 0xc0a80700)) 24

theorem farNet_accepted : Accepted rangeSort (fun _ => some (oneRule "192.168.7.0/24:22")) [] smallOverlay
    (onePolicy "192.168.7.0/24:22") :=
  ⟨⟨{}, by decide, by decide +kernel⟩, ⟨{}, by decide, by decide +kernel⟩⟩

theorem prefixes_unambiguous_far :
    (onePolicy "192.168.7.0/24:22").Names (.cidr farNet) ∧ Unambiguous smallOverlay.overlay farNet := by
  have hnames : (onePolicy "192.168.7.0/24:22").Names (.cidr farNet) :=
    ⟨_, List.mem_cons_self, .inr ⟨⟨.cidr farNet, [⟨22, 22⟩]⟩, by decide +kernel, rfl⟩⟩
  exact ⟨hnames, (prefixes_unambiguous_iff farNet_accepted smallOverlay_isV4 farNet hnames rfl).mpr (by decide +kernel)⟩

def wideNet : Prefix := prefixFrom (.v4 (Arr.ofNat 4 0x0a000000)) 8

/-- The overlay contains the address of the wider prefix, so the check passes. -/
theorem a_prefix_around_the_overlay_is_accepted :
    Accepted rangeSort (fun _ => some (oneRule "10.0.0.0/8:*")) [] smallOverlay (onePolicy "10.0.0.0/8:*") ∧
      smallOverlay.overlay.IsV4 ∧ (onePolicy "10.0.0.0/8:*").Names (.cidr wideNet) ∧ wideNet.ip.is4 = true ∧
      ¬(Inside wideNet smallOverlay.overlay ∨ Outside wideNet smallOverlay.overlay) ∧
      Inside smallOverlay.overlay wideNet ∧ isRoute wideNet smallOverlay.overlay = false := by
  have hwide : wideNet.IsV4 := ⟨Arr.ofNat 4 0x0a000000, 8, by decide, rfl⟩
  refine ⟨⟨⟨{}, by decide, by decide +kernel⟩, ⟨{}, by decide, by decide +kernel⟩⟩, smallOverlay_isV4,
    ⟨_, List.mem_cons_self, .inr ⟨⟨.cidr wideNet, [allPorts]⟩, by decide +kernel, rfl⟩⟩, rfl, ?_, ?_, by decide +kernel⟩
  · intro h
    rcases h with hin | hout
    · have hbits := ((inside_iff hwide smallOverlay_isV4).mp hin).1
      exact absurd hbits (by decide)
    · exact hout wideNet.ip (by decide +kernel)
  · exact (inside_iff smallOverlay_isV4 hwide).mpr (by decide +kernel)

end

end Thawr.Control.Policy
