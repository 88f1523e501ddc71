/-
  Thawr.Control.Policy.Policy — the policy document and what `Parse` checks of it
  (`internal/control/policy/policy.go`).

  The YAML decoder is an argument. The document's hash and its source text are left out.
  Every problem is collected before the document is refused; the groups and tag owners are
  maps, visited in an order the language leaves open.

  Proved: a document that is accepted has each of its rules parsed (`parse_ok`), and
  `peerReferences` lists nothing exactly for the names no rule selects
  (`peerReferences_nil`).
-/

import Thawr.Control.Policy.Selector

namespace Thawr.Control.Policy

open Go Netip

structure Rule where
  action : Str := []
  src : List Str := []
  dst : List Str := []
  proto : Str := []
  deriving DecidableEq

structure Doc where
  version : Int := 0
  groups : GoMap Str (List Str) := ∅
  tagOwners : GoMap Str (List Str) := ∅
  acls : List Rule := []
  deriving DecidableEq

/-- Every member is written as the name of the user it is read as. -/
def Doc.Bare (doc : Doc) : Prop := ∀ g ms, doc.groups.lookup g = some ms → ∀ m ∈ ms, parseSelector m false = .ok (.user m)

structure ParsedRule where
  src : List Selector
  dst : List Dst
  proto : Proto
  deriving DecidableEq

structure Policy where
  doc : Doc
  rules : List ParsedRule
  deriving DecidableEq

inductive FieldErr where
  /-- "groups.%s: name must be a lowercase label" -/
  | groupName (name : Str)
  /-- "groups.%s: no members" -/
  | groupEmpty (name : Str)
  /-- "groups.%s[%d]: %q must be a user name" -/
  | groupMember (name : Str) (i : Nat) (member : Str)
  /-- "tagOwners.%s: key must be tag:<name>" -/
  | tagKey (tag : Str)
  /-- "tagOwners.%s: no owners" -/
  | tagEmpty (tag : Str)
  /-- "tagOwners.%s[%d]: %q must be a user or group" -/
  | tagOwner (tag : Str) (i : Nat) (owner : Str)
  /-- "acls[%d].action: %q must be accept" -/
  | action (i : Nat) (action : Str)
  /-- "acls[%d].src: at least one selector required" -/
  | srcEmpty (i : Nat)
  /-- "acls[%d].src[%d]: %w" -/
  | src (i j : Nat) (e : SelectorErr)
  /-- "acls[%d].dst: at least one host:ports required" -/
  | dstEmpty (i : Nat)
  /-- "acls[%d].dst[%d]: %w" -/
  | dst (i j : Nat) (e : DstErr)
  /-- "acls[%d].proto: proto %q must be tcp, udp, icmp or any" -/
  | proto (i : Nat) (raw : Str)
  /-- "acls[%d].dst[%d]: icmp rules must use port *" -/
  | icmpPorts (i j : Nat)
  deriving DecidableEq

inductive ParseErr where
  /-- "policy: parse" -/
  | decode
  /-- "policy: version %d unsupported (want %d)" -/
  | version (n : Int)
  | fields (errs : List FieldErr)
  deriving DecidableEq

def version : Int := 1

def problem (cond : Bool) (e : FieldErr) : List FieldErr := if cond then [e] else []

def isUser : Except SelectorErr Selector → Bool
  | .ok (.user _) => true
  | _ => false

def isTag : Except SelectorErr Selector → Bool
  | .ok (.tag _) => true
  | _ => false

def isUserOrGroup : Except SelectorErr Selector → Bool
  | .ok (.user _) => true
  | .ok (.group _) => true
  | _ => false

def groupErrs (g : Σ _ : Str, List Str) : List FieldErr :=
  problem (!validLabel g.1) (.groupName g.1) ++ problem g.2.isEmpty (.groupEmpty g.1) ++
    g.2.zipIdx.flatMap fun m => problem (!isUser (parseSelector m.1 false)) (.groupMember g.1 m.2 m.1)

def tagErrs (t : Σ _ : Str, List Str) : List FieldErr :=
  problem (!isTag (parseSelector t.1 false)) (.tagKey t.1) ++ problem t.2.isEmpty (.tagEmpty t.1) ++
    t.2.zipIdx.flatMap fun o => problem (!isUserOrGroup (parseSelector o.1 false)) (.tagOwner t.1 o.2 o.1)

section

variable (S : RangeSort)

def parsedRule (r : Rule) : ParsedRule where
  src := r.src.filterMap fun s => (parseSelector s false).toOption
  dst := r.dst.filterMap fun d => (parseDst S d).toOption
  proto := (parseProto r.proto).getD .any

def srcErr (i : Nat) (s : Str × Nat) : List FieldErr :=
  match parseSelector s.1 false with
  | .error e => [.src i s.2 e]
  | .ok _ => []

def dstErr (i : Nat) (d : Str × Nat) : List FieldErr :=
  match parseDst S d.1 with
  | .error e => [.dst i d.2 e]
  | .ok _ => []

/-- An ICMP rule opens every port or none; the index counts the entries that parsed. -/
def icmpErrs (i : Nat) (r : Rule) : List FieldErr :=
  if parseProto r.proto = some .icmp then
    (parsedRule S r).dst.zipIdx.flatMap fun d => problem (d.1.ports != [allPorts]) (.icmpPorts i d.2)
  else []

def ruleErrs (x : Rule × Nat) : List FieldErr :=
  let (r, i) := x
  problem (r.action != str "accept") (.action i r.action) ++ problem r.src.isEmpty (.srcEmpty i) ++
    r.src.zipIdx.flatMap (srcErr i) ++ problem r.dst.isEmpty (.dstEmpty i) ++ r.dst.zipIdx.flatMap (dstErr S i) ++
    problem (parseProto r.proto).isNone (.proto i r.proto) ++ icmpErrs S i r

structure Orders where
  groups : List (Σ _ : Str, List Str) := []
  tags : List (Σ _ : Str, List Str) := []

def parseRules (o : Orders) (doc : Doc) : Except (List FieldErr) (List ParsedRule) :=
  let errs := o.groups.flatMap groupErrs ++ o.tags.flatMap tagErrs ++ doc.acls.zipIdx.flatMap (ruleErrs S)
  if errs = [] then .ok (doc.acls.map (parsedRule S)) else .error errs

def parse (decode : Str → Option Doc) (o : Orders) (data : Str) : Except ParseErr Policy :=
  match decode data with
  | none => .error .decode
  | some doc =>
    if doc.version ≠ version then .error (.version doc.version)
    else
      match parseRules S o doc with
      | .error errs => .error (.fields errs)
      | .ok rules => .ok ⟨doc, rules⟩

end

structure Parses (S : RangeSort) (r : Rule) : Prop where
  src : ∀ s ∈ r.src, ∃ sel, parseSelector s false = .ok sel
  dst : ∀ d ∈ r.dst, ∃ x, parseDst S d = .ok x
  proto : ∃ p, parseProto r.proto = some p

section

variable {S : RangeSort}

theorem exists_zipIdx {α : Type} {l : List α} {a : α} (h : a ∈ l) : ∃ i, (a, i) ∈ l.zipIdx := by
  obtain ⟨i, hi⟩ := List.mem_iff_getElem?.mp h
  exact ⟨i, List.mem_zipIdx_iff_getElem?.mpr hi⟩

theorem ruleErrs_nil {x : Rule × Nat} (h : ruleErrs S x = []) : Parses S x.1 := by
  unfold ruleErrs at h
  simp only [List.append_eq_nil_iff, List.flatMap_eq_nil_iff] at h
  obtain ⟨⟨⟨⟨⟨-, hsrc⟩, -⟩, hdst⟩, hproto⟩, -⟩ := h
  refine ⟨fun s hs => ?_, fun d hd => ?_, ?_⟩
  · obtain ⟨i, hi⟩ := exists_zipIdx hs
    have he := hsrc _ hi
    unfold srcErr at he
    split at he
    · cases he
    · rename_i sel hsel
      exact ⟨sel, hsel⟩
  · obtain ⟨i, hi⟩ := exists_zipIdx hd
    have he := hdst _ hi
    unfold dstErr at he
    split at he
    · cases he
    · rename_i y hy
      exact ⟨y, hy⟩
  · cases hp : parseProto x.1.proto with
    | none => simp [hp, problem] at hproto
    | some p => exact ⟨p, rfl⟩

/-- Nothing was collected. -/
theorem parseRules_errs {o : Orders} {doc : Doc} {rules : List ParsedRule} (h : parseRules S o doc = .ok rules) :
    rules = doc.acls.map (parsedRule S) ∧ (∀ g ∈ o.groups, groupErrs g = []) ∧ (∀ t ∈ o.tags, tagErrs t = []) ∧
      ∀ x ∈ doc.acls.zipIdx, ruleErrs S x = [] := by
  unfold parseRules at h
  simp only at h
  split at h
  · rename_i hnil
    cases h
    simp only [List.append_eq_nil_iff, List.flatMap_eq_nil_iff] at hnil
    exact ⟨rfl, hnil.1.1, hnil.1.2, hnil.2⟩
  · cases h

theorem parse_rules {decode : Str → Option Doc} {o : Orders} {data : Str} {p : Policy} (h : parse S decode o data = .ok p) :
    parseRules S o p.doc = .ok p.rules := by
  unfold parse at h
  grind

/-- An accepted policy holds the document's rules, parsed. -/
theorem parse_ok {decode : Str → Option Doc} {o : Orders} {data : Str} {p : Policy} (h : parse S decode o data = .ok p) :
    p.rules = p.doc.acls.map (parsedRule S) ∧ ∀ r ∈ p.doc.acls, Parses S r := by
  obtain ⟨hrules, -, -, herrs⟩ := parseRules_errs (parse_rules h)
  refine ⟨hrules, fun r hr => ?_⟩
  obtain ⟨i, hi⟩ := exists_zipIdx hr
  exact ruleErrs_nil (herrs _ hi)

/-- The members of a group are read as users. -/
theorem groupErrs_nil {g : Str} {ms : List Str} (h : groupErrs ⟨g, ms⟩ = []) :
    ∀ m ∈ ms, ∃ u, parseSelector m false = .ok (.user u) := by
  intro m hm
  simp only [groupErrs, List.append_eq_nil_iff, List.flatMap_eq_nil_iff] at h
  obtain ⟨i, hi⟩ := exists_zipIdx hm
  have huser := h.2 _ hi
  unfold problem isUser at huser
  split at huser
  · rename_i u hu
    exact ⟨u, hu⟩
  · cases huser

end

/-! ## Selected peers -/

def ref (field : String) (i j : Nat) : Str := str "acls[" ++ decimal i ++ str field ++ decimal j ++ str "]"

/-- `PeerReferences` at a name: where rules select the peer with that name. -/
def Policy.peerReferences (p : Policy) (name : Str) : List Str :=
  p.rules.zipIdx.flatMap fun r =>
    (r.1.src.zipIdx.filterMap fun s => if s.1 = .peer name then some (ref "].src[" r.2 s.2) else none) ++
      r.1.dst.zipIdx.filterMap fun d => if d.1.host = .peer name then some (ref "].dst[" r.2 d.2) else none

/-- A rule has the selector `peer:<name>`. -/
def Policy.Selects (p : Policy) (name : Str) : Prop := ∃ r ∈ p.rules, .peer name ∈ r.src ∨ ∃ d ∈ r.dst, d.host = .peer name

theorem zipIdx_filterMap_nil {α β : Type} {l : List α} {f : α × Nat → Option β} :
    l.zipIdx.filterMap f = [] ↔ ∀ a i, (a, i) ∈ l.zipIdx → f (a, i) = none := by
  rw [List.filterMap_eq_nil_iff, Prod.forall]

theorem peerReferences_nil {p : Policy} {name : Str} : p.peerReferences name = [] ↔ ¬p.Selects name := by
  unfold Policy.peerReferences Policy.Selects
  simp only [List.flatMap_eq_nil_iff, List.append_eq_nil_iff, zipIdx_filterMap_nil]
  constructor
  · intro h hsel
    obtain ⟨r, hr, hsel⟩ := hsel
    obtain ⟨i, hi⟩ := exists_zipIdx hr
    obtain ⟨hsrc, hdst⟩ := h _ hi
    rcases hsel with hs | ⟨d, hd, hhost⟩
    · obtain ⟨j, hj⟩ := exists_zipIdx hs
      simpa using hsrc _ _ hj
    · obtain ⟨j, hj⟩ := exists_zipIdx hd
      simpa [hhost] using hdst _ _ hj
  · grind

end Thawr.Control.Policy
