/-
  Thawr.Control.Policy.Selector — the texts of a policy rule
  (`internal/control/policy/selector.go`): who a selector names, which ports a list means,
  and which protocol.

  `ParsePorts` sorts and merges the ranges it reads. `portList` is the same reading without
  the merge. Proved: merging covers the same ports (`mergeRanges_covers`), so what
  `ParsePorts` returns covers the ports listed (`parsePorts_covers`).
-/

import Thawr.Go.Netip
import Thawr.Go.Runes

namespace Thawr.Control.Policy

open Go Netip

/-! ## Selectors -/

inductive Selector where
  /-- "*" -/
  | any
  /-- "user:name" or "name" -/
  | user (name : Str)
  | group (name : Str)
  | tag (name : Str)
  | peer (name : Str)
  /-- "self", in dst only: the owner of the source -/
  | self
  /-- An address or prefix. -/
  | cidr (p : Prefix)
  /-- "internet", in dst only -/
  | internet
  deriving DecidableEq

inductive SelectorErr where
  /-- "empty selector" -/
  | empty
  /-- "%q is only valid in dst" -/
  | onlyDst (s : Str)
  /-- "%q: write an IPv4-mapped prefix as IPv4" -/
  | mapped (s : Str)
  /-- "%q: not a plain IPv4 or IPv6 address" -/
  | notPlain (s : Str)
  /-- "%q: name must be a lowercase label" -/
  | label (s : Str)
  /-- "%q: unknown selector kind %q (user, group, tag, peer)" -/
  | kind (s kind : Str)
  /-- "%q is not a selector" -/
  | notSelector (s : Str)
  deriving DecidableEq

def labelByte (n i : Nat) (c : UInt8) : Bool :=
  (decide (97 ≤ c) && decide (c ≤ 122)) || isDigit c || (c == 45 && decide (0 < i) && decide (i + 1 < n))

def validLabel (s : Str) : Bool := s != [] && decide (s.length ≤ 63) && s.zipIdx.all fun x => labelByte s.length x.2 x.1

def namedSelector (s kind name : Str) : Except SelectorErr Selector :=
  if !validLabel name then .error (.label s)
  else if kind = str "user" then .ok (.user name)
  else if kind = str "group" then .ok (.group name)
  else if kind = str "tag" then .ok (.tag name)
  else if kind = str "peer" then .ok (.peer name)
  else .error (.kind s kind)

def nameSelector (s : Str) : Except SelectorErr Selector :=
  match cut s 58 with
  | some (kind, name) => namedSelector s kind name
  | none => if validLabel s then .ok (.user s) else .error (.notSelector s)

/-- `ParseSelector`; `dst` allows "self" and "internet". -/
def parseSelector (raw : Str) (dst : Bool) : Except SelectorErr Selector :=
  let s := trimSpace raw
  if s = [] then .error .empty
  else if s = str "*" then .ok .any
  else if s = str "self" then if dst then .ok .self else .error (.onlyDst s)
  else if s = str "internet" then if dst then .ok .internet else .error (.onlyDst s)
  else
    -- addresses first: an IPv6 address has colons too
    match parsePrefix s with
    | some p => if p.ip.is4In6 then .error (.mapped s) else .ok (.cidr p.masked)
    | none =>
      match parseAddr s with
      | some a => if a.is4In6 || a.zone != [] then .error (.notPlain s) else .ok (.cidr (prefixFrom a a.bitLen))
      | none => nameSelector s

/-! ## Ports -/

structure PortRange where
  lo : UInt16
  hi : UInt16
  deriving DecidableEq

def allPorts : PortRange := ⟨1, 65535⟩

def Covers (l : List PortRange) (port : UInt16) : Prop := ∃ r ∈ l, r.lo ≤ port ∧ port ≤ r.hi

abbrev RangeSort := SliceSort fun a b : PortRange => decide (a.lo < b.lo)

inductive PortErr where
  /-- "empty port list" -/
  | empty
  /-- "port %q must be 1-65535" -/
  | port (s : Str)
  /-- "port range %q is reversed" -/
  | reversed (part : Str)
  deriving DecidableEq

/-- The loop of `mergeRanges`: `last` takes in what overlaps it or is next to it. -/
def coalesce (out : List PortRange) (last : PortRange) : List PortRange → List PortRange
  | [] => out ++ [last]
  | r :: rest =>
    if r.lo.toNat ≤ last.hi.toNat + 1 then coalesce out ⟨last.lo, if last.hi < r.hi then r.hi else last.hi⟩ rest
    else coalesce (out ++ [last]) r rest

def mergeRanges (S : RangeSort) (l : List PortRange) : List PortRange :=
  match S.run l with
  | [] => []
  | r :: rest => coalesce [] r rest

def parsePort (s : Str) : Except PortErr UInt16 :=
  match parseUint 16 (trimSpace s) with
  | none => .error (.port s)
  | some n => if n = 0 then .error (.port s) else .ok (UInt16.ofNat n)

def portPart (raw : Str) : Except PortErr PortRange :=
  let part := trimSpace raw
  match cut part 45 with
  | none => (parsePort part).map fun a => ⟨a, a⟩
  | some (lo, hi) => do
    let a ← parsePort lo
    let b ← parsePort hi
    if b < a then .error (.reversed part) else .ok ⟨a, b⟩

def portParts : List Str → Except PortErr (List PortRange)
  | [] => .ok []
  | p :: rest => do
    let r ← portPart p
    let rs ← portParts rest
    return r :: rs

def portList (raw : Str) : Except PortErr (List PortRange) :=
  let s := trimSpace raw
  if s = [] then .error .empty else if s = str "*" then .ok [allPorts] else portParts (split s 44)

def parsePorts (S : RangeSort) (raw : Str) : Except PortErr (List PortRange) :=
  let s := trimSpace raw
  if s = [] then .error .empty
  else if s = str "*" then .ok [allPorts]
  else (portParts (split s 44)).map (mergeRanges S)

/-! ## Destinations and protocols -/

structure Dst where
  host : Selector
  ports : List PortRange
  deriving DecidableEq

inductive DstErr where
  /-- "%q must be host:ports" -/
  | hostPorts (s : Str)
  | host (e : SelectorErr)
  | ports (s : Str) (e : PortErr)
  deriving DecidableEq

def unbracket (h : Str) : Str := if h.head? = some 91 ∧ h.getLast? = some 93 then h.tail.dropLast else h

def splitDst (raw : Str) : Option (Str × Str) := (cutLast (trimSpace raw) 58).map fun x => (unbracket x.1, x.2)

def parseDst (S : RangeSort) (raw : Str) : Except DstErr Dst :=
  match splitDst raw with
  | none => .error (.hostPorts (trimSpace raw))
  | some (h, ports) =>
    match parseSelector h true with
    | .error e => .error (.host e)
    | .ok host =>
      match parsePorts S ports with
      | .error e => .error (.ports (trimSpace raw) e)
      | .ok ps => .ok ⟨host, ps⟩

inductive Proto where
  | any
  | tcp
  | udp
  | icmp
  deriving DecidableEq

def Proto.text : Proto → Str
  | .any => str "any"
  | .tcp => str "tcp"
  | .udp => str "udp"
  | .icmp => str "icmp"

/-- `ParseProto`; empty means any. -/
def parseProto (raw : Str) : Option Proto :=
  let p := toLower (trimSpace raw)
  if p = [] ∨ p = Proto.any.text then some .any
  else if p = Proto.tcp.text then some .tcp
  else if p = Proto.udp.text then some .udp
  else if p = Proto.icmp.text then some .icmp
  else none

/-! ## What a selector's text is -/

section

variable {raw u : Str} {dst : Bool} {q : Prefix}

/-- A name is read as a user, group, tag or peer, never as an address. -/
theorem nameSelector_ne_cidr (s : Str) : nameSelector s ≠ .ok (.cidr q) := by
  unfold nameSelector namedSelector
  intro h
  repeat' split at h
  all_goals cases h

/-- A prefix is masked, and an address stands for itself. -/
theorem parseSelector_cidr (h : parseSelector raw dst = .ok (.cidr q)) :
    (∃ p, parsePrefix (trimSpace raw) = some p ∧ q = p.masked) ∨
      ∃ a, parseAddr (trimSpace raw) = some a ∧ a.zone = [] ∧ q = prefixFrom a a.bitLen := by
  unfold parseSelector at h
  simp only at h
  repeat' split at h
  all_goals first
    | cases h
    | skip
  · rename_i p hp _
    exact .inl ⟨p, hp, rfl⟩
  · grind
  · exact absurd h (nameSelector_ne_cidr _)

theorem parseSelector_user (h : parseSelector raw dst = .ok (.user u)) : nameSelector (trimSpace raw) = .ok (.user u) := by
  unfold parseSelector at h
  simp only at h
  repeat' split at h
  all_goals first
    | cases h
    | exact h

end

/-! ## Merging keeps the ports -/

theorem covers_nil (x : UInt16) : ¬Covers [] x := by
  rintro ⟨r, hr, -⟩
  cases hr

theorem covers_cons {r : PortRange} {l : List PortRange} {x : UInt16} :
    Covers (r :: l) x ↔ (r.lo ≤ x ∧ x ≤ r.hi) ∨ Covers l x := by
  simp [Covers]

theorem covers_append {l m : List PortRange} {x : UInt16} : Covers (l ++ m) x ↔ Covers l x ∨ Covers m x := by
  simp only [Covers, List.mem_append, or_and_right, exists_or]

/-- A range that starts inside or next to another merges with it into one range. -/
theorem absorbed_iff {last r : PortRange} {x : UInt16} (hlo : last.lo ≤ r.lo) (hnext : r.lo.toNat ≤ last.hi.toNat + 1) :
    (last.lo ≤ x ∧ x ≤ if last.hi < r.hi then r.hi else last.hi) ↔
      (last.lo ≤ x ∧ x ≤ last.hi) ∨ (r.lo ≤ x ∧ x ≤ r.hi) := by
  simp only [UInt16.le_iff_toNat_le, UInt16.lt_iff_toNat_lt] at *
  split <;> omega

theorem coalesce_covers {out rest : List PortRange} {last : PortRange} {x : UInt16}
    (h : (last :: rest).Pairwise fun a b => a.lo ≤ b.lo) :
    Covers (coalesce out last rest) x ↔ Covers out x ∨ Covers (last :: rest) x := by
  induction rest generalizing out last with
  | nil => rw [coalesce, covers_append]
  | cons r rest ih =>
    obtain ⟨hlast, hrest⟩ := List.pairwise_cons.mp h
    have hlo : last.lo ≤ r.lo := hlast r List.mem_cons_self
    rw [coalesce]
    split
    · rename_i hnext
      have hmerged : ((⟨last.lo, if last.hi < r.hi then r.hi else last.hi⟩ : PortRange) :: rest).Pairwise
          fun a b => a.lo ≤ b.lo :=
        List.pairwise_cons.mpr ⟨fun b hb => hlast b (List.mem_cons_of_mem _ hb), (List.pairwise_cons.mp hrest).2⟩
      rw [ih hmerged, covers_cons, covers_cons, covers_cons, absorbed_iff hlo hnext, or_assoc (a := _ ∧ _)]
    · rw [ih hrest, covers_append, covers_cons (r := last), covers_cons (r := last)]
      simp only [covers_nil, or_false, or_assoc]

theorem mergeRanges_covers (S : RangeSort) (l : List PortRange) (x : UInt16) : Covers (mergeRanges S l) x ↔ Covers l x := by
  have hmem : Covers (S.run l) x ↔ Covers l x := by
    unfold Covers
    simp only [S.mem_iff]
  have hsorted := S.sorted l
  unfold mergeRanges
  rw [← hmem]
  cases hs : S.run l with
  | nil => rfl
  | cons r rest =>
    rw [hs] at hsorted
    have hle : (r :: rest).Pairwise fun a b => a.lo ≤ b.lo :=
      hsorted.imp fun h => UInt16.not_lt.mp (of_decide_eq_false h)
    simp only [coalesce_covers hle, covers_nil, false_or]

theorem parsePorts_covers {S : RangeSort} {raw : Str} {ps : List PortRange} (h : parsePorts S raw = .ok ps) :
    ∃ l, portList raw = .ok l ∧ ∀ x, Covers ps x ↔ Covers l x := by
  unfold parsePorts at h
  unfold portList
  simp only at h ⊢
  split at h
  · cases h
  · rename_i hne
    rw [if_neg hne]
    split at h
    · rename_i hall
      cases h
      exact ⟨_, if_pos hall, fun _ => Iff.rfl⟩
    · rename_i hall
      rw [if_neg hall]
      cases hp : portParts (split (trimSpace raw) 44) with
      | error e => rw [hp] at h; cases h
      | ok l =>
        rw [hp] at h
        cases h
        exact ⟨l, rfl, mergeRanges_covers S l⟩

/-- What `ParseDst` returns for an entry, in terms of its two texts. -/
theorem parseDst_ok {S : RangeSort} {raw : Str} {d : Dst} (h : parseDst S raw = .ok d) :
    ∃ hp l, splitDst raw = some hp ∧ parseSelector hp.1 true = .ok d.host ∧ portList hp.2 = .ok l ∧
      ∀ x, Covers d.ports x ↔ Covers l x := by
  unfold parseDst at h
  cases hs : splitDst raw with
  | none => rw [hs] at h; cases h
  | some hp =>
    rw [hs] at h
    simp only at h
    cases hh : parseSelector hp.1 true with
    | error e => rw [hh] at h; cases h
    | ok host =>
      rw [hh] at h
      simp only at h
      cases hps : parsePorts S hp.2 with
      | error e => rw [hps] at h; cases h
      | ok ps =>
        rw [hps] at h
        cases h
        obtain ⟨l, hl, hc⟩ := parsePorts_covers hps
        exact ⟨hp, l, rfl, hh, hl, hc⟩

end Thawr.Control.Policy
