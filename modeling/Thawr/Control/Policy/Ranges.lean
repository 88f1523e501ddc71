/-
  Thawr.Control.Policy.Ranges — what `mergeRanges` makes of a list of port ranges.

  The ranges it returns leave a port free between each other, in order. Such a list is the
  only one of its kind that covers its ports, so merging two lists that cover the same ports
  gives the same list, however `sort.Slice` ordered them (`mergeRanges_canonical`).

  `Lists` says in the terms of the text which ports a list names; what `ParsePorts` returns
  covers those (`parsePorts_lists`).
-/

import Thawr.Control.Policy.Selector

namespace Thawr.Control.Policy

open Go

def Proper (l : List PortRange) : Prop := ∀ r ∈ l, r.lo.toNat ≤ r.hi.toNat

/-- `b` starts after the port that follows `a`. -/
def Apart (a b : PortRange) : Prop := a.hi.toNat + 1 < b.lo.toNat

theorem coalesce_proper {out rest : List PortRange} {last : PortRange} (hout : Proper out) (hrest : Proper (last :: rest)) :
    Proper (coalesce out last rest) := by
  induction rest generalizing out last with
  | nil =>
    intro r hr
    rcases List.mem_append.mp hr with hr | hr
    · exact hout r hr
    · exact hrest r hr
  | cons r rest ih =>
    have hlast := hrest last List.mem_cons_self
    have htail : Proper (r :: rest) := fun x hx => hrest x (List.mem_cons_of_mem _ hx)
    rw [coalesce]
    split
    · refine ih hout fun x hx => ?_
      rcases List.mem_cons.mp hx with hx | hx
      · rw [hx]
        show last.lo.toNat ≤ (if last.hi < r.hi then r.hi else last.hi).toNat
        split
        · rename_i hlt
          rw [UInt16.lt_iff_toNat_lt] at hlt
          omega
        · exact hlast
      · exact htail x (List.mem_cons_of_mem _ hx)
    · refine ih (fun x hx => ?_) htail
      rcases List.mem_append.mp hx with hx | hx
      · exact hout x hx
      · rw [List.mem_singleton.mp hx]
        exact hlast

/-- The loop keeps what it has put out apart from the range it still extends. -/
theorem coalesce_apart {out rest : List PortRange} {last : PortRange}
    (hsorted : (last :: rest).Pairwise fun a b => a.lo.toNat ≤ b.lo.toNat) (hapart : (out ++ [last]).Pairwise Apart) :
    (coalesce out last rest).Pairwise Apart := by
  induction rest generalizing out last with
  | nil => exact hapart
  | cons r rest ih =>
    obtain ⟨hlast, hrest⟩ := List.pairwise_cons.mp hsorted
    have hlo : last.lo.toNat ≤ r.lo.toNat := hlast r List.mem_cons_self
    obtain ⟨hout, -, hcross⟩ := List.pairwise_append.mp hapart
    rw [coalesce]
    split
    · refine ih (List.pairwise_cons.mpr ⟨fun b hb => hlast b (List.mem_cons_of_mem _ hb), (List.pairwise_cons.mp hrest).2⟩) ?_
      refine List.pairwise_append.mpr ⟨hout, List.pairwise_singleton _ _, fun a ha b hb => ?_⟩
      rw [List.mem_singleton.mp hb]
      exact hcross a ha last (List.mem_singleton_self _)
    · rename_i hfar
      refine ih hrest (List.pairwise_append.mpr ⟨hapart, List.pairwise_singleton _ _, fun a ha b hb => ?_⟩)
      rw [List.mem_singleton.mp hb]
      unfold Apart
      rcases List.mem_append.mp ha with ha | ha
      · have hal := hcross a ha last (List.mem_singleton_self _)
        unfold Apart at hal
        omega
      · rw [List.mem_singleton.mp ha]
        omega

variable {l m ps : List PortRange} {r a : PortRange} {raw : Str} {S : RangeSort}

theorem mergeRanges_proper (S : RangeSort) (h : Proper l) : Proper (mergeRanges S l) := by
  have hrun : Proper (S.run l) := fun r hr => h r (S.mem_iff.mp hr)
  unfold mergeRanges
  cases hs : S.run l with
  | nil =>
    intro r hr
    cases hr
  | cons r rest =>
    rw [hs] at hrun
    exact coalesce_proper (fun x hx => absurd hx List.not_mem_nil) hrun

theorem mergeRanges_apart (S : RangeSort) (l : List PortRange) : (mergeRanges S l).Pairwise Apart := by
  have hsorted := S.sorted l
  unfold mergeRanges
  cases hs : S.run l with
  | nil => exact List.Pairwise.nil
  | cons r rest =>
    rw [hs] at hsorted
    refine coalesce_apart (hsorted.imp fun h => ?_) (List.pairwise_singleton _ _)
    exact UInt16.le_iff_toNat_le.mp (UInt16.not_lt.mp (of_decide_eq_false h))

/-! ## One list for each set of ports -/

theorem covers_lo (h : Proper l) (hr : r ∈ l) : Covers l r.lo :=
  ⟨r, hr, UInt16.le_refl _, UInt16.le_iff_toNat_le.mpr (h r hr)⟩

/-- The first range starts at the least port covered. -/
theorem lo_le_of_covers (h : Proper (a :: l)) (hp : (a :: l).Pairwise Apart) {x : UInt16}
    (hx : Covers (a :: l) x) : a.lo.toNat ≤ x.toNat := by
  obtain ⟨r, hr, hlo, -⟩ := hx
  rw [UInt16.le_iff_toNat_le] at hlo
  rcases List.mem_cons.mp hr with rfl | hr
  · exact hlo
  · have hap := (List.pairwise_cons.mp hp).1 r hr
    have ha := h a List.mem_cons_self
    unfold Apart at hap
    omega

/-- No list of such ranges covers the port after its first range. -/
theorem hi_le_of_covers {b : PortRange} (hp : (a :: l).Pairwise Apart) (hlo : a.lo.toNat = b.lo.toNat)
    (ha : a.lo.toNat ≤ a.hi.toNat) (hsub : ∀ x, Covers (b :: m) x → Covers (a :: l) x) : b.hi.toNat ≤ a.hi.toNat := by
  by_contra hlt
  have hbhi : b.hi.toNat < 65536 := b.hi.toNat_lt
  have hx : (UInt16.ofNat (a.hi.toNat + 1)).toNat = a.hi.toNat + 1 :=
    UInt16.toNat_ofNat_of_lt' (by simp only [UInt16.size]; omega)
  have hcov : Covers (b :: m) (UInt16.ofNat (a.hi.toNat + 1)) := by
    refine ⟨b, List.mem_cons_self, ?_, ?_⟩
    · rw [UInt16.le_iff_toNat_le]
      omega
    · rw [UInt16.le_iff_toNat_le]
      omega
  obtain ⟨r, hr, h1, h2⟩ := hsub _ hcov
  rw [UInt16.le_iff_toNat_le] at h1 h2
  rcases List.mem_cons.mp hr with rfl | hr
  · omega
  · have hap := (List.pairwise_cons.mp hp).1 r hr
    unfold Apart at hap
    omega

theorem covers_tail (hp : (a :: l).Pairwise Apart) {x : UInt16} :
    Covers l x ↔ Covers (a :: l) x ∧ a.hi.toNat < x.toNat := by
  rw [covers_cons]
  constructor
  · intro h
    obtain ⟨r, hr, hlo, hhi⟩ := h
    have hap := (List.pairwise_cons.mp hp).1 r hr
    rw [UInt16.le_iff_toNat_le] at hlo
    unfold Apart at hap
    exact ⟨.inr ⟨r, hr, UInt16.le_iff_toNat_le.mpr hlo, hhi⟩, by omega⟩
  · intro h
    obtain ⟨h | h, hlt⟩ := h
    · rw [UInt16.le_iff_toNat_le, UInt16.le_iff_toNat_le] at h
      omega
    · exact h

theorem apart_ext (hl : Proper l) (hm : Proper m) (hlp : l.Pairwise Apart) (hmp : m.Pairwise Apart)
    (h : ∀ x, Covers l x ↔ Covers m x) : l = m := by
  induction l generalizing m with
  | nil =>
    cases m with
    | nil => rfl
    | cons b m => exact absurd ((h b.lo).mpr (covers_lo hm List.mem_cons_self)) (covers_nil _)
  | cons a l ih =>
    cases m with
    | nil => exact absurd ((h a.lo).mp (covers_lo hl List.mem_cons_self)) (covers_nil _)
    | cons b m =>
      have hlo : a.lo.toNat = b.lo.toNat := Nat.le_antisymm
        (lo_le_of_covers hl hlp ((h _).mpr (covers_lo hm List.mem_cons_self)))
        (lo_le_of_covers hm hmp ((h _).mp (covers_lo hl List.mem_cons_self)))
      have hhi : a.hi.toNat = b.hi.toNat := Nat.le_antisymm
        (hi_le_of_covers hmp hlo.symm (hm b List.mem_cons_self) fun x => (h x).mp)
        (hi_le_of_covers hlp hlo (hl a List.mem_cons_self) fun x => (h x).mpr)
      have hab : a = b := by
        cases a
        cases b
        rw [PortRange.mk.injEq]
        exact ⟨UInt16.toNat_inj.mp hlo, UInt16.toNat_inj.mp hhi⟩
      have htail : ∀ x, Covers l x ↔ Covers m x := by
        intro x
        rw [covers_tail hlp, covers_tail hmp, h x, hhi]
      rw [hab, ih (fun r hr => hl r (List.mem_cons_of_mem _ hr)) (fun r hr => hm r (List.mem_cons_of_mem _ hr))
        (List.pairwise_cons.mp hlp).2 (List.pairwise_cons.mp hmp).2 htail]

theorem mergeRanges_canonical (S T : RangeSort) (hl : Proper l) (hm : Proper m)
    (h : ∀ x, Covers l x ↔ Covers m x) : mergeRanges S l = mergeRanges T m := by
  refine apart_ext (mergeRanges_proper S hl) (mergeRanges_proper T hm) (mergeRanges_apart S l) (mergeRanges_apart T m) fun x => ?_
  rw [mergeRanges_covers, mergeRanges_covers, h x]

def rangeSort : RangeSort where
  run := List.insertionSort fun a b => a.lo ≤ b.lo
  perm := List.perm_insertionSort _
  sorted l := by
    have : Std.Total fun a b : PortRange => a.lo ≤ b.lo := ⟨fun a b => UInt16.le_total a.lo b.lo⟩
    have : IsTrans PortRange fun a b => a.lo ≤ b.lo := ⟨fun _ _ _ => UInt16.le_trans⟩
    refine (List.pairwise_insertionSort (fun a b : PortRange => a.lo ≤ b.lo) l).imp ?_
    intro a b h
    exact decide_eq_false (UInt16.not_lt.mpr h)

/-! ## What a policy's port lists are -/

theorem portPart_proper (h : portPart raw = .ok r) : r.lo.toNat ≤ r.hi.toNat := by
  unfold portPart at h
  simp only at h
  split at h
  · obtain ⟨a, -, rfl⟩ := map_ok.mp h
    exact Nat.le_refl _
  · obtain ⟨a, -, h⟩ := bind_ok.mp h
    obtain ⟨b, -, h⟩ := bind_ok.mp h
    split at h
    · cases h
    · rename_i hlt
      cases h
      exact UInt16.le_iff_toNat_le.mp (UInt16.not_lt.mp hlt)

theorem portParts_proper {parts : List Str} (h : portParts parts = .ok l) : Proper l := by
  induction parts generalizing l with
  | nil =>
    cases h
    intro r hr
    cases hr
  | cons p parts ih =>
    obtain ⟨r, hr, h⟩ := bind_ok.mp h
    obtain ⟨rs, hrs, h⟩ := bind_ok.mp h
    cases h
    intro x hx
    rcases List.mem_cons.mp hx with rfl | hx
    · exact portPart_proper hr
    · exact ih hrs x hx

theorem parsePorts_proper (h : parsePorts S raw = .ok ps) : Proper ps := by
  unfold parsePorts at h
  simp only at h
  obtain ⟨-, h⟩ := ite_error_ok.mp h
  split at h
  · cases h
    intro r hr
    rw [List.mem_singleton.mp hr]
    decide
  · obtain ⟨l, hl, rfl⟩ := map_ok.mp h
    exact mergeRanges_proper S (portParts_proper hl)

/-- A port list that parses has a port. -/
theorem portList_covers (h : portList raw = .ok l) : ∃ x, Covers l x := by
  unfold portList at h
  simp only at h
  obtain ⟨-, h⟩ := ite_error_ok.mp h
  split at h
  · cases h
    exact ⟨1, allPorts, List.mem_singleton_self _, by decide, by decide⟩
  · cases hs : split (trimSpace raw) 44 with
    | nil => exact absurd hs (split_ne_nil _ _)
    | cons part rest =>
      have hproper := portParts_proper h
      rw [hs, portParts] at h
      obtain ⟨r, -, h⟩ := bind_ok.mp h
      obtain ⟨rs, -, h⟩ := bind_ok.mp h
      cases h
      refine ⟨r.lo, r, List.mem_cons_self, UInt16.le_refl _, ?_⟩
      exact UInt16.le_iff_toNat_le.mpr (hproper r List.mem_cons_self)

theorem parseDst_proper {d : Dst} (h : parseDst S raw = .ok d) : Proper d.ports := by
  unfold parseDst at h
  split at h
  · cases h
  · split at h
    · cases h
    · split at h
      · cases h
      · rename_i hps
        cases h
        exact parsePorts_proper hps

/-! ## The ports a text lists -/

def PortText (s : Str) (n : Nat) : Prop := parseUint 16 (trimSpace s) = some n ∧ n ≠ 0

/-- A part of a port list names the port: it is the port, or two ports with a hyphen and the
port between them. -/
def PartLists (part : Str) (x : Nat) : Prop :=
  cut (trimSpace part) 45 = none ∧ PortText (trimSpace part) x ∨
    ∃ lo hi a b, cut (trimSpace part) 45 = some (lo, hi) ∧ PortText lo a ∧ PortText hi b ∧ a ≤ x ∧ x ≤ b

/-- The ports of a list: all of them for "*", else those its parts name. -/
def Lists (raw : Str) (x : Nat) : Prop :=
  trimSpace raw = str "*" ∧ 1 ≤ x ∧ x ≤ 65535 ∨ trimSpace raw ≠ str "*" ∧ ∃ part ∈ split (trimSpace raw) 44, PartLists part x

theorem parsePort_text {s : Str} {a : UInt16} (h : parsePort s = .ok a) : PortText s a.toNat ∧ 1 ≤ a.toNat := by
  unfold parsePort at h
  split at h
  · cases h
  · rename_i n hn
    obtain ⟨hne, h⟩ := ite_error_ok.mp h
    cases h
    have hlt : n < 65536 := parseUint_lt hn
    rw [UInt16.toNat_ofNat_of_lt' (by simpa only [UInt16.size] using hlt)]
    exact ⟨⟨hn, hne⟩, Nat.one_le_iff_ne_zero.mpr hne⟩

theorem portText_inj {s : Str} {m n : Nat} (hm : PortText s m) (hn : PortText s n) : m = n := by
  have h := hm.1
  rw [hn.1] at h
  exact (Option.some.inj h).symm

theorem portPart_lists (h : portPart raw = .ok r) :
    1 ≤ r.lo.toNat ∧ ∀ x, PartLists raw x ↔ r.lo.toNat ≤ x ∧ x ≤ r.hi.toNat := by
  unfold portPart at h
  simp only at h
  unfold PartLists
  split at h
  · rename_i hcut
    obtain ⟨a, ha, rfl⟩ := map_ok.mp h
    obtain ⟨htext, hpos⟩ := parsePort_text ha
    refine ⟨hpos, fun x => ?_⟩
    constructor
    · rintro (⟨-, hx⟩ | ⟨lo, hi, _, _, hcut', _⟩)
      · rw [portText_inj hx htext]
        exact ⟨Nat.le_refl _, Nat.le_refl _⟩
      · rw [hcut] at hcut'
        cases hcut'
    · rintro ⟨h1, h2⟩
      rw [Nat.le_antisymm h2 h1]
      exact .inl ⟨hcut, htext⟩
  · rename_i lo hi hcut
    obtain ⟨a, ha, h⟩ := bind_ok.mp h
    obtain ⟨b, hb, h⟩ := bind_ok.mp h
    split at h
    · cases h
    · cases h
      obtain ⟨hlo, hpos⟩ := parsePort_text ha
      have hhi := (parsePort_text hb).1
      refine ⟨hpos, fun x => ?_⟩
      constructor
      · rintro (⟨hcut', -⟩ | ⟨lo', hi', m, n, hcut', hm, hn, hx⟩)
        · rw [hcut] at hcut'
          cases hcut'
        · rw [hcut] at hcut'
          cases hcut'
          rwa [portText_inj hm hlo, portText_inj hn hhi] at hx
      · intro hx
        exact .inr ⟨lo, hi, _, _, hcut, hlo, hhi, hx⟩

theorem portParts_lists {parts : List Str} (h : portParts parts = .ok l) :
    (∀ r ∈ l, 1 ≤ r.lo.toNat) ∧ ∀ x : UInt16, (∃ part ∈ parts, PartLists part x.toNat) ↔ Covers l x := by
  induction parts generalizing l with
  | nil =>
    cases h
    simp [Covers]
  | cons p parts ih =>
    obtain ⟨r, hr, h⟩ := bind_ok.mp h
    obtain ⟨rs, hrs, h⟩ := bind_ok.mp h
    cases h
    obtain ⟨hpos, hp⟩ := portPart_lists hr
    obtain ⟨hposs, hps⟩ := ih hrs
    refine ⟨List.forall_mem_cons.mpr ⟨hpos, hposs⟩, fun x => ?_⟩
    rw [covers_cons, ← hps x, UInt16.le_iff_toNat_le, UInt16.le_iff_toNat_le, ← hp]
    simp only [List.mem_cons, or_and_right, exists_or, exists_eq_left]

theorem portList_lists (h : portList raw = .ok l) :
    (∀ r ∈ l, 1 ≤ r.lo.toNat) ∧ ∀ x : UInt16, Covers l x ↔ Lists raw x.toNat := by
  unfold portList at h
  simp only at h
  unfold Lists
  split at h
  · cases h
  · split at h
    · rename_i hall
      cases h
      refine ⟨by simp [allPorts], fun x => ?_⟩
      have hx : x.toNat < 65536 := x.toNat_lt
      simp only [covers_cons, covers_nil, allPorts, or_false, UInt16.le_iff_toNat_le, UInt16.reduceToNat, hall, true_and, ne_eq,
        not_true_eq_false, false_and]
    · rename_i hall
      obtain ⟨hpos, hc⟩ := portParts_lists h
      grind

theorem lists_lt {x : Nat} (h : Lists raw x) : x < 65536 := by
  rcases h with ⟨-, -, hx⟩ | ⟨-, part, -, ⟨-, hx, -⟩ | ⟨_, _, _, b, -, -, ⟨hb, -⟩, -, hx⟩⟩
  · omega
  · exact parseUint_lt hx
  · have hlt : b < 65536 := parseUint_lt hb
    omega

theorem parsePorts_lists (h : parsePorts S raw = .ok ps) (x : UInt16) :
    Covers ps x ↔ Lists raw x.toNat := by
  obtain ⟨l, hl, hc⟩ := parsePorts_covers h
  rw [hc x, (portList_lists hl).2 x]

/-- Port 0 is listed by no text. -/
theorem parsePorts_pos (h : parsePorts S raw = .ok ps)
    (hr : r ∈ ps) : 1 ≤ r.lo.toNat := by
  obtain ⟨l, hl, hc⟩ := parsePorts_covers h
  obtain ⟨q, hq, hlo, -⟩ := (hc r.lo).mp (covers_lo (parsePorts_proper h) hr)
  exact ((portList_lists hl).1 q hq).trans (UInt16.le_iff_toNat_le.mp hlo)

theorem apart_sorted (hl : Proper l) (hp : l.Pairwise Apart) : l.Pairwise fun a b => a.lo < b.lo := by
  refine hp.imp_of_mem fun {a b} ha _ hab => ?_
  have hle := hl a ha
  unfold Apart at hab
  rw [UInt16.lt_iff_toNat_lt]
  omega

/-- `mergeRanges` returns the one list of ranges in order, with a free port between each two,
that covers the ports of its input; and what `ParsePorts` returns covers the ports its text
lists, none of them 0. -/
theorem mergeRanges_normal_form (S T : RangeSort) :
    (∀ l, Proper l →
      ((mergeRanges S l).Pairwise fun a b => a.lo < b.lo) ∧ (mergeRanges S l).Pairwise Apart ∧ Proper (mergeRanges S l) ∧
        ∀ x, Covers (mergeRanges S l) x ↔ Covers l x) ∧
    (∀ l m, Proper l → Proper m → (∀ x, Covers l x ↔ Covers m x) → mergeRanges S l = mergeRanges T m) ∧
    ∀ raw ps, parsePorts S raw = .ok ps →
      (∀ x : Nat, Lists raw x ↔ ∃ port : UInt16, port.toNat = x ∧ Covers ps port) ∧
        ∀ r ∈ ps, 1 ≤ r.lo.toNat ∧ r.lo.toNat ≤ r.hi.toNat ∧ r.hi.toNat ≤ 65535 := by
  refine ⟨fun l hl => ?_, fun l m hl hm h => mergeRanges_canonical S T hl hm h, fun raw ps h => ⟨fun x => ?_, fun r hr => ?_⟩⟩
  · exact ⟨apart_sorted (mergeRanges_proper S hl) (mergeRanges_apart S l), mergeRanges_apart S l, mergeRanges_proper S hl,
      mergeRanges_covers S l⟩
  · constructor
    · intro hx
      have hnat : (UInt16.ofNat x).toNat = x := UInt16.toNat_ofNat_of_lt' (by simpa only [UInt16.size] using lists_lt hx)
      refine ⟨UInt16.ofNat x, hnat, (parsePorts_lists h _).mpr ?_⟩
      rwa [hnat]
    · rintro ⟨port, rfl, hc⟩
      exact (parsePorts_lists h port).mp hc
  · exact ⟨parsePorts_pos h hr, parsePorts_proper h r hr, Nat.le_of_lt_succ r.hi.toNat_lt⟩

theorem mergeRanges_normal_form_ssh :
    Proper [⟨22, 22⟩, ⟨20, 21⟩] ∧ mergeRanges rangeSort [⟨22, 22⟩, ⟨20, 21⟩] = [⟨20, 22⟩] ∧
      ((mergeRanges rangeSort [⟨22, 22⟩, ⟨20, 21⟩]).Pairwise Apart) ∧
      parsePorts rangeSort (str "443, 20-21,22") = .ok [⟨20, 22⟩, ⟨443, 443⟩] ∧
      ∀ x : Nat, Lists (str "443, 20-21,22") x ↔ ∃ port : UInt16, port.toNat = x ∧ Covers [⟨20, 22⟩, ⟨443, 443⟩] port := by
  have hproper : Proper [⟨22, 22⟩, ⟨20, 21⟩] := by
    unfold Proper
    decide
  have hparse : parsePorts rangeSort (str "443, 20-21,22") = .ok [⟨20, 22⟩, ⟨443, 443⟩] := by decide +kernel
  refine ⟨hproper, by decide +kernel, ?_, hparse, ?_⟩
  · exact ((mergeRanges_normal_form rangeSort rangeSort).1 _ hproper).2.1
  · exact ((mergeRanges_normal_form rangeSort rangeSort).2.2 _ _ hparse).1

end Thawr.Control.Policy
