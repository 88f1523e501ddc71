/-
  Thawr.Control.Path.Order — what `Order` makes of a peer's endpoints
  (`internal/control/path/order.go`).

  The loop gives an address the class of the first endpoint that has one (`classIn`); a
  reflexive endpoint that is skipped does not stop a later one of the same address. The
  addresses with a class are the candidates, each once (`mem_order`, `order_nodup`), by class
  and then by text (`order_sorted`). No two valid addresses have the same text, so that order
  leaves nothing open: the result depends on the class of each address alone, and where no
  address comes with two kinds that is a matter of which endpoints there are, not of where in
  the list they stand (`order_congr`).
-/

import Thawr.Go.AddrText
import Thawr.Control.Path.Machine

namespace Thawr.Control.Path

open Go Netip

/-- The class of the first endpoint of the address that has one. -/
def classIn (ours : List Addr) (selfSymmetric peerSymmetric : Bool) (theirs : List Endpoint) (a : AddrPort) : Option Nat :=
  theirs.findSome? fun e => if e.addr = a then classOf ours selfSymmetric peerSymmetric e else none

/-- `a` is a better candidate than `b`: its class is lower, or it is the same and its text is. -/
def Better (ours : List Addr) (selfSymmetric peerSymmetric : Bool) (theirs : List Endpoint) (a b : AddrPort) : Prop :=
  ∃ c d, classIn ours selfSymmetric peerSymmetric theirs a = some c ∧ classIn ours selfSymmetric peerSymmetric theirs b = some d ∧
    (c < d ∨ c = d ∧ a.string < b.string)

/-- No address comes with two kinds. -/
def OneKind (theirs : List Endpoint) : Prop := ∀ e ∈ theirs, ∀ f ∈ theirs, e.addr = f.addr → e.kind = f.kind

section

variable {ours : List Addr} {ss ps : Bool} {theirs : List Endpoint} {a b : AddrPort} {c : Nat} {e : Endpoint}

/-! ## The loop -/

theorem classIn_nil : classIn ours ss ps [] a = none := rfl

theorem classIn_cons :
    classIn ours ss ps (e :: theirs) a =
      ((if e.addr = a then classOf ours ss ps e else none).or (classIn ours ss ps theirs a)) := by
  unfold classIn
  grind

/-- A turn that appends an address appends one that was not there. -/
theorem rank_cases (ours : List Addr) (ss ps : Bool) (list : List (AddrPort × Nat)) (e : Endpoint) :
    (rank ours ss ps list e = list ∧
      (e.addr.isValid = false ∨ e.addr ∈ list.map (·.1) ∨ classOf ours ss ps e = none)) ∨
    ∃ c, rank ours ss ps list e = list ++ [(e.addr, c)] ∧ e.addr.isValid = true ∧ e.addr ∉ list.map (·.1) ∧
      classOf ours ss ps e = some c := by
  have hany : list.any (·.1 == e.addr) = true ↔ e.addr ∈ list.map (·.1) := by
    rw [List.any_eq_true, List.mem_map]
    simp only [beq_iff_eq]
  unfold rank
  split
  · grind
  · rename_i hskip
    rw [Bool.or_eq_true, Bool.not_eq_true', hany, not_or, Bool.not_eq_false] at hskip
    grind

/-- The loop keeps what it has and adds the valid addresses that were not there, each with its
    class in the endpoints that follow. -/
theorem mem_ranks (list : List (AddrPort × Nat)) :
    (a, c) ∈ theirs.foldl (rank ours ss ps) list ↔
      (a, c) ∈ list ∨ a ∉ list.map (·.1) ∧ a.isValid = true ∧ classIn ours ss ps theirs a = some c := by
  induction theirs generalizing list with
  | nil => simp [classIn_nil]
  | cons e theirs ih =>
    rw [List.foldl_cons, ih, classIn_cons]
    rcases rank_cases ours ss ps list e with ⟨hrank, hwhy⟩ | ⟨d, hrank, hv, hnew, hd⟩
    · -- nothing is appended: an address still to come is not this one, or this one has no class
      grind
    · rw [hrank]
      by_cases ha : e.addr = a
      · subst ha
        rw [if_pos rfl, hd, Option.some_or]
        have hnot : ∀ c, (e.addr, c) ∉ list := fun c hc => hnew (List.mem_map_of_mem hc)
        simp only [List.mem_append, List.mem_singleton, List.map_append, List.map_cons, List.map_nil, hnot,
          Prod.mk.injEq, true_and,
          false_or, or_true, not_true_eq_false, false_and, or_false, hnew, not_false_eq_true, hv, Option.some.injEq]
        exact eq_comm
      · rw [if_neg ha, Option.none_or]
        simp only [List.mem_append, List.mem_singleton, List.map_append, List.map_cons, List.map_nil, Prod.mk.injEq, Ne.symm ha,
          false_and, or_false]

theorem ranks_nodup (theirs : List Endpoint) {list : List (AddrPort × Nat)} (h : (list.map (·.1)).Nodup) :
    ((theirs.foldl (rank ours ss ps) list).map (·.1)).Nodup := by
  induction theirs generalizing list with
  | nil => exact h
  | cons e theirs ih =>
    rw [List.foldl_cons]
    apply ih
    rcases rank_cases ours ss ps list e with ⟨hrank, -⟩ | ⟨d, hrank, -, hnew, -⟩
    · rwa [hrank]
    · grind

/-! ## The sort -/

theorem addrPort_string_inj (ha : a.isValid = true) (hb : b.isValid = true) (h : a.string = b.string) : a = b := by
  have hread := parseAddrPort_string ha
  rw [h, parseAddrPort_string hb] at hread
  exact (Option.some.inj hread).symm

theorem ranksBefore_total (x y : AddrPort × Nat) : ranksBefore x y ∨ ranksBefore y x := by
  unfold ranksBefore
  grind

theorem ranksBefore_trans {x y z : AddrPort × Nat} (hxy : ranksBefore x y) (hyz : ranksBefore y z) : ranksBefore x z := by
  unfold ranksBefore at *
  grind

theorem mem_order : a ∈ order ours theirs ss ps ↔ a.isValid = true ∧ ∃ c, classIn ours ss ps theirs a = some c := by
  unfold order
  rw [List.mem_map]
  constructor
  · rintro ⟨⟨x, c⟩, hx, rfl⟩
    rcases (mem_ranks []).mp ((List.perm_insertionSort _ _).mem_iff.mp hx) with h | ⟨-, hv, hc⟩
    · cases h
    · exact ⟨hv, c, hc⟩
  · rintro ⟨hv, c, hc⟩
    refine ⟨(a, c), (List.perm_insertionSort _ _).mem_iff.mpr ((mem_ranks []).mpr (.inr ⟨?_, hv, hc⟩)), rfl⟩
    exact List.not_mem_nil

theorem order_nodup (ours : List Addr) (theirs : List Endpoint) (ss ps : Bool) : (order ours theirs ss ps).Nodup :=
  (((List.perm_insertionSort _ _).map _).nodup_iff).mpr (ranks_nodup theirs List.nodup_nil)

theorem order_sorted (ours : List Addr) (theirs : List Endpoint) (ss ps : Bool) :
    (order ours theirs ss ps).Pairwise (Better ours ss ps theirs) := by
  have : Std.Total ranksBefore := ⟨ranksBefore_total⟩
  have : IsTrans (AddrPort × Nat) ranksBefore := ⟨fun _ _ _ => ranksBefore_trans⟩
  have hsort := List.pairwise_insertionSort ranksBefore (theirs.foldl (rank ours ss ps) [])
  have hnd := List.pairwise_map.mp (order_nodup ours theirs ss ps)
  refine List.pairwise_map.mpr ((hsort.and hnd).imp_of_mem fun {x y} hx hy hxy => ?_)
  obtain ⟨hbefore, hne⟩ := hxy
  rcases (mem_ranks []).mp ((List.perm_insertionSort _ _).mem_iff.mp hx) with h | ⟨-, hxv, hxc⟩
  · cases h
  rcases (mem_ranks []).mp ((List.perm_insertionSort _ _).mem_iff.mp hy) with h | ⟨-, hyv, hyc⟩
  · cases h
  refine ⟨x.2, y.2, hxc, hyc, ?_⟩
  rcases hbefore with h | ⟨hclass, htext⟩
  · exact .inl h
  · -- two candidates of one text would be one address
    refine .inr ⟨hclass, ?_⟩
    by_contra hlt
    exact hne (addrPort_string_inj hxv hyv (List.le_antisymm htext (List.not_lt.mp hlt)))

theorem better_asymm (h : Better ours ss ps theirs a b) : ¬Better ours ss ps theirs b a := by
  rintro ⟨c', d', hb, ha, hlt'⟩
  obtain ⟨c, d, hc, hd, hlt⟩ := h
  grind

/-! ## Where the endpoints stand in their lists -/

theorem classIn_iff :
    (∃ c, classIn ours ss ps theirs a = some c) ↔ ∃ e ∈ theirs, e.addr = a ∧ ∃ c, classOf ours ss ps e = some c := by
  rw [← Option.isSome_iff_exists, classIn, List.isSome_findSome?, List.any_eq_true]
  refine exists_congr fun e => and_congr_right fun _ => ?_
  by_cases ha : e.addr = a
  · rw [if_pos ha, Option.isSome_iff_exists]
    simp only [ha, true_and]
  · rw [if_neg ha]
    simp only [ha, false_and, Option.isSome_none, Bool.false_eq_true]

theorem classOf_iff :
    (∃ c, classOf ours ss ps e = some c) ↔ e.kind ≠ .unknown ∧ ¬(e.kind = .reflexive ∧ ss = true ∧ ps = true) := by
  unfold classOf
  cases hk : e.kind with
  | unknown => simp
  | locl => simp
  | stable => simp
  | reflexive =>
    cases ss with
    | false => simp
    | true =>
      cases ps with
      | false => simp
      | true => simp

/-- Where every endpoint of an address is the same, its class is that endpoint's. -/
theorem classIn_oneKind (h : OneKind theirs) :
    classIn ours ss ps theirs a = some c ↔ ∃ e ∈ theirs, e.addr = a ∧ classOf ours ss ps e = some c := by
  constructor
  · intro hc
    obtain ⟨e, he, hec⟩ := List.exists_of_findSome?_eq_some hc
    grind
  · rintro ⟨e, he, ha, hec⟩
    obtain ⟨d, hd⟩ := classIn_iff.mpr ⟨e, he, ha, c, hec⟩
    obtain ⟨f, hf, hfd⟩ := List.exists_of_findSome?_eq_some hd
    by_cases hfa : f.addr = a
    · rw [if_pos hfa] at hfd
      have hfe : f = e := by
        have haddr : f.addr = e.addr := hfa.trans ha.symm
        have hkind := h f hf e he haddr
        cases f
        cases e
        simp only at haddr hkind
        rw [haddr, hkind]
      rw [hfe, hec] at hfd
      rw [hd, hfd]
    · rw [if_neg hfa] at hfd
      cases hfd

theorem sameLAN_congr {ours' : List Addr} (h : ∀ o, o ∈ ours ↔ o ∈ ours') (x : Addr) : sameLAN ours x = sameLAN ours' x := by
  unfold sameLAN
  congr 1
  rw [Bool.eq_iff_iff, List.any_eq_true, List.any_eq_true]
  simp only [h]

theorem classOf_congr {ours' : List Addr} (h : ∀ o, o ∈ ours ↔ o ∈ ours') (e : Endpoint) :
    classOf ours ss ps e = classOf ours' ss ps e := by
  unfold classOf
  rw [sameLAN_congr h]

theorem order_congr {ours' : List Addr} {theirs' : List Endpoint} (hours : ∀ o, o ∈ ours ↔ o ∈ ours')
    (htheirs : ∀ e, e ∈ theirs ↔ e ∈ theirs') (hkind : OneKind theirs) : order ours theirs ss ps = order ours' theirs' ss ps := by
  have hkind' : OneKind theirs' := fun e he f hf => hkind e ((htheirs e).mpr he) f ((htheirs f).mpr hf)
  have hclass : ∀ a, classIn ours ss ps theirs a = classIn ours' ss ps theirs' a := by
    intro a
    refine Option.ext fun c => ?_
    rw [classIn_oneKind hkind, classIn_oneKind hkind']
    simp only [htheirs, classOf_congr hours]
  refine sorted_ext (fun _ _ => better_asymm) (order_sorted ours theirs ss ps) ?_ fun a => ?_
  · refine (order_sorted ours' theirs' ss ps).imp fun hab => ?_
    unfold Better at hab ⊢
    rwa [hclass, hclass]
  · rw [mem_order, mem_order, hclass]

end

/-- `Order` returns each address once that is valid and comes with a known kind, other than
reflexive where both sides are symmetric: by the class of its first such endpoint and then by
its text. Where no address comes with two kinds it does not matter in which order the two
lists are given. -/
theorem order_exact (ours : List Addr) (theirs : List Endpoint) (ss ps : Bool) :
    (order ours theirs ss ps).Nodup ∧
    (∀ a, a ∈ order ours theirs ss ps ↔ a.isValid = true ∧
      ∃ e ∈ theirs, e.addr = a ∧ e.kind ≠ .unknown ∧ ¬(e.kind = .reflexive ∧ ss = true ∧ ps = true)) ∧
    (order ours theirs ss ps).Pairwise (Better ours ss ps theirs) ∧
    ∀ ours' theirs', ours.Perm ours' → theirs.Perm theirs' → OneKind theirs →
      order ours theirs ss ps = order ours' theirs' ss ps := by
  refine ⟨order_nodup ours theirs ss ps, fun a => ?_, order_sorted ours theirs ss ps, fun ours' theirs' ho ht hkind => ?_⟩
  · rw [mem_order, classIn_iff]
    simp only [classOf_iff]
  · exact order_congr (fun _ => ho.mem_iff) (fun _ => ht.mem_iff) hkind

def athome : List Endpoint :=
  [⟨⟨.v4 (Arr.ofNat 4 0xcb007107), 41641⟩, .reflexive⟩, ⟨⟨.v4 (Arr.ofNat 4 0xc0a80203), 41641⟩, .locl⟩,
    ⟨⟨.v4 (Arr.ofNat 4 0xc0a80103), 41641⟩, .locl⟩]

theorem order_exact_athome :
    order [.v4 (Arr.ofNat 4 0xc0a80102)] athome.reverse false true =
        [⟨.v4 (Arr.ofNat 4 0xc0a80103), 41641⟩, ⟨.v4 (Arr.ofNat 4 0xc0a80203), 41641⟩, ⟨.v4 (Arr.ofNat 4 0xcb007107), 41641⟩] ∧
      OneKind athome ∧
      order [.v4 (Arr.ofNat 4 0xc0a80102)] athome false true =
        order [.v4 (Arr.ofNat 4 0xc0a80102)] athome.reverse false true := by
  have hkind : OneKind athome := by
    unfold OneKind athome
    decide +kernel
  refine ⟨by decide +kernel, hkind, ?_⟩
  exact (order_exact _ athome false true).2.2.2 _ _ (List.Perm.refl _) (List.reverse_perm athome).symm hkind

/-- With two kinds, the first one says where the address stands. -/
example :
    let home : AddrPort := ⟨.v4 (Arr.ofNat 4 0xc0a80103), 41641⟩
    let away : AddrPort := ⟨.v4 (Arr.ofNat 4 0xcb007107), 41641⟩
    order [] [⟨home, .locl⟩, ⟨home, .stable⟩, ⟨away, .reflexive⟩] false false = [home, away] ∧
      order [] [⟨home, .stable⟩, ⟨home, .locl⟩, ⟨away, .reflexive⟩] false false = [away, home] := by decide +kernel

end Thawr.Control.Path
