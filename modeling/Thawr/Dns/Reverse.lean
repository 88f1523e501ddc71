/-
  Thawr.Dns.Reverse — the names of reverse lookups (`internal/dns/server.go`: `reverseAddr`,
  `reverseAddr6`).

  The standard name of an address has its bytes in it, the last one first: four decimal
  numbers under in-addr.arpa, or 32 hexadecimal digits under ip6.arpa, the low digit of a byte
  before the high one. `reverseAddr` reads the standard name of every address as that address,
  and under ip6.arpa it reads nothing else but the same names with some of the digits in
  capitals (`reverseAddr_exact`). Under in-addr.arpa a number may have leading zeros, so there
  several names are read as one address.
-/

import Thawr.Dns.Server
import Thawr.Go.AddrText

namespace Thawr.Dns

open Go Netip Server

/-! ## Standard names -/

def toNibbles (b : List UInt8) : List Nat := b.flatMap fun x => [x.toNat / 16, x.toNat % 16]

def arpa4 (b : Arr 4) : Str := [46].intercalate (b.bytes.reverse.map fun x => decimal x.toNat) ++ str ".in-addr.arpa"

def arpa6 (b : Arr 16) : Str := [46].intercalate ((toNibbles b.bytes).reverse.map fun n => [hexDigit n]) ++ str ".ip6.arpa"

/-- A name with its ASCII capitals in lower case. -/
def foldCase (name : Str) : Str := name.map lowerByte

/-! ## Digits -/

theorem toNibbles_cons (x : UInt8) (b : List UInt8) : toNibbles (x :: b) = x.toNat / 16 :: x.toNat % 16 :: toNibbles b := rfl

theorem toNibbles_length (b : List UInt8) : (toNibbles b).length = 2 * b.length := by
  induction b with
  | nil => rfl
  | cons x b ih =>
    rw [toNibbles_cons, List.length_cons, List.length_cons, List.length_cons, ih]
    omega

theorem toNibbles_lt (b : List UInt8) : ∀ n ∈ toNibbles b, n < 16 := by
  intro n hn
  obtain ⟨x, -, hx⟩ := List.mem_flatMap.mp hn
  have hlt := x.toNat_lt
  simp only [List.mem_cons, List.not_mem_nil, or_false] at hx
  omega

theorem ofNibbles_toNibbles (b : List UInt8) : ofNibbles (toNibbles b) = b := by
  induction b with
  | nil => rfl
  | cons x b ih => rw [toNibbles_cons, ofNibbles, ih, Nat.div_add_mod' x.toNat 16, UInt8.ofNat_toNat]

theorem toNibbles_ofNibbles {l : List Nat} (hlt : ∀ n ∈ l, n < 16) (heven : l.length % 2 = 0) : toNibbles (ofNibbles l) = l := by
  fun_induction ofNibbles l with
  | case1 hi lo l ih =>
    simp only [List.forall_mem_cons] at hlt
    obtain ⟨hhi, hlo, hl⟩ := hlt
    have hbyte : (UInt8.ofNat (hi * 16 + lo)).toNat = hi * 16 + lo := UInt8.toNat_ofNat_of_lt' (show hi * 16 + lo < 256 by omega)
    rw [toNibbles_cons, hbyte, ih hl (by simp only [List.length_cons] at heven; omega)]
    congr 2
    all_goals omega
  | case2 l hne =>
    match l, hne, heven with
    | [], _, _ => rfl
    | [_], _, h => cases h
    | hi :: lo :: l, hne, _ => exact absurd rfl (hne hi lo l)

/-- A hexadecimal digit is the one written for its value, or that one as a capital. -/
theorem lowerByte_hexVal {c : UInt8} {n : Nat} (h : hexVal c = some n) : n < 16 ∧ lowerByte c = hexDigit n := by
  unfold hexVal at h
  unfold lowerByte hexDigit
  simp only [UInt8.le_iff_toNat_le, UInt8.reduceToNat] at h ⊢
  split_ifs at h with hdigit hsmall hcapital
  · cases h
    refine ⟨by omega, ?_⟩
    rw [if_neg (by omega), if_pos (by omega), Nat.add_sub_cancel' hdigit.1, UInt8.ofNat_toNat]
  · cases h
    refine ⟨by omega, ?_⟩
    rw [if_neg (by omega), if_neg (by omega), show 87 + (c.toNat - 97 + 10) = c.toNat by omega, UInt8.ofNat_toNat]
  · cases h
    refine ⟨by omega, ?_⟩
    rw [if_pos (by omega), if_neg (by omega), show 87 + (c.toNat - 65 + 10) = c.toNat + 32 by omega, UInt8.ofNat_add,
      UInt8.ofNat_toNat]
    rfl

/-! ## Parts -/

theorem trimSuffix_append (s t : Str) : trimSuffix (s ++ t) t = s := by
  rw [trimSuffix, if_pos (List.suffix_append s t), List.length_append, Nat.add_sub_cancel, List.take_left]

/-- Parts that are read one by one. -/
theorem mapM_map {α β γ : Type} {f : α → β} {g : β → Option γ} {v : α → γ} {l : List α} (h : ∀ x ∈ l, g (f x) = some (v x)) :
    (l.map f).mapM g = some (l.map v) := by
  induction l with
  | nil => rfl
  | cons x l ih =>
    rw [List.forall_mem_cons] at h
    rw [List.map_cons, List.mapM_cons, h.1, ih h.2]
    rfl

/-- What was read is the text of the parts, up to case. -/
theorem mapM_nibble {parts : List Str} {ns : List Nat} (h : parts.mapM nibble = some ns) :
    (∀ n ∈ ns, n < 16) ∧ parts.map foldCase = ns.map fun n => [hexDigit n] := by
  induction parts generalizing ns with
  | nil =>
    cases h
    exact ⟨List.forall_mem_nil _, rfl⟩
  | cons p parts ih =>
    rw [List.mapM_cons] at h
    obtain ⟨n, hn, h⟩ := Option.bind_eq_some_iff.mp h
    obtain ⟨ms, hms, h⟩ := Option.bind_eq_some_iff.mp h
    cases h
    obtain ⟨hlt, htext⟩ := ih hms
    -- a part is one byte
    match p, hn with
    | [c], hn =>
      obtain ⟨hn, hc⟩ := lowerByte_hexVal hn
      refine ⟨List.forall_mem_cons.mpr ⟨hn, hlt⟩, ?_⟩
      rw [List.map_cons, List.map_cons, htext, ← hc]
      rfl

theorem foldCase_append (s t : Str) : foldCase (s ++ t) = foldCase s ++ foldCase t := List.map_append

theorem foldCase_intercalate (parts : List Str) : foldCase ([46].intercalate parts) = [46].intercalate (parts.map foldCase) := by
  induction parts with
  | nil => rfl
  | cons p parts ih =>
    cases parts with
    | nil => simp
    | cons q parts =>
      rw [List.map_cons, List.map_cons, List.intercalate_cons_cons, List.intercalate_cons_cons, foldCase_append,
        foldCase_append, ih,
        List.map_cons]
      rfl

/-- The two suffixes are in lower case, and no name has both. -/
theorem arpa_suffixes : foldCase (str ".ip6.arpa") = str ".ip6.arpa" ∧ foldCase (str ".in-addr.arpa") = str ".in-addr.arpa" ∧
    ¬(str ".ip6.arpa" <:+ str ".in-addr.arpa" ∨ str ".in-addr.arpa" <:+ str ".ip6.arpa") := by decide +kernel

theorem not_under_ip6 (s : Str) : ¬str ".ip6.arpa" <:+ s ++ str ".in-addr.arpa" :=
  fun h => arpa_suffixes.2.2 (List.suffix_or_suffix_of_suffix h (List.suffix_append s _))

theorem split_intercalate {parts : List Str} (hsep : ∀ p ∈ parts, 46 ∉ p) (hne : parts ≠ []) :
    split ([46].intercalate parts) 46 = parts := by
  rw [split_eq]
  exact List.splitOn_intercalate 46 hsep hne

/-! ## Reading names -/

theorem reverseAddr6_append (body : Str) : reverseAddr6 (body ++ str ".ip6.arpa") =
    ((split body 46).mapM nibble).bind fun ns =>
      if ns.length ≠ 32 then none else (Arr.of? 16 (ofNibbles ns.reverse)).map fun b => .v6 b [] := by
  rw [reverseAddr6, if_pos (List.suffix_append _ _), trimSuffix_append]
  refine congrArg (Option.bind _) (funext fun ns => ?_)
  split_ifs
  · rfl
  · exact Option.map_eq_bind.symm

theorem of?_bytes {n : Nat} (b : Arr n) : Arr.of? n b.bytes = some b := dif_pos b.size

theorem reverseAddr6_arpa6 (b : Arr 16) : reverseAddr6 (arpa6 b) = some (.v6 b []) := by
  have hlen : (toNibbles b.bytes).length = 32 := by rw [toNibbles_length, b.size]
  have hread : ((toNibbles b.bytes).reverse.map fun n => [hexDigit n]).mapM nibble = some ((toNibbles b.bytes).reverse.map id) :=
    mapM_map fun n hn => hexVal_hexDigit (toNibbles_lt _ n (List.mem_reverse.mp hn))
  have hsep : ∀ p ∈ (toNibbles b.bytes).reverse.map (fun n => [hexDigit n]), (46 : UInt8) ∉ p := by
    intro p hp h46
    obtain ⟨n, hn, rfl⟩ := List.mem_map.mp hp
    have hplain := hexDigit_plain (toNibbles_lt _ n (List.mem_reverse.mp hn))
    rw [← List.mem_singleton.mp h46] at hplain
    cases hplain
  have hne : (toNibbles b.bytes).reverse.map (fun n => [hexDigit n]) ≠ [] := by
    intro h
    rw [List.map_eq_nil_iff, List.reverse_eq_nil_iff] at h
    rw [h] at hlen
    cases hlen
  rw [arpa6, reverseAddr6_append, split_intercalate hsep hne, hread, Option.bind_some, List.map_id, List.length_reverse, hlen,
    if_neg (by decide), List.reverse_reverse, ofNibbles_toNibbles, of?_bytes]
  rfl

theorem reverseAddr_arpa4 (b : Arr 4) : reverseAddr (arpa4 b) = some (.v4 b) := by
  have hsix : reverseAddr6 (arpa4 b) = none := by
    rw [reverseAddr6, if_neg]
    exact not_under_ip6 _
  have hread : (b.bytes.reverse.map fun x => decimal x.toNat).mapM (parseUint 8) = some (b.bytes.reverse.map UInt8.toNat) :=
    mapM_map fun x _ => parseUint_decimal x.toNat_lt
  have hsep : ∀ p ∈ b.bytes.reverse.map (fun x => decimal x.toNat), (46 : UInt8) ∉ p := by
    intro p hp h46
    obtain ⟨x, -, rfl⟩ := List.mem_map.mp hp
    exact absurd (decimal_digits _ _ h46) (by decide)
  have hne : b.bytes.reverse.map (fun x => decimal x.toNat) ≠ [] := by
    intro h
    rw [List.map_eq_nil_iff, List.reverse_eq_nil_iff] at h
    have hlen := b.size
    rw [h] at hlen
    cases hlen
  have hback : (b.bytes.reverse.map UInt8.toNat).reverse.map UInt8.ofNat = b.bytes := by
    rw [List.map_reverse, List.map_map, List.map_reverse, List.reverse_reverse]
    exact List.map_id'' (fun x => UInt8.ofNat_toNat) _
  rw [reverseAddr, hsix]
  simp only
  rw [arpa4, if_pos (List.suffix_append _ _), trimSuffix_append, split_intercalate hsep hne, hread]
  simp only [Option.bind_eq_bind, Option.bind_some, hback, of?_bytes]
  rfl

/-- A name that is accepted under ip6.arpa is the standard one, up to case. -/
theorem arpa6_of_reverseAddr6 {name : Str} {a : Addr} (h : reverseAddr6 name = some a) :
    ∃ b, a = .v6 b [] ∧ foldCase name = arpa6 b := by
  have hsuffix : str ".ip6.arpa" <:+ name := by
    rw [reverseAddr6] at h
    by_contra hno
    rw [if_neg hno] at h
    cases h
  obtain ⟨body, rfl⟩ := hsuffix
  rw [reverseAddr6_append] at h
  obtain ⟨ns, hns, h⟩ := Option.bind_eq_some_iff.mp h
  split_ifs at h with hlen
  rw [ne_eq, not_not] at hlen
  obtain ⟨b, hb, rfl⟩ := Option.map_eq_some_iff.mp h
  obtain ⟨hlt, htext⟩ := mapM_nibble hns
  have hbytes : b.bytes = ofNibbles ns.reverse := by
    unfold Arr.of? at hb
    split_ifs at hb
    cases hb
    rfl
  have hbody : [46].intercalate (split body 46) = body := by
    rw [split_eq]
    exact List.intercalate_splitOn 46
  have hback : toNibbles (ofNibbles ns.reverse) = ns.reverse :=
    toNibbles_ofNibbles (fun n hn => hlt n (List.mem_reverse.mp hn)) (by rw [List.length_reverse, hlen])
  refine ⟨b, rfl, ?_⟩
  rw [arpa6, hbytes, hback, List.reverse_reverse, ← htext, ← foldCase_intercalate, hbody, foldCase_append, arpa_suffixes.1]

/-- The standard name of every address is read as that address, and a name accepted under
    ip6.arpa is the standard name of the address it is read as, up to the case of letters. -/
theorem reverseAddr_exact : (∀ b : Arr 4, reverseAddr (arpa4 b) = some (.v4 b)) ∧
    (∀ b : Arr 16, reverseAddr (arpa6 b) = some (.v6 b [])) ∧
    ∀ (name : Str) (a : Addr), str ".ip6.arpa" <:+ foldCase name → reverseAddr name = some a →
      ∃ b, a = .v6 b [] ∧ foldCase name = arpa6 b := by
  refine ⟨reverseAddr_arpa4, ?_, ?_⟩
  · intro b
    rw [reverseAddr, reverseAddr6_arpa6]
  · intro name a hunder h
    rw [reverseAddr] at h
    cases hsix : reverseAddr6 name with
    | some a' =>
      rw [hsix] at h
      cases h
      exact arpa6_of_reverseAddr6 hsix
    | none =>
      -- what ends in .in-addr.arpa is not under ip6.arpa
      rw [hsix] at h
      simp only at h
      split_ifs at h with hfour
      obtain ⟨body, rfl⟩ := hfour
      rw [foldCase_append, arpa_suffixes.2.1] at hunder
      exact absurd hunder (not_under_ip6 _)

end Thawr.Dns
