/-
  Thawr.Go.AddrText — addresses with their ports, and prefixes, as text.

  `AddrPort.String` writes an IPv4 address, a colon and the port in decimal, and an IPv6 address
  in brackets before the colon, with its zone and, for an IPv4-mapped one, with its last four
  bytes as an IPv4 address. Proved: `ParseAddr` and `ParseAddrPort` read back what was written,
  for every address and zone (`parseAddr_string`, `parseAddrPort_string`). A prefix is its
  address, a slash and the length in decimal, and reads back too (`parsePrefix_string`).
-/

import Thawr.Go.Text6

namespace Thawr.Go

/-! ## Decimals -/

theorem digitsVal_append (s : Str) (c : UInt8) : digitsVal (s ++ [c]) = digitsVal s * 10 + (c.toNat - 48) := by
  unfold digitsVal
  rw [List.foldl_append]
  rfl

theorem decimal_step {n : Nat} (h : 10 ≤ n) : decimal n = decimal (n / 10) ++ [UInt8.ofNat (48 + n % 10)] := by
  unfold decimal
  rw [Nat.toDigits_of_base_le (by decide) h, List.map_append, List.map_singleton,
    Nat.toNat_digitChar_of_lt_ten (Nat.mod_lt _ (by decide))]

theorem digitsVal_decimal (n : Nat) : digitsVal (decimal n) = n := by
  induction n using Nat.strongRecOn with
  | ind n ih =>
    have hdigit : (UInt8.ofNat (48 + n % 10)).toNat = 48 + n % 10 := Netip.digit_toNat (Nat.mod_lt _ (by decide))
    rcases Nat.lt_or_ge n 10 with hn | hn
    · have hone : decimal n = [UInt8.ofNat (48 + n % 10)] := by
        unfold decimal
        rw [Nat.toDigits_of_lt_base hn, List.map_singleton, Nat.toNat_digitChar_of_lt_ten hn, Nat.mod_eq_of_lt hn]
      rw [hone]
      show 0 * 10 + ((UInt8.ofNat (48 + n % 10)).toNat - 48) = n
      omega
    · rw [decimal_step hn, digitsVal_append, ih (n / 10) (by omega), hdigit]
      omega

theorem parseUint_decimal {w n : Nat} (h : n < 2 ^ w) : parseUint w (decimal n) = some n := by
  unfold parseUint
  rw [digitsVal_decimal, if_pos ⟨decimal_ne_nil n, List.all_eq_true.mpr (decimal_digits n), h⟩]

namespace Netip

/-! ## A zone after the address -/

theorem cut_append {s t : Str} {sep : UInt8} (h : ∀ c ∈ s, c ≠ sep) : cut (s ++ sep :: t) sep = some (s, t) := by
  induction s with
  | nil =>
    rw [List.nil_append, cut, if_pos rfl]
  | cons c s ih =>
    rw [List.forall_mem_cons] at h
    rw [List.cons_append, cut, if_neg h.1, ih h.2]
    rfl

/-- The zone is what follows the first percent sign, which no address has. -/
theorem splitZone_zoned {s : Str} (hs : ∀ c ∈ s, addrByte c = true) (zone : Str) :
    splitZone (s ++ zoned zone) = some (s, zone) := by
  have hsep : ∀ c ∈ s, c ≠ 37 := fun c hc => addrByte_ne (hs c hc) (by decide)
  unfold splitZone zoned
  cases zone with
  | nil => rw [if_pos rfl, List.append_nil, cut_none hsep]
  | cons z zs => rw [if_neg (List.cons_ne_nil _ _), cut_append hsep]

theorem parseIPv6_zoned {s : Str} {b : Arr 16} (hs : ∀ c ∈ s, addrByte c = true) (hb : ipv6Bytes s = some b) (zone : Str) :
    parseIPv6 (s ++ zoned zone) = some (.v6 b zone) := by
  unfold parseIPv6
  rw [splitZone_zoned hs zone, Option.bind_some, hb]
  rfl

/-! ## An IPv4 address at the end -/

/-- An octet is read as hex digits up to the dot, where it turns out to be decimal. -/
theorem hexGroup_dec {n : Nat} (hn : n ≤ 255) (t : Str) :
    ∃ acc k, hexGroup (dec n ++ 46 :: t) 0 0 = some (acc, k + 1, 46 :: t) := by
  have hdot : ∀ off acc, hexGroup (46 :: t) off acc = some (acc, off, 46 :: t) := fun _ _ => rfl
  have hdigit : ∀ {d off acc : Nat} (s : Str), d < 10 → off ≤ 3 →
      hexGroup (UInt8.ofNat (48 + d) :: s) off acc = hexGroup s (off + 1) (acc * 16 + d) := by
    intro d off acc s hd hoff
    have hx : UInt8.ofNat (48 + d) = hexDigit d := by rw [hexDigit, if_pos hd]
    rw [hx]
    exact hexGroup_digit (by omega) hoff s
  by_cases h100 : 100 ≤ n
  · have h10 : 10 ≤ n := by omega
    simp only [dec, if_pos h100, if_pos h10, List.cons_append, List.nil_append]
    rw [hdigit _ (by omega) (by omega), hdigit _ (by omega) (by omega), hdigit _ (by omega) (by omega), hdot]
    exact ⟨_, 2, rfl⟩
  · by_cases h10 : 10 ≤ n
    · simp only [dec, if_neg h100, if_pos h10, List.cons_append, List.nil_append]
      rw [hdigit _ (by omega) (by omega), hdigit _ (by omega) (by omega), hdot]
      exact ⟨_, 1, rfl⟩
    · simp only [dec, if_neg h100, if_neg h10, List.cons_append, List.nil_append]
      rw [hdigit _ (by omega) (by omega), hdot]
      exact ⟨_, 0, rfl⟩

section

variable (w x y z : UInt8)

theorem dots_four : dots [w, x, y, z] = dec w.toNat ++ 46 :: (dec x.toNat ++ 46 :: (dec y.toNat ++ 46 :: dec z.toNat)) := by
  simp [dots, List.intercalate]

theorem dots_cons : ∃ c u, dots [w, x, y, z] = c :: u ∧ c ≠ 58 := by
  have hw : w.toNat < 1000 := by have := w.toNat_lt; omega
  obtain ⟨c, u, hc⟩ := List.exists_cons_of_ne_nil (dec_ne_nil w.toNat)
  refine ⟨c, _, by rw [dots_four, hc, List.cons_append], ?_⟩
  intro he
  have := (dec_digits hw c (hc ▸ List.mem_cons_self)).2
  rw [he] at this
  exact absurd this (by decide)

/-- Where a dot ends the digits, the rest is an IPv4 address. -/
theorem parseGroups_dots {fuel : Nat} {ip : List UInt8} {e : Nat} (hip : ip.length ≤ 12) :
    parseGroups (fuel + 1) (dots [w, x, y, z]) ip (some e) = some (ip ++ [w, x, y, z], some e) := by
  have hw : w.toNat ≤ 255 := by have := w.toNat_lt; omega
  obtain ⟨acc, k, hgroup⟩ := hexGroup_dec hw (dec x.toNat ++ 46 :: (dec y.toNat ++ 46 :: dec z.toNat))
  rw [← dots_four] at hgroup
  rw [parseGroups, hgroup]
  dsimp only
  rw [if_pos List.head?_cons, if_neg (fun h => absurd h.1 (Option.some_ne_none e)), if_neg (by omega), parseIPv4Fields_dots]
  rfl

theorem ipv6Bytes_mapped {b : Arr 16} {zone : Str} (h : (Addr.v6 b zone).is4In6 = true) :
    ipv6Bytes (str "::ffff:" ++ dots (b.bytes.drop 12)) = some b := by
  obtain ⟨w, x, y, z, hlast⟩ := Arr4_cases ⟨b.bytes.drop 12, by simp [b.size]⟩
  have hlast : b.bytes.drop 12 = [w, x, y, z] := hlast
  have hfirst : b.bytes.take 12 = List.replicate 10 0 ++ [255, 255] := beq_iff_eq.mp h
  have hgroups : parseGroups 8 (hex 65535 ++ 58 :: dots [w, x, y, z]) [] (some 0) = some ([255, 255, w, x, y, z], some 0) := by
    obtain ⟨c, u, hdots, hne⟩ := dots_cons w x y z
    rw [hdots, parseGroups_next (by decide) hne, ← hdots]
    exact parseGroups_dots w x y z (by decide)
  rw [hlast]
  refine ipv6Bytes_ellipsis (u := hex 65535 ++ 58 :: dots [w, x, y, z]) (List.cons_ne_nil _ _) hgroups ?_
  rw [← List.take_append_drop 12 b.bytes, hfirst, hlast]
  rfl

end

/-! ## Every address reads back -/

theorem parseAddr_string {a : Addr} (hv : a.isValid = true) : parseAddr a.string = some a := by
  cases a with
  | zero => cases hv
  | v4 b => exact parseAddr_string_v4 b
  | v6 b zone =>
    by_cases hmapped : (Addr.v6 b zone).is4In6 = true
    · have htext : (Addr.v6 b zone).string = str "::ffff:" ++ dots (b.bytes.drop 12) ++ zoned zone := by
        rw [Addr.string, if_pos hmapped]
      have hfind : (str "::ffff:" ++ dots (b.bytes.drop 12) ++ zoned zone).find?
        (fun c => c == 46 || c == 58 || c == 37) = some 58 := rfl
      rw [htext, parseAddr, hfind]
      exact parseIPv6_zoned (List.forall_mem_append.mpr ⟨by decide +kernel, dots_bytes _⟩) (ipv6Bytes_mapped hmapped) zone
    · have htext : (Addr.v6 b zone).string = string6 b.bytes ++ zoned zone := by
        rw [Addr.string, if_neg hmapped]
      rw [htext, parseAddr, find_string6]
      exact parseIPv6_zoned (groupsFrom_bytes _ _ _ _ _) (ipv6Bytes_string6 b) zone

/-- Only an address in brackets starts with one. -/
theorem string_v4_head (b : Arr 4) (u : Str) : (Addr.v4 b).string ≠ 91 :: u := by
  intro h
  have hbyte : addrByte 91 = true := string_bytes (a := .v4 b) rfl rfl 91 (h ▸ List.mem_cons_self)
  exact absurd hbyte (by decide)

theorem parseAddrPort_string {a : AddrPort} (hv : a.isValid = true) : parseAddrPort a.string = some a := by
  obtain ⟨addr, port⟩ := a
  have hport : (58 : UInt8) ∉ decimal port.toNat := fun h => absurd (decimal_digits _ _ h) (by decide)
  have hread : parseUint 16 (decimal port.toNat) = some port.toNat := parseUint_decimal port.toNat_lt
  have haddr := parseAddr_string (a := addr) hv
  unfold parseAddrPort
  cases addr with
  | zero => cases hv
  | v4 b =>
    rw [show (AddrPort.mk (.v4 b) port).string = (Addr.v4 b).string ++ 58 :: decimal port.toNat from rfl, cutLast_append hport]
    simp only [Option.bind_eq_bind, Option.bind_some]
    split
    · rename_i h
      rw [h] at haddr
      cases haddr
    · rename_i h
      exact absurd h (string_v4_head b _)
    · simp [hread, haddr, Addr.is6]
  | v6 b zone =>
    have htext : (AddrPort.mk (.v6 b zone) port).string = (91 :: ((Addr.v6 b zone).string ++ [93])) ++
      58 :: decimal port.toNat := by
      simp [AddrPort.string]
    rw [htext, cutLast_append hport]
    have hlast : ((Addr.v6 b zone).string ++ [93]).getLast? = some 93 := List.getLast?_concat
    simp only [Option.bind_eq_bind, Option.bind_some, hlast, List.dropLast_concat, hread, haddr, Addr.is6, if_true,
      UInt16.ofNat_toNat]
    rfl

/-! ## What stands in a text -/

theorem withoutZone_valid {a : Addr} (hv : a.isValid = true) : a.withoutZone.isValid = true ∧ a.withoutZone.zone = [] := by
  cases a with
  | zero => cases hv
  | v4 b => exact ⟨rfl, rfl⟩
  | v6 b z => exact ⟨rfl, rfl⟩

/-- An address is written as without its zone, and the zone after it. -/
theorem string_zoned {a : Addr} (hv : a.isValid = true) : a.string = a.withoutZone.string ++ zoned a.zone := by
  cases a with
  | zero => cases hv
  | v4 b => exact (List.append_nil _).symm
  | v6 b z =>
    have hnil : (Addr.v6 b []).string = if (Addr.v6 b z).is4In6 then str "::ffff:" ++ dots (b.bytes.drop 12)
      else string6 b.bytes :=
      List.append_nil _
    rw [Addr.withoutZone, hnil]
    rfl

/-! ## Every prefix reads back -/

section

variable {p q : Prefix}

theorem prefix_string (hv : p.isValid = true) : p.string = p.ip.string ++ 47 :: dec p.bits := by
  rw [Prefix.string, if_pos hv]

theorem Prefix.WellFormed.bits_lt (hw : p.WellFormed) (hv : p.isValid = true) : p.bits < 1000 := by
  obtain ⟨-, -, hbits⟩ := hw hv
  have hlen : p.ip.bitLen ≤ 128 := by
    cases p.ip with
    | zero => decide
    | v4 b => show 32 ≤ 128; decide
    | v6 b z => exact Nat.le_refl 128
  omega

theorem parsePrefix_string (hw : p.WellFormed) (hv : p.isValid = true) : parsePrefix p.string = some p := by
  obtain ⟨hip, hzone, hbits⟩ := hw hv
  have hlt := hw.bits_lt hv
  have hsep : (47 : UInt8) ∉ dec p.bits := fun h => absurd (dec_digits hlt 47 h) (by decide)
  have hfrom : prefixFrom p.ip p.bits = p := by
    obtain ⟨ip, n⟩ := p
    unfold prefixFrom
    rw [if_pos ⟨hip, hbits⟩]
    cases n with
    | zero => cases hv
    | succ n =>
      cases ip with
      | zero => cases hip
      | v4 b => rfl
      | v6 b z =>
        cases hzone
        rfl
  rw [prefix_string hv, parsePrefix, cutLast_append hsep]
  simp only [Option.bind_eq_bind, Option.bind_some, parseAddr_string hip]
  rw [if_neg (not_not.mpr hzone), if_neg (dec_no_leading_zero hlt), parseUint_dec hlt (by omega)]
  simp only [Option.bind_some]
  rw [if_neg (Nat.not_lt.mpr hbits), hfrom]
  rfl

theorem Prefix.IsV4.parse (h : p.IsV4) : parsePrefix p.string = some p := parsePrefix_string h.wellFormed h.valid

/-- The text of an IPv4 prefix is that of no other. -/
theorem Prefix.IsV4.string_inj (hp : p.IsV4) (hq : q.WellFormed) (h : p.string = q.string) : p = q := by
  have hpq := hp.parse
  by_cases hv : q.isValid = true
  · rw [h, parsePrefix_string hq hv] at hpq
    exact (Option.some.inj hpq).symm
  · have hnone : parsePrefix (str "invalid Prefix") = Option.none := by decide +kernel
    rw [h, Prefix.string, if_neg hv, hnone] at hpq
    cases hpq

end

end Netip

end Thawr.Go
