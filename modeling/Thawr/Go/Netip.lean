/-
  Thawr.Go.Netip — `net/netip`: addresses, prefixes and their text forms.

  An address is invalid, four bytes, or sixteen bytes with a zone. The parsers follow the
  library's: `ParseAddr` decides by the first of `.`, `:` and `%`; an IPv4 octet has no
  leading zero; an IPv6 address may hold one `::` standing for at least one group and may
  end in an IPv4 address. `String` writes the longest run of at least two zero groups,
  the first of equals, as `::`.

  Proved: an IPv4 address's text parses back to it (`parseAddr_string_v4`), and the text of an
  IPv6 address never parses as an IPv4 one (`parseAddr_string_v6_ne_v4`).
-/

import Thawr.Go.Bytes

namespace Thawr.Go.Netip

/-- `netip.Addr`; the zero value is not an address. -/
inductive Addr where
  | zero
  | v4 (b : Arr 4)
  | v6 (b : Arr 16) (zone : Str)
  deriving DecidableEq

namespace Addr

def isValid : Addr → Bool
  | zero => false
  | _ => true

def is4 : Addr → Bool
  | v4 _ => true
  | _ => false

def is6 : Addr → Bool
  | v6 _ _ => true
  | _ => false

def bitLen : Addr → Nat
  | zero => 0
  | v4 _ => 32
  | v6 _ _ => 128

def zone : Addr → Str
  | v6 _ z => z
  | _ => []

def withoutZone : Addr → Addr
  | v6 b _ => v6 b []
  | a => a

def num : Addr → Nat
  | zero => 0
  | v4 b => b.toNat
  | v6 b _ => b.toNat

def is4In6 : Addr → Bool
  | v6 b _ => b.bytes.take 12 == List.replicate 10 0 ++ [255, 255]
  | _ => false

def unmap (a : Addr) : Addr :=
  match a with
  | v6 b _ => if a.is4In6 then v4 ⟨b.bytes.drop 12, by simp [b.size]⟩ else a
  | _ => a

def isLoopback (a : Addr) : Bool :=
  match a.unmap with
  | v4 b => b.bytes.head? == some 127
  | v6 b _ => b.toNat == 1
  | zero => false

/-- `IsUnspecified`: "0.0.0.0" or "::", neither mapped nor with a zone. -/
def isUnspecified (a : Addr) : Bool := a == v4 (Arr.zero 4) || a == v6 (Arr.zero 16) []

def isMulticast (a : Addr) : Bool :=
  match a.unmap with
  | v4 b => decide (b.toNat / 2 ^ 28 = 14)
  | v6 b _ => decide (b.toNat / 2 ^ 120 = 255)
  | zero => false

def isLinkLocalUnicast (a : Addr) : Bool :=
  match a.unmap with
  | v4 b => decide (b.toNat / 2 ^ 16 = 169 * 256 + 254)
  | v6 b _ => decide (b.toNat / 2 ^ 118 = 1018)
  | zero => false

/-- `Less`: by length, then by value, then by zone; the zero value first. -/
def less (a b : Addr) : Bool :=
  if a.bitLen ≠ b.bitLen then a.bitLen < b.bitLen
  else if a.num ≠ b.num then a.num < b.num
  else decide (a.zone < b.zone)

/-- `Next`: the address after this one, the zero value after the last. -/
def next : Addr → Addr
  | zero => zero
  | v4 b => if b.toNat + 1 < 2 ^ 32 then v4 (Arr.ofNat 4 (b.toNat + 1)) else zero
  | v6 b z => if b.toNat + 1 < 2 ^ 128 then v6 (Arr.ofNat 16 (b.toNat + 1)) z else zero

theorem next_num {a : Addr} (h : a.next.isValid = true) : a.next.num = a.num + 1 ∧ a.next.bitLen = a.bitLen := by
  cases a with
  | zero => cases h
  | v4 b =>
    simp only [next] at h ⊢
    split at h
    · rename_i hlt
      rw [if_pos hlt]
      simp only [num, bitLen, and_true]
      rw [Arr.toNat_ofNat (Nat.lt_of_lt_of_eq hlt (by decide))]
    · cases h
  | v6 b z =>
    simp only [next] at h ⊢
    split at h
    · rename_i hlt
      rw [if_pos hlt]
      simp only [num, bitLen, and_true]
      rw [Arr.toNat_ofNat (Nat.lt_of_lt_of_eq hlt (by decide))]
    · cases h

end Addr

/-! ## Parsing addresses -/

/-- `parseIPv4Fields`. `digLen` is 0 at the start and after a dot, so it tells the empty
    field (`.1`, `1..2`) the source finds by looking one byte back. -/
def parseIPv4Fields : Str → Nat → Nat → List UInt8 → Option (List UInt8)
  | [], val, _, fields => if fields.length < 3 then none else some (fields ++ [UInt8.ofNat val])
  | c :: s, val, digLen, fields =>
    if isDigit c then
      if digLen = 1 ∧ val = 0 then none
      else
        let v := val * 10 + (c.toNat - 48)
        if 255 < v then none else parseIPv4Fields s v (digLen + 1) fields
    else if c = 46 then
      if digLen = 0 ∨ s = [] then none
      else if fields.length = 3 then none
      else parseIPv4Fields s 0 0 (fields ++ [UInt8.ofNat val])
    else none

def parseIPv4 (s : Str) : Option Addr := do
  let f ← parseIPv4Fields s 0 0 []
  let b ← Arr.of? 4 f
  return .v4 b

def hexVal (c : UInt8) : Option Nat :=
  if 48 ≤ c ∧ c ≤ 57 then some (c.toNat - 48)
  else if 97 ≤ c ∧ c ≤ 102 then some (c.toNat - 97 + 10)
  else if 65 ≤ c ∧ c ≤ 70 then some (c.toNat - 65 + 10)
  else none

/-- One group of hex digits: its value, how many digits, and what follows; a fifth digit
    fails. -/
def hexGroup : Str → Nat → Nat → Option (Nat × Nat × Str)
  | [], off, acc => some (acc, off, [])
  | c :: s, off, acc =>
    match hexVal c with
    | some d => if 3 < off then none else hexGroup s (off + 1) (acc * 16 + d)
    | none => some (acc, off, c :: s)

/-- The loop of `parseIPv6`: `ip` the bytes so far, `ell` where the `::` was. The result
    is the bytes and the ellipsis once the whole text is used. -/
def parseGroups : Nat → Str → List UInt8 → Option Nat → Option (List UInt8 × Option Nat)
  | 0, s, ip, ell => if s = [] then some (ip, ell) else none
  | fuel + 1, s, ip, ell =>
    match hexGroup s 0 0 with
    | none => none
    | some (_, 0, _) => none
    | some (acc, _ + 1, rest) =>
      if rest.head? = some 46 then
        -- a trailing IPv4 address takes the place of two groups
        if ell = none ∧ ip.length ≠ 12 then none
        else if 16 < ip.length + 4 then none
        else (parseIPv4Fields s 0 0 []).map fun f => (ip ++ f, ell)
      else
        let ip' := ip ++ [UInt8.ofNat (acc / 256), UInt8.ofNat (acc % 256)]
        match rest with
        | [] => some (ip', ell)
        | 58 :: [] => none
        | 58 :: 58 :: more =>
          if ell ≠ none then none
          else if more = [] then some (ip', some ip'.length)
          else parseGroups fuel more ip' (some ip'.length)
        | 58 :: more => parseGroups fuel more ip' ell
        | _ => none

def expand (ip : List UInt8) : Option Nat → Option (List UInt8)
  | none => if ip.length = 16 then some ip else none
  | some e => if ip.length < 16 then some (ip.take e ++ List.replicate (16 - ip.length) 0 ++ ip.drop e) else none

/-- The address and the zone after `%`, which must not be empty when it is there. -/
def splitZone (s : Str) : Option (Str × Str) :=
  match cut s 37 with
  | none => some (s, [])
  | some (_, []) => none
  | some (a, z) => some (a, z)

def ipv6Bytes (s : Str) : Option (Arr 16) := do
  let (ip, ell) ← match s with
    | [58, 58] => some ([], some 0)
    | 58 :: 58 :: rest => parseGroups 8 rest [] (some 0)
    | _ => parseGroups 8 s [] none
  let ip ← expand ip ell
  Arr.of? 16 ip

def parseIPv6 (s : Str) : Option Addr :=
  (splitZone s).bind fun x => (ipv6Bytes x.1).map fun b => .v6 b x.2

def parseAddr (s : Str) : Option Addr :=
  match s.find? fun c => c == 46 || c == 58 || c == 37 with
  | some 46 => parseIPv4 s
  | some 58 => parseIPv6 s
  | _ => none

/-! ## Writing addresses -/

def dots (b : List UInt8) : Str := List.intercalate [46] (b.map fun x => dec x.toNat)

def hexDigit (n : Nat) : UInt8 := if n < 10 then UInt8.ofNat (48 + n) else UInt8.ofNat (87 + n)

def hex (n : Nat) : Str :=
  (if 0x1000 ≤ n then [hexDigit (n / 0x1000)] else []) ++
    (if 0x100 ≤ n then [hexDigit (n / 0x100 % 16)] else []) ++
    (if 0x10 ≤ n then [hexDigit (n / 0x10 % 16)] else []) ++ [hexDigit (n % 16)]

def group (b : List UInt8) (i : Nat) : Nat := beNat ((b.drop (2 * i)).take 2)

def zeroRun (b : List UInt8) : Nat → Nat → Nat
  | 0, _ => 0
  | n + 1, i => if i < 8 ∧ group b i = 0 then zeroRun b n (i + 1) + 1 else 0

def longestRun (b : List UInt8) : Nat × Nat :=
  (List.range 8).foldl (fun r i => let l := zeroRun b 8 i
    if 2 ≤ l ∧ r.2 - r.1 < l then (i, i + l) else r) (255, 255)

def groupsFrom (b : List UInt8) (zs ze : Nat) : Nat → Nat → Str
  | 0, _ => []
  | n + 1, i =>
    if 8 ≤ i then []
    else if i = zs then [58, 58] ++ (if 8 ≤ ze then [] else hex (group b ze) ++ groupsFrom b zs ze n (ze + 1))
    else (if 0 < i then [58] else []) ++ hex (group b i) ++ groupsFrom b zs ze n (i + 1)

def string6 (b : List UInt8) : Str := let r := longestRun b; groupsFrom b r.1 r.2 8 0

def zoned (zone : Str) : Str := if zone = [] then [] else 37 :: zone

def Addr.string : Addr → Str
  | .zero => str "invalid IP"
  | .v4 b => dots b.bytes
  | .v6 b z => (if (Addr.v6 b z).is4In6 then str "::ffff:" ++ dots (b.bytes.drop 12) else string6 b.bytes) ++ zoned z

/-! ## Prefixes -/

/-- `netip.Prefix`; `bitsPlusOne` is 0 for a prefix that is not valid. -/
structure Prefix where
  ip : Addr
  bitsPlusOne : Nat
  deriving DecidableEq

namespace Prefix

def none : Prefix := ⟨.zero, 0⟩

def isValid (p : Prefix) : Bool := 0 < p.bitsPlusOne

def bits (p : Prefix) : Nat := p.bitsPlusOne - 1

end Prefix

/-- `PrefixFrom`. -/
def prefixFrom (a : Addr) (bits : Nat) : Prefix :=
  ⟨a.withoutZone, if a.isValid ∧ bits ≤ a.bitLen then bits + 1 else 0⟩

def Addr.inPrefix (a : Addr) (p : Prefix) : Prefix :=
  if p.isValid then prefixFrom a p.bits else ⟨a.withoutZone, 0⟩

/-- The address with everything after its first `bits` bits cleared. -/
def Addr.mask (a : Addr) (bits : Nat) : Addr :=
  match a with
  | .zero => .zero
  | .v4 b => .v4 (Arr.ofNat 4 (b.toNat / 2 ^ (32 - bits) * 2 ^ (32 - bits)))
  | .v6 b _ => .v6 (Arr.ofNat 16 (b.toNat / 2 ^ (128 - bits) * 2 ^ (128 - bits))) []

namespace Prefix

def masked (p : Prefix) : Prefix := if p.isValid then prefixFrom (p.ip.mask p.bits) p.bits else none

/-- `Contains`: same family, no zone, and the first `bits` bits agree. -/
def contains (p : Prefix) (a : Addr) : Bool :=
  p.isValid && a.zone == [] && a.isValid && p.ip.bitLen == a.bitLen &&
    p.ip.num / 2 ^ (a.bitLen - p.bits) == a.num / 2 ^ (a.bitLen - p.bits)

def overlaps (p o : Prefix) : Bool :=
  let m := min p.bits o.bits
  p.isValid && o.isValid &&
    (p == o || (p.ip.is4 == o.ip.is4 && (m == 0 || p.ip.mask m == o.ip.mask m)))

def string (p : Prefix) : Str := if p.isValid then p.ip.string ++ 47 :: dec p.bits else str "invalid Prefix"

end Prefix

/-- `ParsePrefix`: the length is plain digits without sign or leading zero. -/
def parsePrefix (s : Str) : Option Prefix := do
  let (a, bitsStr) ← cutLast s 47
  let ip ← parseAddr a
  if ip.zone ≠ [] then none
  else if 1 < bitsStr.length ∧ bitsStr.head? = some 48 then none
  else
    let bits ← parseUint 63 bitsStr
    if ip.bitLen < bits then none else return prefixFrom ip bits

structure AddrPort where
  addr : Addr
  port : UInt16
  deriving DecidableEq

def AddrPort.zero : AddrPort := ⟨.zero, 0⟩

def AddrPort.isValid (a : AddrPort) : Bool := a.addr.isValid

def AddrPort.string (a : AddrPort) : Str :=
  match a.addr with
  | .zero => str "invalid AddrPort"
  | .v4 _ => a.addr.string ++ 58 :: decimal a.port.toNat
  | .v6 _ _ => 91 :: a.addr.string ++ [93, 58] ++ decimal a.port.toNat

/-- `ParseAddrPort`: an IPv6 address stands in brackets, an IPv4 one does not. -/
def parseAddrPort (s : Str) : Option AddrPort := do
  let (ip, port) ← cutLast s 58
  let (ip, v6) ← match ip with
    | [] => none
    | 91 :: rest => if rest.getLast? = some 93 then some (rest.dropLast, true) else none
    | _ => some (ip, false)
  let n ← parseUint 16 port
  let a ← parseAddr ip
  if a.is6 = v6 then return ⟨a, UInt16.ofNat n⟩ else none

/-! ## An IPv4 address reads back -/

theorem digit_toNat {d : Nat} (h : d < 10) : (UInt8.ofNat (48 + d)).toNat = 48 + d := by
  rw [UInt8.toNat_ofNat']; omega

theorem isDigit_digit {d : Nat} (h : d < 10) : isDigit (UInt8.ofNat (48 + d)) = true := by
  have hd := digit_toNat h
  simp only [isDigit, Bool.and_eq_true, decide_eq_true_eq, UInt8.le_iff_toNat_le, hd]
  exact ⟨by simp, by simp; omega⟩

theorem parseIPv4Fields_digit {d val digLen : Nat} (s : Str) (fs : List UInt8) (h : d < 10)
    (hz : ¬(digLen = 1 ∧ val = 0)) (hv : val * 10 + d ≤ 255) :
    parseIPv4Fields (UInt8.ofNat (48 + d) :: s) val digLen fs = parseIPv4Fields s (val * 10 + d) (digLen + 1) fs := by
  have hd := digit_toNat h
  rw [parseIPv4Fields, if_pos (isDigit_digit h), if_neg hz]
  simp only [hd, Nat.add_sub_cancel_left]
  rw [if_neg (by omega)]

/-- The decimal of an octet is read as that octet. -/
theorem parseIPv4Fields_dec (n : Nat) (hn : n ≤ 255) (t : Str) (fs : List UInt8) :
    parseIPv4Fields (dec n ++ t) 0 0 fs = parseIPv4Fields t n (dec n).length fs := by
  by_cases h100 : 100 ≤ n
  · have h10 : 10 ≤ n := by omega
    simp only [dec, if_pos h100, if_pos h10, List.cons_append, List.nil_append, List.length_cons, List.length_nil]
    rw [parseIPv4Fields_digit _ _ (by omega) (by omega) (by omega),
      parseIPv4Fields_digit _ _ (by omega) (by omega) (by omega),
      parseIPv4Fields_digit _ _ (by omega) (by omega) (by omega)]
    congr 1; omega
  · by_cases h10 : 10 ≤ n
    · simp only [dec, if_neg h100, if_pos h10, List.cons_append, List.nil_append, List.length_cons, List.length_nil]
      rw [parseIPv4Fields_digit _ _ (by omega) (by omega) (by omega),
        parseIPv4Fields_digit _ _ (by omega) (by omega) (by omega)]
      congr 1; omega
    · simp only [dec, if_neg h100, if_neg h10, List.cons_append, List.nil_append, List.length_cons, List.length_nil]
      rw [parseIPv4Fields_digit _ _ (by omega) (by omega) (by omega)]
      congr 1; omega

theorem dec_ne_nil (n : Nat) : dec n ≠ [] := by simp [dec]

theorem parseIPv4Fields_dot {x : UInt8} {digLen : Nat} (s : Str) (fs : List UInt8) (hd : digLen ≠ 0) (hs : s ≠ [])
    (hf : fs.length ≠ 3) : parseIPv4Fields (46 :: s) x.toNat digLen fs = parseIPv4Fields s 0 0 (fs ++ [x]) := by
  rw [parseIPv4Fields, if_neg (by decide), if_pos rfl, if_neg (by simp [hd, hs]), if_neg hf]
  simp

theorem parseIPv4Fields_dots (a b c d : UInt8) : parseIPv4Fields (dots [a, b, c, d]) 0 0 [] = some [a, b, c, d] := by
  have ha : a.toNat ≤ 255 := by have := a.toNat_lt; omega
  have hb : b.toNat ≤ 255 := by have := b.toNat_lt; omega
  have hc : c.toNat ≤ 255 := by have := c.toNat_lt; omega
  have hd : d.toNat ≤ 255 := by have := d.toNat_lt; omega
  have hlen : ∀ n, (dec n).length ≠ 0 := fun n h => dec_ne_nil n (List.eq_nil_of_length_eq_zero h)
  have e : dots [a, b, c, d] =
      dec a.toNat ++ 46 :: (dec b.toNat ++ 46 :: (dec c.toNat ++ 46 :: (dec d.toNat ++ []))) := by
    simp [dots, List.intercalate]
  rw [e, parseIPv4Fields_dec _ ha, parseIPv4Fields_dot _ _ (hlen _) (by simp) (by simp),
    parseIPv4Fields_dec _ hb, parseIPv4Fields_dot _ _ (hlen _) (by simp) (by simp),
    parseIPv4Fields_dec _ hc, parseIPv4Fields_dot _ _ (hlen _) (by simp [dec_ne_nil]) (by simp),
    parseIPv4Fields_dec _ hd]
  simp [parseIPv4Fields]

theorem Arr4_cases (b : Arr 4) : ∃ w x y z, b.bytes = [w, x, y, z] := by
  obtain ⟨l, hl⟩ := b
  match l, hl with
  | [w, x, y, z], _ => exact ⟨w, x, y, z, rfl⟩

theorem find_dec (p : UInt8 → Bool) (n : Nat) (hn : n ≤ 255) (hp : ∀ d < 10, p (UInt8.ofNat (48 + d)) = false) (t : Str) :
    (dec n ++ t).find? p = t.find? p := by
  have h1 := hp (n / 100) (by omega)
  have h2 := hp (n / 10 % 10) (by omega)
  have h3 := hp (n % 10) (by omega)
  have hdrop : ∀ (c : UInt8) u, p c = false → (c :: u).find? p = u.find? p := fun c u h => by simp [h]
  simp only [dec, List.append_assoc]
  grind

theorem parseAddr_string_v4 (b : Arr 4) : parseAddr (Addr.v4 b).string = some (.v4 b) := by
  obtain ⟨w, x, y, z, hb⟩ := Arr4_cases b
  have hw : w.toNat ≤ 255 := by have := w.toNat_lt; omega
  have hdot : (dots [w, x, y, z]).find? (fun c => c == 46 || c == 58 || c == 37) = some 46 := by
    have e : dots [w, x, y, z] = dec w.toNat ++ 46 :: (dec x.toNat ++ 46 :: (dec y.toNat ++ 46 :: dec z.toNat)) := by
      simp [dots, List.intercalate]
    rw [e, find_dec _ _ hw (by decide)]
    rfl
  have hb4 : b = ⟨[w, x, y, z], rfl⟩ := Arr.ext hb
  subst hb4
  simp only [Addr.string, parseAddr, hdot, parseIPv4, parseIPv4Fields_dots]
  rfl

/-! ## An IPv6 address does not read as an IPv4 one -/

theorem parseIPv6_ne_v4 (s : Str) (b : Arr 4) : parseIPv6 s ≠ some (.v4 b) := by
  intro h
  simp only [parseIPv6, Option.bind_eq_some_iff, Option.map_eq_some_iff] at h
  obtain ⟨_, _, _, _, h⟩ := h
  cases h

theorem hexDigit_plain {n : Nat} (h : n < 16) : (hexDigit n == 46 || hexDigit n == 58 || hexDigit n == 37) = false := by
  revert n; decide

theorem find_hex (n : Nat) (hn : n < 65536) (t : Str) :
    (hex n ++ t).find? (fun c => c == 46 || c == 58 || c == 37) = t.find? (fun c => c == 46 || c == 58 || c == 37) := by
  have h1 : _ = false := hexDigit_plain (show n / 0x1000 < 16 by omega)
  have h2 : _ = false := hexDigit_plain (show n / 0x100 % 16 < 16 by omega)
  have h3 : _ = false := hexDigit_plain (show n / 0x10 % 16 < 16 by omega)
  have h4 : _ = false := hexDigit_plain (show n % 16 < 16 by omega)
  simp only [Bool.or_eq_false_iff] at h1 h2 h3 h4
  unfold hex
  split <;> split <;> split <;> simp [h1, h2, h3, h4]

theorem group_lt (b : List UInt8) (i : Nat) : group b i < 65536 := by
  have h := beNat_lt ((b.drop (2 * i)).take 2)
  have hl : ((b.drop (2 * i)).take 2).length ≤ 2 := by simp
  calc group b i < 256 ^ ((b.drop (2 * i)).take 2).length := h
    _ ≤ 256 ^ 2 := Nat.pow_le_pow_right (by omega) hl

theorem find_string6 (b : List UInt8) (t : Str) :
    (string6 b ++ t).find? (fun c => c == 46 || c == 58 || c == 37) = some 58 := by
  have tail : ∀ zs ze, ∃ u, groupsFrom b zs ze 7 1 = 58 :: u := by
    intro zs ze
    rw [groupsFrom, if_neg (by omega)]
    split
    · exact ⟨_, rfl⟩
    · exact ⟨_, rfl⟩
  simp only [string6]
  rw [groupsFrom, if_neg (by omega)]
  split
  · rfl
  · obtain ⟨u, hu⟩ := tail (longestRun b).1 (longestRun b).2
    rw [if_neg (by omega), hu, List.nil_append, List.append_assoc, find_hex _ (group_lt b 0)]
    rfl

theorem parseAddr_string_v6_ne_v4 (b : Arr 16) (z : Str) (c : Arr 4) : parseAddr (Addr.v6 b z).string ≠ some (.v4 c) := by
  have hf : (Addr.v6 b z).string.find? (fun c => c == 46 || c == 58 || c == 37) = some 58 := by
    unfold Addr.string
    simp only
    split
    · rfl
    · exact find_string6 _ _
  rw [parseAddr, hf]
  exact parseIPv6_ne_v4 _ _

/-! ## Prefixes -/

/-- A prefix contains addresses of its own family only. -/
theorem contains_family {p : Prefix} {a : Addr} (h : p.contains a = true) : p.ip.bitLen = a.bitLen := by
  simp only [Prefix.contains, Bool.and_eq_true, beq_iff_eq] at h
  exact h.1.2

end Thawr.Go.Netip
