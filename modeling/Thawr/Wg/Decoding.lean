/-
  Thawr.Wg.Decoding — that the packet decoder stays in range and reads what is there
  (`internal/wg/filter.go`: `parsePacket`, `parseIPv4`, `parseIPv6`, `parseTransport`).

  The `…Checked` functions are the decoder once more, with every access to the bytes one that
  can be out of range. `Reference` says what an IPv4 or IPv6 packet's headers are without the
  decoder: over IPv4 options, or over the hop-by-hop, routing, destination options and fragment
  headers of IPv6 (`Walk6`), to the protocol and to where its header starts; a fragment other
  than the first has none.

  Proved, for every byte string (`parsePacket_honest`): no access is out of range, and the
  decoder's result is the reference's packet with the ports, flags, type and identifier that
  stand at its transport header, and none of them for a later fragment.
-/

import Thawr.Go.Access
import Thawr.Wg.Packets

namespace Thawr.Wg

open Go Netip Access

/-! ## The decoder with checked accesses -/

def parseTransportChecked (p : Packet) (t : List UInt8) : Except Panic (Option Packet) :=
  if p.proto = 6 then
    if t.length < 14 then return none
    else do
      let sport ← (slice t 0 2).bind uint16
      let dport ← (slice t 2 4).bind uint16
      let flags ← index t 13
      return some { p with sport := sport, dport := dport, tcpFlags := flags }
  else if p.proto = 17 then
    if t.length < 4 then return none
    else do
      let sport ← (slice t 0 2).bind uint16
      let dport ← (slice t 2 4).bind uint16
      return some { p with sport := sport, dport := dport }
  else if p.proto = 1 ∨ p.proto = 58 then
    if t.length < 8 then return none
    else do
      let kind ← index t 0
      let ident ← (slice t 4 6).bind uint16
      return some { p with sport := kind.toUInt16, dport := ident }
  else return some p

def parseIPv4Checked (b : List UInt8) : Except Panic (Option Packet) :=
  if b.length < 20 then return none
  else do
    let first ← index b 0
    if first >>> 4 ≠ 4 then return none
    else
      let ihl := (first &&& 0x0f).toNat * 4
      if ihl < 20 ∨ b.length < ihl then return none
      else
        let proto ← index b 9
        let src ← (slice b 12 16).bind (array 4)
        let dst ← (slice b 16 20).bind (array 4)
        let frag ← (slice b 6 8).bind uint16
        let p : Packet := { proto := proto, src := .v4 src, dst := .v4 dst }
        if frag &&& 0x1fff ≠ 0 then return some p
        else
          let t ← slice b ihl b.length
          parseTransportChecked p t

def parseExt6Checked (b : List UInt8) (p : Packet) : Nat → UInt8 → Nat → Except Panic (Option Packet)
  | 0, _, _ => return none
  | n + 1, next, off =>
    if next = 0 ∨ next = 43 ∨ next = 60 then
      if b.length < off + 2 then return none
      else do
        let kind ← index b off
        let len ← index b (off + 1)
        parseExt6Checked b p n kind (off + (len.toNat + 1) * 8)
    else if next = 44 then
      if b.length < off + 8 then return none
      else do
        let frag ← (slice b (off + 2) (off + 4)).bind uint16
        let kind ← index b off
        if frag >>> 3 ≠ 0 then return some { p with proto := kind }
        else parseExt6Checked b p n kind (off + 8)
    else if b.length < off then return none
    else do
      let t ← slice b off b.length
      parseTransportChecked { p with proto := next } t

def parseIPv6Checked (b : List UInt8) : Except Panic (Option Packet) :=
  if b.length < 40 then return none
  else do
    let first ← index b 0
    if first >>> 4 ≠ 6 then return none
    else
      let src ← (slice b 8 24).bind (array 16)
      let dst ← (slice b 24 40).bind (array 16)
      let kind ← index b 6
      parseExt6Checked b { proto := 0, src := .v6 src [], dst := .v6 dst [] } ext6Max kind 40

def parsePacketChecked (b : List UInt8) : Except Panic (Option Packet) :=
  if b.length = 0 then return none
  else do
    let first ← index b 0
    if first >>> 4 = 4 then parseIPv4Checked b
    else if first >>> 4 = 6 then parseIPv6Checked b
    else return none

/-! ## No access is out of range -/

theorem byte_ok {b : List UInt8} {i : Nat} (h : i < b.length) : index b i = .ok (byteAt b i) := index_ok h

theorem be16_ok {b : List UInt8} {lo hi : Nat} (hhi : hi = lo + 2) (h : hi ≤ b.length) :
    (slice b lo hi).bind uint16 = .ok (be16 b lo) := uint16_slice hhi h

theorem parseTransport_safe (p : Packet) (t : List UInt8) : parseTransportChecked p t = .ok (parseTransport p t) := by
  unfold parseTransportChecked parseTransport
  split
  · split
    · rfl
    · rw [be16_ok (by omega) (by omega), be16_ok (by omega) (by omega), byte_ok (by omega)]
      rfl
  · split
    · split
      · rfl
      · rw [be16_ok (by omega) (by omega), be16_ok (by omega) (by omega)]
        rfl
    · split
      · split
        · rfl
        · rw [byte_ok (by omega), be16_ok (by omega) (by omega)]
          rfl
      · rfl

theorem parseIPv4_safe (b : List UInt8) : parseIPv4Checked b = .ok (parseIPv4 b) := by
  unfold parseIPv4Checked parseIPv4
  by_cases hlen : b.length < 20
  · rw [if_pos hlen, if_pos (.inl hlen)]
    rfl
  · rw [if_neg hlen, byte_ok (by omega)]
    change (if byteAt b 0 >>> 4 ≠ 4 then _ else _) = _
    by_cases hv : byteAt b 0 >>> 4 ≠ 4
    · rw [if_pos hv, if_pos (.inr hv)]
      rfl
    · rw [if_neg hv, if_neg (not_or.mpr ⟨hlen, hv⟩)]
      simp only
      split
      · rfl
      · rename_i hihl
        rw [byte_ok (by omega), array_slice (by omega) (by omega), array_slice (by omega) (by omega),
          be16_ok (by omega) (by omega), sliceFrom_ok (by omega)]
        change (if be16 b 6 &&& 0x1fff ≠ 0 then _ else _) = _
        split
        · rfl
        · exact parseTransport_safe _ _

theorem parseExt6_safe (b : List UInt8) (p : Packet) (n : Nat) (next : UInt8) (off : Nat) :
    parseExt6Checked b p n next off = .ok (parseExt6 b p n next off) := by
  induction n generalizing next off with
  | zero => rfl
  | succ n ih =>
    unfold parseExt6Checked parseExt6
    split
    · split
      · rfl
      · rw [byte_ok (by omega), byte_ok (by omega)]
        exact ih _ _
    · split
      · split
        · rfl
        · rw [be16_ok (by omega) (by omega), byte_ok (by omega)]
          change (if be16 b (off + 2) >>> 3 ≠ 0 then _ else _) = _
          split
          · rfl
          · exact ih _ _
      · split
        · rfl
        · rw [sliceFrom_ok (by omega)]
          exact parseTransport_safe _ _

theorem parseIPv6_safe (b : List UInt8) : parseIPv6Checked b = .ok (parseIPv6 b) := by
  unfold parseIPv6Checked parseIPv6
  by_cases hlen : b.length < 40
  · rw [if_pos hlen, if_pos (.inl hlen)]
    rfl
  · rw [if_neg hlen, byte_ok (by omega)]
    change (if byteAt b 0 >>> 4 ≠ 6 then _ else _) = _
    by_cases hv : byteAt b 0 >>> 4 ≠ 6
    · rw [if_pos hv, if_pos (.inr hv)]
      rfl
    · rw [if_neg hv, if_neg (not_or.mpr ⟨hlen, hv⟩), array_slice (by omega) (by omega),
        array_slice (by omega) (by omega), byte_ok (by omega)]
      exact parseExt6_safe _ _ _ _ _

theorem parsePacket_safe (b : List UInt8) : parsePacketChecked b = .ok (parsePacket b) := by
  cases b with
  | nil => rfl
  | cons c rest =>
    unfold parsePacketChecked parsePacket
    rw [if_neg (by simp), byte_ok (by simp)]
    change (if c >>> 4 = 4 then _ else _) = _
    simp only
    split
    · exact parseIPv4_safe _
    · change (if c >>> 4 = 6 then _ else _) = _
      split
      · exact parseIPv6_safe _
      · rfl

/-! ## What the headers say -/

/-- The walk over the headers behind an IPv6 header, from one of the kind `next` at an offset: it
    looks at `n` headers and ends at the protocol, whose own header starts at the offset given;
    `none` in a fragment other than the first. -/
inductive Walk6 (b : List UInt8) : Nat → UInt8 → Nat → UInt8 → Option Nat → Prop
  | transport {k : UInt8} {off : Nat} : isExt6 k = false → k ≠ 44 → Walk6 b 1 k off k (some off)
  /-- Hop-by-hop, routing or destination options: the next kind, then the length in units of
      eight bytes without the first. -/
  | options {n off : Nat} {k proto : UInt8} {start : Option Nat} : isExt6 k = true → off + 2 ≤ b.length →
      Walk6 b n (byteAt b off) (off + ((byteAt b (off + 1)).toNat + 1) * 8) proto start → Walk6 b (n + 1) k off proto start
  | firstFragment {n off : Nat} {proto : UInt8} {start : Option Nat} : off + 8 ≤ b.length → be16 b (off + 2) >>> 3 = 0 →
      Walk6 b n (byteAt b off) (off + 8) proto start → Walk6 b (n + 1) 44 off proto start
  | laterFragment {off : Nat} : off + 8 ≤ b.length → be16 b (off + 2) >>> 3 ≠ 0 → Walk6 b 1 44 off (byteAt b off) none

/-- Protocol and addresses of a packet, and where its transport header starts. -/
inductive Reference (b : List UInt8) : UInt8 → Addr → Addr → Option Nat → Prop
  | v4 : 20 ≤ b.length → byteAt b 0 >>> 4 = 4 → 20 ≤ ipv4HeaderLen b → ipv4HeaderLen b ≤ b.length →
      Reference b (byteAt b 9) (.v4 (Arr.at 4 b 12)) (.v4 (Arr.at 4 b 16))
        (if be16 b 6 &&& 0x1fff = 0 then some (ipv4HeaderLen b) else none)
  | v6 {n : Nat} {proto : UInt8} {start : Option Nat} :
    40 ≤ b.length → byteAt b 0 >>> 4 = 6 → Walk6 b n (byteAt b 6) 40 proto start →
      n ≤ ext6Max → Reference b proto (.v6 (Arr.at 16 b 8) []) (.v6 (Arr.at 16 b 24) []) start

/-- How much of a transport header the decoder needs. -/
def neededLen (proto : UInt8) : Nat := if proto = 6 then 14 else if proto = 17 then 4 else if proto = 1 ∨ proto = 58 then 8 else 0

def HasTransport (b : List UInt8) (proto : UInt8) : Option Nat → Prop
  | none => True
  | some off => off + neededLen proto ≤ b.length

def readAt (b : List UInt8) (proto : UInt8) (src dst : Addr) : Option Nat → Packet
  | none => { proto := proto, src := src, dst := dst }
  | some off => readPacket b proto src dst off

section

variable {b : List UInt8} {p q : Packet} {proto : UInt8} {src dst : Addr} {off n : Nat} {start : Option Nat}

/-- The transport header is read at its offset, or is too short. -/
theorem parseTransport_iff (hp : p = { proto := proto, src := src, dst := dst }) (hoff : off ≤ b.length) :
    parseTransport p (b.drop off) = some q ↔ HasTransport b proto (some off) ∧ q = readAt b proto src dst (some off) := by
  subst hp
  unfold parseTransport HasTransport readAt readPacket neededLen
  simp only [List.length_drop, byteAt_drop, be16_drop, Nat.add_zero]
  have hroom : ∀ k x, (if b.length - off < k then none else some x) = some q ↔ off + k ≤ b.length ∧ q = x := by grind
  by_cases h6 : proto = 6
  · simp only [h6, if_true]
    exact hroom 14 _
  · simp only [h6, if_false]
    grind

/-- A kind of header is exactly one of those the loop tells apart. -/
theorem isExt6_iff {k : UInt8} : isExt6 k = true ↔ k = 0 ∨ k = 43 ∨ k = 60 := by
  simp only [isExt6, Bool.or_eq_true, beq_iff_eq, or_assoc]

theorem HasTransport.le (h : HasTransport b proto (some off)) : off ≤ b.length := Nat.le_trans (Nat.le_add_right _ _) h

/-- What the loop finds is where a walk of no more turns ends. -/
theorem parseExt6_walk {x : UInt8} {next : UInt8} {m : Nat}
    (h : parseExt6 b { proto := x, src := src, dst := dst } m next off = some q) :
    ∃ n proto start, n ≤ m ∧ Walk6 b n next off proto start ∧ HasTransport b proto start ∧ q = readAt b proto src dst start := by
  induction m generalizing next off with
  | zero => cases h
  | succ m ih =>
    unfold parseExt6 at h
    split at h
    · rename_i hext
      obtain ⟨hlen, h⟩ := Option.ite_none_left_eq_some.mp h
      obtain ⟨n, proto, start, hn, hwalk, hread⟩ := ih h
      exact ⟨n + 1, proto, start, by omega, .options (isExt6_iff.mpr hext) (by omega) hwalk, hread⟩
    · rename_i hext
      split at h
      · rename_i hfrag
        subst hfrag
        obtain ⟨hlen, h⟩ := Option.ite_none_left_eq_some.mp h
        split at h
        · rename_i hlater
          cases h
          exact ⟨1, _, none, by omega, .laterFragment (by omega) hlater, trivial, rfl⟩
        · rename_i hfirst
          obtain ⟨n, proto, start, hn, hwalk, hread⟩ := ih h
          exact ⟨n + 1, proto, start, by omega, .firstFragment (by omega) (not_not.mp hfirst) hwalk, hread⟩
      · rename_i hfrag
        obtain ⟨hlen, h⟩ := Option.ite_none_left_eq_some.mp h
        have hread := (parseTransport_iff rfl (by omega)).mp h
        exact ⟨1, next, some off, by omega, .transport (Bool.not_eq_true _ |>.mp (mt isExt6_iff.mp hext)) hfrag, hread⟩

/-- A walk the loop has turns for is found. -/
theorem walk_parseExt6 {x : UInt8} {next : UInt8} {m : Nat} (hwalk : Walk6 b n next off proto start) (hn : n ≤ m)
    (htransport : HasTransport b proto start) :
    parseExt6 b { proto := x, src := src, dst := dst } m next off = some (readAt b proto src dst start) := by
  induction hwalk generalizing m with
  | transport hext hfrag =>
    obtain ⟨m, rfl⟩ := Nat.exists_eq_add_of_le hn
    rw [Nat.add_comm, parseExt6, if_neg (mt isExt6_iff.mpr (by simp [hext])), if_neg hfrag,
      if_neg (by have := htransport.le; omega)]
    exact (parseTransport_iff rfl htransport.le).mpr ⟨htransport, rfl⟩
  | options hext hlen _ ih =>
    rename_i n _ _ _ _ _
    obtain ⟨m, rfl⟩ := Nat.exists_eq_add_of_le hn
    rw [show n + 1 + m = n + m + 1 by omega, parseExt6, if_pos (isExt6_iff.mp hext), if_neg (by omega)]
    exact ih (by omega) htransport
  | firstFragment hlen hfirst _ ih =>
    rename_i n _ _ _ _
    obtain ⟨m, rfl⟩ := Nat.exists_eq_add_of_le hn
    rw [show n + 1 + m = n + m + 1 by omega, parseExt6, if_neg (by decide), if_pos rfl, if_neg (by omega),
      if_neg (not_not.mpr hfirst)]
    exact ih (by omega) htransport
  | laterFragment hlen hlater =>
    obtain ⟨m, rfl⟩ := Nat.exists_eq_add_of_le hn
    rw [Nat.add_comm, parseExt6, if_neg (by decide), if_pos rfl, if_neg (by omega), if_pos hlater]
    rfl

/-- The decoder takes the branch of the version. -/
theorem parsePacket_version (b : List UInt8) :
    (byteAt b 0 >>> 4 = 4 → parsePacket b = parseIPv4 b) ∧ (byteAt b 0 >>> 4 = 6 → parsePacket b = parseIPv6 b) ∧
      (byteAt b 0 >>> 4 ≠ 4 → byteAt b 0 >>> 4 ≠ 6 → parsePacket b = none) := by
  cases b with
  | nil => exact ⟨fun h => absurd h (by decide), fun h => absurd h (by decide), fun _ _ => rfl⟩
  | cons c rest =>
    change (c >>> 4 = 4 → _) ∧ (c >>> 4 = 6 → _) ∧ (c >>> 4 ≠ 4 → c >>> 4 ≠ 6 → _)
    refine ⟨fun h => if_pos h, fun h => ?_, fun h4 h6 => ?_⟩
    · exact (if_neg (by rw [h]; decide)).trans (if_pos h)
    · exact (if_neg h4).trans (if_neg h6)

theorem parseIPv4_iff (hv : byteAt b 0 >>> 4 = 4) : parseIPv4 b = some q ↔
    ∃ proto src dst start, Reference b proto src dst start ∧ HasTransport b proto start ∧ q = readAt b proto src dst start := by
  have hne : ¬byteAt b 0 >>> 4 ≠ 4 := not_not.mpr hv
  constructor
  · intro h
    obtain ⟨hlen, h⟩ := Option.ite_none_left_eq_some.mp h
    simp only at h
    obtain ⟨hihl, h⟩ := Option.ite_none_left_eq_some.mp h
    have hlow : 20 ≤ ipv4HeaderLen b := by
      unfold ipv4HeaderLen
      omega
    have hhigh : ipv4HeaderLen b ≤ b.length := by
      unfold ipv4HeaderLen
      omega
    have href := Reference.v4 (b := b) (by omega) hv hlow hhigh
    split at h
    · rename_i hfrag
      cases h
      rw [if_neg hfrag] at href
      exact ⟨_, _, _, none, href, trivial, rfl⟩
    · rename_i hfrag
      rw [if_pos (not_not.mp hfrag)] at href
      exact ⟨_, _, _, _, href, (parseTransport_iff rfl hhigh).mp h⟩
  · rintro ⟨proto, src, dst, start, href, htransport, rfl⟩
    cases href with
    | v6 _ h6 _ _ =>
      rw [hv] at h6
      exact absurd h6 (by decide)
    | v4 hlen _ hlow hhigh =>
      have hihl : ¬((byteAt b 0 &&& 0x0f).toNat * 4 < 20 ∨ b.length < (byteAt b 0 &&& 0x0f).toNat * 4) := by
        unfold ipv4HeaderLen at hlow hhigh
        omega
      unfold parseIPv4
      rw [if_neg (not_or.mpr ⟨by omega, hne⟩)]
      simp only
      rw [if_neg hihl]
      by_cases hfrag : be16 b 6 &&& 0x1fff = 0
      · rw [if_pos hfrag] at htransport ⊢
        rw [if_neg (not_not.mpr hfrag)]
        exact (parseTransport_iff rfl hhigh).mpr ⟨htransport, rfl⟩
      · rw [if_neg hfrag, if_pos hfrag]
        rfl

theorem parseIPv6_iff (hv : byteAt b 0 >>> 4 = 6) : parseIPv6 b = some q ↔
    ∃ proto src dst start, Reference b proto src dst start ∧ HasTransport b proto start ∧ q = readAt b proto src dst start := by
  have hne : ¬byteAt b 0 >>> 4 ≠ 6 := not_not.mpr hv
  constructor
  · intro h
    obtain ⟨hlen, h⟩ := Option.ite_none_left_eq_some.mp h
    obtain ⟨n, proto, start, hn, hwalk, hread⟩ := parseExt6_walk h
    exact ⟨proto, _, _, start, .v6 (by omega) hv hwalk hn, hread⟩
  · rintro ⟨proto, src, dst, start, href, htransport, rfl⟩
    cases href with
    | v4 _ h4 _ _ =>
      rw [hv] at h4
      exact absurd h4 (by decide)
    | v6 hlen _ hwalk hn =>
      unfold parseIPv6
      rw [if_neg (not_or.mpr ⟨by omega, hne⟩)]
      exact walk_parseExt6 hwalk hn htransport

/-- The decoder accepts exactly the packets of the reference with a transport header, and reads
    them right. -/
theorem parsePacket_iff : parsePacket b = some q ↔
    ∃ proto src dst start, Reference b proto src dst start ∧ HasTransport b proto start ∧ q = readAt b proto src dst start := by
  obtain ⟨h4, h6, hother⟩ := parsePacket_version b
  by_cases hv4 : byteAt b 0 >>> 4 = 4
  · rw [h4 hv4, parseIPv4_iff hv4]
  · by_cases hv6 : byteAt b 0 >>> 4 = 6
    · rw [h6 hv6, parseIPv6_iff hv6]
    · rw [hother hv4 hv6]
      constructor
      · intro h
        cases h
      · rintro ⟨_, _, _, _, href, -, -⟩
        cases href with
        | v4 _ h _ _ => exact absurd h hv4
        | v6 _ h _ _ => exact absurd h hv6

end

theorem parsePacket_honest (b : List UInt8) :
    parsePacketChecked b = .ok (parsePacket b) ∧
    (∀ q, parsePacket b = some q ↔
      ∃ proto src dst start, Reference b proto src dst start ∧ HasTransport b proto start ∧ q = readAt b proto src dst start) ∧
    ∀ proto src dst, Reference b proto src dst none →
      parsePacket b = some { proto := proto, src := src, dst := dst, sport := 0, dport := 0, tcpFlags := 0 } :=
  ⟨parsePacket_safe b, fun _ => parsePacket_iff, fun proto src dst href =>
    parsePacket_iff.mpr ⟨proto, src, dst, none, href, trivial, rfl⟩⟩

end Thawr.Wg
