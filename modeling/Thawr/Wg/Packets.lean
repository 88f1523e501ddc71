/-
  Thawr.Wg.Packets — well-formed packets and how the userspace filter reads them.

  `IsWhole` says of the bytes of a packet, without the parser, that they are an unfragmented
  IPv4 or IPv6 packet with these addresses and a transport header of this protocol at this
  offset. An IPv6 packet may have extension headers: hop-by-hop options and a routing header
  once, destination options twice.

  Proved: the parser of `internal/wg/filter.go` reads every such packet, and reads it right
  (`parsePacket_whole`). A TCP or UDP packet over IPv4 for this host that belongs to no flow is
  let in by the filter's rules alone (`inbound_by_rules`).
-/

import Thawr.Wg.Filter

namespace Thawr.Wg

open Go Netip

def isExt6 (k : UInt8) : Bool := k == 0 || k == 43 || k == 60

/-- The chain of extension headers of the kinds `kinds`, which starts at `off` with the kind
    `next`, ends at `stop` with the protocol `proto`. -/
inductive Headers (b : List UInt8) : List UInt8 → UInt8 → Nat → UInt8 → Nat → Prop
  | done {proto : UInt8} {off : Nat} : isExt6 proto = false → proto ≠ 44 → Headers b [] proto off proto off
  | ext {k proto : UInt8} {kinds : List UInt8} {off stop : Nat} : isExt6 k = true →
      off + ((byteAt b (off + 1)).toNat + 1) * 8 ≤ b.length →
      Headers b kinds (byteAt b off) (off + ((byteAt b (off + 1)).toNat + 1) * 8) proto stop →
        Headers b (k :: kinds) k off proto stop

structure IPv4Header (b : List UInt8) (proto : UInt8) (src dst : Arr 4) (off : Nat) : Prop where
  version : byteAt b 0 >>> 4 = 4
  header : ipv4HeaderLen b = off
  least : 20 ≤ off
  length : off ≤ b.length
  /-- No offset and no more fragments. -/
  whole : be16 b 6 &&& 0x3fff = 0
  proto : byteAt b 9 = proto
  src : Arr.at 4 b 12 = src
  dst : Arr.at 4 b 16 = dst

structure IPv6Header (b : List UInt8) (proto : UInt8) (src dst : Arr 16) (off : Nat) : Prop where
  version : byteAt b 0 >>> 4 = 6
  least : 40 ≤ b.length
  src : Arr.at 16 b 8 = src
  dst : Arr.at 16 b 24 = dst
  /-- No fragment header. -/
  headers : ∃ kinds, Headers b kinds (byteAt b 6) 40 proto off ∧ kinds.count 0 ≤ 1 ∧ kinds.count 43 ≤ 1 ∧ kinds.count 60 ≤ 2
  length : off ≤ b.length

/-- The shortest transport header of a protocol the filters look into. -/
def transportLen (proto : UInt8) : Nat := if proto = 6 then 20 else if proto = 17 ∨ proto = 1 ∨ proto = 58 then 8 else 0

inductive IPHeader (b : List UInt8) (proto : UInt8) (off : Nat) : Addr → Addr → Prop
  | v4 {src dst : Arr 4} : IPv4Header b proto src dst off → IPHeader b proto off (.v4 src) (.v4 dst)
  | v6 {src dst : Arr 16} : IPv6Header b proto src dst off → IPHeader b proto off (.v6 src []) (.v6 dst [])

structure IsWhole (b : List UInt8) (proto : UInt8) (src dst : Addr) (off : Nat) : Prop where
  ip : IPHeader b proto off src dst
  transport : off + transportLen proto ≤ b.length

def readPacket (b : List UInt8) (proto : UInt8) (src dst : Addr) (off : Nat) : Packet :=
  let p : Packet := { proto := proto, src := src, dst := dst }
  if proto = 6 then { p with sport := be16 b off, dport := be16 b (off + 2), tcpFlags := byteAt b (off + 13) }
  else if proto = 17 then { p with sport := be16 b off, dport := be16 b (off + 2) }
  else if proto = 1 ∨ proto = 58 then { p with sport := (byteAt b off).toUInt16, dport := be16 b (off + 4) }
  else p

section

variable {b : List UInt8} {proto : UInt8} {src dst : Addr} {off : Nat}

theorem parseTransport_read (p : Packet) (hp : p = { proto := proto, src := src, dst := dst })
    (hlen : off + transportLen proto ≤ b.length) : parseTransport p (b.drop off) = some (readPacket b proto src dst off) := by
  subst hp
  unfold parseTransport readPacket transportLen at *
  simp only [List.length_drop, byteAt_drop, be16_drop, Nat.add_zero]
  by_cases h6 : proto = 6
  · simp only [h6, if_true] at hlen ⊢
    rw [if_neg (by omega)]
  · grind

variable {kinds : List UInt8}

theorem parseExt6_headers {next : UInt8} {start n : Nat} (h : Headers b kinds next start proto off)
    (hn : kinds.length < n) (hoff : off ≤ b.length) (p : Packet) :
    parseExt6 b p n next start = parseTransport { p with proto := proto } (b.drop off) := by
  induction h generalizing n with
  | done hext hfrag =>
    cases n with
    | zero => cases hn
    | succ n =>
      simp only [isExt6, Bool.or_eq_false_iff, beq_eq_false_iff_ne] at hext
      rw [parseExt6, if_neg (by simp [hext.1.1, hext.1.2, hext.2]), if_neg hfrag, if_neg (by omega)]
  | ext hext hlen _ ih =>
    cases n with
    | zero => cases hn
    | succ n =>
      simp only [isExt6, Bool.or_eq_true, beq_iff_eq, or_assoc] at hext
      rw [parseExt6, if_pos hext, if_neg (by omega)]
      exact ih (Nat.lt_of_succ_lt_succ hn) hoff

theorem Headers.ext_kinds {next : UInt8} {start : Nat} (h : Headers b kinds next start proto off) :
    ∀ k ∈ kinds, k = 0 ∨ k = 43 ∨ k = 60 := by
  induction h with
  | done _ _ =>
    intro k hk
    cases hk
  | ext hext _ _ ih =>
    intro k hk
    rcases List.mem_cons.mp hk with rfl | hk
    · simpa only [isExt6, Bool.or_eq_true, beq_iff_eq, or_assoc] using hext
    · exact ih k hk

/-- So many headers fit into the parser's loop. -/
theorem length_kinds (h : ∀ k ∈ kinds, k = 0 ∨ k = 43 ∨ k = 60) :
    kinds.length = kinds.count 0 + kinds.count 43 + kinds.count 60 := by
  induction kinds with
  | nil => rfl
  | cons k kinds ih =>
    have ih := ih fun x hx => h x (List.mem_cons_of_mem _ hx)
    rcases h k List.mem_cons_self with rfl | rfl | rfl
    · simp [ih]
      omega
    · simp [ih]
      omega
    · simp [ih]
      omega

theorem parsePacket_whole (h : IsWhole b proto src dst off) : parsePacket b = some (readPacket b proto src dst off) := by
  obtain ⟨hip, htransport⟩ := h
  cases hip with
  | v4 h =>
    rename_i s d
    have hleast := h.least
    have hlength := h.length
    have hread : parsePacket b = parseIPv4 b := by
      cases b with
      | nil =>
        simp only [List.length_nil] at hlength
        omega
      | cons c rest =>
        have hv : c >>> 4 = 4 := h.version
        simp only [parsePacket, hv, if_true]
    have hmask : be16 b 6 &&& 0x1fff = 0 := by
      have h13 : (0x1fff : UInt16) = 0x3fff &&& 0x1fff := by decide
      rw [h13, ← UInt16.and_assoc, h.whole]
      decide
    have hihl : (byteAt b 0 &&& 0x0f).toNat * 4 = off := h.header
    rw [hread, parseIPv4, if_neg (by simp only [h.version, ne_eq, not_true_eq_false, or_false]; omega)]
    simp only [hihl]
    rw [if_neg (by omega), if_neg (by rw [hmask]; decide), h.proto, h.src, h.dst]
    exact parseTransport_read _ rfl htransport
  | v6 h =>
    rename_i s d
    have hleast := h.least
    have hread : parsePacket b = parseIPv6 b := by
      cases b with
      | nil =>
        simp only [List.length_nil] at hleast
        omega
      | cons c rest =>
        have hv : c >>> 4 = 6 := h.version
        have hne : ((6 : UInt8) = 4) = False := by decide
        simp only [parsePacket, hv, hne, if_false, if_true]
    obtain ⟨kinds, hchain, h0, h43, h60⟩ := h.headers
    have hlen := length_kinds hchain.ext_kinds
    rw [hread, parseIPv6, if_neg (by simp only [h.version, ne_eq, not_true_eq_false, or_false]; omega), h.src, h.dst,
      parseExt6_headers hchain (by simp only [ext6Max]; omega) h.length]
    exact parseTransport_read _ rfl htransport

theorem IsWhole.same_family (h : IsWhole b proto src dst off) : dst.is6 = src.is6 := by
  cases h.ip with
  | v4 _ => rfl
  | v6 _ => rfl

theorem IsWhole.plain (h : IsWhole b proto src dst off) :
    (src.isValid = true ∧ src.zone = []) ∧ dst.isValid = true ∧ dst.zone = [] := by
  cases h.ip with
  | v4 _ => exact ⟨⟨rfl, rfl⟩, rfl, rfl⟩
  | v6 _ => exact ⟨⟨rfl, rfl⟩, rfl, rfl⟩

@[simp] theorem readPacket_proto : (readPacket b proto src dst off).proto = proto := by
  unfold readPacket
  simp only
  repeat' split
  all_goals rfl

@[simp] theorem readPacket_src : (readPacket b proto src dst off).src = src := by
  unfold readPacket
  simp only
  repeat' split
  all_goals rfl

@[simp] theorem readPacket_dst : (readPacket b proto src dst off).dst = dst := by
  unfold readPacket
  simp only
  repeat' split
  all_goals rfl

theorem readPacket_dport (h : proto = 6 ∨ proto = 17) : (readPacket b proto src dst off).dport = be16 b (off + 2) := by
  unfold readPacket
  rcases h with rfl | rfl
  · rfl
  · rfl

theorem readPacket_type (h : proto = 1 ∨ proto = 58) : (readPacket b proto src dst off).sport = (byteAt b off).toUInt16 := by
  unfold readPacket
  rcases h with rfl | rfl
  · rfl
  · rfl

end

/-! ## TCP and UDP over IPv4 -/

structure IsIPv4 (b : List UInt8) (t : Transport) (src dst : Arr 4) (dport : UInt16) : Prop where
  whole : IsWhole b t.num (.v4 src) (.v4 dst) (ipv4HeaderLen b)
  dport : be16 b (ipv4HeaderLen b + 2) = dport

variable {b : List UInt8}

theorem parsePacket_ipv4 {t : Transport} {src dst : Arr 4} {dport : UInt16} (h : IsIPv4 b t src dst dport) :
    ∃ p, parsePacket b = some p ∧ p.proto = t.num ∧ p.src = .v4 src ∧ p.dst = .v4 dst ∧ p.dport = dport := by
  have hports : t.num = 6 ∨ t.num = 17 := by
    cases t with
    | tcp => exact .inl rfl
    | udp => exact .inr rfl
  exact ⟨_, parsePacket_whole h.whole, readPacket_proto, readPacket_src, readPacket_dst, (readPacket_dport hports).trans h.dport⟩

/-! ## Echo requests -/

def IsEcho (b : List UInt8) (src dst : Addr) : Prop :=
  ∃ off, (src.is4 = true ∧ IsWhole b 1 src dst off ∧ byteAt b off = 8) ∨
    (src.is6 = true ∧ IsWhole b 58 src dst off ∧ byteAt b off = 128)

inductive OneFamily : Addr → Addr → Prop
  | v4 (src dst : Arr 4) : OneFamily (.v4 src) (.v4 dst)
  | v6 (src dst : Arr 16) : OneFamily (.v6 src []) (.v6 dst [])

def echo4 (src dst : Arr 4) : List UInt8 :=
  [0x45, 0, 0, 28, 0, 0, 0, 0, 64, 1, 0, 0] ++ (src.bytes ++ (dst.bytes ++ [8, 0, 0, 0, 0, 1, 0, 1]))

def echo6 (src dst : Arr 16) : List UInt8 :=
  [0x60, 0, 0, 0, 0, 8, 58, 64] ++ (src.bytes ++ (dst.bytes ++ [128, 0, 0, 0, 0, 1, 0, 1]))

theorem byteAt_append (l r : List UInt8) (i : Nat) : byteAt (l ++ r) (l.length + i) = byteAt r i := by
  simp [byteAt, List.getD_eq_getElem?_getD, List.getElem?_append_right]

theorem isEcho_echo4 (src dst : Arr 4) : IsEcho (echo4 src dst) (.v4 src) (.v4 dst) := by
  have hdst : echo4 src dst = ([0x45, 0, 0, 28, 0, 0, 0, 0, 64, 1, 0, 0] ++ src.bytes) ++
    (dst.bytes ++ [8, 0, 0, 0, 0, 1, 0, 1]) :=
    (List.append_assoc _ _ _).symm
  have hlen : (echo4 src dst).length = 28 := by simp [echo4, src.size, dst.size]
  have hwhole : be16 (echo4 src dst) 6 = be16 [0, 0] 0 := rfl
  have hheader : ipv4HeaderLen (echo4 src dst) = ipv4HeaderLen [0x45] := rfl
  have hversion : byteAt (echo4 src dst) 0 = 0x45 := rfl
  refine ⟨20, .inl ⟨rfl, ⟨.v4 ⟨by rw [hversion]; decide, by rw [hheader]; decide, by decide, by omega,
    by rw [hwhole]; decide, rfl, Arr.at_append src rfl, ?_⟩, ?_⟩, ?_⟩⟩
  · rw [hdst]
    exact Arr.at_append dst (by simp [src.size])
  · rw [hlen]
    decide
  · rw [hdst, ← List.append_assoc, show 20 = (([0x45, 0, 0, 28, 0, 0, 0, 0, 64, 1, 0, 0] ++ src.bytes) ++ dst.bytes).length + 0 by
      simp [src.size, dst.size], byteAt_append]
    rfl

theorem isEcho_echo6 (src dst : Arr 16) : IsEcho (echo6 src dst) (.v6 src []) (.v6 dst []) := by
  have hdst : echo6 src dst = ([0x60, 0, 0, 0, 0, 8, 58, 64] ++ src.bytes) ++ (dst.bytes ++ [128, 0, 0, 0, 0, 1, 0, 1]) :=
    (List.append_assoc _ _ _).symm
  have hlen : (echo6 src dst).length = 48 := by simp [echo6, src.size, dst.size]
  have hversion : byteAt (echo6 src dst) 0 = 0x60 := rfl
  have hnext : byteAt (echo6 src dst) 6 = 58 := rfl
  have hheaders : Headers (echo6 src dst) [] (byteAt (echo6 src dst) 6) 40 58 40 := by
    rw [hnext]
    exact .done (by decide) (by decide)
  refine ⟨40, .inr ⟨rfl, ⟨.v6 ⟨by rw [hversion]; decide, by omega, Arr.at_append src rfl, ?_,
    ⟨[], hheaders, by decide, by decide, by decide⟩, by omega⟩, ?_⟩, ?_⟩⟩
  · rw [hdst]
    exact Arr.at_append dst (by simp [src.size])
  · rw [hlen]
    decide
  · rw [hdst, ← List.append_assoc, show 40 = (([0x60, 0, 0, 0, 0, 8, 58, 64] ++ src.bytes) ++ dst.bytes).length + 0 by
      simp [src.size, dst.size], byteAt_append]
    rfl

theorem exists_echo {src dst : Addr} (h : OneFamily src dst) : ∃ b, IsEcho b src dst := by
  cases h with
  | v4 s d => exact ⟨_, isEcho_echo4 s d⟩
  | v6 s d => exact ⟨_, isEcho_echo6 s d⟩

theorem IsEcho.oneFamily {src dst : Addr} (h : IsEcho b src dst) : OneFamily src dst := by
  obtain ⟨off, ⟨-, h, -⟩ | ⟨-, h, -⟩⟩ := h
  · cases h.ip with
    | v4 _ => exact .v4 _ _
    | v6 _ => exact .v6 _ _
  · cases h.ip with
    | v4 _ => exact .v4 _ _
    | v6 _ => exact .v6 _ _

/-! ## Packets that belong to no flow -/

def NoFlow (f : PacketFilter) (now : Int) (b : List UInt8) : Prop := ∀ p, parsePacket b = some p → (f.reply now p).2 = false

/-- What the filter does with a packet that belongs to no flow. -/
theorem allow_new {f : PacketFilter} {c : FilterSet} {now : Int} {p : Packet} (hset : f.set = some c)
    (hp : parsePacket b = some p) (hflow : NoFlow f now b) :
    (f.allow now b).2 = ((c.hook == .forward && isLocal c p.dst) || PacketFilter.decideNew c p) := by
  have hreply := hflow p hp
  unfold PacketFilter.allow
  grind

theorem inbound_allow (f : PacketFilter) (now : Int) (b : List UInt8) : (f.inbound now b).2 = (f.allow now b).2 := by
  unfold PacketFilter.inbound
  cases h : (f.allow now b).2 with
  | true => simp [h]
  | false => simp [h]

/-- A TCP or UDP packet for this host that belongs to no flow passes by a rule or not at all. -/
theorem inbound_by_rules {f : PacketFilter} {c : FilterSet} {p : Packet} {t : Transport}
    (hflow : ∀ k, f.flows k = none)
    (hset : f.set = some c) (hhook : c.hook = .input) (hp : parsePacket b = some p) (hproto : p.proto = t.num)
    (hdst : p.dst = c.localIP) (now : Int) : (f.inbound now b).2 = rulesAllow c p := by
  have hlocal : isLocal c p.dst = true := by simp [isLocal, hdst]
  have hicmp : p.proto ≠ 1 ∧ p.proto ≠ 58 := by
    rw [hproto]
    cases t <;> decide
  have hnone : NoFlow f now b := fun q _ => by rw [reply_no_flow hflow]
  have hforward : (c.hook == .forward) = false := by rw [hhook]; rfl
  rw [inbound_allow, allow_new hset hp hnone, hforward]
  simp [PacketFilter.decideNew, hlocal, Packet.icmp6Always, beq_eq_false_iff_ne.mpr hicmp.1, beq_eq_false_iff_ne.mpr hicmp.2]

end Thawr.Wg
