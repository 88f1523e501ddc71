/-
  Thawr.Client.Hosts — the names a device puts into its hosts file (`internal/client/dns.go`:
  `dnsEntries`; `internal/dns/hosts.go`: `Update`).

  Every line an update adds is a marker of the block or an address, a space and a label in the
  zone exactly when every name is a label and the zone of every address a word
  (`added_lines_in_zone`); a name or a zone with a line feed may do as well, when it happens to
  make such lines. Nothing on the way from the netmap to the file checks the names: a peer whose
  name has a line feed adds a line of the server's choice (`a_name_adds_a_line`).
-/

import Thawr.Client.HeldFilter
import Thawr.Control.Names
import Thawr.Dns.Hosts
import Thawr.Go.AddrText

namespace Thawr.Client

open Go Netip Dns

/-- `hubAddr6`: the /128 the netmap routes to the hub inside the IPv6 overlay. -/
def hubAddr6 (nm : NetMap) : Option Addr := do
  let self ← selfIPv6 nm
  nm.hub.allowedIPs.findSome? fun a => do
    let p ← parsePrefix a
    if p.bits = 128 ∧ self.2.contains p.ip then some p.ip else none

/-- The entries of one name, for those of the texts that are addresses. -/
def namedEntries (name : Str) (addrs : List Str) : List Entry := (addrs.filterMap parseAddr).map fun ip => ⟨toLower name, ip⟩

def peerEntries (p : Peer) : List Entry := if p.name = [] then [] else namedEntries p.name [p.ipv4, p.ipv6]

/-- `dnsEntries`. The sort is stable, as insertion is. -/
def dnsEntries (d : Daemon) (selfIP : Addr) : List Entry :=
  let own : List Entry := [⟨toLower d.state.name, selfIP⟩, ⟨hubName, d.overlay.ip.next⟩] ++
    (namedEntries d.state.name [d.state.ipv6]).filter fun e => e.addr.is6
  let listed := match d.netmap with
    | none => []
    | some nm => ((hubAddr6 nm).map fun a => (⟨hubName, a⟩ : Entry)).toList ++ nm.peers.flatMap peerEntries
  (own ++ listed).insertionSort fun a b => a.name ≤ b.name

def inZone : Str := str ".thawr"

/-- No blank, no control character and no number sign. -/
def Word (s : Str) : Prop := ∀ c ∈ s, 32 < c ∧ c ≠ 35

instance (s : Str) : Decidable (Word s) := inferInstanceAs (Decidable (∀ _ ∈ _, _))

/-- A line that maps one label of the zone to one address. -/
def ZoneLine (l : Str) : Prop :=
  ∃ a label, Addr.isValid a = true ∧ Word a.zone ∧ Control.validLabel label = true ∧ l = a.string ++ 32 :: (label ++ inZone)

def Mapped (l : Str) : Prop := l = hostsBegin ∨ l = hostsEnd ∨ ZoneLine l

/-- What follows the digits of an address in the line of an entry. -/
def rest (zone name : Str) : Str := zoned zone ++ 32 :: (name ++ inZone)

/-- What a name and the zone of its address may be: the first of their lines is made of a zone
    that is a word and of a label, and the others, if there are line feeds, map labels as well. -/
def Plain (a : Addr) (name : Str) : Prop :=
  ∃ word label more, lines (rest a.zone name) = rest word label :: more ∧ Word word ∧ Control.validLabel label = true ∧
    ∀ l ∈ more, Mapped l

/-- An entry without an address or a name has no line. -/
def PlainEntry (name : Str) (a : Addr) : Prop := a.isValid = true → name ≠ [] → Plain a name

structure PlainEntries (d : Daemon) (selfIP : Addr) : Prop where
  self : PlainEntry (toLower d.state.name) selfIP
  hub : PlainEntry hubName d.overlay.ip.next
  self6 : ∀ a, parseAddr d.state.ipv6 = some a → a.is6 = true → PlainEntry (toLower d.state.name) a
  peers : ∀ nm, d.netmap = some nm → ∀ p ∈ nm.peers, p.name ≠ [] → ∀ a, parseAddr p.ipv4 = some a ∨ parseAddr p.ipv6 = some a →
    PlainEntry (toLower p.name) a

/-! ## The entries -/

section

variable {d : Daemon} {selfIP a : Addr} {e : Entry} {name label x y : Str}

theorem hubAddr6_zone {nm : NetMap} {a : Addr} (h : hubAddr6 nm = some a) : a.zone = [] := by
  unfold hubAddr6 at h
  simp only [bind, Option.bind_eq_some_iff] at h
  obtain ⟨_, -, h⟩ := h
  obtain ⟨t, -, ht⟩ := List.exists_of_findSome?_eq_some h
  obtain ⟨p, hp, h⟩ := Option.bind_eq_some_iff.mp ht
  split_ifs at h
  cases h
  obtain ⟨b, n, -, rfl⟩ := parsePrefix_ok hp
  show b.withoutZone.zone = []
  cases b with
  | zero => rfl
  | v4 b => rfl
  | v6 b z => rfl

theorem mem_namedEntries {name : Str} {addrs : List Str} :
    e ∈ namedEntries name addrs ↔ e.name = toLower name ∧ ∃ a ∈ addrs, parseAddr a = some e.addr := by
  unfold namedEntries
  simp only [List.mem_map, List.mem_filterMap]
  constructor
  · rintro ⟨ip, hip, rfl⟩
    exact ⟨rfl, hip⟩
  · rintro ⟨hname, hip⟩
    exact ⟨e.addr, hip, by rw [← hname]⟩

theorem mem_peerEntries {p : Peer} :
    e ∈ peerEntries p ↔ p.name ≠ [] ∧ e.name = toLower p.name ∧
      (parseAddr p.ipv4 = some e.addr ∨ parseAddr p.ipv6 = some e.addr) := by
  unfold peerEntries
  split_ifs with hname
  · simp [hname]
  · simp [hname, mem_namedEntries]

/-- The device, the hub and the peers of the netmap. -/
theorem mem_dnsEntries : e ∈ dnsEntries d selfIP ↔
    e = ⟨toLower d.state.name, selfIP⟩ ∨ e = ⟨hubName, d.overlay.ip.next⟩ ∨
      ((e.name = toLower d.state.name ∧ parseAddr d.state.ipv6 = some e.addr) ∧ e.addr.is6 = true) ∨
      ∃ nm, d.netmap = some nm ∧ ((e.name = hubName ∧ hubAddr6 nm = some e.addr) ∨ ∃ p ∈ nm.peers, e ∈ peerEntries p) := by
  unfold dnsEntries
  simp only [List.mem_insertionSort, List.mem_append, List.mem_cons, List.not_mem_nil, or_false, List.mem_filter,
    mem_namedEntries, exists_eq_left, or_assoc]
  refine or_congr_right (or_congr_right (or_congr_right ?_))
  cases d.netmap with
  | none => simp
  | some nm =>
    simp only [List.mem_append, Option.mem_toList, Option.map_eq_some_iff, List.mem_flatMap, Option.some.injEq, exists_eq_left']
    refine or_congr_left ⟨?_, ?_⟩
    · rintro ⟨a, ha, rfl⟩
      exact ⟨rfl, ha⟩
    · rintro ⟨hname, ha⟩
      exact ⟨e.addr, ha, by rw [← hname]⟩

/-! ## The line of an entry -/

/-- A label holds letters, digits and hyphens only. -/
theorem label_inZone {c : UInt8} (h : Control.validLabel label = true) (hc : ¬(Control.alnum c = true ∨ c = 45))
    (hz : c ∉ inZone) :
    c ∉ label ++ inZone := by
  obtain ⟨-, ⟨⟨hs, -⟩, -⟩, -⟩ := Control.validLabel_iff.mp h
  intro hm
  rcases List.mem_append.mp hm with hm | hm
  · exact hc (hs c hm)
  · exact hz hm

theorem Word.not_mem {s : Str} {c : UInt8} (h : Word s) (hc : ¬(32 < c ∧ c ≠ 35)) : c ∉ s := fun hm => hc (h c hm)

theorem Word.zoned {z : Str} (h : Word z) : Word (zoned z) := by
  unfold Netip.zoned
  split_ifs
  · exact List.forall_mem_nil _
  · exact List.forall_mem_cons.mpr ⟨by decide, h⟩

/-- The end of the zone finishes the last line. -/
theorem lines_rest (z name : Str) : lines (rest z name ++ [10]) = lines (rest z name) := by
  have hlast : rest z name = zoned z ++ 32 :: (name ++ str ".thaw") ++ [114] := by
    simp only [rest, List.append_assoc, List.cons_append]
    rfl
  rw [hlast]
  exact lines_finish (by decide)

/-- Without line feeds, a zone is a word and a name is a label. -/
theorem plain_iff_label (hz : (10 : UInt8) ∉ a.zone) (hn : (10 : UInt8) ∉ name) :
    Plain a name ↔ Word a.zone ∧ Control.validLabel name = true := by
  have hone : lines (rest a.zone name) = [rest a.zone name] := by
    rw [← lines_rest]
    refine lines_one fun c hc => ?_
    rintro rfl
    rcases List.mem_append.mp hc with hc | hc
    · unfold zoned at hc
      grind
    · rcases List.mem_append.mp ((List.mem_cons.mp hc).resolve_left (by decide)) with hc | hc
      · exact hn hc
      · exact absurd hc (by decide)
  constructor
  · rintro ⟨word, label, more, hlines, hword, hlabel, -⟩
    rw [hone] at hlines
    obtain ⟨hzone, -, hname⟩ := (List.append_cons_inj_of_notMem (hword.zoned.not_mem (by decide))
      (label_inZone hlabel (by decide) (by decide))).mp (List.cons.inj hlines).1.symm
    rw [← List.append_cancel_right hname]
    have hsame : word = a.zone := by
      unfold zoned at hzone
      grind
    exact ⟨hsame ▸ hword, hlabel⟩
  · rintro ⟨hword, hlabel⟩
    exact ⟨a.zone, name, [], hone, hword, hlabel, List.forall_mem_nil _⟩

theorem rest_cons (z name : Str) : ∃ c y, rest z name = c :: y ∧ (c = 32 ∨ c = 37 ∧ z ≠ []) := by
  unfold rest zoned
  split_ifs with hz
  · exact ⟨32, _, rfl, .inl rfl⟩
  · exact ⟨37, _, rfl, .inr ⟨rfl, hz⟩⟩

/-- An address, and then a text that is none of its digits. -/
theorem zoneLine_iff (hv : a.isValid = true) {c : UInt8} (hc : c = 32 ∨ c = 37 ∧ a.zone ≠ []) :
    ZoneLine (a.withoutZone.string ++ c :: y) ↔
      ∃ word label, Word word ∧ Control.validLabel label = true ∧ c :: y = rest word label := by
  have hdigits : ∀ {b : Addr}, b.isValid = true → ∀ d ∈ b.withoutZone.string, addrByte d = true := fun hb =>
    string_bytes (withoutZone_valid hb).1 (withoutZone_valid hb).2
  have hstop : ∀ {d : UInt8} {p : Prop}, d = 32 ∨ d = 37 ∧ p → addrByte d = false := by
    rintro d p (rfl | ⟨rfl, -⟩)
    · decide
    · decide
  constructor
  · rintro ⟨b, label, hb, hword, hlabel, heq⟩
    obtain ⟨d, t, ht, hd⟩ := rest_cons b.zone label
    rw [string_zoned hb, List.append_assoc] at heq
    have hdrop := congrArg (List.dropWhile addrByte) heq
    rw [List.dropWhile_append_of_pos (hdigits hv), List.dropWhile_append_of_pos (hdigits hb)] at hdrop
    change _ = (rest b.zone label).dropWhile addrByte at hdrop
    rw [ht, List.dropWhile_cons_of_neg (by simp [hstop hc]), List.dropWhile_cons_of_neg (by simp [hstop hd]), ← ht] at hdrop
    exact ⟨b.zone, label, hword, hlabel, hdrop⟩
  · rintro ⟨word, label, hword, hlabel, heq⟩
    rw [heq]
    by_cases hw : word = []
    · refine ⟨a.withoutZone, label, (withoutZone_valid hv).1, ?_, hlabel, by rw [hw]; rfl⟩
      rw [(withoutZone_valid hv).2]
      exact List.forall_mem_nil _
    · -- only an IPv6 address is followed by a zone
      have hzone : a.zone ≠ [] := by
        unfold rest zoned at heq
        rw [if_neg hw] at heq
        rcases hc with rfl | hc
        · cases heq
        · exact hc.2
      cases a with
      | zero => cases hv
      | v4 b => exact absurd rfl hzone
      | v6 b z =>
        refine ⟨.v6 b word, label, rfl, hword, hlabel, ?_⟩
        rw [string_zoned (a := .v6 b word) rfl, List.append_assoc]
        rfl

/-- Every line of an entry maps a label of the zone exactly when its name and zone are plain. -/
theorem plain_iff (hv : a.isValid = true) : (∀ l ∈ lines (entryLine zoneName ⟨name, a⟩ ++ [10]), Mapped l) ↔ Plain a name := by
  have hdigits := string_bytes (withoutZone_valid hv).1 (withoutZone_valid hv).2
  have hfeed : (10 : UInt8) ∉ a.withoutZone.string := fun h => absurd (hdigits 10 h) (by decide)
  have htext : entryLine zoneName ⟨name, a⟩ ++ [10] = a.withoutZone.string ++ (rest a.zone name ++ [10]) := by
    simp only [entryLine, rest, string_zoned hv, List.append_assoc, List.cons_append]
    rfl
  obtain ⟨c, y, hy, hc⟩ := rest_cons a.zone name
  obtain ⟨l, ls, hl⟩ : ∃ l ls, lines (rest a.zone name) = (c :: l) :: ls := by
    rw [hy, lines, if_neg (by grind)]
    cases lines y with
    | nil => exact ⟨[], [], rfl⟩
    | cons l ls => exact ⟨l, ls, rfl⟩
  have hmarks : Mapped (a.withoutZone.string ++ c :: l) ↔ ZoneLine (a.withoutZone.string ++ c :: l) := by
    refine ⟨fun h => ?_, fun h => .inr (.inr h)⟩
    have hsign : (a.withoutZone.string ++ c :: l).head? ≠ some 35 := by
      cases hs : a.withoutZone.string with
      | nil => grind
      | cons d s =>
        rintro ⟨⟩
        exact absurd (hdigits 35 (hs ▸ List.mem_cons_self)) (by decide)
    rcases h with h | h | h
    · exact absurd (congrArg List.head? h) hsign
    · exact absurd (congrArg List.head? h) hsign
    · exact h
  rw [htext, lines_front hfeed ((lines_rest _ _).trans hl), List.forall_mem_cons, hmarks, zoneLine_iff hv hc]
  unfold Plain
  rw [hl]
  grind

/-! ## The file -/

/-- The condition is on every entry. -/
theorem plainEntries_iff : PlainEntries d selfIP ↔ ∀ e ∈ dnsEntries d selfIP, PlainEntry e.name e.addr := by
  constructor
  · intro h e he
    rcases mem_dnsEntries.mp he with rfl | rfl | ⟨⟨hname, h6⟩, his⟩ | ⟨nm, hnm, ⟨hname, hub⟩ | ⟨p, hp, hpe⟩⟩
    · exact h.self
    · exact h.hub
    · rw [hname]
      exact h.self6 _ h6 his
    · intro _ _
      have hz := hubAddr6_zone hub
      rw [hname]
      refine (plain_iff_label (by rw [hz]; exact List.not_mem_nil) (by decide)).mpr ⟨?_, by decide⟩
      rw [hz]
      exact List.forall_mem_nil _
    · obtain ⟨hne, hname, haddr⟩ := mem_peerEntries.mp hpe
      rw [hname]
      exact h.peers nm hnm p hp hne _ haddr
  · intro h
    refine ⟨h _ (mem_dnsEntries.mpr (.inl rfl)), h _ (mem_dnsEntries.mpr (.inr (.inl rfl))), fun a ha his => ?_,
      fun nm hnm p hp hne a ha => ?_⟩
    · exact h ⟨_, a⟩ (mem_dnsEntries.mpr (.inr (.inr (.inl ⟨⟨rfl, ha⟩, his⟩))))
    · exact h ⟨_, a⟩ (mem_dnsEntries.mpr (.inr (.inr (.inr ⟨nm, hnm, .inr ⟨p, hp, mem_peerEntries.mpr ⟨hne, rfl, ha⟩⟩⟩))))

/-- For every hosts file and whatever becomes of the write, each line after an update was there
    before, is a marker of the block or maps a label of the zone to an address: exactly when
    every entry is plain. -/
theorem added_lines_in_zone (S : SliceSort entryLess) (d : Daemon) (selfIP : Addr) :
    (∀ ok file, ∃ out, updateHosts S ok (some file) zoneName (dnsEntries d selfIP) = some out ∧
      ∀ l ∈ lines out, l ∈ lines file ∨ l = hostsBegin ∨ l = hostsEnd ∨ ZoneLine l) ↔ PlainEntries d selfIP := by
  rw [plainEntries_iff]
  constructor
  · intro h e he hv hname
    obtain ⟨out, hout, hlines⟩ := h true []
    cases (updateHosts_empty S zoneName (dnsEntries d selfIP)).symm.trans hout
    refine (plain_iff hv).mp fun l hl => (hlines l ?_).resolve_left List.not_mem_nil
    refine mem_renderHostsBlock_lines.mpr (.inr ⟨e, List.mem_filter.mpr ⟨he, ?_⟩, hl⟩)
    simp [hv, hname]
  · intro h ok file
    obtain ⟨out, hout, hlines⟩ := updateHosts_lines S ok file zoneName (dnsEntries d selfIP)
    refine ⟨out, hout, fun l hl => ?_⟩
    rcases hlines l hl with hold | hblock
    · exact .inl hold
    · rcases mem_renderHostsBlock_lines.mp hblock with ⟨-, rfl | rfl⟩ | ⟨e, he, hl⟩
      · exact .inr (.inl rfl)
      · exact .inr (.inr (.inl rfl))
      · obtain ⟨he, hline⟩ := List.mem_filter.mp he
        rw [Bool.and_eq_true, bne_iff_ne] at hline
        exact .inr ((plain_iff hline.1).mpr (h e he hline.1 hline.2) l hl)

def tenNet : Prefix := prefixFrom (.v4 ⟨[10, 0, 0, 0], rfl⟩) 8

def ownAddr : Addr := .v4 ⟨[10, 0, 0, 2], rfl⟩

/-- The zone of a link-local address is the name of an interface. -/
def nasDevice : Daemon :=
  { state := { name := str "Me" }, overlay := tenNet
    netmap := some { peers := [{ name := str "NAS", ipv4 := str "10.0.0.7", ipv6 := str "fe80::1%eth0" }] } }

def linkAddr : Addr := .v6 (Arr.ofNat 16 0xfe800000000000000000000000000001) (str "eth0")

theorem nasDevice_plain : PlainEntries nasDevice ownAddr := by
  have h4 : parseAddr (str "10.0.0.7") = some pcAddr := by decide +kernel
  have h6 : parseAddr (str "fe80::1%eth0") = some linkAddr := by decide +kernel
  have hnone : parseAddr [] = none := by decide +kernel
  refine ⟨fun _ _ => (plain_iff_label (by decide) (by decide)).mpr (by decide +kernel),
    fun _ _ => (plain_iff_label (by decide) (by decide)).mpr (by decide +kernel), fun a ha => ?_, fun nm hnm p hp _ a ha => ?_⟩
  · cases hnone.symm.trans ha
  · cases hnm
    cases List.mem_singleton.mp hp
    rcases ha with ha | ha
    · cases h4.symm.trans ha
      exact fun _ _ => (plain_iff_label (by decide) (by decide)).mpr (by decide +kernel)
    · cases h6.symm.trans ha
      exact fun _ _ => (plain_iff_label (by decide) (by decide)).mpr (by decide +kernel)

theorem added_lines_in_zone_nas : ∃ out,
    updateHosts entrySort true (some (str "127.0.0.1 localhost")) zoneName (dnsEntries nasDevice ownAddr) = some out ∧
    str "fe80::1%eth0 nas.thawr" ∈ lines out ∧
    ∀ l ∈ lines out, l ∈ lines (str "127.0.0.1 localhost") ∨ l = hostsBegin ∨ l = hostsEnd ∨ ZoneLine l := by
  obtain ⟨out, hout, hlines⟩ := (added_lines_in_zone entrySort _ _).mpr nasDevice_plain true (str "127.0.0.1 localhost")
  refine ⟨out, hout, ?_, hlines⟩
  have hfile : (updateHosts entrySort true (some (str "127.0.0.1 localhost")) zoneName (dnsEntries nasDevice ownAddr)).map
      (fun out => (lines out).contains (str "fe80::1%eth0 nas.thawr")) = some true := by
    decide +kernel
  rw [hout, Option.map_some, Option.some.injEq] at hfile
  exact List.contains_iff_mem.mp hfile

/-! ## A line of the server's choice -/

/-- The netmap a server sends, applied by a device that has seen none before. -/
def firstApplied (m : Api.Proto.NetMap) : Option Daemon :=
  let r := admitMap sample {} { state := { name := str "me" }, overlay := tenNet } (netMapFromProto m 0)
  r.2.map fun nm => { r.1 with netmap := some nm }

def lineFeedMap : Api.Proto.NetMap :=
  { peers := [{
      id := str "p", name := str "a.thawr\n6.6.6.6 bank.example #"
      publicKey := Wg.keyString (keyNo 7), ipv4 := str "10.0.0.7" }] }

def bankLine : Str := str "6.6.6.6 bank.example #.thawr"

/-- A number sign is in no line that maps a label. -/
theorem ZoneLine.no_sign {l : Str} (h : ZoneLine l) : (35 : UInt8) ∉ l := by
  obtain ⟨a, label, hv, hz, hlabel, rfl⟩ := h
  rw [string_zoned hv]
  intro hm
  rcases List.mem_append.mp hm with hm | hm
  · rcases List.mem_append.mp hm with hm | hm
    · exact absurd (string_bytes (withoutZone_valid hv).1 (withoutZone_valid hv).2 35 hm) (by decide)
    · exact hz.zoned.not_mem (by decide) hm
  · exact label_inZone hlabel (by decide) (by decide) ((List.mem_cons.mp hm).resolve_left (by decide))

/-- The server names a peer so that its entry is two lines, the second for a name outside the
    zone. -/
theorem a_name_adds_a_line : ∃ d out, firstApplied lineFeedMap = some d ∧
    updateHosts entrySort true (some []) zoneName (dnsEntries d ownAddr) = some out ∧
    bankLine ∈ lines out ∧ bankLine ∉ lines [] ∧ bankLine ≠ hostsBegin ∧ bankLine ≠ hostsEnd ∧ ¬ZoneLine bankLine := by
  obtain ⟨d, hd, hfile⟩ := Option.bind_eq_some_iff.mp (show (firstApplied lineFeedMap).bind (fun d =>
    (updateHosts entrySort true (some []) zoneName (dnsEntries d ownAddr)).map fun out => (lines out).contains bankLine) =
    some true by decide +kernel)
  obtain ⟨out, hout, hmem⟩ := Option.map_eq_some_iff.mp hfile
  refine ⟨d, out, hd, hout, List.contains_iff_mem.mp hmem, List.not_mem_nil, by decide, by decide, fun h => ?_⟩
  exact h.no_sign (by decide)

end

end Thawr.Client
