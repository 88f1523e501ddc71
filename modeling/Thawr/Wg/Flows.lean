/-
  Thawr.Wg.Flows — runs of the packet filter's flow table (`internal/wg/filter.go`: `Outbound`,
  `Inbound`, `Set`, `reply`, `sweepLocked`).

  The state keeps, for the statements only, a log of the packets that came to the flow table,
  the newest first: every packet sent, and every packet received but those the forward hook
  passes on because they are for this host, which never reach the table. `taken` says that the
  packet was recorded or answered a flow. The clock is read twice in `Outbound`.

  Proved, in every run with a clock that does not go back:
  - `replies_on_open_flows`: a packet that only the flow table can let in is let in only after
    this host sent a packet of the flow, with every packet of the flow since, this one included,
    inside the lifetime the one before it gave.
  - `inbound_iff`: a packet is let in exactly when the set admits it or its flow has time left.
  - `closed_flow`: a TCP flow whose last packet was a FIN or RST takes no reply from 30 seconds
    after it on. A later packet without these flags opens it for an hour again: it is let in as
    a reply, and so is what follows (`an_acknowledged_fin_leaves_the_flow_open`).
-/

import Thawr.Conc.Runs
import Thawr.Wg.Packets
import Mathlib.Data.List.Chain

namespace Thawr.Wg

open Go Netip Conc

namespace Flows

structure Touch where
  at_ : Int
  /-- Sent by this host. -/
  out : Bool
  packet : Packet
  taken : Bool
  deriving DecidableEq

namespace Touch

def flow (x : Touch) : Option (FlowKey × Int) := if x.out then outFlow x.packet else replyFlow x.packet

def key (x : Touch) : Option FlowKey := x.flow.map (·.1)

def ttl (x : Touch) : Int := (x.flow.map (·.2)).getD 0

def closes (x : Touch) : Bool := x.packet.proto == 6 && x.packet.tcpFlags &&& 0x05 != 0

end Touch

structure St where
  filter : PacketFilter := {}
  clock : Int := 0
  log : List Touch := []

inductive Ev where
  | outbound (b : List UInt8) (now later : Int)
  | inbound (b : List UInt8) (now : Int)
  | set (c : FilterSet)

/-- On the forward hook a packet for this host is not filtered. -/
def bypassed (f : PacketFilter) (p : Packet) : Bool := f.set.any fun c => c.hook == .forward && isLocal c p.dst

def logOut (log : List Touch) (now : Int) : Option Packet → List Touch
  | none => log
  | some p => ⟨now, true, p, true⟩ :: log

def logIn (f : PacketFilter) (log : List Touch) (now : Int) : Option Packet → List Touch
  | none => log
  | some p => if bypassed f p then log else ⟨now, false, p, (f.reply now p).2⟩ :: log

def next (s : St) : Ev → Option St
  | .outbound b now later =>
    if now < s.clock ∨ later < now then none
    else some { filter := s.filter.outbound now later b, clock := later, log := logOut s.log now (parsePacket b) }
  | .inbound b now =>
    if now < s.clock then none
    else some { filter := (s.filter.inbound now b).1, clock := now, log := logIn s.filter s.log now (parsePacket b) }
  | .set c => some { s with filter := s.filter.install c }

def Start (s : St) : Prop := s.filter.flows = (fun _ => none) ∧ s.log = []

def ofFlow (k : FlowKey) (log : List Touch) : List Touch := log.filter fun x => x.key == some k

/-- The first packet came within the lifetime the second, before it, gave the flow. -/
def Within (newer older : Touch) : Prop := newer.at_ < older.at_ + older.ttl

/-- What the sets, hooks and rules say of a packet without the flow table. -/
def Admitted (f : PacketFilter) (p : Packet) : Prop :=
  ∃ c, f.set = some c ∧ ((c.hook = .forward ∧ isLocal c p.dst = true) ∨ PacketFilter.decideNew c p = true)

instance (f : PacketFilter) (p : Packet) : Decidable (Admitted f p) :=
  decidable_of_iff (f.set.any fun c => c.hook == .forward && isLocal c p.dst || PacketFilter.decideNew c p) (by
    simp [Admitted, Option.any_eq_true])

/-- `q` was sent the way `p` comes back: the addresses the other way round, with the ports of TCP
    and UDP, or an echo request and a reply with its identifier. -/
def Mirrors (q p : Packet) : Prop :=
  q.proto = p.proto ∧ q.src = p.dst ∧ q.dst = p.src ∧
    (((p.proto = 6 ∨ p.proto = 17) ∧ q.sport = p.dport ∧ q.dport = p.sport) ∨
      ((p.proto = 1 ∨ p.proto = 58) ∧ q.sport = q.echoRequest ∧ p.sport = p.echoReply ∧ q.dport = p.dport))

/-- The flow whose entry expires at `exp`: its packets since this host last sent one were all
    taken, each within the lifetime the one before gave, and the newest gave what is left. -/
def Opened (k : FlowKey) (log : List Touch) (exp : Int) : Prop :=
  ∃ chain earlier, ofFlow k log = chain ++ earlier ∧ chain.IsChain Within ∧ (∀ x ∈ chain, x.taken = true) ∧
    (∃ o, chain.getLast? = some o ∧ o.out = true) ∧ ∃ x, chain.head? = some x ∧ exp = x.at_ + x.ttl

def passed (k : FlowKey) (log : List Touch) : List Touch := (ofFlow k log).filter (·.taken)

section

variable {s s' : St} {f : PacketFilter} {p q : Packet} {b : List UInt8} {k key : FlowKey} {x : Touch} {log : List Touch}
  {now later exp ttl : Int}

/-! ## Logs -/

theorem ofFlow_cons_self (h : x.key = some k) : ofFlow k (x :: log) = x :: ofFlow k log :=
  List.filter_cons_of_pos (beq_iff_eq.mpr h)

theorem ofFlow_cons_ne (h : x.key ≠ some k) : ofFlow k (x :: log) = ofFlow k log :=
  List.filter_cons_of_neg (by simpa using h)

theorem passed_cons_ne (h : x.key ≠ some k) : passed k (x :: log) = passed k log := by
  unfold passed
  rw [ofFlow_cons_ne h]

/-- A packet the table did not take passed on no flow. -/
theorem passed_refused (h : x.taken = false) : passed k (x :: log) = passed k log := by
  by_cases hkey : x.key = some k
  · unfold passed
    rw [ofFlow_cons_self hkey, List.filter_cons_of_neg (by simp [h])]
  · exact passed_cons_ne hkey

/-- The newest packet of an open flow is the newest the table took. -/
theorem Opened.head (h : Opened k log exp) : ∃ x rest, passed k log = x :: rest ∧ exp = x.at_ + x.ttl := by
  obtain ⟨chain, earlier, hsplit, -, htaken, -, x, hx, hexp⟩ := h
  obtain ⟨rest, rfl⟩ := List.head?_eq_some_iff.mp hx
  refine ⟨x, (rest ++ earlier).filter (·.taken), ?_, hexp⟩
  unfold passed
  rw [hsplit, List.cons_append, List.filter_cons_of_pos (htaken x List.mem_cons_self)]

theorem Opened.cons_ne (h : Opened k log exp) (hne : x.key ≠ some k) : Opened k (x :: log) exp := by
  unfold Opened
  rw [ofFlow_cons_ne hne]
  exact h

/-- A packet sent opens its flow. -/
theorem Opened.sent (hkey : x.key = some k) (hout : x.out = true) (htaken : x.taken = true) :
    Opened k (x :: log) (x.at_ + x.ttl) := by
  refine ⟨[x], ofFlow k log, ofFlow_cons_self hkey, .singleton x, ?_, ⟨x, rfl, hout⟩, x, rfl, rfl⟩
  intro y hy
  rw [List.mem_singleton.mp hy]
  exact htaken

/-- A packet that comes before an open flow expires keeps it open. -/
theorem Opened.answered (h : Opened k log exp) (hkey : x.key = some k) (htaken : x.taken = true) (hlt : x.at_ < exp) :
    Opened k (x :: log) (x.at_ + x.ttl) := by
  obtain ⟨chain, earlier, hsplit, hchain, hall, ⟨o, ho, hout⟩, y, hy, hexp⟩ := h
  refine ⟨x :: chain, earlier, by rw [ofFlow_cons_self hkey, hsplit, List.cons_append], ?_, ?_, ⟨o, ?_, hout⟩, x, rfl, rfl⟩
  · refine List.isChain_cons.mpr ⟨fun z hz => ?_, hchain⟩
    rw [hy] at hz
    cases hz
    rw [hexp] at hlt
    exact hlt
  · exact List.forall_mem_cons.mpr ⟨htaken, hall⟩
  · rw [List.getLast?_cons, ho]
    rfl

/-! ## What a call does to the table -/

/-- What `reply` does. -/
theorem reply_cases (f : PacketFilter) (now : Int) (p : Packet) :
    (replyFlow p = none ∧ f.reply now p = (f, false)) ∨
    ∃ key ttl, replyFlow p = some (key, ttl) ∧
      ((f.flows key = none ∧ f.reply now p = (f, false)) ∨
        ∃ exp, f.flows key = some exp ∧
          ((now < exp ∧ f.reply now p = ({ f with flows := Function.update f.flows key (some (now + ttl)) }, true)) ∨
            (exp ≤ now ∧ f.reply now p = ({ f with flows := Function.update f.flows key none }, false)))) := by
  unfold PacketFilter.reply
  cases hr : replyFlow p with
  | none => exact .inl ⟨rfl, rfl⟩
  | some kt => grind

theorem reply_true (h : (f.reply now p).2 = true) : ∃ key ttl exp, replyFlow p = some (key, ttl) ∧
    f.flows key = some exp ∧ now < exp := by
  rcases reply_cases f now p with ⟨-, hr⟩ | ⟨key, ttl, hkey, ⟨-, hr⟩ | ⟨exp, hexp, ⟨hlt, hr⟩ | ⟨-, hr⟩⟩⟩
  · rw [hr] at h
    cases h
  · rw [hr] at h
    cases h
  · exact ⟨key, ttl, exp, hkey, hexp, hlt⟩
  · rw [hr] at h
    cases h

theorem reply_of_live (hkey : replyFlow p = some (key, ttl)) (hexp : f.flows key = some exp) (hlt : now < exp) :
    (f.reply now p).2 = true := by
  unfold PacketFilter.reply
  rw [hkey]
  simp only [hexp]
  rw [if_pos hlt]

/-- What `Inbound` leaves of the table. -/
theorem inbound_flows (f : PacketFilter) (now : Int) (b : List UInt8) :
    (parsePacket b = none ∧ (f.inbound now b).1.flows = f.flows) ∨
    ∃ p, parsePacket b = some p ∧
      ((bypassed f p = true ∧ (f.inbound now b).1.flows = f.flows) ∨
        (bypassed f p = false ∧ (f.inbound now b).1.flows = (f.reply now p).1.flows)) := by
  have hin : (f.inbound now b).1.flows = (f.allow now b).1.flows := by
    unfold PacketFilter.inbound
    simp only
    split
    · rfl
    · rfl
  rw [hin]
  unfold PacketFilter.allow bypassed
  cases hp : parsePacket b with
  | none => exact .inl ⟨rfl, rfl⟩
  | some p => grind

/-- What is let in is what the set admits and what the flow table takes. -/
theorem inbound_true (hp : parsePacket b = some p) :
    (f.inbound now b).2 = true ↔ Admitted f p ∨ (f.reply now p).2 = true := by
  have hallow : (f.inbound now b).2 = (f.allow now b).2 := by
    unfold PacketFilter.inbound
    grind
  rw [hallow, PacketFilter.allow, hp]
  unfold Admitted
  cases hset : f.set with
  | none => simp
  | some c => grind

/-- A sweep drops what has expired and nothing else. -/
theorem sweep_flows (f : PacketFilter) (now : Int) (k : FlowKey) :
    (f.sweep now).flows k = f.flows k ∨ ((f.sweep now).flows k = none ∧ ∃ exp, f.flows k = some exp ∧ exp ≤ now) := by
  unfold PacketFilter.sweep
  split
  · exact .inl rfl
  · simp only
    cases hf : f.flows k with
    | none => exact .inl rfl
    | some exp => grind

/-! ## The invariant -/

/-- What the entry of a flow says of the log: there is one for what the newest packet gave, and
    none once that has expired. -/
def Tracks (k : FlowKey) (log : List Touch) (clock : Int) : Option Int → Prop
  | some exp => Opened k log exp
  | none => ∀ x rest, passed k log = x :: rest → x.at_ + x.ttl ≤ clock

section

variable {entry : Option Int}

theorem Tracks.mono (h : Tracks k log now entry) (hle : now ≤ later) : Tracks k log later entry := by
  cases entry with
  | some exp => exact h
  | none => exact fun x rest hx => Int.le_trans (h x rest hx) hle

theorem Tracks.other (h : Tracks k log now entry) (hne : x.key ≠ some k) : Tracks k (x :: log) now entry := by
  cases entry with
  | some exp => exact Opened.cons_ne h hne
  | none =>
    unfold Tracks
    rw [passed_cons_ne hne]
    exact h

theorem Tracks.refused (h : Tracks k log now none) (htaken : x.taken = false) : Tracks k (x :: log) now none := by
  unfold Tracks
  rw [passed_refused htaken]
  exact h

/-- An entry may be dropped when it has expired. -/
theorem Opened.expired (h : Opened k log exp) (hle : exp ≤ now) : Tracks k log now none := by
  intro x rest hx
  obtain ⟨y, rest', hy, hexp⟩ := h.head
  rw [hx] at hy
  cases hy
  exact hexp ▸ hle

theorem Tracks.sweep (h : Tracks k log now (f.flows k)) : Tracks k log now ((f.sweep now).flows k) := by
  rcases sweep_flows f now k with he | ⟨he, exp, hexp, hle⟩
  · rw [he]
    exact h
  · rw [hexp] at h
    rw [he]
    exact Opened.expired h hle

end

def Inv (s : St) : Prop := ∀ k, Tracks k s.log s.clock (s.filter.flows k)

theorem Inv.opened (h : Inv s) (hexp : s.filter.flows k = some exp) : Opened k s.log exp := by
  have hk := h k
  rw [hexp] at hk
  exact hk

theorem Inv.gone (h : Inv s) (hnone : s.filter.flows k = none) : Tracks k s.log s.clock none := by
  have hk := h k
  rw [hnone] at hk
  exact hk

theorem Inv.start (h : Start s) : Inv s := by
  obtain ⟨hflows, hlog⟩ := h
  intro k
  rw [hflows, hlog]
  intro x rest hx
  cases hx

/-- A packet of a flow changes the entry of this flow only. -/
theorem tracks_update {flows : FlowKey → Option Int} {entry : Option Int} (hkey : x.key = some key)
    (hold : Tracks k log now (flows k)) (hself : Tracks key (x :: log) now entry) :
    Tracks k (x :: log) now (Function.update flows key entry k) := by
  by_cases hkk : k = key
  · subst hkk
    rw [Function.update_self]
    exact hself
  · rw [Function.update_of_ne hkk]
    refine hold.other fun hk => hkk ?_
    rw [hkey] at hk
    exact (Option.some.inj hk).symm

theorem Inv.outbound (h : Inv s) (hnow : s.clock ≤ now) (hlater : now ≤ later) :
    Inv { filter := s.filter.outbound now later b, clock := later, log := logOut s.log now (parsePacket b) } := by
  intro k
  have hold : Tracks k s.log later (s.filter.flows k) := .mono (h k) (Int.le_trans hnow hlater)
  unfold PacketFilter.outbound
  cases hp : parsePacket b with
  | none => exact hold
  | some p =>
    simp only [logOut, Option.bind_some]
    cases hout : outFlow p with
    | none => exact hold.other (by simp [Touch.key, Touch.flow, hout])
    | some kt =>
      obtain ⟨key, ttl⟩ := kt
      have hkey : Touch.key ⟨now, true, p, true⟩ = some key := by simp [Touch.key, Touch.flow, hout]
      have httl : Touch.ttl ⟨now, true, p, true⟩ = ttl := by simp [Touch.ttl, Touch.flow, hout]
      exact Tracks.sweep (tracks_update hkey hold (httl ▸ Opened.sent hkey rfl rfl))

/-- What `reply` does to the flows and, with the packet, to the log. -/
theorem Inv.reply (h : Inv s) (hnow : s.clock ≤ now) :
    Tracks k (⟨now, false, p, (s.filter.reply now p).2⟩ :: s.log) now ((s.filter.reply now p).1.flows k) := by
  have hold : ∀ k, Tracks k s.log now (s.filter.flows k) := fun k => .mono (h k) hnow
  rcases reply_cases s.filter now p with ⟨hnone, hr⟩ | ⟨key, ttl, hflow, hcases⟩
  · rw [hr]
    exact (hold k).other (by simp [Touch.key, Touch.flow, hnone])
  · have hkey : ∀ taken, Touch.key ⟨now, false, p, taken⟩ = some key := fun _ => by simp [Touch.key, Touch.flow, hflow]
    have hentry := hold key
    rcases hcases with ⟨hnone, hr⟩ | ⟨exp, hexp, ⟨hlt, hr⟩ | ⟨hle, hr⟩⟩
    · rw [hnone] at hentry
      rw [hr, ← Function.update_eq_self key s.filter.flows, hnone]
      exact tracks_update (hkey false) (hold k) (hentry.refused rfl)
    · -- an answer: the flow goes on from this packet
      have httl : Touch.ttl ⟨now, false, p, true⟩ = ttl := by simp [Touch.ttl, Touch.flow, hflow]
      rw [hexp] at hentry
      rw [hr]
      exact tracks_update (hkey true) (hold k) (httl ▸ Opened.answered hentry (hkey true) rfl hlt)
    · -- too late: the flow is dropped
      rw [hexp] at hentry
      rw [hr]
      exact tracks_update (hkey false) (hold k) ((Opened.expired hentry hle).refused rfl)

theorem Inv.inbound (h : Inv s) (hnow : s.clock ≤ now) :
    Inv { filter := (s.filter.inbound now b).1, clock := now, log := logIn s.filter s.log now (parsePacket b) } := by
  intro k
  have hold : Tracks k s.log now (s.filter.flows k) := .mono (h k) hnow
  rcases inbound_flows s.filter now b with ⟨hp, hflows⟩ | ⟨p, hp, ⟨hb, hflows⟩ | ⟨hb, hflows⟩⟩
  · simp only [hp, logIn, hflows]
    exact hold
  · simp only [hp, logIn, hb, if_true, hflows]
    exact hold
  · simp only [hp, logIn, hb, Bool.false_eq_true, if_false, hflows]
    exact h.reply hnow

theorem Inv.next {e : Ev} (h : Inv s) (hs : Flows.next s e = some s') : Inv s' := by
  cases e with
  | outbound b now later =>
    obtain ⟨hclock, hs⟩ := Option.ite_none_left_eq_some.mp hs
    cases hs
    exact h.outbound (by omega) (by omega)
  | inbound b now =>
    obtain ⟨hclock, hs⟩ := Option.ite_none_left_eq_some.mp hs
    cases hs
    exact h.inbound (by omega)
  | set c =>
    cases hs
    exact h

theorem reach_inv (h : Reach Start Flows.next Always s) : Inv s :=
  h.inv (fun _ => Inv.start) (fun _ _ _ hi _ hs => hi.next hs)

/-! ## Flows and packets -/

/-- The flow a packet answers is the one its mirror image opened. -/
theorem mirrors_of_flow {t₁ t₂ : Int} (hq : outFlow q = some (k, t₁)) (hp : replyFlow p = some (k, t₂)) : Mirrors q p := by
  unfold outFlow at hq
  unfold replyFlow at hp
  split_ifs at hq hp
  all_goals
    cases hq
    grind [Mirrors, Packet.isICMP]

theorem key_out (hout : x.out = true) (hkey : x.key = some k) : ∃ ttl, outFlow x.packet = some (k, ttl) := by
  unfold Touch.key Touch.flow at hkey
  rw [if_pos hout] at hkey
  obtain ⟨kt, hkt, rfl⟩ := Option.map_eq_some_iff.mp hkey
  exact ⟨kt.2, hkt⟩

theorem key_of_mem (h : x ∈ ofFlow k log) : x.key = some k := beq_iff_eq.mp (List.mem_filter.mp h).2

/-- A packet of a TCP flow gives it 30 seconds when it closes, else an hour. -/
theorem ttl_tcp (hkey : x.key = some k) (h6 : k.proto = 6) : x.ttl = if x.closes then flowTCPDone else flowTCP := by
  have hproto : x.packet.proto = 6 := by
    unfold Touch.key Touch.flow outFlow replyFlow at hkey
    grind
  have hflow : ∀ y : Packet, y.proto = 6 → (outFlow y).map (·.2) = some (ttlTCP y) ∧
    (replyFlow y).map (·.2) = some (ttlTCP y) := by
    intro y hy
    simp [outFlow, replyFlow, hy]
  have httl : x.ttl = ttlTCP x.packet := by
    unfold Touch.ttl Touch.flow
    grind
  rw [httl, ttlTCP, Touch.closes, hproto]
  simp

end

/-! ## Every run -/

/-- A packet for which the set, its hook and its rules say nothing is let in only as a reply: this
    host sent its mirror image, and since then every packet of the flow came in time. -/
theorem replies_on_open_flows {s : St} (h : Reach Start next Always s) {b : List UInt8} {p : Packet} {now : Int}
    (hp : parsePacket b = some p) (hin : (s.filter.inbound now b).2 = true) (hnot : ¬Admitted s.filter p) :
    ∃ key ttl later o earlier, replyFlow p = some (key, ttl) ∧ ofFlow key s.log = later ++ o :: earlier ∧ o.out = true ∧
      Mirrors o.packet p ∧ (⟨now, false, p, true⟩ :: (later ++ [o])).IsChain Within := by
  obtain ⟨key, ttl, exp, hflow, hexp, hlt⟩ := reply_true (((inbound_true hp).mp hin).resolve_left hnot)
  obtain ⟨chain, earlier, hsplit, hchain, -, ⟨o, ho, hout⟩, x, hx, hxexp⟩ := (reach_inv h).opened hexp
  obtain ⟨later, rfl⟩ := List.getLast?_eq_some_iff.mp ho
  have hmem : o ∈ ofFlow key s.log := by
    rw [hsplit]
    exact List.mem_append_left _ (List.mem_append_right _ List.mem_cons_self)
  obtain ⟨ttl', hout'⟩ := key_out hout (key_of_mem hmem)
  refine ⟨key, ttl, later, o, earlier, hflow, by rw [hsplit, List.append_assoc]; rfl, hout, mirrors_of_flow hout' hflow, ?_⟩
  refine List.isChain_cons.mpr ⟨fun y hy => ?_, hchain⟩
  rw [hx] at hy
  cases hy
  rw [hxexp] at hlt
  exact hlt

/-- A TCP flow whose last FIN or RST that passed is `fin`. When nothing passed after it, no reply
    is taken 30 seconds later; when something did, replies are for an hour after that. -/
theorem closed_flow {s : St} (h : Reach Start next Always s) {key : FlowKey} (h6 : key.proto = 6)
    {after before : List Touch} {fin : Touch}
    (hsplit : passed key s.log = after ++ fin :: before) (hfin : fin.closes = true) (hlast : ∀ x ∈ after, x.closes = false) :
    (after = [] → ∀ p ttl now, s.clock ≤ now → replyFlow p = some (key, ttl) → (s.filter.reply now p).2 = true →
      now < fin.at_ + flowTCPDone) ∧
    ∀ x rest, after = x :: rest → ∀ p ttl now, s.clock ≤ now → replyFlow p = some (key, ttl) → now < x.at_ + flowTCP →
      (s.filter.reply now p).2 = true := by
  have hinv := reach_inv h
  have hkeys : ∀ x ∈ passed key s.log, x.key = some key := fun x hx => key_of_mem (List.mem_of_mem_filter hx)
  constructor
  · rintro rfl p ttl now - hflow hreply
    obtain ⟨key', ttl', exp, hflow', hexp, hlt⟩ := reply_true hreply
    rw [hflow] at hflow'
    cases hflow'
    obtain ⟨x, rest, hx, rfl⟩ := (hinv.opened hexp).head
    rw [hsplit] at hx
    cases hx
    rw [ttl_tcp (hkeys fin (by rw [hsplit]; exact List.mem_cons_self)) h6, if_pos hfin] at hlt
    exact hlt
  · rintro x rest rfl p ttl now hnow hflow hlt
    have hx : x ∈ passed key s.log := by
      rw [hsplit]
      exact List.mem_cons_self
    have httl : x.ttl = flowTCP := by
      rw [ttl_tcp (hkeys x hx) h6, hlast x List.mem_cons_self]
      rfl
    cases hexp : s.filter.flows key with
    | none =>
      have := hinv.gone hexp x _ hsplit
      omega
    | some exp =>
      obtain ⟨y, rest', hy, hyexp⟩ := (hinv.opened hexp).head
      rw [hsplit] at hy
      cases hy
      exact reply_of_live hflow hexp (by omega)

/-- In every run the filter lets in what its set admits and the replies on open flows, and nothing
    else. A flow is open while the newest packet of it that passed gives it time, however long
    ago the table was swept. -/
theorem inbound_iff {s : St} {b : List UInt8} {p : Packet} {now : Int} (h : Reach Start next Always s) (hnow : s.clock ≤ now)
    (hp : parsePacket b = some p) : (s.filter.inbound now b).2 = true ↔ Admitted s.filter p ∨
      ∃ key ttl x rest, replyFlow p = some (key, ttl) ∧ passed key s.log = x :: rest ∧ now < x.at_ + x.ttl := by
  have hinv := reach_inv h
  rw [inbound_true hp]
  refine or_congr_right ⟨fun hreply => ?_, ?_⟩
  · obtain ⟨key, ttl, exp, hflow, hexp, hlt⟩ := reply_true hreply
    obtain ⟨x, rest, hx, rfl⟩ := (hinv.opened hexp).head
    exact ⟨key, ttl, x, rest, hflow, hx, hlt⟩
  · rintro ⟨key, ttl, x, rest, hflow, hx, hlt⟩
    cases hexp : s.filter.flows key with
    | none =>
      -- the entry goes only when its time is over
      have := hinv.gone hexp x rest hx
      omega
    | some exp =>
      obtain ⟨y, rest', hy, hyexp⟩ := (hinv.opened hexp).head
      cases hx.symm.trans hy
      exact reply_of_live hflow hexp (hyexp ▸ hlt)

/-! ## A connection that is closed -/

def tcpPacket (src dst : Arr 4) (sport dport : UInt8) (flags : UInt8) : List UInt8 :=
  [0x45, 0, 0, 40, 0, 0, 0, 0, 64, 6, 0, 0] ++ src.bytes ++ dst.bytes ++
    [0, sport, 0, dport, 0, 0, 0, 0, 0, 0, 0, 0, 0x50, flags, 0, 0, 0, 0, 0, 0]

def thisHost : Arr 4 := Arr.ofNat 4 0x0a000001

def webServer : Arr 4 := Arr.ofNat 4 0x0a000002

def sent (flags : UInt8) : List UInt8 := tcpPacket thisHost webServer 200 80 flags

def received (flags : UInt8) : List UInt8 := tcpPacket webServer thisHost 80 200 flags

/-- The time, direction, TCP flags and fate of the packets of a log. -/
def summary (log : List Touch) : List (Int × Bool × UInt8 × Bool) := log.map fun x => (x.at_, x.out, x.packet.tcpFlags, x.taken)

/-- A SYN at 0, this host's FIN after 2 seconds, the server's acknowledgement of it after 3, and
    data 100 seconds in: 98 seconds after the last FIN or RST it is let in as a reply. -/
theorem an_acknowledged_fin_leaves_the_flow_open :
    ∃ s, Reach Start next Always s ∧
      summary s.log = [(3 * second, false, 0x10, true), (2 * second, true, 0x11, true), (0, true, 0x02, true)] ∧
      s.clock ≤ 100 * second ∧ 2 * second + flowTCPDone < 100 * second ∧ s.filter.set = none ∧
      (s.filter.inbound (100 * second) (received 0x18)).2 = true := by
  obtain ⟨s, hrun, hs⟩ := Option.map_eq_some_iff.mp
    (show (Conc.run next {} [.outbound (sent 0x02) 0 0, .outbound (sent 0x11) (2 * second) (2 * second),
      .inbound (received 0x10) (3 * second)]).map
      (fun s => (summary s.log, s.clock, s.filter.set.isNone, (s.filter.inbound (100 * second) (received 0x18)).2)) =
      some ([(3 * second, false, 0x10, true), (2 * second, true, 0x11, true), (0, true, 0x02, true)], 3 * second, true, true)
      by decide +kernel)
  simp only [Prod.mk.injEq, Option.isNone_iff_eq_none] at hs
  exact ⟨s, .run (.start ⟨rfl, rfl⟩) _ hrun, hs.1, by rw [hs.2.1]; decide, by decide, hs.2.2.1, hs.2.2.2⟩

/-- The answer to a SYN is let in on the flow the SYN opened. -/
theorem replies_on_open_flows_syn :
    ∃ s p, Reach Start next Always s ∧ parsePacket (received 0x12) = some p ∧
      ∃ key ttl later o earlier, replyFlow p = some (key, ttl) ∧ ofFlow key s.log = later ++ o :: earlier ∧ o.out = true ∧
        Mirrors o.packet p ∧ (⟨second, false, p, true⟩ :: (later ++ [o])).IsChain Within := by
  obtain ⟨s, hrun, hs⟩ := Option.map_eq_some_iff.mp
    (show (Conc.run next {} [.outbound (sent 0x02) 0 0]).map
      (fun s => (s.filter.set.isNone, (s.filter.inbound second (received 0x12)).2)) = some (true, true) by decide +kernel)
  simp only [Prod.mk.injEq, Option.isNone_iff_eq_none] at hs
  have hreach : Reach Start next Always s := .run (.start ⟨rfl, rfl⟩) _ hrun
  have hparse : parsePacket (received 0x12) =
      some ⟨6, .v4 webServer, .v4 thisHost, 80, 200, 0x12⟩ := by decide +kernel
  refine ⟨s, _, hreach, hparse, replies_on_open_flows hreach hparse hs.2 ?_⟩
  rintro ⟨c, hc, -⟩
  rw [hs.1] at hc
  cases hc

/-- After this host's FIN nothing else passes: replies end 30 seconds later. -/
theorem closed_flow_fin :
    ∃ s fin, Reach Start next Always s ∧ passed ⟨6, .v4 thisHost, .v4 webServer, 200, 80⟩ s.log = [fin] ∧ fin.at_ = 2 * second ∧
      ∀ p ttl now, s.clock ≤ now → replyFlow p = some (⟨6, .v4 thisHost, .v4 webServer, 200, 80⟩, ttl) →
        (s.filter.reply now p).2 = true → now < 2 * second + flowTCPDone := by
  obtain ⟨s, hrun, hs⟩ := Option.map_eq_some_iff.mp
    (show (Conc.run next {} [.outbound (sent 0x11) (2 * second) (2 * second)]).map
      (fun s => passed ⟨6, .v4 thisHost, .v4 webServer, 200, 80⟩ s.log) =
      some [⟨2 * second, true, ⟨6, .v4 thisHost, .v4 webServer, 200, 80, 0x11⟩, true⟩] by decide +kernel)
  have hreach : Reach Start next Always s := .run (.start ⟨rfl, rfl⟩) _ hrun
  have hsplit : passed ⟨6, .v4 thisHost, .v4 webServer, 200, 80⟩ s.log =
      [] ++ ⟨2 * second, true, ⟨6, .v4 thisHost, .v4 webServer, 200, 80, 0x11⟩, true⟩ :: [] := hs
  have hclosed := closed_flow hreach (by rfl) hsplit (by decide) (by intro x hx; cases hx)
  exact ⟨s, _, hreach, hs, rfl, hclosed.1 rfl⟩

def knock (port : UInt16) (flags : UInt8) : Packet := ⟨6, .v4 webServer, .v4 thisHost, 80, port, flags⟩

def sshIn : FilterSet :=
  { localIP := .v4 thisHost, rules := [{ src := ⟨.v4 webServer, 32⟩, proto := protoTCP, lo := 22, hi := 22 }] }

/-- A flow opened by a SYN, answered after a second and kept by the sweep after 40: the server's
    data is let in on it, its SYN to port 22 by the set, and its SYN to port 23 not at all. -/
theorem inbound_iff_swept :
    ∃ s, Reach Start next Always s ∧ s.filter.lastSweep = 40 * second ∧ s.filter.set.isSome = true ∧
      (s.filter.inbound (50 * second) (received 0x10)).2 = true ∧
      (s.filter.inbound (50 * second) (tcpPacket webServer thisHost 80 22 0x02)).2 = true ∧
      (s.filter.inbound (50 * second) (tcpPacket webServer thisHost 80 23 0x02)).2 = false := by
  obtain ⟨s, hrun, hs⟩ := Option.map_eq_some_iff.mp
    (show (Conc.run next {} [.set sshIn, .outbound (sent 0x02) 0 0, .inbound (received 0x12) second,
        .outbound (tcpPacket thisHost webServer 201 80 0x02) (40 * second) (40 * second)]).map
      (fun s => decide (s.clock ≤ 50 * second ∧ s.filter.lastSweep = 40 * second ∧ s.filter.set.isSome = true ∧
        passed ⟨6, .v4 thisHost, .v4 webServer, 200, 80⟩ s.log = [⟨second, false, knock 200 0x12, true⟩,
          ⟨0, true, ⟨6, .v4 thisHost, .v4 webServer, 200, 80, 0x02⟩, true⟩] ∧
        Admitted s.filter (knock 22 0x02) ∧ ¬Admitted s.filter (knock 23 0x02) ∧
        passed ⟨6, .v4 thisHost, .v4 webServer, 23, 80⟩ s.log = [])) = some true by decide +kernel)
  obtain ⟨hclock, hswept, hset, hflow, hssh, hno, hclosed⟩ := of_decide_eq_true hs
  have hreach : Reach Start next Always s := .run (.start ⟨rfl, rfl⟩) _ hrun
  refine ⟨s, hreach, hswept, hset, ?_, ?_, ?_⟩
  · have hparse : parsePacket (received 0x10) = some (knock 200 0x10) := by decide +kernel
    exact (inbound_iff hreach hclock hparse).mpr (.inr ⟨_, _, _, _, rfl, hflow, by decide +kernel⟩)
  · have hparse : parsePacket (tcpPacket webServer thisHost 80 22 0x02) = some (knock 22 0x02) := by decide +kernel
    exact (inbound_iff hreach hclock hparse).mpr (.inl hssh)
  · have hparse : parsePacket (tcpPacket webServer thisHost 80 23 0x02) = some (knock 23 0x02) := by decide +kernel
    rw [Bool.eq_false_iff, ne_eq, inbound_iff hreach hclock hparse]
    rintro (hadm | ⟨key, ttl, x, rest, hkey, hx, -⟩)
    · exact hno hadm
    · cases hkey
      cases hclosed.symm.trans hx

end Flows

end Thawr.Wg
