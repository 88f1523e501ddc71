/-
  Thawr.Relay.Delivery — what the relay delivers (`internal/relay/server.go`, over every
  interleaving of any number of sessions).

  Proved in every state (`relays_only_visible_traffic`):
  (1) A RECV frame is put on a session's queue only for a SEND frame to that session's key. It
      carries the key of the session that received it and that frame's payload, which starts
      like a WireGuard message, and `Visible` allowed the pair after the frame was received.
  (2) The table has at most one session per key, and a cleanup takes no session out of it but
      its own.
-/

import Thawr.Relay.Server

namespace Thawr.Relay

open Go

namespace Server

/-! ## What is kept -/

section

variable {s s' : Server} {i j : Nat} {x : Session} {n : Note} {r : Reader} {f : Frame} {h : Header}

@[simp] theorem set_sessions : (s.set i x).sessions j = if j = i then x else s.sessions j := by
  simp [set, Function.update_apply]

@[simp] theorem set_log : (s.set i x).log = s.log := rfl

@[simp] theorem note_sessions : (s.note n).sessions = s.sessions := rfl

/-- The last frame session `i` received, and the pairs `Visible` allowed it since. -/
def pending (i : Nat) : List Note → Option (Frame × List (Key × Key))
  | [] => none
  | .received j f :: log => if j = i then some (f, []) else pending i log
  | .visible j src dst :: log =>
    if j = i then (pending i log).map fun p => (p.1, (src, dst) :: p.2) else pending i log
  | .put _ _ _ :: log => pending i log

/-- The RECV frame `f` is what session `i` may put on the queue of session `j`: it has its own
    key and the payload of the frame it last received, a SEND frame to the key of `j` that
    starts like a WireGuard message, and `Visible` allowed the pair since. -/
def Delivers (s : Server) (log : List Note) (i j : Nat) (f : Frame) : Prop :=
  ∃ sent seen, pending i log = some (sent, seen) ∧ sent.type = typeSend ∧ sent.key = (s.sessions j).key ∧
    f = ⟨typeRecv, (s.sessions i).key, sent.payload⟩ ∧ isWireGuard sent.payload = true ∧
    ((s.sessions i).key, (s.sessions j).key) ∈ seen

/-- The reader of session `i` holds the SEND frame it last received. -/
def HoldsFrame (s : Server) (i : Nat) (h : Header) : Prop :=
  h.type = typeSend ∧ ∃ seen, pending i s.log = some (h.frame (s.sessions i).buf, seen)

def ReaderOk (s : Server) (i : Nat) : Reader → Prop
  | .sending h => HoldsFrame s i h
  | .asking h => HoldsFrame s i h ∧ isWireGuard (h.frame (s.sessions i).buf).payload = true
  | .allowed h => h.type = typeSend ∧ isWireGuard (h.frame (s.sessions i).buf).payload = true ∧
    ∃ seen, pending i s.log = some (h.frame (s.sessions i).buf, seen) ∧ ((s.sessions i).key, h.key) ∈ seen
  | .enqueue dst f _ => dst < s.count ∧ (f.type = typeRecv → Delivers s s.log i dst f)
  | .offer dst f _ => dst < s.count ∧ (f.type = typeRecv → Delivers s s.log i dst f)
  | _ => True

/-- What a note that session `i` put a frame on the queue of session `j` says. -/
def PutOk (s : Server) (log : List Note) (i j : Nat) (f : Frame) : Prop :=
  i < s.count ∧ j < s.count ∧ (f.type = typeRecv → Delivers s log i j f)

/-- Every RECV frame of the log was one to deliver when it was put. -/
def Sound (s : Server) (log : List Note) : Prop :=
  ∀ later before i j f, log = later ++ .put i j f :: before → PutOk s before i j f

structure Inv (s : Server) : Prop where
  table : ∀ k i, s.table.lookup k = some i → i < s.count ∧ (s.sessions i).key = k
  reader : ∀ i < s.count, ReaderOk s i (s.sessions i).reader
  out : ∀ j < s.count, ∀ f ∈ (s.sessions j).out, ∃ i, .put i j f ∈ s.log
  sound : Sound s s.log

structure Keeps (s s' : Server) : Prop where
  count : s.count ≤ s'.count
  key : ∀ i < s.count, (s'.sessions i).key = (s.sessions i).key

theorem Delivers.keeps (hk : Keeps s s') (hi : i < s.count) (hj : j < s.count) {log : List Note} (h : Delivers s log i j f) :
    Delivers s' log i j f := by
  unfold Delivers
  rw [hk.key i hi, hk.key j hj]
  exact h

theorem PutOk.keeps (hk : Keeps s s') {log : List Note} (h : PutOk s log i j f) : PutOk s' log i j f :=
  ⟨h.1.trans_le hk.count, h.2.1.trans_le hk.count, fun ht => (h.2.2 ht).keeps hk h.1 h.2.1⟩

theorem Sound.cons {log : List Note} (h : Sound s log) (hn : ∀ i j f, n = .put i j f → PutOk s log i j f) :
    Sound s (n :: log) := by
  intro later before i j f hlog
  cases later with
  | nil =>
    obtain ⟨rfl, rfl⟩ := List.cons.inj hlog
    exact hn i j f rfl
  | cons m later => exact h later before i j f (List.cons.inj hlog).2

/-- What is known of a reader stays known while its session's buffer and what it holds stay. -/
theorem ReaderOk.keeps (hk : Keeps s s') (hi : i < s.count) (hbuf : (s'.sessions i).buf = (s.sessions i).buf)
    (hp : pending i s'.log = pending i s.log) (h : ReaderOk s i r) : ReaderOk s' i r := by
  have hkey := hk.key i hi
  have hdel : ∀ {dst f}, dst < s.count ∧ (f.type = typeRecv → Delivers s s.log i dst f) →
      dst < s'.count ∧ (f.type = typeRecv → Delivers s' s'.log i dst f) := by
    intro dst f hd
    refine ⟨hd.1.trans_le hk.count, fun ht => ?_⟩
    unfold Delivers
    rw [hp]
    exact (hd.2 ht).keeps hk hi hd.1
  cases r with
  | sending h' => simpa only [ReaderOk, HoldsFrame, hbuf, hp] using h
  | asking h' => simpa only [ReaderOk, HoldsFrame, hbuf, hp] using h
  | allowed h' => simpa only [ReaderOk, hbuf, hp, hkey] using h
  | enqueue dst f refused => exact hdel h
  | offer dst f refused => exact hdel h
  | _ => trivial

/-- What a step has to leave: for each entry of the table, each reader and each queue, what was
    there before or what the invariant asks for, and at most one more note. -/
theorem Inv.change (h : Inv s) (hk : Keeps s s')
    (htable : ∀ k j, s'.table.lookup k = some j → s.table.lookup k = some j ∨ j < s'.count ∧ (s'.sessions j).key = k)
    (hreader : ∀ i < s'.count, ReaderOk s' i (s'.sessions i).reader ∨ i < s.count ∧
      (s'.sessions i).reader = (s.sessions i).reader ∧ (s'.sessions i).buf = (s.sessions i).buf ∧
      pending i s'.log = pending i s.log)
    (hout : ∀ j < s'.count, ∀ f ∈ (s'.sessions j).out, j < s.count ∧ f ∈ (s.sessions j).out ∨ ∃ i, .put i j f ∈ s'.log)
    (hlog : s'.log = s.log ∨ ∃ n, s'.log = n :: s.log ∧ ∀ i j f, n = .put i j f → PutOk s s.log i j f) : Inv s' := by
  have hsound : Sound s' s.log := fun later before i j f he => (h.sound later before i j f he).keeps hk
  refine ⟨fun k j hj => ?_, fun i hi => ?_, fun j hj f hf => ?_, ?_⟩
  · rcases htable k j hj with hj | hj
    · obtain ⟨hlt, hkey⟩ := h.table k j hj
      exact ⟨hlt.trans_le hk.count, (hk.key j hlt).trans hkey⟩
    · exact hj
  · rcases hreader i hi with hr | ⟨hlt, hr, hbuf, hp⟩
    · exact hr
    · rw [hr]
      exact (h.reader i hlt).keeps hk hlt hbuf hp
  · rcases hout j hj f hf with ⟨hlt, hold⟩ | hput
    · obtain ⟨i, hi⟩ := h.out j hlt f hold
      grind
    · exact hput
  · rcases hlog with hl | ⟨n, hl, hn⟩
    · rw [hl]
      exact hsound
    · rw [hl]
      exact hsound.cons fun i j f he => (hn i j f he).keeps hk

/-- A note of session `i` that is not about a queue. -/
def Note.Own (i : Nat) : Note → Prop
  | .received j _ | .visible j _ _ => j = i
  | .put _ _ _ => False

theorem pending_own {log : List Note} (hn : Note.Own i n) (hj : j ≠ i) : pending j (n :: log) = pending j log := by
  cases n with
  | put a b f => exact hn.elim
  | received a f => rw [pending, if_neg (fun he => hj (he.symm.trans hn))]
  | visible a src dst => rw [pending, if_neg (fun he => hj (he.symm.trans hn))]

/-- One session changes, with a note of its own or none. -/
theorem Inv.update (h : Inv s) {log : List Note} (hlog : log = s.log ∨ ∃ n, Note.Own i n ∧ log = n :: s.log)
    (hkey : x.key = (s.sessions i).key) (hout : ∀ f ∈ x.out, f ∈ (s.sessions i).out)
    (hr : ReaderOk ({ s with log := log }.set i x) i x.reader) : Inv ({ s with log := log }.set i x) := by
  refine h.change ⟨Nat.le_refl _, fun j _ => ?_⟩ (fun k j hk => .inl hk) (fun j hj => ?_) (fun j hj f hf => .inl ⟨hj, ?_⟩) ?_
  · rw [set_sessions]
    grind
  · by_cases hji : j = i
    · subst hji
      rw [set_sessions, if_pos rfl]
      exact .inl hr
    · rw [set_sessions, if_neg hji]
      refine .inr ⟨hj, rfl, rfl, ?_⟩
      rcases hlog with rfl | ⟨n, hn, rfl⟩
      · rfl
      · exact pending_own hn hji
  · rw [set_sessions] at hf
    grind
  · rcases hlog with rfl | ⟨n, hn, rfl⟩
    · exact .inl rfl
    · refine .inr ⟨n, rfl, fun a b f he => ?_⟩
      subst he
      exact hn.elim

/-- A session that changes nothing its reader holds. -/
theorem Inv.set_quiet (h : Inv s) (hi : i < s.count) (hkey : x.key = (s.sessions i).key) (hbuf : x.buf = (s.sessions i).buf)
    (hout : ∀ f ∈ x.out, f ∈ (s.sessions i).out) (hr : x.reader = (s.sessions i).reader ∨ ReaderOk s i x.reader) :
    Inv (s.set i x) := by
  have hreader : ReaderOk s i x.reader := by
    rcases hr with hr | hr
    · rw [hr]
      exact h.reader i hi
    · exact hr
  have hk : Keeps s (s.set i x) := by
    refine ⟨Nat.le_refl _, fun j _ => ?_⟩
    rw [set_sessions]
    grind
  exact h.update (.inl rfl) hkey hout (hreader.keeps hk hi (by simp [hbuf]) rfl)

/-- The reader goes on to where it is known to be right. -/
theorem Inv.goTo (h : Inv s) (hi : i < s.count) (hr : ReaderOk s i r) : Inv (s.goTo i r) :=
  h.set_quiet hi rfl rfl (fun _ hf => hf) (.inr hr)

theorem readerOk_after (refused : Bool) : ReaderOk s i (after refused) := by
  cases refused with
  | true => trivial
  | false => trivial

theorem push_count : (s.push i j f).count = s.count := by
  unfold Server.push
  split
  · rfl
  · rfl

theorem Inv.push (h : Inv s) (hok : PutOk s s.log i j f) : Inv (s.push i j f) := by
  unfold Server.push
  split
  · -- of the sessions only the queue of `j` changes
    have hsame : ∀ a, a ≠ j → ((s.set j { s.sessions j with out := (s.sessions j).out ++ [f] }).note (.put i j f)).sessions a =
      s.sessions a := fun a ha => by simp [ha]
    refine h.change ⟨Nat.le_refl _, fun a _ => ?_⟩ (fun _ _ hk => .inl hk) (fun a ha => .inr ⟨ha, ?_, ?_, rfl⟩)
      (fun a ha g hg => ?_) (.inr ⟨_, rfl, fun a b g he => ?_⟩)
    · by_cases haj : a = j
      · simp [haj]
      · rw [hsame a haj]
    · by_cases haj : a = j
      · simp [haj]
      · rw [hsame a haj]
    · by_cases haj : a = j
      · simp [haj]
      · rw [hsame a haj]
    · by_cases haj : a = j
      · subst haj
        rw [note_sessions, set_sessions, if_pos rfl] at hg
        rcases List.mem_append.mp hg with hg | hg
        · exact .inl ⟨ha, hg⟩
        · rw [List.mem_singleton.mp hg]
          exact .inr ⟨i, List.mem_cons_self⟩
      · rw [hsame a haj] at hg
        exact .inl ⟨ha, hg⟩
    · cases he
      exact hok
  · exact h

/-- Closing sessions changes nothing the invariant is about. -/
theorem Inv.alike (h : Inv s) (hc : s'.count = s.count) (htable : s'.table = s.table) (hlog : s'.log = s.log)
    (hsame : ∀ j, s'.sessions j = s.sessions j ∨ s'.sessions j = { s.sessions j with done := true }) : Inv s' := by
  have hfields : ∀ j, (s'.sessions j).key = (s.sessions j).key ∧ (s'.sessions j).reader = (s.sessions j).reader ∧
      (s'.sessions j).buf = (s.sessions j).buf ∧ (s'.sessions j).out = (s.sessions j).out := by
    intro j
    rcases hsame j with hj | hj
    all_goals rw [hj]; exact ⟨rfl, rfl, rfl, rfl⟩
  refine h.change ⟨hc.ge, fun j _ => (hfields j).1⟩ (fun k j hj => .inl (htable ▸ hj)) (fun j hj => .inr ⟨hc ▸ hj, ?_⟩)
    (fun j hj f hf => .inl ⟨hc ▸ hj, (hfields j).2.2.2 ▸ hf⟩) (.inl hlog)
  exact ⟨(hfields j).2.1, (hfields j).2.2.1, by rw [hlog]⟩

theorem Inv.stop (h : Inv s) (i : Nat) : Inv (s.stop i) := by
  refine h.alike rfl rfl rfl fun j => ?_
  by_cases hj : j = i
  · right
    simp [Server.stop, hj]
  · left
    simp [Server.stop, hj]

theorem Inv.stopUnless (h : Inv s) (keep : Key → Bool) : Inv (s.stopUnless keep) := by
  refine h.alike rfl rfl rfl fun j => ?_
  simp only [Server.stopUnless]
  split
  · exact .inr rfl
  · exact .inl rfl

/-! ## One step -/

/-- The new session has read nothing, and no table entry or note names its number. -/
theorem Inv.add (h : Inv s) (key : Key) :
    Inv { s.set s.count { key := key } with count := s.count + 1, table := s.table.insert key s.count } := by
  refine h.change ⟨Nat.le_succ _, fun j hj => by simp [hj.ne]⟩ (fun k j hj => ?_) (fun j hj => ?_) (fun j hj f hf => ?_)
    (.inl rfl)
  · rcases of_lookup_insert hj with ⟨rfl, rfl⟩ | ⟨-, hj⟩
    · exact .inr ⟨Nat.lt_succ_self _, by simp⟩
    · exact .inl hj
  · rcases Nat.lt_succ_iff_lt_or_eq.mp hj with hj | rfl
    · exact .inr ⟨hj, by simp [hj.ne], by simp [hj.ne], rfl⟩
    · exact .inl (by simp [ReaderOk])
  · rcases Nat.lt_succ_iff_lt_or_eq.mp hj with hj | rfl
    · exact .inl ⟨hj, by simpa [hj.ne] using hf⟩
    · simp at hf

theorem Inv.serve (h : Inv s) (key : Key) : Inv (s.serve key) := by
  unfold Server.serve
  split
  · exact h
  · split
    · exact (h.stop _).add key
    · exact h.add key

theorem Inv.cleanup (h : Inv s) (hi : i < s.count) : Inv (s.cleanup i) := by
  have hgo : Inv (s.goTo i .finished) := h.goTo hi trivial
  unfold Server.cleanup
  simp only
  split
  · refine hgo.change ⟨Nat.le_refl _, fun _ _ => rfl⟩ (fun k j hk => .inl ?_) (fun j hj => .inr ⟨hj, rfl, rfl, rfl⟩)
      (fun j hj f hf => .inl ⟨hj, hf⟩) (.inl rfl)
    by_cases hkey : k = ((s.goTo i .finished).sessions i).key
    · rw [hkey, Finmap.lookup_erase] at hk
      cases hk
    · rwa [Finmap.lookup_erase_ne hkey] at hk
  · exact hgo

theorem switchOn_fields (x : Session) (i : Nat) (h : Header) :
    (switchOn x i h).key = x.key ∧ (switchOn x i h).buf = x.buf ∧ (switchOn x i h).out = x.out := by
  unfold switchOn
  split_ifs
  all_goals exact ⟨rfl, rfl, rfl⟩

theorem Inv.read (h : Inv s) (hi : i < s.count) (hr : (s.sessions i).reader = .reading) (c : Conn) : Inv (s.read i c) := by
  unfold Server.read
  simp only
  split
  · exact h.update (.inl rfl) rfl (fun _ hf => hf) trivial
  · rename_i hd _
    obtain ⟨hkey, hbuf, hout⟩ := switchOn_fields { s.sessions i with buf := (readFrame c (s.sessions i).buf).2.1 } i hd
    refine h.update (.inr ⟨.received i _, rfl, rfl⟩) hkey (fun f hf => hout ▸ hf) ?_
    -- only a SEND frame is held on to
    unfold switchOn at hbuf ⊢
    split_ifs at hbuf ⊢ with hsend hping hpong
    · exact ⟨hsend, [], by simp [pending]⟩
    · exact ⟨hi, fun ht => absurd ht (by decide)⟩
    · simp [ReaderOk, hr]
    · simp [ReaderOk, hr]

theorem Inv.check (h : Inv s) (hi : i < s.count) {hd : Header} (hok : ReaderOk s i (.sending hd)) (room : Bool) :
    Inv (s.check i hd room) := by
  unfold Server.check
  split
  · rename_i hw
    rw [Bool.and_eq_true] at hw
    exact h.goTo hi ⟨hok, hw.1⟩
  · exact h.goTo hi trivial

/-- A yes of `Visible` is noted after the frame it is about. -/
theorem Inv.answer (h : Inv s) (hi : i < s.count) {hd : Header} (hok : ReaderOk s i (.asking hd)) (ok : Option Bool) :
    Inv (s.answer i hd ok) := by
  cases ok with
  | none => exact h.goTo hi trivial
  | some ok =>
    cases ok with
    | false => exact h.goTo hi trivial
    | true =>
      obtain ⟨⟨htype, seen, hpend⟩, hwg⟩ := hok
      refine h.update (.inr ⟨.visible i _ _, rfl, rfl⟩) rfl (fun _ hf => hf) ?_
      simp [ReaderOk, htype, hwg, pending, hpend]

/-- The session found is the one of the frame's key, whatever the table was when `Visible` was
    asked. -/
theorem Inv.lookup (h : Inv s) (hi : i < s.count) {hd : Header} (hok : ReaderOk s i (.allowed hd)) : Inv (s.lookup i hd) := by
  unfold Server.lookup
  split
  · exact h.goTo hi trivial
  · rename_i j hj
    obtain ⟨hlt, hkey⟩ := h.table _ _ hj
    obtain ⟨htype, hwg, seen, hpend, hseen⟩ := hok
    refine h.goTo hi ⟨hlt, fun _ => ⟨_, seen, hpend, htype, hkey.symm, rfl, hwg, ?_⟩⟩
    rw [hkey]
    exact hseen

theorem Inv.peerGone (h : Inv s) (hi : i < s.count) (dst : Key) (refused : Bool) (now : Control.Path.Time) :
    Inv (s.peerGone i dst refused now) := by
  unfold Server.peerGone
  simp only
  split
  · exact h.goTo hi (readerOk_after _)
  · exact h.set_quiet hi rfl rfl (fun _ hf => hf) (.inr ⟨hi, fun ht => absurd ht (show typePeerGone ≠ typeRecv by decide)⟩)

theorem Inv.violation (h : Inv s) (hi : i < s.count) (now : Control.Path.Time) : Inv (s.violation i now) := by
  refine h.set_quiet hi rfl rfl (fun _ hf => hf) (.inr ?_)
  simp only
  split
  · trivial
  · trivial

theorem Inv.tryDone (h : Inv s) (hi : i < s.count) {dst : Nat} {refused : Bool} (hok : ReaderOk s i (.enqueue dst f refused)) :
    Inv (s.tryDone i dst f refused) := by
  unfold Server.tryDone
  split
  · exact h.goTo hi (readerOk_after refused)
  · exact h.goTo hi hok

theorem Inv.offer (h : Inv s) (hi : i < s.count) {dst : Nat} {refused : Bool} (hok : ReaderOk s i (.offer dst f refused)) :
    Inv ((s.push i dst f).goTo i (after refused)) := by
  have hp : Inv (s.push i dst f) := h.push ⟨hi, hok⟩
  exact hp.goTo (by rw [push_count]; exact hi) (readerOk_after refused)

theorem Inv.take (h : Inv s) (hi : i < s.count) (hs : s.take i = some s') : Inv s' := by
  unfold Server.take at hs
  split at hs
  · cases hs
  · rename_i hout
    cases hs
    refine h.set_quiet hi rfl rfl (fun g hg => ?_) (.inl rfl)
    rw [hout]
    exact List.mem_cons_of_mem _ hg

/-- The pinger's own steps leave reader, buffer and queue alone. -/
theorem Inv.pinger (h : Inv s) (hi : i < s.count) (missed : Nat) (done : Bool) (pinger : Pinger) :
    Inv (s.set i { s.sessions i with missed := missed, done := done, pinger := pinger }) :=
  h.set_quiet hi rfl rfl (fun _ hf => hf) (.inl rfl)

theorem Inv.readerStep {y : Input} (h : Inv s) (hi : i < s.count) (hs : s.readerStep i y = some s') : Inv s' := by
  have hok := h.reader i hi
  unfold Server.readerStep at hs
  split at hs
  all_goals rename_i hr
  all_goals cases hs
  all_goals rw [hr] at hok
  · exact h.read hi hr y.conn
  · exact h.check hi hok y.room
  · exact h.answer hi hok y.visible
  · exact h.lookup hi hok
  · exact h.peerGone hi _ _ y.now
  · exact h.tryDone hi hok
  · exact h.offer hi hok
  · exact h.violation hi y.now
  · exact (h.stop i).goTo hi trivial

theorem Inv.pingerStep {fires : Bool} (h : Inv s) (hi : i < s.count) (hs : s.pingerStep i fires = some s') : Inv s' := by
  have hp : Inv (s.push i i { type := typePing }) := h.push ⟨hi, hi, fun ht => absurd ht (by decide)⟩
  unfold Server.pingerStep at hs
  simp only at hs
  split at hs
  · split_ifs at hs
    all_goals cases hs; exact h.pinger hi _ _ _
  · cases hs
    exact h.pinger hi _ _ _
  · cases hs
    exact hp.pinger (by rw [push_count]; exact hi) _ _ _
  · cases hs

theorem Inv.next {e : Ev} (h : Inv s) (hs : s.next e = some s') : Inv s' := by
  cases e with
  | serve key =>
    cases hs
    exact h.serve key
  | reader i y =>
    obtain ⟨hi, hs⟩ := Option.ite_none_right_eq_some.mp hs
    exact h.readerStep hi hs
  | cleanup i =>
    obtain ⟨⟨hi, -⟩, rfl⟩ := Option.ite_some_none_eq_some.mp hs
    exact h.cleanup hi
  | pinger i fires =>
    obtain ⟨hi, hs⟩ := Option.ite_none_right_eq_some.mp hs
    exact h.pingerStep hi hs
  | take i =>
    obtain ⟨hi, hs⟩ := Option.ite_none_right_eq_some.mp hs
    exact h.take hi hs
  | stop i =>
    cases hs
    exact h.stop i
  | prune keep =>
    cases hs
    exact h.stopUnless keep
  | close =>
    cases hs
    exact (h.stopUnless fun _ => false).alike rfl rfl rfl fun _ => .inl rfl

theorem Start.inv (h : Start s) : Inv s := by
  obtain ⟨opts, rfl⟩ := h
  refine ⟨?_, fun i hi => absurd hi (Nat.not_lt_zero i), fun j hj => absurd hj (Nat.not_lt_zero j), by simp [Sound]⟩
  intro k i hk
  rw [Finmap.lookup_empty] at hk
  cases hk

/-! ## Every run -/

/-- A cleanup takes no other session out of the table. -/
theorem cleanup_keeps (k : Key) (hj : s.table.lookup k = some j) (hne : j ≠ i) : (s.cleanup i).table.lookup k = some j := by
  unfold Server.cleanup
  simp only
  split
  · rename_i hown
    rw [Finmap.lookup_erase_ne]
    · exact hj
    · rintro rfl
      rw [show (s.goTo i .finished).table = s.table from rfl] at hown
      exact hne (Option.some.inj (hj.symm.trans hown))
  · exact hj

/-- In every state of every run: a RECV frame that session `i` put on the queue of session `j`
    has the key of `i` and the payload of the frame `i` last received before, a SEND frame to
    the key of `j` that starts like a WireGuard message, and between the two `Visible` allowed
    the pair of keys. Every RECV frame on a queue was put there so. Two sessions in the table
    have two keys, each its own, and the cleanup of a session leaves all others in it. -/
theorem relays_only_visible_traffic (h : Conc.Reach Start next Conc.Always s) :
    (∀ later before i j f, s.log = later ++ .put i j f :: before → f.type = typeRecv → Delivers s before i j f) ∧
      (∀ j < s.count, ∀ f ∈ (s.sessions j).out, ∃ i, .put i j f ∈ s.log) ∧
      (∀ k k' i j, s.table.lookup k = some i → s.table.lookup k' = some j →
        (s.sessions i).key = k ∧ ((s.sessions i).key = (s.sessions j).key → i = j)) ∧
      ∀ i s', s.next (.cleanup i) = some s' → ∀ k j, s.table.lookup k = some j → j ≠ i → s'.table.lookup k = some j := by
  have hinv : Inv s := h.inv (fun _ => Start.inv) (fun _ _ _ hi _ hs => hi.next hs)
  refine ⟨?_, hinv.out, ?_, ?_⟩
  · intro later before i j f hlog ht
    exact (hinv.sound later before i j f hlog).2.2 ht
  · intro k k' i j hk hk'
    obtain ⟨-, hi⟩ := hinv.table k i hk
    obtain ⟨-, hj⟩ := hinv.table k' j hk'
    grind
  · intro i s' hs k j hj hne
    obtain ⟨-, rfl⟩ := Option.ite_some_none_eq_some.mp hs
    exact cleanup_keeps k hj hne

def keyA : Key := ⟨List.replicate 32 1, List.length_replicate⟩

def keyB : Key := ⟨List.replicate 32 2, List.length_replicate⟩

def oneSend : List Ev :=
  [.serve keyA, .serve keyB, .reader 0 { conn := { bytes := [1] ++ keyB.bytes ++ [0, 4, 1, 0, 0, 0] } }] ++
    List.replicate 5 (.reader 0 {})

theorem relays_only_visible_traffic_one : ∃ s before, Conc.run next {} oneSend = some s ∧
    s.log = .put 0 1 ⟨typeRecv, keyA, [1, 0, 0, 0]⟩ :: before ∧ Delivers s before 0 1 ⟨typeRecv, keyA, [1, 0, 0, 0]⟩ := by
  obtain ⟨s, hs, hlog⟩ := Option.map_eq_some_iff.mp (show (Conc.run next {} oneSend).map (fun s => s.log) =
    some [.put 0 1 ⟨typeRecv, keyA, [1, 0, 0, 0]⟩, .visible 0 keyA keyB, .received 0 ⟨typeSend, keyB, [1, 0, 0, 0]⟩] by
      decide +kernel)
  have hreach := (Conc.Reach.start (show Start {} from ⟨{}, rfl⟩)).run _ hs
  exact ⟨s, _, hs, hlog, (relays_only_visible_traffic hreach).1 [] _ 0 1 _ hlog rfl⟩

end

end Server

end Thawr.Relay
