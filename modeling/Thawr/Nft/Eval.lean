/-
  Thawr.Nft.Eval — how the kernel evaluates nftables rules.

  A rule is a list of expressions over one register: some load it, some compare it and skip
  the rule when the comparison fails, and a verdict ends the chain. A chain without a verdict
  has its policy. A packet passes a hook when every filter chain on it accepts.

  Proved: rules for the tests a rule is made of (`Tests`), which hold or skip the rule
  whatever the register held, and what a chain that ends in a drop accepts (`run_accept`).
-/

import Thawr.Go.Bytes

namespace Thawr.Nft

open Go

inductive MetaKey where
  | iifname
  | oifname
  | nfproto
  | l4proto

inductive Base where
  | network
  | transport

inductive Verdict where
  | accept
  | drop
  deriving DecidableEq

inductive Expr where
  | meta_ (key : MetaKey)
  | payload (base : Base) (offset len : Nat)
  | ctState
  | cmpEq (data : List UInt8)
  | cmpNeq (data : List UInt8)
  /-- Both ends belong to the range. -/
  | range (lo hi : List UInt8)
  | bitwise (mask xor : List UInt8)
  | lookup (elems : List (List UInt8))
  | counter
  | masq
  | verdict (v : Verdict)

structure Pkt where
  iif : Str
  oif : Str
  nfproto : UInt8
  l4proto : UInt8
  /-- The packet from its network header on. -/
  network : List UInt8
  /-- The packet from its transport header on. -/
  transport : List UInt8
  /-- The state bits of its connection. -/
  ct : UInt32

def name16 (n : Str) : List UInt8 := (n ++ List.replicate 16 0).take 16

def native32 (x : UInt32) : List UInt8 := [x.toUInt8, (x >>> 8).toUInt8, (x >>> 16).toUInt8, (x >>> 24).toUInt8]

def Pkt.load (k : Pkt) : MetaKey → List UInt8
  | .iifname => name16 k.iif
  | .oifname => name16 k.oif
  | .nfproto => [k.nfproto]
  | .l4proto => [k.l4proto]

def Pkt.header (k : Pkt) : Base → List UInt8
  | .network => k.network
  | .transport => k.transport

/-- What an expression does: go on with the register, skip the rule, or end the chain. -/
inductive Result where
  | pass (reg : List UInt8)
  | skip
  | done (v : Verdict)

def step (k : Pkt) (reg : List UInt8) : Expr → Result
  | .meta_ key => .pass (k.load key)
  | .payload base offset len =>
    if offset + len ≤ (k.header base).length then .pass (((k.header base).drop offset).take len) else .skip
  | .ctState => .pass (native32 k.ct)
  | .cmpEq data => if reg.take data.length = data then .pass reg else .skip
  | .cmpNeq data => if reg.take data.length = data then .skip else .pass reg
  | .range lo hi =>
    if beNat lo ≤ beNat (reg.take lo.length) ∧ beNat (reg.take lo.length) ≤ beNat hi then .pass reg else .skip
  | .bitwise mask xor => .pass (List.zipWith (· ^^^ ·) (List.zipWith (· &&& ·) reg mask) xor)
  | .lookup elems => if elems.contains reg then .pass reg else .skip
  | .counter => .pass reg
  | .masq => .done .accept
  | .verdict v => .done v

def exec (k : Pkt) : List Expr → List UInt8 → Result
  | [], reg => .pass reg
  | e :: es, reg =>
    match step k reg e with
    | .pass reg => exec k es reg
    | .skip => .skip
    | .done v => .done v

inductive Hook where
  | input
  | forward
  | postrouting
  deriving DecidableEq

inductive Kind where
  | filter
  | nat
  deriving DecidableEq

structure Chain where
  name : Str
  kind : Kind
  hook : Hook
  policy : Verdict
  rules : List (List Expr)

def verdictOf (k : Pkt) (rule : List Expr) : Option Verdict :=
  match exec k rule [] with
  | .done v => some v
  | _ => none

def Chain.run (k : Pkt) (c : Chain) : Verdict := (c.rules.findSome? (verdictOf k)).getD c.policy

/-- Every filter chain on the hook accepts the packet; without one it passes. -/
def passes (chains : List Chain) (hook : Hook) (k : Pkt) : Bool :=
  chains.all fun c => c.kind != .filter || c.hook != hook || c.run k == .accept

/-! ## Tests -/

section

variable {k : Pkt} {es fs : List Expr} {reg : List UInt8} {P Q : Prop}

theorem exec_append (es fs : List Expr) (reg : List UInt8) :
    exec k (es ++ fs) reg = match exec k es reg with
      | .pass reg => exec k fs reg
      | .skip => .skip
      | .done v => .done v := by
  induction es generalizing reg with
  | nil => rfl
  | cons e es ih =>
    rw [List.cons_append, exec.eq_2, exec.eq_2]
    cases step k reg e with
    | pass reg' => exact ih reg'
    | skip => rfl
    | done v => rfl

/-- From this register the expressions go on when `P` and skip the rule when not. -/
def TestsAt (k : Pkt) (es : List Expr) (reg : List UInt8) (P : Prop) : Prop :=
  (P ∧ ∃ reg', exec k es reg = .pass reg') ∨ (¬P ∧ exec k es reg = .skip)

def Tests (k : Pkt) (es : List Expr) (P : Prop) : Prop := ∀ reg, TestsAt k es reg P

theorem Tests.iff (h : Tests k es P) (hPQ : P ↔ Q) : Tests k es Q := by
  rw [← propext hPQ]
  exact h

theorem TestsAt.iff (h : TestsAt k es reg P) (hPQ : P ↔ Q) : TestsAt k es reg Q := by
  rw [← propext hPQ]
  exact h

/-- The second test may rely on the first. -/
theorem Tests.append (h : Tests k es P) (h' : P → Tests k fs Q) : Tests k (es ++ fs) (P ∧ Q) := by
  intro reg
  unfold TestsAt
  rw [exec_append]
  rcases h reg with ⟨hP, reg', he⟩ | ⟨hP, he⟩
  · rw [he]
    rcases h' hP reg' with ⟨hQ, reg'', he'⟩ | ⟨hQ, he'⟩
    · exact .inl ⟨⟨hP, hQ⟩, reg'', he'⟩
    · exact .inr ⟨fun h => hQ h.2, he'⟩
  · rw [he]
    exact .inr ⟨fun h => hP h.1, rfl⟩

/-- A test of what an expression loads. -/
theorem tests_load {e : Expr} {v : List UInt8} (hload : ∀ reg, step k reg e = .pass v) (h : TestsAt k es v P) :
    Tests k (e :: es) P := by
  intro reg
  unfold TestsAt exec
  rw [hload reg]
  exact h

theorem tests_meta (key : MetaKey) (h : TestsAt k es (k.load key) P) : Tests k (.meta_ key :: es) P := tests_load (fun _ => rfl) h

theorem tests_payload {base : Base} {offset len : Nat} (hlen : offset + len ≤ (k.header base).length)
    (h : TestsAt k es (((k.header base).drop offset).take len) P) : Tests k (.payload base offset len :: es) P :=
  tests_load (fun _ => if_pos hlen) h

theorem testsAt_cmpEq (reg data : List UInt8) : TestsAt k [.cmpEq data] reg (reg.take data.length = data) := by
  by_cases h : reg.take data.length = data
  · exact .inl ⟨h, reg, by simp [exec, step, h]⟩
  · exact .inr ⟨h, by simp [exec, step, h]⟩

theorem testsAt_cmpNeq (reg data : List UInt8) : TestsAt k [.cmpNeq data] reg (reg.take data.length ≠ data) := by
  by_cases h : reg.take data.length = data
  · exact .inr ⟨not_not.mpr h, by simp [exec, step, h]⟩
  · exact .inl ⟨h, reg, by simp [exec, step, h]⟩

theorem testsAt_range (reg lo hi : List UInt8) :
    TestsAt k [.range lo hi] reg (beNat lo ≤ beNat (reg.take lo.length) ∧ beNat (reg.take lo.length) ≤ beNat hi) := by
  by_cases h : beNat lo ≤ beNat (reg.take lo.length) ∧ beNat (reg.take lo.length) ≤ beNat hi
  · exact .inl ⟨h, reg, by simp [exec, step, h]⟩
  · exact .inr ⟨h, by simp [exec, step, h]⟩

theorem testsAt_lookup (reg : List UInt8) (elems : List (List UInt8)) : TestsAt k [.lookup elems] reg (reg ∈ elems) := by
  by_cases h : reg ∈ elems
  · exact .inl ⟨h, reg, by simp [exec, step, h]⟩
  · exact .inr ⟨h, by simp [exec, step, h]⟩

theorem testsAt_bitwise {mask xor : List UInt8} (h : TestsAt k es
    (List.zipWith (· ^^^ ·) (List.zipWith (· &&& ·) reg mask) xor) P) :
    TestsAt k (.bitwise mask xor :: es) reg P := h

/-- A rule that accepts what passes its tests. -/
theorem Tests.accept (h : Tests k es P) : verdictOf k (es ++ [.verdict .accept]) = some .accept ↔ P := by
  unfold verdictOf
  rw [exec_append]
  rcases h [] with ⟨hP, reg', he⟩ | ⟨hP, he⟩
  · rw [he]
    simp [exec, step, hP]
  · rw [he]
    simp [hP]

end

/-! ## Chains that end in a drop -/

/-- Only a verdict ends the chain, and masquerading, which accepts. -/
theorem step_done {k : Pkt} {reg : List UInt8} {e : Expr} {v : Verdict} (h : step k reg e = .done v) :
    e = .verdict v ∨ (e = .masq ∧ v = .accept) := by
  cases e with
  | verdict w =>
    cases h
    exact .inl rfl
  | masq =>
    cases h
    exact .inr ⟨rfl, rfl⟩
  | payload base offset len => simp only [step] at h; split at h <;> cases h
  | cmpEq data => simp only [step] at h; split at h <;> cases h
  | cmpNeq data => simp only [step] at h; split at h <;> cases h
  | range lo hi => simp only [step] at h; split at h <;> cases h
  | lookup elems => simp only [step] at h; split at h <;> cases h
  | meta_ key => cases h
  | ctState => cases h
  | bitwise mask xor => cases h
  | counter => cases h

theorem exec_ne_drop {k : Pkt} {rule : List Expr} (h : .verdict .drop ∉ rule) (reg : List UInt8) :
    exec k rule reg ≠ .done .drop := by
  induction rule generalizing reg with
  | nil =>
    intro hd
    cases hd
  | cons e es ih =>
    intro hd
    rw [exec.eq_2] at hd
    cases hs : step k reg e with
    | pass reg' =>
      rw [hs] at hd
      exact ih (fun hes => h (List.mem_cons_of_mem _ hes)) reg' hd
    | skip =>
      rw [hs] at hd
      cases hd
    | done v =>
      rw [hs] at hd
      cases hd
      rcases step_done hs with rfl | ⟨-, hv⟩
      · exact h List.mem_cons_self
      · cases hv

/-- Rules made group by group accept what one of the groups accepts. -/
theorem accepts_flatMap {α : Type} {k : Pkt} {l : List α} {f : α → List (List Expr)} :
    (∃ rule ∈ l.flatMap f, verdictOf k rule = some .accept) ↔ ∃ x ∈ l, ∃ rule ∈ f x, verdictOf k rule = some .accept := by grind

/-- A chain of rules without drop, ended by one, accepts what one of the rules accepts. -/
theorem run_accept {k : Pkt} {c : Chain} {rules : List (List Expr)} (hc : c.rules = rules ++ [[.counter, .verdict .drop]])
    (hrules : ∀ rule ∈ rules, .verdict .drop ∉ rule) :
    c.run k = .accept ↔ ∃ rule ∈ rules, verdictOf k rule = some .accept := by
  have hlast : [[.counter, .verdict .drop]].findSome? (verdictOf k) = some .drop := rfl
  unfold Chain.run
  rw [hc, List.findSome?_append, hlast]
  have hne : ∀ rule ∈ rules, verdictOf k rule ≠ some .drop := by
    intro rule hr hv
    unfold verdictOf at hv
    split at hv
    · rename_i v he
      cases hv
      exact exec_ne_drop (hrules rule hr) [] he
    · cases hv
  cases hf : rules.findSome? (verdictOf k) with
  | none => grind
  | some v =>
    obtain ⟨rule, hr, hv⟩ := List.exists_of_findSome?_eq_some hf
    cases v with
    | accept => exact ⟨fun _ => ⟨rule, hr, hv⟩, fun _ => rfl⟩
    | drop => exact absurd hv (hne rule hr)

end Thawr.Nft
