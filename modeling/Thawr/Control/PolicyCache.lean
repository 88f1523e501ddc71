/-
  Thawr.Control.PolicyCache — the running policy and its compiled form
  (`internal/control/policysvc.go`).

  `Compiled` reads the persisted generation, compares it with the cache under `mu`, and on a miss
  reads users, peers and routes one after the other, compiles them with the policy it found
  under `mu`, and stores the result under the generation it read, unless the policy is another
  one by then. `Reload` bumps the generation in a transaction and then publishes the policy
  under `mu`. Registry commits bump the generation in their transaction; `tables g` is the
  registry of the generation `g`. Any number of calls interleave. A policy is named by its
  address; `doc` says what is there.

  Proved: while no registry commit falls between the generation read of a call and its last
  registry read, whatever is answered from the cache is the running policy compiled with the
  registry of the generation the call read, be there newer ones by then; and a reload that
  fails might as well not have run (`cache_hit_current`). The first needs its condition: a call
  that reads the registry after a commit stores it under the generation before, for another
  call to answer with (`hit_of_later_registry`).
-/

import Thawr.Conc.Runs
import Thawr.Control.Build

namespace Thawr.Control.PolicyCache

open Go Netip

structure Loaded where
  policy : Policy.Policy
  hash : Str := []

inductive Call where
  | none
  /-- It has the generation; -1 when it could not be read. -/
  | read (gen : Int)
  | missed (gen : Int) (cur : Nat) (cached : Option Policy.Compiled)
  | users (gen : Int) (cur : Nat) (cached : Option Policy.Compiled) (users : List Store.User)
  | peers (gen : Int) (cur : Nat) (cached : Option Policy.Compiled) (users : List Store.User) (peers : List Store.Peer)
  | built (gen : Int) (cur : Nat) (c : Policy.Compiled)
  /-- It has answered from the cache. -/
  | hit (gen : Int) (c : Policy.Compiled)
  | answered (c : Policy.Compiled)

/-- Where `Reload` is; `reloadMu` lets one run at a time. -/
inductive Reload where
  | idle
  | started
  | loaded (p : Nat)
  | valid (p : Nat)
  | bumped (p : Nat)

structure St where
  generation : Int := 0
  tables : Int → Store.Tables := fun _ => {}
  current : Nat := 0
  compiled : Option Policy.Compiled := none
  cacheGen : Int := -1
  cacheKey : Str := []
  reload : Reload := .idle
  calls : Nat → Call := fun _ => .none

/-- What a call does next, up to its store. -/
inductive CallEv where
  | generation
  | generationFails
  | check
  | users
  | peers
  | routes
  | registryFails
  deriving DecidableEq

/-- `Reload` up to its transaction. -/
inductive ReloadEv where
  | start
  /-- The file is there and parses to the policy at an address, or not. -/
  | load (p : Option Nat)
  | validate (ok : Bool)

inductive Ev where
  /-- A registry commit. -/
  | commit (t : Store.Tables)
  | call (k : Nat) (e : CallEv)
  | store (k : Nat)
  | reload (e : ReloadEv)
  /-- The transaction of `Reload`. -/
  | bump (ok : Bool)
  | publish

def St.setCall (s : St) (k : Nat) (c : Call) : St := { s with calls := Function.update s.calls k c }

def St.bumped (s : St) (t : Store.Tables) : St :=
  { s with generation := s.generation + 1, tables := Function.update s.tables (s.generation + 1) t }

/-- The answer without a cache and without a registry: `Compile(Empty(), nil)`. -/
def emptyCompiled : Policy.Compiled := Policy.compileWith ⟨{ version := 1 }, []⟩ [] Prefix.none

section

variable (doc : Nat → Loaded) (overlay : Prefix)

def Call.step (s : St) : Call → CallEv → Option Call
  | .none, .generation => some (.read s.generation)
  | .none, .generationFails => some (.read (-1))
  | .read gen, .check =>
    match s.compiled with
    | some c =>
      if s.cacheGen = gen ∧ s.cacheKey = (doc s.current).hash ∧ 0 ≤ gen then some (.hit gen c)
      else some (.missed gen s.current (some c))
    | .none => some (.missed gen s.current .none)
  | .missed gen cur cached, .users => some (.users gen cur cached (s.tables s.generation).users)
  | .users gen cur cached us, .peers => some (.peers gen cur cached us (s.tables s.generation).peers)
  | .peers gen cur _ us ps, .routes =>
    let read : Store.Tables := { users := us, peers := ps, routes := (s.tables s.generation).routes }
    some (.built gen cur (Control.compiled (doc cur).policy read overlay))
  | .missed _ _ cached, .registryFails => some (.answered (cached.getD emptyCompiled))
  | .users _ _ cached _, .registryFails => some (.answered (cached.getD emptyCompiled))
  | .peers _ _ cached _ _, .registryFails => some (.answered (cached.getD emptyCompiled))
  | _, _ => .none

def Reload.step : Reload → ReloadEv → Option Reload
  | .idle, .start => some .started
  | .started, .load p => some (p.elim .idle .loaded)
  | .loaded p, .validate ok => some (if ok then .valid p else .idle)
  | _, _ => none

def step (s : St) : Ev → Option St
  | .commit t => some (s.bumped t)
  | .call k e => ((s.calls k).step doc overlay s e).map (s.setCall k)
  | .store k =>
    match s.calls k with
    | .built gen cur c =>
      if s.current = cur then
        some ({ s with compiled := some c, cacheGen := gen, cacheKey := (doc cur).hash }.setCall k (.answered c))
      else some (s.setCall k (.answered c))
    | _ => none
  | .reload e => (s.reload.step e).map fun r => { s with reload := r }
  | .bump ok =>
    match s.reload with
    | .valid p => if ok then some { s.bumped (s.tables s.generation) with reload := .bumped p }
        else some { s with reload := .idle }
    | _ => none
  | .publish =>
    match s.reload with
    | .bumped p => some { s with reload := .idle, current := p, compiled := none }
    | _ => none

end

def Start (s : St) : Prop := ∃ gen t cur, s = { generation := gen, tables := fun _ => t, current := cur }

/-- No registry commit falls between the generation read of a call and its last registry read. A
    call that answers from the cache reads no registry. -/
def Undisturbed (es : List Ev) : Prop :=
  ∀ k a b c, es = a ++ .call k .generation :: (b ++ .call k .routes :: c) → ∀ t, .commit t ∉ b

def Ev.ofReload : Ev → Bool
  | .reload _ | .bump _ | .publish => true
  | _ => false

/-! ## The invariant -/

variable {doc : Nat → Loaded} {overlay : Prefix} {s s' : St} {k : Nat} {c : Call} {e : Ev} {past : List Ev}

/-- The registry is still that of the generation `gen`. -/
def St.Still (s : St) (gen : Int) : Prop := gen ≤ s.generation ∧ s.tables s.generation = s.tables gen

/-- `c` is the policy at `cur` compiled with the registry of the generation `gen`, if there was
    one to read. -/
def St.Fits (doc : Nat → Loaded) (overlay : Prefix) (s : St) (gen : Int) (cur : Nat) (c : Policy.Compiled) : Prop :=
  0 ≤ gen → gen ≤ s.generation ∧ c = Control.compiled (doc cur).policy (s.tables gen) overlay

/-- The call has read the generation, and `P` holds if no commit came since. -/
def Since (past : List Ev) (k : Nat) (P : Prop) : Prop :=
  ∃ a b, past = a ++ .call k .generation :: b ∧ ((∀ t, .commit t ∉ b) → P)

/-- What the call `k` has read belongs to its generation, unless it was disturbed; what it has
    compiled does. -/
def Call.Ok (doc : Nat → Loaded) (overlay : Prefix) (past : List Ev) (s : St) (k : Nat) : Call → Prop
  | .read gen => 0 ≤ gen → Since past k (s.Still gen)
  | .missed gen _ _ => 0 ≤ gen → Since past k (s.Still gen)
  | .users gen _ _ us => 0 ≤ gen → Since past k (s.Still gen ∧ us = (s.tables gen).users)
  | .peers gen _ _ us ps => 0 ≤ gen → Since past k (s.Still gen ∧ us = (s.tables gen).users ∧ ps = (s.tables gen).peers)
  | .built gen cur c => s.Fits doc overlay gen cur c
  | _ => True

structure St.Inv (doc : Nat → Loaded) (overlay : Prefix) (past : List Ev) (s : St) : Prop where
  cache : ∀ c, s.compiled = some c → s.Fits doc overlay s.cacheGen s.current c
  calls : ∀ k, (s.calls k).Ok doc overlay past s k

theorem Since.snoc {P Q : Prop} (h : Since past k P) (hPQ : (∀ t, e ≠ .commit t) → P → Q) : Since (past ++ [e]) k Q := by
  obtain ⟨a, b, rfl, hP⟩ := h
  refine ⟨a, b ++ [e], by simp, fun hquiet => ?_⟩
  refine hPQ (fun t he => hquiet t ?_) (hP fun t ht => hquiet t (List.mem_append_left _ ht))
  rw [he]
  exact List.mem_append_right _ (List.mem_singleton_self _)

theorem Since.imp {P Q : Prop} (h : Since past k P) (hPQ : P → Q) : Since past k Q := by
  obtain ⟨a, b, rfl, hP⟩ := h
  exact ⟨a, b, rfl, fun hquiet => hPQ (hP hquiet)⟩

theorem calls_setCall : (s.setCall k c).calls k = c := Function.update_self ..

theorem St.Inv.setCall (hi : s.Inv doc overlay past) (hc : c.Ok doc overlay past s k) : (s.setCall k c).Inv doc overlay past :=
  ⟨hi.cache, (Function.forall_update_iff s.calls fun k c => c.Ok doc overlay past s k).mpr ⟨hc, fun j _ => hi.calls j⟩⟩

/-- The compiler reads users, peers and routes. -/
theorem compiled_of_read (p : Policy.Policy) (t : Store.Tables) :
    Control.compiled p { users := t.users, peers := t.peers, routes := t.routes } overlay = Control.compiled p t overlay := by
  have hpeers : policyPeers { users := t.users, peers := t.peers, routes := t.routes } = policyPeers t := rfl
  unfold Control.compiled
  rw [hpeers]

/-- A transaction leaves the registries of the generations before it. -/
theorem tables_bumped (t : Store.Tables) {gen : Int} (h : gen ≤ s.generation) : (s.bumped t).tables gen = s.tables gen :=
  Function.update_of_ne (by omega) _ _

theorem St.Fits.bumped {gen : Int} {cur : Nat} {c : Policy.Compiled} (h : s.Fits doc overlay gen cur c) (t : Store.Tables) :
    (s.bumped t).Fits doc overlay gen cur c := by
  intro hgen
  obtain ⟨hle, hc⟩ := h hgen
  rw [tables_bumped t hle]
  exact ⟨Int.le_trans hle (Int.le_add_one (Int.le_refl _)), hc⟩

/-- A reload's transaction keeps the registry as it is. -/
theorem St.Still.bumped {gen : Int} (h : s.Still gen) :
    (s.bumped (s.tables s.generation)).Still gen ∧ (s.bumped (s.tables s.generation)).tables gen = s.tables gen := by
  obtain ⟨hle, ht⟩ := h
  have hsame := tables_bumped (s := s) (s.tables s.generation) hle
  refine ⟨⟨Int.le_trans hle (Int.le_add_one (Int.le_refl _)), ?_⟩, hsame⟩
  rw [hsame, ← ht]
  exact Function.update_self ..

/-- An event after which the registry of a call is still its own, or a commit. -/
theorem Call.Ok.snoc (h : c.Ok doc overlay past s k)
    (hstill : (∀ t, e ≠ .commit t) → ∀ gen, s.Still gen → s'.Still gen ∧ s'.tables gen = s.tables gen)
    (hfits : ∀ gen cur c, s.Fits doc overlay gen cur c → s'.Fits doc overlay gen cur c) :
      c.Ok doc overlay (past ++ [e]) s' k := by
  cases c with
  | read gen => exact fun hgen => (h hgen).snoc fun he hs => (hstill he gen hs).1
  | missed gen cur cached => exact fun hgen => (h hgen).snoc fun he hs => (hstill he gen hs).1
  | users gen cur cached us =>
    refine fun hgen => (h hgen).snoc fun he hs => ?_
    obtain ⟨hstill', htables⟩ := hstill he gen hs.1
    rw [htables]
    exact ⟨hstill', hs.2⟩
  | peers gen cur cached us ps =>
    refine fun hgen => (h hgen).snoc fun he hs => ?_
    obtain ⟨hstill', htables⟩ := hstill he gen hs.1
    rw [htables]
    exact ⟨hstill', hs.2⟩
  | built gen cur c => exact hfits gen cur c h
  | none => trivial
  | hit gen c => trivial
  | answered c => trivial

/-! ## One step -/

theorem St.Inv.commit (hi : s.Inv doc overlay past) (t : Store.Tables) : (s.bumped t).Inv doc overlay (past ++ [.commit t]) :=
  ⟨fun c hc => (hi.cache c hc).bumped t,
    fun k => (hi.calls k).snoc (fun he => absurd rfl (he t)) fun _ _ _ hfits => hfits.bumped t⟩

/-- An event that leaves the registry alone. -/
theorem St.Inv.frame (hi : s.Inv doc overlay past) : s.Inv doc overlay (past ++ [e]) :=
  ⟨hi.cache, fun k => (hi.calls k).snoc (fun _ _ hs => ⟨hs, rfl⟩) fun _ _ _ hfits => hfits⟩

theorem St.Inv.bump (hi : s.Inv doc overlay past) (e : Ev) : (s.bumped (s.tables s.generation)).Inv doc overlay (past ++ [e]) :=
  ⟨fun c hc => (hi.cache c hc).bumped _,
    fun k => (hi.calls k).snoc (fun _ _ hs => hs.bumped) fun _ _ _ hfits => hfits.bumped _⟩

/-- A step of a call. At the last read of the registry all three tables are those of the
    generation, where no commit came since that was read. -/
theorem Call.Ok.step {c' : Call} {e : CallEv} (hc : c.Ok doc overlay past s k)
    (hquiet : e = .routes → ∀ P, Since past k P → P) (hs : c.step doc overlay s e = some c') :
    c'.Ok doc overlay (past ++ [.call k e]) s k := by
  have hlater : c.Ok doc overlay (past ++ [.call k e]) s k := hc.snoc (fun _ _ hs => ⟨hs, rfl⟩) fun _ _ _ hfits => hfits
  unfold Call.step at hs
  split at hs
  · cases hs
    exact fun _ => ⟨past, [], rfl, fun _ => ⟨Int.le_refl _, rfl⟩⟩
  · cases hs
    exact fun hgen => absurd hgen (by decide)
  · split at hs
    · split_ifs at hs
      · cases hs
        trivial
      · cases hs
        exact hlater
    · cases hs
      exact hlater
  · cases hs
    exact fun hgen => (hlater hgen).imp fun h => ⟨h, by rw [h.2]⟩
  · cases hs
    exact fun hgen => (hlater hgen).imp fun h => ⟨h.1, h.2, by rw [h.1.2]⟩
  · cases hs
    intro hgen
    obtain ⟨⟨hle, hsame⟩, hus, hps⟩ := hquiet rfl _ (hc hgen)
    refine ⟨hle, ?_⟩
    rw [hus, hps, hsame, compiled_of_read]
  all_goals cases hs
  all_goals trivial

theorem St.Inv.store (hi : s.Inv doc overlay past) (hs : step doc overlay s (.store k) = some s') :
    s'.Inv doc overlay (past ++ [.store k]) := by
  have hi' : s.Inv doc overlay (past ++ [.store k]) := hi.frame
  simp only [step] at hs
  split at hs
  · rename_i gen cur c hk
    have hfits := hi'.calls k
    rw [hk] at hfits
    split at hs
    · rename_i hcur
      cases hs
      have hstored : St.Inv doc overlay (past ++ [.store k])
          { s with compiled := some c, cacheGen := gen, cacheKey := (doc cur).hash } := by
        refine ⟨fun d hd => ?_, hi'.calls⟩
        cases hd
        rw [hcur]
        exact hfits
      exact hstored.setCall trivial
    · cases hs
      exact hi'.setCall trivial
  · cases hs

theorem step_inv (hi : s.Inv doc overlay past) (hquiet : ∀ k, e = .call k .routes → ∀ P, Since past k P → P)
    (hs : step doc overlay s e = some s') : s'.Inv doc overlay (past ++ [e]) := by
  have hi' : s.Inv doc overlay (past ++ [e]) := hi.frame
  cases e with
  | commit t =>
    cases hs
    exact hi.commit t
  | call k e =>
    obtain ⟨c, hc, rfl⟩ := Option.map_eq_some_iff.mp hs
    exact hi'.setCall ((hi.calls k).step (fun he => hquiet k (he ▸ rfl)) hc)
  | store k => exact hi.store hs
  | reload e =>
    obtain ⟨r, -, rfl⟩ := Option.map_eq_some_iff.mp hs
    exact ⟨hi'.cache, hi'.calls⟩
  | bump ok =>
    simp only [step] at hs
    split at hs
    · split_ifs at hs
      · cases hs
        have hbumped := hi.bump (.bump ok)
        exact ⟨hbumped.cache, hbumped.calls⟩
      · cases hs
        exact ⟨hi'.cache, hi'.calls⟩
    · cases hs
  | publish =>
    simp only [step] at hs
    split at hs
    · cases hs
      exact ⟨by simp, hi'.calls⟩
    · cases hs

theorem Start.inv (h : Start s) : s.Inv doc overlay [] := by
  obtain ⟨gen, t, cur, rfl⟩ := h
  exact ⟨by simp, fun _ => trivial⟩

theorem run_inv {es : List Ev} (h : Start s) (hr : Conc.run (step doc overlay) s es = some s') (hu : Undisturbed es) :
    s'.Inv doc overlay es := by
  refine Conc.run_history hr h.inv fun past e rest s s' hes hi hs => step_inv hi ?_ hs
  rintro k rfl P ⟨a, b, rfl, hP⟩
  refine hP (hu k a b rest ?_)
  rw [hes, List.append_assoc, List.cons_append]

/-- A call that answers from the cache finds what it asked for. -/
theorem St.Inv.hit (hi : s.Inv doc overlay past) {gen : Int} {c : Policy.Compiled}
    (hs : step doc overlay s (.call k .check) = some s') (hk : s'.calls k = .hit gen c) :
    c = Control.compiled (doc s.current).policy (s.tables gen) overlay := by
  obtain ⟨c', hc', rfl⟩ := Option.map_eq_some_iff.mp hs
  rw [calls_setCall] at hk
  subst hk
  cases hcall : s.calls k with
  | read g =>
    rw [hcall] at hc'
    simp only [Call.step] at hc'
    split at hc'
    · rename_i d hd
      split_ifs at hc' with hhit
      · cases hc'
        have hfits := hi.cache c hd
        rw [hhit.1] at hfits
        exact (hfits hhit.2.2).2
      · cases hc'
    · cases hc'
  | _ =>
    rw [hcall] at hc'
    cases hc'

/-! ## Reloads that fail -/

def St.erase (s : St) : St := { s with reload := .idle }

def Ev.succeeds : Ev → Bool
  | .bump ok => ok
  | .publish => true
  | _ => false

/-- No other step looks at the reload. -/
theorem step_erase (he : e.ofReload = false) : step doc overlay s.erase e = (step doc overlay s e).map St.erase := by
  cases e with
  | commit t => rfl
  | call k e =>
    simp only [step, Option.map_map]
    rfl
  | store k =>
    have hcalls : s.erase.calls = s.calls := rfl
    simp only [step, hcalls]
    cases s.calls k with
    | built gen cur c =>
      show ite (s.current = cur) _ _ = Option.map _ (ite _ _ _)
      rw [apply_ite (Option.map St.erase)]
      rfl
    | _ => rfl
  | _ => cases he

/-- A step of a reload that fails moves nothing else. -/
theorem step_failing (he : e.ofReload = true) (hf : e.succeeds = false) (hs : step doc overlay s e = some s') :
    s'.erase = s.erase := by
  cases e with
  | reload e =>
    obtain ⟨r, -, rfl⟩ := Option.map_eq_some_iff.mp hs
    rfl
  | bump ok =>
    cases hf
    simp only [step] at hs
    split at hs
    · cases hs
      rfl
    · cases hs
  | publish => cases hf
  | _ => cases he

/-- A stretch of a run with a reload that fails goes the same way without it. -/
theorem run_without_failing {es : List Ev} (hidle : s.reload = .idle) (hr : Conc.run (step doc overlay) s es = some s')
    (hidle' : s'.reload = .idle) (hfail : ∀ e ∈ es, e.succeeds = false) :
    Conc.run (step doc overlay) s (es.filter fun e => !e.ofReload) = some s' := by
  have herase : ∀ t : St, t.reload = .idle → t.erase = t := by
    intro t ht
    unfold St.erase
    rw [← ht]
  have hrun : Conc.run (step doc overlay) s.erase (es.filter fun e => !e.ofReload) = some s'.erase := by
    apply Conc.run_erase hr
    · intro e _ hk t t' hs
      rw [step_erase (by simpa using hk), hs]
      rfl
    · intro e he hk t t' hs
      exact step_failing (by simpa using hk) (hfail e he) hs
  rw [herase s hidle, herase s' hidle'] at hrun
  exact hrun

/-- In every run in which no registry commit falls between the generation read of a call and its
    last registry read, a call that answers from the cache answers with the policy that is
    current, compiled with the registry of the generation it read. A reload that fails leaves
    the policy and every later answer as they would have been without it. -/
theorem cache_hit_current (doc : Nat → Loaded) (overlay : Prefix) :
    (∀ s₀ es s, Start s₀ → Conc.run (step doc overlay) s₀ es = some s → Undisturbed es → ∀ k gen c s',
      step doc overlay s (.call k .check) = some s' → s'.calls k = .hit gen c →
        c = Control.compiled (doc s.current).policy (s.tables gen) overlay) ∧
    ∀ s es s', s.reload = .idle → Conc.run (step doc overlay) s es = some s' → s'.reload = .idle →
      (∀ e ∈ es, e.succeeds = false) → Conc.run (step doc overlay) s (es.filter fun e => !e.ofReload) = some s' := by
  constructor
  · intro s₀ es s hstart hr hu k gen c s' hs hk
    exact (run_inv hstart hr hu).hit hs hk
  · intro s es s' hidle hr hidle' hfail
    exact run_without_failing hidle hr hidle' hfail

/-! ## A cache in use -/

def homeDocs : Nat → Loaded := fun _ => { policy := homePolicy }

def nasDeleted : Store.Tables := { bobHome with peers := bobHome.peers.filter fun p => p.id != str "a2" }

/-- A call fills the cache while a reload fails; another reads the generation then. -/
def filling : List Ev :=
  [.call 0 .generation, .reload .start, .call 0 .check, .call 0 .users, .reload (.load (some 1)), .call 0 .peers,
    .call 0 .routes, .reload (.validate false), .store 0, .call 1 .generation]

def homeStart : St := { tables := fun _ => bobHome }

theorem homeStart_start : Start homeStart := ⟨0, bobHome, 0, rfl⟩

/-- A commit at the very end disturbs no call. -/
theorem undisturbed_concat {es : List Ev} (h : ∀ t, .commit t ∉ es) (e : Ev) : Undisturbed (es ++ [e]) := by
  intro k a b c hes t ht
  have hsub : a ++ .call k .generation :: b <+: es ++ [e] := ⟨.call k .routes :: c, by rw [hes]; simp⟩
  rcases List.prefix_concat_iff.mp hsub with heq | hsub
  · have hlen := congrArg List.length (heq.trans hes)
    simp at hlen
  · exact h t (hsub.subset (List.mem_append_right _ (List.mem_cons_of_mem _ ht)))

/-- The nas is deleted after the second call read the generation 0: the cache still answers with
    the registry of the generation 0. -/
theorem filling_hit : ∃ s s' c, Conc.run (step homeDocs Prefix.none) homeStart (filling ++ [.commit nasDeleted]) = some s ∧
    s.generation = 1 ∧ step homeDocs Prefix.none s (.call 1 .check) = some s' ∧ s'.calls 1 = .hit 0 c ∧
    c = Control.compiled homePolicy bobHome Prefix.none ∧
    ∃ r, Conc.run (step homeDocs Prefix.none) homeStart filling = some r ∧
      Conc.run (step homeDocs Prefix.none) homeStart (filling.filter fun e => !e.ofReload) = some r := by
  obtain ⟨hhit, hfail⟩ := cache_hit_current homeDocs Prefix.none
  have hquiet : Undisturbed (filling ++ [.commit nasDeleted]) := undisturbed_concat (by simp [filling]) _
  exact ⟨_, _, _, rfl, rfl, rfl, rfl, hhit _ _ _ homeStart_start rfl hquiet 1 0 _ _ rfl rfl,
    _, rfl, hfail _ filling _ rfl rfl rfl (by decide)⟩

/-- Both calls read the generation 0; the nas is deleted before the call 0 reads the registry. -/
def disturbed : List Ev :=
  [.call 0 .generation, .call 1 .generation, .call 0 .check, .commit nasDeleted, .call 0 .users, .call 0 .peers,
    .call 0 .routes, .store 0]

/-- The call 1 read the generation 0 and is answered from the cache with the registry of the
    generation 1: the laptop does not see the nas, which it does in the registry of the
    generation 0. -/
theorem hit_of_later_registry : ∃ s s' c, Conc.Reach Start (step homeDocs Prefix.none) Conc.Always s ∧
    step homeDocs Prefix.none s (.call 1 .check) = some s' ∧ s'.calls 1 = .hit 0 c ∧
    c ≠ Control.compiled (homeDocs s.current).policy (s.tables 0) Prefix.none := by
  refine ⟨_, _, _, (Conc.Reach.start homeStart_start).run disturbed rfl, rfl, rfl, fun he => ?_⟩
  have hvis := congrArg (fun c : Policy.Compiled => c.visible (str "a1") (str "a2")) he
  have hlater : (Control.compiled homePolicy nasDeleted Prefix.none).visible (str "a1") (str "a2") = false := by decide +kernel
  have hthen : (Control.compiled homePolicy bobHome Prefix.none).visible (str "a1") (str "a2") = true := by decide +kernel
  exact Bool.false_ne_true (hlater.symm.trans (hvis.trans hthen))

end Thawr.Control.PolicyCache
