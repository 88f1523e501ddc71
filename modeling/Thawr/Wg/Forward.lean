/-
  Thawr.Wg.Forward — turning on forwarding (`internal/wg/routes_linux.go`).

  `EnableIPForward` writes the sysctls of IPv4 and IPv6 forwarding and moves the accept_ra of
  every interface from 1 to 2 on the way. Each write that was made leaves an undo, and the first
  error runs them, last one first. Which reads and writes fail is open; one that fails changes
  nothing, and a restoring write is taken to succeed.

  The value of a sysctl is its text without the white space around it: an undo writes the value
  it read and a line feed, which need not be the bytes that were there.

  - `setSysctl_ends`, `keepAds_ends`: what a step leaves behind, with undos that take it back.
  - `forwarding_all_or_nothing`: after an error every value is what it was; after success the
    values that had to change have, nothing else has, and the undo takes it all back.
-/

import Thawr.Go.Lines

namespace Thawr.Wg

open Go

/-! ## The tree under /proc/sys/net -/

abbrev SysPath := List Str

def ipForward : SysPath := [str "ipv4", str "ip_forward"]

def allForwarding : SysPath := [str "ipv6", str "conf", str "all", str "forwarding"]

def acceptRa (name : Str) : SysPath := [str "ipv6", str "conf", name, str "accept_ra"]

inductive SysFile where
  | missing
  /-- There, but it cannot be read. -/
  | unreadable
  | holds (data : Str)
  deriving DecidableEq

def SysFile.value : SysFile → SysFile
  | .holds data => .holds (trimSpace data)
  | f => f

abbrev Sysctls := SysPath → SysFile

def Same (a b : Sysctls) : Prop := ∀ p, (a p).value = (b p).value

def put (files : Sysctls) (path : SysPath) (data : Str) : Sysctls := fun p => if p = path then .holds data else files p

structure DirEnt where
  name : Str
  isDir : Bool

/-- A sysctl tree. `conf` is the listing of ipv6/conf, `none` when it cannot be listed; an
    interface with an accept_ra is a directory in it. -/
structure SysTree where
  files : Sysctls
  conf : Option (List DirEnt)
  listed : ∀ l, conf = some l → ∀ name, files (acceptRa name) ≠ .missing → ∃ e ∈ l, e.name = name ∧ e.isDir = true

structure Sys where
  files : Sysctls
  ops : Nat := 0

inductive ReadRes where
  | notExist
  | failed
  | data (s : Str)

def Sys.read (fails : Nat → Bool) (s : Sys) (path : SysPath) : ReadRes × Sys :=
  (if fails s.ops then .failed
    else match s.files path with
      | .missing => .notExist
      | .unreadable => .failed
      | .holds data => .data data,
    { s with ops := s.ops + 1 })

def Sys.readDir (fails : Nat → Bool) (conf : Option (List DirEnt)) (s : Sys) : Option (List DirEnt) × Sys :=
  (if fails s.ops then none else conf, { s with ops := s.ops + 1 })

def Sys.write (fails : Nat → Bool) (s : Sys) (path : SysPath) (data : Str) : Bool × Sys :=
  if fails s.ops then (false, { s with ops := s.ops + 1 }) else (true, ⟨put s.files path data, s.ops + 1⟩)

inductive SysctlErr where
  /-- "read %s" -/
  | read (path : SysPath)
  /-- "write %s" -/
  | write (path : SysPath)
  deriving DecidableEq

inductive ForwardErr where
  /-- "wg: enable ip_forward" -/
  | enable4 (e : SysctlErr)
  /-- "wg: read %s" -/
  | read (path : SysPath)
  /-- "wg: list %s" -/
  | list
  /-- "wg: keep router advertisements on %s" -/
  | keep (name : Str) (e : SysctlErr)
  /-- "wg: enable IPv6 forwarding" -/
  | enable6 (e : SysctlErr)
  deriving DecidableEq

/-- A function that writes a value back, or does nothing. -/
abbrev Undo := Option (SysPath × Str)

def Undo.run (u : Undo) (files : Sysctls) : Sysctls :=
  match u with
  | none => files
  | some (path, prev) => put files path (prev ++ [10])

def restore (undos : List Undo) (files : Sysctls) : Sysctls := undos.foldr Undo.run files

/-! ## The code -/

def setSysctl (fails : Nat → Bool) (path : SysPath) (value : Str) (s : Sys) : Except SysctlErr Undo × Sys :=
  match s.read fails path with
  | (.data cur, s) =>
    if trimSpace cur = value then (.ok none, s)
    else match s.write fails path (value ++ [10]) with
      | (true, s) => (.ok (some (path, trimSpace cur)), s)
      | (false, s) => (.error (.write path), s)
  | (_, s) => (.error (.read path), s)

def keepAds (fails : Nat → Bool) (undos : List Undo) (s : Sys) : List DirEnt → Except ForwardErr (List Undo) × Sys
  | [] => (.ok undos, s)
  | e :: es =>
    if !e.isDir || e.name == str "all" then keepAds fails undos s es
    else match s.read fails (acceptRa e.name) with
      -- the interface went away
      | (.notExist, s) => keepAds fails undos s es
      | (.failed, s) => (.error (.read (acceptRa e.name)), { s with files := restore undos s.files })
      | (.data ra, s) =>
        if trimSpace ra ≠ str "1" then keepAds fails undos s es
        else match setSysctl fails (acceptRa e.name) (str "2") s with
          | (.error err, s) => (.error (.keep e.name err), { s with files := restore undos s.files })
          | (.ok u, s) => keepAds fails (undos ++ [u]) s es

def enableIPv6Forward (fails : Nat → Bool) (conf : Option (List DirEnt)) (s : Sys) : Except ForwardErr (List Undo) × Sys :=
  match s.read fails allForwarding with
  | (.notExist, s) => (.ok [], s)
  | (.failed, s) => (.error (.read allForwarding), s)
  | (.data cur, s) =>
    if trimSpace cur = str "1" then (.ok [], s)
    else match s.readDir fails conf with
      | (none, s) => (.error .list, s)
      | (some entries, s) =>
        match keepAds fails [] s entries with
        | (.error e, s) => (.error e, s)
        | (.ok undos, s) =>
          match setSysctl fails allForwarding (str "1") s with
          | (.error err, s) => (.error (.enable6 err), { s with files := restore undos s.files })
          | (.ok u, s) => (.ok (undos ++ [u]), s)

/-- `enableIPForward`; its undo runs those of IPv6 and then that of IPv4, which is `restore` of
    all of them. -/
def enableIPForward (fails : Nat → Bool) (conf : Option (List DirEnt)) (s : Sys) : Except ForwardErr (List Undo) × Sys :=
  match setSysctl fails ipForward (str "1") s with
  | (.error err, s) => (.error (.enable4 err), s)
  | (.ok undo4, s) =>
    match enableIPv6Forward fails conf s with
    | (.error e, s) => (.error e, { s with files := Undo.run undo4 s.files })
    | (.ok undos, s) => (.ok (undo4 :: undos), s)

/-! ## Values -/

section

variable {a b c files : Sysctls} {path p : SysPath} {data value : Str} {undos : List Undo} {fails : Nat → Bool} {s t : Sys}
  {es : List DirEnt} {e : DirEnt}

theorem Same.refl (a : Sysctls) : Same a a := fun _ => rfl

theorem Same.trans (hab : Same a b) (hbc : Same b c) : Same a c := fun p => (hab p).trans (hbc p)

theorem put_same : put files path data path = .holds data := if_pos rfl

theorem put_other (h : p ≠ path) : put files path data p = files p := if_neg h

theorem Same.put (h : Same a b) (path : SysPath) (data : Str) : Same (put a path data) (put b path data) := by
  intro p
  by_cases hp : p = path
  · rw [hp, put_same, put_same]
  · rw [put_other hp, put_other hp]
    exact h p

theorem Same.undo (h : Same a b) (u : Undo) : Same (u.run a) (u.run b) := by
  cases u with
  | none => exact h
  | some x => exact h.put x.1 (x.2 ++ [10])

theorem Same.restore (h : Same a b) (undos : List Undo) : Same (restore undos a) (restore undos b) := by
  induction undos with
  | nil => exact h
  | cons u undos ih => exact ih.undo u

theorem restore_append (undos : List Undo) (u : Undo) (files : Sysctls) :
    restore (undos ++ [u]) files = restore undos (u.run files) := by
  rw [restore, List.foldr_append]
  rfl

/-- Writing the value that was read puts it back. -/
theorem same_putBack (h : files path = .holds data) : Same (put (put files path value) path (trimSpace data ++ [10])) files := by
  intro p
  by_cases hp : p = path
  · rw [hp, put_same, h]
    exact congrArg SysFile.holds (trimSpace_newline data)
  · rw [put_other hp, put_other hp]

/-! ## One sysctl -/

theorem read_spec {r : ReadRes} (h : s.read fails path = (r, t)) :
    t.files = s.files ∧ (∀ d, r = .data d → s.files path = .holds d) ∧ (r = .notExist → s.files path = .missing) := by
  cases h
  grind

theorem readDir_spec {conf r : Option (List DirEnt)} (h : s.readDir fails conf = (r, t)) :
    t.files = s.files ∧ ∀ es, r = some es → conf = some es := by
  cases h
  refine ⟨rfl, fun es hes => ?_⟩
  split at hes
  · cases hes
  · exact hes

/-- How a step ends: with an error and files that are `bad`, or with a value and files that are
    `good` with it. -/
def Ends {ε α : Type} (bad : Sysctls → Prop) (good : α → Sysctls → Prop) : Except ε α × Sys → Prop
  | (.error _, s) => bad s.files
  | (.ok v, s) => good v s.files

theorem Ends.mono {ε α : Type} {bad : Sysctls → Prop} {good good' : α → Sysctls → Prop} {x : Except ε α × Sys}
    (h : Ends bad good x) (hgood : ∀ v files, good v files → good' v files) : Ends bad good' x := by
  obtain ⟨e | v, t⟩ := x
  · exact h
  · exact hgood v t.files h

/-- An error leaves everything as it was; otherwise the sysctl holds the value, the others are as
    they were, and the undo takes the change back. -/
theorem setSysctl_ends (fails : Nat → Bool) (path : SysPath) (s : Sys) (hline : trimSpace value = value) :
    Ends (· = s.files) (fun u files => Same (Undo.run u files) s.files ∧ (files path).value = .holds value ∧
      ∀ p, p ≠ path → files p = s.files p) (setSysctl fails path value s) := by
  unfold setSysctl
  split
  · rename_i cur s1 hread
    obtain ⟨hfiles, hdata, -⟩ := read_spec hread
    have hcur := hdata cur rfl
    split
    · rename_i heq
      refine ⟨hfiles ▸ Same.refl _, ?_, fun p _ => congrFun hfiles p⟩
      rw [hfiles, hcur, ← heq]
      rfl
    · unfold Sys.write
      cases fails s1.ops with
      | true => exact hfiles
      | false =>
        have hvalue := trimSpace_newline value
        rw [hline] at hvalue
        show Same (put (put s1.files _ _) _ _) _ ∧ (put s1.files _ _ _).value = _ ∧ ∀ p, _ → put s1.files _ _ p = _
        rw [hfiles, put_same]
        exact ⟨same_putBack hcur, congrArg SysFile.holds hvalue, fun p hp => put_other hp⟩
  · rename_i hread
    exact (read_spec hread).1

/-! ## The interfaces -/

def Kept (es : List DirEnt) (name : Str) : Prop := name ≠ str "all" ∧ ∃ e ∈ es, e.name = name ∧ e.isDir = true

/-- What the loop has done to the files: accept_ra 1 of its interfaces is 2, and that is all. -/
structure AdsKept (es : List DirEnt) (a b : Sysctls) : Prop where
  moved : ∀ name, Kept es name → (a (acceptRa name)).value = .holds (str "1") → (b (acceptRa name)).value = .holds (str "2")
  others : ∀ p, (∀ name, p = acceptRa name → Kept es name → (a p).value ≠ .holds (str "1")) → b p = a p

theorem acceptRa_inj {m n : Str} (h : acceptRa m = acceptRa n) : m = n := by
  simpa [acceptRa] using h

theorem kept_nil (name : Str) : ¬Kept [] name := by
  rintro ⟨-, e, he, -⟩
  cases he

theorem kept_cons {name : Str} :
    Kept (e :: es) name ↔ (name ≠ str "all" ∧ e.name = name ∧ e.isDir = true) ∨ Kept es name := by
  unfold Kept
  grind

/-- An interface that is passed over leaves the rest to do. -/
theorem AdsKept.skip (h : AdsKept es a b)
    (hskip : e.name ≠ str "all" → e.isDir = true → (a (acceptRa e.name)).value ≠ .holds (str "1")) : AdsKept (e :: es) a b := by
  refine ⟨fun name hk hone => ?_, fun p hp => h.others p fun name hname hk => hp name hname (kept_cons.mpr (.inr hk))⟩
  rcases kept_cons.mp hk with ⟨hall, rfl, hdir⟩ | hk
  · exact absurd hone (hskip hall hdir)
  · exact h.moved name hk hone

/-- An interface that was moved is left alone by the rest. -/
theorem AdsKept.move (h : AdsKept es c b) (htwo : (c (acceptRa e.name)).value = .holds (str "2"))
    (hsame : ∀ p, p ≠ acceptRa e.name → c p = a p) (hone : (a (acceptRa e.name)).value = .holds (str "1"))
    (hall : e.name ≠ str "all") (hdir : e.isDir = true) : AdsKept (e :: es) a b := by
  have hne : SysFile.holds (str "2") ≠ .holds (str "1") := by decide
  have hkeep : b (acceptRa e.name) = c (acceptRa e.name) := by
    refine h.others _ fun name hname _ => ?_
    rw [htwo]
    exact hne
  refine ⟨fun name hk h1 => ?_, fun p hp => ?_⟩
  · by_cases hname : name = e.name
    · rw [hname, hkeep, htwo]
    · rcases kept_cons.mp hk with ⟨-, heq, -⟩ | hk
      · exact absurd heq.symm hname
      · refine h.moved name hk ?_
        rwa [hsame _ fun heq => hname (acceptRa_inj heq)]
  · have hpe : p ≠ acceptRa e.name := by
      rintro rfl
      exact hp e.name rfl (kept_cons.mpr (.inl ⟨hall, rfl, hdir⟩)) hone
    rw [h.others p, hsame p hpe]
    intro name hname hk
    rw [hsame p hpe]
    exact hp name hname (kept_cons.mpr (.inr hk))

/-- The loop either takes back what was done since `a`, or goes through and can still take it
    back. -/
theorem keepAds_ends (hback : Same (restore undos s.files) a) :
    Ends (Same · a) (fun undos files => Same (restore undos files) a ∧ AdsKept es s.files files) (keepAds fails undos s es) := by
  induction es generalizing undos s with
  | nil => exact ⟨hback, fun name hk => absurd hk (kept_nil name), fun _ _ => rfl⟩
  | cons e es ih =>
    -- what is left of the list, after an interface that is passed over
    have hpass : ∀ s1 : Sys, s1.files = s.files →
        (e.name ≠ str "all" → e.isDir = true → (s.files (acceptRa e.name)).value ≠ .holds (str "1")) →
        Ends (Same · a) (fun undos files => Same (restore undos files) a ∧ AdsKept (e :: es) s.files files)
          (keepAds fails undos s1 es) := by
      intro s1 hs1 hskip
      rw [← hs1] at hback hskip ⊢
      exact (ih hback).mono fun _ _ h => ⟨h.1, h.2.skip hskip⟩
    rw [keepAds]
    split
    · grind
    · rename_i hskip
      rw [Bool.or_eq_true, Bool.not_eq_true', beq_iff_eq, not_or, Bool.not_eq_false] at hskip
      split
      · rename_i s1 hread
        obtain ⟨hfiles, -, hmissing⟩ := read_spec hread
        refine hpass s1 hfiles fun _ _ => ?_
        rw [hmissing rfl]
        decide
      · rename_i s1 hread
        show Same (restore undos s1.files) a
        rw [(read_spec hread).1]
        exact hback
      · rename_i ra s1 hread
        obtain ⟨hfiles, hdata, -⟩ := read_spec hread
        have hra := hdata ra rfl
        split
        · rename_i hne
          refine hpass s1 hfiles fun _ _ => ?_
          rw [hra]
          exact fun heq => hne (SysFile.holds.inj heq)
        · rename_i hone
          have hone : (s.files (acceptRa e.name)).value = .holds (str "1") := by
            rw [hra]
            exact congrArg SysFile.holds (not_not.mp hone)
          have hset : Ends _ _ (setSysctl fails _ (str "2") s1) := setSysctl_ends fails (acceptRa e.name) s1 (by decide)
          rw [hfiles] at hset
          split
          · rename_i s2 heq
            rw [heq] at hset
            show Same (restore undos s2.files) a
            rw [show s2.files = s.files from hset]
            exact hback
          · rename_i u s2 heq
            rw [heq] at hset
            obtain ⟨hundo, htwo, hsame⟩ := hset
            have hback2 : Same (restore (undos ++ [u]) s2.files) a := by
              rw [restore_append]
              exact (hundo.restore undos).trans hback
            exact (ih hback2).mono fun _ _ h => ⟨h.1, h.2.move htwo hsame hone hskip.2 hskip.1⟩

/-! ## Forwarding -/

structure TurnedOn (es : List DirEnt) (a b : Sysctls) : Prop where
  off : a allForwarding ≠ .missing ∧ (a allForwarding).value ≠ .holds (str "1")
  on : (b allForwarding).value = .holds (str "1")
  moved : ∀ name, Kept es name → (a (acceptRa name)).value = .holds (str "1") → (b (acceptRa name)).value = .holds (str "2")
  others : ∀ p, p ≠ allForwarding → (∀ name, p = acceptRa name → Kept es name → (a p).value ≠ .holds (str "1")) → b p = a p

/-- There is no IPv6, or its forwarding was on. -/
def NothingToDo (a : Sysctls) : Prop := a allForwarding = .missing ∨ (a allForwarding).value = .holds (str "1")

theorem acceptRa_ne_all (name : Str) : acceptRa name ≠ allForwarding := by
  intro h
  have hlast : str "accept_ra" = str "forwarding" := by
    simpa only [Option.some.injEq] using (congrArg (·[3]?) h : some (str "accept_ra") = some (str "forwarding"))
  exact absurd hlast (by decide)

theorem acceptRa_ne_ipForward (name : Str) : acceptRa name ≠ ipForward := by
  intro h
  have hlen : 4 = 2 := congrArg List.length h
  cases hlen

/-- What success means for IPv6: there was nothing to do, or it was turned on. -/
def Forwards6 (conf : Option (List DirEnt)) (a b : Sysctls) : Prop :=
  NothingToDo a ∧ b = a ∨ ∃ es, conf = some es ∧ TurnedOn es a b

theorem enableIPv6Forward_ends (fails : Nat → Bool) (conf : Option (List DirEnt)) (s : Sys) :
    Ends (Same · s.files) (fun undos files => Same (restore undos files) s.files ∧ Forwards6 conf s.files files)
      (enableIPv6Forward fails conf s) := by
  unfold enableIPv6Forward
  split
  · rename_i s1 hread
    obtain ⟨hfiles, -, hmissing⟩ := read_spec hread
    exact ⟨hfiles ▸ Same.refl _, .inl ⟨.inl (hmissing rfl), hfiles⟩⟩
  · rename_i s1 hread
    exact (read_spec hread).1 ▸ Same.refl _
  · rename_i cur s1 hread
    obtain ⟨hfiles, hdata, -⟩ := read_spec hread
    have hcur := hdata cur rfl
    split
    · rename_i hone
      refine ⟨hfiles ▸ Same.refl _, .inl ⟨.inr ?_, hfiles⟩⟩
      rw [hcur]
      exact congrArg SysFile.holds hone
    · rename_i hoff
      split
      · rename_i s2 hdir
        exact ((readDir_spec hdir).1.trans hfiles) ▸ Same.refl _
      · rename_i es s2 hdir
        have hs2 : s2.files = s.files := (readDir_spec hdir).1.trans hfiles
        have hkeep : Ends _ _ (keepAds fails [] s2 es) := keepAds_ends (hs2 ▸ Same.refl _ : Same s2.files s.files)
        split
        · rename_i s3 heq
          rwa [heq] at hkeep
        · rename_i undos s3 heq
          rw [heq] at hkeep
          obtain ⟨hback, hads⟩ := hkeep
          rw [hs2] at hads
          have hset : Ends _ _ (setSysctl fails _ (str "1") s3) := setSysctl_ends fails allForwarding s3 (by decide)
          split
          · rename_i s4 heq
            rw [heq] at hset
            show Same (restore undos s4.files) s.files
            rw [show s4.files = s3.files from hset]
            exact hback
          · rename_i u s4 heq
            rw [heq] at hset
            obtain ⟨hundo, hone, hsame⟩ := hset
            refine ⟨?_, .inr ⟨es, (readDir_spec hdir).2 es rfl, ⟨?_, ?_⟩, hone, fun name hk h1 => ?_, fun p hp hother => ?_⟩⟩
            · rw [restore_append]
              exact (hundo.restore undos).trans hback
            · rw [hcur]
              exact SysFile.noConfusion
            · rw [hcur]
              exact fun heq => hoff (SysFile.holds.inj heq)
            · rw [hsame _ (acceptRa_ne_all name)]
              exact hads.moved name hk h1
            · rw [hsame p hp]
              exact hads.others p hother

/-- What `enableIPForward` leaves of the files `a` when it succeeds. -/
def Forwards (conf : Option (List DirEnt)) (a : Sysctls) (undos : List Undo) (b : Sysctls) : Prop :=
  Same (restore undos b) a ∧ ∃ c, (c ipForward).value = .holds (str "1") ∧ (∀ p, p ≠ ipForward → c p = a p) ∧ Forwards6 conf c b

theorem enableIPForward_ends (fails : Nat → Bool) (conf : Option (List DirEnt)) (s : Sys) :
    Ends (Same · s.files) (Forwards conf s.files) (enableIPForward fails conf s) := by
  have hset : Ends _ _ (setSysctl fails _ (str "1") s) := setSysctl_ends fails ipForward s (by decide)
  unfold enableIPForward
  split
  · rename_i s1 heq
    rw [heq] at hset
    exact (hset : s1.files = s.files) ▸ Same.refl _
  · rename_i undo4 s1 heq
    rw [heq] at hset
    obtain ⟨hundo, hone, hsame⟩ := hset
    have h6 := enableIPv6Forward_ends fails conf s1
    split
    · rename_i s2 heq
      rw [heq] at h6
      exact (Same.undo h6 undo4).trans hundo
    · rename_i undos s2 heq
      rw [heq] at h6
      exact ⟨(h6.1.undo undo4).trans hundo, s1.files, hone, hsame, h6.2⟩

end

/-- Whatever fails, forwarding is turned on altogether or not at all. After an error every value
is what it was. After success IPv4 forwarding is on, and IPv6 forwarding is where there is
IPv6; where it was turned on, every accept_ra of 1 other than that of "all" is 2; nothing else
was changed, and the undo restores every value. -/
theorem forwarding_all_or_nothing (fails : Nat → Bool) (tree : SysTree) :
    (∀ e, (enableIPForward fails tree.conf ⟨tree.files, 0⟩).1 = .error e →
      Same (enableIPForward fails tree.conf ⟨tree.files, 0⟩).2.files tree.files) ∧
    ∀ undos files, (enableIPForward fails tree.conf ⟨tree.files, 0⟩).1 = .ok undos →
      (enableIPForward fails tree.conf ⟨tree.files, 0⟩).2.files = files →
      (files ipForward).value = .holds (str "1") ∧
      (tree.files allForwarding ≠ .missing → (files allForwarding).value = .holds (str "1")) ∧
      ((files allForwarding).value ≠ (tree.files allForwarding).value → ∀ name, name ≠ str "all" →
        (tree.files (acceptRa name)).value = .holds (str "1") → (files (acceptRa name)).value = .holds (str "2")) ∧
      (∀ p, p ≠ ipForward → (p = allForwarding → tree.files p = .missing) →
        (∀ name, p = acceptRa name → name ≠ str "all" → (tree.files p).value = .holds (str "1") →
          (files allForwarding).value = (tree.files allForwarding).value) → files p = tree.files p) ∧
      Same (restore undos files) tree.files := by
  have hends := enableIPForward_ends fails tree.conf ⟨tree.files, 0⟩
  generalize enableIPForward fails tree.conf ⟨tree.files, 0⟩ = x at hends
  obtain ⟨r, t⟩ := x
  constructor
  · rintro e rfl
    exact hends
  · rintro undos files rfl rfl
    obtain ⟨hback, c, hone, hsame, h6⟩ := hends
    have hall : c allForwarding = tree.files allForwarding := hsame _ (by decide)
    have hra : ∀ name, c (acceptRa name) = tree.files (acceptRa name) := fun name => hsame _ (acceptRa_ne_ipForward name)
    rcases h6 with ⟨hnothing, hfiles⟩ | ⟨es, hconf, hon⟩
    · refine ⟨?_, fun hne => ?_, fun hchange => ?_, fun p hp _ _ => ?_, hback⟩
      · rw [hfiles, hone]
      · rw [hfiles]
        exact hnothing.resolve_left (hall ▸ hne)
      · exact absurd (by rw [hfiles, hall]) hchange
      · rw [hfiles, hsame p hp]
    · have hdiffer : (t.files allForwarding).value ≠ (tree.files allForwarding).value := by
        rw [hon.on, ← hall]
        exact hon.off.2.symm
      refine ⟨?_, fun _ => hon.on, fun _ name hname h1 => ?_, fun p hp hm hother => ?_, hback⟩
      · rw [hon.others _ (by decide) fun name hname => absurd hname.symm (acceptRa_ne_ipForward name), hone]
      · refine hon.moved name ⟨hname, tree.listed es hconf name ?_⟩ (by rw [hra, h1])
        intro hmissing
        rw [hmissing] at h1
        cases h1
      · have hpall : p ≠ allForwarding := fun heq => hon.off.1 (hall.trans (heq ▸ hm heq))
        rw [hon.others p hpall, hsame p hp]
        rintro name rfl hk h1
        rw [hra] at h1
        exact hdiffer (hother name rfl hk.1 h1)

def oneInterface : SysTree where
  files p :=
    if p = ipForward ∨ p = allForwarding then .holds (str "0\n")
      else if p = acceptRa (str "eth0") then .holds (str "1\n") else .missing
  conf := some [⟨str "all", true⟩, ⟨str "eth0", true⟩]
  listed := by
    intro l hl name hname
    cases hl
    rw [if_neg (not_or.mpr ⟨acceptRa_ne_ipForward name, acceptRa_ne_all name⟩)] at hname
    split at hname
    · rename_i heq
      exact ⟨_, List.mem_cons_of_mem _ List.mem_cons_self, (acceptRa_inj heq).symm, rfl⟩
    · exact absurd rfl hname

/-- All goes well; and the last write, the one that turns IPv6 forwarding on, fails. -/
theorem forwarding_all_or_nothing_eth0 :
    (∃ undos files, (enableIPForward (fun _ => false) oneInterface.conf ⟨oneInterface.files, 0⟩).1 = .ok undos ∧
      (enableIPForward (fun _ => false) oneInterface.conf ⟨oneInterface.files, 0⟩).2.files = files ∧
      (files (acceptRa (str "eth0"))).value = .holds (str "2") ∧ Same (restore undos files) oneInterface.files) ∧
    ∃ e, (enableIPForward (fun n => n == 8) oneInterface.conf ⟨oneInterface.files, 0⟩).1 = .error e ∧
      Same (enableIPForward (fun n => n == 8) oneInterface.conf ⟨oneInterface.files, 0⟩).2.files oneInterface.files := by
  have hok : (enableIPForward (fun _ => false) oneInterface.conf ⟨oneInterface.files, 0⟩).1 =
      .ok [some (ipForward, str "0"), some (acceptRa (str "eth0"), str "1"), some (allForwarding, str "0")] := by decide +kernel
  have herr : (enableIPForward (fun n => n == 8) oneInterface.conf ⟨oneInterface.files, 0⟩).1 =
      .error (.enable6 (.write allForwarding)) := by decide +kernel
  obtain ⟨-, -, hmoved, -, hback⟩ := (forwarding_all_or_nothing (fun _ => false) oneInterface).2 _ _ hok rfl
  refine ⟨⟨_, _, hok, rfl, hmoved ?_ _ (by decide) (by decide +kernel), hback⟩, _, herr, ?_⟩
  · decide +kernel
  · exact (forwarding_all_or_nothing (fun n => n == 8) oneInterface).1 _ herr

end Thawr.Wg
