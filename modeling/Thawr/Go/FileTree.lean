/-
  Thawr.Go.FileTree — directories and files by their cleaned paths (`os` on Unix).

  There are no links, so a path is where a file is. The root, the working directory and the
  directories above that one are always there; what else there is stands in the tree.

  `MkdirAll` keeps what is there and makes directories on the way to its argument, and nothing
  else (`mkdirAll_keeps`, `mkdirAll_new`). It fails only when a file is in the way
  (`mkdirAll_below`). A file is created with its content where nothing was (`createExcl_ok`).
-/

import Thawr.Go.Paths

namespace Thawr.Go

inductive Node where
  | dir
  | file (data : Str)
  deriving DecidableEq

abbrev FileTree := GoMap Path Node

inductive FileErr where
  /-- ENOTDIR -/
  | notDir
  /-- EEXIST -/
  | exist
  /-- ENOENT -/
  | noEnt
  /-- EINVAL: a NUL byte in a name. -/
  | inval
  deriving DecidableEq

namespace FileTree

open Paths

/-- The root, the working directory or one above it. -/
def top (p : Path) : Bool := p.names.head?.all (· == dotdot)

def stat (t : FileTree) (p : Path) : Option Node := if top p then some .dir else t.lookup p

def mkdirAll (t : FileTree) (rooted : Bool) : List Str → Except FileErr FileTree
  | [] => .ok t
  | name :: up =>
    match stat t ⟨rooted, name :: up⟩ with
    | some .dir => .ok t
    | some (.file _) => .error .notDir
    | none =>
      if name.contains 0 then .error .inval
      else (mkdirAll t rooted up).map fun t => t.insert ⟨rooted, name :: up⟩ .dir

/-- `OpenFile` with `O_CREATE|O_EXCL`, and what is written to the file then. -/
def createExcl (t : FileTree) (p : Path) (data : Str) : Except FileErr FileTree :=
  if (p.names.headD []).contains 0 then .error .inval
  else
    match stat t p, stat t ⟨p.rooted, p.names.tail⟩ with
    | some _, _ => .error .exist
    | none, none => .error .noEnt
    | none, some (.file _) => .error .notDir
    | none, some .dir => .ok (t.insert p (.file data))

section

variable {t t' : FileTree} {rooted : Bool} {names : List Str} {p q : Path} {n : Node} {data : Str}

theorem stat_of_plain {name : Str} {up : List Str} (h : Plain name) :
    stat t ⟨rooted, name :: up⟩ = t.lookup ⟨rooted, name :: up⟩ := by
  have htop : top ⟨rooted, name :: up⟩ = false := beq_eq_false_iff_ne.mpr h.ne_dotdot
  rw [stat, htop, if_neg Bool.false_ne_true]

/-- What a tree has at a place stands there, or is one of the directories that always are. -/
theorem lookup_of_stat_none (h : stat t p = none) : t.lookup p = none := by
  unfold stat at h
  split at h
  · cases h
  · exact h

theorem stat_mono (hkeeps : t.lookup p = some n → t'.lookup p = some n) (h : stat t p = some n) : stat t' p = some n := by
  unfold stat at h ⊢
  grind

/-- It was there, or it was made after what is above it. -/
theorem mkdirAll_cons {name : Str} {up : List Str} (h : mkdirAll t rooted (name :: up) = .ok t') :
    stat t ⟨rooted, name :: up⟩ = some .dir ∧ t' = t ∨
      stat t ⟨rooted, name :: up⟩ = none ∧ ∃ u, mkdirAll t rooted up = .ok u ∧ t' = u.insert ⟨rooted, name :: up⟩ .dir := by
  rw [mkdirAll] at h
  split at h
  · rename_i hdir
    cases h
    exact .inl ⟨hdir, rfl⟩
  · cases h
  · rename_i hnone
    split at h
    · cases h
    · obtain ⟨u, hu, rfl⟩ := map_ok.mp h
      exact .inr ⟨hnone, u, hu, rfl⟩

theorem mkdirAll_keeps (h : mkdirAll t rooted names = .ok t') (hq : t.lookup q = some n) : t'.lookup q = some n := by
  induction names generalizing t' with
  | nil =>
    cases h
    exact hq
  | cons name up ih =>
    rcases mkdirAll_cons h with ⟨-, rfl⟩ | ⟨hnone, u, hu, rfl⟩
    · exact hq
    · have hne : q ≠ ⟨rooted, name :: up⟩ := by
        rintro rfl
        rw [lookup_of_stat_none hnone] at hq
        cases hq
      rw [Finmap.lookup_insert_of_ne _ hne]
      exact ih hu

/-- A node that was not there is a directory on the way. -/
theorem mkdirAll_new (h : mkdirAll t rooted names = .ok t') (hq : t'.lookup q = some n) :
    t.lookup q = some n ∨ n = .dir ∧ q.rooted = rooted ∧ q.names <:+ names := by
  induction names generalizing t' with
  | nil =>
    cases h
    exact .inl hq
  | cons name up ih =>
    rcases mkdirAll_cons h with ⟨-, rfl⟩ | ⟨-, u, hu, rfl⟩
    · exact .inl hq
    · rcases of_lookup_insert hq with ⟨rfl, rfl⟩ | ⟨-, hq⟩
      · exact .inr ⟨rfl, rfl, List.suffix_rfl⟩
      · rcases ih hu hq with hq | ⟨hn, hr, hsuf⟩
        · exact .inl hq
        · exact .inr ⟨hn, hr, hsuf.trans (List.suffix_cons name up)⟩

/-- No file comes or goes. -/
theorem mkdirAll_file (h : mkdirAll t rooted names = .ok t') :
    t'.lookup q = some (.file data) ↔ t.lookup q = some (.file data) := by
  constructor
  · intro hq
    rcases mkdirAll_new h hq with hq | ⟨hn, -⟩
    · exact hq
    · cases hn
  · exact mkdirAll_keeps h

theorem mkdirAll_dir (h : mkdirAll t rooted names = .ok t') : stat t' ⟨rooted, names⟩ = some .dir := by
  cases names with
  | nil => rfl
  | cons name up =>
    rcases mkdirAll_cons h with ⟨hdir, rfl⟩ | ⟨hnone, u, -, rfl⟩
    · exact hdir
    · unfold stat at hnone ⊢
      split at hnone
      · cases hnone
      · rename_i htop
        rw [if_neg htop, Finmap.lookup_insert]

theorem mkdirAll_there (h : stat t ⟨rooted, names⟩ = some .dir) : mkdirAll t rooted names = .ok t := by
  cases names with
  | nil => rfl
  | cons name up => rw [mkdirAll, h]

/-- Below a directory, where no file is in the way and no name has a NUL byte. -/
theorem mkdirAll_below {base : List Str} (hbase : stat t ⟨rooted, base⟩ = some .dir)
    (hfile : ∀ ns, ns <:+ names → ns ≠ [] → ∀ b, t.lookup ⟨rooted, ns ++ base⟩ ≠ some (.file b))
    (hnul : ∀ name ∈ names, name.contains 0 = false) : ∃ t', mkdirAll t rooted (names ++ base) = .ok t' := by
  induction names with
  | nil => exact ⟨t, mkdirAll_there hbase⟩
  | cons name up ih =>
    rw [List.cons_append, mkdirAll]
    split
    · exact ⟨t, rfl⟩
    · rename_i b hb
      unfold stat at hb
      grind
    · obtain ⟨u, hu⟩ := ih (fun ns hns => hfile ns (hns.trans (List.suffix_cons name up))) fun n hn =>
        hnul n (List.mem_cons_of_mem _ hn)
      rw [hnul name List.mem_cons_self, if_neg Bool.false_ne_true, hu]
      exact ⟨_, rfl⟩

theorem createExcl_ok (h : createExcl t p data = .ok t') : t.lookup p = none ∧ t' = t.insert p (.file data) := by
  unfold createExcl at h
  split at h
  · cases h
  · split at h
    · cases h
    · cases h
    · cases h
    · rename_i hnone _
      cases h
      exact ⟨lookup_of_stat_none hnone, rfl⟩

theorem createExcl_new (hnul : (p.names.headD []).contains 0 = false) (hnone : stat t p = none)
    (hdir : stat t ⟨p.rooted, p.names.tail⟩ = some .dir) : createExcl t p data = .ok (t.insert p (.file data)) := by
  unfold createExcl
  rw [hnul, if_neg Bool.false_ne_true, hnone, hdir]

theorem createExcl_file (h : createExcl t p data = .ok t') (b : Str) :
    t'.lookup q = some (.file b) ↔ t.lookup q = some (.file b) ∨ q = p ∧ b = data := by
  obtain ⟨hnone, rfl⟩ := createExcl_ok h
  by_cases heq : q = p
  · subst heq
    rw [Finmap.lookup_insert, hnone]
    grind
  · rw [Finmap.lookup_insert_of_ne _ heq]
    grind

end

end FileTree

end Thawr.Go
