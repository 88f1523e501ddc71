/-
  Thawr.Go.Paths — slash-separated paths (`path`, and `path/filepath` on Unix).

  `Clean` goes through the elements of a path from left to right. What it has kept so far is a
  stack, last element first: an empty element and "." are skipped, ".." takes the element
  before it away unless that is a ".." as well, and at the root it is skipped. A `Path` is such
  a stack, with whether the path starts at the root.

  (1) a path that is its own `Clean`, is not absolute, is not "." and has no ".." in it is a
      sequence of plain names (`plain_of_clean`), and every such sequence is its own `Clean`
      (`clean_plain`);
  (2) joined to a directory, plain names are put on top of the directory's (`join_plain`).
-/

import Thawr.Go.Bytes

namespace Thawr.Go

abbrev elements (p : Str) : List Str := split p 47

/-- A cleaned path: its names stand last one first, so that the tail is the directory. -/
structure Path where
  rooted : Bool
  names : List Str
  deriving DecidableEq

namespace Paths

def dot : Str := [46]
def dotdot : Str := [46, 46]

def step (rooted : Bool) (stack : List Str) (name : Str) : List Str :=
  if name = [] ∨ name = dot then stack
  else if name = dotdot then
    match stack with
    | [] => if rooted then [] else [dotdot]
    | top :: rest => if top = dotdot then dotdot :: top :: rest else rest
  else name :: stack

def isAbs (p : Str) : Bool := p.head? == some 47

/-- `Clean`, before it is written out. -/
def resolve (p : Str) : Path := ⟨isAbs p, (elements p).foldl (step (isAbs p)) []⟩

def text (p : Path) : Str :=
  let body := List.intercalate [47] p.names.reverse
  if p.rooted then 47 :: body else if p.names = [] then dot else body

def clean (p : Str) : Str := text (resolve p)

def join (dir p : Str) : Path := if dir = [] then resolve p else resolve (dir ++ 47 :: p)

/-! ## Elements -/

theorem split_inj {s t : Str} (sep : UInt8) (h : split s sep = split t sep) : s = t := by
  rw [split_eq, split_eq] at h
  have hs : [sep].intercalate (s.splitOn sep) = s := List.intercalate_splitOn sep
  rw [← hs, h, List.intercalate_splitOn]

/-- An element is a part of the path, without the separator. -/
theorem mem_of_split {s p : Str} {sep : UInt8} (hp : p ∈ split s sep) : sep ∉ p ∧ ∀ c ∈ p, c ∈ s := by
  induction s generalizing p with
  | nil =>
    cases List.mem_singleton.mp hp
    exact ⟨List.not_mem_nil, fun c hc => hc⟩
  | cons d s ih =>
    obtain ⟨q, qs, hq⟩ := List.exists_cons_of_ne_nil (split_ne_nil s sep)
    have hrest : ∀ r ∈ q :: qs, sep ∉ r ∧ ∀ c ∈ r, c ∈ d :: s := by grind
    rw [split, hq] at hp
    split at hp
    · rcases List.mem_cons.mp hp with rfl | hp
      · exact ⟨List.not_mem_nil, fun c hc => absurd hc List.not_mem_nil⟩
      · exact hrest p hp
    · rename_i hd
      rcases List.mem_cons.mp hp with rfl | hp
      · obtain ⟨hsep, hsub⟩ := hrest q List.mem_cons_self
        exact ⟨List.not_mem_cons_of_ne_of_not_mem (Ne.symm hd) hsep, List.forall_mem_cons.mpr ⟨List.mem_cons_self, hsub⟩⟩
      · exact hrest p (List.mem_cons_of_mem _ hp)

/-- The elements of a path are the first ones of another's: what follows comes after a slash. -/
theorem split_prefix {s t : Str} {sep : UInt8} {rest : List Str} (hrest : rest ≠ []) (h : split t sep = split s sep ++ rest) :
    s ++ [sep] <+: t := by
  have hsep : ∀ p ∈ rest, sep ∉ p := fun p hp => (mem_of_split (by rw [h]; exact List.mem_append_right _ hp)).1
  refine ⟨List.intercalate [sep] rest, ?_⟩
  rw [List.append_assoc]
  refine split_inj sep ?_
  rw [h, split_eq, split_eq, List.singleton_append, List.splitOn_append_cons_self, List.splitOn_intercalate sep hsep hrest]

/-! ## Plain names -/

structure Plain (name : Str) : Prop where
  ne_nil : name ≠ []
  ne_dot : name ≠ dot
  ne_dotdot : name ≠ dotdot

theorem step_skip {rooted : Bool} {name : Str} (h : name = [] ∨ name = dot) (stack : List Str) :
    step rooted stack name = stack := if_pos h

theorem step_plain {rooted : Bool} {name : Str} (h : Plain name) (stack : List Str) : step rooted stack name = name :: stack := by
  unfold step
  rw [if_neg (not_or.mpr ⟨h.ne_nil, h.ne_dot⟩), if_neg h.ne_dotdot]

theorem foldl_plain (rooted : Bool) {names : List Str} (h : ∀ n ∈ names, Plain n) (stack : List Str) :
    names.foldl (step rooted) stack = names.reverse ++ stack := by
  induction names generalizing stack with
  | nil => rfl
  | cons n names ih =>
    rw [List.foldl_cons, step_plain (h n List.mem_cons_self), ih fun m hm => h m (List.mem_cons_of_mem _ hm), List.reverse_cons,
      List.append_assoc]
    rfl

/-- Without "..", what `Clean` keeps is what is neither empty nor ".". -/
theorem foldl_filter (rooted : Bool) {names : List Str} (h : ∀ n ∈ names, n ≠ dotdot) (stack : List Str) :
    names.foldl (step rooted) stack = (names.filter fun n => n != [] && n != dot).reverse ++ stack := by
  induction names generalizing stack with
  | nil => rfl
  | cons n names ih =>
    have ih := ih fun m hm => h m (List.mem_cons_of_mem _ hm)
    rw [List.foldl_cons]
    by_cases hskip : n = [] ∨ n = dot
    · have hp : (n != [] && n != dot) = false := by
        rcases hskip with rfl | rfl
        · rfl
        · rfl
      rw [step_skip hskip, List.filter_cons, hp, if_neg Bool.false_ne_true, ih]
    · obtain ⟨h0, h1⟩ := not_or.mp hskip
      have hp : (n != [] && n != dot) = true := by
        rw [bne_iff_ne.mpr h0, bne_iff_ne.mpr h1]
        rfl
      rw [step_plain ⟨h0, h1, h n List.mem_cons_self⟩, List.filter_cons, if_pos hp, ih, List.reverse_cons, List.append_assoc]
      rfl

theorem isAbs_append {dir : Str} (h : dir ≠ []) (p : Str) : isAbs (dir ++ p) = isAbs dir := by
  cases dir with
  | nil => exact absurd rfl h
  | cons c dir => rfl

theorem join_plain {dir p : Str} (hdir : dir ≠ []) (hp : ∀ n ∈ elements p, Plain n) :
    join dir p = ⟨(resolve dir).rooted, (elements p).reverse ++ (resolve dir).names⟩ := by
  rw [join, if_neg hdir, resolve, resolve, isAbs_append hdir, elements, split_eq, List.splitOn_append_cons_self,
    ← split_eq, ← split_eq,
    List.foldl_append, foldl_plain _ hp]

theorem not_abs_of_plain {p : Str} (hp : ∀ n ∈ elements p, Plain n) : isAbs p = false := by
  cases p with
  | nil => rfl
  | cons c p =>
    refine beq_eq_false_iff_ne.mpr fun habs => ?_
    have hc : c = 47 := Option.some.inj habs
    refine (hp [] ?_).ne_nil rfl
    rw [elements, hc, split, if_pos rfl]
    exact List.mem_cons_self

theorem clean_plain {p : Str} (hp : ∀ n ∈ elements p, Plain n) : clean p = p := by
  have hresolve : resolve p = ⟨false, (elements p).reverse⟩ := by
    rw [resolve, foldl_plain _ hp, List.append_nil, not_abs_of_plain hp]
  have hne : (elements p).reverse ≠ [] := List.reverse_ne_nil_iff.mpr (split_ne_nil p 47)
  rw [clean, hresolve, text]
  simp only [Bool.false_eq_true, if_false, if_neg hne, List.reverse_reverse]
  rw [elements, split_eq, List.intercalate_splitOn]

theorem plain_of_clean {p : Str} (hclean : clean p = p) (habs : isAbs p = false) (hdot : p ≠ dot)
    (hup : ∀ n ∈ elements p, n ≠ dotdot) : ∀ n ∈ elements p, Plain n := by
  -- what is kept, written out again, is the path, so nothing was skipped
  have hresolve : resolve p = ⟨false, ((elements p).filter fun n => n != [] && n != dot).reverse⟩ := by
    rw [resolve, foldl_filter _ hup, List.append_nil, habs]
  rw [clean, hresolve, text] at hclean
  simp only [Bool.false_eq_true, if_false, List.reverse_reverse] at hclean
  split at hclean
  · exact absurd hclean.symm hdot
  · rename_i hne
    have hsep : ∀ n ∈ (elements p).filter fun n => n != [] && n != dot, (47 : UInt8) ∉ n :=
      fun n hn => (mem_of_split (List.mem_of_mem_filter hn)).1
    have hall := List.splitOn_intercalate 47 hsep fun h => hne (by rw [h]; rfl)
    rw [hclean, ← split_eq] at hall
    intro n hn
    have hkept := hn
    rw [elements, hall] at hkept
    have hkept := (List.mem_filter.mp hkept).2
    simp only [Bool.and_eq_true, bne_iff_ne] at hkept
    exact ⟨hkept.1, hkept.2, hup n hn⟩

end Paths

end Thawr.Go
