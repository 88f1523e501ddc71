/-
  Thawr.Go.Lines — text as lines.

  `splitAfter` cuts a text behind each separator, as `strings.SplitAfter` does; `lines` are the
  lines a reader of a line-oriented file sees, without their line feeds. A text that ends in a
  line feed, or is empty, contributes its own lines to whatever follows it (`lines_append`).
  Trimming a trimmed text that was written as a line gives it back (`trimSpace_newline`).
-/

import Thawr.Go.Bytes

namespace Thawr.Go

/-- `strings.SplitAfter` at a one-byte separator: never empty, and the last piece has none. -/
def splitAfter (s : Str) (sep : UInt8) : List Str :=
  match s with
  | [] => [[]]
  | c :: t =>
    if c = sep then [c] :: splitAfter t sep
    else match splitAfter t sep with
      | [] => [[c]]
      | p :: ps => (c :: p) :: ps

def trimNewline (s : Str) : Str := (s.reverse.dropWhile fun c => c == 13 || c == 10).reverse

def lines : Str → List Str
  | [] => []
  | c :: t =>
    if c = 10 then [] :: lines t
    else match lines t with
      | [] => [[c]]
      | l :: ls => (c :: l) :: ls

/-- Nothing, or whole lines with their line feeds. -/
def Terminated (s : Str) : Prop := s = [] ∨ ∃ l, s = l ++ [10]

/-! ## Pieces -/

theorem splitAfter_ne_nil (s : Str) (sep : UInt8) : splitAfter s sep ≠ [] := by
  cases s with
  | nil => simp [splitAfter]
  | cons c t =>
    unfold splitAfter
    split
    · simp
    · split
      · simp
      · simp

theorem splitAfter_flatten (s : Str) (sep : UInt8) : (splitAfter s sep).flatten = s := by
  induction s with
  | nil => rfl
  | cons c t ih =>
    unfold splitAfter
    grind

/-- Every piece but the last ends with the separator. -/
theorem splitAfter_dropLast (s : Str) (sep : UInt8) : ∀ p ∈ (splitAfter s sep).dropLast, ∃ l, p = l ++ [sep] := by
  induction s with
  | nil =>
    intro p hp
    cases hp
  | cons c t ih =>
    have hne := splitAfter_ne_nil t sep
    unfold splitAfter
    split
    · rename_i hc
      rw [List.dropLast_cons_of_ne_nil hne]
      intro p hp
      rcases List.mem_cons.mp hp with rfl | hp
      · exact ⟨[], by rw [hc]; rfl⟩
      · exact ih p hp
    · split
      · intro p hp
        cases hp
      · rename_i q ps hq
        rw [hq] at ih
        cases ps with
        | nil =>
          intro p hp
          cases hp
        | cons r ps =>
          rw [List.dropLast_cons_of_ne_nil (by simp)] at ih ⊢
          intro p hp
          rcases List.mem_cons.mp hp with rfl | hp
          · obtain ⟨l, hl⟩ := ih q List.mem_cons_self
            exact ⟨c :: l, by rw [hl]; rfl⟩
          · exact ih p (List.mem_cons_of_mem _ hp)

/-- A separator at the end finishes the last piece. -/
theorem splitAfter_finish (a : Str) (sep : UInt8) :
    ∃ ps p, splitAfter a sep = ps ++ [p] ∧ splitAfter (a ++ [sep]) sep = ps ++ [p ++ [sep], []] := by
  induction a with
  | nil => exact ⟨[], [], rfl, by simp [splitAfter]⟩
  | cons c a ih =>
    obtain ⟨ps, p, ha, hs⟩ := ih
    simp only [List.cons_append, splitAfter, ha, hs]
    split
    · exact ⟨[c] :: ps, p, rfl, rfl⟩
    · cases ps with
      | nil => exact ⟨[], c :: p, rfl, rfl⟩
      | cons q ps => exact ⟨(c :: q) :: ps, p, rfl, rfl⟩

theorem splitAfter_newline (a b : Str) (sep : UInt8) :
    splitAfter (a ++ sep :: b) sep = (splitAfter (a ++ [sep]) sep).dropLast ++ splitAfter b sep := by
  induction a with
  | nil => simp [splitAfter]
  | cons c a ih =>
    obtain ⟨ps, p, -, hs⟩ := splitAfter_finish a sep
    obtain ⟨q, qs, hq⟩ : ∃ q qs, ps ++ [p ++ [sep], []] = q :: (qs ++ [[]]) := by
      cases ps with
      | nil => exact ⟨_, [], rfl⟩
      | cons q ps => exact ⟨q, ps ++ [p ++ [sep]], by simp⟩
    rw [hs, hq, ← List.cons_append, List.dropLast_concat] at ih
    simp only [List.cons_append, splitAfter, ih, hs, hq]
    grind

variable {a s t : Str} {c : UInt8}

/-- A text of whole lines keeps its pieces in front of whatever follows. -/
theorem splitAfter_append (h : Terminated a) (b : Str) :
    splitAfter (a ++ b) 10 = (splitAfter a 10).dropLast ++ splitAfter b 10 := by
  rcases h with rfl | ⟨l, rfl⟩
  · rfl
  · rw [List.append_assoc, List.singleton_append]
    exact splitAfter_newline l b 10

theorem splitAfter_dropLast_flatten (h : Terminated a) : (splitAfter a 10).dropLast.flatten = a := by
  have hflat := splitAfter_flatten (a ++ []) 10
  rw [splitAfter_append h] at hflat
  simpa [splitAfter] using hflat

/-! ## Line ends -/

theorem trimNewline_append (s : Str) : trimNewline (s ++ [10]) = trimNewline s := by
  simp [trimNewline]

/-! ## Lines -/

theorem lines_ne_nil (h : s ≠ []) : lines s ≠ [] := by
  obtain ⟨c, t, rfl⟩ := List.exists_cons_of_ne_nil h
  unfold lines
  split
  · simp
  · split
    · simp
    · simp

theorem lines_append_newline (a b : Str) : lines (a ++ 10 :: b) = lines (a ++ [10]) ++ lines b := by
  induction a with
  | nil => rfl
  | cons c a ih =>
    simp only [List.cons_append, lines]
    split
    · rw [ih]
      rfl
    · rw [ih]
      cases h : lines (a ++ [10]) with
      | nil => exact absurd h (lines_ne_nil (by simp))
      | cons l ls => rfl

/-- A text of whole lines and what follows it have their own lines. -/
theorem lines_append (h : Terminated a) (b : Str) : lines (a ++ b) = lines a ++ lines b := by
  rcases h with rfl | ⟨l, rfl⟩
  · rfl
  · rw [List.append_assoc, List.singleton_append]
    exact lines_append_newline l b

theorem terminated_flatten {ps : List Str} (h : ∀ p ∈ ps, ∃ l, p = l ++ [10]) : Terminated ps.flatten := by
  induction ps using List.reverseRecOn with
  | nil => exact .inl rfl
  | append_singleton ps p _ =>
    obtain ⟨l, hl⟩ := h p (by simp)
    exact .inr ⟨ps.flatten ++ l, by simp [hl]⟩

/-- One line with its line feed. -/
theorem lines_one {l : Str} (h : ∀ c ∈ l, c ≠ 10) : lines (l ++ [10]) = [l] := by
  induction l with
  | nil => rfl
  | cons c l ih =>
    simp only [List.cons_append, lines]
    rw [if_neg (h c List.mem_cons_self), ih fun d hd => h d (List.mem_cons_of_mem _ hd)]

/-- Whole lines are cut behind each of them. -/
theorem splitAfter_lines (s : Str) : splitAfter (s ++ [10]) 10 = (lines (s ++ [10])).map (· ++ [10]) ++ [[]] := by
  induction s with
  | nil => rfl
  | cons c s ih =>
    simp only [List.cons_append, splitAfter, lines]
    split
    · rename_i hc
      rw [ih, hc]
      rfl
    · rw [ih]
      cases h : lines (s ++ [10]) with
      | nil => exact absurd h (lines_ne_nil (by simp))
      | cons l ls => rfl

/-- Texts written one after another have their own lines. -/
theorem lines_flatMap (ls : List Str) : lines (ls.flatMap (· ++ [10])) = ls.flatMap fun l => lines (l ++ [10]) := by
  induction ls with
  | nil => rfl
  | cons l ls ih => rw [List.flatMap_cons, lines_append (.inr ⟨l, rfl⟩), ih, List.flatMap_cons]

/-- A text without line feeds goes in front of the first line. -/
theorem lines_front {x l : Str} {ls : List Str} (hx : 10 ∉ x) (h : lines t = l :: ls) : lines (x ++ t) = (x ++ l) :: ls := by
  induction x with
  | nil => exact h
  | cons c x ih =>
    rw [List.mem_cons, not_or] at hx
    simp only [List.cons_append, lines]
    rw [if_neg (Ne.symm hx.1), ih hx.2]

/-- A line feed at the end of an unfinished line adds no line. -/
theorem lines_finish (hc : c ≠ 10) : lines (a ++ [c] ++ [10]) = lines (a ++ [c]) := by
  induction a with
  | nil => simp [lines, hc]
  | cons d a ih =>
    simp only [List.cons_append, lines]
    rw [ih]

/-- The pieces before the `k`-th are whole lines, unless they are all of them. -/
theorem terminated_take {k : Nat} (h : k < (splitAfter s 10).length) :
    Terminated ((splitAfter s 10).take k).flatten := by
  refine terminated_flatten fun p hp => splitAfter_dropLast s 10 p ?_
  rw [List.dropLast_eq_take]
  exact (List.take_subset_take_left _ (by omega)) hp

/-- The pieces before and from the `k`-th on have the lines of the text. -/
theorem lines_take_drop {k : Nat} (h : k < (splitAfter s 10).length) :
    lines s = lines ((splitAfter s 10).take k).flatten ++ lines ((splitAfter s 10).drop k).flatten := by
  rw [← lines_append (terminated_take h), ← List.flatten_append, List.take_append_drop, splitAfter_flatten]

/-! ## Words -/

/-- White space starts with a byte that is not printable. -/
theorem spaceWidth_printable (h : 32 < c ∧ c < 127) : spaceWidth (c :: t) = 0 := by
  unfold spaceWidth
  split <;> grind

theorem spaceWidthRev_printable (h : 32 < c ∧ c < 127) : spaceWidthRev (c :: t) = 0 := by
  unfold spaceWidthRev
  split <;> grind

theorem spaceWidthRev_newline (t : Str) : spaceWidthRev (10 :: t) = 1 := by
  unfold spaceWidthRev
  split <;> grind

theorem trimBy_done {width : Str → Nat} (n : Nat) (h : width s = 0) : trimBy width n s = s := by
  cases n with
  | zero => rfl
  | succ n => simp [trimBy, h]

theorem spaceWidth_word (h : ∀ c ∈ s, 32 < c ∧ c < 127) : spaceWidth s = 0 := by
  cases s with
  | nil => rfl
  | cons c t => exact spaceWidth_printable (h c List.mem_cons_self)

theorem spaceWidthRev_word (h : ∀ c ∈ s, 32 < c ∧ c < 127) : spaceWidthRev s.reverse = 0 := by
  cases hr : s.reverse with
  | nil => rfl
  | cons d u => exact spaceWidthRev_printable (h d (List.mem_reverse.mp (hr ▸ List.mem_cons_self)))

theorem trimSpace_word (h : ∀ c ∈ s, 32 < c ∧ c < 127) : trimSpace s = s := by
  simp only [trimSpace, trimBy_done _ (spaceWidth_word h), trimBy_done _ (spaceWidthRev_word h), List.reverse_reverse]

/-! ## A trimmed text on a line of its own -/

theorem trimBy_stop {width : Str → Nat} (h0 : width [] = 0) (n : Nat) (s : Str) (hn : s.length ≤ n) :
    width (trimBy width n s) = 0 := by
  induction n generalizing s with
  | zero =>
    rw [List.length_eq_zero_iff.mp (Nat.le_zero.mp hn)]
    exact h0
  | succ n ih =>
    rw [trimBy]
    split
    · assumption
    · apply ih
      rw [List.length_drop]
      omega

theorem trimBy_suffix (width : Str → Nat) (n : Nat) (s : Str) : ∃ u, s = u ++ trimBy width n s := by
  induction n generalizing s with
  | zero => exact ⟨[], rfl⟩
  | succ n ih =>
    rw [trimBy]
    split
    · exact ⟨[], rfl⟩
    · obtain ⟨u, hu⟩ := ih (s.drop (width s))
      refine ⟨s.take (width s) ++ u, ?_⟩
      rw [List.append_assoc, ← hu, List.take_append_drop]

/-- White space is at most three bytes long. -/
theorem spaceWidth_three (c d e : UInt8) (t u : Str) : spaceWidth (c :: d :: e :: t) = spaceWidth (c :: d :: e :: u) := by
  by_cases h1 : c = 0xC2
  · subst h1
    rfl
  · by_cases h2 : c = 0xE1 ∧ d = 0x9A ∧ e = 0x80
    · obtain ⟨rfl, rfl, rfl⟩ := h2
      rfl
    · by_cases h3 : c = 0xE2 ∧ d = 0x80
      · obtain ⟨rfl, rfl⟩ := h3
        rfl
      · by_cases h4 : c = 0xE2 ∧ d = 0x81 ∧ e = 0x9F
        · obtain ⟨rfl, rfl, rfl⟩ := h4
          rfl
        · by_cases h5 : c = 0xE3 ∧ d = 0x80 ∧ e = 0x80
          · obtain ⟨rfl, rfl, rfl⟩ := h5
            rfl
          · have hlast : ∀ t, spaceWidth (c :: d :: e :: t) = if (9 ≤ c ∧ c ≤ 13) ∨ c = 32 then 1 else 0 := by
              intro t
              refine spaceWidth.eq_6 c (d :: e :: t) ?_ ?_ ?_ ?_ ?_
              all_goals grind
            rw [hlast, hlast]

/-- A text that starts with no white space has no front part that does. -/
theorem spaceWidth_left {u : Str} (h : spaceWidth (t ++ u) = 0) : spaceWidth t = 0 := by
  match t with
  | [] => rfl
  | [c] =>
    unfold spaceWidth at h ⊢
    split at h <;> grind
  | [c, d] =>
    unfold spaceWidth at h ⊢
    split at h <;> grind
  | c :: d :: e :: t => exact (spaceWidth_three c d e t (t ++ u)).trans h

theorem spaceWidth_newline (hne : t ≠ []) (h : spaceWidth t = 0) : spaceWidth (t ++ [10]) = 0 := by
  match t with
  | [] => exact absurd rfl hne
  | [c] =>
    unfold spaceWidth at h ⊢
    split at h <;> grind
  | [c, d] =>
    unfold spaceWidth at h ⊢
    split at h <;> grind
  | c :: d :: e :: t => exact (spaceWidth_three c d e (t ++ [10]) t).trans h

/-- Trimming leaves no white space at either end. -/
theorem trimSpace_ends (s : Str) : spaceWidth (trimSpace s) = 0 ∧ spaceWidthRev (trimSpace s).reverse = 0 := by
  unfold trimSpace
  simp only [List.reverse_reverse]
  have hleft : spaceWidth (trimBy spaceWidth s.length s) = 0 := trimBy_stop rfl _ _ (Nat.le_refl _)
  generalize trimBy spaceWidth s.length s = l at hleft ⊢
  have hright : spaceWidthRev (trimBy spaceWidthRev l.length l.reverse) = 0 :=
    trimBy_stop rfl _ _ (Nat.le_of_eq List.length_reverse)
  obtain ⟨u, hu⟩ := trimBy_suffix spaceWidthRev l.length l.reverse
  refine ⟨spaceWidth_left (u := u.reverse) ?_, hright⟩
  rwa [← List.reverse_append, ← hu, List.reverse_reverse]

/-- What was trimmed and written as a line trims to the same text. -/
theorem trimSpace_newline (s : Str) : trimSpace (trimSpace s ++ [10]) = trimSpace s := by
  obtain ⟨hleft, hright⟩ := trimSpace_ends s
  generalize trimSpace s = t at hleft hright ⊢
  by_cases hne : t = []
  · subst hne
    rfl
  · have hfront : trimBy spaceWidth (t ++ [10]).length (t ++ [10]) = t ++ [10] := trimBy_done _ (spaceWidth_newline hne hleft)
    have hback : trimBy spaceWidthRev (t ++ [10]).length (t ++ [10]).reverse = t.reverse := by
      rw [List.length_append, List.reverse_append]
      show trimBy spaceWidthRev (t.length + 1) (10 :: t.reverse) = t.reverse
      rw [trimBy, spaceWidthRev_newline, if_neg (by decide)]
      exact trimBy_done _ hright
    unfold trimSpace
    rw [hfront]
    exact (congrArg List.reverse hback).trans (List.reverse_reverse t)

theorem trimSpace_line (h : ∀ c ∈ s, 32 < c ∧ c < 127) : trimSpace (s ++ [10]) = s := by
  have hline := trimSpace_newline s
  rwa [trimSpace_word h] at hline

end Thawr.Go
