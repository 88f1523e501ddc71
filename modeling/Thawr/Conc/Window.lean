/-
  Thawr.Conc.Window — logs of times and the part of them inside a sliding window.

  `recent w t` is what a log has in the last `w` before `t`, the edge included. What was dropped
  for being out of one window is out of every later one (`recent_recent`, `recent_dropWhile`),
  so a log kept short that way agrees with the whole one on every window to come.
-/

import Mathlib.Data.List.Basic

namespace Thawr.Conc

/-- The times from `t - w` on. -/
def recent (w t : Int) (l : List Int) : List Int := l.filter fun x => decide (t - w ≤ x)

/-- The times a log has for one key. -/
def timesOf {κ : Type} [DecidableEq κ] (k : κ) (l : List (κ × Int)) : List Int := (l.filter fun x => decide (x.1 = k)).map (·.2)

section

variable {w t t' c : Int} {l m : List Int}

theorem mem_recent {x : Int} : x ∈ recent w t l ↔ x ∈ l ∧ t - w ≤ x := by
  simp [recent]

@[simp] theorem recent_nil : recent w t [] = [] := rfl

@[simp] theorem recent_append : recent w t (l ++ m) = recent w t l ++ recent w t m := List.filter_append _ _

theorem recent_recent (h : t ≤ t') : recent w t' (recent w t l) = recent w t' l := by
  unfold recent
  rw [List.filter_filter]
  refine List.filter_congr fun x _ => ?_
  rw [← Bool.decide_and, decide_eq_decide]
  omega

/-- Nothing is recent in a log whose times are all out of the window. -/
theorem recent_eq_nil (h : ∀ x ∈ l, x < t - w) : recent w t l = [] := by
  rw [List.eq_nil_iff_forall_not_mem]
  intro x hx
  obtain ⟨hx, hle⟩ := mem_recent.mp hx
  have := h x hx
  omega

/-- Times dropped from the front of a log for being too old are in no later window. -/
theorem recent_dropWhile (h : c ≤ t - w) : recent w t (l.dropWhile fun x => decide (x < c)) = recent w t l := by
  induction l with
  | nil => rfl
  | cons x l ih =>
    rw [List.dropWhile_cons]
    split
    · rename_i hx
      have hout : ¬t - w ≤ x := by
        have := of_decide_eq_true hx
        omega
      rw [ih]
      unfold recent
      rw [List.filter_cons_of_neg (by simpa only [decide_eq_true_eq] using hout)]
    · rfl

theorem recent_cons_of_le {x : Int} (h : t - w ≤ x) : recent w t (x :: l) = x :: recent w t l :=
  List.filter_cons_of_pos (decide_eq_true h)

theorem recent_cons_length_le {x : Int} : (recent w t (x :: l)).length ≤ (recent w t l).length + 1 := by
  unfold recent
  rw [List.filter_cons]
  split
  · exact Nat.le_refl _
  · exact Nat.le_succ _

/-- What is recent later is recent now. -/
theorem recent_length_anti (h : t ≤ t') : (recent w t' l).length ≤ (recent w t l).length := by
  rw [← recent_recent (l := l) h]
  exact List.length_filter_le _ _

end

section

variable {κ : Type} [DecidableEq κ] {k k' : κ} {t : Int} {l m : List (κ × Int)}

theorem mem_timesOf : t ∈ timesOf k l ↔ (k, t) ∈ l := by
  simp [timesOf]

@[simp] theorem timesOf_nil : timesOf k [] = [] := rfl

@[simp] theorem timesOf_append : timesOf k (l ++ m) = timesOf k l ++ timesOf k m := by
  simp [timesOf]

@[simp] theorem timesOf_cons_self : timesOf k ((k, t) :: l) = t :: timesOf k l := by
  simp [timesOf]

theorem timesOf_cons_ne (h : k' ≠ k) : timesOf k ((k', t) :: l) = timesOf k l := by
  simp [timesOf, h]

end

end Thawr.Conc
