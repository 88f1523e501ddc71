/-
  Thawr.Go.Assoc — maps as lists of entries.

  `Keyed` says that no key has two entries; then dropping entries by their value drops them from
  the map (`lookup_filter`), which the keys alone would allow without it (`lookup_filter_key`).
-/

import Mathlib.Data.List.Nodup

namespace Thawr.Go.Assoc

variable {κ α β : Type} [BEq κ] [LawfulBEq κ] [DecidableEq κ] {m : List (κ × α)} {k k' : κ} {v : α}

def Keyed (m : List (κ × α)) : Prop := (m.map (·.1)).Nodup

theorem lookup_cons_eq : ((k', v) :: m).lookup k = if k = k' then some v else m.lookup k := by
  rw [List.lookup_cons]
  by_cases h : k = k'
  · rw [if_pos h, beq_iff_eq.mpr h]
  · rw [if_neg h, beq_eq_false_iff_ne.mpr h]

omit [DecidableEq κ] in
theorem mem_of_lookup (h : m.lookup k = some v) : (k, v) ∈ m := by
  obtain ⟨front, back, rfl, -⟩ := List.lookup_eq_some_iff.mp h
  exact List.mem_append_right _ List.mem_cons_self

theorem Keyed.lookup (h : Keyed m) (hm : (k, v) ∈ m) : m.lookup k = some v := by
  induction m with
  | nil => cases hm
  | cons x m ih =>
    obtain ⟨a, b⟩ := x
    obtain ⟨hnew, hrest⟩ := List.nodup_cons.mp h
    rw [lookup_cons_eq]
    rcases List.mem_cons.mp hm with heq | hrm
    · cases heq
      rw [if_pos rfl]
    · have hne : k ≠ a := by
        rintro rfl
        exact hnew (List.mem_map.mpr ⟨_, hrm, rfl⟩)
      rw [if_neg hne]
      exact ih hrest hrm

omit [BEq κ] [LawfulBEq κ] [DecidableEq κ] in
theorem Keyed.filter (h : Keyed m) (p : κ × α → Bool) : Keyed (m.filter p) :=
  h.sublist (List.filter_sublist.map _)

omit [BEq κ] [LawfulBEq κ] [DecidableEq κ] in
theorem Keyed.map (h : Keyed m) (f : α → β) : Keyed (m.map fun x => (x.1, f x.2)) := by
  unfold Keyed
  rw [List.map_map]
  exact h

/-- Without a key its entry is gone and the others stay. -/
theorem lookup_filter_key : (m.filter fun x => x.1 != k').lookup k = if k = k' then none else m.lookup k := by
  induction m with
  | nil => simp
  | cons x m ih =>
    obtain ⟨a, b⟩ := x
    rw [List.filter_cons]
    by_cases ha : a = k'
    · subst ha
      simp only [bne_self_eq_false, Bool.false_eq_true, if_false, ih, lookup_cons_eq]
      by_cases hk : k = a
      · simp only [hk, if_true]
      · simp only [hk, if_false]
    · simp only [bne_iff_ne.mpr ha, if_true, lookup_cons_eq, ih]
      by_cases hk : k = a
      · subst hk
        simp only [if_true, ha, if_false]
      · simp only [hk, if_false]

/-- Entries dropped by what they hold, where no key has a second one behind. -/
theorem lookup_filter (h : Keyed m) (p : κ × α → Bool) : (m.filter p).lookup k = (m.lookup k).filter fun v => p (k, v) := by
  induction m with
  | nil => rfl
  | cons x m ih =>
    obtain ⟨a, b⟩ := x
    obtain ⟨hnew, hrest⟩ := List.nodup_cons.mp h
    have ih := ih hrest
    rw [List.filter_cons, lookup_cons_eq]
    by_cases hk : k = a
    · subst hk
      rw [if_pos rfl, Option.filter_some]
      by_cases hp : p (k, b) = true
      · rw [if_pos hp, if_pos hp, lookup_cons_eq, if_pos rfl]
      · rw [if_neg hp, if_neg hp, ih]
        cases hl : m.lookup k with
        | none => rfl
        | some w => exact absurd (List.mem_map_of_mem (mem_of_lookup hl)) hnew
    · rw [if_neg hk]
      by_cases hp : p (a, b) = true
      · rw [if_pos hp, lookup_cons_eq, if_neg hk, ih]
      · rw [if_neg hp, ih]

theorem lookup_map (f : α → β) : (m.map fun x => (x.1, f x.2)).lookup k = (m.lookup k).map f := by
  induction m with
  | nil => rfl
  | cons x m ih => grind

end Thawr.Go.Assoc
