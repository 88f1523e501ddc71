/-
  Thawr.Sql.Table — a table as the list of rows a query returns.

  The query orders its rows; a row that is inserted takes its place in that order. A unique
  column has no value twice, NULL (`none`) apart: `violates` is the check an INSERT or UPDATE
  makes, `Unique` what it keeps.
-/

import Mathlib.Data.List.Basic

namespace Thawr.Sql

variable {α β : Type}

/-- INSERT of a row into rows a query lists in the order `before`. -/
def insert (before : α → α → Bool) (r : α) (rows : List α) : List α :=
  rows.filter (fun q => !before r q) ++ r :: rows.filter (before r)

/-- Whether a row shares a value with one of the rows in a unique column. -/
def violates [DecidableEq β] (cols : List (α → Option β)) (r : α) (rows : List α) : Bool :=
  cols.any fun col => rows.any fun q => (col q).isSome && col q == col r

def Unique (col : α → Option β) (rows : List α) : Prop :=
  ∀ a ∈ rows, ∀ b ∈ rows, (col a).isSome = true → col a = col b → a = b

variable {before : α → α → Bool} {r q : α} {rows more : List α} {cols : List (α → Option β)} {col : α → Option β}

@[simp] theorem mem_insert : q ∈ insert before r rows ↔ q = r ∨ q ∈ rows := by
  unfold insert
  grind

/-- A row inserted at its place keeps the order of the rows. -/
theorem pairwise_insert {R : α → α → Prop} (htrans : ∀ a c, R a r → R r c → R a c) (h : rows.Pairwise R)
    (hfirst : ∀ q ∈ rows, before r q = false → R q r) (hlast : ∀ q ∈ rows, before r q = true → R r q) :
    (insert before r rows).Pairwise R := by
  have hfront : ∀ a ∈ rows.filter (fun q => !before r q), R a r := by grind
  have hback : ∀ c ∈ rows.filter (before r), R r c := by
    intro c hc
    obtain ⟨hc, hb⟩ := List.mem_filter.mp hc
    exact hlast c hc hb
  unfold insert
  rw [List.pairwise_append, List.pairwise_cons]
  grind

theorem Unique.subset (h : Unique col rows) (hsub : more ⊆ rows) : Unique col more :=
  fun a ha b hb => h a (hsub ha) b (hsub hb)

section

variable [DecidableEq β]

theorem violates_false (h : violates cols r rows = false) (col : α → Option β) (hcol : col ∈ cols) (hq : q ∈ rows)
    (hs : (col q).isSome = true) :
    col q ≠ col r := by
  intro he
  have := List.any_eq_false.mp h col hcol
  refine this (List.any_eq_true.mpr ⟨q, hq, ?_⟩)
  rw [hs, he, beq_self_eq_true]
  rfl

theorem violates_true (h : violates cols r rows = true) : ∃ col ∈ cols, ∃ q ∈ rows, (col q).isSome = true ∧ col q = col r := by
  obtain ⟨col, hcol, hrow⟩ := List.any_eq_true.mp h
  grind

/-- A row that shares no value may join. -/
theorem Unique.add (h : Unique col rows) (hv : violates cols r rows = false) (hcol : col ∈ cols)
    (hmore : ∀ a ∈ more, a = r ∨ a ∈ rows) : Unique col more := by
  intro a ha b hb hs he
  rcases hmore a ha with ha | ha
  · rcases hmore b hb with hb | hb
    · rw [ha, hb]
    · exact absurd (ha ▸ he.symm) (violates_false hv col hcol hb (he ▸ hs))
  · rcases hmore b hb with hb | hb
    · exact absurd (hb ▸ he) (violates_false hv col hcol ha hs)
    · exact h a ha b hb hs he

end

end Thawr.Sql
