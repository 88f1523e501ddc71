/-
  Thawr.Conc.Clock — a change counter beside a table.

  A table has versions 0, 1, 2, ...; every commit makes the next one. A commit is announced
  later, and an announcement moves the sequence on. A reader reads the sequence first and the
  table after it, and keeps what it read under the number it read (`Labelled`). A call that
  started after some announcements and read the sequence after that (`Since`) finds nothing
  older than what had been announced under its number or a later one (`Labelled.fresh`),
  however the sequence jumps and whoever put it there.
-/

import Mathlib.Algebra.Order.Ring.Int

namespace Thawr.Conc

structure Clock where
  seq : Int
  version : Nat
  /-- The newest version announced by the time the sequence left a number, or so far. -/
  told : Int → Nat

namespace Clock

structure Valid (c : Clock) : Prop where
  /-- Only versions there are have been announced. -/
  le : ∀ g, c.told g ≤ c.version
  mono : ∀ ⦃g g' : Int⦄, g ≤ g' → c.told g ≤ c.told g'
  flat : ∀ g, c.seq ≤ g → c.told g = c.told c.seq

/-- The newest version announced. -/
def news (c : Clock) : Nat := c.told c.seq

def commit (c : Clock) : Clock := { c with version := c.version + 1 }

/-- The announcement of the version `v`, with the next number of the sequence. -/
def announce (c : Clock) (v : Nat) (seq : Int) : Clock := ⟨seq, c.version, fun g => if seq ≤ g then max c.news v else c.told g⟩

/-- A call that started when `since` was the news, and has read the number `g`. -/
structure Since (c : Clock) (since : Nat) (g : Int) : Prop where
  le : g ≤ c.seq
  told : since ≤ c.told g

/-- Contents of the version `v`, kept under the number `g`. -/
structure Labelled (c : Clock) (g : Int) (v : Nat) : Prop where
  le : g ≤ c.seq
  told : c.told g ≤ v
  version : v ≤ c.version

variable {c : Clock} {g g' seq : Int} {since v w : Nat}

theorem Labelled.fresh (h : c.Labelled g' v) (hv : c.Valid) (hs : c.Since since g) (hg : g ≤ g') : since ≤ v :=
  Nat.le_trans hs.told (Nat.le_trans (hv.mono hg) h.told)

theorem since_read (h : since ≤ c.news) : c.Since since c.seq := ⟨Int.le_refl _, h⟩

/-- The table read now is at least as new as any number read before says. -/
theorem labelled_read (hv : c.Valid) (h : g ≤ c.seq) : c.Labelled g c.version := ⟨h, hv.le g, Nat.le_refl _⟩

/-- A clock nothing has been announced on. -/
theorem valid_start (seq : Int) (version : Nat) : Valid ⟨seq, version, fun _ => 0⟩ :=
  ⟨fun _ => Nat.zero_le _, fun _ _ _ => Nat.le_refl _, fun _ _ => rfl⟩

/-! ## Commits -/

theorem Valid.commit (h : c.Valid) : c.commit.Valid := ⟨fun g => Nat.le_succ_of_le (h.le g), h.mono, h.flat⟩

theorem Since.commit (h : c.Since since g) : c.commit.Since since g := ⟨h.le, h.told⟩

theorem Labelled.commit (h : c.Labelled g v) : c.commit.Labelled g v := ⟨h.le, h.told, Nat.le_succ_of_le h.version⟩

/-! ## Announcements -/

theorem Valid.told_le_news (h : c.Valid) (g : Int) : c.told g ≤ c.news := by
  rcases Int.le_total g c.seq with hg | hg
  · exact h.mono hg
  · exact Nat.le_of_eq (h.flat g hg)

theorem told_announce (hg : g < seq) : (c.announce w seq).told g = c.told g := if_neg (Int.not_le.mpr hg)

theorem told_announce_of_le (hg : seq ≤ g) : (c.announce w seq).told g = max c.news w := if_pos hg

theorem news_announce : (c.announce w seq).news = max c.news w := told_announce_of_le (Int.le_refl _)

theorem Valid.announce (h : c.Valid) (hw : w ≤ c.version) : (c.announce w seq).Valid := by
  refine ⟨fun g => ?_, fun g g' hg => ?_, fun g hg => ?_⟩
  · rcases lt_or_ge g seq with hlt | hge
    · rw [told_announce hlt]
      exact h.le g
    · rw [told_announce_of_le hge]
      exact Nat.max_le.mpr ⟨h.le _, hw⟩
  · rcases lt_or_ge g' seq with hlt' | hge'
    · rw [told_announce hlt', told_announce (Int.lt_of_le_of_lt hg hlt')]
      exact h.mono hg
    · rw [told_announce_of_le hge']
      rcases lt_or_ge g seq with hlt | hge
      · rw [told_announce hlt]
        exact Nat.le_trans (h.told_le_news g) (Nat.le_max_left _ _)
      · rw [told_announce_of_le hge]
  · exact (told_announce_of_le hg).trans news_announce.symm

theorem Since.announce (h : c.Since since g) (hseq : c.seq < seq) : (c.announce w seq).Since since g := by
  refine ⟨Int.le_trans h.le (Int.le_of_lt hseq), ?_⟩
  rw [told_announce (Int.lt_of_le_of_lt h.le hseq)]
  exact h.told

theorem Labelled.announce (h : c.Labelled g v) (hseq : c.seq < seq) : (c.announce w seq).Labelled g v := by
  refine ⟨Int.le_trans h.le (Int.le_of_lt hseq), ?_, h.version⟩
  rw [told_announce (Int.lt_of_le_of_lt h.le hseq)]
  exact h.told

end Clock

end Thawr.Conc
