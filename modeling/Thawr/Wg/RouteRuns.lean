/-
  Thawr.Wg.RouteRuns — a route table over many calls of `set` and `clear`
  (`internal/wg/routes.go`), beside what the operating system holds because of them.

  A call to the operating system does what it says or fails and does nothing. Which calls fail
  is open, and so are the prefixes wanted and the orders the maps are visited in.

  (1) `tracks_set`: the table and the operating system agree after every call, whatever failed.

  (2) `due_iff`: `set` calls for exactly the difference between what is wanted and what is
  installed (`Due`). When none of these calls fails nothing is left of the difference
  (`set_exact`); what fails is due again in the next call with the same list (`due_again`).

  (3) A list with a prefix that is no route changes nothing (`set_invalid`).
-/

import Thawr.Conc.Runs
import Thawr.Wg.Routes

namespace Thawr.Wg

open Go Netip

def RouteTable.clear (ok : RouteCall → Bool) (dropped added : List Prefix) (r : RouteTable) : Installing × List RouteErr :=
  r.set ok dropped added []

/-- The routes the operating system holds because of a table. -/
structure Held where
  plain : Prefix → Bool := fun _ => false
  exit : Prefix → Bool := fun _ => false

def Held.take (h : Held) : RouteCall → Held
  | .add p => { h with plain := fun q => if q = p then true else h.plain q }
  | .del p => { h with plain := fun q => if q = p then false else h.plain q }
  | .exit p on => { h with exit := fun q => if q = p then on else h.exit q }

def Held.run (ok : RouteCall → Bool) (h : Held) (calls : List RouteCall) : Held :=
  calls.foldl (fun h c => if ok c then h.take c else h) h

structure Tracks (r : RouteTable) (h : Held) : Prop where
  plain : ∀ p, has r.installed p = h.plain p
  exit : ∀ p, has r.exit p = h.exit p

def Routable (want : List Prefix) : Prop := ∀ p ∈ want, p.isValid = true ∧ p.ip.is4In6 = false

/-- The calls between the table and what is wanted. -/
def Due (r : RouteTable) (want : List Prefix) : RouteCall → Prop
  | .add p => has (wanted want) p = true ∧ has r.installed p = false
  | .del p => has (wanted want) p = false ∧ has r.installed p = true
  | .exit p on => isExitRoute p = true ∧ on = want.contains p ∧ on ≠ has r.exit p

section

variable {ok : RouteCall → Bool} {w m : GoMap Prefix Bool} {want l dropped added : List Prefix} {s : Installing} {r : RouteTable}
  {h : Held} {p q : Prefix} {b : Bool}

/-! ## Maps -/

theorem has_insert : has (m.insert q b) p = if p = q then b else has m p := by
  unfold has
  split
  · rename_i hpq
    rw [hpq, Finmap.lookup_insert, Option.getD_some]
  · rename_i hpq
    rw [Finmap.lookup_insert_of_ne _ hpq]

theorem has_erase : has (m.erase q) p = if p = q then false else has m p := by
  unfold has
  split
  · rename_i hpq
    rw [hpq, Finmap.lookup_erase, Option.getD_none]
  · rename_i hpq
    rw [Finmap.lookup_erase_ne hpq]

theorem mem_of_has (h : has m p = true) : p ∈ m := by
  unfold has at h
  cases hl : m.lookup p with
  | none =>
    rw [hl] at h
    cases h
  | some b => exact Finmap.mem_of_lookup_eq_some hl

theorem has_wanted : has (wanted want) p = true ↔ ∃ a ∈ want, isExitRoute a = false ∧ a.masked = p := by
  constructor
  · intro h
    exact mem_wanted.mp (mem_of_has h)
  · unfold wanted
    refine loop_inv (I := fun l (m : GoMap Prefix Bool) => (∃ a ∈ l, isExitRoute a = false ∧ a.masked = p) → has m p = true) ?_ ?_
    · rintro ⟨a, ha, -⟩
      cases ha
    · rintro l x m - hm ⟨a, ha, hexit, hp⟩
      rcases List.mem_append.mp ha with ha | ha
      · have hold := hm ⟨a, ha, hexit, hp⟩
        split
        · exact hold
        · rw [has_insert]
          split
          · rfl
          · exact hold
      · rw [List.mem_singleton.mp ha] at hexit hp
        rw [if_neg (by rw [hexit]; decide), has_insert, if_pos hp.symm]

/-! ## The table and the operating system -/

theorem held_append (calls : List RouteCall) (c : RouteCall) :
    h.run ok (calls ++ [c]) = if ok c then (h.run ok calls).take c else h.run ok calls := by
  rw [Held.run, List.foldl_append]
  rfl

theorem tracks_dropRoute (ht : Tracks s.1 (h.run ok s.2)) (p : Prefix) :
    Tracks (dropRoute ok w s p).1 (h.run ok (dropRoute ok w s p).2) := by
  unfold dropRoute
  split
  · exact ht
  · simp only [held_append]
    split
    · exact ⟨fun q => by rw [has_erase, ht.plain]; rfl, ht.exit⟩
    · exact ht

theorem tracks_addRoute (ht : Tracks s.1 (h.run ok s.2)) (p : Prefix) :
    Tracks (addRoute ok s p).1 (h.run ok (addRoute ok s p).2) := by
  unfold addRoute
  split
  · exact ht
  · simp only [held_append]
    split
    · exact ⟨fun q => by rw [has_insert, ht.plain]; rfl, ht.exit⟩
    · exact ht

theorem tracks_switchExit (ht : Tracks s.1 (h.run ok s.2)) (p : Prefix) :
    Tracks (switchExit ok want s p).1 (h.run ok (switchExit ok want s p).2) := by
  unfold switchExit
  split
  · exact ht
  · simp only [held_append]
    split
    · exact ⟨ht.plain, fun q => by rw [has_insert, ht.exit]; rfl⟩
    · exact ht

theorem tracks_loop {f : Installing → Prefix → Installing}
    (hf : ∀ s p, Tracks s.1 (h.run ok s.2) → Tracks (f s p).1 (h.run ok (f s p).2)) (ht : Tracks s.1 (h.run ok s.2)) :
    Tracks (l.foldl f s).1 (h.run ok (l.foldl f s).2) :=
  loop_inv (I := fun _ (s : Installing) => Tracks s.1 (h.run ok s.2)) ht fun _ p s _ hs => hf s p hs

theorem tracks_set (ht : Tracks r h) (dropped added want : List Prefix) :
    Tracks (r.set ok dropped added want).1.1 (h.run ok (r.set ok dropped added want).1.2) := by
  unfold RouteTable.set
  split
  · exact ht
  · refine tracks_loop (fun _ p hs => tracks_switchExit hs p) (tracks_loop (fun _ p hs => tracks_addRoute hs p) ?_)
    exact tracks_loop (s := (r, [])) (fun _ p hs => tracks_dropRoute hs p) ht

/-! ## What the loops do -/

def AllTrue (r : RouteTable) : Prop := ∀ p ∈ r.installed, has r.installed p = true

structure Dropped (ok : RouteCall → Bool) (w : GoMap Prefix Bool) (s : Installing) (l : List Prefix) (t : Installing) : Prop where
  installed : ∀ p, has t.1.installed p = true ↔
    has s.1.installed p = true ∧ ¬(p ∈ l ∧ has w p = false ∧ ok (.del p) = true)
  exit : t.1.exit = s.1.exit
  calls : ∀ c, c ∈ t.2 ↔ c ∈ s.2 ∨ ∃ p ∈ l, has w p = false ∧ c = .del p
  allTrue : AllTrue s.1 → AllTrue t.1

theorem dropRoute_loop (ok : RouteCall → Bool) (w : GoMap Prefix Bool) (s : Installing) (l : List Prefix) :
    Dropped ok w s l (l.foldl (dropRoute ok w) s) := by
  refine loop_inv (I := Dropped ok w s) ⟨by simp, rfl, by simp, id⟩ fun done a t _ ht => ?_
  unfold dropRoute
  cases hw : has w a with
  | true =>
    -- a wanted route is passed over
    rw [if_pos rfl]
    refine ⟨fun p => ?_, ht.exit, fun c => ?_, ht.allTrue⟩
    · rw [ht.installed]
      grind
    · rw [ht.calls]
      grind
  | false =>
    rw [if_neg (by decide)]
    refine ⟨fun p => ?_, ?_, fun c => ?_, fun hall => ?_⟩
    · by_cases hpa : p = a
      · subst hpa
        cases hok : ok (.del p) with
        | true => simp [has_erase, hw]
        | false => simp [ht.installed, hok]
      · have hrest : has (if ok (.del a) then ({ t.1 with installed := t.1.installed.erase a } : RouteTable)
          else t.1).installed p =
            has t.1.installed p := by
          split
          · exact has_erase.trans (if_neg hpa)
          · rfl
        rw [hrest, ht.installed]
        simp [hpa]
    · split
      · exact ht.exit
      · exact ht.exit
    · simp only [List.mem_append, List.mem_singleton, ht.calls, or_and_right, exists_or, exists_eq_left, hw, true_and, or_assoc]
    · intro p hp
      split at hp
      · rename_i hok
        rw [if_pos hok] at *
        have hne := (Finmap.mem_erase.mp hp)
        rw [has_erase, if_neg hne.1]
        exact ht.allTrue hall p hne.2
      · rename_i hok
        rw [if_neg hok]
        exact ht.allTrue hall p hp

structure Added (ok : RouteCall → Bool) (s : Installing) (l : List Prefix) (t : Installing) : Prop where
  installed : ∀ p, has t.1.installed p = true ↔ has s.1.installed p = true ∨ p ∈ l ∧ ok (.add p) = true
  exit : t.1.exit = s.1.exit
  calls : ∀ c, c ∈ t.2 ↔ c ∈ s.2 ∨ ∃ p ∈ l, has s.1.installed p = false ∧ c = .add p
  allTrue : AllTrue s.1 → AllTrue t.1

theorem addRoute_loop (ok : RouteCall → Bool) (s : Installing) (l : List Prefix) : Added ok s l (l.foldl (addRoute ok) s) := by
  refine loop_inv (I := Added ok s) ⟨by simp, rfl, by simp, id⟩ fun done a t _ ht => ?_
  unfold addRoute
  cases ha : has t.1.installed a with
  | true =>
    -- installed before, or in this loop
    rw [if_pos rfl]
    have hwas := (ht.installed a).mp ha
    refine ⟨fun p => ?_, ht.exit, fun c => ?_, ht.allTrue⟩
    · rw [ht.installed]
      grind
    · rw [ht.calls]
      grind
  | false =>
    rw [if_neg (by decide)]
    have hnot : ¬(has s.1.installed a = true ∨ a ∈ done ∧ ok (.add a) = true) := by
      rw [← ht.installed, ha]
      decide
    have hs : has s.1.installed a = false := Bool.eq_false_iff.mpr fun h => hnot (.inl h)
    refine ⟨fun p => ?_, ?_, fun c => ?_, fun hall => ?_⟩
    · by_cases hpa : p = a
      · subst hpa
        cases hok : ok (.add p) with
        | true => simp [has_insert]
        | false => simp [ha, hs]
      · have hrest : has (if ok (.add a) then ({ t.1 with installed := t.1.installed.insert a true } : RouteTable)
          else t.1).installed p =
            has t.1.installed p := by
          split
          · exact has_insert.trans (if_neg hpa)
          · rfl
        rw [hrest, ht.installed]
        simp [hpa]
    · split
      · exact ht.exit
      · exact ht.exit
    · simp only [List.mem_append, List.mem_singleton, ht.calls, or_and_right, exists_or, exists_eq_left, hs, true_and, or_assoc]
    · intro p hp
      split at hp
      · rename_i hok
        rw [if_pos hok] at *
        rw [has_insert]
        split
        · rfl
        · rename_i hpa
          exact ht.allTrue hall p ((Finmap.mem_insert.mp hp).resolve_left hpa)
      · rename_i hok
        rw [if_neg hok]
        exact ht.allTrue hall p hp

structure Switched (ok : RouteCall → Bool) (want : List Prefix) (s : Installing) (l : List Prefix) (t : Installing) : Prop where
  installed : t.1.installed = s.1.installed
  kept : ∀ p ∉ l, has t.1.exit p = has s.1.exit p
  exit : ∀ p ∈ l, has t.1.exit p = if ok (.exit p (want.contains p)) then want.contains p else has s.1.exit p
  calls : ∀ c, c ∈ t.2 ↔ c ∈ s.2 ∨ ∃ p ∈ l, want.contains p ≠ has s.1.exit p ∧ c = .exit p (want.contains p)

theorem switchExit_one (ok : RouteCall → Bool) (want : List Prefix) (s : Installing) (p : Prefix) :
    Switched ok want s [p] (switchExit ok want s p) := by
  unfold switchExit
  split
  · rename_i heq
    refine ⟨rfl, fun _ _ => rfl, fun q hq => ?_, fun c => ?_⟩
    · rw [List.mem_singleton.mp hq, heq, ite_self]
    · grind
  · rename_i hne
    refine ⟨?_, fun q hq => ?_, fun q hq => ?_, fun c => ?_⟩
    · split
      · rfl
      · rfl
    · split
      · exact has_insert.trans (if_neg fun h => hq (List.mem_singleton.mpr h))
      · rfl
    · rw [List.mem_singleton.mp hq]
      split
      · exact has_insert.trans (if_pos rfl)
      · rfl
    · grind

theorem switchExit_loop (ok : RouteCall → Bool) (want : List Prefix) (s : Installing) :
    Switched ok want s [exitRoute, exitRoute6] ([exitRoute, exitRoute6].foldl (switchExit ok want) s) := by
  have h4 := switchExit_one ok want s exitRoute
  have h6 := switchExit_one ok want (switchExit ok want s exitRoute) exitRoute6
  have hother : has (switchExit ok want s exitRoute).1.exit exitRoute6 = has s.1.exit exitRoute6 := h4.kept _ (by decide)
  refine ⟨h6.installed.trans h4.installed, fun p hp => ?_, fun p hp => ?_, fun c => ?_⟩
  · rw [List.mem_cons, not_or] at hp
    exact (h6.kept p hp.2).trans (h4.kept p fun h => hp.1 (List.mem_singleton.mp h))
  · rcases List.mem_cons.mp hp with rfl | hp
    · exact (h6.kept _ (by decide)).trans (h4.exit _ (List.mem_singleton_self _))
    · rw [← List.mem_singleton.mp hp] at hother
      rw [← hother]
      exact h6.exit p hp
  · have hcalls := h6.calls c
    rw [h4.calls] at hcalls
    grind

/-! ## One call -/

theorem mem_exitRoutes : p ∈ [exitRoute, exitRoute6] ↔ isExitRoute p = true := by
  simp [isExitRoute]

theorem set_routable (hw : Routable want) :
    r.set ok dropped added want =
      (let t := [exitRoute, exitRoute6].foldl (switchExit ok want)
        (added.foldl (addRoute ok) (dropped.foldl (dropRoute ok (wanted want)) (r, [])))
      (t, (t.2.filter fun c => !ok c).map .failed)) := by
  have hnone : (want.find? fun p => !p.isValid || p.ip.is4In6) = none := by
    rw [List.find?_eq_none]
    intro p hp
    obtain ⟨hv, h4⟩ := hw p hp
    simp [hv, h4]
  unfold RouteTable.set
  rw [hnone]

theorem set_invalid (hw : ¬Routable want) :
    (r.set ok dropped added want).1 = (r, []) ∧ (r.set ok dropped added want).2 ≠ [] := by
  unfold RouteTable.set
  split
  · exact ⟨rfl, List.cons_ne_nil _ _⟩
  · rename_i hnone
    rw [List.find?_eq_none] at hnone
    refine absurd (fun p hp => ?_) hw
    grind

/-- What a call with a list of routes leaves in the table, and what it asked for. -/
structure SetTo (ok : RouteCall → Bool) (r : RouteTable) (want : List Prefix) (t : Installing) : Prop where
  installed : ∀ p, has t.1.installed p = true ↔
    if has (wanted want) p then has r.installed p = true ∨ ok (.add p) = true
    else has r.installed p = true ∧ ok (.del p) = false
  exit : ∀ p, has t.1.exit p =
    if isExitRoute p && ok (.exit p (want.contains p)) then want.contains p else has r.exit p
  calls : ∀ c, c ∈ t.2 ↔ Due r want c
  allTrue : AllTrue t.1

theorem set_spec (hw : Routable want) (hv : Visits r want dropped added) (hr : AllTrue r) :
    SetTo ok r want (r.set ok dropped added want).1 := by
  rw [set_routable hw]
  simp only
  have hd := dropRoute_loop ok (wanted want) (r, []) dropped
  generalize dropped.foldl (dropRoute ok (wanted want)) (r, []) = t1 at hd ⊢
  have ha := addRoute_loop ok t1 added
  generalize added.foldl (addRoute ok) t1 = t2 at ha ⊢
  have hs := switchExit_loop ok want t2
  generalize [exitRoute, exitRoute6].foldl (switchExit ok want) t2 = t3 at hs ⊢
  have hadded : ∀ p, p ∈ added ↔ has (wanted want) p = true := fun p => by rw [hv.added.2, mem_wanted, has_wanted]
  have hdropped : ∀ p, has r.installed p = true → p ∈ dropped := fun p hp => (hv.dropped.2 p).mpr (mem_of_has hp)
  have hexit : t2.1.exit = r.exit := ha.exit.trans hd.exit
  refine ⟨fun p => ?_, fun p => ?_, fun c => ?_, ?_⟩
  · rw [hs.installed, ha.installed, hd.installed, hadded]
    grind
  · cases hp : isExitRoute p with
    | true =>
      rw [hs.exit p (mem_exitRoutes.mpr hp), hexit, Bool.true_and]
    | false =>
      have hnot : p ∉ [exitRoute, exitRoute6] := fun h => by
        rw [mem_exitRoutes.mp h] at hp
        cases hp
      rw [hs.kept p hnot, hexit]
      simp
  · rw [hs.calls, ha.calls, hd.calls, hexit]
    cases c with
    | add p =>
      simp only [List.not_mem_nil, false_or, reduceCtorEq, and_false, exists_false, or_false, RouteCall.add.injEq, Due]
      constructor
      · rintro ⟨q, hq, hi, rfl⟩
        refine ⟨(hadded p).mp hq, ?_⟩
        by_contra hne
        have := (hd.installed p).mpr ⟨(Bool.not_eq_false _).mp hne, fun h => by rw [(hadded p).mp hq] at h; cases h.2.1⟩
        rw [hi] at this
        cases this
      · rintro ⟨hwp, hi⟩
        refine ⟨p, (hadded p).mpr hwp, ?_, rfl⟩
        by_contra hne
        have := ((hd.installed p).mp ((Bool.not_eq_false _).mp hne)).1
        rw [hi] at this
        cases this
    | del p =>
      simp only [List.not_mem_nil, false_or, reduceCtorEq, and_false, exists_false, or_false, RouteCall.del.injEq, Due]
      constructor
      · rintro ⟨q, hq, hwq, rfl⟩
        exact ⟨hwq, hr p ((hv.dropped.2 p).mp hq)⟩
      · rintro ⟨hwp, hi⟩
        exact ⟨p, hdropped p hi, hwp, rfl⟩
    | exit p on =>
      simp only [List.not_mem_nil, false_or, reduceCtorEq, and_false, exists_false, or_false, RouteCall.exit.injEq, Due]
      constructor
      · rintro ⟨q, hq, hne, rfl, rfl⟩
        exact ⟨mem_exitRoutes.mp hq, rfl, hne⟩
      · rintro ⟨hp, rfl, hne⟩
        exact ⟨p, mem_exitRoutes.mpr hp, hne, rfl, rfl⟩
  · intro p hp
    rw [hs.installed] at hp ⊢
    exact ha.allTrue (hd.allTrue hr) p hp

/-- A call returns nil when none of the calls that were due failed. -/
theorem set_ok_iff (hw : Routable want) (hv : Visits r want dropped added) (hr : AllTrue r) :
    (r.set ok dropped added want).2 = [] ↔ ∀ c, Due r want c → ok c = true := by
  have hspec : SetTo ok r want _ := set_spec hw hv hr
  rw [set_routable hw] at hspec ⊢
  simp only [List.map_eq_nil_iff, List.filter_eq_nil_iff, hspec.calls, Bool.not_eq_true', Bool.not_eq_false]

/-- The operating system holds the masked prefixes and the default routes of the list. -/
def Installed (want : List Prefix) (h : Held) : Prop :=
  ∀ p, (h.plain p = true ↔ ∃ a ∈ want, isExitRoute a = false ∧ a.masked = p) ∧ (h.exit p = true ↔ isExitRoute p = true ∧ p ∈ want)

theorem set_exact (hw : Routable want) (hv : Visits r want dropped added) (hr : AllTrue r) (ht : Tracks r h)
    (hexit : ∀ p, has r.exit p = true → isExitRoute p = true) (hok : (r.set ok dropped added want).2 = []) :
    Installed want (h.run ok (r.set ok dropped added want).1.2) := by
  have hspec : SetTo ok r want _ := set_spec hw hv hr
  have hall := (set_ok_iff hw hv hr).mp hok
  have hafter : Tracks _ (h.run ok _) := tracks_set ht dropped added want
  intro p
  rw [← hafter.plain, ← hafter.exit, ← has_wanted, hspec.installed, hspec.exit]
  constructor
  · cases hwp : has (wanted want) p with
    | true =>
      rw [if_pos rfl]
      cases hi : has r.installed p with
      | true => simp
      | false => simp [hall (.add p) ⟨hwp, hi⟩]
    | false =>
      rw [if_neg (by decide)]
      cases hi : has r.installed p with
      | true => simp [hall (.del p) ⟨hwp, hi⟩]
      | false => simp
  · rw [← List.contains_iff_mem]
    cases hp : isExitRoute p with
    | true =>
      -- the family has what is wanted, or the call that was due gave it
      by_cases heq : want.contains p = has r.exit p
      · rw [heq, ite_self]
        simp
      · rw [hall (.exit p (want.contains p)) ⟨hp, rfl, heq⟩]
        simp
    | false => grind

/-- What failed, and nothing else, is due again. -/
theorem due_again (hw : Routable want) (hv : Visits r want dropped added) (hr : AllTrue r) (c : RouteCall) :
    Due (r.set ok dropped added want).1.1 want c ↔ Due r want c ∧ ok c = false := by
  have hspec : SetTo ok r want _ := set_spec hw hv hr
  cases c with
  | add p =>
    simp only [Due]
    rw [and_assoc]
    refine and_congr_right fun hwp => ?_
    rw [← Bool.not_eq_true, hspec.installed, if_pos hwp, not_or, Bool.not_eq_true, Bool.not_eq_true]
  | del p =>
    simp only [Due]
    rw [and_assoc]
    refine and_congr_right fun hwp => ?_
    rw [hspec.installed, hwp, if_neg (by decide)]
  | exit p on =>
    simp only [Due]
    rw [and_assoc, and_assoc]
    refine and_congr_right fun hp => and_congr_right fun hon => ?_
    rw [hspec.exit, hp, ← hon, Bool.true_and]
    cases hok : ok (.exit p on) with
    | true => simp
    | false => simp

end

/-! ## Runs -/

structure RouteSt where
  table : RouteTable := {}
  os : Held := {}

inductive RouteEv where
  | set (ok : RouteCall → Bool) (dropped added want : List Prefix)
  | clear (ok : RouteCall → Bool) (dropped added : List Prefix)

def RouteSt.after (s : RouteSt) (ok : RouteCall → Bool) (t : Installing) : RouteSt := ⟨t.1, s.os.run ok t.2⟩

def RouteSt.next (s : RouteSt) : RouteEv → Option RouteSt
  | .set ok dropped added want => some (s.after ok (s.table.set ok dropped added want).1)
  | .clear ok dropped added => some (s.after ok (s.table.clear ok dropped added).1)

/-- The orders are those of a range over the table and one over the wanted routes. -/
def InOrder (s : RouteSt) : RouteEv → Prop
  | .set _ dropped added want => Visits s.table want dropped added
  | .clear _ dropped added => Visits s.table [] dropped added

structure RouteInv (s : RouteSt) : Prop where
  tracks : Tracks s.table s.os
  allTrue : AllTrue s.table
  exit : ∀ p, has s.table.exit p = true → isExitRoute p = true

theorem RouteInv.set {s : RouteSt} (hs : RouteInv s) {ok : RouteCall → Bool} {dropped added want : List Prefix}
    (hv : Visits s.table want dropped added) : RouteInv (s.after ok (s.table.set ok dropped added want).1) := by
  by_cases hw : Routable want
  · have hspec : SetTo ok s.table want _ := set_spec hw hv hs.allTrue
    refine ⟨tracks_set hs.tracks dropped added want, hspec.allTrue, fun p hp => ?_⟩
    simp only [RouteSt.after, hspec.exit] at hp
    split at hp
    · rename_i h
      exact (Bool.and_eq_true_iff.mp h).1
    · exact hs.exit p hp
  · rw [(set_invalid hw).1]
    exact hs

theorem RouteInv.next {s s' : RouteSt} {e : RouteEv} (hs : RouteInv s) (he : InOrder s e) (h : s.next e = some s') :
    RouteInv s' := by
  cases e with
  | set ok dropped added want =>
    cases h
    exact hs.set he
  | clear ok dropped added =>
    cases h
    exact hs.set he

abbrev RouteReach := Conc.Reach (fun s : RouteSt => s = {}) RouteSt.next InOrder

theorem RouteReach.inv {s : RouteSt} (h : RouteReach s) : RouteInv s := by
  refine Conc.Reach.inv h (fun s hs => ?_) (fun s e s' hs he h => hs.next he h)
  subst hs
  refine ⟨⟨fun p => ?_, fun p => ?_⟩, fun p hp => absurd hp (Finmap.notMem_empty), fun p hp => ?_⟩
  · simp [has]
  · simp [has]
  · simp [has] at hp

/-- However the calls to the operating system go, the table says what it holds. A call of `set`
that returns nil leaves the masked prefixes and the default routes of its list there, those
of a call that failed included: the next call with its list asks again for what failed, and
for nothing else. A list with a prefix that is no route changes nothing. -/
theorem routes_match_os {s : RouteSt} (h : RouteReach s) :
    Tracks s.table s.os ∧
    ∀ ok dropped added want, Visits s.table want dropped added →
      (¬Routable want → s.after ok (s.table.set ok dropped added want).1 = s ∧ (s.table.set ok dropped added want).2 ≠ []) ∧
      ((s.table.set ok dropped added want).2 = [] → Installed want (s.after ok (s.table.set ok dropped added want).1).os) ∧
      (Routable want → ∀ ok' dropped' added', Visits (s.table.set ok dropped added want).1.1 want dropped' added' →
        let r := (s.table.set ok dropped added want).1.1
        (∀ c, c ∈ (r.set ok' dropped' added' want).1.2 ↔ c ∈ (s.table.set ok dropped added want).1.2 ∧ ok c = false) ∧
        ((r.set ok' dropped' added' want).2 = [] →
          Installed want ((s.after ok (s.table.set ok dropped added want).1).after ok'
            (r.set ok' dropped' added' want).1).os)) := by
  have hi := h.inv
  refine ⟨hi.tracks, fun ok dropped added want hv => ⟨fun hw => ?_, fun hok => ?_, fun hw ok' dropped' added' hv' => ?_⟩⟩
  · rw [(set_invalid hw).1]
    exact ⟨rfl, (set_invalid hw).2⟩
  · have hw : Routable want := by
      by_contra hw
      exact (set_invalid hw).2 hok
    exact set_exact hw hv hi.allTrue hi.tracks hi.exit hok
  · have hi' : RouteInv (s.after ok _) := hi.set hv
    have hspec : SetTo ok s.table want _ := set_spec hw hv hi.allTrue
    have hspec' : SetTo ok' _ want _ := set_spec hw hv' hspec.allTrue
    refine ⟨fun c => ?_, fun hok => set_exact hw hv' hi'.allTrue hi'.tracks hi'.exit hok⟩
    rw [hspec'.calls, hspec.calls, due_again hw hv hi.allTrue]

def tenNet : Prefix := prefixFrom (.v4 (Arr.ofNat 4 0x0a000000)) 8

theorem visits_tenNet {r : RouteTable} (h : r.installed = ∅) : Visits r [tenNet, exitRoute] [] [tenNet] := by
  refine ⟨⟨List.nodup_nil, fun p => ?_⟩, List.nodup_singleton _, fun p => ?_⟩
  · rw [h]
    simp only [List.not_mem_nil, false_iff]
    exact Finmap.notMem_empty
  · have hten : isExitRoute tenNet = false ∧ tenNet.masked = tenNet := by decide +kernel
    have hexit : isExitRoute exitRoute = true := by decide
    rw [mem_wanted]
    grind

def firstTry : Installing × List RouteErr :=
  ({} : RouteTable).set (fun c => c != .add tenNet) [] [tenNet] [tenNet, exitRoute]

theorem routes_match_os_tenNet :
    firstTry.2 = [.failed (.add tenNet)] ∧
      (firstTry.1.1.set (fun _ => true) [] [tenNet] [tenNet, exitRoute]).1.2 = [.add tenNet] ∧
      Installed [tenNet, exitRoute] ((({} : RouteSt).after (fun c => c != .add tenNet) firstTry.1).after (fun _ => true)
        (firstTry.1.1.set (fun _ => true) [] [tenNet] [tenNet, exitRoute]).1).os := by
  have hroutable : Routable [tenNet, exitRoute] := by
    unfold Routable
    decide +kernel
  have hagain : Visits firstTry.1.1 [tenNet, exitRoute] [] [tenNet] := visits_tenNet (by decide +kernel)
  have h := (routes_match_os (.start rfl)).2 (fun c => c != .add tenNet) [] [tenNet] [tenNet, exitRoute] (visits_tenNet rfl)
  exact ⟨by decide +kernel, by decide +kernel, (h.2.2 hroutable (fun _ => true) [] [tenNet] hagain).2 (by decide +kernel)⟩

end Thawr.Wg
