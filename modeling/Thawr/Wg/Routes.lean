/-
  Thawr.Wg.Routes — the routes an adapter installs (`internal/wg/routes.go`).

  `set` compares the wanted prefixes with those installed and calls the operating system for
  the difference: `delRoute` and `addRoute` for subnet routes, masked, and `setExitRoute` for
  the default route of each family. A call that fails leaves the table as it was for that
  route. Which calls succeed is a parameter, and so are the orders the maps are visited in.

  Proved: `set` calls `addRoute` only for a wanted prefix and switches the default route of a
  family on only when it is wanted (`set_calls`).
-/

import Thawr.Wg.Device

namespace Thawr.Wg

open Go Netip

inductive RouteCall where
  | add (p : Prefix)
  | del (p : Prefix)
  /-- `setExitRoute`. -/
  | exit (p : Prefix) (on : Bool)
  deriving DecidableEq

inductive RouteErr where
  /-- "wg: route %s: not an IPv4 or IPv6 prefix" -/
  | notPrefix (p : Prefix)
  | failed (call : RouteCall)
  deriving DecidableEq

structure RouteTable where
  installed : GoMap Prefix Bool := ∅
  /-- The families whose default route is installed. -/
  exit : GoMap Prefix Bool := ∅

def has (m : GoMap Prefix Bool) (p : Prefix) : Bool := (m.lookup p).getD false

def wanted (want : List Prefix) : GoMap Prefix Bool :=
  want.foldl (fun m p => if isExitRoute p then m else m.insert p.masked true) ∅

/-- The calls made so far, with the table. -/
abbrev Installing := RouteTable × List RouteCall

def dropRoute (ok : RouteCall → Bool) (w : GoMap Prefix Bool) (s : Installing) (p : Prefix) : Installing :=
  if has w p then s
  else (if ok (.del p) then { s.1 with installed := s.1.installed.erase p } else s.1, s.2 ++ [.del p])

def addRoute (ok : RouteCall → Bool) (s : Installing) (p : Prefix) : Installing :=
  if has s.1.installed p then s
  else (if ok (.add p) then { s.1 with installed := s.1.installed.insert p true } else s.1, s.2 ++ [.add p])

def switchExit (ok : RouteCall → Bool) (want : List Prefix) (s : Installing) (p : Prefix) : Installing :=
  if want.contains p = has s.1.exit p then s
  else
    (if ok (.exit p (want.contains p)) then { s.1 with exit := s.1.exit.insert p (want.contains p) } else s.1,
      s.2 ++ [.exit p (want.contains p)])

/-- `routeTable.set`, with the calls it made and its errors; `dropped` and `added` are the
    orders in which it visits the installed and the wanted routes. -/
def RouteTable.set (ok : RouteCall → Bool) (dropped added : List Prefix) (r : RouteTable) (want : List Prefix) :
    Installing × List RouteErr :=
  match want.find? fun p => !p.isValid || p.ip.is4In6 with
  | some p => ((r, []), [.notPrefix p])
  | none =>
    let s := dropped.foldl (dropRoute ok (wanted want)) (r, [])
    let s := added.foldl (addRoute ok) s
    let s := [exitRoute, exitRoute6].foldl (switchExit ok want) s
    (s, (s.2.filter fun c => !ok c).map .failed)

structure Visits (r : RouteTable) (want dropped added : List Prefix) : Prop where
  dropped : dropped.Nodup ∧ ∀ p, p ∈ dropped ↔ p ∈ r.installed
  added : added.Nodup ∧ ∀ p, p ∈ added ↔ p ∈ wanted want

theorem mem_wanted {want : List Prefix} {p : Prefix} : p ∈ wanted want ↔ ∃ a ∈ want, isExitRoute a = false ∧ a.masked = p := by
  unfold wanted
  refine loop_inv (I := fun l (m : GoMap Prefix Bool) => p ∈ m ↔ ∃ a ∈ l, isExitRoute a = false ∧ a.masked = p) ?_ ?_
  · simp [Finmap.notMem_empty]
  · intro l a m _ hm
    by_cases ha : isExitRoute a = true
    · rw [if_pos ha, hm]
      simp [ha]
    · rw [if_neg ha, Finmap.mem_insert, hm]
      grind

def Wanted (want : List Prefix) : RouteCall → Prop
  | .add p => ∃ a ∈ want, isExitRoute a = false ∧ a.masked = p
  | .del _ => True
  | .exit p on => isExitRoute p = true ∧ (on = true → p ∈ want)

/-- A loop that makes only calls of a kind. -/
theorem loop_calls {P : RouteCall → Prop} {f : Installing → Prefix → Installing} {l : List Prefix} {s : Installing}
    (hs : ∀ c ∈ s.2, P c) (hf : ∀ p ∈ l, ∀ s, ∀ c ∈ (f s p).2, c ∈ s.2 ∨ P c) : ∀ c ∈ (l.foldl f s).2, P c := by
  refine loop_inv (I := fun _ (s : Installing) => ∀ c ∈ s.2, P c) hs ?_
  intro _ p t hp ht c hc
  rcases hf p hp t c hc with hc | hc
  · exact ht c hc
  · exact hc

/-- What a turn of a loop calls is behind what was called before. -/
theorem mem_called {P : RouteCall → Prop} {s : Installing} {r : RouteTable} {c d : RouteCall} {b : Prop} [Decidable b]
    (hc : c ∈ (if b then s else (r, s.2 ++ [d])).2) (hd : P d) : c ∈ s.2 ∨ P c := by
  split at hc
  · exact .inl hc
  · rcases List.mem_append.mp hc with hc | hc
    · exact .inl hc
    · rw [List.mem_singleton.mp hc]
      exact .inr hd

theorem set_calls {ok : RouteCall → Bool} {dropped added : List Prefix} {r : RouteTable} {want : List Prefix}
    (hv : Visits r want dropped added) : ∀ c ∈ (r.set ok dropped added want).1.2, Wanted want c := by
  unfold RouteTable.set
  split
  · intro c hc
    cases hc
  · refine loop_calls (loop_calls (loop_calls (fun c hc => by cases hc) ?_) ?_) ?_
    · intro p _ s c hc
      exact mem_called hc trivial
    · intro p hp s c hc
      exact mem_called hc (mem_wanted.mp ((hv.added.2 p).mp hp))
    · intro p hp s c hc
      have hexit : isExitRoute p = true := by
        simp only [List.mem_cons, List.not_mem_nil, or_false] at hp
        rcases hp with rfl | rfl <;> decide
      exact mem_called hc ⟨hexit, fun hon => List.contains_iff_mem.mp hon⟩

end Thawr.Wg
