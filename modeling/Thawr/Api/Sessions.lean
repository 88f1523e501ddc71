/-
  Thawr.Api.Sessions — who may call the admin API (`internal/api/sessions.go`, `auth.go`).

  Proved (`admin_iff`): in every run of the table's calls, by any number of requests, one gets
  past `requireAdmin` exactly over the socket, or with the cookie of a session that was opened,
  not ended and is not over, for a user who is an enabled admin, and with its CSRF token unless
  it only reads.
-/

import Thawr.Conc.Runs
import Thawr.Control.Lock
import Thawr.Control.Path.Machine

namespace Thawr.Api.Sessions

open Go Control
open Control.Path (Time second)

structure Session where
  token : Str
  userID : Str
  csrf : Str
  expires : Time

def sessionTTL : Time := 12 * 60 * 60 * second

def Session.live (now : Time) (x : Session) : Bool := decide (now ≤ x.expires)

abbrev Table := Str → Option Session

def create (m : Table) (x : Session) (now : Time) : Table :=
  Function.update (fun k => (m k).filter (·.live now)) x.token (some x)

def delete (m : Table) (token : Str) : Table := Function.update m token none

def get (m : Table) (token : Str) (now : Time) : Table × Option Session :=
  match (m token).filter (·.live now) with
  | none => (delete m token, none)
  | some x => (m, some x)

structure Request where
  /-- `Local`: over the admin socket. -/
  onSocket : Bool
  cookie : Option Str
  method : Str
  csrf : Str

def Request.reads (r : Request) : Bool := r.method == str "GET" || r.method == str "HEAD"

structure User extends StoreUser where
  disabled : Bool

def User.principal (u : User) : Principal := { userID := u.id, name := u.name, role := some u.role }

def sessionFrom (m : Table) (r : Request) (now : Time) : Table × Option Session :=
  match r.cookie with
  | none | some [] => (m, none)
  | some c => get m c now

section

variable (users : Str → Option User) (m : Table) (r : Request) (now : Time)

/-- The principal, or the status and text of the error; `users` is `Users.Get`. -/
def requireAuth : Table × Except (Nat × Str) Principal :=
  if r.onSocket then (m, .ok localAdmin)
  else
    let found := sessionFrom m r now
    match found.2 with
    | none => (found.1, .error (401, str "login required"))
    | some x =>
      if !r.reads && r.csrf != x.csrf then (found.1, .error (403, str "missing or wrong CSRF token"))
      else
        match (users x.userID).filter (!·.disabled) with
        | none => (delete found.1 x.token, .error (401, str "login required"))
        | some u => (found.1, .ok u.principal)

def requireAdmin : Table × Except (Nat × Str) Principal :=
  let auth := requireAuth users m r now
  (auth.1, auth.2.bind fun p => if p.isAdmin then .ok p else .error (403, str "admin role required"))

end

structure St where
  table : Table := fun _ => none
  /-- The sessions opened and not ended. -/
  opened : Table := fun _ => none
  clock : Time := 0

inductive Ev where
  /-- The clock is read for the expiry, and again under the lock. -/
  | create (x : Session) (began now : Time)
  | get (k : Str) (now : Time)
  | delete (k : Str) (now : Time)

def next (s : St) : Ev → Option St
  | .create x began now =>
    if s.clock ≤ now ∧ began ≤ now ∧ x.expires = began + sessionTTL then
      some ⟨create s.table x now, Function.update s.opened x.token (some x), now⟩
    else none
  | .get k now => if s.clock ≤ now then some ⟨(get s.table k now).1, s.opened, now⟩ else none
  | .delete k now => if s.clock ≤ now then some ⟨delete s.table k, Function.update s.opened k none, now⟩ else none

def Start (s : St) : Prop := s.table = (fun _ => none) ∧ s.opened = fun _ => none

section

variable {s s' : St} {r : Request} {users : Str → Option User} {now t : Time} {p : Principal}

/-- What has expired stays so. -/
theorem filter_live (h : t ≤ now) (o : Option Session) : (o.filter (·.live t)).filter (·.live now) = o.filter (·.live now) := by
  rw [Option.filter_filter]
  congr 1
  grind [Session.live]

/-- Only what has expired is missing from the table. -/
def Live (s : St) : Prop := ∀ now, s.clock ≤ now → ∀ k, (s.table k).filter (·.live now) = (s.opened k).filter (·.live now)

theorem Live.next {e : Ev} (h : Live s) (hs : Sessions.next s e = some s') : Live s' := by
  cases e with
  | create x began t =>
    simp only [Sessions.next, Option.ite_none_right_eq_some, Option.some.injEq] at hs
    obtain ⟨⟨hle, -⟩, rfl⟩ := hs
    intro now hnow k
    simp only [Sessions.create, Function.update_apply]
    split_ifs
    · rfl
    · rw [filter_live hnow]
      exact h now (hle.trans hnow) k
  | get j t =>
    simp only [Sessions.next, Option.ite_none_right_eq_some, Option.some.injEq] at hs
    obtain ⟨hle, rfl⟩ := hs
    intro now hnow k
    rw [← h now (hle.trans hnow) k, Sessions.get]
    split
    · rename_i hnone
      simp only [Sessions.delete, Function.update_apply]
      split_ifs with hk
      · rw [hk, ← filter_live hnow (s.table j), hnone]
      · rfl
    · rfl
  | delete j t =>
    simp only [Sessions.next, Option.ite_none_right_eq_some, Option.some.injEq] at hs
    obtain ⟨hle, rfl⟩ := hs
    intro now hnow k
    simp only [Sessions.delete, Function.update_apply]
    split_ifs
    · rfl
    · exact h now (hle.trans hnow) k

theorem reach_live (h : Conc.Reach Start next Conc.Always s) : Live s := by
  refine h.inv (fun s hs now _ k => ?_) fun _ _ _ hi _ hs => hi.next hs
  rw [hs.1, hs.2]

/-- The request comes with an open session of the user. -/
def LoggedIn (opened : Table) (users : Str → Option User) (r : Request) (now : Time) (u : User) : Prop :=
  ∃ c x, r.cookie = some c ∧ c ≠ [] ∧ opened c = some x ∧ now ≤ x.expires ∧ (r.reads = true ∨ r.csrf = x.csrf) ∧
    users x.userID = some u ∧ u.disabled = false

/-- In every run a request reaches an admin's handler exactly over the socket, or with an open
    session of an enabled admin. -/
theorem admin_iff (h : Conc.Reach Start next Conc.Always s) (hnow : s.clock ≤ now) :
    (requireAdmin users s.table r now).2 = .ok p ↔
    r.onSocket = true ∧ p = localAdmin ∨
      r.onSocket = false ∧ ∃ u, LoggedIn s.opened users r now u ∧ u.role = .admin ∧ p = u.principal := by
  have hfound : ∀ x, (sessionFrom s.table r now).2 = some x ↔
      ∃ c, r.cookie = some c ∧ c ≠ [] ∧ s.opened c = some x ∧ now ≤ x.expires := by
    intro x
    unfold sessionFrom
    split
    · simp [*]
    · simp [*]
    · rename_i c hne hc
      have hlive := reach_live h now hnow c
      grind [get, Session.live, Option.filter_eq_some_iff]
  unfold requireAdmin requireAuth LoggedIn
  cases hs : r.onSocket with
  | true => grind [localAdmin, Except.bind, Principal.isAdmin]
  | false =>
    cases hf : (sessionFrom s.table r now).2 with
    | none => grind [Except.bind]
    | some x =>
      have hx := (hfound x).mp hf
      cases hu : users x.userID with
      | none => grind [Except.bind]
      | some u => grind [Except.bind, User.principal, Principal.isAdmin]

end

def alice : User := ⟨⟨str "u1", str "alice", .admin⟩, false⟩

def login : Session := ⟨str "t", str "u1", str "c", sessionTTL⟩

theorem admin_iff_alice : (requireAdmin (fun _ => some alice) (create (fun _ => none) login 0)
    ⟨false, some (str "t"), str "POST", str "c"⟩ sessionTTL).2 = .ok alice.principal :=
  (admin_iff (.step (.create login 0 0) (.start ⟨rfl, rfl⟩) trivial (s := {}) rfl) (by decide)).mpr
    (.inr ⟨rfl, alice, ⟨_, login, rfl, by decide, rfl, le_rfl, .inr rfl, rfl, rfl⟩, rfl, rfl⟩)

end Thawr.Api.Sessions
