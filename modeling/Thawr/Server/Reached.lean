/-
  Thawr.Server.Reached — the registries a server gets to.

  The results on netmaps and on the resolver are about registries whose peers have names and
  addresses of their own. Proved: every run of the registry's calls leads to such registries,
  for the hub the server configures (`reached_derived`, `reached_placed`,
  `reached_resolvable`). Routes are no part of the runs: that only agents have approved ones
  is an assumption of `reached_placed`.
-/

import Thawr.Control.Capable
import Thawr.Control.RegistryRuns
import Thawr.Server.Resolver

namespace Thawr.Server

open Go Netip Control RegistryRuns

/-- The hub of `HubAddr` and `hubAddr6`: the first host address, and the one derived from it. -/
structure Hosts (S : Services) (hub : HubConfig) : Prop where
  overlay : hub.overlay = S.overlay
  overlay6 : hub.overlay6 = S.overlay6
  address : hub.address = S.overlay.masked.ip.next
  address6 : hub.address6 = ipv6For S.overlay6 hub.address

section

variable {S : Services} {hub : HubConfig} {s : St} {t : Store.Tables} {p : Store.Peer} {b : Arr 4}

theorem Hosts.valid (hh : Hosts S hub) (h6 : Is64 S.overlay6) (hb : At S p b) : hub.Valid ∧ hub.address6.isValid = true := by
  obtain ⟨c, hc, hin⟩ := hb.host.hub
  obtain ⟨d, hd, -⟩ := h6.ipv6For c
  have hvalid : (ipv6For S.overlay6 (.v4 c)).isValid = true := by
    rw [hd]
    rfl
  rw [← hc, ← hh.address] at hin
  have ha := hh.address.trans hc
  refine ⟨⟨⟨?_, ?_⟩, fun _ => ?_⟩, ?_⟩
  · rw [ha]
    rfl
  · rw [hh.overlay]
    exact hin
  · rw [hh.address6, hh.overlay6, ha]
    exact ⟨is6_ipv6For hvalid, h6.contains c⟩
  · rw [hh.address6, ha]
    exact hvalid

/-- A peer has neither address of the hub. -/
theorem Hosts.ne (hh : Hosts S hub) (hb : At S p b) : Addr.v4 b ≠ hub.address ∧ ipv6For S.overlay6 (.v4 b) ≠ hub.address6 := by
  obtain ⟨c, hc, -⟩ := hb.host.hub
  have hne := hb.host.ne.2.1
  rw [hh.address6, hh.address]
  refine ⟨hne, fun he => hne ?_⟩
  rw [hc] at he ⊢
  rw [ipv6For_inj hb.valid he]

variable (h : Conc.Reach Start (step S) Conc.Always s) (hw : S.overlay.WellFormed) (h6 : Is64 S.overlay6) (hh : Hosts S hub)
include h hw h6 hh

theorem reached_derived : Derived hub s.db.tables where
  ids := (reach_inv h).distinct_ids
  pair := by
    intro q hq
    obtain ⟨b, hb⟩ := (reach_inv h).placed hw h6 hq
    rw [hh.overlay6]
    exact ⟨b, hb.ipv4, hb.ipv6, hb.valid⟩
  distinct := fun _ hp _ hq he => (reach_inv h).eq_of_address hw h6 hp hq (.inl he)
  hub := by
    intro q hq he
    obtain ⟨b, hb⟩ := (reach_inv h).placed hw h6 hq
    rw [hb.ipv6, Option.some_inj] at he
    exact (hh.ne hb).2 he

theorem reached_placed (ht : t.peers = s.db.peers)
    (hr : ∀ r ∈ t.routes, r.approved = true → ∀ q ∈ t.peers, q.id = r.peerID → q.mode = .agent) : Placed hub t := by
  refine ⟨?_, ?_, ?_, ?_, ?_, hr⟩
  all_goals rw [ht]
  · exact (reach_inv h).distinct_ids
  · intro q hq
    obtain ⟨b, hb⟩ := (reach_inv h).placed hw h6 hq
    rw [hh.overlay]
    exact ⟨.v4 b, hb.ipv4, rfl, hb.host.1, (hh.ne hb).1⟩
  · intro q hq _
    obtain ⟨b, hb⟩ := (reach_inv h).placed hw h6 hq
    rw [hh.overlay6]
    exact ⟨_, hb.ipv6, is6_ipv6For hb.valid, h6.contains b, (hh.ne hb).2⟩
  · intro p hp q hq he
    exact (reach_inv h).eq_of_address hw h6 hp hq (.inl he)
  · intro p hp q hq _ he
    exact (reach_inv h).eq_of_address hw h6 hp hq (.inr he)

theorem reached_resolvable : Resolvable hub.address hub.address6 s.db.tables := by
  -- no result on names and addresses looks at the routes
  have hplaced : Placed hub { s.db.tables with routes := [] } := reached_placed h hw h6 hh rfl (by simp)
  refine ⟨fun p hp q hq he => ?_, fun p hp q hq a => hplaced.owns_unique hp hq, fun p hp a ha => ?_⟩
  · rw [toLower_label ((reach_inv h).label hp), toLower_label ((reach_inv h).label hq)] at he
    exact (reach_inv h).eq_of_name hp hq he
  · obtain ⟨b, hb⟩ := (reach_inv h).placed hw h6 hp
    obtain ⟨hvalid, hvalid6⟩ := hh.valid h6 hb
    obtain ⟨hne, hne6⟩ := hplaced.owns_ne_hub hvalid hp ha
    exact ⟨hne, hne6 hvalid6⟩

end

/-- Two devices, and the hub of their server. -/
theorem home_resolvable : ∃ (s : St) (hub : HubConfig), s.db.peers.length = 2 ∧ Hosts homeServices hub ∧
    Resolvable hub.address hub.address6 s.db.tables := by
  obtain ⟨s, hs, hlen⟩ := Option.map_eq_some_iff.mp (show (Conc.run (step homeServices) home (homeRun (homeKey 3))).map
    (fun s => s.db.peers.length) = some 2 by decide +kernel)
  have hh : Hosts homeServices { overlay := _, address := _, overlay6 := _, address6 := _ } := ⟨rfl, rfl, rfl, rfl⟩
  exact ⟨s, _, hlen, hh, reached_resolvable (.run (.start home_start) _ hs) homeServices_fit.1 homeServices_fit.2 hh⟩

end Thawr.Server
