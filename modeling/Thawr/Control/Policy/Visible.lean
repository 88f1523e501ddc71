/-
  Thawr.Control.Policy.Visible — the answers for a peer come from the peers it may see.

  Each answer of a compiled policy is a sum over the peer list (`FilterFor`, `ForwardFor`) or
  a choice among its peers (`RoutesFor`, `ExitNodesFor`). A peer takes part only if it reaches
  the asking peer or is reached by it, which makes the two visible to each other. So two peer
  lists with the same visible peers, in the same order, give the same answers.
-/

import Thawr.Control.Policy.Pairs

namespace Thawr.Control.Policy

open Go Netip

/-- Whether two peers are visible to each other, decided on the two alone. -/
def seen (p : Policy) (overlay : Prefix) (a b : Peer) : Bool :=
  (compileWith p [a, b] overlay).anyIdx 0 1 || (compileWith p [a, b] overlay).anyIdx 1 0

def seenBy (p : Policy) (overlay : Prefix) (a : Peer) (peers : List Peer) : List Peer :=
  peers.filter fun b => b.id != a.id && seen p overlay a b

section

variable {p : Policy} {overlay : Prefix} {peers : List Peer} {i j : Nat} {a b : Peer}

theorem seen_iff : seen p overlay a b = true ↔ Reaches p overlay a b ∨ Reaches p overlay b a := by
  unfold seen
  rw [Bool.or_eq_true, anyIdx_iff (a := a) (b := b) rfl rfl (by decide), anyIdx_iff (a := b) (b := a) rfl rfl (by decide)]

theorem visible_eq_seen (hids : (peers.map (·.id)).Nodup) (hi : peers[i]? = some a) (hj : peers[j]? = some b) (hij : i ≠ j) :
    (compileWith p peers overlay).visible a.id b.id = seen p overlay a b := by
  unfold Compiled.visible
  rw [lookup_index hids hi, lookup_index hids hj, Bool.eq_iff_iff, seen_iff]
  simp only [Bool.and_eq_true, bne_iff_ne, Bool.or_eq_true, anyIdx_iff hi hj hij, anyIdx_iff hj hi (Ne.symm hij)]
  exact and_iff_right hij

/-- In a list with distinct ids, the entry with a peer's id is that peer. -/
theorem index_eq_iff (hids : (peers.map (·.id)).Nodup) (hi : peers[i]? = some a) (hj : peers[j]? = some b) :
    i = j ↔ a.id = b.id := by
  constructor
  · intro he
    rw [he, hj] at hi
    rw [Option.some.inj hi]
  · exact index_inj hids (x := (a, i)) (y := (b, j)) (List.mem_zipIdx_iff_getElem?.mpr hi) (List.mem_zipIdx_iff_getElem?.mpr hj)

theorem mem_seenBy : b ∈ seenBy p overlay a peers ↔ b ∈ peers ∧ b.id ≠ a.id ∧ seen p overlay a b = true := by
  unfold seenBy
  rw [List.mem_filter, Bool.and_eq_true, bne_iff_ne]

/-- A sum over a list whose parts vanish outside a sublist is the sum over that. -/
theorem flatMap_zipIdx_filter {α β : Type} {l : List α} {F : α × Nat → List β} {G : α → List β} {keep : α → Bool}
    (h : ∀ i x, l[i]? = some x → F (x, i) = if keep x then G x else []) : l.zipIdx.flatMap F = (l.filter keep).flatMap G := by
  have hF : l.zipIdx.flatMap F = l.zipIdx.flatMap fun x => if keep x.1 then G x.1 else [] :=
    List.flatMap_congr fun x hx => h x.2 x.1 (List.mem_zipIdx_iff_getElem?.mp hx)
  have hfst : (l.zipIdx.flatMap fun x => if keep x.1 then G x.1 else []) = l.flatMap fun x => if keep x then G x else [] := by
    conv_rhs => rw [← List.zipIdx_map_fst 0 l]
    rw [List.flatMap_map]
  have hkeep : (l.flatMap fun x => if keep x then G x else []) = (l.filter keep).flatMap G := by
    clear h hF hfst
    induction l with
    | nil => rfl
    | cons x l ih => grind
  rw [hF, hfst, hkeep]

/-! ## Sums -/

/-- What a source adds to another peer's filter depends on the two alone. -/
theorem filterFrom_pair (hw : WellFormed p) (S T : RangeSort) (hi : peers[i]? = some a) (hj : peers[j]? = some b) (hij : i ≠ j) :
    (compileWith p peers overlay).filterFrom S j (a, i) = (compileWith p [a, b] overlay).filterFrom T 1 (a, 0) := by
  have hallowed : (compileWith p peers overlay).allowedIdx S i j = (compileWith p [a, b] overlay).allowedIdx T 0 1 :=
    allowedIdx_congr S T hw hw hi hj hij rfl rfl (by decide) fun _ _ => Iff.rfl
  unfold Compiled.filterFrom
  simp only [hallowed, hij, false_or, Nat.zero_ne_one]

theorem filterFrom_unseen (S : RangeSort) (hi : peers[i]? = some a) (hj : peers[j]? = some b) (hij : i ≠ j)
    (h : ¬Reaches p overlay a b) : (compileWith p peers overlay).filterFrom S j (a, i) = [] := by
  have hnone : ∀ proto, (compileWith p peers overlay).portsFor i j proto = [] := by
    intro proto
    rw [← anyIdx_iff hi hj hij] at h
    unfold Compiled.portsFor
    rw [List.flatMap_eq_nil_iff]
    intro cr hcr
    rw [List.mem_filter, Bool.and_eq_true] at hcr
    refine absurd ?_ h
    unfold Compiled.anyIdx
    rw [Bool.or_eq_true]
    exact .inl (List.any_eq_true.mpr ⟨cr, hcr.1, hcr.2.1⟩)
  have hmerge : mergeRanges S [] = [] := by
    unfold mergeRanges
    rw [(S.perm []).eq_nil]
  unfold Compiled.filterFrom Compiled.allowedIdx
  simp [hnone, hmerge]

theorem forwardFrom_pair (hi : peers[i]? = some a) (hj : peers[j]? = some b) (hij : i ≠ j) :
    (compileWith p peers overlay).forwardFrom j (a, i) = (compileWith p [a, b] overlay).forwardFrom 1 (a, 0) := by
  have ha : [a, b][0]? = some a := rfl
  have hb : [a, b][1]? = some b := rfl
  rw [forwardFrom_eq hi hj hij, forwardFrom_eq ha hb (by decide)]

theorem forwardFrom_unseen (hi : peers[i]? = some a) (hj : peers[j]? = some b) (hij : i ≠ j) (h : ¬Reaches p overlay a b) :
    (compileWith p peers overlay).forwardFrom j (a, i) = [] := by
  have hnil : routed p overlay a b = [] := by
    by_contra hne
    exact h (.inr hne)
  rw [forwardFrom_eq hi hj hij, hnil]
  split <;> rfl

/-- A sum over all the peers is one over those `a` sees, where neither `a` itself nor the rest adds to it. -/
theorem flatMap_seenBy {β : Type} {F : Peer × Nat → List β} {G : Peer → List β} (hids : (peers.map (·.id)).Nodup)
    (hi : peers[i]? = some a) (hself : ∀ b, F (b, i) = [])
    (hseen : ∀ k b, peers[k]? = some b → k ≠ i → F (b, k) = G b)
    (hunseen : ∀ k b, peers[k]? = some b → k ≠ i → ¬Reaches p overlay b a → F (b, k) = []) :
    peers.zipIdx.flatMap F = (seenBy p overlay a peers).flatMap G := by
  refine flatMap_zipIdx_filter fun k b hk => ?_
  by_cases hki : k = i
  · rw [if_neg (by simp [(index_eq_iff hids hk hi).mp hki]), hki]
    exact hself b
  · have hne : b.id ≠ a.id := fun he => hki ((index_eq_iff hids hk hi).mpr he)
    by_cases hs : seen p overlay a b = true
    · rw [if_pos (by simp [hne, hs])]
      exact hseen k b hk hki
    · rw [if_neg (by simp [hs])]
      exact hunseen k b hk hki fun hr => hs (seen_iff.mpr (.inr hr))

/-- The filter of `a` is a sum over the peers it sees. -/
theorem filterFor_seenBy (hw : WellFormed p) (S T : RangeSort) (hids : (peers.map (·.id)).Nodup) (hi : peers[i]? = some a) :
    (compileWith p peers overlay).filterFor S a.id =
      ((seenBy p overlay a peers).flatMap fun b => (compileWith p [b, a] overlay).filterFrom T 1 (b, 0)).insertionSort
        fun x y => y.src.less x.src = false := by
  unfold Compiled.filterFor
  rw [lookup_index hids hi]
  show List.insertionSort _ (peers.zipIdx.flatMap _) = _
  congr 1
  refine flatMap_seenBy hids hi (fun b => if_pos (.inl rfl)) ?_ ?_
  · intro k b hk hki
    exact filterFrom_pair hw S T hk hi hki
  · intro k b hk hki
    exact filterFrom_unseen S hk hi hki

/-- So is what it may forward. -/
theorem forwardEntries_seenBy (hids : (peers.map (·.id)).Nodup) (hi : peers[i]? = some a) :
    peers.zipIdx.flatMap ((compileWith p peers overlay).forwardFrom i) =
      (seenBy p overlay a peers).flatMap fun b => (compileWith p [b, a] overlay).forwardFrom 1 (b, 0) := by
  refine flatMap_seenBy hids hi (fun b => if_pos (.inl rfl)) ?_ ?_
  · intro k b hk hki
    exact forwardFrom_pair hk hi hki
  · intro k b hk hki
    exact forwardFrom_unseen hk hi hki

/-! ## Choices -/

/-- The routers of `a` are peers it sees. -/
theorem router_seenBy (hids : (peers.map (·.id)).Nodup) (hi : peers[i]? = some a) {q : RouteDst → Prop} {id : Str} :
    (∃ j b, peers[j]? = some b ∧ j ≠ i ∧ b.id = id ∧ ∃ g ∈ routed p overlay a b, q g) ↔
      ∃ b ∈ seenBy p overlay a peers, b.id = id ∧ ∃ g ∈ routed p overlay a b, q g := by
  constructor
  · intro h
    obtain ⟨j, b, hj, hji, hid, g, hg, hq⟩ := h
    refine ⟨b, mem_seenBy.mpr ⟨List.mem_of_getElem? hj, fun he => hji ((index_eq_iff hids hj hi).mpr he), ?_⟩, hid, g, hg, hq⟩
    exact seen_iff.mpr (.inl (.inr (List.ne_nil_of_mem hg)))
  · intro h
    obtain ⟨b, hb, hid, g, hg, hq⟩ := h
    obtain ⟨hb, hne, -⟩ := mem_seenBy.mp hb
    obtain ⟨j, hj⟩ := List.mem_iff_getElem?.mp hb
    exact ⟨j, b, hj, fun he => hne ((index_eq_iff hids hj hi).mp he), hid, g, hg, hq⟩

end

/-! ## Two lists with the same visible peers -/

section

variable {p : Policy} {overlay : Prefix} {P Q : List Peer} {i j : Nat} {a : Peer} (hP : (P.map (·.id)).Nodup)
  (hQ : (Q.map (·.id)).Nodup) (hi : P[i]? = some a) (hj : Q[j]? = some a) (h : seenBy p overlay a P = seenBy p overlay a Q)
include hP hQ hi hj h

theorem filterFor_of_seen (hw : WellFormed p) (S T : RangeSort) :
    (compileWith p P overlay).filterFor S a.id = (compileWith p Q overlay).filterFor T a.id := by
  rw [filterFor_seenBy hw S S hP hi, filterFor_seenBy hw T S hQ hj, h]

theorem forwardFor_of_seen (hw : WellFormed p) (S T : RangeSort) :
    (compileWith p P overlay).forwardFor S a.id = (compileWith p Q overlay).forwardFor T a.id := by
  unfold Compiled.forwardFor
  rw [lookup_index hP hi, lookup_index hQ hj]
  show List.insertionSort _ (forwardRules S (P.zipIdx.flatMap _)) = List.insertionSort _ (forwardRules T (Q.zipIdx.flatMap _))
  rw [forwardRules_sort S T (hw.forwardEntries_proper hi), forwardEntries_seenBy hP hi, forwardEntries_seenBy hQ hj, h]

theorem routesFor_of_seen (hw : WellFormed p) (T U : RouteSort) :
    (compileWith p P overlay).routesFor T a.id = (compileWith p Q overlay).routesFor U a.id := by
  unfold Compiled.routesFor
  rw [lookup_index hP hi, lookup_index hQ hj]
  refine routes_unique T U (fun x hx => ?_) fun x => ?_
  · obtain ⟨_, _, _, _, _, g, hg, hint, hroute⟩ := (mem_viaCandidates hi).mp hx
    rw [← hroute]
    exact hw.routed_isV4 hg hint
  · rw [mem_viaCandidates hi, mem_viaCandidates hj]
    unfold Leads
    rw [router_seenBy hP hi, router_seenBy hQ hj, h]

theorem exitNodesFor_of_seen : (compileWith p P overlay).exitNodesFor a.id = (compileWith p Q overlay).exitNodesFor a.id := by
  unfold Compiled.exitNodesFor
  rw [lookup_index hP hi, lookup_index hQ hj]
  refine exitNodes_unique fun id => ?_
  rw [mem_exitCandidates hi, mem_exitCandidates hj, router_seenBy hP hi, router_seenBy hQ hj, h]

end

end Thawr.Control.Policy
