/-
# What is blocked from the start, in any graph

`detect_and_block_cycles` propagates from the leaves to the nodes all of whose
dependencies were found before, in rounds, and blocks the rest.  Here the graph
is any `StableGraph`, whatever keys its nodes have: the rounds come to an end
(`rounds_eq`), what they find is what leads into no cycle (`mem_rounds_iff`),
and the rest is blocked (`blocked_iff_reachesCycle`).
-/

import Mise.Util.DepsGraph

namespace Mise

open Lib

namespace StableGraph

variable {ν : Type}

/-- An edge of the graph. -/
def Edge (g : StableGraph ν) (i j : ℕ) : Prop := (i, j) ∈ g.edges

/-- An edge ends at nodes of the graph. -/
def EdgesInside (g : StableGraph ν) : Prop :=
  ∀ i j, g.Edge i j → i ∈ g.nodeIndices ∧ j ∈ g.nodeIndices

end StableGraph

namespace DepsGraph

variable {κ ν : Type} {graph : StableGraph ν}

/-- One round of the propagation over all indices. -/
def round (graph : StableGraph ν) (found : List ℕ) : List ℕ :=
  graph.nodeIndices.foldl (propagateAt graph) found

/-- The nodes without dependencies. -/
def leaves (graph : StableGraph ν) : List ℕ :=
  graph.nodeIndices.filter fun i => (graph.outgoing i).isEmpty

/-- The loop of the propagation, for at most so many rounds. -/
def rounds (graph : StableGraph ν) (fuel : ℕ) : List ℕ :=
  saturate (round graph) fuel (leaves graph)

/-- What the propagation keeps true of the indices it has found. -/
structure Found (graph : StableGraph ν) (found : List ℕ) : Prop where
  nodup : found.Nodup
  inside : ∀ i ∈ found, i ∈ graph.nodeIndices
  free : ∀ i ∈ found, ¬ ReachesCycle graph.Edge i

theorem found_leaves (graph : StableGraph ν) : Found graph (leaves graph) := by
  refine ⟨graph.nodup_nodeIndices.filter _, fun i hi => List.mem_of_mem_filter hi,
    fun i hi hreach => ?_⟩
  obtain ⟨j, hij, -⟩ := hreach.exists_step
  have hnil := List.isEmpty_iff.1 (List.mem_filter.1 hi).2
  have hj : j ∈ graph.outgoing i := StableGraph.mem_outgoing.2 hij
  rw [hnil] at hj
  exact List.not_mem_nil hj

/-- One index of a round keeps it. -/
theorem Found.propagateAt {found : List ℕ} (h : Found graph found) {i : ℕ}
    (hi : i ∈ graph.nodeIndices) : Found graph (propagateAt graph found i) := by
  rw [DepsGraph.propagateAt]
  split_ifs with hnew
  · obtain ⟨hnot, hall, -⟩ := hnew
    refine ⟨h.nodup.append (List.nodup_singleton i) (by simpa using hnot), fun j hj => ?_,
      fun j hj hreach => ?_⟩
    · rcases List.mem_append.1 hj with hj | hj
      · exact h.inside j hj
      · exact List.mem_singleton.1 hj ▸ hi
    · rcases List.mem_append.1 hj with hj | hj
      · exact h.free j hj hreach
      · obtain rfl := List.mem_singleton.1 hj
        -- the first step towards the cycle leads to an index found before
        obtain ⟨d, hjd, hd⟩ := hreach.exists_step
        exact h.free d (hall d (StableGraph.mem_outgoing.2 hjd)) hd
  · exact h

theorem Found.foldl {l found : List ℕ} (h : Found graph found)
    (hl : ∀ i ∈ l, i ∈ graph.nodeIndices) :
    Found graph (l.foldl (DepsGraph.propagateAt graph) found) := by
  induction l generalizing found with
  | nil => exact h
  | cons i l ih =>
    obtain ⟨hi, hl⟩ := List.forall_mem_cons.1 hl
    exact ih (h.propagateAt hi) hl

/-- **The rounds come to an end**: after one for every node, and one more, a round
adds nothing. -/
theorem rounds_spec (graph : StableGraph ν) {fuel : ℕ} (hfuel : graph.nodeCount < fuel) :
    Found graph (rounds graph fuel) ∧ round graph (rounds graph fuel) = rounds graph fuel := by
  refine pass_saturate (V := graph.nodeIndices.toFinset)
    (fun found h => ⟨h.foldl fun i hi => hi, (foldl_propagateAt_spec graph _ found).1⟩)
    (fun found h => ⟨h.nodup, fun i hi => List.mem_toFinset.2 (h.inside i hi)⟩) fuel
    (found_leaves graph) ?_
  rw [List.toFinset_card_of_nodup graph.nodup_nodeIndices, ← StableGraph.nodeCount]
  omega

/-- **What the rounds find leads into no cycle, and they find all of it.** -/
theorem mem_rounds_iff (hinside : graph.EdgesInside) {fuel : ℕ} (hfuel : graph.nodeCount < fuel)
    {i : ℕ} (hi : i ∈ graph.nodeIndices) :
    i ∈ rounds graph fuel ↔ ¬ ReachesCycle graph.Edge i := by
  obtain ⟨hfound, hfix⟩ := rounds_spec graph hfuel
  have hleaves : leaves graph <+: rounds graph fuel :=
    saturate_induction (fun found h => h.trans (foldl_propagateAt_spec graph _ found).1) _
      (List.prefix_refl _)
  refine mem_iff_not_reachesCycle (V := graph.nodeIndices.toFinset) (· ∈ rounds graph fuel)
    (fun a _ b hab => List.mem_toFinset.2 (hinside a b hab).2) (fun a _ ha => hfound.free a ha)
    (fun a ha hall => ?_) (List.mem_toFinset.2 hi)
  have hin := List.mem_toFinset.1 ha
  by_contra hnot
  have hnil := (foldl_propagateAt_spec graph graph.nodeIndices _).2 hfix a hin hnot
    fun b hb => hall b (StableGraph.mem_outgoing.1 hb)
  exact hnot (hleaves.subset (List.mem_filter.2 ⟨hin, by rw [hnil]; rfl⟩))

/-- In a finite graph without cycles no cycle is reached. -/
theorem not_reachesCycle (hacyclic : ¬ ∃ i, Relation.TransGen graph.Edge i i) (i : ℕ) :
    ¬ ReachesCycle graph.Edge i := fun ⟨j, _, hj⟩ => hacyclic ⟨j, hj⟩

variable [DecidableEq κ]

/-- **What is blocked:** what leads into a cycle. -/
theorem mem_blocked_iff (g : DepsGraph κ ν) (hinside : g.graph.EdgesInside)
    {isCyclicDirected : StableGraph ν → Bool}
    (hcyc : isCyclicDirected g.graph = true ↔ ∃ i, Relation.TransGen g.graph.Edge i i) (k : κ) :
    k ∈ (detectAndBlockCycles isCyclicDirected g).blocked ↔
      k ∈ g.blocked ∨ ∃ i n, g.graph.nodeWeight i = some n ∧ g.keyFn n = k ∧
        ReachesCycle g.graph.Edge i := by
  rw [detectAndBlockCycles]
  cases hacyclic : isCyclicDirected g.graph with
  | false =>
    -- the early return: no node leads into a cycle
    have hnone : ¬ ∃ i, Relation.TransGen g.graph.Edge i i := fun h =>
      Bool.false_ne_true (hacyclic.symm.trans (hcyc.2 h))
    exact (or_iff_left fun ⟨i, _, _, _, hi⟩ => not_reachesCycle hnone i hi).symm
  | true =>
    have hbad : ∀ i ∈ g.graph.nodeIndices,
        (i ∉ canReachLeaf g.graph ↔ ReachesCycle g.graph.Edge i) := fun i hi => by
      rw [show canReachLeaf g.graph = rounds g.graph (g.graph.nodeCount + 1) from rfl,
        mem_rounds_iff hinside (Nat.lt_succ_self _) hi, not_not]
    refine (mem_foldl_block g.keyFn _ g.blocked k).trans (or_congr_right ?_)
    constructor
    · rintro ⟨n, hn, rfl⟩
      obtain ⟨i, hi, hw⟩ := List.mem_filterMap.1 hn
      obtain ⟨hin, hnot⟩ := List.mem_filter.1 hi
      exact ⟨i, n, hw, rfl, (hbad i hin).1 (of_decide_eq_true hnot)⟩
    · rintro ⟨i, n, hw, rfl, hreach⟩
      have hin := StableGraph.mem_nodeIndices.2 ⟨n, hw⟩
      exact ⟨n, List.mem_filterMap.2 ⟨i, List.mem_filter.2 ⟨hin,
        decide_eq_true ((hbad i hin).2 hreach)⟩, hw⟩, rfl⟩

/-- **Exactly the nodes that lead into a cycle are blocked**, and the loop that
finds the others comes to an end: from `node_count + 1` rounds on nothing
changes. -/
theorem blocked_iff_reachesCycle (g : DepsGraph κ ν) (hinside : g.graph.EdgesInside)
    (isCyclicDirected : StableGraph ν → Bool)
    (hcyc : isCyclicDirected g.graph = true ↔ ∃ i, Relation.TransGen g.graph.Edge i i) :
    (∀ fuel, g.graph.nodeCount < fuel → round g.graph (rounds g.graph fuel) =
        rounds g.graph fuel ∧ rounds g.graph fuel = canReachLeaf g.graph) ∧
      ∀ k, k ∈ (detectAndBlockCycles isCyclicDirected g).blocked ↔
        k ∈ g.blocked ∨ ∃ i n, g.graph.nodeWeight i = some n ∧ g.keyFn n = k ∧
          ReachesCycle g.graph.Edge i := by
  refine ⟨fun fuel hfuel => ⟨(rounds_spec g.graph hfuel).2, ?_⟩, mem_blocked_iff g hinside hcyc⟩
  exact saturate_eq_of_le (rounds_spec g.graph (Nat.lt_succ_self g.graph.nodeCount)).2 hfuel

/-- A cycle of two nodes, one that leads into it, and a leaf. -/
def cyclicGraph : DepsGraph ℕ ℕ :=
  ⟨⟨[some 0, some 1, some 2, some 3], [(0, 1), (1, 0), (2, 0), (2, 3)]⟩, IndexMap.empty, ∅, ∅, [],
    id⟩

theorem blocked_iff_reachesCycle_sample :
    2 ∈ (detectAndBlockCycles (fun _ => true) cyclicGraph).blocked := by
  have hedge : ∀ i j, (i, j) ∈ cyclicGraph.graph.edges → cyclicGraph.graph.Edge i j :=
    fun _ _ h => h
  have hcycle : Relation.TransGen cyclicGraph.graph.Edge 0 0 :=
    .tail (.single (hedge 0 1 (by decide))) (hedge 1 0 (by decide))
  have hinside : cyclicGraph.graph.EdgesInside := fun i j h => by
    have hall : ∀ e ∈ cyclicGraph.graph.edges,
        e.1 ∈ cyclicGraph.graph.nodeIndices ∧ e.2 ∈ cyclicGraph.graph.nodeIndices := by decide
    exact hall (i, j) h
  refine ((blocked_iff_reachesCycle cyclicGraph hinside (fun _ => true)
    (iff_of_true rfl ⟨0, hcycle⟩)).2 2).2 (.inr ⟨2, 2, by decide, rfl, 0, ?_, hcycle⟩)
  exact .single (hedge 2 0 (by decide))

/-! ### By the keys -/

variable {g : DepsGraph κ ν} {dep : κ → κ → Prop}

/-- The edges between indices are the dependencies between their keys. -/
theorem Indexed.edgesInside (h : g.Indexed dep) : g.graph.EdgesInside := fun i j hij => by
  obtain ⟨a, b, ha, hb, -⟩ := (h.edges i j).1 hij
  exact ⟨h.mem_nodeIndices.2 ⟨a, ha⟩, h.mem_nodeIndices.2 ⟨b, hb⟩⟩

/-- A cycle is reached from a key exactly if it is from the key's index. -/
theorem Indexed.reachesCycle_iff (h : g.Indexed dep)
    (hdep : ∀ a b, dep a b → g.Holds a ∧ g.Holds b) {k : κ} {i : ℕ}
    (hk : g.nodeIndices.get k = some i) :
    ReachesCycle g.graph.Edge i ↔ ReachesCycle dep k := by
  have hstep : ∀ {a j l}, g.nodeIndices.get a = some j → g.graph.Edge j l →
      ∃ b, g.nodeIndices.get b = some l ∧ dep a b := fun ha hjl => by
    obtain ⟨a', b, ha', hb, hab⟩ := (h.edges _ _).1 hjl
    obtain rfl := h.key_unique ha' ha
    exact ⟨b, hb, hab⟩
  have hdown : ∀ {a j l}, g.nodeIndices.get a = some j → Relation.TransGen g.graph.Edge j l →
      ∃ b, g.nodeIndices.get b = some l ∧ Relation.TransGen dep a b := fun ha hjl => by
    induction hjl with
    | single hjl =>
      obtain ⟨b, hb, hab⟩ := hstep ha hjl
      exact ⟨b, hb, .single hab⟩
    | tail _ hlm ih =>
      obtain ⟨b, hb, hab⟩ := ih
      obtain ⟨c, hc, hbc⟩ := hstep hb hlm
      exact ⟨c, hc, hab.tail hbc⟩
  -- up again, by the indices of the keys
  let index : κ → ℕ := fun a => (g.nodeIndices.get a).getD 0
  have hindex : ∀ {a j}, g.nodeIndices.get a = some j → index a = j := fun ha => by
    simp only [index, ha, Option.getD_some]
  have hedge : ∀ a b, dep a b → g.graph.Edge (index a) (index b) := fun a b hab => by
    obtain ⟨⟨j, hj⟩, ⟨l, hl⟩⟩ := hdep a b hab
    rw [hindex hj, hindex hl]
    exact (h.edges j l).2 ⟨a, b, hj, hl, hab⟩
  constructor
  · rintro ⟨j, hij, hjj⟩
    obtain ⟨a, ha, hka⟩ : ∃ a, g.nodeIndices.get a = some j ∧ Relation.ReflTransGen dep k a := by
      rcases Relation.reflTransGen_iff_eq_or_transGen.1 hij with rfl | hij
      · exact ⟨k, hk, .refl⟩
      · obtain ⟨a, ha, hka⟩ := hdown hk hij
        exact ⟨a, ha, hka.to_reflTransGen⟩
    obtain ⟨b, hb, hab⟩ := hdown ha hjj
    obtain rfl := h.key_unique hb ha
    exact ⟨_, hka, hab⟩
  · rintro ⟨a, hka, haa⟩
    exact ⟨index a, hindex hk ▸ hka.lift index hedge, haa.lift index hedge⟩

/-- **What is blocked from the start:** the keys that can reach a cycle.
`isCyclicDirected` is to say whether the graph has a cycle. -/
theorem mem_blocked_detectAndBlockCycles (h : g.Indexed dep)
    (hdep : ∀ a b, dep a b → g.Holds a ∧ g.Holds b) {isCyclicDirected : StableGraph ν → Bool}
    (hcyc : isCyclicDirected g.graph = true ↔
      ∃ i, Relation.TransGen (fun a b => (a, b) ∈ g.graph.edges) i i) (k : κ) :
    k ∈ (detectAndBlockCycles isCyclicDirected g).blocked ↔
      k ∈ g.blocked ∨ g.Holds k ∧ ReachesCycle dep k := by
  rw [mem_blocked_iff g h.edgesInside hcyc]
  refine or_congr_right ?_
  constructor
  · rintro ⟨i, n, hn, rfl, hreach⟩
    have hk := (h.index (g.keyFn n) i).2 ⟨n, hn, rfl⟩
    exact ⟨⟨i, hk⟩, (h.reachesCycle_iff hdep hk).1 hreach⟩
  · rintro ⟨⟨i, hk⟩, hreach⟩
    obtain ⟨n, hn, hkey⟩ := (h.index k i).1 hk
    exact ⟨i, n, hn, hkey, (h.reachesCycle_iff hdep hk).2 hreach⟩

end DepsGraph

end Mise
