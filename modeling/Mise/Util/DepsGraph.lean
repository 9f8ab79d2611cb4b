/-
# A dependency graph that emits what is ready

`DepsGraph` in `crates/mise-util/src/deps_graph.rs`, over petgraph's
`StableGraph`.

The graph holds the nodes that have not completed, with an edge from a node to
each dependency.  A node without outgoing edges is ready and is sent once.  A
node that can reach a cycle is blocked from the start; when a node fails, all
that depend on it are blocked, and it leaves the graph like one that succeeded.
Once every node left is blocked the stream is closed with `None`.

`is_cyclic_directed` is petgraph's and a parameter here.
-/

import Mise.Lib.Digraph
import Mise.Lib.IndexMap

namespace Mise

open Lib

/-! ### `petgraph::stable_graph::StableGraph` -/

/-- A graph whose node indices survive the removal of other nodes: a removed
node leaves its slot empty.  The latest edge comes first, as petgraph iterates
over neighbours. -/
structure StableGraph (ν : Type) where
  nodes : List (Option ν)
  edges : List (ℕ × ℕ)

namespace StableGraph

variable {ν : Type}

def empty : StableGraph ν := ⟨[], []⟩

/-- `node_weight`. -/
def nodeWeight (g : StableGraph ν) (i : ℕ) : Option ν := (g.nodes[i]?).join

/-- `node_indices`. -/
def nodeIndices (g : StableGraph ν) : List ℕ :=
  (List.range g.nodes.length).filter fun i => (g.nodeWeight i).isSome

/-- `node_count`. -/
def nodeCount (g : StableGraph ν) : ℕ := g.nodeIndices.length

/-- `add_node`, while no slot is empty. -/
def addNode (g : StableGraph ν) (n : ν) : StableGraph ν × ℕ :=
  (⟨g.nodes ++ [some n], g.edges⟩, g.nodes.length)

/-- `update_edge` with weight `()`. -/
def updateEdge (g : StableGraph ν) (a b : ℕ) : StableGraph ν :=
  if (a, b) ∈ g.edges then g else ⟨g.nodes, (a, b) :: g.edges⟩

/-- `neighbors_directed(_, Outgoing)`. -/
def outgoing (g : StableGraph ν) (i : ℕ) : List ℕ := (g.edges.filter fun e => e.1 = i).map Prod.snd

/-- `neighbors_directed(_, Incoming)`. -/
def incoming (g : StableGraph ν) (i : ℕ) : List ℕ := (g.edges.filter fun e => e.2 = i).map Prod.fst

/-- `externals(Outgoing)`. -/
def externals (g : StableGraph ν) : List ℕ := g.nodeIndices.filter fun i => (g.outgoing i).isEmpty

/-- `remove_node`, with its edges. -/
def removeNode (g : StableGraph ν) (i : ℕ) : StableGraph ν :=
  ⟨g.nodes.set i none, g.edges.filter fun e => e.1 ≠ i ∧ e.2 ≠ i⟩

variable {g : StableGraph ν} {i j : ℕ}

@[simp] theorem mem_nodeIndices : i ∈ g.nodeIndices ↔ ∃ n, g.nodeWeight i = some n := by
  rw [nodeIndices, List.mem_filter, List.mem_range, Option.isSome_iff_exists]
  refine ⟨fun h => h.2, fun h => ⟨?_, h⟩⟩
  obtain ⟨n, hn⟩ := h
  rw [nodeWeight, Option.join_eq_some_iff] at hn
  exact (List.getElem?_eq_some_iff.1 hn).1

theorem nodup_nodeIndices (g : StableGraph ν) : g.nodeIndices.Nodup :=
  List.nodup_range.filter _

@[simp] theorem mem_outgoing : j ∈ g.outgoing i ↔ (i, j) ∈ g.edges := by
  simp [outgoing]

@[simp] theorem mem_incoming : j ∈ g.incoming i ↔ (j, i) ∈ g.edges := by
  simp [incoming]

theorem nodeWeight_addNode (g : StableGraph ν) (n : ν) (i : ℕ) :
    (g.addNode n).1.nodeWeight i = if i = g.nodes.length then some n else g.nodeWeight i := by
  rw [addNode, nodeWeight, nodeWeight, List.getElem?_append]
  split_ifs with h₁ h₂ h₂
  · omega
  · rfl
  · simp [h₂]
  · have : 1 ≤ i - g.nodes.length := by omega
    rw [List.getElem?_eq_none (by simpa using this), List.getElem?_eq_none (by omega)]

theorem nodeWeight_removeNode (g : StableGraph ν) (i j : ℕ) :
    (g.removeNode i).nodeWeight j = if j = i then none else g.nodeWeight j := by
  rw [removeNode, nodeWeight, nodeWeight, List.getElem?_set]
  split_ifs with h₁ h₂ h₃ h₃ h₃ <;> simp_all

theorem mem_edges_removeNode {e : ℕ × ℕ} :
    e ∈ (g.removeNode i).edges ↔ e ∈ g.edges ∧ e.1 ≠ i ∧ e.2 ≠ i := by
  simp [removeNode]

theorem mem_edges_updateEdge {a b : ℕ} {e : ℕ × ℕ} :
    e ∈ (g.updateEdge a b).edges ↔ e = (a, b) ∨ e ∈ g.edges := by
  rw [updateEdge]
  split_ifs with h
  · refine ⟨Or.inr, fun he => ?_⟩
    rcases he with rfl | he
    · exact h
    · exact he
  · simp

@[simp] theorem nodeWeight_updateEdge (g : StableGraph ν) (a b i : ℕ) :
    (g.updateEdge a b).nodeWeight i = g.nodeWeight i := by
  rw [updateEdge]
  split_ifs <;> rfl

end StableGraph

/-! ### The scheduler -/

/-- `DepsGraph`.  `tx` is the channel of the current receiver, by the messages
sent into it. -/
structure DepsGraph (κ ν : Type) where
  graph : StableGraph ν
  nodeIndices : IndexMap κ ℕ
  sent : Finset κ
  blocked : Finset κ
  tx : List (Option ν)
  keyFn : ν → κ

namespace DepsGraph

variable {κ ν : Type} [DecidableEq κ]

/-- One node of `new`: the first of its key. -/
def addNode (s : StableGraph ν × IndexMap κ ℕ) (e : κ × ν) : StableGraph ν × IndexMap κ ℕ :=
  if s.2.containsKey e.1 then s
  else
    let (graph, idx) := s.1.addNode e.2
    (graph, s.2.insert e.1 idx)

/-- One edge of `new`: ignored when it starts at an unknown key or is a
self-dependency, refused when it ends at an unknown key. -/
def addEdge [ToString κ] (indices : IndexMap κ ℕ) (graph : StableGraph ν) (e : κ × κ) :
    Except String (StableGraph ν) :=
  match indices.get e.1 with
  | none => .ok graph
  | some fromIdx =>
      match indices.get e.2 with
      | none =>
          let (fromKey, toKey) := e
          .error s!"'{fromKey}' depends on unknown '{toKey}'"
      | some toIdx => .ok (if e.1 ≠ e.2 then graph.updateEdge fromIdx toIdx else graph)

/-- One index of a round of the propagation: a node with dependencies, all of
which can reach a leaf. -/
def propagateAt (graph : StableGraph ν) (canReachLeaf : List ℕ) (i : ℕ) : List ℕ :=
  if i ∉ canReachLeaf ∧ (∀ j ∈ graph.outgoing i, j ∈ canReachLeaf) ∧ graph.outgoing i ≠ [] then
    canReachLeaf ++ [i]
  else canReachLeaf

/-- The nodes found not to lead into a cycle. -/
def canReachLeaf (graph : StableGraph ν) : List ℕ :=
  saturate (fun s => graph.nodeIndices.foldl (propagateAt graph) s) (graph.nodeCount + 1)
    (graph.nodeIndices.filter fun i => (graph.outgoing i).isEmpty)

/-- `detect_and_block_cycles`. -/
def detectAndBlockCycles (isCyclicDirected : StableGraph ν → Bool) (g : DepsGraph κ ν) :
    DepsGraph κ ν :=
  if !isCyclicDirected g.graph then g
  else
    let good := canReachLeaf g.graph
    let bad := (g.graph.nodeIndices.filter fun i => i ∉ good).filterMap g.graph.nodeWeight
    { g with blocked := bad.foldl (fun b n => insert (g.keyFn n) b) g.blocked }

/-- The nodes of `new`, with their indices. -/
def addNodes (nodes : List (κ × ν)) : StableGraph ν × IndexMap κ ℕ :=
  nodes.foldl addNode (StableGraph.empty, IndexMap.empty)

/-- The graph of `new`. -/
def buildGraph [ToString κ] (nodes : List (κ × ν)) (edges : List (κ × κ)) :
    Except String (StableGraph ν) :=
  edges.foldlM (addEdge (addNodes nodes).2) (addNodes nodes).1

/-- `DepsGraph::new`. -/
def new [ToString κ] (isCyclicDirected : StableGraph ν → Bool) (nodes : List (κ × ν))
    (edges : List (κ × κ)) (keyFn : ν → κ) : Except String (DepsGraph κ ν) := do
  let graph ← buildGraph nodes edges
  return detectAndBlockCycles isCyclicDirected ⟨graph, (addNodes nodes).2, ∅, ∅, [], keyFn⟩

variable (g : DepsGraph κ ν)

/-- `find_leaves`. -/
def findLeaves : List (κ × ν) :=
  g.graph.externals.filterMap fun i => (g.graph.nodeWeight i).map fun n => (g.keyFn n, n)

/-- `is_empty`. -/
def isEmpty : Bool := g.graph.nodeCount == 0

/-- `is_all_done`. -/
def isAllDone : Bool :=
  g.isEmpty || g.graph.nodeIndices.all fun i =>
    (g.graph.nodeWeight i).all fun n => decide (g.keyFn n ∈ g.blocked)

/-- One leaf of `emit_leaves`. -/
def emitLeaf (g : DepsGraph κ ν) (leaf : κ × ν) : DepsGraph κ ν :=
  if leaf.1 ∈ g.sent ∨ leaf.1 ∈ g.blocked then g
  else { g with sent := insert leaf.1 g.sent, tx := g.tx ++ [some leaf.2] }

/-- `emit_leaves`. -/
def emitLeaves : DepsGraph κ ν :=
  let g := g.findLeaves.foldl emitLeaf g
  if g.isAllDone then { g with tx := g.tx ++ [none] } else g

/-- `subscribe`: a new channel. -/
def subscribe : DepsGraph κ ν := ({ g with tx := [] } : DepsGraph κ ν).emitLeaves

/-- `remove_node`. -/
def removeNode (key : κ) : DepsGraph κ ν :=
  match g.nodeIndices.get key with
  | some idx =>
      { g with
        graph := g.graph.removeNode idx
        nodeIndices := g.nodeIndices.filterKeys fun k => k ≠ key }
  | none => g

/-- `get_transitive_dependents`: one round for the start and one for every
node is enough. -/
def getTransitiveDependents (startIdx : ℕ) : List ℕ :=
  explore g.graph.incoming (g.graph.nodeCount + 1) [] [startIdx]

/-- The first half of `complete_failure`. -/
def blockDependents (key : κ) : DepsGraph κ ν :=
  match g.nodeIndices.get key with
  | some idx =>
      let dependents := (g.getTransitiveDependents idx).filterMap g.graph.nodeWeight
      { g with blocked := dependents.foldl (fun b n => insert (g.keyFn n) b) g.blocked }
  | none => g

/-- `complete_success`. -/
def completeSuccess (key : κ) : DepsGraph κ ν := (g.removeNode key).emitLeaves

/-- `complete_failure`. -/
def completeFailure (key : κ) : DepsGraph κ ν := ((g.blockDependents key).removeNode key).emitLeaves

/-! ### The graph by its keys -/

/-- Whether a key's node is still in the graph. -/
def Holds (k : κ) : Prop := ∃ i, g.nodeIndices.get k = some i

/-- The index map and the graph agree, and the edges are the dependencies
between nodes that are still there. -/
structure Indexed (dep : κ → κ → Prop) : Prop where
  index : ∀ k i, g.nodeIndices.get k = some i ↔ ∃ n, g.graph.nodeWeight i = some n ∧ g.keyFn n = k
  edges : ∀ i j, (i, j) ∈ g.graph.edges ↔
    ∃ a b, g.nodeIndices.get a = some i ∧ g.nodeIndices.get b = some j ∧ dep a b

variable {g} {dep : κ → κ → Prop}

namespace Indexed

variable (h : g.Indexed dep)

include h

theorem key_unique {a b : κ} {i : ℕ} (ha : g.nodeIndices.get a = some i)
    (hb : g.nodeIndices.get b = some i) : a = b := by
  obtain ⟨n, hn, rfl⟩ := (h.index a i).1 ha
  obtain ⟨m, hm, rfl⟩ := (h.index b i).1 hb
  rw [Option.some.inj (hn.symm.trans hm)]

theorem mem_nodeIndices {i : ℕ} : i ∈ g.graph.nodeIndices ↔ ∃ k, g.nodeIndices.get k = some i := by
  rw [StableGraph.mem_nodeIndices]
  constructor
  · rintro ⟨n, hn⟩
    exact ⟨g.keyFn n, (h.index _ _).2 ⟨n, hn, rfl⟩⟩
  · rintro ⟨k, hk⟩
    obtain ⟨n, hn, -⟩ := (h.index k i).1 hk
    exact ⟨n, hn⟩

theorem edge_of_dep {a b : κ} {i : ℕ} (ha : g.nodeIndices.get a = some i) (hab : dep a b)
    (hb : g.Holds b) : ∃ j, g.nodeIndices.get b = some j ∧ (i, j) ∈ g.graph.edges := by
  obtain ⟨j, hj⟩ := hb
  exact ⟨j, hj, (h.edges i j).2 ⟨a, b, ha, hj, hab⟩⟩

theorem outgoing_eq_nil {k : κ} {i : ℕ} (hk : g.nodeIndices.get k = some i) :
    g.graph.outgoing i = [] ↔ ∀ d, dep k d → ¬ g.Holds d := by
  rw [List.eq_nil_iff_forall_not_mem]
  constructor
  · intro hnil d hd hd'
    obtain ⟨j, -, hij⟩ := h.edge_of_dep hk hd hd'
    exact hnil j (StableGraph.mem_outgoing.2 hij)
  · intro hnone j hj
    obtain ⟨a, b, ha, hb, hab⟩ := (h.edges i j).1 (StableGraph.mem_outgoing.1 hj)
    exact hnone b (h.key_unique ha hk ▸ hab) ⟨j, hb⟩

/-- **The leaves** are the nodes none of whose dependencies is left. -/
theorem mem_findLeaves {k : κ} {n : ν} :
    (k, n) ∈ g.findLeaves ↔ (∃ i, g.nodeIndices.get k = some i ∧ g.graph.nodeWeight i = some n) ∧
      ∀ d, dep k d → ¬ g.Holds d := by
  simp only [findLeaves, StableGraph.externals, List.mem_filterMap, List.mem_filter,
    Option.map_eq_some_iff, Prod.mk.injEq, List.isEmpty_iff]
  constructor
  · rintro ⟨i, ⟨-, hout⟩, n', hn', rfl, rfl⟩
    have hk := (h.index (g.keyFn n') i).2 ⟨n', hn', rfl⟩
    exact ⟨⟨i, hk, hn'⟩, (h.outgoing_eq_nil hk).1 hout⟩
  · rintro ⟨⟨i, hk, hn⟩, hd⟩
    obtain ⟨n', hn', hkey⟩ := (h.index k i).1 hk
    obtain rfl : n' = n := Option.some.inj (hn'.symm.trans hn)
    exact ⟨i, ⟨h.mem_nodeIndices.2 ⟨k, hk⟩, (h.outgoing_eq_nil hk).2 hd⟩, n', hn, hkey, rfl⟩

theorem nodup_findLeaves : (g.findLeaves.map Prod.fst).Nodup := by
  have hnd : g.graph.externals.Nodup := (g.graph.nodup_nodeIndices).filter _
  rw [findLeaves, List.map_filterMap]
  refine List.Nodup.filterMap ?_ hnd
  intro i j k hi hj
  simp only [Option.map_map, Option.mem_def, Option.map_eq_some_iff, Function.comp_apply] at hi hj
  obtain ⟨n, hn, rfl⟩ := hi
  obtain ⟨m, hm, hkey⟩ := hj
  have h₁ := (h.index (g.keyFn n) i).2 ⟨n, hn, rfl⟩
  have h₂ := (h.index (g.keyFn n) j).2 ⟨m, hm, hkey⟩
  exact Option.some.inj (h₁.symm.trans h₂)

/-- **All done** means that every node left is blocked. -/
theorem isAllDone_iff : g.isAllDone = true ↔ ∀ k, g.Holds k → k ∈ g.blocked := by
  have hall : (g.graph.nodeIndices.all fun i =>
      (g.graph.nodeWeight i).all fun n => decide (g.keyFn n ∈ g.blocked)) = true ↔
        ∀ k, g.Holds k → k ∈ g.blocked := by
    rw [List.all_eq_true]
    constructor
    · rintro hb k ⟨i, hi⟩
      obtain ⟨n, hn, rfl⟩ := (h.index k i).1 hi
      simpa [hn] using hb i (h.mem_nodeIndices.2 ⟨_, hi⟩)
    · intro hb i hi
      obtain ⟨k, hk⟩ := h.mem_nodeIndices.1 hi
      obtain ⟨n, hn, rfl⟩ := (h.index k i).1 hk
      simpa [hn] using hb _ ⟨i, hk⟩
  rw [isAllDone, Bool.or_eq_true, hall]
  refine ⟨fun hd => ?_, Or.inr⟩
  rcases hd with hd | hd
  · rintro k ⟨i, hi⟩
    have := h.mem_nodeIndices.2 ⟨k, hi⟩
    rw [isEmpty, beq_iff_eq, StableGraph.nodeCount, List.length_eq_zero_iff] at hd
    rw [hd] at this
    exact absurd this List.not_mem_nil
  · exact hd

end Indexed

/-! ### What each operation does -/

/-- The leaves a round of emission sends. -/
def ready (g : DepsGraph κ ν) : List (κ × ν) :=
  g.findLeaves.filter fun e => e.1 ∉ g.sent ∧ e.1 ∉ g.blocked

namespace Indexed

theorem mem_ready (h : g.Indexed dep) {k : κ} : k ∈ g.ready.map Prod.fst ↔
    g.Holds k ∧ (∀ d, dep k d → ¬ g.Holds d) ∧ k ∉ g.sent ∧ k ∉ g.blocked := by
  constructor
  · intro hk
    obtain ⟨⟨k, n⟩, he, rfl⟩ := List.mem_map.1 hk
    obtain ⟨hleaf, hok⟩ := List.mem_filter.1 he
    obtain ⟨⟨i, hi, -⟩, hd⟩ := h.mem_findLeaves.1 hleaf
    rw [decide_eq_true_eq] at hok
    exact ⟨⟨i, hi⟩, hd, hok.1, hok.2⟩
  · rintro ⟨⟨i, hi⟩, hd, hs, hb⟩
    obtain ⟨n, hn, -⟩ := (h.index k i).1 hi
    refine List.mem_map.2 ⟨(k, n), List.mem_filter.2 ⟨?_, decide_eq_true ⟨hs, hb⟩⟩, rfl⟩
    exact h.mem_findLeaves.2 ⟨⟨i, hi, hn⟩, hd⟩

theorem keyFn_of_mem_ready (h : g.Indexed dep) {e : κ × ν} (he : e ∈ g.ready) :
    g.keyFn e.2 = e.1 := by
  obtain ⟨⟨i, hi, hn⟩, -⟩ := h.mem_findLeaves.1 (List.mem_of_mem_filter he)
  obtain ⟨n, hn', hkey⟩ := (h.index e.1 i).1 hi
  rw [Option.some.inj (hn.symm.trans hn')]
  exact hkey

theorem nodup_ready (h : g.Indexed dep) : (g.ready.map Prod.fst).Nodup :=
  h.nodup_findLeaves.sublist (List.filter_sublist.map _)

end Indexed

/-- Sending leaves of distinct keys one after the other sends those that were
neither sent nor blocked. -/
theorem foldl_emitLeaf (l : List (κ × ν)) (hl : (l.map Prod.fst).Nodup) (g : DepsGraph κ ν) :
    l.foldl emitLeaf g =
      { g with
        sent := g.sent ∪ ((l.filter fun e => e.1 ∉ g.sent ∧ e.1 ∉ g.blocked).map Prod.fst).toFinset
        tx := g.tx ++ (l.filter fun e => e.1 ∉ g.sent ∧ e.1 ∉ g.blocked).map fun e => some e.2 } := by
  induction l generalizing g with
  | nil => simp
  | cons e l ih =>
      rw [List.map_cons, List.nodup_cons] at hl
      rw [List.foldl_cons, ih hl.2]
      by_cases hok : e.1 ∉ g.sent ∧ e.1 ∉ g.blocked
      · have hemit : emitLeaf g e =
            { g with sent := insert e.1 g.sent, tx := g.tx ++ [some e.2] } := by
          rw [emitLeaf, if_neg (by simpa [not_or] using hok)]
        -- No later leaf has this key, so what it adds to `sent` changes nothing for them.
        have hrest : (l.filter fun e' => e'.1 ∉ insert e.1 g.sent ∧ e'.1 ∉ g.blocked) =
            l.filter fun e' => e'.1 ∉ g.sent ∧ e'.1 ∉ g.blocked := by
          refine List.filter_congr fun e' he' => ?_
          have hne : e'.1 ≠ e.1 := fun heq => hl.1 (heq ▸ List.mem_map_of_mem he')
          simp [Finset.mem_insert, hne]
        rw [hemit, List.filter_cons_of_pos (by simpa using hok)]
        simp only [hrest, List.map_cons, List.toFinset_cons, Finset.insert_union,
          Finset.union_insert, List.append_assoc, List.singleton_append]
      · have hemit : emitLeaf g e = g := by
          rw [emitLeaf, if_pos (by by_contra hc; exact hok (not_or.1 hc))]
        rw [hemit, List.filter_cons_of_neg (by simpa using hok)]

/-- **Emission**, as one update. -/
theorem emitLeaves_eq (h : g.Indexed dep) :
    g.emitLeaves =
      { g with
        sent := g.sent ∪ (g.ready.map Prod.fst).toFinset
        tx := g.tx ++ (g.ready.map fun e => some e.2) ++ if g.isAllDone then [none] else [] } := by
  rw [emitLeaves, foldl_emitLeaf _ h.nodup_findLeaves, ← ready]
  have hdone : ({ g with
      sent := g.sent ∪ (g.ready.map Prod.fst).toFinset
      tx := g.tx ++ g.ready.map fun e => some e.2 } : DepsGraph κ ν).isAllDone = g.isAllDone := rfl
  simp only [hdone]
  split_ifs <;> simp

/-- A removal takes one key out. -/
theorem holds_removeNode {k q : κ} : (g.removeNode k).Holds q ↔ g.Holds q ∧ q ≠ k := by
  unfold removeNode
  cases hk : g.nodeIndices.get k with
  | none =>
      refine ⟨fun hq => ⟨hq, ?_⟩, fun hq => hq.1⟩
      rintro rfl
      obtain ⟨i, hi⟩ := hq
      rw [hk] at hi
      cases hi
  | some i =>
      simp only [Holds, IndexMap.get_filterKeys]
      by_cases hqk : q = k <;> simp [hqk]

@[simp] theorem removeNode_blocked (k : κ) : (g.removeNode k).blocked = g.blocked := by
  unfold removeNode
  split <;> rfl

@[simp] theorem removeNode_sent (k : κ) : (g.removeNode k).sent = g.sent := by
  unfold removeNode
  split <;> rfl

@[simp] theorem removeNode_tx (k : κ) : (g.removeNode k).tx = g.tx := by
  unfold removeNode
  split <;> rfl

@[simp] theorem removeNode_keyFn (k : κ) : (g.removeNode k).keyFn = g.keyFn := by
  unfold removeNode
  split <;> rfl

/-- Removing a node keeps the index of those that are left. -/
theorem Indexed.removeNode (h : g.Indexed dep) (k : κ) : (g.removeNode k).Indexed dep := by
  unfold DepsGraph.removeNode
  cases hk : g.nodeIndices.get k with
  | none => exact h
  | some i₀ =>
      have hget : ∀ q i, (g.nodeIndices.filterKeys fun q => q ≠ k).get q = some i ↔
          g.nodeIndices.get q = some i ∧ i ≠ i₀ := by
        intro q i
        rw [IndexMap.get_filterKeys]
        by_cases hq : q = k
        · subst hq
          simp [hk, eq_comm]
        · simp only [hq, ne_eq, not_false_eq_true, decide_true, if_true]
          refine ⟨fun hi => ⟨hi, ?_⟩, fun hi => hi.1⟩
          rintro rfl
          exact hq (h.key_unique hi hk)
      refine ⟨fun q i => ?_, fun i j => ?_⟩
      · simp only [hget, StableGraph.nodeWeight_removeNode, h.index]
        by_cases hi : i = i₀ <;> simp [hi]
      · simp only [StableGraph.mem_edges_removeNode, h.edges, hget]
        constructor
        · rintro ⟨⟨a, b, ha, hb, hab⟩, hi, hj⟩
          exact ⟨a, b, ⟨ha, hi⟩, ⟨hb, hj⟩, hab⟩
        · rintro ⟨a, b, ⟨ha, hi⟩, ⟨hb, hj⟩, hab⟩
          exact ⟨⟨a, b, ha, hb, hab⟩, hi, hj⟩

/-- Blocking a list of nodes. -/
theorem mem_foldl_block (keyFn : ν → κ) (ns : List ν) (b : Finset κ) (k : κ) :
    k ∈ ns.foldl (fun b n => insert (keyFn n) b) b ↔ k ∈ b ∨ ∃ n ∈ ns, keyFn n = k := by
  induction ns generalizing b with
  | nil => simp
  | cons n ns ih =>
      rw [List.foldl_cons, ih, Finset.mem_insert]
      simp only [List.mem_cons, exists_eq_or_imp, @eq_comm _ k]
      tauto

@[simp] theorem blockDependents_nodeIndices (k : κ) :
    (g.blockDependents k).nodeIndices = g.nodeIndices := by
  unfold blockDependents
  split <;> rfl

@[simp] theorem blockDependents_sent (k : κ) : (g.blockDependents k).sent = g.sent := by
  unfold blockDependents
  split <;> rfl

@[simp] theorem blockDependents_tx (k : κ) : (g.blockDependents k).tx = g.tx := by
  unfold blockDependents
  split <;> rfl

@[simp] theorem blockDependents_keyFn (k : κ) : (g.blockDependents k).keyFn = g.keyFn := by
  unfold blockDependents
  split <;> rfl

theorem Indexed.blockDependents (h : g.Indexed dep) (k : κ) :
    (g.blockDependents k).Indexed dep := by
  unfold DepsGraph.blockDependents
  split
  · exact ⟨h.index, h.edges⟩
  · exact h

/-- The keys that depend on a key through nodes that are still there. -/
def DependsOn (g : DepsGraph κ ν) (dep : κ → κ → Prop) (q k : κ) : Prop :=
  Relation.TransGen (fun a b => g.Holds a ∧ g.Holds b ∧ dep a b) q k

/-- Going up the edges is going to the dependents. -/
theorem Indexed.transGen_incoming_iff (h : g.Indexed dep) {k q : κ} {i j : ℕ}
    (hk : g.nodeIndices.get k = some i) (hq : g.nodeIndices.get q = some j) :
    Relation.TransGen (fun a b => b ∈ g.graph.incoming a) i j ↔ g.DependsOn dep q k := by
  simp only [StableGraph.mem_incoming]
  constructor
  · intro hij
    induction hij generalizing q with
    | single hji =>
        obtain ⟨a, b, ha, hb, hab⟩ := (h.edges _ _).1 hji
        obtain rfl := h.key_unique ha hq
        obtain rfl := h.key_unique hb hk
        exact Relation.TransGen.single ⟨⟨_, ha⟩, ⟨_, hb⟩, hab⟩
    | tail _ hcb ih =>
        obtain ⟨a, b, ha, hb, hab⟩ := (h.edges _ _).1 hcb
        obtain rfl := h.key_unique ha hq
        exact (ih hb).head ⟨⟨_, ha⟩, ⟨_, hb⟩, hab⟩
  · intro hdep
    induction hdep using Relation.TransGen.head_induction_on generalizing j with
    | single hab => exact Relation.TransGen.single ((h.edges _ _).2 ⟨_, _, hq, hk, hab.2.2⟩)
    | head hac _ ih =>
        obtain ⟨-, ⟨l, hl⟩, hdep⟩ := hac
        exact (ih hl).tail ((h.edges _ _).2 ⟨_, _, hq, hl, hdep⟩)

/-- **Failure blocks the dependents**, transitively. -/
theorem mem_blocked_blockDependents (h : g.Indexed dep) {k : κ} (hk : g.Holds k) (q : κ) :
    q ∈ (g.blockDependents k).blocked ↔ q ∈ g.blocked ∨ g.DependsOn dep q k := by
  obtain ⟨i, hi⟩ := hk
  have hV : ∀ a, ∀ b ∈ g.graph.incoming a, b ∈ g.graph.nodeIndices.toFinset := by
    intro a b hb
    obtain ⟨p, -, hp, -, -⟩ := (h.edges b a).1 (StableGraph.mem_incoming.1 hb)
    exact List.mem_toFinset.2 (h.mem_nodeIndices.2 ⟨p, hp⟩)
  have hfuel : g.graph.nodeIndices.toFinset.card < g.graph.nodeCount + 1 := by
    rw [List.toFinset_card_of_nodup g.graph.nodup_nodeIndices, StableGraph.nodeCount]
    omega
  have hmem : ∀ j, j ∈ g.getTransitiveDependents i ↔
      Relation.TransGen (fun a b => b ∈ g.graph.incoming a) i j := fun j =>
    mem_explore_iff hV hfuel
  have hblocked : (g.blockDependents k).blocked =
      ((g.getTransitiveDependents i).filterMap g.graph.nodeWeight).foldl
        (fun b n => insert (g.keyFn n) b) g.blocked := by
    unfold blockDependents
    simp only [hi]
  rw [hblocked, mem_foldl_block]
  refine or_congr Iff.rfl ?_
  constructor
  · rintro ⟨n, hn, rfl⟩
    obtain ⟨j, hj, hw⟩ := List.mem_filterMap.1 hn
    exact (h.transGen_incoming_iff hi ((h.index _ j).2 ⟨n, hw, rfl⟩)).1 ((hmem j).1 hj)
  · intro hdep
    obtain ⟨j, hj⟩ : g.Holds q := by
      rcases Relation.TransGen.head'_iff.1 hdep with ⟨_, hq, -⟩
      exact hq.1
    obtain ⟨n, hn, rfl⟩ := (h.index q j).1 hj
    exact ⟨n, List.mem_filterMap.2 ⟨j, (hmem j).2 ((h.transGen_incoming_iff hi hj).2 hdep), hn⟩,
      rfl⟩

/-! ### What `new` builds -/

/-- The declared dependencies between nodes, other than of a node on itself. -/
def Dep (nodes : List (κ × ν)) (edges : List (κ × κ)) (a b : κ) : Prop :=
  (a, b) ∈ edges ∧ a ≠ b ∧ a ∈ nodes.map Prod.fst ∧ b ∈ nodes.map Prod.fst

/-- The first node of each key gets an index of its own. -/
theorem addNodes_spec (nodes : List (κ × ν)) {keyFn : ν → κ} (hkey : ∀ e ∈ nodes, keyFn e.2 = e.1) :
    (∀ k i, (addNodes nodes).2.get k = some i ↔
        ∃ n, (addNodes nodes).1.nodeWeight i = some n ∧ keyFn n = k) ∧
      (∀ k, (∃ i, (addNodes nodes).2.get k = some i) ↔ k ∈ nodes.map Prod.fst) ∧
      (addNodes nodes).1.edges = [] := by
  induction nodes using List.reverseRecOn with
  | nil => simp [addNodes, StableGraph.empty, StableGraph.nodeWeight]
  | append_singleton l e ih =>
      obtain ⟨hindex, hkeys, hedges⟩ := ih fun e' he' => hkey e' (List.mem_append_left _ he')
      have hsnoc : addNodes (l ++ [e]) = addNode (addNodes l) e := by
        simp [addNodes, List.foldl_append]
      have hmem : ∀ k, k ∈ (l ++ [e]).map Prod.fst ↔ k ∈ l.map Prod.fst ∨ k = e.1 := by simp
      by_cases hc : (addNodes l).2.containsKey e.1 = true
      · -- A later node of a key that is there is dropped.
        have hin : e.1 ∈ l.map Prod.fst := (hkeys e.1).1 (Option.isSome_iff_exists.1 hc)
        rw [hsnoc, addNode, if_pos hc]
        refine ⟨hindex, fun k => ?_, hedges⟩
        rw [hkeys, hmem]
        refine ⟨Or.inl, fun h => ?_⟩
        rcases h with h | rfl
        · exact h
        · exact hin
      · have hnew : addNode (addNodes l) e =
            (((addNodes l).1.addNode e.2).1,
              (addNodes l).2.insert e.1 (addNodes l).1.nodes.length) := by
          rw [addNode, if_neg hc]; rfl
        have hkeyE : keyFn e.2 = e.1 := hkey e (List.mem_append_right _ (List.mem_singleton.2 rfl))
        have hfresh : (addNodes l).1.nodeWeight (addNodes l).1.nodes.length = none := by
          rw [StableGraph.nodeWeight, List.getElem?_eq_none (Nat.le_refl _)]; rfl
        have hnone : (addNodes l).2.get e.1 = none := by
          simpa [IndexMap.containsKey] using hc
        rw [hsnoc, hnew]
        refine ⟨fun k i => ?_, fun k => ?_, hedges⟩
        · simp only [IndexMap.get_insert, StableGraph.nodeWeight_addNode]
          by_cases hi : i = (addNodes l).1.nodes.length
          · subst hi
            have hold : ∀ q, (addNodes l).2.get q ≠ some (addNodes l).1.nodes.length := by
              intro q hq
              obtain ⟨n, hn, -⟩ := (hindex q _).1 hq
              rw [hfresh] at hn
              cases hn
            by_cases hk : k = e.1
            · simp [hk, hkeyE]
            · have hk' : keyFn e.2 ≠ k := fun h => hk (h.symm.trans hkeyE)
              simp [hk, hk', hold k]
          · by_cases hk : k = e.1
            · subst hk
              have hno : ∀ n, (addNodes l).1.nodeWeight i = some n → keyFn n ≠ e.1 := by
                intro n hn hkn
                have := (hindex e.1 i).2 ⟨n, hn, hkn⟩
                rw [hnone] at this
                cases this
              simpa [hi, Ne.symm hi] using hno
            · simp [hi, hk, hindex]
        · rw [hmem, ← hkeys k]
          simp only [IndexMap.get_insert]
          by_cases hk : k = e.1
          · simp [hk]
          · simp [hk]

variable [ToString κ]

/-- One edge of `new`. -/
theorem addEdge_spec {indices : IndexMap κ ℕ} {e : κ × κ} {graph graph' : StableGraph ν}
    (h : addEdge indices graph e = .ok graph') :
    (∀ i, graph'.nodeWeight i = graph.nodeWeight i) ∧
      (∀ i j, (i, j) ∈ graph'.edges ↔ (i, j) ∈ graph.edges ∨
        e.1 ≠ e.2 ∧ indices.get e.1 = some i ∧ indices.get e.2 = some j) ∧
      ((∃ i, indices.get e.1 = some i) → ∃ j, indices.get e.2 = some j) := by
  unfold addEdge at h
  cases hfrom : indices.get e.1 with
  | none =>
      rw [hfrom] at h
      obtain rfl := Except.ok.inj h
      simp
  | some a =>
      rw [hfrom] at h
      cases hto : indices.get e.2 with
      | none =>
          rw [hto] at h
          cases h
      | some b =>
          rw [hto] at h
          obtain rfl := Except.ok.inj h
          split_ifs with hne
          · refine ⟨fun i => StableGraph.nodeWeight_updateEdge _ _ _ _, fun i j => ?_, by simp⟩
            rw [StableGraph.mem_edges_updateEdge]
            simp only [Prod.mk.injEq, Option.some.injEq, ne_eq, hne, not_false_eq_true, true_and]
            constructor
            · rintro (⟨rfl, rfl⟩ | hij)
              · exact Or.inr ⟨rfl, rfl⟩
              · exact Or.inl hij
            · rintro (hij | ⟨rfl, rfl⟩)
              · exact Or.inr hij
              · exact Or.inl ⟨rfl, rfl⟩
          · simp_all

/-- The edges of `new`: the declared dependencies, by index. -/
theorem foldlM_addEdge_spec {indices : IndexMap κ ℕ} {edges : List (κ × κ)}
    {graph graph' : StableGraph ν} (h : edges.foldlM (addEdge indices) graph = .ok graph') :
    (∀ i, graph'.nodeWeight i = graph.nodeWeight i) ∧
      (∀ i j, (i, j) ∈ graph'.edges ↔ (i, j) ∈ graph.edges ∨
        ∃ a b, (a, b) ∈ edges ∧ a ≠ b ∧ indices.get a = some i ∧ indices.get b = some j) ∧
      ∀ a b, (a, b) ∈ edges → (∃ i, indices.get a = some i) → ∃ j, indices.get b = some j := by
  induction edges generalizing graph with
  | nil =>
      obtain rfl : graph = graph' := by simpa [pure, Except.pure] using h
      simp
  | cons e edges ih =>
      rw [List.foldlM_cons] at h
      cases hstep : addEdge indices graph e with
      | error msg =>
          rw [hstep] at h
          cases h
      | ok mid =>
          rw [hstep] at h
          obtain ⟨hw, hedges, hknown⟩ := ih h
          obtain ⟨hw₁, hedge, hknown₁⟩ := addEdge_spec hstep
          refine ⟨fun i => (hw i).trans (hw₁ i), fun i j => ?_, fun a b hab ha => ?_⟩
          · rw [hedges, hedge, or_assoc]
            refine or_congr Iff.rfl ?_
            constructor
            · rintro (⟨hne, hi, hj⟩ | ⟨a, b, hab, hne, hi, hj⟩)
              · exact ⟨e.1, e.2, List.mem_cons_self .., hne, hi, hj⟩
              · exact ⟨a, b, List.mem_cons_of_mem _ hab, hne, hi, hj⟩
            · rintro ⟨a, b, hab, hne, hi, hj⟩
              rcases List.mem_cons.1 hab with rfl | hab
              · exact Or.inl ⟨hne, hi, hj⟩
              · exact Or.inr ⟨a, b, hab, hne, hi, hj⟩
          · rcases List.mem_cons.1 hab with rfl | hab
            · exact hknown₁ ha
            · exact hknown a b hab ha

/-- **The graph of `new`** holds the given keys and their dependencies. -/
theorem indexed_buildGraph {nodes : List (κ × ν)} {edges : List (κ × κ)} {keyFn : ν → κ}
    (hkey : ∀ e ∈ nodes, keyFn e.2 = e.1) {graph : StableGraph ν}
    (h : buildGraph nodes edges = .ok graph) (blocked : Finset κ) :
    (⟨graph, (addNodes nodes).2, ∅, blocked, [], keyFn⟩ : DepsGraph κ ν).Indexed
        (Dep nodes edges) ∧
      ∀ k, (⟨graph, (addNodes nodes).2, ∅, blocked, [], keyFn⟩ : DepsGraph κ ν).Holds k ↔
        k ∈ nodes.map Prod.fst := by
  obtain ⟨hindex, hkeys, hnil⟩ := addNodes_spec nodes hkey
  obtain ⟨hw, hedges, -⟩ := foldlM_addEdge_spec h
  refine ⟨⟨fun k i => ?_, fun i j => ?_⟩, hkeys⟩
  · simp only [hw, hindex]
  · simp only [hedges, hnil, List.not_mem_nil, false_or, Dep]
    constructor
    · rintro ⟨a, b, hab, hne, hi, hj⟩
      exact ⟨a, b, hi, hj, hab, hne, (hkeys a).1 ⟨i, hi⟩, (hkeys b).1 ⟨j, hj⟩⟩
    · rintro ⟨a, b, hi, hj, hab, hne, -, -⟩
      exact ⟨a, b, hab, hne, hi, hj⟩

/-- What `new` accepts depends only on keys it knows. -/
theorem known_of_new {nodes : List (κ × ν)} {edges : List (κ × κ)} {keyFn : ν → κ}
    (hkey : ∀ e ∈ nodes, keyFn e.2 = e.1) {isCyclicDirected : StableGraph ν → Bool}
    (h : new isCyclicDirected nodes edges keyFn = .ok g) {a b : κ} (hab : (a, b) ∈ edges)
    (ha : a ∈ nodes.map Prod.fst) : b ∈ nodes.map Prod.fst := by
  obtain ⟨-, hkeys, -⟩ := addNodes_spec nodes hkey
  unfold new at h
  cases hgraph : buildGraph nodes edges with
  | error msg =>
      rw [hgraph] at h
      cases h
  | ok graph =>
      obtain ⟨-, -, hknown⟩ := foldlM_addEdge_spec hgraph
      exact (hkeys b).1 (hknown a b hab ((hkeys a).2 ha))

/-! ### Cycles are blocked -/

omit [ToString κ] in
/-- The detection changes what is blocked, and nothing else. -/
theorem exists_detectAndBlockCycles_eq (isCyclicDirected : StableGraph ν → Bool)
    (g : DepsGraph κ ν) :
    ∃ blocked, detectAndBlockCycles isCyclicDirected g = { g with blocked } := by
  unfold detectAndBlockCycles
  split_ifs
  · exact ⟨g.blocked, rfl⟩
  · exact ⟨_, rfl⟩

omit [ToString κ] [DecidableEq κ] in
/-- A round of the propagation only appends, and appends every index it may. -/
theorem foldl_propagateAt_spec (graph : StableGraph ν) (l s : List ℕ) :
    s <+: l.foldl (propagateAt graph) s ∧
      (l.foldl (propagateAt graph) s = s → ∀ i ∈ l, i ∉ s →
        (∀ j ∈ graph.outgoing i, j ∈ s) → graph.outgoing i = []) := by
  induction l generalizing s with
  | nil => simp
  | cons i l ih =>
      rw [List.foldl_cons, propagateAt]
      split_ifs with hc
      · obtain ⟨hpre, -⟩ := ih (s ++ [i])
        refine ⟨(List.prefix_append s [i]).trans hpre, fun heq => ?_⟩
        have hlen := hpre.length_le
        rw [heq, List.length_append, List.length_singleton] at hlen
        omega
      · obtain ⟨hpre, hfix⟩ := ih s
        refine ⟨hpre, fun heq j hj hjs hall => ?_⟩
        rcases List.mem_cons.1 hj with rfl | hj
        · by_contra hne
          exact hc ⟨hjs, hall, hne⟩
        · exact hfix heq j hj hjs hall

end DepsGraph

end Mise
