/-
# Runs of a dependency graph

What holds in every run of `DepsGraph`: a caller subscribes once and then
reports, in any order, the success or failure of nodes it was sent and has not
reported yet.

The state is spread over a shrinking graph and two sets, so one invariant
carries all of it.  `DepsGraph.Sound` is what every operation keeps: a sent
node has only succeeded dependencies and is never blocked; whatever depends on
a blocked node that is left, can reach a cycle, or depends on a failed node is
blocked.  `DepsGraph.Emitted` is what a round of emission leaves on top of it.
-/

import Mise.Util.DepsGraphCycles

namespace Mise

open Lib

namespace DepsGraph

variable {κ ν : Type} [DecidableEq κ]

/-- The keys of the nodes received, in order. -/
def emitted (g : DepsGraph κ ν) : List κ := g.tx.filterMap fun m => m.map g.keyFn

/-- A run between two calls: the graph, and the keys reported so far. -/
structure RunState (κ ν : Type) where
  graph : DepsGraph κ ν
  succeeded : Finset κ
  failed : Finset κ

namespace RunState

/-- Whether a key has been reported. -/
def Completed (s : RunState κ ν) (k : κ) : Prop := k ∈ s.succeeded ∨ k ∈ s.failed

/-- The run after subscribing. -/
def start (g : DepsGraph κ ν) : RunState κ ν := ⟨g.subscribe, ∅, ∅⟩

/-- One report, on a node that was emitted and not reported. -/
inductive Step : RunState κ ν → RunState κ ν → Prop
  | success {s : RunState κ ν} {k : κ} (hk : k ∈ s.graph.emitted) (hc : ¬ s.Completed k) :
      Step s ⟨s.graph.completeSuccess k, insert k s.succeeded, s.failed⟩
  | failure {s : RunState κ ν} {k : κ} (hk : k ∈ s.graph.emitted) (hc : ¬ s.Completed k) :
      Step s ⟨s.graph.completeFailure k, s.succeeded, insert k s.failed⟩

end RunState

/-! ### The invariant -/

/-- What every operation keeps. -/
structure Sound (keys : List κ) (dep : κ → κ → Prop) (g : DepsGraph κ ν)
    (succeeded failed : Finset κ) : Prop where
  indexed : g.Indexed dep
  holds : ∀ k, g.Holds k ↔ k ∈ keys ∧ ¬ (k ∈ succeeded ∨ k ∈ failed)
  nodup : g.emitted.Nodup
  emitted : ∀ k, k ∈ g.emitted ↔ k ∈ g.sent
  known : ∀ k ∈ g.sent, k ∈ keys
  completed : ∀ k, k ∈ succeeded ∨ k ∈ failed → k ∈ g.sent
  ready : ∀ k ∈ g.sent, ∀ d, dep k d → d ∈ succeeded
  free : ∀ k ∈ g.sent, k ∉ g.blocked
  closed : ∀ a b, dep a b → g.Holds a → g.Holds b → b ∈ g.blocked → a ∈ g.blocked
  cycles : ∀ k ∈ keys, ReachesCycle dep k → k ∈ g.blocked
  failures : ∀ f ∈ failed, ∀ q, Relation.TransGen dep q f → g.Holds q ∧ q ∈ g.blocked

/-- What a round of emission leaves. -/
structure Emitted (dep : κ → κ → Prop) (g : DepsGraph κ ν) : Prop where
  all : ∀ k, g.Holds k → k ∉ g.blocked → (∀ d, dep k d → ¬ g.Holds d) → k ∈ g.sent
  closing : none ∈ g.tx ↔ ∀ k, g.Holds k → k ∈ g.blocked

section

variable {keys : List κ} {dep : κ → κ → Prop} {g : DepsGraph κ ν} {succeeded failed : Finset κ}

/-- A node waits for its dependencies: if one is left, so is it. -/
theorem Sound.holds_of_dep (h : Sound keys dep g succeeded failed) (hkeys : ∀ a b, dep a b → a ∈ keys) {a b : κ}
    (hab : dep a b) (hb : g.Holds b) : g.Holds a := by
  refine (h.holds a).2 ⟨hkeys a b hab, fun hc => ?_⟩
  have := h.ready a (h.completed a hc) b hab
  exact ((h.holds b).1 hb).2 (Or.inl this)

/-- A node sent and not reported is left, and nothing it depends on is. -/
theorem Sound.holds_of_emitted (h : Sound keys dep g succeeded failed) {k : κ} (hk : k ∈ g.emitted)
    (hc : ¬ (k ∈ succeeded ∨ k ∈ failed)) : g.Holds k ∧ ∀ d, dep k d → ¬ g.Holds d := by
  have hsent := (h.emitted k).1 hk
  refine ⟨(h.holds k).2 ⟨h.known k hsent, hc⟩, fun d hd hd' => ?_⟩
  exact ((h.holds d).1 hd').2 (Or.inl (h.ready k hsent d hd))

/-- **A round of emission** keeps the invariant, sends what is ready and closes
the stream when all that is left is blocked. -/
theorem Sound.emitLeaves (h : Sound keys dep g succeeded failed) (hkeys : ∀ a b, dep a b → b ∈ keys)
    (hopen : none ∉ g.tx) :
    Sound keys dep g.emitLeaves succeeded failed ∧ Emitted dep g.emitLeaves := by
  have heq := emitLeaves_eq h.indexed
  have hready := fun k => @Indexed.mem_ready _ _ _ _ _ h.indexed k
  have hemitted : g.emitLeaves.emitted =
      g.emitted ++ g.ready.map Prod.fst := by
    have hlast : ((if g.isAllDone = true then [none] else []) : List (Option ν)).filterMap
        (fun m => m.map g.keyFn) = [] := by
      split_ifs <;> rfl
    simp only [DepsGraph.emitted, heq, List.filterMap_append, hlast, List.append_nil,
      List.filterMap_map]
    congr 1
    rw [← List.filterMap_eq_map]
    refine List.filterMap_congr fun e he => ?_
    simp [h.indexed.keyFn_of_mem_ready he]
  have hsent : ∀ k, k ∈ g.emitLeaves.sent ↔
      k ∈ g.sent ∨ k ∈ g.ready.map Prod.fst := by
    intro k
    rw [heq, Finset.mem_union, List.mem_toFinset]
  have hholds : ∀ k, g.emitLeaves.Holds k ↔ g.Holds k := fun k => by rw [heq]; rfl
  have hblocked : g.emitLeaves.blocked = g.blocked := by rw [heq]
  have hnone : none ∈ g.emitLeaves.tx ↔ ∀ k, g.Holds k → k ∈ g.blocked := by
    rw [heq, ← h.indexed.isAllDone_iff]
    simp only [List.mem_append, List.mem_map, hopen, reduceCtorEq, and_false, exists_false,
      false_or]
    split_ifs with hd <;> simp [hd]
  refine ⟨⟨?_, ?_, ?_, ?_, ?_, ?_, ?_, ?_, ?_, ?_, ?_⟩, ⟨fun k hk hb hd => ?_, ?_⟩⟩
  · rw [heq]
    exact ⟨h.indexed.index, h.indexed.edges⟩
  · exact fun k => (hholds k).trans (h.holds k)
  · rw [hemitted]
    refine h.nodup.append h.indexed.nodup_ready fun k hk hk' => ?_
    exact ((hready k).1 hk').2.2.1 ((h.emitted k).1 hk)
  · intro k
    rw [hemitted, List.mem_append, hsent, h.emitted]
  · intro k hk
    rcases (hsent k).1 hk with hk | hk
    · exact h.known k hk
    · exact ((h.holds k).1 ((hready k).1 hk).1).1
  · exact fun k hk => (hsent k).2 (Or.inl (h.completed k hk))
  · intro k hk d hd
    rcases (hsent k).1 hk with hk | hk
    · exact h.ready k hk d hd
    · -- The dependency is gone, and not by failure: that would have blocked the node.
      obtain ⟨-, hleaf, -, hb⟩ := (hready k).1 hk
      have hgone : d ∈ succeeded ∨ d ∈ failed := by
        by_contra hc
        exact hleaf d hd ((h.holds d).2 ⟨hkeys k d hd, hc⟩)
      rcases hgone with hgone | hgone
      · exact hgone
      · exact absurd (h.failures d hgone k (Relation.TransGen.single hd)).2 hb
  · intro k hk
    rw [hblocked]
    rcases (hsent k).1 hk with hk | hk
    · exact h.free k hk
    · exact ((hready k).1 hk).2.2.2
  · intro a b hab ha hb
    rw [hblocked]
    exact h.closed a b hab ((hholds a).1 ha) ((hholds b).1 hb)
  · rw [hblocked]
    exact h.cycles
  · intro f hf q hq
    rw [hblocked, hholds]
    exact h.failures f hf q hq
  · rw [hsent]
    by_cases hs : k ∈ g.sent
    · exact Or.inl hs
    · refine Or.inr ((hready k).2 ⟨(hholds k).1 hk, fun d hkd hd' => ?_, hs, hblocked ▸ hb⟩)
      exact hd d hkd ((hholds d).2 hd')
  · rw [hnone, hblocked]
    exact forall_congr' fun k => by rw [hholds]

/-- **Taking a reported node out** keeps the invariant, if its dependents are
blocked in case it failed. -/
theorem Sound.removeNode (h : Sound keys dep g succeeded failed) {k : κ} (hk : k ∈ g.emitted)
    {succeeded' failed' : Finset κ} (hmono : succeeded ⊆ succeeded')
    (hreported : ∀ q, q ∈ succeeded' ∨ q ∈ failed' ↔ q = k ∨ q ∈ succeeded ∨ q ∈ failed)
    (hfailed : ∀ f ∈ failed', ∀ q, Relation.TransGen dep q f → g.Holds q ∧ q ∈ g.blocked) :
    Sound keys dep (g.removeNode k) succeeded' failed' := by
  have hsent := (h.emitted k).1 hk
  have hemitted : (g.removeNode k).emitted = g.emitted := by
    simp only [DepsGraph.emitted, removeNode_tx, removeNode_keyFn]
  refine ⟨h.indexed.removeNode k, fun q => ?_, ?_, fun q => ?_, fun q hq => ?_, fun q hq => ?_,
    fun q hq d hd => ?_, fun q hq => ?_, fun a b hab ha hb hbb => ?_, fun q hq hr => ?_,
    fun f hf q hq => ?_⟩
  · simp only [holds_removeNode, h.holds, hreported, not_or]
    tauto
  · rw [hemitted]
    exact h.nodup
  · rw [hemitted, removeNode_sent]
    exact h.emitted q
  · exact h.known q (by simpa using hq)
  · rw [removeNode_sent]
    rcases (hreported q).1 hq with rfl | hq
    · exact hsent
    · exact h.completed q hq
  · exact hmono (h.ready q (by simpa using hq) d hd)
  · rw [removeNode_blocked]
    exact h.free q (by simpa using hq)
  · rw [removeNode_blocked] at hbb ⊢
    exact h.closed a b hab (holds_removeNode.1 ha).1 (holds_removeNode.1 hb).1 hbb
  · rw [removeNode_blocked]
    exact h.cycles q hq hr
  · rw [removeNode_blocked, holds_removeNode]
    obtain ⟨hold, hb⟩ := hfailed f hf q hq
    refine ⟨⟨hold, ?_⟩, hb⟩
    rintro rfl
    exact h.free q hsent hb

/-- **Blocking the dependents** of a node that was sent keeps the invariant, and
blocks every key that depends on it. -/
theorem Sound.blockDependents (h : Sound keys dep g succeeded failed) (hkeys : ∀ a b, dep a b → a ∈ keys) {k : κ}
    (hk : g.Holds k) :
    Sound keys dep (g.blockDependents k) succeeded failed ∧
      ∀ q, Relation.TransGen dep q k →
        (g.blockDependents k).Holds q ∧ q ∈ (g.blockDependents k).blocked := by
  have hblocked := mem_blocked_blockDependents h.indexed hk
  have hholds : ∀ q, (g.blockDependents k).Holds q ↔ g.Holds q := fun q => by
    rw [Holds, blockDependents_nodeIndices, Holds]
  have hemitted : (g.blockDependents k).emitted
      = g.emitted := by
    simp only [DepsGraph.emitted, blockDependents_tx, blockDependents_keyFn]
  -- Everything on the way to a node that is left is left.
  have hall : ∀ q, Relation.TransGen dep q k → g.Holds q ∧ g.DependsOn dep q k := by
    intro q hq
    induction hq using Relation.TransGen.head_induction_on with
    | single hab =>
        have ha := h.holds_of_dep hkeys hab hk
        exact ⟨ha, Relation.TransGen.single ⟨ha, hk, hab⟩⟩
    | head hac _ ih =>
        have ha := h.holds_of_dep hkeys hac ih.1
        exact ⟨ha, ih.2.head ⟨ha, ih.1, hac⟩⟩
  refine ⟨⟨h.indexed.blockDependents k, fun q => (hholds q).trans (h.holds q), ?_, fun q => ?_,
    fun q hq => ?_, fun q hq => ?_, fun q hq d hd => ?_, fun q hq => ?_,
    fun a b hab ha hb hbb => ?_, fun q hq hr => ?_, fun f hf q hq => ?_⟩, fun q hq => ?_⟩
  · rw [hemitted]
    exact h.nodup
  · rw [hemitted, blockDependents_sent]
    exact h.emitted q
  · exact h.known q (by simpa using hq)
  · rw [blockDependents_sent]
    exact h.completed q hq
  · exact h.ready q (by simpa using hq) d hd
  · rw [blockDependents_sent] at hq
    rw [hblocked, not_or]
    refine ⟨h.free q hq, fun hdep => ?_⟩
    -- A dependent has a dependency left; a node that was sent has none.
    obtain ⟨b, ⟨-, hb, hqb⟩, -⟩ := Relation.TransGen.head'_iff.1 hdep
    exact ((h.holds b).1 hb).2 (Or.inl (h.ready q hq b hqb))
  · rw [hholds] at ha hb
    rw [hblocked] at hbb ⊢
    rcases hbb with hbb | hbb
    · exact Or.inl (h.closed a b hab ha hb hbb)
    · exact Or.inr (hbb.head ⟨ha, hb, hab⟩)
  · rw [hblocked]
    exact Or.inl (h.cycles q hq hr)
  · rw [hblocked, hholds]
    obtain ⟨hold, hb⟩ := h.failures f hf q hq
    exact ⟨hold, Or.inl hb⟩
  · rw [hblocked, hholds]
    exact ⟨(hall q hq).1, Or.inr (hall q hq).2⟩

/-- While a node was sent and not reported the stream is open. -/
theorem Emitted.stream_open (he : Emitted dep g) (h : Sound keys dep g succeeded failed) {k : κ}
    (hk : k ∈ g.emitted) (hc : ¬ (k ∈ succeeded ∨ k ∈ failed)) : none ∉ g.tx := by
  intro hnone
  have hb := he.closing.1 hnone k (h.holds_of_emitted hk hc).1
  exact h.free k ((h.emitted k).1 hk) hb

/-- **A reported success keeps the invariant.** -/
theorem Sound.completeSuccess (h : Sound keys dep g succeeded failed) (he : Emitted dep g)
    (hkeys : ∀ a b, dep a b → b ∈ keys) {k : κ} (hk : k ∈ g.emitted)
    (hc : ¬ (k ∈ succeeded ∨ k ∈ failed)) :
    Sound keys dep (g.completeSuccess k) (insert k succeeded) failed ∧
      Emitted dep (g.completeSuccess k) := by
  have hopen := he.stream_open h hk hc
  have hsound : Sound keys dep (g.removeNode k) (insert k succeeded) failed :=
    h.removeNode hk (Finset.subset_insert _ _)
      (fun q => by rw [Finset.mem_insert, or_assoc]) h.failures
  exact hsound.emitLeaves hkeys (by simpa using hopen)

/-- **A reported failure keeps the invariant.** -/
theorem Sound.completeFailure (h : Sound keys dep g succeeded failed) (he : Emitted dep g)
    (hkeys : ∀ a b, dep a b → a ∈ keys ∧ b ∈ keys) {k : κ} (hk : k ∈ g.emitted)
    (hc : ¬ (k ∈ succeeded ∨ k ∈ failed)) :
    Sound keys dep (g.completeFailure k) succeeded (insert k failed) ∧
      Emitted dep (g.completeFailure k) := by
  have hopen := he.stream_open h hk hc
  obtain ⟨hblock, hdeps⟩ := h.blockDependents (fun a b hab => (hkeys a b hab).1)
    (h.holds_of_emitted hk hc).1
  have hk' : k ∈ (g.blockDependents k).emitted := by
    simpa [DepsGraph.emitted] using hk
  have hsound : Sound keys dep ((g.blockDependents k).removeNode k) succeeded (insert k failed) := by
    refine hblock.removeNode hk' (Finset.Subset.refl _) (fun q => ?_) fun f hf => ?_
    · rw [Finset.mem_insert]
      tauto
    · rcases Finset.mem_insert.1 hf with rfl | hf
      · exact hdeps
      · exact hblock.failures f hf
  exact hsound.emitLeaves (fun a b hab => (hkeys a b hab).2) (by simpa using hopen)

/-- **No stall.**  When every node that was sent is reported, every node left is
blocked. -/
theorem Sound.all_blocked (h : Sound keys dep g succeeded failed) (he : Emitted dep g)
    (hdone : ∀ k ∈ g.emitted, k ∈ succeeded ∨ k ∈ failed) : ∀ k, g.Holds k → k ∈ g.blocked := by
  classical
  intro k hk
  by_contra hb
  let S := keys.toFinset.filter fun q => g.Holds q ∧ q ∉ g.blocked
  have hS : ∀ q, q ∈ S ↔ g.Holds q ∧ q ∉ g.blocked := by
    intro q
    simp only [S, Finset.mem_filter, List.mem_toFinset]
    exact ⟨fun hq => hq.2, fun hq => ⟨((h.holds q).1 hq.1).1, hq⟩⟩
  have hac : ∀ q ∈ S, ¬ Relation.TransGen dep q q := fun q hq hcyc =>
    ((hS q).1 hq).2 (h.cycles q ((h.holds q).1 ((hS q).1 hq).1).1
      ⟨q, Relation.ReflTransGen.refl, hcyc⟩)
  obtain ⟨a, ha, hsink⟩ := exists_sink ⟨k, (hS k).2 ⟨hk, hb⟩⟩ hac
  obtain ⟨hold, hfree⟩ := (hS a).1 ha
  -- The sink has no dependency left, so it was sent, and a node sent is not left.
  have hsent := he.all a hold hfree fun d had hd => by
    by_cases hdb : d ∈ g.blocked
    · exact hfree (h.closed a d had hold hd hdb)
    · exact hsink d ((hS d).2 ⟨hd, hdb⟩) had
  exact ((h.holds a).1 hold).2 (hdone a ((h.emitted a).2 hsent))

end

/-! ### Every run -/

section

variable [ToString κ] {nodes : List (κ × ν)} {edges : List (κ × κ)} {keyFn : ν → κ}
  {isCyclicDirected : StableGraph ν → Bool} {g : DepsGraph κ ν}

/-- `is_cyclic_directed` tells whether the graph built from the input has a
cycle. -/
def CyclicDirectedSpec (isCyclicDirected : StableGraph ν → Bool) (nodes : List (κ × ν))
    (edges : List (κ × κ)) : Prop :=
  ∀ graph, buildGraph nodes edges = .ok graph → (isCyclicDirected graph = true ↔
    ∃ i, Relation.TransGen (fun a b => (a, b) ∈ graph.edges) i i)

/-- A new graph has its nodes and edges, and blocks what runs into a cycle. -/
theorem exists_of_new (hkey : ∀ e ∈ nodes, keyFn e.2 = e.1)
    (hcyc : CyclicDirectedSpec isCyclicDirected nodes edges)
    (hnew : new isCyclicDirected nodes edges keyFn = .ok g) :
    ∃ graph blocked, g = ⟨graph, (addNodes nodes).2, ∅, blocked, [], keyFn⟩ ∧
      g.Indexed (Dep nodes edges) ∧ (∀ k, g.Holds k ↔ k ∈ nodes.map Prod.fst) ∧
      ∀ k, k ∈ blocked ↔ k ∈ nodes.map Prod.fst ∧ ReachesCycle (Dep nodes edges) k := by
  unfold new at hnew
  cases hgraph : buildGraph nodes edges with
  | error msg =>
    rw [hgraph] at hnew
    cases hnew
  | ok graph =>
    rw [hgraph] at hnew
    obtain rfl := Except.ok.inj hnew
    obtain ⟨hindexed, hholds⟩ := indexed_buildGraph hkey hgraph ∅
    have hblocked := mem_blocked_detectAndBlockCycles hindexed
      (fun a b hab => ⟨(hholds a).2 hab.2.2.1, (hholds b).2 hab.2.2.2⟩) (hcyc graph hgraph)
    obtain ⟨blocked, heq⟩ := exists_detectAndBlockCycles_eq isCyclicDirected
      (⟨graph, (addNodes nodes).2, ∅, ∅, [], keyFn⟩ : DepsGraph κ ν)
    rw [heq] at hblocked ⊢
    simp only [hholds, Finset.notMem_empty, false_or] at hblocked
    exact ⟨graph, blocked, rfl, (indexed_buildGraph hkey hgraph blocked).1, hholds, hblocked⟩

/-- Subscribing to a new graph establishes the invariant. -/
theorem sound_start (hkey : ∀ e ∈ nodes, keyFn e.2 = e.1)
    (hcyc : CyclicDirectedSpec isCyclicDirected nodes edges)
    (hnew : new isCyclicDirected nodes edges keyFn = .ok g) :
    Sound (nodes.map Prod.fst) (Dep nodes edges) (RunState.start g).graph ∅ ∅ ∧
      Emitted (Dep nodes edges) (RunState.start g).graph := by
  obtain ⟨graph, blocked, rfl, hindexed, hholds, hblocked⟩ := exists_of_new hkey hcyc hnew
  have hsound : Sound (nodes.map Prod.fst) (Dep nodes edges)
      (⟨graph, (addNodes nodes).2, ∅, blocked, [], keyFn⟩ : DepsGraph κ ν) ∅ ∅ := by
    refine ⟨hindexed, fun k => (hholds k).trans (by simp), List.nodup_nil,
      fun k => by simp [DepsGraph.emitted], by simp, by simp, by simp, by simp,
      fun a b hab _ _ hb => ?_, fun k hk hr => ?_, by simp⟩
    · exact (hblocked a).2 ⟨hab.2.2.1, ((hblocked b).1 hb).2.head hab⟩
    · exact (hblocked k).2 ⟨hk, hr⟩
  exact hsound.emitLeaves (fun a b hab => hab.2.2.2) List.not_mem_nil

/-- The invariant holds in every run. -/
theorem sound_of_run (hkey : ∀ e ∈ nodes, keyFn e.2 = e.1)
    (hcyc : CyclicDirectedSpec isCyclicDirected nodes edges)
    (hnew : new isCyclicDirected nodes edges keyFn = .ok g) {s : RunState κ ν}
    (hrun : Relation.ReflTransGen RunState.Step (RunState.start g) s) :
    Sound (nodes.map Prod.fst) (Dep nodes edges) s.graph s.succeeded s.failed ∧
      Emitted (Dep nodes edges) s.graph := by
  induction hrun with
  | refl => exact sound_start hkey hcyc hnew
  | tail _ hstep ih =>
      obtain ⟨h, he⟩ := ih
      cases hstep with
      | success hk hc =>
          have hnext := h.completeSuccess he (fun a b hab => hab.2.2.2) hk hc
          dsimp only
          exact hnext
      | failure hk hc =>
          have hnext := h.completeFailure he (fun a b hab => ⟨hab.2.2.1, hab.2.2.2⟩) hk hc
          dsimp only
          exact hnext

/-- **A dependency graph schedules safely and does not stall.**  In every run,
each node is emitted at most once, after its dependencies succeeded, and not if
it can reach a cycle or depends on a failed node; when all that was emitted is
reported, every node is reported or blocked and the stream was closed; and it
is not closed before. -/
theorem deps_graph_schedules (hkey : ∀ e ∈ nodes, keyFn e.2 = e.1)
    (hcyc : CyclicDirectedSpec isCyclicDirected nodes edges)
    (hnew : new isCyclicDirected nodes edges keyFn = .ok g) {s : RunState κ ν}
    (hrun : Relation.ReflTransGen RunState.Step (RunState.start g) s) :
    s.graph.emitted.Nodup ∧
      (∀ k ∈ s.graph.emitted, ∀ d, (k, d) ∈ edges → d ≠ k → d ∈ s.succeeded) ∧
      (∀ k ∈ s.graph.emitted, ¬ ReachesCycle (Dep nodes edges) k ∧
        ∀ f ∈ s.failed, ¬ Relation.TransGen (Dep nodes edges) k f) ∧
      ((∀ k ∈ s.graph.emitted, s.Completed k) →
        (∀ k ∈ nodes.map Prod.fst, s.Completed k ∨ k ∈ s.graph.blocked) ∧ none ∈ s.graph.tx) ∧
      (none ∈ s.graph.tx → ∀ k ∈ s.graph.emitted, s.Completed k) := by
  obtain ⟨h, he⟩ := sound_of_run hkey hcyc hnew hrun
  refine ⟨h.nodup, fun k hk d hd hne => ?_, fun k hk => ⟨fun hr => ?_, fun f hf hkf => ?_⟩,
    fun hdone => ?_, fun hnone k hk => ?_⟩
  · have hsent := (h.emitted k).1 hk
    have hknown := h.known k hsent
    exact h.ready k hsent d ⟨hd, Ne.symm hne, hknown, known_of_new hkey hnew hd hknown⟩
  · have hsent := (h.emitted k).1 hk
    exact h.free k hsent (h.cycles k (h.known k hsent) hr)
  · exact h.free k ((h.emitted k).1 hk) (h.failures f hf k hkf).2
  · have hall := h.all_blocked he hdone
    refine ⟨fun k hk => ?_, he.closing.2 hall⟩
    by_cases hc : s.Completed k
    · exact Or.inl hc
    · exact Or.inr (hall k ((h.holds k).2 ⟨hk, hc⟩))
  · by_contra hc
    exact he.stream_open h hk hc hnone

end

/-! ### Two nodes, one depending on the other -/

/-- `1` depends on `0`. -/
def sampleGraph : DepsGraph ℕ ℕ :=
  ⟨⟨[some 0, some 1], [(1, 0)]⟩, ⟨[(0, 0), (1, 1)], by decide⟩, ∅, ∅, [], id⟩

theorem new_sampleGraph :
    new (fun _ => false) [(0, 0), (1, 1)] [(1, 0)] id = .ok sampleGraph := rfl

/-- The run in which `0` has succeeded. -/
def sampleRun : RunState ℕ ℕ := ⟨(RunState.start sampleGraph).graph.completeSuccess 0, {0}, ∅⟩

/-- `1` is emitted, and `0` has succeeded by then. -/
theorem deps_graph_schedules_sample : 1 ∈ sampleRun.graph.emitted ∧ 0 ∈ sampleRun.succeeded := by
  have hcyc : CyclicDirectedSpec (fun _ => false) [((0 : ℕ), (0 : ℕ)), (1, 1)] [(1, 0)] := by
    intro graph hgraph
    obtain rfl := Except.ok.inj hgraph
    have hdown : ∀ e ∈ [((1 : ℕ), (0 : ℕ))], e.2 < e.1 := by decide
    refine ⟨fun h => absurd h (by decide), ?_⟩
    rintro ⟨i, hi⟩
    exact absurd hi (not_transGen_self OrderDual.toDual (fun a b hab => hdown (a, b) hab) i)
  have hstep : RunState.Step (RunState.start sampleGraph) sampleRun :=
    RunState.Step.success (by decide) (by simp [RunState.Completed, RunState.start])
  have hemitted : 1 ∈ sampleRun.graph.emitted := by decide
  refine ⟨hemitted, ?_⟩
  exact (deps_graph_schedules (by decide) hcyc new_sampleGraph
    (Relation.ReflTransGen.single hstep)).2.1 1 hemitted 0 (by decide) (by decide)

end DepsGraph

end Mise
