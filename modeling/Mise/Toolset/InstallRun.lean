/-
# Runs of `install_with_deps`

In every order in which installers end: each is started once, behind all it depends
on, and never more than there are permits; and when the loop returns, every request
was installed, failed, or was skipped for a failure or a cycle behind it.

`InstallLoop.Inv` carries it.  The messages received so far are, up to their order, the
requests joined, ended, running and waiting; the graph's own invariant is about the
joined ones.
-/

import Mise.Lib.Fallible
import Mise.Toolset.InstallLoop

namespace Mise

open Lib

/-! ### What a graph blocks and sends -/

namespace DepsGraph

variable {κ ν : Type} [DecidableEq κ] {g : DepsGraph κ ν} {dep : κ → κ → Prop} {k : κ}

/-- What is blocked is blocked for a cycle or for a failure. -/
def Accused (dep : κ → κ → Prop) (g : DepsGraph κ ν) (failed : Finset κ) : Prop :=
  ∀ k ∈ g.blocked, ReachesCycle dep k ∨ ∃ f ∈ failed, Relation.TransGen dep k f

/-- What a report leaves: the messages before it, and the keys of the nodes. -/
theorem completeSuccess_frame (h : g.Indexed dep) (k : κ) :
    (g.completeSuccess k).blocked = g.blocked ∧ (g.completeSuccess k).keyFn = g.keyFn ∧
      ∃ more, (g.completeSuccess k).tx = g.tx ++ more := by
  rw [completeSuccess, emitLeaves_eq (h.removeNode k)]
  refine ⟨removeNode_blocked k, removeNode_keyFn k, ?_⟩
  simp only [removeNode_tx, List.append_assoc]
  exact ⟨_, rfl⟩

theorem completeFailure_frame (h : g.Indexed dep) (k : κ) :
    (g.completeFailure k).blocked = (g.blockDependents k).blocked ∧
      (g.completeFailure k).keyFn = g.keyFn ∧
      ∃ more, (g.completeFailure k).tx = g.tx ++ more := by
  rw [completeFailure, emitLeaves_eq ((h.blockDependents k).removeNode k)]
  refine ⟨removeNode_blocked k, by simp, ?_⟩
  simp only [removeNode_tx, blockDependents_tx, List.append_assoc]
  exact ⟨_, rfl⟩

theorem Accused.completeSuccess {failed : Finset κ} (h : Accused dep g failed)
    (hindexed : g.Indexed dep) (k : κ) : Accused dep (g.completeSuccess k) failed := by
  intro q hq
  rw [(completeSuccess_frame hindexed k).1] at hq
  exact h q hq

theorem Accused.completeFailure {failed : Finset κ} (h : Accused dep g failed)
    (hindexed : g.Indexed dep) (hk : g.Holds k) :
    Accused dep (g.completeFailure k) (insert k failed) := by
  intro q hq
  rw [(completeFailure_frame hindexed k).1, mem_blocked_blockDependents hindexed hk] at hq
  rcases hq with hq | hq
  · refine (h q hq).imp_right ?_
    rintro ⟨f, hf, hdep⟩
    exact ⟨f, Finset.mem_insert_of_mem hf, hdep⟩
  · exact .inr ⟨k, Finset.mem_insert_self k failed,
      Relation.TransGen.mono (fun _ _ hab => hab.2.2) _ _ hq⟩

/-- At the start only cycles are blocked. -/
theorem accused_start [ToString κ] {nodes : List (κ × ν)} {edges : List (κ × κ)} {keyFn : ν → κ}
    {isCyclicDirected : StableGraph ν → Bool} (hkey : ∀ e ∈ nodes, keyFn e.2 = e.1)
    (hcyc : CyclicDirectedSpec isCyclicDirected nodes edges)
    (hnew : new isCyclicDirected nodes edges keyFn = .ok g) :
    Accused (Dep nodes edges) g.subscribe ∅ ∧ g.subscribe.keyFn = keyFn := by
  obtain ⟨graph, blocked, rfl, hindexed, -, hblocked⟩ := exists_of_new hkey hcyc hnew
  rw [subscribe, emitLeaves_eq hindexed]
  exact ⟨fun k hk => .inl ((hblocked k).1 hk).2, rfl⟩

end DepsGraph

namespace Toolset

variable {ω : Type}

theorem mem_blockedTools {deps : ToolDeps ω} {dep : String → String → Prop} (h : deps.Indexed dep)
    {k : String} : k ∈ (blockedTools deps).map deps.keyFn ↔ deps.Holds k ∧ k ∈ deps.blocked := by
  constructor
  · intro hk
    obtain ⟨tr, htr, rfl⟩ := List.mem_map.1 hk
    obtain ⟨hnode, hblocked⟩ := List.mem_filter.1 htr
    obtain ⟨i, -, hi⟩ := List.mem_filterMap.1 hnode
    exact ⟨⟨i, (h.index _ i).2 ⟨tr, hi, rfl⟩⟩, of_decide_eq_true hblocked⟩
  · rintro ⟨⟨i, hi⟩, hblocked⟩
    obtain ⟨tr, htr, rfl⟩ := (h.index k i).1 hi
    refine List.mem_map.2 ⟨tr, List.mem_filter.2 ⟨?_, decide_eq_true hblocked⟩, rfl⟩
    exact List.mem_filterMap.2 ⟨i, h.mem_nodeIndices.2 ⟨_, hi⟩, htr⟩

theorem nodup_blockedTools {deps : ToolDeps ω} {dep : String → String → Prop}
    (h : deps.Indexed dep) : ((blockedTools deps).map deps.keyFn).Nodup := by
  have hall : ((deps.graph.nodeIndices.filterMap deps.graph.nodeWeight).map deps.keyFn).Nodup := by
    rw [List.map_filterMap]
    refine List.Nodup.filterMap ?_ deps.graph.nodup_nodeIndices
    intro i j k hi hj
    simp only [Option.mem_def, Option.map_eq_some_iff] at hi hj
    obtain ⟨n, hn, rfl⟩ := hi
    obtain ⟨m, hm, hkey⟩ := hj
    have hi := (h.index (deps.keyFn n) i).2 ⟨n, hn, rfl⟩
    have hj := (h.index (deps.keyFn n) j).2 ⟨m, hm, hkey⟩
    exact Option.some.inj (hi.symm.trans hj)
  exact hall.sublist (List.filter_sublist.map _)

/-! ### The graph of the requests -/

section Graph

variable [DecidableEq ω] {matchesRequest : ToolRequest ω → ToolRequest ω → Bool}
  {isCyclicDirected : StableGraph (ToolRequest ω) → Bool} {versions : List (ToolRequest ω)}
  {deps : ToolDeps ω}

/-- A request with the key `a` is declared to depend on one with the key `b`. -/
def ToolDependsOn (matchesRequest : ToolRequest ω → ToolRequest ω → Bool)
    (versions : List (ToolRequest ω)) (a b : String) : Prop :=
  a ≠ b ∧ ∃ tr ∈ versions, ∃ other ∈ versions,
    matchesRequest tr other = true ∧ graphKey tr = a ∧ graphKey other = b

omit [DecidableEq ω] in
theorem mem_dependencyEdges {a b : String} :
    (a, b) ∈ dependencyEdges matchesRequest versions ↔
      ToolDependsOn matchesRequest versions a b := by
  simp only [dependencyEdges, List.mem_flatMap, List.mem_map, List.mem_filter, Bool.and_eq_true,
    bne_iff_ne, Prod.mk.injEq, ToolDependsOn]
  constructor
  · rintro ⟨tr, htr, other, ⟨hother, hmatch, hne⟩, rfl, rfl⟩
    exact ⟨hne, tr, htr, other, hother, hmatch, rfl, rfl⟩
  · rintro ⟨hne, tr, htr, other, hother, hmatch, rfl, rfl⟩
    exact ⟨tr, htr, other, ⟨hother, hmatch, hne⟩, rfl, rfl⟩

omit [DecidableEq ω] in
theorem dep_eq : DepsGraph.Dep (versions.map fun tr => (graphKey tr, tr))
    (dependencyEdges matchesRequest versions) = ToolDependsOn matchesRequest versions := by
  funext a b
  rw [DepsGraph.Dep, mem_dependencyEdges, List.map_map, eq_iff_iff]
  constructor
  · exact fun h => h.1
  · intro h
    obtain ⟨hne, tr, htr, other, hother, -, rfl, rfl⟩ := id h
    exact ⟨h, hne, List.mem_map.2 ⟨tr, htr, rfl⟩, List.mem_map.2 ⟨other, hother, rfl⟩⟩

/-- petgraph's `is_cyclic_directed` on the graph of the requests. -/
def CyclicSpec (isCyclicDirected : StableGraph (ToolRequest ω) → Bool)
    (matchesRequest : ToolRequest ω → ToolRequest ω → Bool) (versions : List (ToolRequest ω)) :
    Prop :=
  DepsGraph.CyclicDirectedSpec isCyclicDirected (versions.map fun tr => (graphKey tr, tr))
    (dependencyEdges matchesRequest versions)

theorem new_eq_ok (h : ToolDeps.new isCyclicDirected matchesRequest versions = .ok deps) :
    DepsGraph.new isCyclicDirected (versions.map fun tr => (graphKey tr, tr))
      (dependencyEdges matchesRequest versions) graphKey = .ok deps := by
  rw [ToolDeps.new] at h
  obtain ⟨-, -, h⟩ := bind_eq_ok h
  exact h

end Graph

/-! ### What is reported -/

/-- The keys of the requests whose installers left a version. -/
def succeeded (log : List (ToolRequest ω × Outcome ω)) : List String :=
  (log.filter fun e => e.2.version?.isSome).map fun e => graphKey e.1

/-- The requests whose installers failed or panicked. -/
def broken (log : List (ToolRequest ω × Outcome ω)) : List (ToolRequest ω) :=
  (log.filter fun e => e.2.version?.isNone).map Prod.fst

/-- The failures that the loop tells of what it joined. -/
def failures (log : List (ToolRequest ω × Outcome ω)) : List (ToolRequest ω × String) :=
  log.filterMap fun e => e.2.error?.map fun error => (e.1, error)

/-- The failures that are told of tools that were never started. -/
def skipped (deps : ToolDeps ω) : List (ToolRequest ω × String) :=
  (blockedTools deps).map fun tr => (tr, "Skipped due to failed dependency")

/-- What a joined result does to the graph. -/
def report (deps : ToolDeps ω) (tr : ToolRequest ω) (outcome : Outcome ω) : ToolDeps ω :=
  if outcome.version?.isSome then deps.completeSuccess (graphKey tr)
  else deps.completeFailure (graphKey tr)

/-- The graph, after what was joined. -/
structure GraphInv (keys : List String) (dep : String → String → Prop)
    (log : List (ToolRequest ω × Outcome ω)) (deps : ToolDeps ω) : Prop where
  sound : DepsGraph.Sound keys dep deps (succeeded log).toFinset
    ((broken log).map graphKey).toFinset
  emitted : DepsGraph.Emitted dep deps
  accused : DepsGraph.Accused dep deps ((broken log).map graphKey).toFinset
  keyFn : deps.keyFn = graphKey

section Report

variable {keys : List String} {dep : String → String → Prop}
  {log : List (ToolRequest ω × Outcome ω)} {deps : ToolDeps ω} {tr : ToolRequest ω}
  {outcome : Outcome ω} {k : String}

theorem mem_keys_log : k ∈ log.map (fun e => graphKey e.1) ↔
    k ∈ succeeded log ∨ k ∈ (broken log).map graphKey := by
  simp only [succeeded, broken, List.mem_map, List.mem_filter, List.map_map]
  constructor
  · rintro ⟨e, he, rfl⟩
    cases hversion : e.2.version? with
    | some tv => exact .inl ⟨e, ⟨he, by rw [hversion]; rfl⟩, rfl⟩
    | none => exact .inr ⟨e, ⟨he, by rw [hversion]; rfl⟩, rfl⟩
  · rintro (⟨e, ⟨he, -⟩, rfl⟩ | ⟨e, ⟨he, -⟩, rfl⟩)
    · exact ⟨e, he, rfl⟩
    · exact ⟨e, he, rfl⟩

theorem succeeded_concat : succeeded (log ++ [(tr, outcome)]) =
    succeeded log ++ if outcome.version?.isSome then [graphKey tr] else [] := by
  rw [succeeded, List.filter_append, List.map_append]
  cases outcome <;> rfl

theorem broken_concat : broken (log ++ [(tr, outcome)]) =
    broken log ++ if outcome.version?.isSome then [] else [tr] := by
  rw [broken, List.filter_append, List.map_append]
  cases outcome <;> rfl

theorem failures_concat : failures (log ++ [(tr, outcome)]) =
    failures log ++ (outcome.error?.map fun error => (tr, error)).toList := by
  rw [failures, List.filterMap_append]
  cases outcome <;> rfl

theorem versions_concat : (log ++ [(tr, outcome)]).filterMap (·.2.version?) =
    log.filterMap (·.2.version?) ++ outcome.version?.toList := by
  rw [List.filterMap_append]
  cases outcome <;> rfl

/-- **A report keeps the graph's invariant**, and only adds messages. -/
theorem GraphInv.report (h : GraphInv keys dep log deps)
    (hkeys : ∀ a b, dep a b → a ∈ keys ∧ b ∈ keys) (hsent : graphKey tr ∈ deps.emitted)
    (hopen : graphKey tr ∉ log.map fun e => graphKey e.1) (outcome : Outcome ω) :
    GraphInv keys dep (log ++ [(tr, outcome)]) (report deps tr outcome) ∧
      ∃ more, (Toolset.report deps tr outcome).tx = deps.tx ++ more := by
  have hc : ¬ (graphKey tr ∈ (succeeded log).toFinset ∨
      graphKey tr ∈ ((broken log).map graphKey).toFinset) := by
    rw [List.mem_toFinset, List.mem_toFinset, ← mem_keys_log]
    exact hopen
  have hinsert : ∀ l : List String,
      (l ++ [graphKey tr]).toFinset = insert (graphKey tr) l.toFinset := fun l => by
    rw [List.toFinset_append, Finset.union_comm]
    rfl
  cases hversion : outcome.version?.isSome with
  | true =>
    have hsucceeded : succeeded (log ++ [(tr, outcome)]) = succeeded log ++ [graphKey tr] := by
      rw [succeeded_concat, if_pos hversion]
    have hbroken : broken (log ++ [(tr, outcome)]) = broken log := by
      rw [broken_concat, if_pos hversion, List.append_nil]
    obtain ⟨-, hkeyFn, hmore⟩ := DepsGraph.completeSuccess_frame h.sound.indexed (graphKey tr)
    obtain ⟨hsound, hemitted⟩ := h.sound.completeSuccess h.emitted
      (fun a b hab => (hkeys a b hab).2) hsent hc
    have haccused := h.accused.completeSuccess h.sound.indexed (graphKey tr)
    rw [← hinsert] at hsound
    rw [Toolset.report, if_pos hversion]
    exact ⟨⟨by rwa [hsucceeded, hbroken], hemitted, by rwa [hbroken], hkeyFn.trans h.keyFn⟩, hmore⟩
  | false =>
    have hne : ¬ outcome.version?.isSome = true := Bool.eq_false_iff.1 hversion
    have hsucceeded : succeeded (log ++ [(tr, outcome)]) = succeeded log := by
      rw [succeeded_concat, if_neg hne, List.append_nil]
    have hbroken : (broken (log ++ [(tr, outcome)])).map graphKey =
        (broken log).map graphKey ++ [graphKey tr] := by
      rw [broken_concat, if_neg hne, List.map_append]
      rfl
    obtain ⟨-, hkeyFn, hmore⟩ := DepsGraph.completeFailure_frame h.sound.indexed (graphKey tr)
    obtain ⟨hsound, hemitted⟩ := h.sound.completeFailure h.emitted hkeys hsent hc
    have haccused := h.accused.completeFailure h.sound.indexed
      (h.sound.holds_of_emitted hsent hc).1
    rw [← hinsert] at hsound haccused
    rw [Toolset.report, if_neg hne]
    exact ⟨⟨by rwa [hsucceeded, hbroken], hemitted, by rwa [hbroken], hkeyFn.trans h.keyFn⟩, hmore⟩

end Report

/-! ### What every step keeps -/

/-- How far a phase is from the first. -/
def Phase.rank : Phase → ℕ
  | .running => 0
  | .draining => 1
  | .done => 2

/-- An item of a list whose items have keys, and the items of the other keys. -/
theorem perm_cons_filter_ne {β : Type} {l : List (ℕ × β)} (h : (l.map Prod.fst).Nodup)
    {x : ℕ × β} (hx : x ∈ l) : l.Perm (x :: l.filter fun y => y.1 ≠ x.1) := by
  obtain ⟨u, v, rfl⟩ := List.append_of_mem hx
  have hperm : (u ++ x :: v).Perm (x :: (u ++ v)) := List.perm_middle
  have hnodup := (hperm.map Prod.fst).nodup_iff.1 h
  rw [List.map_cons, List.nodup_cons] at hnodup
  have hkeep : ∀ y ∈ u ++ v, decide (y.1 ≠ x.1) = true := fun y hy =>
    decide_eq_true fun heq => hnodup.1 (heq ▸ List.mem_map_of_mem hy)
  have hfilter : (u ++ x :: v).filter (fun y => y.1 ≠ x.1) = u ++ v := by
    rw [List.filter_append, List.filter_cons_of_neg (by simp), ← List.filter_append,
      List.filter_eq_self.2 hkeep]
  rw [hfilter]
  exact hperm

theorem mem_of_find? {β : Type} {l : List (ℕ × β)} {i : ℕ} {x : ℕ × β}
    (h : l.find? (fun y => y.1 = i) = some x) : x ∈ l ∧ x.1 = i := by
  have hkey := List.find?_some h
  rw [decide_eq_true_iff] at hkey
  exact ⟨List.mem_of_find?_eq_some h, hkey⟩

namespace InstallLoop

variable {jobs : ℕ} {versions : List (ToolRequest ω)} {dep : String → String → Prop}
  {acts : List (Action ω)} {log : List (ToolRequest ω × Outcome ω)} {s s' : InstallLoop ω}
  {tr : ToolRequest ω} {outcome : Outcome ω} {i : ℕ}

/-- The requests received so far. -/
def requests (log : List (ToolRequest ω × Outcome ω)) (s : InstallLoop ω) : List (ToolRequest ω) :=
  log.map Prod.fst ++ (s.ended.map fun task => task.2.1) ++ s.tasks.map Prod.snd ++ s.permit.toList

/-- The tasks of `jset`. -/
def spawned (s : InstallLoop ω) : List (ℕ × ToolRequest ω) :=
  (s.ended.map fun task => (task.1, task.2.1)) ++ s.tasks

/-- The tasks of `jset` have identifiers of their own, under which they are in flight. -/
structure Tracked (s : InstallLoop ω) : Prop where
  fresh : ∀ task ∈ s.spawned, task.1 < s.nextId
  found : ∀ task ∈ s.spawned, s.inFlight.get task.1 = some task.2
  ids : (s.spawned.map Prod.fst).Nodup

/-- What the three lists hold. -/
structure Told (versions : List (ToolRequest ω)) (log : List (ToolRequest ω × Outcome ω))
    (s : InstallLoop ω) : Prop where
  attempted : s.attemptedFailures = broken log
  open_ : s.phase ≠ .done →
    s.installed = log.filterMap (·.2.version?) ∧ s.failed = failures log
  closed : s.phase = .done →
    s.installed = (log.filterMap (·.2.version?)).mergeSort
      (fun a b => decide (position versions a ≤ position versions b)) ∧
    ∃ prepared, s.failed = failures log ++ prepared ++ skipped s.toolDeps

/-- What every step keeps. -/
structure Inv (jobs : ℕ) (versions : List (ToolRequest ω)) (dep : String → String → Prop)
    (acts : List (Action ω)) (log : List (ToolRequest ω × Outcome ω)) (s : InstallLoop ω) :
    Prop where
  graph : GraphInv (versions.map graphKey) dep log s.toolDeps
  within : s.received ≤ s.toolDeps.tx.length
  taken : ((s.toolDeps.tx.take s.received).filterMap id).Perm (s.requests log)
  listening : s.phase = .running → none ∉ s.toolDeps.tx.take s.received
  drained : s.phase ≠ .running →
    s.permit = none ∧ s.tasks = [] ∧ s.ended = [] ∧ none ∈ s.toolDeps.tx
  bounded : s.tasks.length ≤ jobs
  tracked : s.Tracked
  told : s.Told versions log
  counted : acts.length = 4 * log.length + 3 * s.ended.length + 2 * s.tasks.length +
    s.permit.toList.length + s.phase.rank

/-- The tasks in flight behind a result. -/
def inFlightAfter (s : InstallLoop ω) (i : ℕ) : Outcome ω → IndexMap ℕ (ToolRequest ω)
  | .panicked _ => s.inFlight.shiftRemove i
  | .installed _ | .failed _ => s.inFlight

/-- What a joined result does: a panic's request is found. -/
theorem complete_eq (h : s.inFlight.get i = some tr) : s.complete i tr outcome =
    { s with
      toolDeps := report s.toolDeps tr outcome
      inFlight := s.inFlightAfter i outcome
      installed := s.installed ++ outcome.version?.toList
      failed := s.failed ++ (outcome.error?.map fun error => (tr, error)).toList
      attemptedFailures :=
        s.attemptedFailures ++ if outcome.version?.isSome then [] else [tr] } := by
  cases outcome with
  | installed tv => simp [complete, report, inFlightAfter, Outcome.version?, Outcome.error?]
  | failed error => simp [complete, report, inFlightAfter, Outcome.version?, Outcome.error?]
  | panicked message =>
    simp [complete, report, inFlightAfter, Outcome.version?, Outcome.error?, h]

theorem get_inFlightAfter {other : ℕ} (hne : other ≠ i) :
    (s.inFlightAfter i outcome).get other = s.inFlight.get other := by
  cases outcome with
  | installed tv => rfl
  | failed error => rfl
  | panicked message => rw [inFlightAfter, IndexMap.get_shiftRemove, if_neg hne]

/-- Every request received has a key of its own, that was sent. -/
theorem Inv.nodup_keys (h : Inv jobs versions dep acts log s) :
    ((s.requests log).map graphKey).Nodup ∧
      ∀ tr ∈ s.requests log, graphKey tr ∈ s.toolDeps.emitted := by
  have hemitted : s.toolDeps.emitted = (s.toolDeps.tx.filterMap id).map graphKey := by
    rw [DepsGraph.emitted, h.graph.keyFn, List.map_filterMap]
    rfl
  have hsub : ((s.toolDeps.tx.take s.received).filterMap id).Sublist
      (s.toolDeps.tx.filterMap id) :=
    (List.take_sublist _ _).filterMap id
  constructor
  · refine (h.taken.map graphKey).nodup_iff.1 ?_
    exact (hemitted ▸ h.graph.sound.nodup).sublist (hsub.map graphKey)
  · intro tr htr
    rw [hemitted]
    exact List.mem_map_of_mem (hsub.subset (h.taken.mem_iff.2 htr))

/-- What is not joined is not reported. -/
theorem Inv.not_joined (h : Inv jobs versions dep acts log s)
    (hmem : tr ∈ (s.ended.map fun task => task.2.1) ++ s.tasks.map Prod.snd ++ s.permit.toList) :
    graphKey tr ∉ log.map fun e => graphKey e.1 := by
  intro hlog
  have hnodup := h.nodup_keys.1
  rw [requests, List.append_assoc, List.append_assoc, List.map_append, List.nodup_append] at hnodup
  refine hnodup.2.2 (graphKey tr) ?_ (graphKey tr) ?_ rfl
  · rwa [List.map_map]
  · rw [← List.append_assoc]
    exact List.mem_map_of_mem hmem

/-- Receiving. -/
theorem Inv.receive (h : Inv jobs versions dep acts log s)
    (hstep : s.step jobs versions .receive = some s') :
    Inv jobs versions dep (acts ++ [.receive]) log s' := by
  rw [step] at hstep
  split at hstep
  · case isTrue hphase =>
    split at hstep
    · case h_1 tr hnext =>
      obtain rfl := Option.some.inj hstep
      have htake : s.toolDeps.tx.take (s.received + 1) =
          s.toolDeps.tx.take s.received ++ [some tr] := by
        rw [List.take_add_one, hnext]
        rfl
      have hlt : s.received < s.toolDeps.tx.length := (List.getElem?_eq_some_iff.1 hnext).1
      refine ⟨h.graph, hlt, ?_, fun hrun => ?_, fun hne => absurd hphase.1 hne, h.bounded,
        ⟨h.tracked.fresh, h.tracked.found, h.tracked.ids⟩,
        ⟨h.told.attempted, h.told.open_, h.told.closed⟩, ?_⟩
      · have htaken := h.taken
        rw [requests, hphase.2, Option.toList_none, List.append_nil] at htaken
        dsimp only
        rw [htake, List.filterMap_append, requests]
        exact htaken.append_right [tr]
      · dsimp only
        rw [htake, List.mem_append, not_or]
        exact ⟨h.listening hphase.1, by simp⟩
      · have hcounted := h.counted
        rw [hphase.2, Option.toList_none, List.length_nil] at hcounted
        simp only [List.length_append, List.length_singleton, hcounted, Option.toList_some]
        omega
    · case h_2 hnext =>
      obtain rfl := Option.some.inj hstep
      have hnone : none ∈ s.toolDeps.tx := List.mem_of_getElem? hnext
      have hlt : s.received < s.toolDeps.tx.length := (List.getElem?_eq_some_iff.1 hnext).1
      -- what is sent and not reported keeps the stream open, so all of it was joined
      have hjoined : ∀ tr ∈ (s.ended.map fun task => task.2.1) ++ s.tasks.map Prod.snd ++
          s.permit.toList, False := fun tr htr => by
        have hsent := h.nodup_keys.2 tr (by
          rw [requests, List.append_assoc, List.append_assoc, ← List.append_assoc (s.ended.map _)]
          exact List.mem_append_right _ htr)
        refine h.graph.emitted.stream_open h.graph.sound hsent ?_ hnone
        rw [List.mem_toFinset, List.mem_toFinset, ← mem_keys_log]
        exact h.not_joined htr
      have hended : s.ended = [] := by
        cases hs : s.ended with
        | nil => rfl
        | cons task rest => exact (hjoined task.2.1 (by simp [hs])).elim
      have htasks : s.tasks = [] := by
        cases hs : s.tasks with
        | nil => rfl
        | cons task rest => exact (hjoined task.2 (by simp [hs])).elim
      have htake : s.toolDeps.tx.take (s.received + 1) =
          s.toolDeps.tx.take s.received ++ [none] := by
        rw [List.take_add_one, hnext]
        rfl
      refine ⟨h.graph, hlt, ?_, fun hrun => (nomatch hrun),
        fun _ => ⟨hphase.2, htasks, hended, hnone⟩, h.bounded,
        ⟨h.tracked.fresh, h.tracked.found, h.tracked.ids⟩,
        ⟨h.told.attempted, fun _ => h.told.open_ (hphase.1 ▸ nofun), fun hdone => (nomatch hdone)⟩,
        ?_⟩
      · dsimp only
        rw [htake, List.filterMap_append]
        exact (List.append_nil _).symm ▸ h.taken
      · have hcounted := h.counted
        rw [hphase.1] at hcounted
        rw [List.length_append, hcounted]
        rfl
    · cases hstep
  · cases hstep

/-- Spawning. -/
theorem Inv.spawn (h : Inv jobs versions dep acts log s)
    (hstep : s.step jobs versions .spawn = some s') :
    Inv jobs versions dep (acts ++ [.spawn]) log s' := by
  rw [step] at hstep
  split at hstep
  · case h_1 tr hpermit =>
    split at hstep
    · case isTrue hlt =>
      obtain rfl := Option.some.inj hstep
      have hspawned : ∀ task ∈ s.spawned ++ [(s.nextId, tr)],
          task ∈ s.spawned ∨ task = (s.nextId, tr) := fun task htask => by simpa using htask
      have happend : (s.ended.map fun task => (task.1, task.2.1)) ++ (s.tasks ++ [(s.nextId, tr)]) =
          s.spawned ++ [(s.nextId, tr)] := (List.append_assoc _ _ _).symm
      refine ⟨h.graph, h.within, ?_, h.listening, fun hne => ?_, ?_, ⟨?_, ?_, ?_⟩,
        ⟨h.told.attempted, h.told.open_, h.told.closed⟩, ?_⟩
      · have htaken := h.taken
        rw [requests, hpermit] at htaken
        rw [requests]
        simpa using htaken
      · have hnone := (h.drained hne).1
        rw [hpermit] at hnone
        cases hnone
      · rw [List.length_append]
        exact hlt
      · rw [spawned, happend]
        intro task htask
        rcases hspawned task htask with htask | rfl
        · exact Nat.lt_succ_of_lt (h.tracked.fresh task htask)
        · exact Nat.lt_succ_self _
      · rw [spawned, happend]
        intro task htask
        rcases hspawned task htask with htask | rfl
        · have hne := (h.tracked.fresh task htask).ne
          rw [IndexMap.get_insert, if_neg hne]
          exact h.tracked.found task htask
        · rw [IndexMap.get_insert, if_pos rfl]
      · rw [spawned, happend, List.map_append, List.nodup_append]
        refine ⟨h.tracked.ids, List.nodup_singleton _, ?_⟩
        rintro a ha b hb rfl
        obtain ⟨task, htask, rfl⟩ := List.mem_map.1 ha
        have heq : task.1 = s.nextId := List.mem_singleton.1 hb
        exact absurd heq (h.tracked.fresh task htask).ne
      · have hcounted := h.counted
        rw [hpermit, Option.toList_some, List.length_singleton] at hcounted
        simp only [List.length_append, List.length_singleton, Option.toList_none, List.length_nil]
        omega
    · cases hstep
  · cases hstep

/-- An installer ends. -/
theorem Inv.finish (h : Inv jobs versions dep acts log s)
    (hstep : s.step jobs versions (.finish i outcome) = some s') :
    Inv jobs versions dep (acts ++ [.finish i outcome]) log s' := by
  rw [step] at hstep
  split at hstep
  · case h_1 task hfind =>
    obtain rfl := Option.some.inj hstep
    obtain ⟨htask, rfl⟩ := mem_of_find? hfind
    have hids := h.tracked.ids
    rw [spawned, List.map_append, List.nodup_append] at hids
    have hperm := perm_cons_filter_ne hids.2.1 htask
    have hspawned : (((s.ended ++ [(task.1, task.2, outcome)]).map
          fun task => (task.1, task.2.1)) ++
        s.tasks.filter fun other => other.1 ≠ task.1).Perm s.spawned := by
      rw [List.map_append, List.append_assoc]
      exact hperm.symm.append_left _
    have hrunning : s.phase = .running := by
      by_contra hne
      rw [(h.drained hne).2.1] at htask
      exact absurd htask List.not_mem_nil
    refine ⟨h.graph, h.within, ?_, h.listening, fun hne => absurd hrunning hne, ?_, ⟨?_, ?_, ?_⟩,
      ⟨h.told.attempted, h.told.open_, h.told.closed⟩, ?_⟩
    · refine h.taken.trans ?_
      rw [requests, requests]
      refine List.Perm.append_right _ ?_
      rw [List.map_append, List.append_assoc, List.append_assoc, List.append_assoc]
      refine List.Perm.append_left _ (List.Perm.append_left _ ?_)
      exact hperm.map Prod.snd
    · exact (List.length_filter_le _ _).trans h.bounded
    · intro other hother
      exact h.tracked.fresh other (hspawned.mem_iff.1 hother)
    · intro other hother
      exact h.tracked.found other (hspawned.mem_iff.1 hother)
    · exact (hspawned.map Prod.fst).nodup_iff.2 h.tracked.ids
    · have hcounted := h.counted
      have hlength := hperm.length_eq
      rw [List.length_cons] at hlength
      simp only [List.length_append, List.length_singleton]
      omega
  · cases hstep

/-- Joining. -/
theorem Inv.join (h : Inv jobs versions dep acts log s)
    (hkeys : ∀ a b, dep a b → a ∈ versions.map graphKey ∧ b ∈ versions.map graphKey)
    (hstep : s.step jobs versions (.join i) = some s') :
    Inv jobs versions dep (acts ++ [.join i]) (log ++ s.joined (.join i)) s' := by
  rw [step] at hstep
  split at hstep
  · case isTrue hphase =>
    split at hstep
    · case h_1 task hfind =>
      rw [joined, hfind]
      obtain ⟨htask, rfl⟩ := mem_of_find? hfind
      obtain ⟨i, tr, outcome⟩ := task
      dsimp only at hstep ⊢
      have hids := h.tracked.ids
      rw [spawned, List.map_append, List.nodup_append, List.map_map] at hids
      have hperm : s.ended.Perm ((i, tr, outcome) :: s.ended.filter fun task => task.1 ≠ i) :=
        perm_cons_filter_ne hids.1 htask
      have hmem : (i, tr) ∈ s.spawned :=
        List.mem_append_left _ (List.mem_map.2 ⟨(i, tr, outcome), htask, rfl⟩)
      have hrunning : s.phase = .running := by
        by_contra hne
        rw [(h.drained hne).2.2.1] at htask
        exact absurd htask List.not_mem_nil
      have hspawned : ((i, tr) :: ((s.ended.filter fun task => task.1 ≠ i).map
          fun task => (task.1, task.2.1)) ++ s.tasks).Perm s.spawned :=
        (hperm.map fun task => (task.1, task.2.1)).symm.append_right _
      have hothers : ∀ other ∈ ((s.ended.filter fun task => task.1 ≠ i).map
          fun task => (task.1, task.2.1)) ++ s.tasks, other ∈ s.spawned ∧ other.1 ≠ i := by
        have hnodup := (hspawned.map Prod.fst).nodup_iff.2 h.tracked.ids
        rw [List.cons_append, List.map_cons, List.nodup_cons] at hnodup
        intro other hother
        refine ⟨hspawned.subset (List.mem_cons_of_mem _ hother), ?_⟩
        intro heq
        have hmem := List.mem_map_of_mem (f := Prod.fst) hother
        rw [heq] at hmem
        exact hnodup.1 hmem
      have hwaiting : tr ∈ (s.ended.map fun task => task.2.1) ++ s.tasks.map Prod.snd ++
          s.permit.toList := by
        rw [List.append_assoc]
        exact List.mem_append_left _ (List.mem_map.2 ⟨_, htask, rfl⟩)
      have hsent := h.nodup_keys.2 tr (by
        rw [requests, List.append_assoc, List.append_assoc, ← List.append_assoc (s.ended.map _)]
        exact List.mem_append_right _ hwaiting)
      obtain ⟨hgraph, more, hmore⟩ := h.graph.report hkeys hsent (h.not_joined hwaiting)
        outcome
      have hget : ({ s with ended := s.ended.filter fun task => task.1 ≠ i } :
          InstallLoop ω).inFlight.get i = some tr := h.tracked.found _ hmem
      rw [complete_eq hget] at hstep
      obtain rfl := Option.some.inj hstep
      have htake : (report s.toolDeps tr outcome).tx.take s.received =
          s.toolDeps.tx.take s.received := by
        rw [hmore, List.take_append_of_le_length h.within]
      obtain ⟨hinstalled, hfailed⟩ := h.told.open_ (hrunning ▸ nofun)
      refine ⟨hgraph, ?_, ?_, ?_, fun hne => absurd hrunning hne, h.bounded, ⟨?_, ?_, ?_⟩,
        ⟨?_, fun _ => ⟨?_, ?_⟩, fun hdone => (nomatch hrunning.symm.trans hdone)⟩, ?_⟩
      · dsimp only
        rw [hmore, List.length_append]
        exact Nat.le_add_right_of_le h.within
      · dsimp only
        rw [htake]
        refine h.taken.trans ?_
        rw [requests, requests]
        refine List.Perm.append_right _ (List.Perm.append_right _ ?_)
        rw [List.map_append, List.append_assoc]
        exact List.Perm.append_left _ (hperm.map fun task => task.2.1)
      · dsimp only
        rw [htake]
        exact h.listening
      · exact fun other hother => h.tracked.fresh other (hothers other hother).1
      · intro other hother
        obtain ⟨hother, hne⟩ := hothers other hother
        dsimp only
        rw [get_inFlightAfter hne]
        exact h.tracked.found other hother
      · have hnodup := (hspawned.map Prod.fst).nodup_iff.2 h.tracked.ids
        rw [List.cons_append, List.map_cons, List.nodup_cons] at hnodup
        exact hnodup.2
      · exact (congrArg (· ++ _) h.told.attempted).trans broken_concat.symm
      · exact (congrArg (· ++ _) hinstalled).trans versions_concat.symm
      · exact (congrArg (· ++ _) hfailed).trans failures_concat.symm
      · have hcounted := h.counted
        have hlength := hperm.length_eq
        rw [List.length_cons] at hlength
        simp only [List.length_append, List.length_singleton, Option.map_some, Option.toList_some]
        omega
    · cases hstep
  · cases hstep

/-- Returning. -/
theorem Inv.close (h : Inv jobs versions dep acts log s) {prepared : List (ToolRequest ω × String)}
    (hstep : s.step jobs versions (.close prepared) = some s') :
    Inv jobs versions dep (acts ++ [.close prepared]) log s' := by
  rw [step] at hstep
  split at hstep
  · case isTrue hphase =>
    obtain rfl := Option.some.inj hstep
    obtain ⟨hinstalled, hfailed⟩ := h.told.open_ (hphase.1 ▸ nofun)
    refine ⟨h.graph, h.within, h.taken, fun hrun => (nomatch hrun),
      fun _ => h.drained (hphase.1 ▸ nofun), h.bounded,
      ⟨h.tracked.fresh, h.tracked.found, h.tracked.ids⟩,
      ⟨h.told.attempted, fun hne => absurd rfl hne, fun _ => ⟨?_, prepared, ?_⟩⟩, ?_⟩
    · dsimp only
      rw [hinstalled]
    · dsimp only
      rw [hfailed]
      rfl
    · have hcounted := h.counted
      rw [hphase.1] at hcounted
      rw [List.length_append, hcounted]
      rfl
  · cases hstep

/-- **Every step keeps it.** -/
theorem Inv.step (h : Inv jobs versions dep acts log s)
    (hkeys : ∀ a b, dep a b → a ∈ versions.map graphKey ∧ b ∈ versions.map graphKey)
    {a : Action ω} (hstep : s.step jobs versions a = some s') :
    Inv jobs versions dep (acts ++ [a]) (log ++ s.joined a) s' := by
  cases a with
  | receive => exact (List.append_nil log).symm ▸ h.receive hstep
  | spawn => exact (List.append_nil log).symm ▸ h.spawn hstep
  | finish i outcome => exact (List.append_nil log).symm ▸ h.finish hstep
  | join i => exact h.join hkeys hstep
  | close prepared => exact (List.append_nil log).symm ▸ h.close hstep

/-- What was joined and what is skipped are keys of their own. -/
theorem Inv.nodup_ends (h : Inv jobs versions dep acts log s) :
    (succeeded log ++ (broken log).map graphKey ++
      (blockedTools s.toolDeps).map graphKey).Nodup := by
  have hlog : (log.map fun e => graphKey e.1).Nodup := by
    have hnodup := h.nodup_keys.1
    rw [requests, List.append_assoc, List.append_assoc, List.map_append, List.nodup_append,
      List.map_map] at hnodup
    exact hnodup.1
  have hsplit : (succeeded log ++ (broken log).map graphKey).Perm
      (log.map fun e => graphKey e.1) := by
    have hnot : (fun e : ToolRequest ω × Outcome ω => e.2.version?.isNone) =
        fun e => !e.2.version?.isSome := by
      funext e
      exact (Option.not_isSome e.2.version?).symm
    rw [succeeded, broken, List.map_map, hnot]
    have hperm := (List.filter_append_perm (fun e : ToolRequest ω × Outcome ω =>
      e.2.version?.isSome) log).map fun e => graphKey e.1
    rwa [List.map_append] at hperm
  have hblocked := nodup_blockedTools h.graph.sound.indexed
  rw [h.graph.keyFn] at hblocked
  refine List.nodup_append.2 ⟨hsplit.nodup_iff.2 hlog, hblocked, ?_⟩
  rintro k hk _ hk' rfl
  rw [← h.graph.keyFn, mem_blockedTools h.graph.sound.indexed] at hk'
  refine ((h.graph.sound.holds k).1 hk'.1).2 ?_
  rw [List.mem_toFinset, List.mem_toFinset, ← List.mem_append]
  exact hk

/-- As many steps as there are requests to take them, and two. -/
theorem Inv.length_le (h : Inv jobs versions dep acts log s) :
    acts.length ≤ 4 * (versions.map graphKey).dedup.length + 2 := by
  obtain ⟨hnodup, hsent⟩ := h.nodup_keys
  have hsub : (s.requests log).map graphKey ⊆ (versions.map graphKey).dedup := by
    intro k hk
    obtain ⟨tr, htr, rfl⟩ := List.mem_map.1 hk
    have hkey := (h.graph.sound.emitted _).1 (hsent tr htr)
    exact List.mem_dedup.2 (h.graph.sound.known _ hkey)
  have hle := (hnodup.subperm hsub).length_le
  have hcounted := h.counted
  have hrank : s.phase.rank ≤ 2 := by
    cases s.phase <;> decide
  simp only [requests, List.length_map, List.length_append] at hle
  omega

/-- **The loop waits for installers only.** -/
theorem Inv.progress (h : Inv jobs versions dep acts log s) (hjobs : 0 < jobs)
    (hidle : s.tasks = []) (hopen : s.phase ≠ .done) :
    ∃ a, (∀ i outcome, a ≠ .finish i outcome) ∧ (s.step jobs versions a).isSome = true := by
  by_cases hrunning : s.phase = .running
  · cases hpermit : s.permit with
    | some tr =>
      refine ⟨.spawn, (fun _ _ h => by cases h), ?_⟩
      rw [InstallLoop.step, hpermit]
      dsimp only
      rw [if_pos (by rw [hidle]; exact hjobs)]
      rfl
    | none =>
      cases hended : s.ended with
      | cons task rest =>
        refine ⟨.join task.1, (fun _ _ h => by cases h), ?_⟩
        rw [InstallLoop.step, if_pos ⟨hopen, hpermit⟩, hended, List.find?_cons_of_pos (by simp)]
        rfl
      | nil =>
        -- all that was received is joined, so the graph has sent more
        have hlt : s.received < s.toolDeps.tx.length := by
          by_contra hge
          have htake := List.take_of_length_le (Nat.le_of_not_lt hge)
          have htaken := h.taken
          rw [htake, requests, hended, hidle, hpermit] at htaken
          simp only [List.map_nil, List.append_nil, Option.toList_none] at htaken
          have hdone : ∀ k ∈ s.toolDeps.emitted, k ∈ (succeeded log).toFinset ∨
              k ∈ ((broken log).map graphKey).toFinset := by
            intro k hk
            rw [DepsGraph.emitted, h.graph.keyFn] at hk
            obtain ⟨m, hm, hkey⟩ := List.mem_filterMap.1 hk
            obtain ⟨tr, rfl, rfl⟩ := Option.map_eq_some_iff.1 hkey
            rw [List.mem_toFinset, List.mem_toFinset, ← mem_keys_log, ← Function.comp_def graphKey,
              ← List.map_map]
            exact List.mem_map_of_mem (htaken.subset (List.mem_filterMap.2 ⟨_, hm, rfl⟩))
          have hnone := h.graph.emitted.closing.2 (h.graph.sound.all_blocked h.graph.emitted hdone)
          exact h.listening hrunning (htake.symm ▸ hnone)
        have hnext := List.getElem?_eq_getElem hlt
        cases hm : s.toolDeps.tx[s.received] with
        | none =>
          refine ⟨.receive, (fun _ _ h => by cases h), ?_⟩
          rw [InstallLoop.step, if_pos ⟨hrunning, hpermit⟩, hnext, hm]
          rfl
        | some tr =>
          refine ⟨.receive, (fun _ _ h => by cases h), ?_⟩
          rw [InstallLoop.step, if_pos ⟨hrunning, hpermit⟩, hnext, hm]
          rfl
  · obtain ⟨-, htasks, hended, -⟩ := h.drained hrunning
    have hdraining : s.phase = .draining := by
      cases hphase : s.phase with
      | running => exact absurd hphase hrunning
      | draining => rfl
      | done => exact absurd hphase hopen
    refine ⟨.close [], (fun _ _ h => by cases h), ?_⟩
    rw [InstallLoop.step, if_pos ⟨hdraining, htasks, hended⟩]
    rfl

/-- While the loop has not returned, it can take a step, or an installer can end. -/
theorem Inv.can_step (h : Inv jobs versions dep acts log s) (hjobs : 0 < jobs)
    (hopen : s.phase ≠ .done) (results : ℕ → Outcome ω) :
    ∃ a s', s.step jobs versions a = some s' ∧
      ∀ i outcome, a = .finish i outcome → outcome = results i := by
  cases htasks : s.tasks with
  | nil =>
    obtain ⟨a, hne, hstep⟩ := h.progress hjobs htasks hopen
    obtain ⟨s', hs'⟩ := Option.isSome_iff_exists.1 hstep
    exact ⟨a, s', hs', fun i outcome heq => absurd heq (hne i outcome)⟩
  | cons task rest =>
    have hstep : (s.step jobs versions (.finish task.1 (results task.1))).isSome = true := by
      rw [InstallLoop.step, htasks, List.find?_cons_of_pos (by simp)]
      rfl
    obtain ⟨s', hs'⟩ := Option.isSome_iff_exists.1 hstep
    refine ⟨_, s', hs', ?_⟩
    rintro i outcome ⟨⟩
    rfl

section Runs

variable [DecidableEq ω] {matchesRequest : ToolRequest ω → ToolRequest ω → Bool}
  {isCyclicDirected : StableGraph (ToolRequest ω) → Bool} {s₀ : InstallLoop ω}

/-- The invariant holds when the loop starts. -/
theorem inv_start (hcyc : CyclicSpec isCyclicDirected matchesRequest versions)
    (hstart : installWithDeps isCyclicDirected matchesRequest versions = .inr s₀) :
    Inv jobs versions (ToolDependsOn matchesRequest versions) [] [] s₀ := by
  rw [installWithDeps] at hstart
  split at hstart
  · cases hstart
  · split at hstart
    · cases hstart
    · case h_2 deps hnew =>
      obtain rfl := Sum.inr.inj hstart
      have hnew := new_eq_ok hnew
      have hkey : ∀ e ∈ versions.map fun tr => (graphKey tr, tr), graphKey e.2 = e.1 := by
        intro e he
        obtain ⟨tr, -, rfl⟩ := List.mem_map.1 he
        rfl
      have hmap : (versions.map fun tr => (graphKey tr, tr)).map Prod.fst =
          versions.map graphKey := by
        rw [List.map_map]
        rfl
      obtain ⟨hsound, hemitted⟩ := DepsGraph.sound_start hkey hcyc hnew
      obtain ⟨haccused, hkeyFn⟩ := DepsGraph.accused_start hkey hcyc hnew
      rw [dep_eq, hmap] at hsound
      rw [dep_eq] at hemitted haccused
      refine ⟨⟨hsound, hemitted, haccused, hkeyFn⟩, Nat.zero_le _, List.Perm.nil,
        fun _ => List.not_mem_nil, fun hne => absurd rfl hne, Nat.zero_le _,
        ⟨nofun, nofun, List.nodup_nil⟩, ⟨rfl, fun _ => ⟨rfl, rfl⟩, fun hdone => (nomatch hdone)⟩,
        rfl⟩

omit [DecidableEq ω] in
theorem keys_of_dependsOn {a b : String} (h : ToolDependsOn matchesRequest versions a b) :
    a ∈ versions.map graphKey ∧ b ∈ versions.map graphKey := by
  obtain ⟨-, tr, htr, other, hother, -, rfl, rfl⟩ := h
  exact ⟨List.mem_map_of_mem htr, List.mem_map_of_mem hother⟩

/-- **Every run keeps it.** -/
theorem Run.inv (hcyc : CyclicSpec isCyclicDirected matchesRequest versions)
    (hstart : installWithDeps isCyclicDirected matchesRequest versions = .inr s₀)
    (hrun : Run jobs versions s₀ acts log s) :
    Inv jobs versions (ToolDependsOn matchesRequest versions) acts log s := by
  induction hrun with
  | start => exact inv_start hcyc hstart
  | step _ hstep ih => exact ih.step (fun _ _ => keys_of_dependsOn) hstep

/-- The requests whose installers were started. -/
def started (log : List (ToolRequest ω × Outcome ω)) (s : InstallLoop ω) : List (ToolRequest ω) :=
  log.map Prod.fst ++ (s.ended.map fun task => task.2.1) ++ s.tasks.map Prod.snd

/-- **Each installer is started once, behind all it depends on**, and never more of them
than there are permits.  None is started of a tool that leads into a cycle or that
depends on one that failed. -/
theorem started_behind_dependencies
    (hcyc : CyclicSpec isCyclicDirected matchesRequest versions)
    (hstart : installWithDeps isCyclicDirected matchesRequest versions = .inr s₀)
    (hrun : Run jobs versions s₀ acts log s) :
    s.tasks.length ≤ jobs ∧ ((started log s).map graphKey).Nodup ∧
      ∀ tr ∈ started log s,
        (∀ d, ToolDependsOn matchesRequest versions (graphKey tr) d → d ∈ succeeded log) ∧
        ¬ ReachesCycle (ToolDependsOn matchesRequest versions) (graphKey tr) ∧
        ∀ other ∈ broken log, ¬ Relation.TransGen (ToolDependsOn matchesRequest versions)
          (graphKey tr) (graphKey other) := by
  have h := hrun.inv hcyc hstart
  have hsplit : s.requests log = started log s ++ s.permit.toList := rfl
  obtain ⟨hnodup, hsent⟩ := h.nodup_keys
  rw [hsplit, List.map_append] at hnodup
  refine ⟨h.bounded, (List.nodup_append.1 hnodup).1, fun tr htr => ?_⟩
  have hemitted := hsent tr (hsplit ▸ List.mem_append_left _ htr)
  have hkey := (h.graph.sound.emitted _).1 hemitted
  refine ⟨fun d hd => List.mem_toFinset.1 (h.graph.sound.ready _ hkey d hd), fun hreach => ?_,
    fun other hother hdep => ?_⟩
  · exact h.graph.sound.free _ hkey
      (h.graph.sound.cycles _ (h.graph.sound.known _ hkey) hreach)
  · have hfailed := List.mem_toFinset.2 (List.mem_map_of_mem (f := graphKey) hother)
    exact h.graph.sound.free _ hkey (h.graph.sound.failures _ hfailed _ hdep).2

/-- **Every request is told of once.**  When the loop returns, a key was installed, or
failed, or is skipped, and only one of these; what is skipped leads into a cycle or
depends on a tool that failed, and all of that is skipped.  The versions are in the
order of the requests. -/
theorem every_request_told (hcyc : CyclicSpec isCyclicDirected matchesRequest versions)
    (hstart : installWithDeps isCyclicDirected matchesRequest versions = .inr s₀)
    (hrun : Run jobs versions s₀ acts log s) (hdone : s.phase = .done) :
    (s.installed.Perm (log.filterMap (·.2.version?)) ∧
      s.installed.Pairwise fun a b => position versions a ≤ position versions b) ∧
    (∃ prepared, s.failed = failures log ++ prepared ++ skipped s.toolDeps) ∧
    s.attemptedFailures = broken log ∧
    (succeeded log ++ (broken log).map graphKey ++ (blockedTools s.toolDeps).map graphKey).Perm
      (versions.map graphKey).dedup ∧
    ∀ k ∈ versions.map graphKey, (k ∈ (blockedTools s.toolDeps).map graphKey ↔
      ReachesCycle (ToolDependsOn matchesRequest versions) k ∨
        ∃ other ∈ broken log,
          Relation.TransGen (ToolDependsOn matchesRequest versions) k (graphKey other)) := by
  have h := hrun.inv hcyc hstart
  have hsound := h.graph.sound
  obtain ⟨hinstalled, prepared, hfailed⟩ := h.told.closed hdone
  have hclosed := h.graph.emitted.closing.1 (h.drained (hdone ▸ nofun)).2.2.2
  have hjoined : ∀ k, (k ∈ (succeeded log).toFinset ∨ k ∈ ((broken log).map graphKey).toFinset) ↔
      k ∈ succeeded log ++ (broken log).map graphKey := fun k => by
    rw [List.mem_toFinset, List.mem_toFinset, List.mem_append]
  have hblocked : ∀ k, k ∈ (blockedTools s.toolDeps).map graphKey ↔
      s.toolDeps.Holds k ∧ k ∈ s.toolDeps.blocked := fun k => by
    rw [← h.graph.keyFn]
    exact mem_blockedTools hsound.indexed
  have hholds : ∀ k, s.toolDeps.Holds k ↔ k ∈ versions.map graphKey ∧
      k ∉ succeeded log ++ (broken log).map graphKey := fun k => by
    rw [← hjoined]
    exact hsound.holds k
  refine ⟨⟨?_, ?_⟩, ⟨prepared, hfailed⟩, h.told.attempted, ?_, fun k hk => ?_⟩
  · rw [hinstalled]
    exact List.mergeSort_perm _ _
  · rw [hinstalled]
    have htrans : ∀ a b c : ToolVersion ω, decide (position versions a ≤ position versions b) →
        decide (position versions b ≤ position versions c) →
        decide (position versions a ≤ position versions c) := by
      simpa only [decide_eq_true_iff] using fun a b c => Nat.le_trans
    have htotal : ∀ a b : ToolVersion ω, (decide (position versions a ≤ position versions b) ||
        decide (position versions b ≤ position versions a)) = true := by
      simpa using fun a b => Nat.le_total _ _
    exact (List.pairwise_mergeSort htrans htotal _).imp of_decide_eq_true
  · rw [List.perm_ext_iff_of_nodup h.nodup_ends (List.nodup_dedup _)]
    intro k
    rw [List.mem_dedup, List.mem_append, hblocked, hholds]
    constructor
    · rintro (hk | hk)
      · exact hsound.known k (hsound.completed k ((hjoined k).2 hk))
      · exact hk.1.1
    · intro hk
      by_cases hlog : k ∈ succeeded log ++ (broken log).map graphKey
      · exact .inl hlog
      · exact .inr ⟨⟨hk, hlog⟩, hclosed k ((hholds k).2 ⟨hk, hlog⟩)⟩
  · rw [hblocked]
    constructor
    · rintro ⟨-, hk⟩
      refine (h.graph.accused k hk).imp_right ?_
      rintro ⟨f, hf, hdep⟩
      obtain ⟨other, hother, rfl⟩ := List.mem_map.1 (List.mem_toFinset.1 hf)
      exact ⟨other, hother, hdep⟩
    · rintro (hreach | ⟨other, hother, hdep⟩)
      · have hk' := hsound.cycles k hk hreach
        refine ⟨(hsound.holds k).2 ⟨hk, fun hlog => ?_⟩, hk'⟩
        exact hsound.free k (hsound.completed k hlog) hk'
      · exact hsound.failures _ (List.mem_toFinset.2 (List.mem_map_of_mem (f := graphKey) hother))
          k hdep

/-- **Every run ends, whatever the installers do.**  It has at most four steps for each
request and two more; before its end an installer runs, or the loop can take a step of
its own; and from everywhere it comes to its end, with any results of the installers. -/
theorem run_ends (hcyc : CyclicSpec isCyclicDirected matchesRequest versions)
    (hstart : installWithDeps isCyclicDirected matchesRequest versions = .inr s₀)
    (hjobs : 0 < jobs) (hrun : Run jobs versions s₀ acts log s) :
    acts.length ≤ 4 * (versions.map graphKey).dedup.length + 2 ∧
    (s.phase ≠ .done → s.tasks ≠ [] ∨
      ∃ a, (∀ i outcome, a ≠ .finish i outcome) ∧ (s.step jobs versions a).isSome = true) ∧
    ∀ results : ℕ → Outcome ω, ∃ acts' log' s', Run jobs versions s₀ (acts ++ acts') log' s' ∧
      s'.phase = .done ∧ ∀ i outcome, .finish i outcome ∈ acts' → outcome = results i := by
  have h := hrun.inv hcyc hstart
  refine ⟨h.length_le, fun hopen => ?_, fun results => ?_⟩
  · by_cases hidle : s.tasks = []
    · exact .inr (h.progress hjobs hidle hopen)
    · exact .inl hidle
  · -- the induction is on the steps that are left
    generalize hleft : 4 * (versions.map graphKey).dedup.length + 2 - acts.length = left
    induction left generalizing acts log s with
    | zero =>
      by_cases hdone : s.phase = .done
      · exact ⟨[], log, s, by rwa [List.append_nil], hdone, nofun⟩
      · obtain ⟨a, s', hstep, -⟩ := h.can_step hjobs hdone results
        have hlast := ((hrun.step hstep).inv hcyc hstart).length_le
        rw [List.length_append, List.length_singleton] at hlast
        omega
    | succ left ih =>
      by_cases hdone : s.phase = .done
      · exact ⟨[], log, s, by rwa [List.append_nil], hdone, nofun⟩
      · obtain ⟨a, s', hstep, hresult⟩ := h.can_step hjobs hdone results
        have hnext := hrun.step hstep
        obtain ⟨acts', log', s'', hrun', hdone', hall⟩ := ih hnext (hnext.inv hcyc hstart) (by
          rw [List.length_append, List.length_singleton]
          omega)
        rw [List.append_assoc] at hrun'
        refine ⟨[a] ++ acts', log', s'', hrun', hdone', fun i outcome hmem => ?_⟩
        rcases List.mem_append.1 hmem with hmem | hmem
        · exact hresult i outcome (List.mem_singleton.1 hmem).symm
        · exact hall i outcome hmem

end Runs

/-- A sequence of actions, with what it joins. -/
def replay (jobs : ℕ) (versions : List (ToolRequest ω)) :
    InstallLoop ω → List (Action ω) → Option (List (ToolRequest ω × Outcome ω) × InstallLoop ω)
  | s, [] => some ([], s)
  | s, a :: rest => do
    let s' ← s.step jobs versions a
    let r ← replay jobs versions s' rest
    some (s.joined a ++ r.1, r.2)

theorem Run.replay {s₀ : InstallLoop ω} (h : Run jobs versions s₀ acts log s)
    {rest : List (Action ω)} {r : List (ToolRequest ω × Outcome ω) × InstallLoop ω}
    (hr : s.replay jobs versions rest = some r) :
    Run jobs versions s₀ (acts ++ rest) (log ++ r.1) r.2 := by
  induction rest generalizing acts log s r with
  | nil =>
    obtain rfl := Option.some.inj hr
    rwa [List.append_nil, List.append_nil]
  | cons a rest ih =>
    obtain ⟨s', hstep, hr⟩ := Option.bind_eq_some_iff.1 hr
    obtain ⟨r', hr', heq⟩ := Option.bind_eq_some_iff.1 hr
    obtain rfl := Option.some.inj heq
    have hrun := ih (h.step hstep) hr'
    rwa [List.append_assoc, List.append_assoc] at hrun

end InstallLoop

/-! ### An app and the runtime it needs -/

section Sample

def app : ToolRequest Unit := ⟨"npm:app", "1", "mise.toml", ()⟩

def node : ToolRequest Unit := ⟨"node", "20", "mise.toml", ()⟩

/-- `app` needs `node`. -/
def needs (tr other : ToolRequest Unit) : Bool := tr = app && other = node

def sampleDeps : ToolDeps Unit :=
  ⟨⟨[some app, some node], [(0, 1)]⟩, ⟨[(graphKey app, 0), (graphKey node, 1)], by decide⟩,
    ∅, ∅, [], graphKey⟩

theorem installWithDeps_sample : InstallLoop.installWithDeps (fun _ => false) needs [app, node] =
    .inr (InstallLoop.start sampleDeps) := rfl

theorem cyclicSpec_sample : CyclicSpec (fun _ => false) needs [app, node] := by
  intro graph hgraph
  obtain rfl := Except.ok.inj hgraph
  have hup : ∀ e ∈ [((0 : ℕ), (1 : ℕ))], e.1 < e.2 := by decide
  refine ⟨fun h => absurd h (by decide), ?_⟩
  rintro ⟨i, hi⟩
  exact absurd hi (Lib.not_transGen_self id (fun a b hab => hup (a, b) hab) i)

theorem app_needs_node : ToolDependsOn needs [app, node] (graphKey app) (graphKey node) :=
  ⟨by decide, app, by decide, node, by decide, rfl, rfl, rfl⟩

/-- What happens where `node` cannot be installed. -/
def sampleActions : List (Action Unit) :=
  [.receive, .spawn, .finish 0 (.failed "no such version"), .join 0, .receive, .close []]

theorem exists_sampleRun : ∃ log s,
    InstallLoop.Run 1 [app, node] (InstallLoop.start sampleDeps) sampleActions log s ∧
      s.phase = .done ∧ broken log = [node] := by
  obtain ⟨r, hr⟩ : ∃ r,
      (InstallLoop.start sampleDeps).replay 1 [app, node] sampleActions = some r :=
    Option.isSome_iff_exists.1 (by decide)
  have hphase : ((InstallLoop.start sampleDeps).replay 1 [app, node] sampleActions).map
      (fun r => r.2.phase) = some .done := by decide
  have hbroken : ((InstallLoop.start sampleDeps).replay 1 [app, node] sampleActions).map
      (fun r => broken r.1) = some [node] := by decide
  rw [hr] at hphase hbroken
  exact ⟨r.1, r.2, InstallLoop.Run.start.replay hr, Option.some.inj hphase, Option.some.inj hbroken⟩

/-- `app` is skipped where `node` fails. -/
theorem every_request_told_sample : ∃ log s,
    InstallLoop.Run 1 [app, node] (InstallLoop.start sampleDeps) sampleActions log s ∧
      graphKey app ∈ (blockedTools s.toolDeps).map graphKey := by
  obtain ⟨log, s, hrun, hdone, hbroken⟩ := exists_sampleRun
  refine ⟨log, s, hrun, ?_⟩
  refine ((InstallLoop.every_request_told cyclicSpec_sample installWithDeps_sample hrun
    hdone).2.2.2.2 (graphKey app) (by decide)).2 (.inr ⟨node, ?_, .single app_needs_node⟩)
  rw [hbroken]
  exact List.mem_singleton_self node

/-- `app` is not started where `node` fails. -/
theorem started_behind_dependencies_sample : ∃ log s,
    InstallLoop.Run 1 [app, node] (InstallLoop.start sampleDeps) sampleActions log s ∧
      app ∉ InstallLoop.started log s := by
  obtain ⟨log, s, hrun, -, hbroken⟩ := exists_sampleRun
  refine ⟨log, s, hrun, fun happ => ?_⟩
  refine ((InstallLoop.started_behind_dependencies cyclicSpec_sample installWithDeps_sample
    hrun).2.2 app happ).2.2 node ?_ (.single app_needs_node)
  rw [hbroken]
  exact List.mem_singleton_self node

/-- Two tools take ten steps at most. -/
theorem run_ends_sample : ∃ log s,
    InstallLoop.Run 1 [app, node] (InstallLoop.start sampleDeps) sampleActions log s ∧
      sampleActions.length ≤
        4 * (([app, node] : List (ToolRequest Unit)).map graphKey).dedup.length + 2 := by
  obtain ⟨log, s, hrun, -⟩ := exists_sampleRun
  exact ⟨log, s, hrun, (InstallLoop.run_ends cyclicSpec_sample installWithDeps_sample
    Nat.one_pos hrun).1⟩

end Sample

end Toolset

end Mise
