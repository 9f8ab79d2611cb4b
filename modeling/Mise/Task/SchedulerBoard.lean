/-
# The board of a run

The run loop seen from outside: which tasks are on their way, which were handed
to `spawn_job`, whose jobs have not ended, which were reported as dropped, and
the main graph.  A move is all that one step can do to this board.
-/

import Mise.Task.Scheduler

namespace Mise

open Lib DiGraph

/-! ### The board -/

/-- What a run looks like from outside. -/
structure Board where
  main : Deps
  /-- Sent, and neither handed over nor dropped. -/
  flight : List (ℕ × Task)
  handed : List (ℕ × Task)
  /-- Handed over, with a job that has not ended. -/
  active : List (ℕ × Task)
  dropped : List (ℕ × Task)
  arrived : List (ℕ × Task)
  stopping : Bool
  finished : Bool

/-- The message that the loop holds while it waits for a lock. -/
def LoopState.held : LoopState → List SchedMsg
  | .dropping msg _ => [msg]
  | _ => []

namespace RunLoop

/-- The messages that the loop has not decided on. -/
def waiting (s : RunLoop) : List SchedMsg := s.queue ++ s.loop.held

def board (s : RunLoop) : Board where
  main := s.main
  flight := (s.main.tx.queue.filterMap id).map (fun t => (0, t)) ++ s.waiting.map SchedMsg.pair
  handed := s.handed.map SchedMsg.pair
  active := s.jobs.map fun j => j.msg.pair
  dropped := s.dropped
  arrived := s.arrived.map SchedMsg.pair
  stopping := s.stopping
  finished := decide (s.loop = .finished)

end RunLoop

/-! ### Moves -/

inductive Move where
  | quiet
  | emit
  | arrive (x : ℕ × Task)
  | hand (x : ℕ × Task)
  | drop (x : ℕ × Task)
  | start (x : ℕ × Task)
  | endJob (x : ℕ × Task)
  | cleanup
  | leave
  | lose
  deriving DecidableEq

namespace Move

/-- The tasks a move removes from the main graph. -/
def removed (b : Board) : Move → List Task
  | .drop x => if x.1 = 0 then [x.2] else []
  | .endJob x => if x.1 = 0 then [x.2] else []
  | .cleanup => RunLoop.tasksToRemove b.main
  | _ => []

/-- What a move takes from the tasks on their way. -/
def taken : Move → List (ℕ × Task)
  | .hand x => [x]
  | .drop x => [x]
  | _ => []

def came : Move → List (ℕ × Task)
  | .arrive x => [x]
  | _ => []

def handed : Move → List (ℕ × Task)
  | .hand x => [x]
  | _ => []

def dropped (b : Board) : Move → List (ℕ × Task)
  | .drop x => [x]
  | .cleanup => (RunLoop.neverStarted b.main).map fun t => (0, t)
  | _ => []

/-- The jobs after a move. -/
def Active (b b' : Board) : Move → Prop
  | .hand x => b'.active = b.active ++ [x]
  | .endJob x => ∃ n, b.active[n]? = some x ∧ b'.active = b.active.eraseIdx n
  | _ => b'.active = b.active

/-- When a move can be made. -/
def Guard (b : Board) : Move → Prop
  | .arrive x => x.1 ≠ 0 ∧ b.finished = false ∧ occurrence x ∉ b.arrived.map occurrence
  | .hand x => x ∈ b.flight ∧
    (x.1 = 0 → b.stopping = false ∨ b.main.isRunnablePostDep x.2 = true)
  | .drop x => x ∈ b.flight ∧ (x.1 = 0 → b.main.isRunnablePostDep x.2 = false)
  | .start x => x ∈ b.active
  | .cleanup => b.stopping = true
  | .leave => b.main.graph.nodes = []
  | _ => True

/-- The tasks a move may mark executed in the main graph. -/
def Marks (k : TaskKey) : Move → Prop
  | .start x => x.1 = 0 ∧ k = taskKey x.2
  | .endJob x => x.1 = 0 ∧ k = taskKey x.2
  | _ => False

end Move

/-- The main graph loses some tasks and then sends new leaves. -/
structure Evolves (d : Deps) (ts : List Task) (d' : Deps) (new : List Task) : Prop where
  graph : d'.graph = (ts.foldl Deps.removeNode d).graph
  removed : d'.removed = (ts.foldl Deps.removeNode d).removed
  parents : d'.postDepParents = d.postDepParents
  sent : ∀ k, k ∈ d'.sent ↔ k ∈ new.map taskKey ∨ k ∈ d.sent
  nodup : (new.map taskKey).Nodup
  leaves : ∀ t ∈ new, t ∈ d'.graph.externals ∧ taskKey t ∉ d.sent

/-- **A move on the board.** -/
structure Moves (m : Move) (b b' : Board) : Prop where
  main : ∃ new, Evolves b.main (m.removed b) b'.main new ∧
    (b'.flight ++ m.taken).Perm (b.flight ++ new.map (fun t => (0, t)) ++ m.came)
  handed : b'.handed = b.handed ++ m.handed
  dropped : b'.dropped = b.dropped ++ m.dropped b
  arrived : b'.arrived = b.arrived ++ m.came
  active : m.Active b b'
  guard : m.Guard b
  executed : ∀ k ∈ b'.main.executed, k ∈ b.main.executed ∨ m.Marks k
  stopping : b.stopping = true → b'.stopping = true
  finished : b'.finished = true →
    b.finished = true ∨ (m = .leave ∨ m = .cleanup) ∧ b'.main.graph.nodes = []

/-- How the end of the loop shows on the board: it hands over and reports nothing any
more, and it comes with a cleanup that leaves no task in the graph. -/
structure Stops (m : Move) (b b' : Board) : Prop where
  stays : b.finished = true → b'.finished = true ∧ b'.handed = b.handed ∧ b'.dropped = b.dropped
  empties : m = .cleanup → b'.main.graph.nodes = [] → b'.finished = true

/-- The loop returns an error: what it held is lost. -/
structure Loses (b b' : Board) : Prop where
  main : b'.main = b.main
  flight : b'.flight.Sublist b.flight
  active : b'.active.Sublist b.active
  handed : b'.handed = b.handed
  arrived : b'.arrived = b.arrived
  stopping : b'.stopping = b.stopping

/-! ### The main graph -/

namespace Evolves

variable {d d' : Deps} {ts : List Task}

theorem refl (d : Deps) : Evolves d [] d [] :=
  ⟨rfl, rfl, rfl, by simp, List.nodup_nil, by simp⟩

/-- Marks and channels do not matter. -/
theorem of_eq (hgraph : d'.graph = d.graph) (hremoved : d'.removed = d.removed)
    (hparents : d'.postDepParents = d.postDepParents) (hsent : d'.sent = d.sent) :
    Evolves d [] d' [] :=
  ⟨hgraph, hremoved, hparents, by simp [hsent], List.nodup_nil, by simp⟩

end Evolves

namespace Deps

variable {d d' : Deps}

/-- Removal looks only at the graph and what was removed. -/
theorem removeNode_congr {e : Deps} (hgraph : e.graph = d.graph) (hremoved : e.removed = d.removed)
    (t : Task) : (e.removeNode t).graph = (d.removeNode t).graph ∧
      (e.removeNode t).removed = (d.removeNode t).removed := by
  have hidx : e.nodeIdx t = d.nodeIdx t := by rw [nodeIdx, nodeIdx, hgraph]
  unfold removeNode
  rw [hidx]
  split
  · exact ⟨by dsimp only; rw [hgraph], by dsimp only; rw [hremoved]⟩
  · exact ⟨hgraph, hremoved⟩

theorem keyed_removeNode (h : Keyed taskKey d.graph) (t : Task) :
    Keyed taskKey (d.removeNode t).graph := by
  unfold removeNode
  split
  · rename_i i hi
    obtain ⟨hlt, -, -⟩ := List.findIdx?_eq_some_iff_getElem.1 hi
    exact h.removeNode (List.getElem?_eq_getElem hlt)
  · exact h

theorem keyed_foldl_removeNode (h : Keyed taskKey d.graph) (ts : List Task) :
    Keyed taskKey (ts.foldl removeNode d).graph :=
  foldl_keeps (P := fun d : Deps => Keyed taskKey d.graph) (fun _ t h => keyed_removeNode h t) ts h

theorem foldl_removeNode_nil (h : d.graph.nodes = []) (ts : List Task) :
    (ts.foldl removeNode d).graph.nodes = [] := by
  refine foldl_keeps (P := fun d : Deps => d.graph.nodes = []) (fun d t h => ?_) ts h
  rw [removeNode, nodeIdx, h]
  exact h

/-- The channel after new leaves were sent: they come last, but for `None`, which
is sent when the graph is empty. -/
def Sends (d d' : Deps) (new : List Task) : Prop :=
  ∃ e : List (Option Task), (∀ x ∈ e, x = none ∧ d'.graph.nodes = []) ∧
    d'.tx.queue = d.tx.queue ++ (new.map some ++ e)

/-- `None` is in the channel only when the graph is empty, and then nothing else
comes after it. -/
structure Ends (d : Deps) : Prop where
  empty : none ∈ d.tx.queue → d.graph.nodes = []
  last : d.tx.queue.Pairwise fun a b => a = none → b = none

theorem Sends.filterMap {new : List Task} (h : Sends d d' new) :
    d'.tx.queue.filterMap id = d.tx.queue.filterMap id ++ new := by
  obtain ⟨e, he, hqueue⟩ := h
  have hnil : e.filterMap id = [] := by
    rw [List.filterMap_eq_nil_iff]
    exact fun x hx => (he x hx).1
  have hnew : (new.map some).filterMap id = new := by simp [List.filterMap_map]
  rw [hqueue, List.filterMap_append, List.filterMap_append, hnil, hnew, List.append_nil]

/-- Nothing is sent. -/
theorem Sends.of_tx (h : d'.tx = d.tx) : Sends d d' [] :=
  ⟨[], by simp, by simp [h]⟩

/-- Sending keeps the order of the channel. -/
theorem Ends.sends {ts new : List Task} (h : d.Ends) (hev : Evolves d ts d' new)
    (hsends : Sends d d' new) : d'.Ends := by
  obtain ⟨e, he, hqueue⟩ := hsends
  -- an empty graph stays empty and has no leaves
  have hempty : d.graph.nodes = [] → d'.graph.nodes = [] ∧ new = [] := by
    intro hnil
    have hnil' : d'.graph.nodes = [] := by
      rw [hev.graph]
      exact foldl_removeNode_nil hnil ts
    refine ⟨hnil', List.eq_nil_iff_forall_not_mem.2 fun t ht => ?_⟩
    have hmem := (hev.leaves t ht).1
    simp [DiGraph.externals, hnil'] at hmem
  constructor
  · rw [hqueue, List.mem_append, List.mem_append]
    rintro (hold | hnew | hend)
    · exact (hempty (h.empty hold)).1
    · simp at hnew
    · exact (he _ hend).2
  · rw [hqueue, List.pairwise_append, List.pairwise_append]
    refine ⟨h.last, ⟨?_, ?_, fun a _ b hb _ => (he b hb).1⟩, fun a ha b hb hnone => ?_⟩
    · rw [List.pairwise_map]
      exact List.pairwise_iff_forall_sublist.2 fun _ hab => by cases hab
    · exact List.pairwise_iff_forall_sublist.2 fun hab _ =>
        (he _ (hab.subset (by simp))).1
    · obtain ⟨-, rfl⟩ := hempty (h.empty (hnone ▸ ha))
      exact (he b hb).1

/-- What sending the leaves after some removals does to the board. -/
theorem evolves_emitLeaves (hk : Keyed taskKey d.graph) (ts : List Task)
    (hd : (ts.foldl removeNode d).emitLeaves = some d') :
    ∃ new, Evolves d ts d' new ∧ Sends d d' new := by
  have hk' := keyed_foldl_removeNode hk ts
  obtain ⟨hsent, -, htx, hparents⟩ := foldl_removeNode_frame d ts
  cases hlive : (ts.foldl removeNode d).tx.live with
  | false =>
    obtain rfl := emitLeaves_closed hlive hd
    exact ⟨[], ⟨rfl, rfl, hparents, by simp [hsent], List.nodup_nil, by simp⟩, [], by simp,
      by simp [htx]⟩
  | true =>
    have heq := emitLeaves_live hk' hlive hd
    refine ⟨(ts.foldl removeNode d).newLeaves, ⟨by rw [heq], by rw [heq], ?_, fun k => ?_, ?_, ?_⟩,
      _, ?_, by rw [heq, htx]⟩
    · rw [heq]
      exact hparents
    · rw [heq]
      simp [hsent]
    · exact hk'.nodup_externals.sublist (List.filter_sublist.map taskKey)
    · intro t ht
      obtain ⟨hleaf, hns⟩ := List.mem_filter.1 ht
      rw [heq]
      rw [hsent] at hns
      exact ⟨hleaf, by simpa using hns⟩
    · intro x hx
      rw [heq]
      split_ifs at hx with hempty
      · exact ⟨List.mem_singleton.1 hx, List.isEmpty_iff.1 hempty⟩
      · cases hx

/-- `remove` on the board. -/
theorem evolves_remove (hk : Keyed taskKey d.graph) {t : Task} (hd : d.remove t = some d') :
    (∃ new, Evolves d [t] d' new ∧ Sends d d' new) ∧ d'.executed = d.executed ∧
      (d.tx.live = false → d'.tx = d.tx) := by
  have hframe := removeNode_frame d t
  unfold remove at hd
  split at hd
  · obtain ⟨-, -, hexec, -, -, -⟩ := emitLeaves_frame (keyed_removeNode hk t) hd
    refine ⟨evolves_emitLeaves hk [t] hd, hexec.trans hframe.2.1, fun hclosed => ?_⟩
    have hclosed' : (d.removeNode t).tx.live = false := by rw [hframe.2.2.1]; exact hclosed
    rw [emitLeaves_closed hclosed' hd, hframe.2.2.1]
  · rename_i hnone
    obtain rfl := Option.some.inj hd
    have hsame : d.removeNode t = d := by rw [removeNode, hnone]
    refine ⟨⟨[], ⟨?_, ?_, rfl, by simp, List.nodup_nil, by simp⟩, [], by simp, by simp⟩, rfl,
      fun _ => rfl⟩
    · rw [List.foldl_cons, List.foldl_nil, hsame]
    · rw [List.foldl_cons, List.foldl_nil, hsame]

/-- Only the marks differ, and at most those of some keys are new. -/
structure Remarks (d e : Deps) (ks : List TaskKey) : Prop where
  graph : e.graph = d.graph
  sent : e.sent = d.sent
  removed : e.removed = d.removed
  parents : e.postDepParents = d.postDepParents
  tx : e.tx = d.tx
  executed : ∀ k ∈ e.executed, k ∈ d.executed ∨ k ∈ ks

theorem remarks_refl (d : Deps) (ks : List TaskKey) : d.Remarks d ks :=
  ⟨rfl, rfl, rfl, rfl, rfl, fun _ => Or.inl⟩

theorem remarks_markExecuted (d : Deps) (t : Task) : d.Remarks (d.markExecuted t) [taskKey t] :=
  ⟨rfl, rfl, rfl, rfl, rfl, fun _ hk =>
    (List.mem_insert_iff.1 hk).symm.imp id List.mem_singleton.2⟩

theorem remarks_unmarkExecuted (d : Deps) (t : Task) (ks : List TaskKey) :
    d.Remarks (d.unmarkExecuted t) ks :=
  ⟨rfl, rfl, rfl, rfl, rfl, fun _ hk => Or.inl (List.mem_of_mem_erase hk)⟩

/-- Removing a task after a change of marks. -/
theorem Remarks.evolves_remove {e : Deps} {ks : List TaskKey} (hr : d.Remarks e ks)
    (hk : Keyed taskKey d.graph) {t : Task} (hd : e.remove t = some d') :
    (∃ new, Evolves d [t] d' new ∧ Sends d d' new) ∧
      (∀ k ∈ d'.executed, k ∈ d.executed ∨ k ∈ ks) ∧ (d.tx.live = false → d'.tx = d.tx) := by
  obtain ⟨⟨new, hev, e', he', hqueue⟩, hexecuted, hclosed⟩ :=
    Deps.evolves_remove (hr.graph ▸ hk) hd
  obtain ⟨hgraph, hremoved⟩ := removeNode_congr hr.graph hr.removed t
  refine ⟨⟨new, ⟨hev.graph.trans hgraph, hev.removed.trans hremoved,
    hev.parents.trans hr.parents, ?_, hev.nodup, ?_⟩, e', he', ?_⟩, ?_, ?_⟩
  · rw [← hr.sent]
    exact hev.sent
  · rw [← hr.sent]
    exact hev.leaves
  · rw [← hr.tx]
    exact hqueue
  · rw [hexecuted]
    exact hr.executed
  · rw [← hr.tx]
    exact hclosed

end Deps

end Mise
