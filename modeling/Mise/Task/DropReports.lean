/-
# What the scheduler reports as dropped

`on_task_dropped` is called where the loop drops a message while stopping and
where the cleanup removes tasks that were not marked executed.  A task that is
already on its way, or that waits in the future of its job, is in the graph too
and is not marked yet, so the cleanup reports it although the loop will drop it
again, unless it breaks because the graph is empty, or its job will start or give
up.  Everything else is reported once or handed over, except what the loop leaves
in its channel when it breaks.
-/

import Mise.Task.Barrier

namespace Mise

open Lib DiGraph

variable {d₀ : Deps} {m : Move} {b b' : Board}

/-! ### The condition on moves -/

/-- What the cleanup reports. -/
def Move.reported (b : Board) : Move → List (ℕ × Task)
  | .cleanup => (RunLoop.neverStarted b.main).map fun t => (0, t)
  | _ => []

/-- What a move takes is handed over or reported. -/
theorem Move.taken_append_reported (m : Move) (b : Board) :
    m.taken ++ m.reported b = m.handed ++ m.dropped b := by
  cases m <;> rfl

/-- The condition on a move: lookups find their own nodes, the cleanup reports
nothing that was handed over and, if a task stays in the graph, nothing that was
sent, the loop leaves no message of another graph, and it does not fail. -/
structure Move.ReportsOnce (m : Move) (b : Board) : Prop where
  own : m.FindsOwn b
  unhanded : m = .cleanup → ∀ t ∈ RunLoop.neverStarted b.main,
    (0, taskKey t) ∉ b.handed.map occurrence
  unsent : m = .cleanup → (∃ t ∈ b.main.graph.nodes, b.main.isRunnablePostDep t = true) →
    ∀ t ∈ RunLoop.neverStarted b.main, taskKey t ∉ b.main.sent
  leaves : m = .leave ∨ m = .cleanup ∧
    (∀ t ∈ b.main.graph.nodes, b.main.isRunnablePostDep t = false) → ∀ x ∈ b.flight, x.1 = 0
  runs : m ≠ .lose

/-! ### The invariant -/

/-- **The invariant of reports.** -/
structure Reports (d₀ : Deps) (b : Board) : Prop extends Base d₀ b where
  /-- Nothing is reported twice, or reported and handed over. -/
  distinct : ((b.handed ++ b.dropped).map occurrence).Nodup
  /-- What is on its way was not reported, until the loop has finished. -/
  ahead : b.finished = false → ∀ x ∈ b.dropped, ∀ y ∈ b.flight, occurrence y ≠ occurrence x
  droppedMain : ∀ x ∈ b.dropped, x.1 = 0 → taskKey x.2 ∈ b.main.removed
  droppedOther : ∀ x ∈ b.dropped, x.1 ≠ 0 → x ∈ b.arrived
  executed : ∀ k ∈ b.main.executed, (0, k) ∈ b.handed.map occurrence
  removed : ∀ k ∈ b.main.removed, (0, k) ∈ (b.handed ++ b.dropped).map occurrence
  kept : ∀ x ∈ b.arrived, x.1 ≠ 0 ∧ x ∈ b.flight ++ b.handed ++ b.dropped
  left : b.finished = true → b.main.graph.nodes = [] ∧ ∀ x ∈ b.flight, x.1 = 0

namespace Reports

theorem blank (h₀ : d₀.Built) : Reports d₀ (Board.blank d₀) where
  toBase := .blank h₀
  distinct := List.nodup_nil
  ahead := by simp [Board.blank]
  droppedMain := by simp [Board.blank]
  droppedOther := by simp [Board.blank]
  executed := by simp [Board.blank, h₀.fresh]
  removed := by simp [Board.blank, h₀.fresh]
  kept := by simp [Board.blank]
  left := by simp [Board.blank]

/-- The cleanup reports tasks of the graph that it removes. -/
theorem mem_reported {x : ℕ × Task} (hx : x ∈ m.reported b) : m = .cleanup ∧ x.1 = 0 ∧
    x.2 ∈ RunLoop.neverStarted b.main ∧ x.2 ∈ b.main.graph.nodes ∧ x.2 ∈ m.removed b := by
  cases m with
  | cleanup =>
    obtain ⟨t, ht, rfl⟩ := List.mem_map.1 hx
    have hremove := (List.mem_filter.1 ht).1
    exact ⟨rfl, rfl, ht, (List.mem_filter.1 hremove).1, hremove⟩
  | _ => cases hx

section Step

variable {new : List Task} (h : Reports d₀ b) (hQ : m.ReportsOnce b) (he : Effect d₀ m b b' new)
  (hm : Moves m b b')
include he hm

/-- **Where everything is after a move**: where it was, or it is new, or the
cleanup reports it. -/
theorem perm_step : (b'.flight ++ b'.handed ++ b'.dropped).Perm
    (b.flight ++ b.handed ++ b.dropped ++
      (new.map (fun t => (0, t)) ++ m.came ++ m.reported b)) := by
  rw [List.perm_iff_count]
  intro x
  have hflight := he.flight.count_eq x
  have hreported := congrArg (List.count x) (m.taken_append_reported b)
  rw [hm.handed, hm.dropped]
  simp only [List.count_append] at hflight hreported ⊢
  omega

omit he in
/-- A loop that decides on a message has not finished. -/
theorem running_of_mem_taken (hs : Stops m b b') {x : ℕ × Task} (hx : x ∈ m.taken) :
    x ∈ b.flight ∧ b.finished = false := by
  by_cases hfinished : b.finished = true
  · obtain ⟨-, hhanded, hdropped⟩ := hs.stays hfinished
    rw [hm.handed, List.append_right_eq_self] at hhanded
    rw [hm.dropped, List.append_right_eq_self] at hdropped
    cases m with
    | hand y => cases hhanded
    | drop y => cases hdropped
    | _ => cases hx
  · refine ⟨?_, Bool.not_eq_true _ ▸ hfinished⟩
    cases m with
    | hand y | drop y =>
      obtain rfl := List.mem_singleton.1 hx
      exact hm.guard.1
    | _ => cases hx

omit he hm in
include h in
/-- What a move hands over or reports is told apart by its occurrence. -/
theorem nodup_decided : ((m.taken ++ m.reported b).map occurrence).Nodup := by
  cases m with
  | cleanup =>
    have hkeys : ((RunLoop.neverStarted b.main).map taskKey).Nodup :=
      h.consistent.keyed.nodup.sublist
        ((List.filter_sublist.trans List.filter_sublist).map taskKey)
    have hmap : ((Move.cleanup.taken ++ Move.cleanup.reported b).map occurrence) =
        ((RunLoop.neverStarted b.main).map taskKey).map fun k => (0, k) := by
      simp [Move.taken, Move.reported, occurrence, Function.comp_def]
    rw [hmap]
    exact hkeys.map fun _ _ heq => (Prod.mk.inj heq).2
  | hand x | drop x => exact List.nodup_singleton _
  | _ => exact List.nodup_nil

include h hQ in
omit he in
/-- What a move hands over or reports was neither handed over nor reported. -/
theorem decided_ne (hs : Stops m b b') {x y : ℕ × Task} (hx : x ∈ b.handed ++ b.dropped)
    (hy : y ∈ m.taken ++ m.reported b) : occurrence x ≠ occurrence y := by
  rcases List.mem_append.1 hy with hy | hy
  · obtain ⟨hflight, hrunning⟩ := running_of_mem_taken hm hs hy
    rcases List.mem_append.1 hx with hx | hx
    · exact h.occurrence_ne hx hflight
    · exact (h.ahead hrunning x hx y hflight).symm
  · intro heq
    obtain ⟨hc, hymain, hnever, hnode, -⟩ := mem_reported hy
    obtain ⟨hgraph, hkey⟩ := Prod.mk.inj heq
    rcases List.mem_append.1 hx with hx | hx
    · refine hQ.unhanded hc _ hnever (List.mem_map.2 ⟨x, hx, ?_⟩)
      rw [heq, occurrence, hymain]
    · have hremoved := h.droppedMain x hx (hgraph.trans hymain)
      exact ((h.consistent.nodes _).1 hnode).2 (hkey ▸ hremoved)

include h hQ in
omit he in
theorem step_distinct (hs : Stops m b b') :
    ((b'.handed ++ b'.dropped).map occurrence).Nodup := by
  have hperm : (b'.handed ++ b'.dropped).Perm
      (b.handed ++ b.dropped ++ (m.taken ++ m.reported b)) := by
    rw [List.perm_iff_count]
    intro x
    have hreported := congrArg (List.count x) (m.taken_append_reported b)
    rw [hm.handed, hm.dropped]
    simp only [List.count_append] at hreported ⊢
    omega
  rw [(hperm.map occurrence).nodup_iff, List.map_append, List.nodup_append]
  refine ⟨h.distinct, nodup_decided h, fun a ha c hc => ?_⟩
  obtain ⟨x, hx, rfl⟩ := List.mem_map.1 ha
  obtain ⟨y, hy, rfl⟩ := List.mem_map.1 hc
  exact h.decided_ne hQ hm hs hx hy

omit he in
/-- What was reported before or is dropped by this move. -/
theorem mem_dropped {x : ℕ × Task} (hx : x ∈ b'.dropped) :
    x ∈ b.dropped ∨ (m = .drop x ∧ x ∈ b.flight) ∨ x ∈ m.reported b := by
  rw [hm.dropped, List.mem_append] at hx
  rcases hx with hx | hx
  · exact Or.inl hx
  · cases m with
    | drop y =>
      obtain rfl := List.mem_singleton.1 hx
      exact Or.inr (Or.inl ⟨rfl, hm.guard.1⟩)
    | cleanup => exact Or.inr (Or.inr hx)
    | _ => cases hx

include h in
theorem step_droppedMain {x : ℕ × Task} (hx : x ∈ b'.dropped) (hmain : x.1 = 0) :
    taskKey x.2 ∈ b'.main.removed := by
  rw [he.removed]
  rcases mem_dropped hm hx with hold | ⟨rfl, -⟩ | hnew
  · exact Or.inr (h.droppedMain x hold hmain)
  · refine Or.inl (List.mem_map_of_mem ?_)
    simp [Move.removed, hmain]
  · exact Or.inl (List.mem_map_of_mem (mem_reported hnew).2.2.2.2)

include h in
omit he in
theorem step_droppedOther {x : ℕ × Task} (hx : x ∈ b'.dropped) (hother : x.1 ≠ 0) :
    x ∈ b'.arrived := by
  rw [hm.arrived]
  refine List.mem_append_left _ ?_
  rcases mem_dropped hm hx with hold | ⟨-, hflight⟩ | hnew
  · exact h.droppedOther x hold hother
  · exact h.arrived x (List.mem_append_left _ hflight) hother
  · exact absurd (mem_reported hnew).2.1 hother

include h in
omit he in
/-- A mark is set by a job, whose message was handed over. -/
theorem step_executed {k : TaskKey} (hk : k ∈ b'.main.executed) :
    (0, k) ∈ b'.handed.map occurrence := by
  have hactive : ∀ x ∈ b.active, x.1 = 0 ∧ k = taskKey x.2 → (0, k) ∈ b.handed.map occurrence := by
    rintro x hx ⟨hmain, rfl⟩
    refine List.mem_map.2 ⟨x, h.active.subset hx, ?_⟩
    rw [occurrence, hmain]
  rw [hm.handed, List.map_append, List.mem_append]
  left
  rcases hm.executed k hk with hold | hmark
  · exact h.executed k hold
  · cases m with
    | start x => exact hactive x hm.guard hmark
    | endJob x =>
      obtain ⟨n, hn, -⟩ := hm.active
      exact hactive x (List.mem_of_getElem? hn) hmark
    | _ => cases hmark

include h in
/-- A task leaves the graph when its job ends or when it is reported. -/
theorem step_removed {k : TaskKey} (hk : k ∈ b'.main.removed) :
    (0, k) ∈ (b'.handed ++ b'.dropped).map occurrence := by
  have hhanded : ∀ {o}, o ∈ b.handed.map occurrence → o ∈ (b'.handed ++ b'.dropped).map occurrence := by
    intro o ho
    rw [hm.handed, List.append_assoc, List.map_append, List.mem_append]
    exact Or.inl ho
  have hdropped : ∀ {x}, x ∈ b'.dropped → x.1 = 0 →
      (0, taskKey x.2) ∈ (b'.handed ++ b'.dropped).map occurrence := by
    intro x hx hmain
    refine List.mem_map.2 ⟨x, List.mem_append_right _ hx, ?_⟩
    rw [occurrence, hmain]
  rcases Base.removed_cases he hk with hold | ⟨x, hx, hmain, rfl⟩ | ⟨rfl, t, ht, rfl⟩
  · obtain ⟨x, hx, hocc⟩ := List.mem_map.1 (h.removed k hold)
    rcases List.mem_append.1 hx with hx | hx
    · exact hhanded (hocc ▸ List.mem_map_of_mem hx)
    · obtain ⟨hmain, rfl⟩ := Prod.mk.inj hocc
      refine hdropped ?_ hmain
      rw [hm.dropped]
      exact List.mem_append_left _ hx
  · rcases hx with rfl | rfl
    · refine hdropped ?_ hmain
      rw [hm.dropped]
      exact List.mem_append_right _ List.mem_cons_self
    · obtain ⟨n, hn, -⟩ := hm.active
      refine hhanded (List.mem_map.2 ⟨x, h.active.subset (List.mem_of_getElem? hn), ?_⟩)
      rw [occurrence, hmain]
  · cases hexecuted : b.main.hasExecuted t with
    | true => exact hhanded (h.executed _ (of_decide_eq_true hexecuted))
    | false =>
      refine hdropped (x := (0, t)) ?_ rfl
      rw [hm.dropped]
      refine List.mem_append_right _ (List.mem_map_of_mem (List.mem_filter.2 ⟨ht, ?_⟩))
      rw [hexecuted]
      rfl

omit hm in
include h in
/-- A task of the graph after a move was there before, and the move does not remove it. -/
theorem node_step {t : Task} (ht : t ∈ b'.main.graph.nodes) :
    t ∈ b.main.graph.nodes ∧ taskKey t ∉ (m.removed b).map taskKey := by
  obtain ⟨hnode, hstays⟩ := (he.consistent.nodes t).1 ht
  rw [he.removed, not_or] at hstays
  exact ⟨(h.consistent.nodes t).2 ⟨hnode, hstays.2⟩, hstays.1⟩

omit hm in
include h in
/-- A cleanup after which the loop goes on leaves a task that may run. -/
theorem runnable_of_cleanup (hs : Stops m b b') (hc : m = .cleanup)
    (hrunning : b'.finished = false) :
    ∃ t ∈ b.main.graph.nodes, b.main.isRunnablePostDep t = true := by
  by_contra hnone
  push Not at hnone
  have hempty : b'.main.graph.nodes = [] := by
    refine List.eq_nil_iff_forall_not_mem.2 fun t ht => ?_
    obtain ⟨hold, hstays⟩ := h.node_step he ht
    refine hstays (List.mem_map_of_mem ?_)
    rw [hc]
    exact List.mem_filter.2 ⟨hold, by simpa using hnone t hold⟩
  rw [hs.empties hc hempty] at hrunning
  cases hrunning

include h hQ in
/-- What is reported as dropped is not in flight any more. -/
theorem step_ahead (hs : Stops m b b') (hrunning : b'.finished = false) {x y : ℕ × Task}
    (hx : x ∈ b'.dropped) (hy : y ∈ b'.flight) : occurrence y ≠ occurrence x := by
  have hbefore : b.finished = false := by
    by_contra hfinished
    rw [(hs.stays (Bool.not_eq_false _ ▸ hfinished)).1] at hrunning
    cases hrunning
  intro heq
  obtain ⟨hgraph, hkey⟩ := Prod.mk.inj heq
  -- a new leaf is in the graph, which a task that was reported has left
  have hnew : y.1 = 0 → y.2 ∈ new → False := fun hmain hy =>
    (he.node _ hy).2 (hkey ▸ h.step_droppedMain he hm hx (hgraph.symm.trans hmain))
  rcases mem_dropped hm hx with hold | ⟨rfl, -⟩ | hreported
  · rcases Base.flight_cases he hy with hflight | ⟨hmain, hleaf⟩ | hcame
    · exact h.ahead hbefore x hold y hflight heq
    · exact hnew hmain hleaf
    · obtain ⟨hother, hfresh⟩ := Base.came_ne_zero hm hcame
      have harrived := h.droppedOther x hold fun hzero => hother (hgraph.trans hzero)
      exact hfresh (heq ▸ List.mem_map_of_mem harrived)
  · exact h.occurrence_ne_taken he hm List.mem_cons_self hy heq.symm
  · obtain ⟨hc, hxmain, hnever, -, -⟩ := mem_reported hreported
    have hmain : y.1 = 0 := hgraph.trans hxmain
    rcases Base.flight_cases he hy with hflight | ⟨-, hleaf⟩ | hcame
    · have hsent := h.sent y (List.mem_append_left _ hflight) hmain
      exact hQ.unsent hc (h.runnable_of_cleanup he hs hc hrunning) _ hnever (hkey ▸ hsent)
    · exact hnew hmain hleaf
    · exact (Base.came_ne_zero hm hcame).1 hmain

include h in
theorem step_kept {x : ℕ × Task} (hx : x ∈ b'.arrived) :
    x.1 ≠ 0 ∧ x ∈ b'.flight ++ b'.handed ++ b'.dropped := by
  rw [(perm_step he hm).mem_iff]
  rw [hm.arrived, List.mem_append] at hx
  rcases hx with hold | hcame
  · obtain ⟨hother, hmem⟩ := h.kept x hold
    exact ⟨hother, List.mem_append_left _ hmem⟩
  · refine ⟨(Base.came_ne_zero hm hcame).1, ?_⟩
    exact List.mem_append_right _ (List.mem_append_left _ (List.mem_append_right _ hcame))

include h hQ in
/-- When the loop has ended, the main graph is empty and no injected task in flight. -/
theorem step_left (hf : b'.finished = true) :
    b'.main.graph.nodes = [] ∧ ∀ x ∈ b'.flight, x.1 = 0 := by
  -- new leaves are of the main graph, so only what was on its way matters
  have hflight : (∀ x ∈ b.flight, x.1 = 0) → m.came = [] → ∀ x ∈ b'.flight, x.1 = 0 := by
    intro hold hcame x hx
    rcases Base.flight_cases he hx with hx | ⟨hmain, -⟩ | hx
    · exact hold x hx
    · exact hmain
    · rw [hcame] at hx
      cases hx
  rcases hm.finished hf with hold | ⟨hleave, hempty⟩
  · obtain ⟨hnodes, hmain⟩ := h.left hold
    refine ⟨List.eq_nil_iff_forall_not_mem.2 fun n hn => ?_, hflight hmain ?_⟩
    · have := (h.node_step he hn).1
      rw [hnodes] at this
      cases this
    · cases m with
      | arrive x =>
        have := hm.guard.2.1
        rw [hold] at this
        cases this
      | _ => rfl
  · refine ⟨hempty, hflight (hQ.leaves ?_) ?_⟩
    · rcases hleave with rfl | rfl
      · exact Or.inl rfl
      · refine Or.inr ⟨rfl, fun t ht => ?_⟩
        by_contra hrun
        -- a runnable post-dependency would have stayed
        have hstays : t ∈ b'.main.graph.nodes := by
          obtain ⟨hnode, hremoved⟩ := (h.consistent.nodes t).1 ht
          refine (he.consistent.nodes t).2 ⟨hnode, fun hgone => ?_⟩
          rcases (he.removed _).1 hgone with hgone | hgone
          · obtain ⟨u, hu, hkey⟩ := List.mem_map.1 hgone
            obtain ⟨hunode, hurun⟩ := List.mem_filter.1 hu
            obtain rfl := h.consistent.keyed.eq_of_key hunode ht hkey
            rw [Bool.not_eq_true'] at hurun
            exact hrun hurun
          · exact hremoved hgone
        rw [hempty] at hstays
        cases hstays
    · rcases hleave with rfl | rfl <;> rfl

end Step

/-- **The reports along a move.** -/
theorem step (h : Reports d₀ b) (h₀ : d₀.Built) (hQ : m.ReportsOnce b) (hm : Moves m b b')
    (hs : Stops m b b') : Reports d₀ b' := by
  obtain ⟨new, he⟩ := h.toBase.effect h₀ hQ.own hm
  exact {
    toBase := h.toBase.step h₀ hQ.own hm
    distinct := h.step_distinct hQ hm hs
    ahead := fun hrunning _ hx _ hy => h.step_ahead hQ he hm hs hrunning hx hy
    droppedMain := fun _ hx => h.step_droppedMain he hm hx
    droppedOther := fun _ hx => h.step_droppedOther hm hx
    executed := fun _ hk => h.step_executed hm hk
    removed := fun _ hk => h.step_removed he hm hk
    kept := fun _ hx => h.step_kept he hm hx
    left := h.step_left hQ he hm }

end Reports

/-! ### The reports of a run -/

namespace RunLoop

/-- The condition on the steps of a run: the tasks that a step removes from the
main graph are found at their own nodes; what the cleanup reports was never
handed over and, unless the cleanup leaves the graph empty, never sent; when the
loop breaks, no message of another graph waits; and no job fails to spawn. -/
structure ReportsOnce (s : RunLoop) (a : Action) : Prop where
  own : s.main.OwnFirstAll ((s.move a).removed s.board)
  unhanded : a = .advance → s.loop = .cleanup → ∀ t ∈ neverStarted s.main, ∀ msg ∈ s.handed,
    occurrence msg.pair ≠ (0, taskKey t)
  unsent : a = .advance → s.loop = .cleanup →
    (∃ t ∈ s.main.graph.nodes, s.main.isRunnablePostDep t = true) →
      ∀ t ∈ neverStarted s.main, taskKey t ∉ s.main.sent
  leaves : a = .advance →
    (s.loop = .cleanup ∧ (∀ t ∈ s.main.graph.nodes, s.main.isRunnablePostDep t = false) ∨
      s.loop = .check ∧ s.mainDone = true ∧ s.jobs = [] ∧ s.drainedAny = false) →
    ∀ msg ∈ s.waiting, msg.deps = 0
  spawns : ∀ n, a ≠ .spawnError n

/-- What is handed over is not reported, nothing is reported twice, and at the
end every task of the main graph and every message of another graph was handed
over or reported. -/
structure DropsReported (d₀ : Deps) (s : RunLoop) : Prop where
  once : (s.dropped.map occurrence).Nodup
  apart : ∀ x ∈ s.dropped, ∀ msg ∈ s.handed, occurrence msg.pair ≠ occurrence x
  tasks : s.loop = .finished → ∀ t ∈ d₀.graph.nodes, (∃ msg ∈ s.handed,
    occurrence msg.pair = (0, taskKey t)) ∨ ∃ x ∈ s.dropped, occurrence x = (0, taskKey t)
  messages : s.loop = .finished → ∀ msg ∈ s.arrived, msg.pair ∈ s.handed.map SchedMsg.pair ∨
    msg.pair ∈ s.dropped

/-- Only one step leaves the loop at its exit check. -/
theorem loop_of_move_leave {s : RunLoop} {a : Action} (h : s.move a = .leave) : a = .advance ∧
    s.loop = .check ∧ s.mainDone = true ∧ s.jobs = [] ∧ s.drainedAny = false := by
  cases a
  case advance =>
    refine ⟨rfl, ?_⟩
    dsimp only [move] at h
    split at h
    case h_4 hloop =>
      split_ifs at h with hleave
      simp only [Bool.and_eq_true, Bool.not_eq_true', List.isEmpty_iff] at hleave
      exact ⟨hloop, hleave.1.1, hleave.1.2, hleave.2⟩
    all_goals repeat' split at h
    all_goals cases h
  all_goals
    dsimp only [move] at h
    repeat' split at h
    all_goals cases h

/-- Only a job that fails to spawn loses anything. -/
theorem spawnError_of_move_lose {s : RunLoop} {a : Action} (h : s.move a = .lose) :
    ∃ n, a = .spawnError n := by
  cases a
  case spawnError n => exact ⟨n, rfl⟩
  all_goals
    dsimp only [move] at h
    repeat' split at h
    all_goals cases h

theorem ReportsOnce.move {s : RunLoop} {a : Action} (h : s.ReportsOnce a) :
    (s.move a).ReportsOnce s.board := by
  refine ⟨h.own, fun hc t ht hmem => ?_, fun hc => ?_, fun hl x hx => ?_, fun hlose => ?_⟩
  · obtain ⟨rfl, hloop⟩ := loop_of_move_cleanup hc
    obtain ⟨x, hx, hocc⟩ := List.mem_map.1 hmem
    obtain ⟨msg, hmsg, rfl⟩ := List.mem_map.1 hx
    exact h.unhanded rfl hloop t ht msg hmsg hocc
  · obtain ⟨rfl, hloop⟩ := loop_of_move_cleanup hc
    exact h.unsent rfl hloop
  · have hwaiting : ∀ msg ∈ s.waiting, msg.deps = 0 := by
      rcases hl with hleave | ⟨hc, hrun⟩
      · obtain ⟨rfl, hcheck⟩ := loop_of_move_leave hleave
        exact h.leaves rfl (Or.inr hcheck)
      · obtain ⟨rfl, hloop⟩ := loop_of_move_cleanup hc
        exact h.leaves rfl (Or.inl ⟨hloop, hrun⟩)
    rcases List.mem_append.1 hx with hx | hx
    · obtain ⟨t, -, rfl⟩ := List.mem_map.1 hx
      rfl
    · obtain ⟨msg, hmsg, rfl⟩ := List.mem_map.1 hx
      exact hwaiting msg hmsg
  · obtain ⟨n, rfl⟩ := spawnError_of_move_lose hlose
    exact h.spawns n rfl

/-- The invariant of reports in every run. -/
theorem Reach.reports (h₀ : d₀.Built) {s : RunLoop} (h : Reach d₀ ReportsOnce s) :
    Reports d₀ s.board := by
  refine (h.board_invariant h₀.keyed ReportsOnce.move
    ⟨.blank h₀, trivial, nofun, nofun, fun hc => ?_, nofun⟩
    (fun hinv hQ hm hs => hinv.step h₀ hQ hm hs) fun _ hQ _ => absurd rfl hQ.runs).2
  rcases hc with hc | ⟨hc, -⟩ <;> cases hc

end RunLoop

/-- **Drops are reported once while the cleanup meets only unsent tasks.** In
every run over a graph that `Deps::new` built, in which lookups find their own
nodes, the cleanup reports only tasks that were never handed over and, where the
loop goes on after it, never sent, the loop breaks with no message of another
graph in its channel and no job fails to spawn, no task is reported twice, none
that was handed over is reported, and when the loop has ended every task was
handed over or reported. -/
theorem drops_reported_once {ε : Type} {config : TaskConfig ε} {tasks : List Task} {fuel : ℕ}
    (hnew : Deps.new config tasks fuel = some (.ok d₀)) {s : RunLoop}
    (hrun : RunLoop.Reach d₀ RunLoop.ReportsOnce s) : s.DropsReported d₀ := by
  have h := hrun.reports (Deps.built_of_new hnew)
  have hdistinct := h.distinct
  rw [List.map_append, List.nodup_append] at hdistinct
  obtain ⟨-, honce, hapart⟩ := hdistinct
  have hfinished : s.loop = .finished → s.board.finished = true := fun hl => by
    simp [RunLoop.board, hl]
  refine ⟨honce, fun x hx msg hmsg => ?_, fun hl t ht => ?_, fun hl msg hmsg => ?_⟩
  · exact hapart _ (List.mem_map_of_mem (List.mem_map_of_mem hmsg)) _ (List.mem_map_of_mem hx)
  · have hremoved : taskKey t ∈ s.main.removed := by
      by_contra hstays
      have hnode := (h.consistent.nodes t).2 ⟨ht, hstays⟩
      rw [(h.left (hfinished hl)).1] at hnode
      cases hnode
    obtain ⟨x, hx, hocc⟩ := List.mem_map.1 (h.removed _ hremoved)
    rcases List.mem_append.1 hx with hx | hx
    · obtain ⟨msg, hmsg, rfl⟩ := List.mem_map.1 hx
      exact Or.inl ⟨msg, hmsg, hocc⟩
    · exact Or.inr ⟨x, hx, hocc⟩
  · obtain ⟨hother, hmem⟩ := h.kept msg.pair (List.mem_map_of_mem hmsg)
    rw [List.append_assoc, List.mem_append, List.mem_append] at hmem
    rcases hmem with hwaits | hhanded | hdropped
    · exact absurd ((h.left (hfinished hl)).2 _ hwaits) hother
    · exact Or.inl hhanded
    · exact Or.inr hdropped

/-! ### A task that is reported twice -/

def docTask : Task := ⟨"doc", [], [], [], .normal, none, ""⟩

/-- The graph of a run of `compile`, `lint`, `doc` and `check`. -/
def docDeps : Deps :=
  .ofGraph ⟨[compileTask, lintTask, docTask, checkTask, cleanTask], [(4, 0), (3, 1)]⟩
    [(taskKey cleanTask, taskKey compileTask)]

theorem new_docDeps : Deps.new cleanConfig [compileTask, lintTask, docTask, checkTask] 7 =
    some (.ok docDeps) := rfl

namespace RunLoop

/-- Whether a step meets the condition of the reports, when no message of another
graph waits. -/
def reportsOnce (s : RunLoop) (a : Action) : Bool :=
  (((s.move a).removed s.board).all fun t => s.main.graph.nodes.all fun n =>
    decide (n.eq t = true → taskKey n = taskKey t)) &&
  (s.loop != .cleanup || (neverStarted s.main).all fun t =>
    s.handed.all (fun msg => occurrence msg.pair != (0, taskKey t)) &&
      (!s.main.graph.nodes.any s.main.isRunnablePostDep || decide (taskKey t ∉ s.main.sent))) &&
  (s.waiting.all fun msg => msg.deps == 0) &&
  match a with
  | .spawnError _ => false
  | _ => true

theorem reportsOnce_sound (s : RunLoop) (a : Action) (h : s.reportsOnce a = true) :
    s.ReportsOnce a := by
  simp only [reportsOnce, Bool.and_eq_true, Bool.or_eq_true, List.all_eq_true, decide_eq_true_eq,
    beq_iff_eq, bne_iff_ne, Bool.not_eq_true'] at h
  obtain ⟨⟨⟨hown, hcleanup⟩, hwaiting⟩, hspawns⟩ := h
  have hreported : s.loop = .cleanup → _ := fun hloop => hcleanup.resolve_left (not_not.2 hloop)
  refine ⟨Deps.ownFirstAll_of_eq hown, fun _ hloop t ht => (hreported hloop t ht).1, ?_,
    fun _ _ => hwaiting, ?_⟩
  · rintro - hloop ⟨u, hu, hrun⟩ t ht
    refine (hreported hloop t ht).2.resolve_left fun hnone => ?_
    rw [List.any_eq_true.2 ⟨u, hu, hrun⟩] at hnone
    cases hnone
  · rintro n rfl
    cases hspawns

/-- `compile` fails, `clean` is handed over, and the cleanup drops `check`, which
waits for `lint` in the graph; then everything ends. -/
def droppedOnce : List Action :=
  [.stop, .finishJob 0 false, .pumpForward, .selectMsg, .advance, .advance, .advance, .advance,
    .startJob 1, .advance, .advance, .finishJob 1 false, .finishJob 0 false, .pumpForward,
    .selectDone, .advance, .advance]

/-- `doc` waits for a permit while `compile` and `lint` run.  `lint` fails, which
makes `check` a leaf, and `doc` gets the permit and gives up.  The loop cleans up
before the pump has forwarded `check`, and drops it again when it comes. -/
def droppedTwice : List Action :=
  [.advance, .advance, .advance, .advance, .advance, .startJob 0, .pumpSubscribe, .advance,
    .advance, .startJob 1, .advance, .advance, .stop, .finishJob 1 false, .abort 1, .advance,
    .advance, .advance, .pumpForward, .selectMsg, .advance]

end RunLoop

open RunLoop

/-- The theorem's hypotheses can be met in a run that drops a task and ends. -/
theorem drops_reported_once_sample : ∃ s : RunLoop, s.loop = .finished ∧
    s.dropped = [(0, checkTask)] ∧ Reach cleanDeps ReportsOnce s ∧ s.DropsReported cleanDeps := by
  have hrun : (runs reportsOnce cleanDeps (bothStarted ++ droppedOnce)).any (fun s =>
      s.loop == .finished && s.dropped == [(0, checkTask)]) = true := by
    decide +kernel
  simp only [Option.any_eq_true, Bool.and_eq_true, beq_iff_eq] at hrun
  obtain ⟨s, hs, hloop, hdropped⟩ := hrun
  have hreach := reach_of_runs reportsOnce_sound hs
  exact ⟨s, hloop, hdropped, hreach, drops_reported_once new_cleanConfig hreach⟩

/-- **A task can be reported twice**: once by the cleanup, which finds it in the
graph, and again when its message comes. -/
theorem cleanup_reports_twice : ¬ ∀ (config : TaskConfig Unit) (tasks : List Task) (fuel : ℕ)
    (d₀ : Deps), Deps.new config tasks fuel = some (.ok d₀) →
      ∀ s, Reach d₀ (fun _ _ => True) s → s.DropsReported d₀ := by
  intro hall
  have hrun : (runs (fun _ _ => true) docDeps droppedTwice).any (fun s =>
      decide (¬ (s.dropped.map occurrence).Nodup)) = true := by
    decide +kernel
  simp only [Option.any_eq_true, decide_eq_true_eq] at hrun
  obtain ⟨s, hs, htwice⟩ := hrun
  exact htwice (hall cleanConfig [compileTask, lintTask, docTask, checkTask] 7 docDeps new_docDeps s
    (reach_of_runs (fun _ _ _ => trivial) hs)).once

end Mise
