/-
# The barrier before post-dependencies

A task that runs after others (`depends_post`, and what it depends on) has an
edge to each of them, its recorded parents.  The edge keeps it out of
`spawn_job` until its parents have left the graph, which they do when their jobs
end, unless the cleanup of a stopping run removes them first.  The cleanup
removes every task that is not a runnable post-dependency, whether it is still
executing or not, so it lifts the barrier of a post-dependency whose parent
runs.  Nothing else does.
-/

import Mise.Task.SchedulerRun

namespace Mise

open Lib DiGraph

variable {d₀ : Deps} {m : Move} {b b' : Board}

theorem Deps.isRunnablePostDep_iff {d : Deps} {t : Task} : d.isRunnablePostDep t = true ↔
    ∃ p, (taskKey t, p) ∈ d.postDepParents ∧ p ∈ d.executed := by
  unfold Deps.isRunnablePostDep
  simp only [List.any_eq_true, Bool.and_eq_true, beq_iff_eq, decide_eq_true_eq, Prod.exists]
  constructor
  · rintro ⟨k, p, hmem, rfl, hp⟩
    exact ⟨p, hmem, hp⟩
  · rintro ⟨p, hmem, hp⟩
    exact ⟨_, p, hmem, rfl, hp⟩

/-! ### What the cleanup may not do -/

/-- The cleanup removes no task whose job has not ended while a runnable
post-dependency of it is in the graph. -/
def Move.KeepsParents (m : Move) (b : Board) : Prop :=
  m = .cleanup → ∀ x ∈ b.active, x.1 = 0 → x.2 ∈ RunLoop.tasksToRemove b.main →
    ∀ t ∈ b.main.graph.nodes, b.main.isRunnablePostDep t = true →
      (taskKey t, taskKey x.2) ∉ b.main.postDepParents

/-- **The invariant of the barrier.** -/
structure Barrier (d₀ : Deps) (b : Board) : Prop extends Base d₀ b where
  /-- When a task has left the graph before its job ended, nothing waits for it
  any more. -/
  released : ∀ x ∈ b.active, x.1 = 0 → taskKey x.2 ∈ b.main.removed →
    ∀ k, (k, taskKey x.2) ∈ d₀.postDepParents → k ∈ b.main.removed ∧
      ∀ y ∈ b.flight, y.1 = 0 → taskKey y.2 ≠ k
  /-- When a task has left the graph while it was on its way, the run is stopping
  and none of the task's parents has started or can start. -/
  orphaned : ∀ y ∈ b.flight, y.1 = 0 → taskKey y.2 ∈ b.main.removed → b.stopping = true ∧
    ∀ p, (taskKey y.2, p) ∈ d₀.postDepParents → p ∉ b.main.executed ∧ p ∈ b.main.removed ∧
      ∀ x ∈ b.active, x.1 = 0 → taskKey x.2 ≠ p

namespace Barrier

/-- A task that has left the graph is not handed over. -/
theorem not_removed_of_hand (h : Barrier d₀ b) {x : ℕ × Task} (hm : Moves (.hand x) b b')
    (hmain : x.1 = 0) : taskKey x.2 ∉ b.main.removed := by
  intro hremoved
  obtain ⟨hflight, hguard⟩ := hm.guard
  obtain ⟨hstop, horphan⟩ := h.orphaned x hflight hmain hremoved
  rcases hguard hmain with hgo | hrun
  · rw [hstop] at hgo
    cases hgo
  · obtain ⟨p, hp, hexecuted⟩ := Deps.isRunnablePostDep_iff.1 hrun
    rw [h.consistent.parents] at hp
    exact (horphan p hp).1 hexecuted

/-- **How a task leaves the graph before its job ends**: it did so before, or
the cleanup removes it. -/
theorem removed_active (h : Barrier d₀ b) (h₀ : d₀.Built) {new : List Task}
    (he : Effect d₀ m b b' new) (hm : Moves m b b') {x : ℕ × Task} (hx : x ∈ b'.active)
    (hmain : x.1 = 0) (hremoved : taskKey x.2 ∈ b'.main.removed) :
    x ∈ b.active ∧ (taskKey x.2 ∈ b.main.removed ∨
      m = .cleanup ∧ x.2 ∈ RunLoop.tasksToRemove b.main) := by
  rcases h.active_cases hm hx with ⟨hactive, hended⟩ | rfl
  · refine ⟨hactive, ?_⟩
    have hhanded := h.active.subset hactive
    rcases Base.removed_cases he hremoved with hold | ⟨y, rfl | rfl, hy, hkey⟩ | ⟨hc, t, ht, hkey⟩
    · exact Or.inl hold
    · refine absurd ?_ (h.occurrence_ne hhanded hm.guard.1)
      rw [occurrence, occurrence, hmain, hy, hkey]
    · refine absurd ?_ (hended y rfl)
      rw [occurrence, occurrence, hmain, hy, hkey]
    · have hnode := (List.mem_filter.1 ht).1
      rw [h.eq_of_key h₀ (List.mem_append_right _ hhanded) hmain hnode hkey] at ht
      exact Or.inr ⟨hc, ht⟩
  · rcases Base.removed_cases he hremoved with hold | ⟨y, hc | hc, -⟩ | ⟨hc, -⟩
    · exact absurd hold (h.not_removed_of_hand hm hmain)
    all_goals cases hc

/-- A parent that is removed while it runs has no task of its own left to come. -/
theorem step_released (h : Barrier d₀ b) (h₀ : d₀.Built) (hkeeps : m.KeepsParents b)
    {new : List Task} (he : Effect d₀ m b b' new) (hm : Moves m b b') {x : ℕ × Task}
    (hx : x ∈ b'.active) (hmain : x.1 = 0) (hremoved : taskKey x.2 ∈ b'.main.removed)
    {k : TaskKey} (hk : (k, taskKey x.2) ∈ d₀.postDepParents) :
    k ∈ b'.main.removed ∧ ∀ y ∈ b'.flight, y.1 = 0 → taskKey y.2 ≠ k := by
  obtain ⟨hactive, hcase⟩ := h.removed_active h₀ he hm hx hmain hremoved
  have hedge := h₀.barrier _ hk
  -- what was on its way waited for `x`, so `x` had left the graph
  have hflight : ∀ y ∈ b.flight, y.1 = 0 → taskKey y.2 ≠ k := by
    rintro y hy hymain rfl
    have hold := (h.ready y (List.mem_append_left _ hy) hymain).2 _ hedge
    exact (h.released x hactive hmain hold _ hk).2 y hy hymain rfl
  have hgone : k ∈ b'.main.removed := by
    rcases hcase with hold | ⟨hc, hremove⟩
    · exact (he.removed k).2 (Or.inr (h.released x hactive hmain hold k hk).1)
    · by_contra hstays
      obtain ⟨t, ht, rfl⟩ := List.mem_map.1 hedge.left_mem
      have hnode : t ∈ b.main.graph.nodes :=
        (h.consistent.nodes t).2 ⟨ht, fun hold => hstays ((he.removed _).2 (Or.inr hold))⟩
      have hrun : b.main.isRunnablePostDep t ≠ true := fun hrun =>
        hkeeps hc x hactive hmain hremove t hnode hrun (h.consistent.parents ▸ hk)
      refine hstays ((he.removed _).2 (Or.inl (List.mem_map_of_mem ?_)))
      rw [hc]
      exact List.mem_filter.2 ⟨hnode, by simpa using hrun⟩
  refine ⟨hgone, fun y hy hymain hkey => ?_⟩
  rcases Base.flight_cases he hy with hold | ⟨-, hnew⟩ | hcame
  · exact hflight y hold hymain hkey
  · exact (he.node _ hnew).2 (hkey ▸ hgone)
  · exact (Base.came_ne_zero hm hcame).1 hymain

/-- A task removed while in flight is one of a stopping run whose parents never ran. -/
theorem step_orphaned (h : Barrier d₀ b) (h₀ : d₀.Built) {new : List Task}
    (he : Effect d₀ m b b' new) (hm : Moves m b b') {y : ℕ × Task} (hy : y ∈ b'.flight)
    (hmain : y.1 = 0) (hremoved : taskKey y.2 ∈ b'.main.removed) : b'.stopping = true ∧
      ∀ p, (taskKey y.2, p) ∈ d₀.postDepParents → p ∉ b'.main.executed ∧ p ∈ b'.main.removed ∧
        ∀ x ∈ b'.active, x.1 = 0 → taskKey x.2 ≠ p := by
  have hold : y ∈ b.flight := by
    rcases Base.flight_cases he hy with hold | ⟨-, hnew⟩ | hcame
    · exact hold
    · exact absurd hremoved (he.node _ hnew).2
    · exact absurd hmain (Base.came_ne_zero hm hcame).1
  -- the facts before the move
  have hbefore : b.stopping = true ∧ ∀ p, (taskKey y.2, p) ∈ d₀.postDepParents →
      p ∉ b.main.executed ∧ p ∈ b.main.removed ∧ ∀ x ∈ b.active, x.1 = 0 → taskKey x.2 ≠ p := by
    rcases Base.removed_cases he hremoved with hbefore | ⟨z, rfl | rfl, hz, hkey⟩ | ⟨rfl, t, ht, hkey⟩
    · exact h.orphaned y hold hmain hbefore
    · refine absurd ?_ (h.occurrence_ne_taken he hm List.mem_cons_self hy)
      rw [occurrence, occurrence, hmain, hz, hkey]
    · obtain ⟨n, hn, -⟩ := hm.active
      refine absurd ?_ (h.occurrence_ne (h.active.subset (List.mem_of_getElem? hn)) hold)
      rw [occurrence, occurrence, hmain, hz, hkey]
    · obtain ⟨hnode, hrun⟩ := List.mem_filter.1 ht
      obtain rfl := h.eq_of_key h₀ (List.mem_append_left _ hold) hmain hnode hkey
      refine ⟨hm.guard, fun p hp => ⟨fun hexecuted => ?_, ?_, fun x hx hxmain hxkey => ?_⟩⟩
      · have := Deps.isRunnablePostDep_iff.2 ⟨p, h.consistent.parents.symm ▸ hp, hexecuted⟩
        rw [this] at hrun
        cases hrun
      · exact (h.ready y (List.mem_append_left _ hold) hmain).2 p (h₀.barrier _ hp)
      · subst hxkey
        have hgone := (h.ready y (List.mem_append_left _ hold) hmain).2 _ (h₀.barrier _ hp)
        exact (h.released x hx hxmain hgone _ hp).2 y hold hmain rfl
  obtain ⟨hstop, hparents⟩ := hbefore
  refine ⟨hm.stopping hstop, fun p hp => ?_⟩
  obtain ⟨hexecuted, hgone, hactive⟩ := hparents p hp
  refine ⟨fun hnew => ?_, (he.removed p).2 (Or.inr hgone), fun x hx hxmain hxkey => ?_⟩
  · -- a mark is set by a job that has not ended
    rcases hm.executed p hnew with hmark | hmark
    · exact hexecuted hmark
    · cases m with
      | start z => exact hactive z hm.guard hmark.1 hmark.2.symm
      | endJob z =>
        obtain ⟨n, hn, -⟩ := hm.active
        exact hactive z (List.mem_of_getElem? hn) hmark.1 hmark.2.symm
      | _ => cases hmark
  · rcases h.active_cases hm hx with ⟨hbefore, -⟩ | rfl
    · exact hactive x hbefore hxmain hxkey
    · exact h.not_removed_of_hand hm hxmain (hxkey ▸ hgone)

/-- **The barrier along a move.** -/
theorem step (h : Barrier d₀ b) (h₀ : d₀.Built) (hown : m.FindsOwn b) (hkeeps : m.KeepsParents b)
    (hm : Moves m b b') : Barrier d₀ b' := by
  obtain ⟨new, he⟩ := h.toBase.effect h₀ hown hm
  exact ⟨h.toBase.step h₀ hown hm,
    fun x hx hmain hremoved k hk => h.step_released h₀ hkeeps he hm hx hmain hremoved hk,
    fun y hy hmain hremoved => h.step_orphaned h₀ he hm hy hmain hremoved⟩

theorem lose (h : Barrier d₀ b) (hl : Loses b b') : Barrier d₀ b' := by
  refine ⟨h.toBase.lose hl, fun x hx hmain => ?_, fun y hy hmain => ?_⟩
  · rw [hl.main]
    intro hremoved k hk
    obtain ⟨hgone, hflight⟩ := h.released x (hl.active.subset hx) hmain hremoved k hk
    exact ⟨hgone, fun y hy => hflight y (hl.flight.subset hy)⟩
  · rw [hl.main, hl.stopping]
    intro hremoved
    obtain ⟨hstop, hparents⟩ := h.orphaned y (hl.flight.subset hy) hmain hremoved
    refine ⟨hstop, fun p hp => ?_⟩
    obtain ⟨hexecuted, hgone, hactive⟩ := hparents p hp
    exact ⟨hexecuted, hgone, fun x hx => hactive x (hl.active.subset hx)⟩

theorem blank (h₀ : d₀.Built) : Barrier d₀ (Board.blank d₀) :=
  ⟨.blank h₀, by simp [Board.blank], by simp [Board.blank]⟩

/-- **Nothing is handed over while the job of a parent has not ended.** -/
theorem hand_after_parents (h : Barrier d₀ b) (h₀ : d₀.Built) {y : ℕ × Task}
    (hm : Moves (.hand y) b b') (hmain : y.1 = 0) {x : ℕ × Task} (hx : x ∈ b.active)
    (hxmain : x.1 = 0) : (taskKey y.2, taskKey x.2) ∉ d₀.postDepParents := by
  intro hp
  have hflight := hm.guard.1
  have hgone := (h.ready y (List.mem_append_left _ hflight) hmain).2 _ (h₀.barrier _ hp)
  exact (h.released x hx hxmain hgone _ hp).2 y hflight hmain rfl

end Barrier

/-! ### The barrier in a run -/

namespace RunLoop

/-- The condition on the steps of a run: the tasks that a step removes from the
main graph are found at their own nodes, and the cleanup removes no task whose
job has not ended while a runnable post-dependency of it is in the graph. -/
structure KeepsBarrier (s : RunLoop) (a : Action) : Prop where
  own : s.main.OwnFirstAll ((s.move a).removed s.board)
  parents : a = .advance → s.loop = .cleanup → ∀ job ∈ s.jobs, job.msg.deps = 0 →
    job.msg.task ∈ tasksToRemove s.main → ∀ t ∈ s.main.graph.nodes,
      s.main.isRunnablePostDep t = true →
        (taskKey t, taskKey job.msg.task) ∉ s.main.postDepParents

/-- When the next step hands a task of the main graph to `spawn_job`, no parent
of the task that started executing is still running. -/
def BarrierHolds (d₀ : Deps) (s : RunLoop) : Prop :=
  ∀ (a : Action) (s' : RunLoop) (msg : SchedMsg), s.step a = some s' →
    s'.handed = s.handed ++ [msg] → msg.deps = 0 →
      ∀ job ∈ s.jobs, job.status = .running → job.msg.deps = 0 →
        (taskKey msg.task, taskKey job.msg.task) ∉ d₀.postDepParents

/-- The barrier's invariant in every run. -/
theorem Reach.barrier (h₀ : d₀.Built) {s : RunLoop} (h : Reach d₀ KeepsBarrier s) :
    s.Wired ∧ Barrier d₀ s.board := by
  refine h.board_invariant (Q := fun m b => m.FindsOwn b ∧ m.KeepsParents b) h₀.keyed
    (fun {s a} hP => ⟨hP.own, fun hc x hx hmain => ?_⟩)
    ⟨.blank h₀, trivial, fun hc => by cases hc⟩
    (fun hinv hQ hm _ => hinv.step h₀ hQ.1 hQ.2 hm) fun hinv _ hl => hinv.lose hl
  obtain ⟨rfl, hloop⟩ := loop_of_move_cleanup hc
  obtain ⟨job, hjob, rfl⟩ := List.mem_map.1 hx
  exact hP.parents rfl hloop job hjob hmain

end RunLoop

/-- **Post-dependencies wait for their parents while the cleanup lets them.** In
every run over a graph that `Deps::new` built, in which lookups find their own
nodes and the cleanup removes no executing parent of a runnable post-dependency,
a task is handed to `spawn_job` only after each of its recorded parents that
started has ended. -/
theorem post_deps_wait_for_parents {ε : Type} {config : TaskConfig ε} {tasks : List Task} {fuel : ℕ}
    (hnew : Deps.new config tasks fuel = some (.ok d₀)) {s : RunLoop}
    (hrun : RunLoop.Reach d₀ RunLoop.KeepsBarrier s) : s.BarrierHolds d₀ := by
  have h₀ := Deps.built_of_new hnew
  obtain ⟨hw, hbarrier⟩ := hrun.barrier h₀
  intro a s' msg hstep hhand hmain job hjob _ hjobmain
  obtain ⟨-, hm | ⟨-, hl⟩⟩ := RunLoop.step_sound hw hstep
  · have hhanded : (s.move a).handed = [msg.pair] := by
      have := hm.handed
      dsimp only [RunLoop.board] at this
      rw [hhand, List.map_append] at this
      exact (List.append_cancel_left this).symm
    have hmove : s.move a = .hand msg.pair := by
      cases hcase : s.move a
      all_goals rw [hcase] at hhanded
      case hand x => rw [List.singleton_inj.1 hhanded]
      all_goals cases hhanded
    rw [hmove] at hm
    exact hbarrier.hand_after_parents h₀ hm hmain (List.mem_map_of_mem hjob) hjobmain
  · have := hl.handed
    dsimp only [RunLoop.board] at this
    rw [hhand, List.map_append] at this
    simp at this

/-! ### A cleanup task and its parent -/

/-- A task that has a post-dependency. -/
def compileTask : Task := ⟨"compile", [], [], [], .normal, none, ""⟩

def lintTask : Task := ⟨"lint", [], [], [], .normal, none, ""⟩

/-- A task that depends on `lint`. -/
def checkTask : Task := ⟨"check", [], [], [], .normal, none, ""⟩

def cleanTask : Task := ⟨"clean", [], [], [], .post, none, ""⟩

/-- `compile` has `depends_post = ["clean"]`, and `check` has
`depends = ["lint"]`. -/
def cleanConfig : TaskConfig Unit where
  fetchTask t := .ok t
  renderRuntimeTemplates t := .ok t
  resolveDepends ts := .ok ts
  resolveTaskDepends t _ := .ok ⟨if t.name = "check" then [lintTask] else [], [],
    if t.name = "compile" then [cleanTask] else []⟩
  findCycles _ := []

/-- The graph of a run of `compile`, `lint` and `check`. -/
def cleanDeps : Deps :=
  .ofGraph ⟨[compileTask, lintTask, checkTask, cleanTask], [(3, 0), (2, 1)]⟩
    [(taskKey cleanTask, taskKey compileTask)]

theorem new_cleanConfig :
    Deps.new cleanConfig [compileTask, lintTask, checkTask] 6 = some (.ok cleanDeps) := rfl

namespace RunLoop

/-- `compile` and `lint` are handed over and start, and the loop waits. -/
def bothStarted : List Action :=
  [.advance, .advance, .advance, .advance, .startJob 0, .pumpSubscribe, .advance, .advance,
    .startJob 1, .advance, .advance]

/-- The loop gets the leaf that the pump forwards, drops it and cleans up, and
then gets the next one. -/
def dropAndCleanup : List Action :=
  [.pumpForward, .selectMsg, .advance, .advance, .advance, .advance, .pumpForward, .selectMsg]

/-- Whether a step meets the condition of the barrier. -/
def keepsBarrier (s : RunLoop) (a : Action) : Bool :=
  (((s.move a).removed s.board).all fun t => s.main.graph.nodes.all fun n =>
    decide (n.eq t = true → taskKey n = taskKey t)) &&
  (s.loop != .cleanup || s.jobs.all fun job => s.main.graph.nodes.all fun t =>
    decide (job.msg.deps = 0 → job.msg.task ∈ tasksToRemove s.main →
      s.main.isRunnablePostDep t = true →
        (taskKey t, taskKey job.msg.task) ∉ s.main.postDepParents))

theorem keepsBarrier_sound (s : RunLoop) (a : Action) (h : s.keepsBarrier a = true) :
    s.KeepsBarrier a := by
  simp only [keepsBarrier, Bool.and_eq_true, Bool.or_eq_true, List.all_eq_true,
    decide_eq_true_eq] at h
  obtain ⟨hown, hparents⟩ := h
  refine ⟨Deps.ownFirstAll_of_eq hown, fun _ hloop job hjob hmain hremove t ht => ?_⟩
  rcases hparents with hloop' | hparents
  · rw [hloop] at hloop'
    cases hloop'
  · exact hparents job hjob t ht hmain hremove

/-- Whether the next step hands over a post-dependency of a running task. -/
def liftsBarrier (d₀ : Deps) (s : RunLoop) : Bool :=
  (s.step .advance).any fun s' => s'.handed.any fun msg => s'.handed == s.handed ++ [msg] &&
    msg.deps == 0 && s.jobs.any fun job => job.status == .running && job.msg.deps == 0 &&
      d₀.postDepParents.contains (taskKey msg.task, taskKey job.msg.task)

theorem not_barrierHolds_of_liftsBarrier {s : RunLoop} (h : liftsBarrier d₀ s = true) :
    ¬ s.BarrierHolds d₀ := by
  simp only [liftsBarrier, Option.any_eq_true, List.any_eq_true, Bool.and_eq_true, beq_iff_eq,
    List.contains_iff_mem] at h
  obtain ⟨s', hstep, msg, -, ⟨hhand, hmain⟩, job, hjob, ⟨hrunning, hjobmain⟩, hparent⟩ := h
  intro hholds
  exact hholds .advance s' msg hstep hhand hmain job hjob hrunning hjobmain hparent

end RunLoop

open RunLoop

/-- The theorem's hypotheses can be met in a run that stops and cleans up before
it hands over a post-dependency: `lint` fails and `compile` ends, the loop drops
`check`, and `clean` is about to be handed over. -/
theorem post_deps_wait_for_parents_sample : ∃ s s' : RunLoop, s.step .advance = some s' ∧
    s'.handed = s.handed ++ [mainMsg cleanTask] ∧ Reach cleanDeps KeepsBarrier s ∧
      s.BarrierHolds cleanDeps := by
  have hrun : (runs keepsBarrier cleanDeps (bothStarted ++ [.stop, .finishJob 1 false,
      .finishJob 0 false] ++ dropAndCleanup)).any (fun s =>
        (s.step .advance).any fun s' => s'.handed == s.handed ++ [mainMsg cleanTask]) = true := by
    decide +kernel
  simp only [Option.any_eq_true, beq_iff_eq] at hrun
  obtain ⟨s, hs, s', hstep, hhand⟩ := hrun
  have hreach := reach_of_runs keepsBarrier_sound hs
  exact ⟨s, s', hstep, hhand, hreach, post_deps_wait_for_parents new_cleanConfig hreach⟩

/-- **The cleanup releases a post-dependency while its parent runs.** `compile`
and `lint` run and `lint` fails.  The loop drops `check` and cleans up, which
removes `compile` from the graph although it is executing: `clean`, which is to
run after `compile`, becomes a leaf and is handed over at once. -/
theorem cleanup_lifts_barrier : ¬ ∀ (config : TaskConfig Unit) (tasks : List Task) (fuel : ℕ)
    (d₀ : Deps), Deps.new config tasks fuel = some (.ok d₀) →
      ∀ s, Reach d₀ (fun _ _ => True) s → s.BarrierHolds d₀ := by
  intro hall
  have hrun : (runs (fun _ _ => true) cleanDeps (bothStarted ++ [.stop, .finishJob 1 false] ++
      dropAndCleanup)).any (liftsBarrier cleanDeps) = true := by
    decide +kernel
  rw [Option.any_eq_true] at hrun
  obtain ⟨s, hs, hlifts⟩ := hrun
  exact not_barrierHolds_of_liftsBarrier hlifts
    (hall cleanConfig [compileTask, lintTask, checkTask] 6 cleanDeps new_cleanConfig s
      (reach_of_runs (fun _ _ _ => trivial) hs))

end Mise
