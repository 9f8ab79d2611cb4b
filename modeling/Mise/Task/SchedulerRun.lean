/-
# Runs of the scheduler

Every state that steps lead to, and what always holds of its board while
lookups find their own node: the main graph is the built one without the
removed tasks, a task is on its way or handed over at most once, and the tasks
it waits for have left the graph.
-/

import Mise.Task.SchedulerMoves

namespace Mise

open Lib DiGraph

/-! ### Runs -/

/-- Before anything was sent. -/
def Board.blank (d : Deps) : Board where
  main := d
  flight := []
  handed := []
  active := []
  dropped := []
  arrived := []
  stopping := false
  finished := false

namespace RunLoop

/-- The states of the runs over a graph whose steps all meet `P`. -/
inductive Reach (d₀ : Deps) (P : RunLoop → Action → Prop) : RunLoop → Prop
  | start {others : ℕ → Deps} {continueOnError : Bool} {s : RunLoop} :
    start d₀ others continueOnError = some s → Reach d₀ P s
  | step {s s' : RunLoop} {a : Action} :
    Reach d₀ P s → P s a → s.step a = some s' → Reach d₀ P s'

variable {d₀ : Deps} {s : RunLoop}

/-- `pump_deps` is a move on the blank board. -/
theorem start_sound (hk : Keyed taskKey d₀.graph) {others : ℕ → Deps} {continueOnError : Bool}
    (h : start d₀ others continueOnError = some s) :
    s.Wired ∧ Moves .emit (Board.blank d₀) s.board := by
  obtain ⟨d, hd, rfl⟩ := Option.map_eq_some_iff.1 h
  obtain ⟨new, hev, hsends⟩ :=
    @Deps.evolves_emitLeaves { d₀ with tx := Channel.unbounded } d hk [] hd
  obtain ⟨hgraph, -, hexecuted, -⟩ :=
    @Deps.emitLeaves_frame { d₀ with tx := Channel.unbounded } d hk hd
  have hqueue : d.tx.queue.filterMap id = new := by simpa [Channel.unbounded] using hsends.filterMap
  constructor
  · refine ⟨by rw [hgraph]; exact hk, fun _ => ⟨rfl, rfl⟩, ⟨by simp, List.Pairwise.nil⟩,
      fun hdone => (by cases hdone), stop_of_idle (by simp) rfl, fun m hm _ => ?_⟩
    simp only [waiting, LoopState.held, List.append_nil, List.mem_map] at hm
    obtain ⟨t, -, rfl⟩ := hm
    rfl
  · refine ⟨⟨new, ⟨hev.graph, hev.removed, hev.parents, hev.sent, hev.nodup, hev.leaves⟩, ?_⟩,
      rfl, rfl, rfl, rfl, trivial, fun k hk => Or.inl (hexecuted ▸ hk), by simp [Board.blank],
      by simp [board]⟩
    dsimp only [board, waiting]
    rw [hqueue]
    simp [LoopState.held, Board.blank, Move.taken, Move.came, mainMsg, SchedMsg.pair,
      Function.comp_def]

/-- A sequence of steps, each of which passes a check. -/
def replay (check : RunLoop → Action → Bool) : RunLoop → List Action → Option RunLoop
  | s, [] => some s
  | s, a :: rest => if check s a then (s.step a).bind fun s' => replay check s' rest else none

theorem Reach.replay {P : RunLoop → Action → Prop} {check : RunLoop → Action → Bool}
    (hcheck : ∀ s a, check s a = true → P s a) (h : Reach d₀ P s) {l : List Action} {s' : RunLoop}
    (hs : s.replay check l = some s') : Reach d₀ P s' := by
  induction l generalizing s with
  | nil =>
    obtain rfl := Option.some.inj hs
    exact h
  | cons a rest ih =>
    rw [RunLoop.replay] at hs
    split_ifs at hs with hpass
    obtain ⟨s₁, hstep, hrest⟩ := Option.bind_eq_some_iff.1 hs
    exact ih (h.step (hcheck s a hpass) hstep) hrest

/-- A run, from the start, whose steps pass a check. -/
def runs (check : RunLoop → Action → Bool) (d₀ : Deps) (l : List Action) : Option RunLoop :=
  (start d₀ (fun _ => .ofGraph .empty []) false).bind fun s => s.replay check l

theorem reach_of_runs {P : RunLoop → Action → Prop} {check : RunLoop → Action → Bool}
    (hcheck : ∀ s a, check s a = true → P s a) {l : List Action} {s : RunLoop}
    (h : runs check d₀ l = some s) : Reach d₀ P s := by
  obtain ⟨s₀, hs₀, hs⟩ := Option.bind_eq_some_iff.1 h
  exact (Reach.start hs₀).replay hcheck hs

/-- **An invariant of moves holds in every run.** -/
theorem Reach.board_invariant {P : RunLoop → Action → Prop} {Q : Move → Board → Prop}
    {Inv : Board → Prop} (hk : Keyed taskKey d₀.graph)
    (hQ : ∀ {s a}, P s a → Q (s.move a) s.board)
    (hblank : Inv (Board.blank d₀) ∧ Q .emit (Board.blank d₀))
    (hmoves : ∀ {m b b'}, Inv b → Q m b → Moves m b b' → Stops m b b' → Inv b')
    (hloses : ∀ {b b'}, Inv b → Q .lose b → Loses b b' → Inv b') (h : Reach d₀ P s) :
    s.Wired ∧ Inv s.board := by
  induction h with
  | start hs =>
    obtain ⟨hw, hm⟩ := start_sound hk hs
    exact ⟨hw, hmoves hblank.1 hblank.2 hm ⟨nofun, nofun⟩⟩
  | step _ hP hstep ih =>
    obtain ⟨hw, hinv⟩ := ih
    obtain ⟨hw', hm | ⟨hlose, hl⟩⟩ := step_sound hw hstep
    · exact ⟨hw', hmoves hinv (hQ hP) hm (step_stops hstep)⟩
    · exact ⟨hw', hloses hinv (hlose ▸ hQ hP) hl⟩

end RunLoop

/-! ### What holds of every board -/

/-- The lookups of a move find their own node. -/
def Move.FindsOwn (m : Move) (b : Board) : Prop := b.main.OwnFirstAll (m.removed b)

/-- They do when equal tasks of the graph have the same key. -/
theorem Deps.ownFirstAll_of_eq {d : Deps} {ts : List Task} (h : ∀ t ∈ ts, ∀ n ∈ d.graph.nodes,
    n.eq t = true → taskKey n = taskKey t) : d.OwnFirstAll ts := by
  induction ts generalizing d with
  | nil => trivial
  | cons t ts ih =>
    refine ⟨fun i n hn heq hkey => ?_, ih fun u hu n hn => ?_⟩
    · exact absurd (h t List.mem_cons_self n (List.mem_of_getElem? hn) heq) hkey
    · refine h u (List.mem_cons_of_mem _ hu) n ?_
      unfold Deps.removeNode at hn
      split at hn
      · rename_i i hi
        obtain ⟨hlt, -, -⟩ := List.findIdx?_eq_some_iff_getElem.1 hi
        obtain ⟨j, -, hj⟩ := (mem_swapRemove hlt).1 hn
        exact List.mem_of_getElem? hj
      · exact hn

/-- **The invariant of boards.** -/
structure Base (d₀ : Deps) (b : Board) : Prop where
  consistent : d₀.Consistent b.main
  /-- Nothing is on its way or handed over twice. -/
  once : ((b.flight ++ b.handed).map occurrence).Nodup
  sent : ∀ x ∈ b.flight ++ b.handed, x.1 = 0 → taskKey x.2 ∈ b.main.sent
  arrived : ∀ x ∈ b.flight ++ b.handed, x.1 ≠ 0 → x ∈ b.arrived
  ready : ∀ x ∈ b.flight ++ b.handed, x.1 = 0 → x.2 ∈ d₀.graph.nodes ∧
    ∀ k, HasEdge taskKey d₀.graph (taskKey x.2) k → k ∈ b.main.removed
  active : b.active.Sublist b.handed

/-- What a move does, against the graph as it was built. -/
structure Effect (d₀ : Deps) (m : Move) (b b' : Board) (new : List Task) : Prop where
  consistent : d₀.Consistent b'.main
  removed : ∀ k, k ∈ b'.main.removed ↔ k ∈ (m.removed b).map taskKey ∨ k ∈ b.main.removed
  sent : ∀ k, k ∈ b'.main.sent ↔ k ∈ new.map taskKey ∨ k ∈ b.main.sent
  nodup : (new.map taskKey).Nodup
  fresh : ∀ t ∈ new, taskKey t ∉ b.main.sent
  node : ∀ t ∈ new, t ∈ d₀.graph.nodes ∧ taskKey t ∉ b'.main.removed
  ready : ∀ t ∈ new, ∀ k, HasEdge taskKey d₀.graph (taskKey t) k → k ∈ b'.main.removed
  flight : (b'.flight ++ m.taken).Perm (b.flight ++ new.map (fun t => (0, t)) ++ m.came)

namespace Base

variable {d₀ : Deps} {m : Move} {b b' : Board}

theorem blank (h₀ : d₀.Built) : Base d₀ (Board.blank d₀) :=
  ⟨h₀.consistent, List.nodup_nil, by simp [Board.blank], by simp [Board.blank],
    by simp [Board.blank], List.Sublist.refl _⟩

/-- A move removes tasks of the graph. -/
theorem removed_mem (h : Base d₀ b) (hm : Moves m b b') :
    ∀ t ∈ m.removed b, t ∈ d₀.graph.nodes := by
  intro t ht
  cases m with
  | drop x =>
    simp only [Move.removed, List.mem_ite_nil_right, List.mem_singleton] at ht
    obtain ⟨hx, rfl⟩ := ht
    exact (h.ready x (List.mem_append_left _ hm.guard.1) hx).1
  | endJob x =>
    simp only [Move.removed, List.mem_ite_nil_right, List.mem_singleton] at ht
    obtain ⟨hx, rfl⟩ := ht
    obtain ⟨n, hn, -⟩ := hm.active
    have hhanded := h.active.subset (List.mem_of_getElem? hn)
    exact (h.ready x (List.mem_append_right _ hhanded) hx).1
  | cleanup => exact ((h.consistent.nodes t).1 (List.mem_filter.1 ht).1).1
  | _ => cases ht

/-- **What a move does.** -/
theorem effect (h : Base d₀ b) (h₀ : d₀.Built) (hown : m.FindsOwn b) (hm : Moves m b b') :
    ∃ new, Effect d₀ m b b' new := by
  obtain ⟨new, hev, hflight⟩ := hm.main
  obtain ⟨hc, hremoved, -⟩ :=
    Deps.foldl_removeNode_spec h₀ h.consistent (h.removed_mem hm) hown
  have hparents : b'.main.postDepParents =
      ((m.removed b).foldl Deps.removeNode b.main).postDepParents :=
    hev.parents.trans (Deps.foldl_removeNode_frame _ _).2.2.2.symm
  have hc' := hc.congr hev.graph hev.removed hparents
  have hnode : ∀ t ∈ new, t ∈ d₀.graph.nodes ∧ taskKey t ∉ b'.main.removed := fun t ht =>
    (hc'.nodes t).1 (hc'.keyed.mem_externals_iff.1 (hev.leaves t ht).1).1
  refine ⟨new, hc', by rw [hev.removed]; exact hremoved, hev.sent, hev.nodup,
    fun t ht => (hev.leaves t ht).2, hnode, fun t ht k hk => ?_, hflight⟩
  -- a leaf has no edge left, so that the other end of a built edge is gone
  by_contra hstays
  exact (hc'.keyed.mem_externals_iff.1 (hev.leaves t ht).1).2 k
    ((hc'.edges _ _).2 ⟨hk, (hnode t ht).2, hstays⟩)

/-- What is on its way or handed over was so before, or is new. -/
theorem subperm {new : List Task} (he : Effect d₀ m b b' new) (hm : Moves m b b') :
    (b'.flight ++ b'.handed).Subperm
      (b.flight ++ b.handed ++ (new.map (fun t => (0, t)) ++ m.came)) := by
  have htaken : m.handed.Sublist m.taken := by
    cases m <;> first | exact List.Sublist.refl _ | exact List.nil_sublist _
  rw [hm.handed]
  refine ((htaken.append_left b.handed).append_left b'.flight).subperm.trans (List.Perm.subperm ?_)
  calc (b'.flight ++ (b.handed ++ m.taken)).Perm (b'.flight ++ (m.taken ++ b.handed)) :=
        List.perm_append_comm.append_left _
    _ = b'.flight ++ m.taken ++ b.handed := (List.append_assoc _ _ _).symm
    List.Perm _ (b.flight ++ new.map (fun t => (0, t)) ++ m.came ++ b.handed) :=
        he.flight.append_right _
    _ = b.flight ++ (new.map (fun t => (0, t)) ++ m.came ++ b.handed) := by
        simp only [List.append_assoc]
    List.Perm _ (b.flight ++ (b.handed ++ (new.map (fun t => (0, t)) ++ m.came))) :=
        List.perm_append_comm.append_left _
    _ = b.flight ++ b.handed ++ (new.map (fun t => (0, t)) ++ m.came) :=
        (List.append_assoc _ _ _).symm

/-- Membership in the same. -/
theorem mem_cases {new : List Task} (he : Effect d₀ m b b' new) (hm : Moves m b b') {x : ℕ × Task}
    (hx : x ∈ b'.flight ++ b'.handed) :
    x ∈ b.flight ++ b.handed ∨ (x.1 = 0 ∧ x.2 ∈ new) ∨ x ∈ m.came := by
  have hx' := (subperm he hm).subset hx
  rw [List.mem_append, List.mem_append (s := new.map _), List.mem_map] at hx'
  rcases hx' with hold | ⟨t, ht, rfl⟩ | hcame
  · exact Or.inl hold
  · exact Or.inr (Or.inl ⟨rfl, ht⟩)
  · exact Or.inr (Or.inr hcame)

/-- What is on its way was so before, or is new. -/
theorem flight_cases {new : List Task} (he : Effect d₀ m b b' new) {x : ℕ × Task}
    (hx : x ∈ b'.flight) : x ∈ b.flight ∨ (x.1 = 0 ∧ x.2 ∈ new) ∨ x ∈ m.came := by
  have hx' := he.flight.subset (List.mem_append_left m.taken hx)
  rw [List.mem_append, List.mem_append, List.mem_map, or_assoc] at hx'
  rcases hx' with hold | ⟨t, ht, rfl⟩ | hcame
  · exact Or.inl hold
  · exact Or.inr (Or.inl ⟨rfl, ht⟩)
  · exact Or.inr (Or.inr hcame)

/-- How a key comes to be removed. -/
theorem removed_cases {new : List Task} (he : Effect d₀ m b b' new) {k : TaskKey}
    (hk : k ∈ b'.main.removed) : k ∈ b.main.removed ∨
      (∃ x, (m = .drop x ∨ m = .endJob x) ∧ x.1 = 0 ∧ taskKey x.2 = k) ∨
      (m = .cleanup ∧ ∃ t ∈ RunLoop.tasksToRemove b.main, taskKey t = k) := by
  rcases (he.removed k).1 hk with hnew | hold
  · obtain ⟨t, ht, rfl⟩ := List.mem_map.1 hnew
    cases m with
    | drop x =>
      simp only [Move.removed, List.mem_ite_nil_right, List.mem_singleton] at ht
      exact Or.inr (Or.inl ⟨x, Or.inl rfl, ht.1, by rw [ht.2]⟩)
    | endJob x =>
      simp only [Move.removed, List.mem_ite_nil_right, List.mem_singleton] at ht
      exact Or.inr (Or.inl ⟨x, Or.inr rfl, ht.1, by rw [ht.2]⟩)
    | cleanup => exact Or.inr (Or.inr ⟨rfl, t, ht, rfl⟩)
    | _ => cases ht
  · exact Or.inl hold

/-- What is handed over is no longer on its way. -/
theorem occurrence_ne (h : Base d₀ b) {x y : ℕ × Task} (hx : x ∈ b.handed) (hy : y ∈ b.flight) :
    occurrence x ≠ occurrence y := by
  have honce := h.once
  rw [List.map_append, List.nodup_append] at honce
  exact (honce.2.2 _ (List.mem_map_of_mem hy) _ (List.mem_map_of_mem hx)).symm

/-- Tasks of the main graph are the same when their keys are. -/
theorem eq_of_key (h : Base d₀ b) (h₀ : d₀.Built) {x : ℕ × Task} (hx : x ∈ b.flight ++ b.handed)
    (hmain : x.1 = 0) {t : Task} (ht : t ∈ b.main.graph.nodes) (hkey : taskKey t = taskKey x.2) :
    t = x.2 :=
  h₀.keyed.eq_of_key ((h.consistent.nodes t).1 ht).1 (h.ready x hx hmain).1 hkey

/-- What comes is not of the main graph. -/
theorem came_ne_zero (hm : Moves m b b') {x : ℕ × Task} (hx : x ∈ m.came) :
    x.1 ≠ 0 ∧ occurrence x ∉ b.arrived.map occurrence := by
  cases m with
  | arrive y =>
    obtain rfl := List.mem_singleton.1 hx
    exact ⟨hm.guard.1, hm.guard.2.2⟩
  | _ => cases hx

theorem nodup_came (m : Move) : (m.came.map occurrence).Nodup := by
  cases m <;> simp [Move.came]

/-- What is new is new. -/
theorem nodup_new (h : Base d₀ b) {new : List Task} (he : Effect d₀ m b b' new)
    (hm : Moves m b b') :
    ((b.flight ++ b.handed ++ (new.map (fun t => (0, t)) ++ m.came)).map occurrence).Nodup := by
  have hnew : (new.map fun t => (0, t)).map occurrence = (new.map taskKey).map fun k => (0, k) := by
    simp [occurrence, Function.comp_def]
  rw [List.map_append, List.nodup_append]
  refine ⟨h.once, ?_, ?_⟩
  · rw [List.map_append, hnew, List.nodup_append]
    refine ⟨he.nodup.map fun _ _ heq => (Prod.mk.inj heq).2, nodup_came m, ?_⟩
    intro a ha c hc heq
    obtain ⟨k, -, rfl⟩ := List.mem_map.1 ha
    obtain ⟨x, hx, rfl⟩ := List.mem_map.1 hc
    exact (came_ne_zero hm hx).1 (congrArg Prod.fst heq).symm
  · intro a ha c hc heq
    obtain ⟨x, hx, rfl⟩ := List.mem_map.1 ha
    rw [List.map_append] at hc
    rcases List.mem_append.1 hc with hc | hc
    · -- a new leaf was not sent before
      obtain ⟨y, hy, rfl⟩ := List.mem_map.1 hc
      obtain ⟨t, ht, rfl⟩ := List.mem_map.1 hy
      obtain ⟨hzero, hkey⟩ := Prod.mk.inj heq
      exact he.fresh t ht (hkey ▸ h.sent x hx hzero)
    · obtain ⟨y, hy, rfl⟩ := List.mem_map.1 hc
      obtain ⟨hother, hfresh⟩ := came_ne_zero hm hy
      have harrived := h.arrived x hx fun hzero => hother ((congrArg Prod.fst heq).symm.trans hzero)
      exact hfresh (heq ▸ List.mem_map_of_mem harrived)

/-- **The invariant along a move.** -/
theorem step (h : Base d₀ b) (h₀ : d₀.Built) (hown : m.FindsOwn b) (hm : Moves m b b') :
    Base d₀ b' := by
  obtain ⟨new, he⟩ := h.effect h₀ hown hm
  have hold_removed : ∀ k, k ∈ b.main.removed → k ∈ b'.main.removed :=
    fun k hk => (he.removed k).2 (Or.inr hk)
  refine ⟨he.consistent, ?_, fun x hx hmain => ?_, fun x hx hother => ?_, fun x hx hmain => ?_, ?_⟩
  · obtain ⟨l, hperm, hsub⟩ := subperm he hm
    refine (hperm.map occurrence).nodup_iff.1 (List.Nodup.sublist (hsub.map occurrence) ?_)
    exact h.nodup_new he hm
  · rcases mem_cases he hm hx with hold | ⟨-, hnew⟩ | hcame
    · exact (he.sent _).2 (Or.inr (h.sent x hold hmain))
    · exact (he.sent _).2 (Or.inl (List.mem_map_of_mem hnew))
    · exact absurd hmain (came_ne_zero hm hcame).1
  · rw [hm.arrived, List.mem_append]
    rcases mem_cases he hm hx with hold | ⟨hmain, -⟩ | hcame
    · exact Or.inl (h.arrived x hold hother)
    · exact absurd hmain hother
    · exact Or.inr hcame
  · rcases mem_cases he hm hx with hold | ⟨-, hnew⟩ | hcame
    · obtain ⟨hnode, hready⟩ := h.ready x hold hmain
      exact ⟨hnode, fun k hk => hold_removed k (hready k hk)⟩
    · exact ⟨(he.node _ hnew).1, he.ready _ hnew⟩
    · exact absurd hmain (came_ne_zero hm hcame).1
  · rw [hm.handed]
    have hactive := hm.active
    cases m with
    | hand x =>
      rw [hactive]
      exact h.active.append (List.Sublist.refl _)
    | endJob x =>
      obtain ⟨n, -, hn⟩ := hactive
      rw [hn]
      exact ((List.eraseIdx_sublist _ _).trans h.active).trans (List.sublist_append_left _ _)
    | _ =>
      rw [hactive]
      exact h.active.trans (List.sublist_append_left _ _)

/-- What a move takes is no longer on its way. -/
theorem occurrence_ne_taken (h : Base d₀ b) {new : List Task} (he : Effect d₀ m b b' new)
    (hm : Moves m b b') {x y : ℕ × Task} (hx : x ∈ m.taken) (hy : y ∈ b'.flight) :
    occurrence x ≠ occurrence y := by
  have hnodup : ((b'.flight ++ m.taken).map occurrence).Nodup := by
    rw [(he.flight.map occurrence).nodup_iff]
    refine (h.nodup_new he hm).sublist (List.Sublist.map _ ?_)
    rw [List.append_assoc, List.append_assoc]
    exact (List.sublist_append_right _ _).append_left _
  rw [List.map_append, List.nodup_append] at hnodup
  exact (hnodup.2.2 _ (List.mem_map_of_mem hy) _ (List.mem_map_of_mem hx)).symm

/-- A job that has not ended after a move had not ended before, or was handed
over by it; and it is not the one that the move ends. -/
theorem active_cases (h : Base d₀ b) (hm : Moves m b b') {x : ℕ × Task} (hx : x ∈ b'.active) :
    (x ∈ b.active ∧ ∀ y, m = .endJob y → occurrence y ≠ occurrence x) ∨ m = .hand x := by
  have hactive := hm.active
  cases m with
  | hand y =>
    rw [hactive, List.mem_append, List.mem_singleton] at hx
    rcases hx with hx | rfl
    · exact Or.inl ⟨hx, by simp⟩
    · exact Or.inr rfl
  | endJob y =>
    obtain ⟨n, hn, hactive⟩ := hactive
    rw [hactive] at hx
    refine Or.inl ⟨List.mem_of_mem_eraseIdx hx, fun z hz heq => ?_⟩
    obtain rfl := Move.endJob.inj hz
    -- no other job has this occurrence
    have hnodup : (b.active.map occurrence).Nodup :=
      h.once.sublist ((h.active.trans (List.sublist_append_right _ _)).map _)
    obtain ⟨i, hi, hxi⟩ := List.mem_eraseIdx_iff_getElem?.1 hx
    have hsame : (b.active.map occurrence)[i]? = (b.active.map occurrence)[n]? := by
      rw [List.getElem?_map, List.getElem?_map, hxi, hn, Option.map_some, Option.map_some, heq]
    have hlt : i < (b.active.map occurrence).length := by
      rw [List.length_map]
      exact (List.getElem?_eq_some_iff.1 hxi).1
    exact hi ((List.getElem?_inj hlt hnodup).1 hsame)
  | _ =>
    rw [hactive] at hx
    exact Or.inl ⟨hx, by simp⟩

/-- The invariant when the loop fails. -/
theorem lose (h : Base d₀ b) (hl : Loses b b') : Base d₀ b' := by
  have hsub : (b'.flight ++ b'.handed).Sublist (b.flight ++ b.handed) := by
    rw [hl.handed]
    exact hl.flight.append_right _
  refine ⟨hl.main ▸ h.consistent, h.once.sublist (hsub.map _), fun x hx => ?_, fun x hx => ?_,
    fun x hx => ?_, ?_⟩
  · rw [hl.main]
    exact h.sent x (hsub.subset hx)
  · rw [hl.arrived]
    exact h.arrived x (hsub.subset hx)
  · rw [hl.main]
    exact h.ready x (hsub.subset hx)
  · rw [hl.handed]
    exact hl.active.trans h.active

end Base

end Mise
