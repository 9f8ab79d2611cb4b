/-
# Steps are moves

Every step of the loop, of the pump or of a job is one move on the board
(`step_sound`).  What the loop guarantees is then proved of moves.
-/

import Mathlib.Data.List.InsertIdx
import Mise.Task.SchedulerBoard

namespace Mise

open Lib DiGraph

namespace RunLoop

variable {s s' : RunLoop}

/-- What the parts of the loop agree on. -/
structure Wired (s : RunLoop) : Prop where
  keyed : Keyed taskKey s.main.graph
  /-- Until the pump subscribes again nobody receives. -/
  unpumped : s.pumped = false → s.main.tx.live = false ∧ s.main.tx.queue = []
  ends : s.main.Ends
  /-- The pump ends only when the graph is empty. -/
  done : s.mainDone = true → s.main.graph.nodes = []
  /-- The loop drops and cleans up only while stopping. -/
  stop : s.loop = .cleanup ∨ s.loop.held ≠ [] → s.stopping = true
  /-- Tasks of the main graph are sent without leave to run while stopping. -/
  plain : ∀ m ∈ s.waiting, m.deps = 0 → m.allowDuringInterruption = false

/-- The move that a step makes. -/
def move (s : RunLoop) : Action → Move
  | .stop | .interrupt | .pumpForward | .otherGraph _ _ | .selectDone => .quiet
  | .pumpSubscribe => .emit
  | .arrive msg => .arrive msg.pair
  | .abort n | .failBeforeStart n | .finishJob n _ =>
    match s.jobs[n]? with
    | some job => .endJob job.msg.pair
    | none => .quiet
  | .startJob n =>
    match s.jobs[n]? with
    | some job => .start job.msg.pair
    | none => .quiet
  | .spawnError _ => .lose
  | .advance =>
    match s.loop with
    | .drain =>
      match s.queue with
      | msg :: _ => if s.stopping then .quiet else .hand msg.pair
      | [] => .quiet
    | .dropping msg _ =>
      if msg.allowDuringInterruption || (s.graphs msg.deps).isRunnablePostDep msg.task then
        .hand msg.pair
      else .drop msg.pair
    | .cleanup => .cleanup
    | .check => if s.mainDone && s.jobs.isEmpty && !s.drainedAny then .leave else .quiet
    | .select | .finished | .failed => .quiet
  | .selectMsg =>
    match s.queue with
    | msg :: _ => if s.stopping then .quiet else .hand msg.pair
    | [] => .quiet

/-- Only one step cleans up. -/
theorem loop_of_move_cleanup {a : Action} (h : s.move a = .cleanup) :
    a = .advance ∧ s.loop = .cleanup := by
  cases a
  case advance =>
    refine ⟨rfl, ?_⟩
    dsimp only [move] at h
    split at h
    case h_3 hloop => exact hloop
    all_goals repeat' split at h
    all_goals cases h
  all_goals
    dsimp only [move] at h
    repeat' split at h
    all_goals cases h

/-- A quiet move: nothing but the order of what is on its way changes. -/
theorem moves_quiet {b b' : Board} (hgraph : b'.main.graph = b.main.graph)
    (hremoved : b'.main.removed = b.main.removed)
    (hparents : b'.main.postDepParents = b.main.postDepParents) (hsent : b'.main.sent = b.main.sent)
    (hexecuted : b'.main.executed = b.main.executed) (hflight : b'.flight.Perm b.flight)
    (hhanded : b'.handed = b.handed) (hactive : b'.active = b.active)
    (hdropped : b'.dropped = b.dropped) (harrived : b'.arrived = b.arrived)
    (hstopping : b.stopping = true → b'.stopping = true)
    (hfinished : b'.finished = true → b.finished = true) : Moves .quiet b b' where
  main := ⟨[], .of_eq hgraph hremoved hparents hsent, by simpa [Move.taken, Move.came] using hflight⟩
  handed := by simp [Move.handed, hhanded]
  dropped := by simp [Move.dropped, hdropped]
  arrived := by simp [Move.came, harrived]
  active := hactive
  guard := trivial
  executed := fun k hk => Or.inl (hexecuted ▸ hk)
  stopping := hstopping
  finished := fun h => Or.inl (hfinished h)

theorem mem_flight {msg : SchedMsg} (h : msg ∈ s.waiting) : msg.pair ∈ s.board.flight :=
  List.mem_append_right _ (List.mem_map_of_mem h)

/-- What is on its way after a step that sends `new`. -/
theorem flight_perm {new : List Task} (hsends : Deps.Sends s.main s'.main new)
    {gone came : List (ℕ × Task)} (hwait : (s'.waiting.map SchedMsg.pair ++ gone).Perm
      (s.waiting.map SchedMsg.pair ++ came)) :
    (s'.board.flight ++ gone).Perm (s.board.flight ++ new.map (fun t => (0, t)) ++ came) := by
  dsimp only [board]
  rw [hsends.filterMap, List.map_append, List.append_assoc, List.append_assoc, List.append_assoc,
    List.append_assoc]
  refine List.Perm.append_left _ ?_
  refine (List.Perm.append_left _ hwait).trans ?_
  rw [← List.append_assoc, ← List.append_assoc]
  exact List.Perm.append_right _ List.perm_append_comm

namespace Wired

/-- After the main graph lost some tasks. -/
theorem of_evolves (hw : s.Wired) {ts new : List Task} (hev : Evolves s.main ts s'.main new)
    (hsends : Deps.Sends s.main s'.main new)
    (hclosed : s.main.tx.live = false → s'.main.tx = s.main.tx) (hpumped : s'.pumped = s.pumped)
    (hdone : s'.mainDone = s.mainDone)
    (hstop : s'.loop = .cleanup ∨ s'.loop.held ≠ [] → s'.stopping = true)
    (hplain : ∀ m ∈ s'.waiting, m.deps = 0 → m.allowDuringInterruption = false) : s'.Wired where
  keyed := by
    rw [hev.graph]
    exact Deps.keyed_foldl_removeNode hw.keyed ts
  unpumped := by
    intro hp
    rw [hpumped] at hp
    rw [hclosed (hw.unpumped hp).1]
    exact hw.unpumped hp
  ends := hw.ends.sends hev hsends
  done := by
    intro hd
    rw [hdone] at hd
    rw [hev.graph]
    exact Deps.foldl_removeNode_nil (hw.done hd) ts
  stop := hstop
  plain := hplain

/-- While the main graph and its channel stay as they are. -/
theorem congr (hw : s.Wired) (hmain : s'.main = s.main) (hpumped : s'.pumped = s.pumped)
    (hdone : s'.mainDone = s.mainDone)
    (hstop : s'.loop = .cleanup ∨ s'.loop.held ≠ [] → s'.stopping = true)
    (hplain : ∀ m ∈ s'.waiting, m.deps = 0 → m.allowDuringInterruption = false) : s'.Wired :=
  hw.of_evolves (by rw [hmain]; exact Evolves.refl _) (Deps.Sends.of_tx (by rw [hmain]))
    (fun _ => by rw [hmain]) hpumped hdone hstop hplain

end Wired

/-! The pump and what comes from outside. -/

theorem pumpSubscribe_sound (hw : s.Wired) (h : s.pumpSubscribe = some s') :
    s'.Wired ∧ Moves .emit s.board s'.board := by
  unfold pumpSubscribe at h
  split_ifs at h with hp
  obtain ⟨d, hd, rfl⟩ := Option.map_eq_some_iff.1 h
  obtain ⟨-, hqueue⟩ := hw.unpumped (Bool.not_eq_true _ ▸ hp)
  obtain ⟨new, hev, hsends⟩ :=
    Deps.evolves_emitLeaves (d := { s.main with tx := Channel.unbounded }) hw.keyed [] hd
  obtain ⟨hgraph, -, hexecuted, -⟩ :=
    Deps.emitLeaves_frame (d := { s.main with tx := Channel.unbounded }) hw.keyed hd
  constructor
  · refine ⟨by rw [hgraph]; exact hw.keyed, fun hfalse => (by cases hfalse), ?_, ?_, hw.stop,
      hw.plain⟩
    · exact Deps.Ends.sends ⟨by simp [Channel.unbounded], by simp [Channel.unbounded]⟩ hev hsends
    · intro hdone
      rw [hgraph]
      exact hw.done hdone
  · refine ⟨⟨new, ⟨hev.graph, hev.removed, hev.parents, hev.sent, hev.nodup, hev.leaves⟩, ?_⟩,
      by simp [board, Move.handed], by simp [board, Move.dropped], by simp [board, Move.came], rfl,
      trivial, fun k hk => Or.inl (hexecuted ▸ hk), id, fun hf => Or.inl hf⟩
    dsimp only [board]
    rw [hsends.filterMap, hqueue]
    simp only [Channel.unbounded, List.filterMap_nil, List.nil_append, Move.taken, Move.came,
      List.append_nil, List.map_nil]
    exact List.perm_append_comm

/-- Forwarding a message is no move of the board. -/
theorem pumpForward_sound (hw : s.Wired) (h : s.pumpForward = some s') :
    s'.Wired ∧ Moves .quiet s.board s'.board := by
  unfold pumpForward at h
  split at h
  · cases h
  · rename_i task queue hqueue
    obtain rfl := Option.some.inj h
    have hlast := hw.ends.last
    rw [hqueue, List.pairwise_cons] at hlast
    constructor
    · refine ⟨hw.keyed, fun hp => ?_, ⟨fun hmem => ?_, hlast.2⟩, hw.done, hw.stop, fun m hm => ?_⟩
      · have := (hw.unpumped hp).2
        rw [hqueue] at this
        cases this
      · exact hw.ends.empty (by rw [hqueue]; exact List.mem_cons_of_mem _ hmem)
      · have hm' : m ∈ s.queue ++ [mainMsg task] ++ s.loop.held := hm
        rw [List.append_assoc, List.mem_append, List.mem_append, List.mem_singleton] at hm'
        rcases hm' with hm' | rfl | hm'
        · exact hw.plain m (List.mem_append_left _ hm')
        · exact fun _ => rfl
        · exact hw.plain m (List.mem_append_right _ hm')
    · refine moves_quiet rfl rfl rfl rfl rfl ?_ rfl rfl rfl rfl id id
      dsimp only [board, waiting]
      rw [hqueue]
      simp only [List.filterMap_cons, id_eq, List.map_cons, List.map_append,
        List.append_assoc, List.cons_append, List.nil_append]
      rw [← List.append_assoc]
      refine List.perm_middle.trans ?_
      rw [List.append_assoc]
      rfl
  · rename_i queue hqueue
    obtain rfl := Option.some.inj h
    have hlast := hw.ends.last
    rw [hqueue, List.pairwise_cons] at hlast
    constructor
    · refine ⟨hw.keyed, fun _ => ⟨rfl, rfl⟩, ⟨by simp, List.Pairwise.nil⟩, fun _ => ?_, hw.stop,
        hw.plain⟩
      exact hw.ends.empty (by rw [hqueue]; exact List.mem_cons_self)
    · refine moves_quiet rfl rfl rfl rfl rfl ?_ rfl rfl rfl rfl id id
      have hnil : queue.filterMap id = [] := by
        rw [List.filterMap_eq_nil_iff]
        exact fun x hx => hlast.1 x hx rfl
      dsimp only [board, waiting]
      rw [hqueue, List.filterMap_cons_none rfl, hnil]
      exact List.Perm.refl _

/-- The flags rise. -/
theorem flag_sound (hw : s.Wired) (h : s.step .stop = some s' ∨ s.step .interrupt = some s') :
    s'.Wired ∧ Moves .quiet s.board s'.board := by
  have hrise : s.stopping = true → s'.stopping = true := by
    rcases h with h | h
    all_goals
      obtain rfl := Option.some.inj h
      simp only [stopping, Bool.and_eq_true, Bool.or_eq_true]
      tauto
  rcases h with h | h
  all_goals
    obtain rfl := Option.some.inj h
    exact ⟨hw.congr rfl rfl rfl (fun hl => hrise (hw.stop hl)) hw.plain,
      moves_quiet rfl rfl rfl rfl rfl (List.Perm.refl _) rfl rfl rfl rfl hrise id⟩

theorem arrive_sound (hw : s.Wired) {msg : SchedMsg} (h : s.step (.arrive msg) = some s') :
    s'.Wired ∧ Moves (.arrive msg.pair) s.board s'.board := by
  simp only [step] at h
  split_ifs at h with hguard
  obtain ⟨hdeps, -, hfinished, -, hnew⟩ := hguard
  obtain rfl := Option.some.inj h
  constructor
  · refine hw.congr rfl rfl rfl hw.stop fun m hm => ?_
    have hm' : m ∈ s.queue ++ [msg] ++ s.loop.held := hm
    rw [List.append_assoc, List.mem_append, List.mem_append, List.mem_singleton] at hm'
    rcases hm' with hm' | rfl | hm'
    · exact hw.plain m (List.mem_append_left _ hm')
    · exact fun hzero => absurd hzero hdeps
    · exact hw.plain m (List.mem_append_right _ hm')
  · refine ⟨⟨[], .refl _, ?_⟩, by simp [board, Move.handed], by simp [board, Move.dropped],
      by simp [board, Move.came], rfl, ?_, fun k hk => Or.inl hk, id, fun hf => Or.inl hf⟩
    · refine flight_perm (Deps.Sends.of_tx (by rfl)) ?_
      simp only [waiting, Move.taken, Move.came, List.map_append, List.append_assoc,
        List.append_nil, List.map_cons, List.map_nil]
      exact List.Perm.append_left _ List.perm_append_comm
    · refine ⟨hdeps, by simpa [board] using hfinished, ?_⟩
      simpa [board] using hnew

/-! The loop between messages. -/

/-- Where the loop is when it holds no message and is not about to clean up. -/
theorem stop_of_idle {l : LoopState} {p : Prop} (hc : l ≠ .cleanup) (hh : l.held = []) :
    l = .cleanup ∨ l.held ≠ [] → p := by
  rintro (h | h)
  · exact absurd h hc
  · exact absurd hh h

section Idle

variable (hw : s.Wired) (hheld : s.loop.held = []) {l : LoopState} (hl : l.held = [])
  (hcleanup : l = .cleanup → s.stopping = true) (drainedAny stopCleanupDone : Bool)
include hw hheld hl hcleanup

/-- The loop goes on without a message. -/
theorem idle_wired : { s with loop := l, drainedAny, stopCleanupDone }.Wired := by
  have hwait : { s with loop := l, drainedAny, stopCleanupDone }.waiting = s.waiting := by
    rw [waiting, waiting, hheld, hl]
  refine hw.congr rfl rfl rfl ?_ (by rw [hwait]; exact hw.plain)
  rintro (h | h)
  · exact hcleanup h
  · exact absurd hl h

theorem idle_sound (hfinished : l ≠ .finished) :
    { s with loop := l, drainedAny, stopCleanupDone }.Wired ∧
      Moves .quiet s.board { s with loop := l, drainedAny, stopCleanupDone }.board := by
  refine ⟨idle_wired hw hheld hl hcleanup _ _, ?_⟩
  refine moves_quiet rfl rfl rfl rfl rfl ?_ rfl rfl rfl rfl id fun hf => ?_
  · dsimp only [board, waiting]
    rw [hl, hheld]
  · exact absurd (of_decide_eq_true hf) hfinished

end Idle

/-! Jobs. -/

section SetGraph

variable (s : RunLoop) (g : ℕ) (d : Deps)

theorem setGraph_eq : s.setGraph g d = { s with
    main := if g = 0 then d else s.main
    others := if g = 0 then s.others else Function.update s.others g d } := by
  unfold setGraph
  split <;> rfl

end SetGraph

/-- The main graph when a task is removed from its graph. -/
theorem remove_sound (hw : s.Wired) {g : ℕ} {e d : Deps} {ks : List TaskKey} {t : Task}
    (hr : (s.graphs g).Remarks e ks) (hd : e.remove t = some d) :
    (∃ new, Evolves s.main (if g = 0 then [t] else []) (if g = 0 then d else s.main) new ∧
        Deps.Sends s.main (if g = 0 then d else s.main) new) ∧
      (∀ k ∈ (if g = 0 then d else s.main).executed, k ∈ s.main.executed ∨ g = 0 ∧ k ∈ ks) ∧
      (s.main.tx.live = false → (if g = 0 then d else s.main).tx = s.main.tx) := by
  unfold graphs at hr
  split_ifs at hr ⊢ with hg
  · obtain ⟨hnew, hexecuted, hclosed⟩ := hr.evolves_remove hw.keyed hd
    exact ⟨hnew, fun k hk => (hexecuted k hk).imp id fun h => ⟨hg, h⟩, hclosed⟩
  · exact ⟨⟨[], .refl _, .of_tx rfl⟩, fun _ => Or.inl, fun _ => rfl⟩

theorem endJob_sound (hw : s.Wired) {n : ℕ} {job : Job} (hjob : s.jobs[n]? = some job) {e : Deps}
    (hr : (s.graphs job.msg.deps).Remarks e [taskKey job.msg.task])
    (h : s.endJob n job.msg e = some s') :
    s'.Wired ∧ Moves (.endJob job.msg.pair) s.board s'.board := by
  unfold endJob at h
  obtain ⟨d, hd, rfl⟩ := Option.map_eq_some_iff.1 h
  obtain ⟨⟨new, hev, hsends⟩, hexecuted, hclosed⟩ := remove_sound hw hr hd
  rw [setGraph_eq]
  constructor
  · exact hw.of_evolves hev hsends hclosed rfl rfl hw.stop hw.plain
  · refine ⟨⟨new, hev, flight_perm hsends ?_⟩, by simp [board, Move.handed],
      by simp [board, Move.dropped], by simp [board, Move.came], ⟨n, ?_, ?_⟩, trivial, ?_, id,
      fun hf => Or.inl hf⟩
    · exact List.Perm.refl _
    · dsimp only [board]
      rw [List.getElem?_map, hjob]
      rfl
    · exact (List.eraseIdx_map _ _ _).symm
    · intro k hk
      exact (hexecuted k hk).imp id fun h => ⟨h.1, List.mem_singleton.1 h.2⟩

/-- The loop that polls a future stays where it is on the board. -/
theorem yielded_sound (hw : s.Wired) (h : s.yielded = some s') :
    s'.Wired ∧ s'.board = s.board ∧ s'.jobs = s.jobs := by
  unfold yielded at h
  split at h
  · obtain rfl := Option.some.inj h
    exact ⟨hw, rfl, rfl⟩
  · obtain rfl := Option.some.inj h
    exact ⟨hw, rfl, rfl⟩
  · rename_i hloop
    obtain rfl := Option.some.inj h
    have hheld : s.loop.held = [] := by rw [hloop]; rfl
    refine ⟨idle_wired hw hheld rfl (by simp) _ _, ?_, rfl⟩
    simp only [board, waiting, hloop, stopping, LoopState.held]
    rfl
  all_goals cases h

/-- The three ways a job leaves its graph. -/
theorem job_sound (hw : s.Wired) {n : ℕ} (h : s.abort n = some s' ∨ s.failBeforeStart n = some s' ∨
    ∃ interruptedBeforeStart, s.finishJob n interruptedBeforeStart = some s') :
    ∃ job, s.jobs[n]? = some job ∧ s'.Wired ∧ Moves (.endJob job.msg.pair) s.board s'.board := by
  rcases h with h | h | ⟨interruptedBeforeStart, h⟩
  · obtain ⟨s₁, hs₁, h⟩ := Option.bind_eq_some_iff.1 h
    obtain ⟨hw₁, hboard, hjobs⟩ := yielded_sound hw hs₁
    rw [← hboard, ← hjobs]
    split at h
    · rename_i msg hjob
      dsimp only at h
      split_ifs at h
      exact ⟨_, hjob, endJob_sound hw₁ hjob (Deps.remarks_refl _ _) h⟩
    · cases h
  · obtain ⟨s₁, hs₁, h⟩ := Option.bind_eq_some_iff.1 h
    obtain ⟨hw₁, hboard, hjobs⟩ := yielded_sound hw hs₁
    rw [← hboard, ← hjobs]
    split at h
    · rename_i msg hjob
      split_ifs at h
      exact ⟨_, hjob, endJob_sound hw₁ hjob (Deps.remarks_markExecuted _ _) h⟩
    · cases h
  · unfold finishJob at h
    split at h
    · rename_i msg hjob
      dsimp only at h
      refine ⟨_, hjob, endJob_sound hw hjob ?_ h⟩
      split
      · exact Deps.remarks_unmarkExecuted _ _ _
      · exact Deps.remarks_refl _ _
    · cases h

/-- A job that has its permit starts its task. -/
theorem startJob_sound (hw : s.Wired) {n : ℕ} (h : s.startJob n = some s') :
    ∃ job, s.jobs[n]? = some job ∧ s'.Wired ∧ Moves (.start job.msg.pair) s.board s'.board := by
  obtain ⟨s₁, hs₁, h⟩ := Option.bind_eq_some_iff.1 h
  obtain ⟨hw₁, hboard, hjobs⟩ := yielded_sound hw hs₁
  rw [← hboard, ← hjobs]
  split at h
  · rename_i msg hjob
    obtain rfl := Option.some.inj h
    refine ⟨_, hjob, ?_⟩
    have hr : s₁.main.Remarks (if msg.deps = 0 then (s₁.graphs msg.deps).markExecuted msg.task
        else s₁.main) [taskKey msg.task] := by
      split_ifs with hg
      · rw [graphs, if_pos hg]
        exact Deps.remarks_markExecuted _ _
      · exact Deps.remarks_refl _ _
    have hev := Evolves.of_eq hr.graph hr.removed hr.parents hr.sent
    rw [setGraph_eq]
    constructor
    · exact hw₁.of_evolves hev (.of_tx hr.tx) (fun _ => hr.tx) rfl rfl hw₁.stop hw₁.plain
    · refine ⟨⟨[], hev, flight_perm (.of_tx hr.tx) ?_⟩, by simp [board, Move.handed],
        by simp [board, Move.dropped], by simp [board, Move.came], ?_, ?_, ?_, id,
        fun hf => Or.inl hf⟩
      · exact List.Perm.refl _
      · -- the message of the job stays
        dsimp only [board, Move.Active]
        refine List.ext_getElem? fun i => ?_
        rw [List.map_set, List.getElem?_set]
        split_ifs with hi hlt
        · rw [← hi, List.getElem?_map, hjob]
          rfl
        · rw [← hi, List.getElem?_eq_none (Nat.le_of_not_lt hlt)]
        · rfl
      · exact List.mem_map.2 ⟨_, List.mem_of_getElem? hjob, rfl⟩
      · intro k hk
        dsimp only [board] at hk ⊢
        split_ifs at hk with hg
        · rw [graphs, if_pos hg] at hk
          exact (List.mem_insert_iff.1 hk).symm.imp id fun h => ⟨hg, h⟩
        · exact Or.inl hk
  · cases h

/-- The loop fails. -/
theorem spawnError_sound (hw : s.Wired) {n : ℕ} (h : s.spawnError n = some s') :
    s'.Wired ∧ Loses s.board s'.board := by
  obtain ⟨s₁, hs₁, h⟩ := Option.bind_eq_some_iff.1 h
  obtain ⟨hw₁, hboard, -⟩ := yielded_sound hw hs₁
  rw [← hboard]
  split at h
  · obtain rfl := Option.some.inj h
    constructor
    · refine hw₁.congr rfl rfl rfl (by simp [LoopState.held]) fun m hm => ?_
      refine hw₁.plain m (List.mem_append_left _ ?_)
      simpa [waiting, LoopState.held] using hm
    · refine ⟨rfl, ?_, (List.eraseIdx_sublist _ _).map _, rfl, rfl, rfl⟩
      dsimp only [board, waiting, LoopState.held]
      rw [List.map_append, List.map_append]
      exact List.Sublist.append_left (List.Sublist.append_left (List.nil_sublist _) _) _
  · cases h

theorem otherGraph_sound (hw : s.Wired) {g : ℕ} {d : Deps} (h : s.step (.otherGraph g d) = some s') :
    s'.Wired ∧ Moves .quiet s.board s'.board := by
  simp only [step] at h
  split_ifs at h with hg
  obtain rfl := Option.some.inj h
  rw [setGraph, if_neg hg]
  exact ⟨hw.congr rfl rfl rfl hw.stop hw.plain,
    moves_quiet rfl rfl rfl rfl rfl (List.Perm.refl _) rfl rfl rfl rfl id id⟩

/-! The loop. -/

/-- A message that is received is handed over, unless the run stops. -/
theorem receive_sound (hw : s.Wired) {msg : SchedMsg} {queue : List SchedMsg}
    (hqueue : s.queue = msg :: queue) (hheld : s.loop.held = []) (drainedAny draining : Bool)
    (h : { s with queue, drainedAny }.receive msg draining = s') :
    s'.Wired ∧
      Moves (if s.stopping then .quiet else .hand msg.pair) s.board s'.board := by
  have hwait : s.waiting = msg :: queue := by rw [waiting, hqueue, hheld, List.append_nil]
  subst h
  unfold receive
  split_ifs with hstop hstop' hstop'
  · constructor
    · refine hw.congr rfl rfl rfl (fun _ => hstop) fun m hm => hw.plain m ?_
      rw [hwait]
      exact (List.perm_append_singleton msg queue).mem_iff.1 hm
    · refine moves_quiet rfl rfl rfl rfl rfl ?_ rfl rfl rfl rfl id fun hf => ?_
      · refine List.Perm.append_left _ (List.Perm.map _ ?_)
        rw [hwait]
        exact List.perm_append_singleton msg queue
      · simp [board] at hf
  · exact absurd hstop hstop'
  · exact absurd hstop' hstop
  · constructor
    · refine hw.congr rfl rfl rfl (stop_of_idle (by simp) rfl) fun m hm => hw.plain m ?_
      rw [hwait]
      exact List.mem_cons_of_mem _ (by simpa [waiting, hand, LoopState.held] using hm)
    · refine ⟨⟨[], .refl _, ?_⟩, by simp [board, hand, Move.handed],
        by simp [board, hand, Move.dropped], by simp [board, hand, Move.came], ?_, ⟨?_, fun _ => ?_⟩,
        fun k hk => Or.inl hk, id, fun hf => ?_⟩
      · refine flight_perm (Deps.Sends.of_tx (by rfl)) ?_
        rw [hwait]
        simp only [waiting, hand, LoopState.held, List.append_nil, Move.taken, Move.came,
          List.map_cons]
        exact List.perm_append_singleton _ _
      · simp [board, hand, Move.Active]
      · exact mem_flight (by rw [hwait]; exact List.mem_cons_self)
      · exact Or.inl (Bool.not_eq_true _ ▸ hstop')
      · simp [board] at hf

/-- A message that comes while stopping is handed over or dropped. -/
theorem dropWhileStopping_sound (hw : s.Wired) {msg : SchedMsg} {draining : Bool}
    (hloop : s.loop = .dropping msg draining) (h : s.dropWhileStopping msg draining = some s') :
    s'.Wired ∧ Moves (if msg.allowDuringInterruption ||
        (s.graphs msg.deps).isRunnablePostDep msg.task then .hand msg.pair else .drop msg.pair)
      s.board s'.board := by
  have hwait : s.waiting = s.queue ++ [msg] := by rw [waiting, hloop]; rfl
  have hplain : msg.deps = 0 → msg.allowDuringInterruption = false :=
    hw.plain msg (by rw [hwait]; simp)
  have hqueue : ∀ m ∈ s.queue, m.deps = 0 → m.allowDuringInterruption = false :=
    fun m hm => hw.plain m (List.mem_append_left _ hm)
  have hgraph : msg.deps = 0 → s.graphs msg.deps = s.main := fun hg => by rw [graphs, if_pos hg]
  have hmem : msg.pair ∈ s.board.flight := mem_flight (by rw [hwait]; simp)
  unfold dropWhileStopping at h
  dsimp only at h
  split_ifs at h ⊢ with hrun
  · obtain rfl := Option.some.inj h
    constructor
    · refine hw.congr rfl rfl rfl (stop_of_idle (by simp [hand]) rfl) fun m hm => hqueue m ?_
      simpa [waiting, hand, LoopState.held] using hm
    · refine ⟨⟨[], .refl _, ?_⟩, by simp [board, hand, Move.handed],
        by simp [board, hand, Move.dropped], by simp [board, hand, Move.came], ?_, ⟨hmem, fun hg => ?_⟩,
        fun k hk => Or.inl hk, id, fun hf => ?_⟩
      · refine flight_perm (Deps.Sends.of_tx (by rfl)) ?_
        rw [hwait]
        simp [waiting, hand, LoopState.held, Move.taken, Move.came]
      · simp [board, hand, Move.Active]
      · rw [hplain hg, hgraph hg, Bool.false_or] at hrun
        exact Or.inr hrun
      · simp [board, hand] at hf
  · obtain ⟨d, hd, rfl⟩ := Option.map_eq_some_iff.1 h
    obtain ⟨⟨new, hev, hsends⟩, hexecuted, hclosed⟩ :=
      remove_sound hw (Deps.remarks_refl _ []) hd
    rw [setGraph_eq]
    constructor
    · refine hw.of_evolves hev hsends hclosed rfl rfl (stop_of_idle (by simp) rfl)
        fun m hm => hqueue m ?_
      simpa [waiting, LoopState.held] using hm
    · refine ⟨⟨new, hev, flight_perm hsends ?_⟩, by simp [board, Move.handed],
        by simp [board, Move.dropped, SchedMsg.pair], by simp [board, Move.came], rfl,
        ⟨hmem, fun hg => ?_⟩, fun k hk => ?_, id, fun hf => ?_⟩
      · rw [hwait]
        simp [waiting, LoopState.held, Move.taken, Move.came]
      · rw [hplain hg, hgraph hg, Bool.false_or] at hrun
        exact Bool.not_eq_true _ ▸ hrun
      · exact (hexecuted k hk).imp id fun h => absurd h.2 List.not_mem_nil
      · simp [board] at hf

/-- The cleanup of a run that stops is one move. -/
theorem stopCleanup_sound (hw : s.Wired) (hloop : s.loop = .cleanup)
    (h : s.stopCleanup = some s') : s'.Wired ∧ Moves .cleanup s.board s'.board := by
  have hwait : s.waiting = s.queue := by rw [waiting, hloop]; exact List.append_nil _
  unfold stopCleanup Deps.removeBatch at h
  obtain ⟨d, hd, rfl⟩ := Option.map_eq_some_iff.1 h
  obtain ⟨new, hev, hsends⟩ := Deps.evolves_emitLeaves hw.keyed _ hd
  obtain ⟨-, -, hexecuted, -⟩ :=
    Deps.emitLeaves_frame (Deps.keyed_foldl_removeNode hw.keyed _) hd
  obtain ⟨-, hexecuted', htx, -⟩ := Deps.foldl_removeNode_frame s.main (tasksToRemove s.main)
  have hclosed : s.main.tx.live = false → d.tx = s.main.tx := by
    intro hlive
    rw [← htx] at hlive ⊢
    rw [Deps.emitLeaves_closed hlive hd]
  have hidle : (if d.isEmpty then LoopState.finished else LoopState.check).held = [] := by
    split <;> rfl
  constructor
  · refine hw.of_evolves hev hsends hclosed rfl rfl (stop_of_idle ?_ hidle) fun m hm => hw.plain m ?_
    · dsimp only
      split <;> simp
    · rw [hwait]
      have hm' : m ∈ s.queue ++ _ := hm
      rw [hidle, List.append_nil] at hm'
      exact hm'
  · refine ⟨⟨new, hev, flight_perm hsends ?_⟩, by simp [board, Move.handed], rfl,
      by simp [board, Move.came], rfl, hw.stop (Or.inl hloop), fun k hk => Or.inl ?_, id,
      fun hf => Or.inr ⟨Or.inr rfl, ?_⟩⟩
    · rw [hwait]
      dsimp only [waiting]
      rw [hidle, List.append_nil]
      exact List.Perm.refl _
    · dsimp only [board] at hk ⊢
      rw [← hexecuted', ← hexecuted]
      exact hk
    · dsimp only [board] at hf ⊢
      split_ifs at hf with hempty
      · exact List.isEmpty_iff.1 hempty
      · simp at hf

/-- The turn of the loop, whatever its place, is a move. -/
theorem advance_sound (hw : s.Wired) (h : s.advance = some s') :
    s'.Wired ∧ Moves (s.move .advance) s.board s'.board := by
  unfold advance at h
  dsimp only [move]
  cases hloop : s.loop with
  | drain =>
    simp only [hloop] at h ⊢
    have hheld : s.loop.held = [] := by rw [hloop]; rfl
    cases hqueue : s.queue with
    | cons msg queue =>
      simp only [hqueue] at h ⊢
      exact receive_sound hw hqueue hheld _ _ (Option.some.inj h)
    | nil =>
      simp only [hqueue] at h ⊢
      split_ifs at h with hclean
      · obtain rfl := Option.some.inj h
        rw [Bool.and_eq_true] at hclean
        have hidle := idle_sound hw hheld (l := .cleanup) rfl (fun _ => hclean.1) s.drainedAny true
          (by simp)
        rw [← hqueue]
        exact hidle
      · obtain rfl := Option.some.inj h
        have hidle := idle_sound hw hheld (l := .check) rfl (by simp) s.drainedAny
          s.stopCleanupDone (by simp)
        rw [← hqueue]
        exact hidle
  | dropping msg draining =>
    simp only [hloop] at h ⊢
    exact dropWhileStopping_sound hw hloop h
  | cleanup =>
    simp only [hloop] at h ⊢
    exact stopCleanup_sound hw hloop h
  | check =>
    simp only [hloop] at h ⊢
    have hheld : s.loop.held = [] := by rw [hloop]; rfl
    split_ifs at h ⊢ with hleave
    · obtain rfl := Option.some.inj h
      rw [Bool.and_eq_true, Bool.and_eq_true] at hleave
      have hempty := hw.done hleave.1.1
      refine ⟨idle_wired hw hheld rfl (by simp) _ _, ⟨[], .refl _, ?_⟩, by simp [board, Move.handed],
        by simp [board, Move.dropped], by simp [board, Move.came], rfl, hempty, fun k hk => Or.inl hk,
        id, fun _ => Or.inr ⟨Or.inl rfl, hempty⟩⟩
      refine flight_perm (Deps.Sends.of_tx (by rfl)) ?_
      rw [waiting, waiting, hheld]
      exact List.Perm.refl _
    · obtain rfl := Option.some.inj h
      exact idle_sound hw hheld rfl (by simp) _ _ (by simp)
  | select =>
    simp only [hloop] at h
    cases h
  | finished =>
    simp only [hloop] at h
    cases h
  | failed =>
    simp only [hloop] at h
    cases h

theorem selectMsg_sound (hw : s.Wired) (h : s.selectMsg = some s') :
    s'.Wired ∧ Moves (s.move .selectMsg) s.board s'.board := by
  unfold selectMsg at h
  dsimp only [move]
  split at h
  · rename_i msg queue hloop hqueue
    rw [hqueue]
    exact receive_sound hw hqueue (by rw [hloop]; rfl) _ _ (Option.some.inj h)
  · cases h

theorem selectDone_sound (hw : s.Wired) (h : s.selectDone = some s') :
    s'.Wired ∧ Moves .quiet s.board s'.board := by
  unfold selectDone at h
  split at h
  · rename_i hloop _
    obtain rfl := Option.some.inj h
    exact idle_sound hw (by rw [hloop]; rfl) rfl (by simp) _ _ (by simp)
  · cases h

/-- No future is polled once the loop has finished. -/
theorem yielded_of_finished (h : s.loop = .finished) : s.yielded = none := by
  rw [yielded, h]

/-- A loop that has finished hands over and reports nothing, and stays so. -/
theorem stays_of_finished (hloop : s.loop = .finished) {a : Action} (h : s.step a = some s') :
    s'.loop = .finished ∧ s'.handed = s.handed ∧ s'.dropped = s.dropped := by
  have hyielded := yielded_of_finished hloop
  cases a with
  | stop | interrupt =>
    obtain rfl := Option.some.inj h
    exact ⟨hloop, rfl, rfl⟩
  | pumpSubscribe =>
    simp only [step, pumpSubscribe] at h
    split_ifs at h
    obtain ⟨d, -, rfl⟩ := Option.map_eq_some_iff.1 h
    exact ⟨hloop, rfl, rfl⟩
  | pumpForward =>
    simp only [step, pumpForward] at h
    split at h
    · cases h
    · obtain rfl := Option.some.inj h
      exact ⟨hloop, rfl, rfl⟩
    · obtain rfl := Option.some.inj h
      exact ⟨hloop, rfl, rfl⟩
  | arrive msg =>
    simp only [step] at h
    split_ifs at h with hrunning
    exact absurd hloop hrunning.2.2.1
  | otherGraph g d =>
    simp only [step] at h
    split_ifs at h
    obtain rfl := Option.some.inj h
    rw [setGraph_eq]
    exact ⟨hloop, rfl, rfl⟩
  | finishJob n interruptedBeforeStart =>
    simp only [step, finishJob] at h
    split at h
    · obtain ⟨d, -, rfl⟩ := Option.map_eq_some_iff.1 h
      rw [setGraph_eq]
      exact ⟨hloop, rfl, rfl⟩
    · cases h
  | abort n =>
    rw [step, abort, hyielded] at h
    cases h
  | startJob n =>
    rw [step, startJob, hyielded] at h
    cases h
  | failBeforeStart n =>
    rw [step, failBeforeStart, hyielded] at h
    cases h
  | spawnError n =>
    rw [step, spawnError, hyielded] at h
    cases h
  | advance =>
    rw [step, advance, hloop] at h
    cases h
  | selectMsg =>
    rw [step, selectMsg, hloop] at h
    cases h
  | selectDone =>
    rw [step, selectDone, hloop] at h
    cases h

/-- **The end of the loop on the board.** -/
theorem step_stops {a : Action} (h : s.step a = some s') : Stops (s.move a) s.board s'.board := by
  constructor
  · intro hfinished
    obtain ⟨hloop, hhanded, hdropped⟩ := stays_of_finished (of_decide_eq_true hfinished) h
    exact ⟨decide_eq_true hloop, congrArg (List.map SchedMsg.pair) hhanded, hdropped⟩
  · intro hc hempty
    obtain ⟨rfl, hloop⟩ := loop_of_move_cleanup hc
    rw [step, advance, hloop] at h
    obtain ⟨d, -, rfl⟩ := Option.map_eq_some_iff.1 h
    have hd : d.isEmpty = true := List.isEmpty_iff.2 hempty
    exact decide_eq_true (if_pos hd)

/-- **Every step is a move on the board**, unless the loop fails. -/
theorem step_sound (hw : s.Wired) {a : Action} (h : s.step a = some s') :
    s'.Wired ∧ (Moves (s.move a) s.board s'.board ∨ s.move a = .lose ∧ Loses s.board s'.board) := by
  have hmoves : s'.Wired ∧ Moves (s.move a) s.board s'.board →
      s'.Wired ∧ (Moves (s.move a) s.board s'.board ∨
        s.move a = .lose ∧ Loses s.board s'.board) := fun h => ⟨h.1, Or.inl h.2⟩
  cases a with
  | stop => exact hmoves (flag_sound hw (Or.inl h))
  | interrupt => exact hmoves (flag_sound hw (Or.inr h))
  | pumpSubscribe => exact hmoves (pumpSubscribe_sound hw h)
  | pumpForward => exact hmoves (pumpForward_sound hw h)
  | arrive msg => exact hmoves (arrive_sound hw h)
  | otherGraph g d => exact hmoves (otherGraph_sound hw h)
  | abort n =>
    obtain ⟨job, hjob, hs⟩ := job_sound hw (Or.inl h)
    exact hmoves (by simpa only [move, hjob] using hs)
  | startJob n =>
    obtain ⟨job, hjob, hs⟩ := startJob_sound hw h
    exact hmoves (by simpa only [move, hjob] using hs)
  | failBeforeStart n =>
    obtain ⟨job, hjob, hs⟩ := job_sound hw (Or.inr (Or.inl h))
    exact hmoves (by simpa only [move, hjob] using hs)
  | finishJob n b =>
    obtain ⟨job, hjob, hs⟩ := job_sound hw (Or.inr (Or.inr ⟨b, h⟩))
    exact hmoves (by simpa only [move, hjob] using hs)
  | spawnError n => exact ⟨(spawnError_sound hw h).1, Or.inr ⟨rfl, (spawnError_sound hw h).2⟩⟩
  | advance => exact hmoves (advance_sound hw h)
  | selectMsg => exact hmoves (selectMsg_sound hw h)
  | selectDone => exact hmoves (selectDone_sound hw h)

end RunLoop

end Mise
