/-
# The scheduler's run loop

`Scheduler::pump_deps`, `Scheduler::run_loop` and `drop_while_stopping` of
`src/task/task_scheduler.rs`, with what the jobs of `spawn_sched_job`
(`src/cli/run.rs`) do to the task graphs.

The loop, the pump that forwards leaves of the main graph, and the jobs run
side by side and meet at the lock of a graph, at the channel and at the stop
flags.  A step below is what one of them does between two points at which it
may wait, so that every interleaving is a sequence of steps.  The flags only
rise.

Graph 0 is the main graph.  The others belong to tasks that a running job
injects; the model lets them change at will and lets their tasks arrive at any
time, each once.  What a job does to its graph is start (`mark_executed`), end
(`remove`, after `unmark_executed` when it was interrupted before its start),
give up before its start while stopping (`should_abort_while_stopping`), or
fail before its start.  A job counts as pending until it is marked executed and
as running until it is removed.  A pending job is a future that only the loop
polls; a running one is a task of its own.
-/

import Mise.Task.DepsOps

namespace Mise

/-! ### State -/

/-- `SchedMsg`; `deps` says which graph. -/
structure SchedMsg where
  task : Task
  deps : ℕ
  allowDuringInterruption : Bool
  injected : Bool
  deriving DecidableEq

/-- The graph and the task of a message. -/
def SchedMsg.pair (msg : SchedMsg) : ℕ × Task := (msg.deps, msg.task)

/-- What identifies a task among all graphs: its graph and its key. -/
def occurrence (x : ℕ × Task) : ℕ × TaskKey := (x.1, taskKey x.2)

inductive JobStatus where
  | pending
  | running
  deriving DecidableEq

/-- A message that was handed to `spawn_job`, and how far its job is. -/
structure Job where
  msg : SchedMsg
  status : JobStatus
  deriving DecidableEq

/-- Where `run_loop` is: draining the channel, waiting for a graph's lock with a
message it took while stopping (and whether the drain took it), waiting for the
main graph's lock to clean up, at its exit check, in `select!`, or gone. -/
inductive LoopState where
  | drain
  | dropping (msg : SchedMsg) (draining : Bool)
  | cleanup
  | check
  | select
  | finished
  | failed
  deriving DecidableEq

structure RunLoop where
  main : Deps
  others : ℕ → Deps
  pumped : Bool
  mainDone : Bool
  queue : List SchedMsg
  shouldStop : Bool
  wasInterrupted : Bool
  continueOnError : Bool
  loop : LoopState
  drainedAny : Bool
  stopCleanupDone : Bool
  jobs : List Job
  /-- The messages handed to `spawn_job`. -/
  handed : List SchedMsg
  /-- The calls of `on_task_dropped`, with the graph of the task. -/
  dropped : List (ℕ × Task)
  /-- The messages that came from other graphs. -/
  arrived : List SchedMsg

namespace RunLoop

/-- `should_stop() && (!continue_on_error || was_interrupted())`. -/
def stopping (s : RunLoop) : Bool := s.shouldStop && (!s.continueOnError || s.wasInterrupted)

/-- The graph with a number. -/
def graphs (s : RunLoop) (g : ℕ) : Deps := if g = 0 then s.main else s.others g

def setGraph (s : RunLoop) (g : ℕ) (d : Deps) : RunLoop :=
  if g = 0 then { s with main := d } else { s with others := Function.update s.others g d }

/-- `pending_jobs.push(spawn_job(..))`. -/
def hand (s : RunLoop) (msg : SchedMsg) : RunLoop :=
  { s with jobs := s.jobs ++ [⟨msg, .pending⟩], handed := s.handed ++ [msg] }

/-- A message of the main graph: `SchedMsg::new(task, deps, false)`. -/
def mainMsg (task : Task) : SchedMsg := ⟨task, 0, false, false⟩

/-- Where `pump_deps` has got when it returns: the first leaves are forwarded,
and the receiver they came through is dropped. -/
def start (d₀ : Deps) (others : ℕ → Deps) (continueOnError : Bool) : Option RunLoop :=
  d₀.subscribe.map fun d =>
    { main := { d with tx := ⟨false, [], d.tx.queue⟩ }
      others
      pumped := false
      mainDone := false
      queue := (d.tx.queue.filterMap id).map mainMsg
      shouldStop := false
      wasInterrupted := false
      continueOnError
      loop := .drain
      drainedAny := false
      stopCleanupDone := false
      jobs := []
      handed := []
      dropped := []
      arrived := [] }

/-! ### The pump -/

/-- The pump subscribes again. -/
def pumpSubscribe (s : RunLoop) : Option RunLoop :=
  if s.pumped then none
  else s.main.subscribe.map fun d => { s with main := d, pumped := true }

/-- The pump forwards a leaf, or ends with `None`. -/
def pumpForward (s : RunLoop) : Option RunLoop :=
  match s.main.tx.queue with
  | [] => none
  | some task :: queue =>
    some { s with
      main := { s.main with tx := ⟨s.main.tx.live, queue, s.main.tx.taken ++ [some task]⟩ }
      queue := s.queue ++ [mainMsg task] }
  | none :: _ =>
    some { s with
      main := { s.main with tx := ⟨false, [], s.main.tx.taken ++ [none]⟩ }
      mainDone := true }

/-! ### Jobs -/

/-- A job that leaves its task's graph. -/
def endJob (s : RunLoop) (n : ℕ) (msg : SchedMsg) (d : Deps) : Option RunLoop :=
  (d.remove msg.task).map fun d => { s with jobs := s.jobs.eraseIdx n }.setGraph msg.deps d

/-- The future of a pending job is ready.  The loop polls these futures while it
waits for a lock (`lock_driving`) and in `select!`, which then goes on. -/
def yielded (s : RunLoop) : Option RunLoop :=
  match s.loop with
  | .dropping _ _ | .cleanup => some s
  | .select => some { s with loop := .drain, drainedAny := false }
  | .drain | .check | .finished | .failed => none

/-- `should_abort_while_stopping` that says yes. -/
def abort (s : RunLoop) (n : ℕ) : Option RunLoop :=
  s.yielded.bind fun s =>
    match s.jobs[n]? with
    | some ⟨msg, .pending⟩ =>
      let d := s.graphs msg.deps
      if s.stopping && !msg.allowDuringInterruption && !d.isRunnablePostDep msg.task then
        s.endJob n msg d
      else none
    | _ => none

/-- The job marks its task executed and is spawned. -/
def startJob (s : RunLoop) (n : ℕ) : Option RunLoop :=
  s.yielded.bind fun s =>
    match s.jobs[n]? with
    | some ⟨msg, .pending⟩ =>
      some ({ s with jobs := s.jobs.set n ⟨msg, .running⟩ }.setGraph msg.deps
        ((s.graphs msg.deps).markExecuted msg.task))
    | _ => none

/-- `fail_sched_job_before_start`, when installing the tools of an injected task
failed. -/
def failBeforeStart (s : RunLoop) (n : ℕ) : Option RunLoop :=
  s.yielded.bind fun s =>
    match s.jobs[n]? with
    | some ⟨msg, .pending⟩ =>
      if msg.injected then s.endJob n msg ((s.graphs msg.deps).markExecuted msg.task) else none
    | _ => none

/-- A spawned job ends. -/
def finishJob (s : RunLoop) (n : ℕ) (interruptedBeforeStart : Bool) : Option RunLoop :=
  match s.jobs[n]? with
  | some ⟨msg, .running⟩ =>
    let d := s.graphs msg.deps
    s.endJob n msg (if interruptedBeforeStart then d.unmarkExecuted msg.task else d)
  | _ => none

/-- The future of a pending job returns an error, and `run_loop` with it. -/
def spawnError (s : RunLoop) (n : ℕ) : Option RunLoop :=
  s.yielded.bind fun s =>
    match s.jobs[n]? with
    | some ⟨_, .pending⟩ => some { s with jobs := s.jobs.eraseIdx n, loop := .failed }
    | _ => none

/-! ### The loop -/

/-- A message that the loop received: it is handed to `spawn_job`, unless the
run is stopping. -/
def receive (s : RunLoop) (msg : SchedMsg) (draining : Bool) : RunLoop :=
  if s.stopping then { s with loop := .dropping msg draining }
  else { s.hand msg with loop := .drain }

/-- `drop_while_stopping`, once it has the lock. -/
def dropWhileStopping (s : RunLoop) (msg : SchedMsg) (draining : Bool) : Option RunLoop :=
  let d := s.graphs msg.deps
  let s := { s with loop := .drain, drainedAny := draining && s.drainedAny }
  if msg.allowDuringInterruption || d.isRunnablePostDep msg.task then some (s.hand msg)
  else
    (d.remove msg.task).map fun d =>
      { s with dropped := s.dropped ++ [(msg.deps, msg.task)] }.setGraph msg.deps d

/-- What the cleanup removes. -/
def tasksToRemove (d : Deps) : List Task := d.graph.nodes.filter fun t => !d.isRunnablePostDep t

/-- What the cleanup reports. -/
def neverStarted (d : Deps) : List Task := (tasksToRemove d).filter fun t => !d.hasExecuted t

/-- The cleanup, once it has the lock of the main graph. -/
def stopCleanup (s : RunLoop) : Option RunLoop :=
  (s.main.removeBatch (tasksToRemove s.main)).map fun d =>
    { s with
      main := d
      dropped := s.dropped ++ (neverStarted s.main).map fun t => (0, t)
      loop := if d.isEmpty then .finished else .check }

/-- What `run_loop` does next, outside `select!`. -/
def advance (s : RunLoop) : Option RunLoop :=
  match s.loop with
  | .drain =>
    match s.queue with
    | msg :: queue => some ({ s with queue, drainedAny := true }.receive msg true)
    | [] =>
      if s.stopping && !s.stopCleanupDone then
        some { s with stopCleanupDone := true, loop := .cleanup }
      else some { s with loop := .check }
  | .dropping msg draining => s.dropWhileStopping msg draining
  | .cleanup => s.stopCleanup
  | .check =>
    if s.mainDone && s.jobs.isEmpty && !s.drainedAny then some { s with loop := .finished }
    else some { s with loop := .select }
  | .select | .finished | .failed => none

/-- The message arm of `select!`. -/
def selectMsg (s : RunLoop) : Option RunLoop :=
  match s.loop, s.queue with
  | .select, msg :: queue => some ({ s with queue, drainedAny := false }.receive msg false)
  | _, _ => none

/-- The `main_done` arm of `select!`, which is ready once the pump has ended. -/
def selectDone (s : RunLoop) : Option RunLoop :=
  match s.loop, s.mainDone with
  | .select, true => some { s with loop := .drain, drainedAny := false }
  | _, _ => none

/-! ### Steps -/

inductive Action where
  | stop
  | interrupt
  | pumpSubscribe
  | pumpForward
  | arrive (msg : SchedMsg)
  | otherGraph (g : ℕ) (d : Deps)
  | abort (n : ℕ)
  | startJob (n : ℕ)
  | failBeforeStart (n : ℕ)
  | finishJob (n : ℕ) (interruptedBeforeStart : Bool)
  | spawnError (n : ℕ)
  | advance
  | selectMsg
  | selectDone

def step (s : RunLoop) : Action → Option RunLoop
  | .stop => some { s with shouldStop := true }
  | .interrupt => some { s with wasInterrupted := true }
  | .pumpSubscribe => s.pumpSubscribe
  | .pumpForward => s.pumpForward
  | .arrive msg =>
    if msg.deps ≠ 0 ∧ msg.injected = true ∧ s.loop ≠ .finished ∧ s.loop ≠ .failed ∧
        occurrence msg.pair ∉ s.arrived.map fun m => occurrence m.pair then
      some { s with queue := s.queue ++ [msg], arrived := s.arrived ++ [msg] }
    else none
  | .otherGraph g d => if g = 0 then none else some (s.setGraph g d)
  | .abort n => s.abort n
  | .startJob n => s.startJob n
  | .failBeforeStart n => s.failBeforeStart n
  | .finishJob n interruptedBeforeStart => s.finishJob n interruptedBeforeStart
  | .spawnError n => s.spawnError n
  | .advance => s.advance
  | .selectMsg => s.selectMsg
  | .selectDone => s.selectDone

end RunLoop

end Mise
