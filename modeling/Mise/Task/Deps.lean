/-
# The task graph

`Deps` in `src/task/deps.rs`, over petgraph's `DiGraph`, whose `remove_node`
moves the last node into the hole.

The graph holds the tasks that have not been removed, with an edge from a task
to each one it waits for.  A task without outgoing edges is sent once, and the
mark that it was sent is taken back when nobody receives.  `None` is sent when
the graph is empty.

What `Deps::new` calls outside this file (fetching remote files, rendering
usage templates, resolving dependencies) is a structure of functions, and so is
the search for cycles.  The fields that only freshness and artifact caching
read are left out.
-/

import Mise.Text
import Mise.Task.Task
import Mise.Lib.SwapGraph

namespace Mise

open Lib

/-! ### Channels -/

/-- An unbounded channel: whether its receiver is there, what waits in it, and
what the receiver has taken. -/
structure Channel (α : Type) where
  live : Bool
  queue : List α
  taken : List α
  deriving DecidableEq

namespace Channel

variable {α : Type}

/-- `mpsc::unbounded_channel`. -/
def unbounded : Channel α := ⟨true, [], []⟩

/-- `UnboundedSender::send`, which fails when the receiver is gone. -/
def send (c : Channel α) (a : α) : Option (Channel α) :=
  if c.live then some ⟨c.live, c.queue ++ [a], c.taken⟩ else none

/-- All that was sent over the channel. -/
def messages (c : Channel α) : List α := c.taken ++ c.queue

end Channel

/-- `Deps`. -/
structure Deps where
  graph : DiGraph Task
  sent : List TaskKey
  removed : List TaskKey
  executed : List TaskKey
  postDepParents : List (TaskKey × TaskKey)
  tx : Channel (Option Task)
  deriving DecidableEq

namespace Deps

/-! ### Emission -/

/-- The loop of `emit_leaves` at one leaf. -/
def emitLeaf (d : Deps) (task : Task) : Deps :=
  let key := taskKey task
  if key ∈ d.sent then d
  else
    let sent := d.sent.insert key
    match d.tx.send (some task) with
    | some tx => { d with sent, tx }
    | none => { d with sent := sent.erase key }

/-- `is_empty`. -/
def isEmpty (d : Deps) : Bool := d.graph.nodes.isEmpty

/-- `emit_leaves`; `none` is its panic. -/
def emitLeaves (d : Deps) : Option Deps :=
  let leaves := d.graph.externals
  let d := leaves.foldl emitLeaf d
  if d.isEmpty then some { d with tx := (d.tx.send none).getD d.tx }
  else if leaves.isEmpty && d.sent.length == d.removed.length then none
  else some d

/-- `subscribe`; the receiver it returns is the other end of `tx`. -/
def subscribe (d : Deps) : Option Deps := { d with tx := Channel.unbounded }.emitLeaves

/-! ### Removal -/

/-- `node_idx`. -/
def nodeIdx (d : Deps) (task : Task) : Option ℕ := d.graph.nodes.findIdx? fun n => n.eq task

/-- What `remove` and `remove_batch` do for a task before they emit. -/
def removeNode (d : Deps) (task : Task) : Deps :=
  match d.nodeIdx task with
  | some idx =>
    { d with graph := d.graph.removeNode idx, removed := d.removed.insert (taskKey task) }
  | none => d

/-- `remove`. -/
def remove (d : Deps) (task : Task) : Option Deps :=
  match d.nodeIdx task with
  | some _ => (d.removeNode task).emitLeaves
  | none => some d

/-- `remove_batch`. -/
def removeBatch (d : Deps) (tasks : List Task) : Option Deps :=
  (tasks.foldl removeNode d).emitLeaves

/-! ### Execution -/

/-- `is_runnable_post_dep`. -/
def isRunnablePostDep (d : Deps) (task : Task) : Bool :=
  d.postDepParents.any fun e => e.1 == taskKey task && decide (e.2 ∈ d.executed)

/-- `has_executed`. -/
def hasExecuted (d : Deps) (task : Task) : Bool := decide (taskKey task ∈ d.executed)

/-- `mark_executed`. -/
def markExecuted (d : Deps) (task : Task) : Deps :=
  { d with executed := d.executed.insert (taskKey task) }

/-- `unmark_executed`. -/
def unmarkExecuted (d : Deps) (task : Task) : Deps :=
  { d with executed := d.executed.erase (taskKey task) }

end Deps

/-! ### Construction -/

/-- `ResolvedTaskDependencies`. -/
structure ResolvedTaskDependencies where
  depends : List Task
  waitFor : List Task
  dependsPost : List Task

/-- What `Deps::new` calls: fetching one remote task, rendering a task's usage
templates, resolving the tasks to run, resolving one task's dependencies, and
`find_cycles`. -/
structure TaskConfig (ε : Type) where
  fetchTask : Task → Except ε Task
  renderRuntimeTemplates : Task → Except ε Task
  resolveDepends : List Task → Except ε (List Task)
  resolveTaskDepends : Task → List Task → Except ε ResolvedTaskDependencies
  findCycles : DiGraph Task → List (List ℕ)

/-- The error of `Deps::new`: one of what it calls, or `TaskCycleError`. -/
inductive NewError (ε : Type) where
  | failed (error : ε)
  | taskCycle (paths : List (List String)) (keys : List (List TaskKey))
  deriving DecidableEq

/-- `TaskFetcher::is_remote_source`. -/
def isRemoteSource (source : String) : Bool :=
  startsWith source "git::" || startsWith source "http://" || startsWith source "https://"

/-- `fetch_remote_task`. -/
def fetchRemoteTask {ε : Type} (config : TaskConfig ε) (task : Task) : Except ε Task :=
  if !(task.file.any isRemoteSource) then .ok task
  else (config.fetchTask task).map fun t => t.withRunPhase task.runPhase

/-- The index of the node with a key: `indexes`, which `add_idx` keeps in step
with the nodes. -/
def indexOf (graph : DiGraph Task) (key : TaskKey) : Option ℕ :=
  graph.nodes.findIdx? fun n => taskKey n == key

/-- `add_idx`. -/
def addIdx (task : Task) (graph : DiGraph Task) : DiGraph Task × ℕ :=
  match indexOf graph (taskKey task) with
  | some idx => (graph, idx)
  | none => (graph.addNode task, graph.nodes.length)

/-- The variables of `new_with_cycle_limit` while its worklist runs; the top of
the stack comes first. -/
structure Build where
  graph : DiGraph Task
  stack : List Task
  seen : List TaskKey
  directPostParents : List (TaskKey × TaskKey)
  depEdges : List (TaskKey × TaskKey)
  waitEdges : List (TaskKey × Task)

namespace Build

variable {ε : Type} (config : TaskConfig ε)

/-- The first loop: one of the tasks to run. -/
def addRoot (b : Build) (task : Task) : Except ε Build :=
  (fetchRemoteTask config (task.withRunPhase .normal)).map fun t =>
    { b with graph := (addIdx t b.graph).1, stack := t :: b.stack }

/-- One task that `a` depends on. -/
def addDepend (a : Task) (aIdx : ℕ) (b : Build) (task : Task) : Except ε Build :=
  (fetchRemoteTask config (task.withRunPhase a.runPhase)).map fun t =>
    let (graph, idx) := addIdx t b.graph
    { b with
      graph := graph.updateEdge aIdx idx
      depEdges := b.depEdges.insert (taskKey a, taskKey t)
      stack := t :: b.stack }

/-- One task to run after `a`. -/
def addDependPost (a : Task) (b : Build) (task : Task) : Except ε Build :=
  (fetchRemoteTask config (task.withRunPhase .post)).map fun t =>
    { b with
      graph := (addIdx t b.graph).1
      directPostParents := b.directPostParents.insert (taskKey t, taskKey a)
      stack := t :: b.stack }

/-- The node of a task, which holds the task as it is now. -/
def place (b : Build) (a : Task) : Build :=
  let (graph, aIdx) := addIdx a b.graph
  { b with graph := ⟨graph.nodes.set aIdx a, graph.edges⟩ }

/-- A task's `wait_for`, kept until all nodes are there. -/
def addWaitFor (a : Task) (waitFor : List Task) (b : Build) : Build :=
  { b with waitEdges := b.waitEdges ++ waitFor.map fun t => (taskKey a, t) }

/-- A task that the worklist has not seen: its node and its dependencies. -/
def expand (allTasksToRun : List Task) (b : Build) (task : Task) : Except ε Build := do
  let a ← config.renderRuntimeTemplates task
  let aIdx := (addIdx a b.graph).2
  let resolved ← config.resolveTaskDepends a allTasksToRun
  let b ← resolved.depends.foldlM (addDepend config a aIdx) (b.place a)
  resolved.dependsPost.foldlM (addDependPost config a) (b.addWaitFor a resolved.waitFor)

/-- The worklist, for at most `fuel` rounds; `none` when it has not ended. -/
def loop (allTasksToRun : List Task) : ℕ → Build → Option (Except ε Build)
  | 0, _ => none
  | fuel + 1, b =>
    match b.stack with
    | [] => some (.ok b)
    | a :: stack =>
      let b := { b with stack }
      if taskKey a ∈ b.seen then loop allTasksToRun fuel b
      else
        match expand config allTasksToRun { b with seen := b.seen.insert (taskKey a) } a with
        | .ok b => loop allTasksToRun fuel b
        | .error e => some (.error e)

end Build

/-- Add a parent of a post task, and note it as pending when it is new. -/
def addPostParent (s : List (TaskKey × TaskKey) × List (TaskKey × TaskKey))
    (e : TaskKey × TaskKey) : List (TaskKey × TaskKey) × List (TaskKey × TaskKey) :=
  if e ∈ s.1 then s else (s.1.insert e, s.2 ++ [e])

/-- The propagation of the parents through the edges of post tasks; every pair
is pending once, so that the number of pairs of keys bounds the rounds. -/
def propagatePostParents (depEdges : List (TaskKey × TaskKey)) :
    ℕ → List (TaskKey × TaskKey) → List (TaskKey × TaskKey) → List (TaskKey × TaskKey)
  | 0, parents, _ => parents
  | _ + 1, parents, [] => parents
  | fuel + 1, parents, (postKey, parent) :: pending =>
    let dependencies := depEdges.filterMap fun e =>
      if e.1 = postKey ∧ e.2.phase = .post ∧ e.2 ≠ parent then some (e.2, parent) else none
    let (parents, pending) := dependencies.foldl addPostParent (parents, pending)
    propagatePostParents depEdges fuel parents pending

/-- `post_dep_parents` from the direct parents. -/
def postDepParentsOf (nodeCount : ℕ) (directPostParents depEdges : List (TaskKey × TaskKey)) :
    List (TaskKey × TaskKey) :=
  let (parents, pending) := directPostParents.foldl addPostParent ([], [])
  propagatePostParents depEdges (nodeCount * nodeCount + 1) parents pending

/-- The edge from a post task to a parent, whose nodes are both there. -/
def addBarrier (graph : DiGraph Task) (e : TaskKey × TaskKey) : DiGraph Task :=
  match indexOf graph e.1, indexOf graph e.2 with
  | some post, some parent => graph.updateEdge post parent
  | _, _ => graph

/-- The node a `wait_for` links to: one of the waiting task's phase, or else
any. -/
def waitTarget (graph : DiGraph Task) (phase : TaskRunPhase) (target : Task) : Option ℕ :=
  (graph.nodes.findIdx? fun n => sameTaskWithoutPhase n target && n.runPhase == phase).or
    (graph.nodes.findIdx? fun n => sameTaskWithoutPhase n target)

/-- The edge of a `wait_for`. -/
def addWaitEdge (graph : DiGraph Task) (e : TaskKey × Task) : DiGraph Task :=
  match indexOf graph e.1, waitTarget graph e.1.phase e.2 with
  | some waiting, some target => graph.updateEdge waiting target
  | _, _ => graph

/-- `task_cycle_label`. -/
def taskCycleLabel (task : Task) : String :=
  let label := if task.args.isEmpty then task.name
    else task.name ++ " " ++ String.intercalate " " task.args
  let label := if task.runPhase = .post then label ++ " (post)" else label
  let envKeys := (((EnvDirective.pairs task.env).map Prod.fst).insertionSort
    fun a b => ¬ b < a).dedup
  if envKeys.isEmpty then label
  else label ++ " [env: " ++ String.intercalate ", " envKeys ++ "]"

namespace Deps

variable {ε : Type}

/-- A new graph, with a sender whose receiver is dropped at once. -/
def ofGraph (graph : DiGraph Task) (postDepParents : List (TaskKey × TaskKey)) : Deps where
  graph
  sent := []
  removed := []
  executed := []
  postDepParents
  tx := ⟨false, [], []⟩

/-- What `new` does once the worklist has ended. -/
def finish (config : TaskConfig ε) (b : Build) : Except (NewError ε) Deps :=
  let parents := postDepParentsOf b.graph.nodes.length b.directPostParents b.depEdges
  let graph := b.waitEdges.foldl addWaitEdge (parents.foldl addBarrier b.graph)
  let cycles := config.findCycles graph
  if cycles.isEmpty then .ok (ofGraph graph parents)
  else
    .error (.taskCycle
      (cycles.map fun cycle => cycle.filterMap fun i => (graph.nodes[i]?).map taskCycleLabel)
      (cycles.map fun cycle => cycle.filterMap fun i => (graph.nodes[i]?).map taskKey))

/-- `Deps::new`, for at most `fuel` rounds of its worklist. -/
def new (config : TaskConfig ε) (tasks : List Task) (fuel : ℕ) :
    Option (Except (NewError ε) Deps) :=
  match tasks.foldlM (Build.addRoot config) ⟨.empty, [], [], [], [], []⟩ with
  | .error e => some (.error (.failed e))
  | .ok b =>
    match config.resolveDepends tasks with
    | .error e => some (.error (.failed e))
    | .ok allTasksToRun =>
      match b.loop config allTasksToRun fuel with
      | none => none
      | some (.error e) => some (.error (.failed e))
      | some (.ok b) => some (finish config b)

end Deps

end Mise
