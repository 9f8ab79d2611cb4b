/-
# Installing tools in the order of their dependencies

`toolset/tool_deps.rs` and `install_with_deps` of `toolset/toolset_install.rs`.  The
loop takes what the dependency graph sends, waits for a permit, spawns the installer,
and hands each result back to the graph.  An installer ends at any time, with any
result or a panic, so what it does is an action of a run like the loop's own.

`matchesRequest` is what the declarations of a tool say about another one, and
`prepared` are the failures of the lockfile's preparation.
-/

import Mise.Util.DepsGraphRun

namespace Mise.Toolset

open Lib

variable {ω : Type}

/-! ### Requests and their graph -/

/-- `ToolRequest`, with the source as it is displayed. -/
structure ToolRequest (ω : Type) where
  short : String
  version : String
  source : String
  options : ω
  deriving DecidableEq

/-- `ToolVersion`, by its request. -/
structure ToolVersion (ω : Type) where
  request : ToolRequest ω
  version : String
  deriving DecidableEq

/-- `tool_key`. -/
def toolKey (tr : ToolRequest ω) : String := tr.short ++ "@" ++ tr.version

/-- `graph_key`. -/
def graphKey (tr : ToolRequest ω) : String := toolKey tr ++ "#" ++ tr.source

/-- `install_destination_key`. -/
def installDestinationKey (tr : ToolRequest ω) : String := tr.short ++ "@" ++ tr.version

/-- One request of `ensure_compatible_install_requests`. -/
def noteOptions [DecidableEq ω] (options : IndexMap String ω) (request : ToolRequest ω) :
    Except String (IndexMap String ω) :=
  let key := installDestinationKey request
  if (options.get key).any (· ≠ request.options) then
    .error ("conflicting options for " ++ key ++
      ": multiple requests share the same install destination")
  else .ok (options.insert key request.options)

/-- `ensure_compatible_install_requests`. -/
def ensureCompatibleInstallRequests [DecidableEq ω] (requests : List (ToolRequest ω)) :
    Except String Unit := do
  let _ ← requests.foldlM noteOptions IndexMap.empty
  return ()

/-- The edges of `ToolDeps::new`. -/
def dependencyEdges (matchesRequest : ToolRequest ω → ToolRequest ω → Bool)
    (requests : List (ToolRequest ω)) : List (String × String) :=
  requests.flatMap fun tr =>
    (requests.filter fun other => matchesRequest tr other && graphKey tr != graphKey other).map
      fun other => (graphKey tr, graphKey other)

/-- `ToolDeps`, without the keys of the display. -/
abbrev ToolDeps (ω : Type) := DepsGraph String (ToolRequest ω)

/-- `ToolDeps::new`. -/
def ToolDeps.new [DecidableEq ω]
    (isCyclicDirected : StableGraph (ToolRequest ω) → Bool)
    (matchesRequest : ToolRequest ω → ToolRequest ω → Bool) (requests : List (ToolRequest ω)) :
    Except String (ToolDeps ω) := do
  ensureCompatibleInstallRequests requests
  DepsGraph.new isCyclicDirected (requests.map fun tr => (graphKey tr, tr))
    (dependencyEdges matchesRequest requests) graphKey

/-- `blocked_nodes`. -/
def blockedTools (deps : ToolDeps ω) : List (ToolRequest ω) :=
  (deps.graph.nodeIndices.filterMap deps.graph.nodeWeight).filter fun tr =>
    decide (deps.keyFn tr ∈ deps.blocked)

/-! ### How many at a time -/

/-- `jobs::normalize`. -/
def normalize (jobs : ℕ) : ℕ := max jobs 1

/-- `jobs::resolve`. -/
def resolve (configured : ℕ) (override : Option ℕ) : ℕ := normalize (override.getD configured)

/-- The permits of `install_with_deps`. -/
def installJobs (raw generateLockfiles : Bool) (configured : ℕ) (override : Option ℕ) : ℕ :=
  let jobs := if raw then 1 else resolve configured override
  if generateLockfiles then max (jobs - 1) 1 else jobs

theorem installJobs_pos (raw generateLockfiles : Bool) (configured : ℕ) (override : Option ℕ) :
    0 < installJobs raw generateLockfiles configured override := by
  unfold installJobs resolve normalize
  simp only
  split <;> split <;> omega

/-! ### The loop -/

/-- How an installer ends. -/
inductive Outcome (ω : Type) where
  | installed (tv : ToolVersion ω)
  | failed (error : String)
  | panicked (message : String)
  deriving DecidableEq

/-- The version an installer leaves. -/
def Outcome.version? : Outcome ω → Option (ToolVersion ω)
  | .installed tv => some tv
  | .failed _ | .panicked _ => none

/-- The error that is told of an installer. -/
def Outcome.error? : Outcome ω → Option String
  | .installed _ => none
  | .failed error => some error
  | .panicked message => some ("Installation task panicked: " ++ message)

/-- Where `install_with_deps` is: in its `select!`, behind it, or at its end. -/
inductive Phase where
  | running
  | draining
  | done
  deriving DecidableEq

/-- `install_with_deps` between two of its steps. -/
structure InstallLoop (ω : Type) where
  toolDeps : ToolDeps ω
  /-- How much of what the graph sent was received. -/
  received : ℕ
  /-- The request that waits for a permit. -/
  permit : Option (ToolRequest ω)
  /-- The installers of `jset` that run. -/
  tasks : List (ℕ × ToolRequest ω)
  /-- The installers of `jset` that have ended and are not joined. -/
  ended : List (ℕ × ToolRequest ω × Outcome ω)
  inFlight : IndexMap ℕ (ToolRequest ω)
  nextId : ℕ
  installed : List (ToolVersion ω)
  failed : List (ToolRequest ω × String)
  attemptedFailures : List (ToolRequest ω)
  phase : Phase

/-- What happens next. -/
inductive Action (ω : Type) where
  /-- The loop receives a message of the graph. -/
  | receive
  /-- The loop has its permit and spawns the installer. -/
  | spawn
  /-- An installer ends, which frees its permit. -/
  | finish (id : ℕ) (outcome : Outcome ω)
  /-- The loop joins an installer that has ended. -/
  | join (id : ℕ)
  /-- The loop has joined all and returns. -/
  | close (prepared : List (ToolRequest ω × String))

namespace InstallLoop

/-- A result that was joined. -/
def complete (s : InstallLoop ω) (id : ℕ) (tr : ToolRequest ω) (outcome : Outcome ω) :
    InstallLoop ω :=
  match outcome with
  | .installed tv =>
    { s with
      installed := s.installed ++ [tv]
      toolDeps := s.toolDeps.completeSuccess (graphKey tr) }
  | .failed error =>
    { s with
      attemptedFailures := s.attemptedFailures ++ [tr]
      failed := s.failed ++ [(tr, error)]
      toolDeps := s.toolDeps.completeFailure (graphKey tr) }
  | .panicked message =>
    match s.inFlight.get id with
    | some tr =>
      { s with
        inFlight := s.inFlight.shiftRemove id
        attemptedFailures := s.attemptedFailures ++ [tr]
        failed := s.failed ++ [(tr, "Installation task panicked: " ++ message)]
        toolDeps := s.toolDeps.completeFailure (graphKey tr) }
    | none => s

/-- `request_order`. -/
def requestOrder (versions : List (ToolRequest ω)) : IndexMap String ℕ :=
  versions.zipIdx.foldl (fun order e => order.insert (graphKey e.1) e.2) IndexMap.empty

/-- `usize::MAX`. -/
def usizeMax : ℕ := 18446744073709551615

/-- What `installed` is sorted by. -/
def position (versions : List (ToolRequest ω)) (tv : ToolVersion ω) : ℕ :=
  ((requestOrder versions).get (graphKey tv.request)).getD usizeMax

/-- One step of `install_with_deps`; none where the action cannot happen. -/
def step (jobs : ℕ) (versions : List (ToolRequest ω)) (s : InstallLoop ω) :
    Action ω → Option (InstallLoop ω)
  | .receive =>
    if s.phase = .running ∧ s.permit = none then
      match s.toolDeps.tx[s.received]? with
      | some (some tr) => some { s with received := s.received + 1, permit := some tr }
      | some none => some { s with received := s.received + 1, phase := .draining }
      | none => none
    else none
  | .spawn =>
    match s.permit with
    | some tr =>
      if s.tasks.length < jobs then
        some { s with
          permit := none
          tasks := s.tasks ++ [(s.nextId, tr)]
          inFlight := s.inFlight.insert s.nextId tr
          nextId := s.nextId + 1 }
      else none
    | none => none
  | .finish id outcome =>
    match s.tasks.find? fun task => task.1 = id with
    | some task =>
      some { s with
        tasks := s.tasks.filter fun task => task.1 ≠ id
        ended := s.ended ++ [(id, task.2, outcome)] }
    | none => none
  | .join id =>
    if s.phase ≠ .done ∧ s.permit = none then
      match s.ended.find? fun task => task.1 = id with
      | some task =>
        some (({ s with ended := s.ended.filter fun task => task.1 ≠ id }).complete id
          task.2.1 task.2.2)
      | none => none
    else none
  | .close prepared =>
    if s.phase = .draining ∧ s.tasks = [] ∧ s.ended = [] then
      some { s with
        failed := s.failed ++ prepared ++ (blockedTools s.toolDeps).map fun tr =>
          (tr, "Skipped due to failed dependency")
        installed := s.installed.mergeSort fun a b =>
          decide (position versions a ≤ position versions b)
        phase := .done }
    else none

/-- The loop at its start. -/
def start (deps : ToolDeps ω) : InstallLoop ω where
  toolDeps := deps.subscribe
  received := 0
  permit := none
  tasks := []
  ended := []
  inFlight := IndexMap.empty
  nextId := 0
  installed := []
  failed := []
  attemptedFailures := []
  phase := .running

/-- `install_with_deps` up to its loop: its three lists where it returns before. -/
def installWithDeps [DecidableEq ω] (isCyclicDirected : StableGraph (ToolRequest ω) → Bool)
    (matchesRequest : ToolRequest ω → ToolRequest ω → Bool) (versions : List (ToolRequest ω)) :
    (List (ToolVersion ω) × List (ToolRequest ω × String) × List (ToolRequest ω)) ⊕
      InstallLoop ω :=
  if versions = [] then .inl ([], [], [])
  else
    match ToolDeps.new isCyclicDirected matchesRequest versions with
    | .error e =>
      .inl ([], versions.map fun tr => (tr, "Failed to build dependency graph: " ++ e), [])
    | .ok deps => .inr (start deps)

/-- What an action joins. -/
def joined (s : InstallLoop ω) : Action ω → List (ToolRequest ω × Outcome ω)
  | .join id => ((s.ended.find? fun task => task.1 = id).map Prod.snd).toList
  | _ => []

/-- The runs, each with its actions and with what was joined. -/
inductive Run (jobs : ℕ) (versions : List (ToolRequest ω)) (s₀ : InstallLoop ω) :
    List (Action ω) → List (ToolRequest ω × Outcome ω) → InstallLoop ω → Prop
  | start : Run jobs versions s₀ [] [] s₀
  | step {acts : List (Action ω)} {log : List (ToolRequest ω × Outcome ω)} {s s' : InstallLoop ω}
      {a : Action ω} (h : Run jobs versions s₀ acts log s)
      (hstep : s.step jobs versions a = some s') :
      Run jobs versions s₀ (acts ++ [a]) (log ++ s.joined a) s'

end InstallLoop

end Mise.Toolset
