/-
# The plan of a configuration

`crates/mise-system/src/resources.rs` (`plan`), with the checks of `managed_files.rs`
(`validate_requests`, `validate_present_ancestors`) that it runs: accounts, packages,
directories, files, services, firewall and compose projects, in this order, and what each
of them waits for.

The requests are those of a configuration after its layers are merged and each resource
inspected; a `Report` is what an inspection tells.  The checks of principals and of
notifications, which look at no order, come before and are left out.
-/

import Mise.Bootstrap.Plan

namespace Mise.Bootstrap

open Lib

/-- What the inspection of a resource tells. -/
structure Report where
  current : String
  desired : String
  action : ResourceAction

/-- `ResourcePlan::new`. -/
def Report.plan (report : Report) (id : ResourceId) : ResourcePlan :=
  { id, current := report.current, desired := report.desired, action := report.action }

/-- A declared group. -/
structure GroupRequest where
  name : String
  state : AccountState
  report : Report

/-- A declared user; `currentPrimaryGroup` is where the system has it now. -/
structure UserRequest where
  name : String
  state : AccountState
  group : Option String
  groups : List String
  currentPrimaryGroup : Option String
  report : Report

/-- `PackageState`. -/
inductive PackageState where
  | installed (version : String)
  | installedAutoUpdates (version : String)
  | missing
  | needsRepair (installed : String)
  | versionMismatch (installed : String)
  | unavailable (reason : String)

/-- `PackageRequest`; `absent` is `PackageDesiredState::Absent`. -/
structure PackageRequest where
  name : String
  version : Option String
  absent : Bool

/-- The packages of one manager; `state` is what it tells of each of them. -/
structure ManagerPackages where
  manager : String
  isPlugin : Bool
  disabled : Bool
  unavailableReason : Option String
  supportsVersionPins : Bool
  supportsRemove : Bool
  requests : List PackageRequest
  state : PackageRequest → PackageState

/-- The packages of a manager whose plugin is not installed. -/
structure PendingPackages where
  manager : String
  enabled : Bool
  requests : List PackageRequest

/-- A managed path, by its names below the root. -/
abbrev ManagedPath := List String

/-- `ManagedDirectoryRequest`. -/
structure ManagedDirectoryRequest where
  path : ManagedPath
  state : ManagedState
  phase : ManagedFilePhase
  owner : Option String
  group : Option String
  report : Report

/-- `ManagedFileRequest`; a present file whose template renders to nothing is removed. -/
structure ManagedFileRequest where
  path : ManagedPath
  state : ManagedState
  renderedEmpty : Bool
  phase : ManagedFilePhase
  owner : Option String
  group : Option String
  report : Report

/-- A file that cannot be rendered, for want of a secret. -/
structure UnavailableFile where
  path : ManagedPath
  state : ManagedState
  phase : ManagedFilePhase

/-- A declared service. -/
structure ServiceRequest where
  name : String
  report : Report

/-- `FirewallRequest`: its policy and its rules. -/
structure FirewallRequest where
  report : Report
  rules : List ServiceRequest

/-- `ComposeRequest`; `running` is `ComposeState::Running`. -/
structure ComposeRequest where
  name : String
  running : Bool
  pathDependencies : List ResourceId
  explicitDependencies : List ResourceId
  report : Report

/-- What a configuration requests.  Groups, users and directories come from maps. -/
structure Requests where
  groups : List GroupRequest
  users : List UserRequest
  packages : List ManagerPackages
  pending : List PendingPackages
  directories : List ManagedDirectoryRequest
  files : List ManagedFileRequest
  unavailable : List UnavailableFile
  services : List ServiceRequest
  userServices : List ServiceRequest
  firewall : Option FirewallRequest
  compose : List ComposeRequest
  groups_nodup : (groups.map GroupRequest.name).Nodup
  users_nodup : (users.map UserRequest.name).Nodup
  directories_nodup : (directories.map ManagedDirectoryRequest.path).Nodup

/-! ### Names -/

/-- The text of a path. -/
def ManagedPath.text (path : ManagedPath) : String := "/" ++ "/".intercalate path

/-- The directories above a path, the nearest first: `path.ancestors().skip(1)`. -/
def ManagedPath.above (path : ManagedPath) : List ManagedPath :=
  (List.range path.length).reverse.map fun n => path.take n

/-- The id of a group. -/
def groupId (name : String) : ResourceId := ⟨"group", name⟩

/-- The id of a user. -/
def userId (name : String) : ResourceId := ⟨"user", name⟩

/-- The id of a package. -/
def packageId (manager : String) (request : PackageRequest) : ResourceId :=
  ⟨"package", manager ++ ":" ++ request.name⟩

/-- The id of a directory. -/
def ManagedDirectoryRequest.id (directory : ManagedDirectoryRequest) : ResourceId :=
  ⟨"directory", directory.path.text⟩

/-- The id of a file. -/
def ManagedFileRequest.id (file : ManagedFileRequest) : ResourceId := ⟨"file", file.path.text⟩

/-- The id of the firewall. -/
def policyId : ResourceId := ⟨"firewall", "linux"⟩

/-- The id of a rule of the firewall. -/
def ruleId (name : String) : ResourceId := ⟨"firewall-rule", name⟩

/-- The state of a declared group. -/
def Requests.groupState (cfg : Requests) (name : String) : Option AccountState :=
  (cfg.groups.find? fun group => group.name = name).map GroupRequest.state

/-- The state of a declared user. -/
def Requests.userState (cfg : Requests) (name : String) : Option AccountState :=
  (cfg.users.find? fun user => user.name = name).map UserRequest.state

/-- A declared directory. -/
def Requests.directory (cfg : Requests) (path : ManagedPath) : Option ManagedDirectoryRequest :=
  cfg.directories.find? fun directory => directory.path = path

/-- The nearest declared directory above a path. -/
def Requests.parent (cfg : Requests) (path : ManagedPath) : Option ManagedDirectoryRequest :=
  path.above.findSome? cfg.directory

/-- The packages of the built-in managers. -/
def Requests.builtinPackages (cfg : Requests) : List ResourceId :=
  (cfg.packages.filter fun packages => !packages.isPlugin).flatMap fun packages =>
    packages.requests.map (packageId packages.manager)

/-! ### Packages -/

/-- `desired_package`. -/
def desiredPackage (request : PackageRequest) : String :=
  if request.absent then "absent"
  else
    match request.version with
    | some version => "installed (" ++ version ++ ")"
    | none => "installed (any version)"

/-- `package_resource_state`. -/
def packageResourceState (state : PackageState) (request : PackageRequest)
    (supportsVersionPins supportsRemove : Bool) : String × ResourceAction :=
  let unsupportedPin := request.version.isSome && !supportsVersionPins
  let removal : ResourceAction := if supportsRemove then .remove else .unknown
  if request.absent then
    match state with
    | .missing => ("absent", .noop)
    | .unavailable reason => ("skipped (" ++ reason ++ ")", .unknown)
    | .installed version | .needsRepair version | .versionMismatch version
    | .installedAutoUpdates version => ("installed (" ++ version ++ ")", removal)
  else
    match state with
    | .installed version | .installedAutoUpdates version =>
      ("installed (" ++ version ++ ")", .noop)
    | .missing =>
      if unsupportedPin then ("missing (manager cannot install pinned versions)", .unknown)
      else ("missing", .create)
    | .needsRepair installed => (installed ++ " (needs repair)", .update)
    | .versionMismatch installed =>
      if unsupportedPin then
        (installed ++ " (manager cannot install pinned versions)", .unknown)
      else (installed, .update)
    | .unavailable reason => ("skipped (" ++ reason ++ ")", .unknown)

/-- A package that nothing can be told of. -/
def unavailablePackage (manager : String) (request : PackageRequest) (reason : String) :
    ResourcePlan :=
  { id := packageId manager request
    current := "unavailable (" ++ reason ++ ")"
    desired := desiredPackage request
    action := .unknown }

/-- The resource of a package. -/
def ManagerPackages.resource (packages : ManagerPackages) (request : PackageRequest) :
    ResourcePlan :=
  let unavailable :=
    if packages.disabled then some "excluded by system_packages.managers"
    else packages.unavailableReason
  match unavailable with
  | some reason => unavailablePackage packages.manager request reason
  | none =>
    let (current, action) := packageResourceState (packages.state request) request
      packages.supportsVersionPins packages.supportsRemove
    { id := packageId packages.manager request, current, desired := desiredPackage request, action }

/-- The resource of a package whose plugin is missing. -/
def PendingPackages.resource (pending : PendingPackages) (request : PackageRequest) :
    ResourcePlan :=
  unavailablePackage pending.manager request
    (if pending.enabled then "package plugin is not installed"
    else "excluded by system_packages.managers")

/-! ### The checks of managed paths -/

/-- `ManagedFileRequest::declared_state`. -/
def ManagedFileRequest.declaredState (file : ManagedFileRequest) : ManagedState :=
  if file.renderedEmpty then .present else file.state

/-- `validate_present_ancestors`. -/
def Requests.validatePresentAncestors (cfg : Requests) (path : ManagedPath)
    (state : ManagedState) : Except String Unit :=
  if state ≠ .present then .ok ()
  else
    match path.above.find? fun parent => (cfg.directory parent).map (·.state) = some .absent with
    | some parent => .error ("managed path '" ++ path.text ++
        "' cannot be present while managed ancestor '" ++ parent.text ++ "' is absent")
    | none => .ok ()

/-- The phases of a path and a directory above it that cannot both be had. -/
def invalidPhases (state : ManagedState) (phase : ManagedFilePhase)
    (parent : ManagedDirectoryRequest) : Bool :=
  match state, parent.state with
  | .present, .present => phase = .prePackages && parent.phase = .postPackages
  | .absent, .absent => phase = .postPackages && parent.phase = .prePackages
  | _, _ => false

/-- The check of the phases of one path. -/
def Requests.validatePhase (cfg : Requests) (path : ManagedPath) (state : ManagedState)
    (phase : ManagedFilePhase) : Except String Unit :=
  let invalid := cfg.directories.find? fun dir =>
    path ≠ dir.path ∧ dir.path <+: path ∧ invalidPhases state phase dir
  match invalid with
  | some parent => .error ("managed path '" ++ path.text ++ "' (" ++ phase.asStr ++
      ") conflicts with ancestor '" ++ parent.path.text ++ "' (" ++ parent.phase.asStr ++
      "): parent directories must be created before children and removed after children; " ++
      "adjust their phase declarations")
  | none => .ok ()

/-- The check that a path is not declared twice. -/
def Requests.validateFile (cfg : Requests) (path : ManagedPath) (state : ManagedState) :
    Except String Unit :=
  if (cfg.directory path).isSome then
    .error ("managed system path '" ++ path.text ++
      "' is declared as both a file and a directory")
  else cfg.validatePresentAncestors path state

/-- `validate_requests`, after the checks of the files that cannot be rendered. -/
def Requests.validate (cfg : Requests) : Except String Unit := do
  cfg.unavailable.forM fun file => cfg.validateFile file.path file.state
  cfg.files.forM fun file => cfg.validateFile file.path file.declaredState
  cfg.directories.forM fun dir => cfg.validatePresentAncestors dir.path dir.state
  cfg.files.forM fun file => cfg.validatePhase file.path file.declaredState file.phase
  cfg.directories.forM fun dir => cfg.validatePhase dir.path dir.state dir.phase

/-! ### The plan -/

/-- One resource depends on several. -/
def BootstrapPlan.dependOnAll (p : BootstrapPlan) (resource : ResourceId)
    (dependencies : List ResourceId) : Except String BootstrapPlan :=
  dependencies.foldlM (fun p dependency => p.addDependency resource dependency) p

/-- Several resources are inserted. -/
def BootstrapPlan.insertAll (p : BootstrapPlan) (resources : List ResourcePlan) :
    Except String BootstrapPlan :=
  resources.foldlM (fun p resource => p.insert resource) p

/-- The ids of some kinds. -/
def BootstrapPlan.ofKinds (p : BootstrapPlan) (kinds : List String) : List ResourceId :=
  p.ids.filter fun id => id.kind ∈ kinds

namespace Requests

variable (cfg : Requests)

/-- The present groups of a user. -/
def groupsOf (user : UserRequest) : List String :=
  if user.state = .present then
    (user.group.toList ++ user.groups).filter fun group => cfg.groupState group = some .present
  else []

/-- The users that leave a group before it is removed. -/
def leavers (group : GroupRequest) : List UserRequest :=
  if group.state = .absent then
    cfg.users.filter fun user =>
      user.state = .absent ∨ user.currentPrimaryGroup = some group.name
  else []

/-- Groups and users. -/
def planAccounts (p : BootstrapPlan) : Except String BootstrapPlan := do
  let p ← p.insertAll (cfg.groups.map fun group => group.report.plan (groupId group.name))
  let p ← cfg.users.foldlM (fun p user => do
    let p ← p.insert (user.report.plan (userId user.name))
    p.dependOnAll (userId user.name) ((cfg.groupsOf user).map groupId)) p
  cfg.groups.foldlM (fun p group =>
    p.dependOnAll (groupId group.name) ((cfg.leavers group).map fun user => userId user.name)) p

/-- Packages. -/
def planPackages (p : BootstrapPlan) : Except String BootstrapPlan := do
  let p ← p.insertAll (cfg.packages.flatMap fun packages =>
    packages.requests.map packages.resource)
  p.insertAll (cfg.pending.flatMap fun pending => pending.requests.map pending.resource)

/-- What a managed path has to do with the nearest declared directory above it. -/
def planParent (p : BootstrapPlan) (id : ResourceId) (path : ManagedPath) (state : ManagedState) :
    Except String BootstrapPlan :=
  match cfg.parent path with
  | none => .ok p
  | some parent =>
    p.addManagedParentDependency id path.text state parent.path.text parent.state

/-- Directories. -/
def planDirectories (p : BootstrapPlan) : Except String BootstrapPlan := do
  let p ← cfg.directories.foldlM (fun p directory => do
    let p ← p.insert { directory.report.plan directory.id with phase := some directory.phase }
    p.addAccountDependencies directory.id directory.state directory.owner directory.group
      cfg.userState cfg.groupState) p
  cfg.directories.foldlM (fun p directory =>
    cfg.planParent p directory.id directory.path directory.state) p

/-- Files. -/
def planFiles (p : BootstrapPlan) : Except String BootstrapPlan := do
  let p ← cfg.files.foldlM (fun p file => do
    let p ← p.insert { file.report.plan file.id with phase := some file.phase }
    let p ← p.addAccountDependencies file.id file.state file.owner file.group
      cfg.userState cfg.groupState
    cfg.planParent p file.id file.path file.state) p
  p.insertAll (cfg.unavailable.map fun file =>
    { id := ⟨"file", file.path.text⟩
      current := "not inspected: required secret unavailable"
      desired := "template rendered"
      action := .unknown
      phase := some file.phase })

/-- Services come after all packages, files and directories. -/
def planServices (p : BootstrapPlan) : Except String BootstrapPlan :=
  let dependencies := p.ofKinds ["package", "file", "directory"]
  cfg.services.foldlM (fun p service => do
    let p ← p.insert (service.report.plan ⟨"service", service.name⟩)
    p.dependOnAll ⟨"service", service.name⟩ dependencies) p

/-- User services. -/
def planUserServices (p : BootstrapPlan) : Except String BootstrapPlan :=
  p.insertAll (cfg.userServices.map fun service =>
    service.report.plan ⟨"user-service", service.name⟩)

/-- The firewall: its rules come before its policy. -/
def planFirewall (p : BootstrapPlan) : Except String BootstrapPlan :=
  match cfg.firewall with
  | none => .ok p
  | some firewall => do
    let dependencies := p.ofKinds ["package", "file", "directory", "service"]
    let p ← p.insertAll (firewall.report.plan policyId ::
      firewall.rules.map fun rule => rule.report.plan (ruleId rule.name))
    let p ← (p.ofKinds ["firewall-rule"]).foldlM (fun p rule => do
      let p ← p.dependOnAll rule dependencies
      p.addDependency policyId rule) p
    p.dependOnAll policyId dependencies

/-- `plan_with_dependency_change`. -/
def composeResource (request : ComposeRequest) (dependencyChanged : Bool) : ResourcePlan :=
  let resource := request.report.plan ⟨"compose", request.name⟩
  if dependencyChanged && request.running then
    match resource.action with
    | .noop => { resource with action := .update }
    | .unknown =>
      { resource with
        current := resource.current ++ "; pending bootstrap dependency change"
        action := .create }
    | _ => resource
  else resource

/-- What a compose project depends on: the paths that are declared, the firewall, and what
it names. -/
def projectDependencies (p : BootstrapPlan) (request : ComposeRequest) : List ResourceId :=
  (request.pathDependencies.filter p.contains ++
    (if p.contains policyId then [policyId] else []) ++
    request.explicitDependencies).foldl BootstrapPlan.pushNew []

/-- Whether a dependency is about to change. -/
def dependencyChanged (p : BootstrapPlan) (dependencies : List ResourceId) : Bool :=
  dependencies.any fun dependency =>
    match p.get dependency with
    | some resource => resource.action ∈ [.create, .update, .remove]
    | none => false

/-- A compose project: what it names has to be there before. -/
def planProject (p : BootstrapPlan) (request : ComposeRequest) : Except String BootstrapPlan := do
  request.explicitDependencies.forM fun dependency =>
    if p.contains dependency then .ok ()
    else .error ("bootstrap compose project '" ++ request.name ++
      "' depends on missing resource '" ++ dependency.display ++ "'")
  let dependencies := projectDependencies p request
  let p ← p.insert (composeResource request (dependencyChanged p dependencies))
  p.dependOnAll ⟨"compose", request.name⟩ dependencies

/-- `plan` up to its last check. -/
def build : Except String BootstrapPlan := do
  let p ← cfg.planAccounts .empty
  let p ← cfg.planPackages p
  cfg.validate
  let p ← cfg.planDirectories p
  let p ← cfg.planFiles p
  let p ← p.addFilePhaseOrdering cfg.builtinPackages
  let p ← cfg.planServices p
  let p ← cfg.planUserServices p
  let p ← cfg.planFirewall p
  cfg.compose.foldlM planProject p

/-- `plan`. -/
def plan : Except String BootstrapPlan := do
  let p ← cfg.build
  let _ ← p.output
  .ok p

end Requests

end Mise.Bootstrap
