/-
# Operations on a lockfile

The functions that change the entries of a lockfile while a command runs:
`bind_request`, `set_platform_info`, `switch_backend`, the `retain_*` functions,
the step of `update_lockfiles` for one tool, and the migration of another
lockfile.  `LockfileOp.run` is one of them, so that a run of a command is a
sequence of operations.

`state_short` and `Platform::parse` are parameters as before.  What
`build_rekey_decisions`, `check_provenance_regression` and
`selected_python_dependency` find for a tool is part of the operation.
-/

import Mise.Lockfile.Migrate
import Mise.Lockfile.MergeTools

namespace Mise

open Lib
open Std (ExtTreeMap ExtTreeSet)

/-! ### Records of a platform -/

/-- What `==` compares of a provenance: its ordinal, so that the URL of an `slsa` is
left out. -/
def ProvenanceType.compared : ProvenanceType → ProvenanceType
  | .slsa _ => .slsa none
  | provenance => provenance

/-- What `==` compares of an artifact. -/
def ArtifactInfo.compared (artifact : ArtifactInfo) : ArtifactInfo :=
  { artifact with provenance := artifact.provenance.map ProvenanceType.compared }

namespace PlatformInfo

/-- What `==` compares of a record. -/
def compared (info : PlatformInfo) : PlatformInfo :=
  { info with
    provenance := info.provenance.map ProvenanceType.compared
    additionalArtifacts := info.additionalArtifacts.map ArtifactInfo.compared }

/-- What `set_platform_info` records over what is there: new values are preferred,
and what describes another artifact is dropped. -/
def recordOver (info existing : PlatformInfo) : PlatformInfo :=
  let urlChanged := info.url.isSome && existing.url.isSome && info.url ≠ existing.url
  let installChanged := info.install.isSome && info.install ≠ existing.install
  let sourceToUrl := info.url.isSome && info.install.isNone && existing.install = some "source"
  let preserve := !urlChanged && !installChanged && !sourceToUrl
  let sameBytes := !checksumChanged existing.checksum info.checksum
  let provenance :=
    if preserve && sameBytes then
      mergeProvenanceState info.provenance info.provenanceVerified existing.provenance
        existing.provenanceVerified
    else (info.provenance, info.provenanceVerified)
  { downloadHeaders := none
    install := info.install.or (if info.url.isSome then none else existing.install)
    checksumSource :=
      if info.checksum.isSome then
        ((sameChecksumSource info.checksum info.checksumSource existing.checksum
          existing.checksumSource).filter fun _ => preserve).getD info.checksumSource
      else if preserve then existing.checksumSource
      else none
    checksum := info.checksum.or (if preserve then existing.checksum else none)
    size := info.size.or (if preserve then existing.size else none)
    url := info.url.or (if preserve then existing.url else none)
    urlApi := info.urlApi.or (if preserve then existing.urlApi else none)
    condaDeps := info.condaDeps
    provenance := provenance.1
    provenanceVerified := provenance.2
    githubAttestations := none
    attestedBy := if info.signer.isSome then info.attestedBy else existing.attestedBy
    repositoryId := if info.signer.isSome then info.repositoryId else existing.repositoryId
    repositoryOwnerId :=
      if info.signer.isSome then info.repositoryOwnerId else existing.repositoryOwnerId
    signer := info.signer.or existing.signer
    additionalArtifacts :=
      if preserve then mergeAdditionalArtifacts info.additionalArtifacts existing.additionalArtifacts
      else info.additionalArtifacts }

/-- What of a record is written: all but sizes and download headers. -/
def persisted (info : PlatformInfo) : PlatformInfo :=
  { info with
    size := none
    downloadHeaders := none
    additionalArtifacts := info.additionalArtifacts.map fun artifact => { artifact with size := none } }

/-- `same_persisted_data`. -/
def samePersistedData (self other : PlatformInfo) : Bool :=
  self.persisted.compared = other.persisted.compared

end PlatformInfo

/-! ### Entries of a tool -/

/-- `switch_backend` on one entry, with what it reports of an entry it moved. -/
def LockfileTool.switchBackend (fromBackend : String) (versions : BTreeSet String)
    (backendFor : String → Option String) (entry : LockfileTool) :
    LockfileTool × Option (String × String × Bool) :=
  if entry.backend = some fromBackend && versions.contains entry.version then
    match backendFor entry.version with
    | some backend =>
      ({ entry with backend := some backend, platforms := ∅, aube := none, uv := none },
        some (entry.version, backend, entry.platforms.values.any fun p => !p.isEmpty))
    | none => (entry, none)
  else (entry, none)

/-- Take the specifier from an entry with the options. -/
def LockfileTool.unbind (specifier : String) (options : LockOptions) (tool : LockfileTool) :
    LockfileTool :=
  if tool.options = options then { tool with specifiers := tool.specifiers.erase specifier }
  else tool

/-- Give the specifier to an entry. -/
def LockfileTool.bind (specifier : String) (tool : LockfileTool) : LockfileTool :=
  { tool with specifiers := tool.specifiers.insert specifier }

/-- `bind_request` on the entries of a tool. -/
def bindTools (specifier version : String) (options : LockOptions) (tools : List LockfileTool) :
    Option (List LockfileTool) :=
  (tools.findIdx? (·.isFor version options)).map fun target =>
    (tools.map (·.unbind specifier options)).modify target (·.bind specifier)

/-- `set_platform_info` on the entries of a tool. -/
def setPlatformInTools (version : String) (backend : Option String) (options : LockOptions)
    (platformKey : String) (info : PlatformInfo) (tools : List LockfileTool) :
    List LockfileTool :=
  match tools.findIdx? (·.isFor version options) with
  | some idx => tools.modify idx fun tool =>
    let merged := tool.platforms[platformKey]?.elim info info.recordOver
    if merged.isEmpty then tool
    else { tool with platforms := tool.platforms.insert platformKey merged }
  | none => tools ++
    [{ version := version
       backend := backend
       options := options
       platforms := if info.isEmpty then ∅
         else (∅ : BTreeMap String PlatformInfo).insert platformKey info }]

/-- The closure `superseded` of `retain_unsuperseded_unbound_entries`. -/
def superseded (all : List LockfileTool) (entry : LockfileTool) : Bool :=
  entry.specifiers.isEmpty && entry.uv.isNone && entry.aube.isNone && all.any fun bound =>
    !bound.specifiers.isEmpty && bound.version = entry.version && bound.backend = entry.backend &&
      entry.platforms.toList.all fun record =>
        bound.platforms[record.1]?.elim false (·.samePersistedData record.2)

/-- `preserve_absent_tool_entries`: the entries after a turn of its loop. -/
def preserveAbsent (consumed : List LockfileToolKey) (merged : List LockfileTool)
    (existing : LockfileTool) : List LockfileTool :=
  if merged.any (·.key = existing.key) || consumed.contains existing.key then merged
  else merged ++ [existing]

/-- `preserve_absent_tool_entries`. -/
def preserveAbsentToolEntries (merged existing : List LockfileTool)
    (consumed : List LockfileToolKey) : List LockfileTool :=
  sortTools (existing.foldl (preserveAbsent consumed) merged)

/-- A selected Python: its selector and the options an entry for it carries. -/
abbrev SelectedPython := String × LockOptions

/-- The closure `binds` of `preserve_selected_python_entries`. -/
def LockfileTool.binds (tool : LockfileTool) (request : SelectedPython) : Bool :=
  tool.options = request.2 && tool.specifiers.contains request.1

/-- `preserve_selected_python_entries`: the entries after a turn of its loop. -/
def preserveSelected (unlocked : List SelectedPython) (merged : List LockfileTool)
    (existing : LockfileTool) : List LockfileTool :=
  let bound := unlocked.filter existing.binds
  if !bound.isEmpty && !merged.any (·.key = existing.key) then
    merged ++ [{ existing with
      specifiers := existing.specifiers.filter fun specifier =>
        bound.any fun request => request.1 = specifier }]
  else merged

/-- `preserve_selected_python_entries`. -/
def preserveSelectedPythonEntries (merged existing : List LockfileTool)
    (selected : List SelectedPython) : List LockfileTool :=
  existing.foldl
    (preserveSelected (selected.filter fun request => !merged.any (·.binds request))) merged

/-- `reinsert_deferred_baselines`: the entries after a turn of its loop. -/
def reinsertBaseline (merged : List LockfileTool) (baseline : LockfileTool) : List LockfileTool :=
  if merged.any (·.isFor baseline.version baseline.options) then merged else merged ++ [baseline]

/-- `reinsert_deferred_baselines`, for the baselines of one tool. -/
def reinsertDeferredBaselines (merged baselines : List LockfileTool) : List LockfileTool :=
  baselines.foldl reinsertBaseline merged

/-! ### Operations -/

/-- The step of `update_lockfiles` for one tool: the entries it resolved, and what
was found out about the tool before. -/
structure ToolUpdate (π : Type) where
  short : String
  entries : List LockfileTool
  isMonorepoRoot : Bool := false
  /-- `rekey_decisions`, for a lockfile that is not a monorepo's. -/
  rekey : String → π → Option LockOptions := fun _ _ => none
  /-- The Python requests of the tool, if a pipx tool selects one. -/
  selected : List SelectedPython := []
  /-- The existing entries that are kept as baselines, by position. -/
  baselines : List ℕ := []

namespace ToolUpdate

variable {π : Type} (u : ToolUpdate π)

/-- `resolve`: a monorepo's lockfile is not rekeyed. -/
def resolve (version : String) (platform : π) : Option LockOptions :=
  if u.isMonorepoRoot then none else u.rekey version platform

/-- The requests to bind, with the version and the options of their entry. -/
def bindings : List (String × String × LockOptions) :=
  u.entries.flatMap fun entry =>
    entry.specifiers.toList.map fun specifier => (specifier, entry.version, entry.options)

/-- The deferred baselines among the existing entries. -/
def baselineEntries (existing : List LockfileTool) : List LockfileTool :=
  u.baselines.filterMap fun i => existing[i]?

/-- The entries after the merge; a monorepo's lockfile keeps those of versions that
were not resolved now. -/
def withAbsent (parse : String → Option π) (existing : List LockfileTool) : List LockfileTool :=
  let merged := mergeToolEntries parse u.resolve u.entries existing
  if u.isMonorepoRoot then preserveAbsentToolEntries merged.1 existing merged.2 else merged.1

/-- The entries of the tool before requests are bound. -/
def mergedTools (parse : String → Option π) (existing : List LockfileTool) : List LockfileTool :=
  reinsertDeferredBaselines
    (preserveSelectedPythonEntries (u.withAbsent parse existing) existing u.selected)
    (u.baselineEntries existing)

end ToolUpdate

namespace Lockfile

variable (stateShort : String → String)

/-- Change the entries of a tool that has some. -/
def modifyTools (l : Lockfile) (short : String) (f : List LockfileTool → List LockfileTool) :
    Lockfile :=
  match l.toolKey stateShort short with
  | none => l
  | some key => { l with tools := l.tools.insert key (f (l.entries key)) }

/-- `switch_backend`. -/
def switchBackend (l : Lockfile) (short fromBackend : String) (versions : BTreeSet String)
    (backendFor : String → Option String) : List (String × String × Bool) × Lockfile :=
  let switch := LockfileTool.switchBackend fromBackend versions backendFor
  ((l.toolKey stateShort short).elim [] fun key => (l.entries key).filterMap (switch · |>.2),
    l.modifyTools stateShort short fun tools => tools.map (switch · |>.1))

/-- `bind_request`. -/
def bindRequest (l : Lockfile) (short specifier version : String) (options : LockOptions) :
    Bool × Lockfile :=
  if !l.usesRequestBindings then (false, l)
  else match l.toolKey stateShort short with
    | none => (false, l)
    | some key => match bindTools specifier version options (l.entries key) with
      | none => (false, l)
      | some tools => (true, { l with tools := l.tools.insert key tools })

/-- `set_platform_info`. -/
def setPlatformInfo (l : Lockfile) (short version : String) (backend : Option String)
    (options : LockOptions) (platformKey : String) (info : PlatformInfo) : Lockfile :=
  let key := (l.toolKey stateShort short).getD (stateShort short)
  { l with
    tools := l.tools.insert key
      (setPlatformInTools version backend options platformKey info (l.entries key)) }

/-- A tool's record of the platform refers to the package. -/
def references (l : Lockfile) (platform basename : String) : Bool :=
  l.tools.values.any fun tools => tools.any fun tool =>
    (tool.platforms[platform]?.bind (·.condaDeps)).elim false (·.contains basename)

/-- `cleanup_unreferenced_conda_packages`. -/
def cleanupUnreferencedCondaPackages (l : Lockfile) : Lockfile :=
  { l with
    condaPackages := (l.condaPackages.map fun platform packages =>
      packages.filter fun basename _ => l.references platform basename).filter
        fun _ packages => !packages.isEmpty }

/-- `retain_graph_entries`. -/
def retainGraphEntries (l : Lockfile) (keep : String → LockfileTool → Bool) : Lockfile :=
  { l with
    tools := l.tools.map fun short entries =>
      entries.filter fun entry => (entry.uv.isNone && entry.aube.isNone) || keep short entry }

/-- `retain_unsuperseded_unbound_entries`. -/
def retainUnsupersededUnboundEntries (l : Lockfile) (inScope : String → LockfileTool → Bool) :
    Lockfile :=
  { l with
    tools := l.tools.map fun short entries =>
      entries.filter fun entry => !(inScope short entry && superseded entries entry) }

/-- `should_keep_tool`. -/
def shouldKeepTool (short : String) (versions : List LockfileTool)
    (keepShorts keepBackends : BTreeSet String) : Bool :=
  if startsWith short "pypi:" || startsWith short "pipx:" then keepShorts.contains short
  else keepShorts.contains short ||
    (versions.filterMap (·.backend)).any fun backend => keepBackends.contains backend

/-- `stored_form`. -/
def storedForm (selectors : BTreeSet String) : BTreeSet String :=
  selectors.foldl (fun acc s => acc.insert (stateShort s)) ∅

/-- `retain_tools_by_short_or_backend`. -/
def retainToolsByShortOrBackend (l : Lockfile) (keepShorts keepBackends : BTreeSet String) :
    Lockfile :=
  cleanupUnreferencedCondaPackages { l with
    tools := l.tools.filter fun short versions =>
      shouldKeepTool short versions (storedForm stateShort keepShorts)
        (storedForm stateShort keepBackends) }

/-- `retain_tool_versions`. -/
def retainToolVersions (l : Lockfile) (short : String) (keepVersions : BTreeSet String) :
    Lockfile :=
  cleanupUnreferencedCondaPackages <|
    match l.toolKey stateShort short with
    | none => l
    | some key =>
      let kept := (l.entries key).filter fun tool => keepVersions.contains tool.version
      { l with tools := if kept.isEmpty then l.tools.erase key else l.tools.insert key kept }

/-- The step of `update_lockfiles` for one tool. -/
def updateTool {π : Type} (parse : String → Option π) (l : Lockfile) (u : ToolUpdate π) :
    Lockfile :=
  let existing := (l.toolKey stateShort u.short).elim [] l.entries
  let updated := { l with
    tools := l.tools.insert (stateShort u.short) (u.mergedTools parse existing) }
  if updated.usesRequestBindings then
    u.bindings.foldl (fun l b => (l.bindRequest stateShort u.short b.1 b.2.1 b.2.2).2) updated
  else updated

end Lockfile

/-- An operation on a lockfile. -/
inductive LockfileOp (π : Type)
  | bindRequest (short specifier version : String) (options : LockOptions)
  | setPlatformInfo (short version : String) (backend : Option String) (options : LockOptions)
      (platformKey : String) (info : PlatformInfo)
  | switchBackend (short fromBackend : String) (versions : BTreeSet String)
      (backendFor : String → Option String)
  | retainGraphEntries (keep : String → LockfileTool → Bool)
  | retainUnsupersededUnboundEntries (inScope : String → LockfileTool → Bool)
  | retainToolsByShortOrBackend (keepShorts keepBackends : BTreeSet String)
  | retainToolVersions (short : String) (keepVersions : BTreeSet String)
  | updateTool (update : ToolUpdate π)
  | mergePreservingRoot (other : Lockfile)

/-- The lockfile after an operation. -/
def LockfileOp.run {π : Type} (stateShort : String → String) (parse : String → Option π)
    (l : Lockfile) : LockfileOp π → Lockfile
  | bindRequest short specifier version options =>
    (l.bindRequest stateShort short specifier version options).2
  | setPlatformInfo short version backend options platformKey info =>
    l.setPlatformInfo stateShort short version backend options platformKey info
  | switchBackend short fromBackend versions backendFor =>
    (l.switchBackend stateShort short fromBackend versions backendFor).2
  | retainGraphEntries keep => l.retainGraphEntries keep
  | retainUnsupersededUnboundEntries inScope => l.retainUnsupersededUnboundEntries inScope
  | retainToolsByShortOrBackend keepShorts keepBackends =>
    l.retainToolsByShortOrBackend stateShort keepShorts keepBackends
  | retainToolVersions short keepVersions => l.retainToolVersions stateShort short keepVersions
  | updateTool update => l.updateTool stateShort parse update
  | mergePreservingRoot other => l.mergePreservingRoot stateShort other

end Mise
