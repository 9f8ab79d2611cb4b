/-
# Updating the entries of a tool

`merge_tool_entries` merges the entries a run resolved (the fresh ones) with
those of the lockfile.  Entries are told apart by version and options.  An
existing entry with options is merged into its fresh counterpart, or kept
without the platforms that were refreshed; one without options comes from
before options were recorded, and each of its platforms moves to the options
`resolve` gives for it.

The fresh entries are gathered in a hash map; its order is not seen, since the
values are sorted by their distinct keys at the end.  `Platform::parse` and
`resolve` are parameters.
-/

import Mise.Lib.IndexMap
import Mise.Lockfile.PlatformInfo

namespace Mise

open Lib
open Std (ExtTreeMap ExtTreeSet)

/-! ### The order of the entries -/

/-- The order of options: that of their entries. -/
def optionsRank (options : LockOptions) : List (String ×ₗ String) := options.toList.map toLex

/-- The order of entries: by version, then by options. -/
def keyRank (key : LockfileToolKey) : String ×ₗ List (String ×ₗ String) :=
  toLex (key.1, optionsRank key.2)

/-- Entries in the order of their keys. -/
def sortTools (tools : List LockfileTool) : List LockfileTool :=
  tools.insertionSort fun a b => keyRank a.key ≤ keyRank b.key

/-! ### The fresh entries -/

/-- Fill in what a merged entry lacks (`aube`, `uv` and `provenance`). -/
def LockfileTool.fillFrom (entry tool : LockfileTool) : LockfileTool :=
  { entry with
    aube := entry.aube.or tool.aube
    uv := entry.uv.or tool.uv
    provenance := entry.provenance.or tool.provenance }

/-- Add records to those of an entry: `merge old new` where both have one. -/
def mergePlatforms (merge : PlatformInfo → PlatformInfo → PlatformInfo)
    (platforms records : BTreeMap String PlatformInfo) : BTreeMap String PlatformInfo :=
  records.foldl (fun acc platform info =>
    acc.alter platform fun old => some (old.elim info fun old => merge old info)) platforms

/-- The first loop: one fresh entry. -/
def addFresh (byKey : IndexMap LockfileToolKey LockfileTool) (tool : LockfileTool) :
    IndexMap LockfileToolKey LockfileTool :=
  let entry := ((byKey.get tool.key).getD tool).fillFrom tool
  byKey.insert tool.key { entry with
    specifiers := entry.specifiers ∪ tool.specifiers
    platforms := mergePlatforms (fun old info => info.mergeWith old) entry.platforms
      tool.platforms }

/-- The fresh entries, by key. -/
def freshByKey (entries : List LockfileTool) : IndexMap LockfileToolKey LockfileTool :=
  entries.foldl addFresh .empty

/-- `fresh_versions` holds the version. -/
def freshVersion (fresh : IndexMap LockfileToolKey LockfileTool) (version : String) : Bool :=
  fresh.keys.any fun key => key.1 = version

/-- `fresh_platforms` holds the platform of the version. -/
def freshPlatform (fresh : IndexMap LockfileToolKey LockfileTool) (version platform : String) :
    Bool :=
  fresh.entries.any fun e => e.1.1 = version && e.2.platforms.contains platform

/-! ### The existing entries -/

/-- A pin of the built repository follows the release into its other entries. -/
def spreadProvenance (byKey : IndexMap LockfileToolKey LockfileTool) (existing : LockfileTool) :
    IndexMap LockfileToolKey LockfileTool :=
  match existing.provenance with
  | none => byKey
  | some provenance => byKey.mapWithKey fun key entry =>
    if key.1 = existing.version ∧ entry.backend = existing.backend ∧ entry.provenance.isNone then
      { entry with provenance := some provenance }
    else entry

/-- What an entry of the same key takes over, its platforms aside. -/
def takeSpecifiers (byKey : IndexMap LockfileToolKey LockfileTool) (existing : LockfileTool) :
    IndexMap LockfileToolKey LockfileTool :=
  match byKey.get existing.key with
  | none => byKey
  | some entry => byKey.insert existing.key
      { entry.fillFrom existing with specifiers := entry.specifiers ∪ existing.specifiers }

/-- An existing entry with options. -/
def mergeVariant (fresh byKey : IndexMap LockfileToolKey LockfileTool) (existing : LockfileTool) :
    IndexMap LockfileToolKey LockfileTool :=
  match byKey.get existing.key with
  | some entry => byKey.insert existing.key
      { entry with
        platforms := mergePlatforms PlatformInfo.mergeWith entry.platforms existing.platforms
        specifiers := entry.specifiers ∪ existing.specifiers }
  | none =>
    if freshVersion fresh existing.version then
      -- keep the platforms that no fresh entry of this version refreshed
      let kept := existing.platforms.filter fun platform _ =>
        !freshPlatform fresh existing.version platform
      if kept.isEmpty then byKey
      else byKey.insert existing.key { existing with platforms := kept }
    else byKey

/-- The entry without platforms that a legacy entry leaves at a key. -/
def LockfileTool.legacyAt (existing : LockfileTool) (options : LockOptions) : LockfileTool :=
  { existing with options := options, platforms := ∅ }

section Resolve

variable {π : Type} (parse : String → Option π) (resolve : String → π → Option LockOptions)

/-- The options of a platform of a legacy entry. -/
def resolvedOptions (version platform : String) : Option LockOptions :=
  (parse platform).bind (resolve version)

/-- One platform of an existing entry without options. -/
def rekeyPlatform (existing : LockfileTool) (byKey : IndexMap LockfileToolKey LockfileTool)
    (platform : String) (info : PlatformInfo) : IndexMap LockfileToolKey LockfileTool :=
  match resolvedOptions parse resolve existing.version platform with
  | none =>
    let entry := (byKey.get existing.key).getD (existing.legacyAt existing.options)
    byKey.insert existing.key
      { entry with platforms := entry.platforms.insert platform info }
  | some options =>
    let key := (existing.version, options)
    let target := (byKey.get key).getD (existing.legacyAt options)
    byKey.insert key
      { target with
        provenance := target.provenance.or existing.provenance
        specifiers := target.specifiers ∪ existing.specifiers
        platforms := target.platforms.alter platform fun old =>
          some (old.elim info fun fresh => fresh.mergeWith info) }

/-- The second loop: one existing entry, with the keys that were consumed. -/
def addExisting (fresh : IndexMap LockfileToolKey LockfileTool)
    (state : IndexMap LockfileToolKey LockfileTool × List LockfileToolKey)
    (existing : LockfileTool) : IndexMap LockfileToolKey LockfileTool × List LockfileToolKey :=
  let byKey := takeSpecifiers (spreadProvenance state.1 existing) existing
  if !existing.options.isEmpty then (mergeVariant fresh byKey existing, state.2)
  else if !freshVersion fresh existing.version then (byKey, state.2)
  else
    let byKey := existing.platforms.foldl (rekeyPlatform parse resolve existing) byKey
    (byKey, if byKey.containsKey existing.key then state.2 else existing.key :: state.2)

/-- The map and the consumed keys after both loops. -/
def mergeLoops (entries existing : List LockfileTool) :
    IndexMap LockfileToolKey LockfileTool × List LockfileToolKey :=
  existing.foldl (addExisting parse resolve (freshByKey entries)) (freshByKey entries, [])

/-- `merge_tool_entries`; a tool the lockfile does not have has no existing entries. -/
def mergeToolEntries (entries existing : List LockfileTool) :
    List LockfileTool × List LockfileToolKey :=
  let merged := mergeLoops parse resolve entries existing
  (sortTools (merged.1.entries.map (·.2)), merged.2)

end Resolve

end Mise
