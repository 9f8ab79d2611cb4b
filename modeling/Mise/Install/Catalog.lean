/-
# The installation catalog

`src/install_layout/catalog.rs`: the files under `<installs>/.mise/` and the
calls that read and write them.  Each call is a program whose atomic actions
are the reads and writes of single files, in the order of the source; a file is
written by a rename, so a write is one action.  A call that fails to write ends
there, as a process does that is killed, so neither has a result.

A record is kept as the value its file holds, and a directory of the store as
what a call can see of it: that it is there, whether it can be listed as a
directory, and what its receipt says.
-/

import Mise.Install.Record
import Mise.Lib.LockedProcs

namespace Mise.Install

open Lib

/-! ### Files -/

/-- An entry of the store. -/
structure StoreEntry where
  /-- A directory, or a link to one. -/
  isDir : Bool
  /-- What `.mise-install.toml` in it holds, where that can be read. -/
  receipt : Option Receipt

/-- The files of one catalog, and its store. -/
structure Files where
  /-- `names/<dir>`. -/
  names : String → Option String
  /-- `identities/<bucket>/<digest>.toml`. -/
  records : String × String → Option IdentityRecord
  /-- `selections/<digest>.toml`. -/
  selections : String → Option Selection
  store : BTreeMap String StoreEntry

/-- The programs on a catalog. -/
abbrev CatalogM := Prog Files

/-- `BUCKET_CHARS`. -/
def bucketChars : ℕ := 13

variable (sys : Externals)

/-- `bucket`. -/
def bucket (backend : String) : String :=
  String.ofList ((sys.blake3 (utf8 backend.toList)).toBase32.toList.take bucketChars)

/-- `Catalog::record_path`, below `identities`. -/
def recordPath (identity : InstallIdentity) (digest : String) : String × String :=
  (bucket sys identity.backend.val, digest)

/-! ### Reads and writes -/

/-- Reads `names/<dir>`. -/
def readName (dir : String) : CatalogM (Option String) := .read (·.names dir)

/-- `Catalog::reserve`. -/
def reserve (dir digest : String) : CatalogM Unit :=
  .modify fun s => { s with names := Function.update s.names dir (some digest) }

/-- `read_record`. -/
def readRecord (path : String × String) : CatalogM (Option IdentityRecord) := do
  let record ← .read (·.records path)
  return record.filter (·.isConsistent sys)

/-- `write_record`. -/
def writeRecord (path : String × String) (record : IdentityRecord) : CatalogM Unit :=
  .modify fun s => { s with records := Function.update s.records path (some record) }

/-- The receipt of a store's entry that `read_receipt` trusts. -/
def trustedReceipt (store : BTreeMap String StoreEntry) (dir : String) : Option Receipt :=
  (store[dir]?.bind (·.receipt)).filter fun receipt =>
    receipt.record.isConsistent sys && isPlainDirName dir && receipt.record.dir == dir

/-- `read_receipt`. -/
def readReceipt (dir : String) : CatalogM (Option Receipt) := .read (trustedReceipt sys ·.store dir)

/-- `file::dir_subdirs` of the store. -/
def dirSubdirs : CatalogM (List String) :=
  .read fun s => (s.store.toList.filter (·.2.isDir)).map Prod.fst

/-! ### Allocation -/

/-- `Catalog::lookup`. -/
def lookup (identity : InstallIdentity) : CatalogM (Option IdentityRecord) := do
  let digest := identity.digestText sys
  let record ← readRecord sys (recordPath sys identity digest)
  return record.filter (·.digest == digest)

/-- `Catalog::reservation_holds`. -/
def reservationHolds (record : IdentityRecord) : CatalogM Bool := do
  let owner ← readName record.dir
  return owner.any (trim · == record.digest)

/-- `Catalog::name_available_for`. -/
def nameAvailableFor (dir digest : String) : CatalogM Bool := do
  match ← readName dir with
  | some owner => return trim owner == digest
  | none =>
    if ← Prog.read (·.store[dir]?.isSome) then
      let receipt ← readReceipt sys dir
      return receipt.any (·.record.digest == digest)
    else
      return true

/-- The lengths that the loop of `allocate_locked` tries. -/
def suffixLengths : List ℕ :=
  (List.range ((digestChars - shortChars) / 2 + 1)).map (shortChars + 2 * ·)

/-- The loop of `allocate_locked`. -/
def allocateName (identity : InstallIdentity) : List ℕ → CatalogM (Except String IdentityRecord)
  | [] => return .error ("could not allocate an install directory for " ++ identity.backend.val)
  | len :: lens => do
    let digest := identity.digestText sys
    let dir := dirName sys identity.backend.val digest len
    if ← nameAvailableFor sys dir digest then
      reserve dir digest
      let record := IdentityRecord.new sys identity dir
      writeRecord (recordPath sys identity digest) record
      return .ok record
    else
      allocateName identity lens

/-- `Catalog::allocate_locked`. -/
def allocateLocked (identity : InstallIdentity) : CatalogM (Except String IdentityRecord) := do
  match ← lookup sys identity with
  | some record =>
    if ← reservationHolds record then
      return .ok record
    else if ← nameAvailableFor sys record.dir (identity.digestText sys) then
      -- The record survived without its reservation.
      reserve record.dir (identity.digestText sys)
      return .ok record
    else
      allocateName sys identity suffixLengths
  | none => allocateName sys identity suffixLengths

/-- `Catalog::allocate` from where it takes the lock. -/
def allocateWaiting (identity : InstallIdentity) : CatalogM (Except String IdentityRecord) := do
  Prog.acquire
  allocateLocked sys identity

/-- `Catalog::allocate`. -/
def allocate (identity : InstallIdentity) : CatalogM (Except String IdentityRecord) := do
  match ← lookup sys identity with
  | some record =>
    if ← reservationHolds record then
      return .ok record
    else
      allocateWaiting sys identity
  | none => allocateWaiting sys identity

/-! ### The other calls -/

/-- How `update_provenance` merges what it is given into a record's. -/
def Provenance.merge (merged provenance : Provenance) : Provenance where
  artifacts := provenance.artifacts.foldl (fun m k v => m.insert k v) merged.artifacts
  pinnedBy := provenance.pinnedBy.foldl (fun pins pin => if pin ∈ pins then pins else pins ++ [pin])
    merged.pinnedBy
  generation := max merged.generation provenance.generation

/-- `Catalog::update_provenance`. -/
def updateProvenance (identity : InstallIdentity) (provenance : Provenance) : CatalogM Unit := do
  Prog.acquire
  match ← lookup sys identity with
  | none => return ()
  | some record =>
    writeRecord (recordPath sys identity record.digest)
      { record with provenance := record.provenance.merge provenance }

/-- Whether the catalog has the directory's record, and its reservation holds. -/
def isSettled (onDisk : Option IdentityRecord) (record : IdentityRecord) (dir : String) :
    CatalogM Bool :=
  if onDisk.any (·.dir == dir) then reservationHolds record else return false

/-- The turn of `rebuild_from_receipts` for one directory of the store. -/
def adopt (restored : List IdentityRecord) (dir : String) : CatalogM (List IdentityRecord) := do
  if startsWith dir "." then
    return restored
  else
    match ← readReceipt sys dir with
    | none => return restored
    | some receipt =>
      let record := receipt.record
      if record.dir != dir || !record.isConsistent sys then
        return restored
      else
        let onDisk ← lookup sys record.identity
        if (← isSettled onDisk record dir) || onDisk.any (·.dir != dir) then
          return restored
        else if ← nameAvailableFor sys dir record.digest then
          reserve dir record.digest
          writeRecord (recordPath sys record.identity record.digest) record
          return restored ++ [record]
        else
          return restored

/-- `Catalog::rebuild_from_receipts`. -/
def rebuildFromReceipts : CatalogM (List IdentityRecord) := do
  Prog.acquire
  let dirs ← dirSubdirs
  dirs.foldlM (adopt sys) []

/-- `Catalog::write_selection`. -/
def writeSelection (key : InstallIdentity) (selected : IdentityRecord) (root : Option String) :
    CatalogM Unit :=
  .modify fun s => { s with
    selections := Function.update s.selections (key.digestText sys)
      (some ⟨key, selected.digest, root⟩) }

/-- `Catalog::selection`. -/
def selection (key : InstallIdentity) : CatalogM (Option Selection) := do
  let selection ← .read (·.selections (key.digestText sys))
  return selection.filter fun s => s.request.digest sys.blake3 == key.digest sys.blake3

/-- `Catalog::select`. -/
def select (key : InstallIdentity) (selected : IdentityRecord) (root : Option String) :
    CatalogM Unit := do
  Prog.acquire
  writeSelection sys key selected root

/-- `Catalog::select_if_unset`. -/
def selectIfUnset (key : InstallIdentity) (selected : IdentityRecord) (root : Option String) :
    CatalogM Bool := do
  Prog.acquire
  if (← selection sys key).isSome then
    return false
  else
    writeSelection sys key selected root
    return true

/-! ### Calls -/

/-- The calls that processes make. -/
inductive Call where
  | allocate (identity : InstallIdentity)
  | rebuildFromReceipts
  | updateProvenance (identity : InstallIdentity) (provenance : Provenance)
  | select (key : InstallIdentity) (selected : IdentityRecord) (root : Option String)
  | selectIfUnset (key : InstallIdentity) (selected : IdentityRecord) (root : Option String)

/-- What a call returns. -/
inductive Outcome where
  | allocated (record : Except String IdentityRecord)
  | restored (records : List IdentityRecord)
  | done
  | wrote (yes : Bool)

/-- The program of a call. -/
def Call.run : Call → CatalogM Outcome
  | allocate identity => do return .allocated (← Install.allocate sys identity)
  | rebuildFromReceipts => do return .restored (← Install.rebuildFromReceipts sys)
  | updateProvenance identity provenance => do
    Install.updateProvenance sys identity provenance
    return .done
  | select key selected root => do
    Install.select sys key selected root
    return .done
  | selectIfUnset key selected root => do
    return .wrote (← Install.selectIfUnset sys key selected root)

end Mise.Install
