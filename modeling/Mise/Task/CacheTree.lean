/-
# Task outputs as trees of blobs

`task/task_cache_store.rs`: `archive_to_cas` cuts an archive of a task's outputs
into directory objects and files, each named by its digest, and
`materialize_remote_tree` makes an archive of such a tree again, from what a
server returns for the digests.  `CacheDigest` and the directory objects are
those of `mise-cache-core`, and so are the checks `get_blob` makes on a reply.

An archive is the list of its entries, with the header's mode and link name.
The hash functions, the JSON of a directory object and the server's replies are
parameters.  A path is used by its components; the text of a link's target is
kept, as it is copied.  Files are their contents.  Names and targets that are not
valid UTF-8 are outside the model.
-/

import Mathlib.Data.Finset.Insert
import Mise.Dir
import Mise.Lib.BTreeMap
import Mise.Lib.Fallible
import Mise.Lib.Worklist

namespace Mise

namespace Component

/-- Where a component sorts, by kind and then by its text. -/
def rank : Component → List ℕ
  | .rootDir => [0]
  | .curDir => [1]
  | .parentDir => [2]
  | .normal name => 3 :: name.map Char.toNat

theorem rank_injective : Function.Injective rank := by
  intro a b h
  cases a <;> cases b
  case normal.normal name name' =>
    have hnames := List.map_injective_iff.2 (fun c d hcd => Char.toNat_inj.1 hcd)
      (List.cons.inj h).2
    rw [hnames]
  all_goals simp [rank] at h ⊢

instance : Ord Component := ⟨fun a b => compare a.rank b.rank⟩

instance : Std.TransOrd Component where
  eq_swap {a b} :=
    (Std.OrientedOrd.eq_swap : compare a.rank b.rank = (compare b.rank a.rank).swap)
  isLE_trans {a b c} (hab : (compare a.rank b.rank).isLE) (hbc : (compare b.rank c.rank).isLE) :=
    (Std.TransOrd.isLE_trans hab hbc : (compare a.rank c.rank).isLE)

instance : Std.LawfulEqOrd Component where
  compare_self {a} := (Std.ReflOrd.compare_self : compare a.rank a.rank = .eq)
  eq_of_compare {a b} (h : compare a.rank b.rank = .eq) :=
    rank_injective (Std.LawfulEqOrd.eq_of_compare h)

end Component

namespace TaskCache

open Lib (BTreeMap)

/-! ### Digests and the objects of the store -/

/-- The content of a blob. -/
abbrev Bytes := List UInt8

/-- `CacheDigest`. -/
structure CacheDigest where
  algorithm : String
  hash : String
  size : UInt64
  deriving DecidableEq

/-- The hash functions, in lower-case hexadecimal. -/
structure Hashes where
  blake3 : Bytes → String
  sha256 : Bytes → String

/-- `CacheDirectoryNode`. -/
structure CacheDirectoryNode where
  digest : CacheDigest
  mode : UInt32
  name : String
  deriving DecidableEq

/-- `CacheFileNode`. -/
structure CacheFileNode where
  digest : CacheDigest
  executable : Bool
  mode : UInt32
  name : String
  deriving DecidableEq

/-- `CacheSymlinkNode`. -/
structure CacheSymlinkNode where
  mode : UInt32
  name : String
  target : String
  deriving DecidableEq

/-- `CacheDirectory`. -/
structure CacheDirectory where
  directories : List CacheDirectoryNode
  files : List CacheFileNode
  symlinks : List CacheSymlinkNode
  version : UInt8
  deriving DecidableEq

/-- The canonical JSON of a directory object, and its reading. -/
structure Json where
  encode : CacheDirectory → Bytes
  decode : Bytes → Except String CacheDirectory

/-- `BlobSource`: bytes in memory, or a file by its content. -/
inductive BlobSource where
  | bytes (bytes : Bytes)
  | file (content : Bytes)
  deriving DecidableEq

/-- What a source is uploaded as. -/
def BlobSource.content : BlobSource → Bytes
  | .bytes content => content
  | .file content => content

/-- `BlobUpload`. -/
structure BlobUpload where
  digest : CacheDigest
  source : BlobSource
  deriving DecidableEq

/-- A digit of a lower-case hexadecimal number. -/
def isLowerHex (c : Char) : Bool := c.isDigit || 'a' ≤ c && c ≤ 'f'

namespace CacheDigest

/-- `CacheDigest::blake3`. -/
def blake3 (hashes : Hashes) (bytes : Bytes) : CacheDigest :=
  ⟨"blake3", hashes.blake3 bytes, .ofNat bytes.length⟩

/-- `CacheDigest::validate`. -/
def validate (digest : CacheDigest) : Except String Unit :=
  if digest.algorithm ≠ "blake3" ∧ digest.algorithm ≠ "sha256" then
    .error "unsupported remote cache digest algorithm"
  else if digest.hash.toList.length ≠ 64 ∨ digest.hash.toList.all isLowerHex = false then
    .error "invalid remote cache digest"
  else .ok ()

/-- `CacheDigest::matches_bytes`. -/
def matchesBytes (hashes : Hashes) (digest : CacheDigest) (bytes : Bytes) :
    Except String Bool := do
  digest.validate
  if digest.size ≠ .ofNat bytes.length then return false
  let hash := if digest.algorithm = "blake3" then hashes.blake3 bytes else hashes.sha256 bytes
  return digest.hash = hash

end CacheDigest

/-! ### The archive -/

/-- `jdx_tar::EntryType`. -/
inductive EntryType where
  | directory
  | file
  | symlink
  | other
  deriving DecidableEq

/-- An entry of an archive: its path, what its header says, and its data. -/
structure Entry where
  path : PathBuf
  mode : UInt32
  entryType : EntryType
  linkName : Option PathBuf
  data : Bytes
  deriving DecidableEq

/-- `ArchiveNode`. -/
inductive ArchiveNode where
  | directory (mode : UInt32)
  | file (digest : CacheDigest) (executable : Bool) (mode : UInt32) (file : Bytes)
  | symlink (mode : UInt32) (target : PathBuf)
  deriving DecidableEq

/-- `RestoredNode`. -/
inductive RestoredNode where
  | directory (mode : UInt32)
  | file (digest : CacheDigest) (executable : Bool) (mode : UInt32)
  | symlink (mode : UInt32) (target : PathBuf)
  deriving DecidableEq

/-! ### What is checked of paths, names and targets -/

/-- `validate_cache_path`. -/
def validateCachePath (path : Dir) : Except String Unit :=
  if path = [] ∨ path.head? = some .rootDir then .error "remote cache path must be relative"
  else if path.any fun c => c = .parentDir ∨ c = .rootDir then
    .error "remote cache path escapes its output root"
  else .ok ()

/-- `cache_name`. -/
def cacheName (path : Dir) : Except String String :=
  match path.getLast? with
  | some (.normal name) =>
    if name = [] ∨ name = ['.'] ∨ name = ['.', '.'] ∨ '/' ∈ name ∨ '\x00' ∈ name then
      .error "invalid remote cache path component"
    else .ok (String.ofList name)
  | _ => .error "remote cache paths must be valid UTF-8"

/-- Whether a component is a name. -/
def isNormal : Component → Bool
  | .normal _ => true
  | _ => false

/-- `validate_cache_name`. -/
def validateCacheName (name : String) : Except String Unit :=
  if name = "" ∨ name = "." ∨ name = ".." ∨
      '/' ∈ name.toList ∨ '\\' ∈ name.toList ∨ '\x00' ∈ name.toList ∨
      (PathBuf.mk name).components.length ≠ 1 ∨
      (PathBuf.mk name).components.head?.any isNormal = false then
    .error "invalid remote cache path component"
  else .ok ()

/-- The loop over the components of the path a link leads to, which counts its
depth. -/
def countDepth : ℕ → Dir → Except String Unit
  | _, [] => .ok ()
  | depth, .normal _ :: rest => countDepth (depth + 1) rest
  | 0, .parentDir :: _ => .error "remote cache symlink target escapes its output root"
  | depth + 1, .parentDir :: rest => countDepth depth rest
  | depth, .curDir :: rest => countDepth depth rest
  | _, .rootDir :: _ => .error "remote cache symlink target is unsafe"

/-- `validate_cache_symlink_target`. -/
def validateCacheSymlinkTarget (path : Dir) (target : PathBuf) : Except String Unit :=
  if target.components.head? = some .rootDir then
    .error "remote cache symlink target must be relative"
  else if (target.components.dropWhile fun c => !isNormal c).any (· = .parentDir) then
    .error "remote cache symlink target has `..` after a named component"
  else countDepth 0 (Dir.join path.dropLast target.raw)

/-! ### Cutting an archive -/

/-- The parents of a path, the nearest first. -/
def parents (path : Dir) : List Dir := (List.range path.length).reverse.map path.take

/-- The node an entry of an archive makes. -/
def archiveNode (hashes : Hashes) (entry : Entry) : Except String ArchiveNode :=
  let mode := entry.mode &&& 0o7777
  match entry.entryType with
  | .directory => .ok (.directory mode)
  | .file =>
    .ok (.file (.blake3 hashes entry.data) (mode &&& 0o111 ≠ 0) mode entry.data)
  | .symlink => do
    let some target := entry.linkName | .error "remote cache symlink is missing its target"
    validateCacheSymlinkTarget entry.path.components target
    return .symlink mode target
  | .other => .error "unsupported task cache archive entry type"

/-- The loop over the entries of an archive. -/
def addEntry (hashes : Hashes) (nodes : BTreeMap Dir ArchiveNode) (entry : Entry) :
    Except String (BTreeMap Dir ArchiveNode) := do
  let path := entry.path.components
  validateCachePath path
  let node ← archiveNode hashes entry
  if path ∈ nodes then .error "task cache archive contains duplicate paths"
  else
    return (parents path).foldl (fun nodes parent => nodes.insertIfNew parent (.directory 0o755))
      (nodes.insert path node)

/-- The nodes of an archive: its entries and their parents. -/
def archiveNodes (hashes : Hashes) (entries : List Entry) :
    Except String (BTreeMap Dir ArchiveNode) :=
  entries.foldlM (addEntry hashes) ((∅ : BTreeMap Dir ArchiveNode).insert [] (.directory 0o755))

section

variable (json : Json) (hashes : Hashes)

/-- One turn of the loop of `build_directory`, where `build` is the function on
the directories below. -/
def addChild (build : Dir → List BlobUpload → Except String (CacheDigest × List BlobUpload))
    (path : Dir) (state : CacheDirectory × List BlobUpload) (entry : Dir × ArchiveNode) :
    Except String (CacheDirectory × List BlobUpload) := do
  let (directory, uploads) := state
  if entry.1 = [] ∨ entry.1.dropLast ≠ path then return (directory, uploads)
  let name ← cacheName entry.1
  match entry.2 with
  | .directory mode =>
    let (digest, uploads) ← build entry.1 uploads
    return ({ directory with directories := directory.directories ++ [⟨digest, mode, name⟩] },
      uploads)
  | .file digest executable mode _ =>
    return ({ directory with files := directory.files ++ [⟨digest, executable, mode, name⟩] },
      uploads)
  | .symlink mode target =>
    return ({ directory with symlinks := directory.symlinks ++ [⟨mode, name, target.raw⟩] },
      uploads)

/-- `build_directory`, as deep as `depth` allows. -/
def buildDirectory (nodes : BTreeMap Dir ArchiveNode) :
    ℕ → Dir → List BlobUpload → Except String (CacheDigest × List BlobUpload)
  | 0, _, _ => .error "too deep"
  | depth + 1, path, uploads => do
    let (directory, uploads) ← nodes.toList.foldlM
      (addChild (buildDirectory nodes depth) path) (⟨[], [], [], 1⟩, uploads)
    let bytes := json.encode directory
    let digest := CacheDigest.blake3 hashes bytes
    return (digest, uploads ++ [⟨digest, .bytes bytes⟩])

/-- A depth that no path of the nodes reaches. -/
def height (nodes : BTreeMap Dir ArchiveNode) : ℕ :=
  (nodes.keys.map List.length).foldr max 0 + 1

/-- The upload of a node that is a file. -/
def fileUpload : ArchiveNode → Option BlobUpload
  | .file digest _ _ file => some ⟨digest, .file file⟩
  | _ => none

/-- `archive_to_cas`. -/
def archiveToCas (entries : List Entry) : Except String (CacheDigest × List BlobUpload) := do
  let nodes ← archiveNodes hashes entries
  let (root, uploads) ← buildDirectory json hashes nodes (height nodes) [] []
  return (root, uploads ++ nodes.toList.filterMap fun entry => fileUpload entry.2)

/-! ### Making an archive of a tree -/

variable (server : CacheDigest → Except String Bytes)

/-- `RemoteCacheClient::get_blob`. -/
def getBlob (digest : CacheDigest) : Except String Bytes := do
  digest.validate
  let bytes ← server digest
  if digest.size < .ofNat bytes.length then
    .error "remote cache blob failed digest verification: it is larger than its digest records"
  else if (← digest.matchesBytes hashes bytes) = false then
    .error "remote cache blob failed digest verification"
  else return bytes

/-- `RemoteCacheClient::get_blob_file`, by the content of the file it writes. -/
def getBlobFile (digest : CacheDigest) : Except String Bytes := getBlob hashes server digest

/-- The directory object a digest stands for. -/
def readDirectory (digest : CacheDigest) : Except String CacheDirectory := do
  let bytes ← getBlob hashes server digest
  let directory ← json.decode bytes
  if json.encode directory ≠ bytes then .error "remote cache directory is not canonical JSON"
  else if directory.version ≠ 1 then .error "unsupported remote cache directory version"
  else return directory

/-- The loops over the entries of one kind of a directory object.  The name of
each and its path below `path` are checked, then what `check` says, and `make`
is done with it. -/
def takeEntries {α β : Type} (path : Dir) (name : α → String)
    (check : Dir → α → Except String Unit) (make : Dir → α → β) :
    Finset String → List α → Except String (List β × Finset String)
  | names, [] => .ok ([], names)
  | names, entry :: rest => do
    validateCacheName (name entry)
    if name entry ∈ names then .error "remote cache directory contains duplicate names"
    else
      let child := Dir.join path (name entry)
      validateCachePath child
      check child entry
      let (made, names) ← takeEntries path name check make (insert (name entry) names) rest
      return (make child entry :: made, names)

/-- What is left to do: a directory's path and digest, and those it is below. -/
structure Pending where
  path : Dir
  digest : CacheDigest
  ancestors : Finset CacheDigest

/-- A turn of the loop over the tree: the directories it adds to the pending
ones, and the nodes it inserts. -/
def takeDirectory (pending : Pending) :
    Except String (List Pending × List (Dir × RestoredNode)) := do
  if pending.digest ∈ pending.ancestors then
    .error "remote cache directory graph contains a cycle"
  else
    let ancestors := insert pending.digest pending.ancestors
    let directory ← readDirectory json hashes server pending.digest
    let (directories, names) ← takeEntries pending.path CacheDirectoryNode.name
      (fun _ _ => .ok ()) (fun child entry => (child, entry)) ∅ directory.directories
    let (files, names) ← takeEntries pending.path CacheFileNode.name (fun _ _ => .ok ())
      (fun child entry => (child, RestoredNode.file entry.digest entry.executable entry.mode))
      names directory.files
    let (symlinks, _) ← takeEntries pending.path CacheSymlinkNode.name
      (fun child entry => validateCacheSymlinkTarget child ⟨entry.target⟩)
      (fun child entry => (child, RestoredNode.symlink entry.mode ⟨entry.target⟩))
      names directory.symlinks
    return (directories.map fun d => ⟨d.1, d.2.digest, ancestors⟩,
      directories.map (fun d => (d.1, RestoredNode.directory d.2.mode)) ++ files ++ symlinks)

/-- The entry a node is written as, with the file downloaded for it. -/
def restoredEntry (path : Dir) : RestoredNode → Except String Entry
  | .directory mode => .ok ⟨⟨path.display⟩, mode, .directory, none, []⟩
  | .file digest executable mode => do
    let data ← getBlobFile hashes server digest
    let mode := if executable then mode ||| 0o111 else mode &&& ~~~0o111
    return ⟨⟨path.display⟩, mode, .file, none, data⟩
  | .symlink mode target => .ok ⟨⟨path.display⟩, mode, .symlink, some target, []⟩

/-- The nodes of a tree, each under its path. -/
def restoredNodes (inserted : List (Dir × RestoredNode)) : BTreeMap Dir RestoredNode :=
  inserted.foldl (fun nodes entry => nodes.insert entry.1 entry.2) ∅

/-- `materialize_remote_tree`, with as many turns of its loop over the tree as
`turns` allows: `none` when they are not enough. -/
def materializeRemoteTree (turns : ℕ) (root : CacheDigest) :
    Option (Except String (List Entry)) :=
  (Lib.Worklist.run (takeDirectory json hashes server) turns [⟨[], root, ∅⟩]).map fun walked => do
    let inserted ← walked
    (restoredNodes inserted).toList.mapM fun entry => restoredEntry hashes server entry.1 entry.2

end

end TaskCache

end Mise
