/-
# The lockfile

`src/lockfile.rs`: the records of `mise.lock`.  A lockfile lists, under each
tool, the entries it locks; an entry is a version with the options it was
resolved for, the request specifiers bound to it, what is known of its artifact
on each platform, and its dependency graphs.

The sorted maps and sets are those of the standard library, whose equality is
equality of contents.
-/

import Mise.Lib.BTreeMap
import Mise.Toml

namespace Mise

open Lib

/-! ### Artifacts -/

/-- `ProvenanceType`. -/
inductive ProvenanceType where
  | minisign
  | cosign
  | slsa (url : Option String)
  | githubAttestations
  deriving DecidableEq

/-- `GithubAttestationsStatus`. -/
inductive GithubAttestationsStatus where
  | unavailable
  deriving DecidableEq

/-- `ChecksumSource`. -/
inductive ChecksumSource where
  | versionsHost
  deriving DecidableEq

/-- `ArtifactInfo`. -/
structure ArtifactInfo where
  checksum : Option String := none
  checksumSource : Option ChecksumSource := none
  size : Option UInt64 := none
  url : String := ""
  urlApi : Option String := none
  provenance : Option ProvenanceType := none
  provenanceVerified : Option Bool := none
  deriving DecidableEq

/-- `PlatformInfo`. -/
structure PlatformInfo where
  install : Option String := none
  checksum : Option String := none
  checksumSource : Option ChecksumSource := none
  size : Option UInt64 := none
  url : Option String := none
  urlApi : Option String := none
  downloadHeaders : Option (List (String × String)) := none
  condaDeps : Option (List String) := none
  provenance : Option ProvenanceType := none
  provenanceVerified : Option Bool := none
  githubAttestations : Option GithubAttestationsStatus := none
  signer : Option String := none
  attestedBy : Option String := none
  repositoryId : Option String := none
  repositoryOwnerId : Option String := none
  additionalArtifacts : List ArtifactInfo := []
  deriving DecidableEq

/-! ### Graphs -/

/-- `GraphRef`: a graph in the lockfile, or a pointer to a file beside it with
the digest the file has to have. -/
inductive GraphRef (α : Type) where
  | inline (graph : α) (dir : Option String)
  | sidecar (dir base digest : String)

/-- `GraphRef::load`, where `read` opens, checks and parses a sidecar. -/
def GraphRef.load {α : Type} (read : String → String → String → Option α) :
    GraphRef α → Option α
  | inline graph _ => some graph
  | sidecar dir base digest => read dir base digest

/-- `AubeLock`. -/
structure AubeLock where
  graph : TomlTable
  graphText : String := ""
  project : Option String := none

/-- `UvLock`. -/
structure UvLock where
  project : TomlTable
  graph : TomlTable
  graphText : String := ""

/-- `PackageProvenance`. -/
structure PackageProvenance where
  repository : String
  deriving DecidableEq

/-! ### Entries and files -/

/-- The lockfile options of an entry. -/
abbrev LockOptions := BTreeMap String String

/-- `LockfileToolKey`. -/
abbrev LockfileToolKey := String × LockOptions

instance LockfileToolKey.lawfulBEq : LawfulBEq LockfileToolKey := inferInstance

/-- `LockfileTool`. -/
structure LockfileTool where
  version : String
  backend : Option String := none
  specifiers : BTreeSet String := ∅
  options : LockOptions := ∅
  platforms : BTreeMap String PlatformInfo := ∅
  aube : Option (GraphRef AubeLock) := none
  uv : Option (GraphRef UvLock) := none
  provenance : Option PackageProvenance := none

/-- What tells the entries of a tool apart. -/
def LockfileTool.key (tool : LockfileTool) : LockfileToolKey := (tool.version, tool.options)

/-- `CondaPackageInfo`. -/
structure CondaPackageInfo where
  url : String
  checksum : Option String := none
  deriving DecidableEq

/-- `Lockfile`. -/
structure Lockfile where
  lockfileVersion : UInt32
  tools : BTreeMap String (List LockfileTool) := ∅
  condaPackages : BTreeMap String (BTreeMap String CondaPackageInfo) := ∅

namespace Lockfile

/-- The entries under a key. -/
def entries (l : Lockfile) (key : String) : List LockfileTool := l.tools[key]?.getD []

/-- `uses_request_bindings`. -/
def usesRequestBindings (l : Lockfile) : Bool := 0 < l.lockfileVersion

/-- `get_conda_package`. -/
def getCondaPackage (l : Lockfile) (platform basename : String) : Option CondaPackageInfo :=
  l.condaPackages[platform]?.bind fun packages => packages[basename]?

end Lockfile

end Mise
