/-
# Dependency graphs beside the lockfile

`src/lockfile/graph.rs`: the graph of an entry is kept in a directory below the
lockfile's sidecar root, and the lockfile points at it with a digest.  An entry
that has such a directory keeps it.  A new graph goes to `<tool>/<version>`, or to
`<tool>/<version>~<suffix>` when its entry has options or the plain directory is
taken; only the plain name is looked up among the directories in use.

A path is its components.  What leaves the program is a parameter: the disk, the
two kinds of native graphs, SHA-256, and the directory name of a tool.
-/

import Mise.Lockfile.Basic
import Mise.Dir
import Mise.Text

namespace Mise.Sidecar

open Lib Dir

/-! ### Paths -/

/-- `is_plain_file_name`. -/
def isPlainFileName (name : String) : Bool :=
  if name.toList.contains '/' || name.toList.contains '\\' then
    false
  else
    match (PathBuf.mk name).components with
    | [.normal _] => true
    | _ => false

/-- `Path::file_stem`, of a file name. -/
def fileStem (name : List Char) : List Char :=
  match rsplitOnce '.' name with
  | some (before, _) => if before.isEmpty then name else before
  | none => name

/-- What is read of the disk. -/
structure Disk where
  isSymlink : Dir → Bool
  isDir : Dir → Bool
  isFile : Dir → Bool
  readToString : Dir → Except String String
  readDir : Dir → Option (List (List Char))

/-- `symlink_below`. -/
def symlinkBelow (disk : Disk) (base path : Dir) : Option Dir :=
  (path.inits.reverse.takeWhile fun p => p ≠ base && base.isPrefixOf p).find? disk.isSymlink

/-- `read_sidecar_file`. -/
def readSidecarFile (disk : Disk) (base path : Dir) : Except String String :=
  match symlinkBelow disk base path with
  | some link => .error ("refusing to read through symlink " ++ display link)
  | none => disk.readToString path

/-! ### Graphs -/

/-- `NativeGraph`. -/
structure NativeGraph (T : Type) where
  graphFile : String
  graphText : T → Except String String
  files : T → Except String (List (String × String))
  read : Dir → Dir → String → Except String T

/-- `GraphRef`, with what its cells hold. -/
inductive GraphRef (T : Type) where
  | inline (graph : T) (dir : Option Dir) (digest : Option String)
  | sidecar (dir base : Dir) (digest : String) (cell : Option (Except String T))

/-- `normalize_newlines`. -/
def normalizeNewlines (text : String) : String := String.ofList (go text.toList)
where
  go : List Char → List Char
    | '\r' :: '\n' :: rest => '\n' :: go rest
    | c :: rest => c :: go rest
    | [] => []

section Digest

variable (sha256 : List UInt8 → String)

/-- `digest_bytes`; `sha256` is the hash in hexadecimal digits. -/
def digestBytes (text : String) : String := "sha256:" ++ sha256 text.toUTF8.toList

/-- `digest_text`. -/
def digestText (text : String) : String := digestBytes sha256 (normalizeNewlines text)

/-- The eight bytes of a length. -/
def lengthBytes (n : ℕ) : List UInt8 :=
  [56, 48, 40, 32, 24, 16, 8, 0].map fun shift => UInt8.ofNat (n >>> shift)

/-- The bytes of a key or a string in `hash_canonical_toml`. -/
def canonicalBytes (tag : Char) (value : String) : List UInt8 :=
  UInt8.ofNat tag.toNat :: lengthBytes value.toUTF8.size ++ value.toUTF8.toList

/-- The bytes of a table in `hash_canonical_toml`, whose keys come sorted. -/
def canonicalTable (entries : List (String × List UInt8)) : List UInt8 :=
  UInt8.ofNat 't'.toNat :: lengthBytes entries.length ++
    entries.flatMap fun e => canonicalBytes 'k' e.1 ++ e.2

/-- `variant_suffix`. -/
def variantSuffix (backend : Option String) (options : LockOptions) : String :=
  let options := canonicalTable (options.toList.map fun e => (e.1, canonicalBytes 's' e.2))
  let value := canonicalTable
    [("backend", canonicalBytes 's' (backend.getD "")), ("options", options)]
  String.ofList ((sha256 value).toList.take 8)

end Digest

namespace GraphRef

variable {T : Type} (sha256 : List UInt8 → String) (disk : Disk) (native : NativeGraph T)

/-- `GraphRef::dir`. -/
def dir : GraphRef T → Option Dir
  | inline _ dir _ => dir
  | sidecar dir _ _ _ => some dir

/-- `GraphRef::identity`; an error is a panic. -/
def identity : GraphRef T → Except String String
  | sidecar _ _ digest _ => .ok digest
  | inline _ _ (some digest) => .ok digest
  | inline graph _ none => (native.graphText graph).map (digestText sha256)

/-- What the cell of a graph holds once it was loaded. -/
def contents : GraphRef T → Except String T
  | inline graph _ _ => .ok graph
  | sidecar _ _ _ (some loaded) => loaded
  | sidecar dir base digest none => do
    let raw ← readSidecarFile disk base (join dir native.graphFile)
    let text := normalizeNewlines raw
    if digestBytes sha256 text ≠ digest ∧ digestBytes sha256 raw ≠ digest then
      .error "digest mismatch; run `mise lock` to accept the edited graph"
    else
      native.read base dir text

/-- `GraphRef::load`. -/
def load : GraphRef T → Except String T
  | inline graph _ _ => .ok graph
  | sidecar dir base digest cell =>
    ((sidecar dir base digest cell).contents sha256 disk native).mapError fun e =>
      "dependency sidecar " ++ display dir ++ ": " ++ e ++ "; run `mise lock` to repair it"

/-- The graph after it was loaded. -/
def loaded : GraphRef T → GraphRef T
  | inline graph dir digest => inline graph dir digest
  | sidecar dir base digest cell =>
    sidecar dir base digest (some ((sidecar dir base digest cell).contents sha256 disk native))

/-- `GraphRef::pointer`: the path and the digest that the lockfile records. -/
def pointer (base : Dir) (graph : GraphRef T) : Except String (String × String) :=
  match graph.dir with
  | none => .error "dependency sidecar has not been prepared"
  | some dir =>
    if base.isPrefixOf dir then do
      let path := ['/'].intercalate ((dir.drop base.length).map componentText)
      let digest ← graph.identity sha256 native
      return (String.ofList path, digest)
    else
      .error "prefix not found"

/-- `u8::is_ascii_hexdigit`. -/
def isAsciiHexdigit (c : Char) : Bool :=
  '0' ≤ c && c ≤ '9' || 'a' ≤ c && c ≤ 'f' || 'A' ≤ c && c ≤ 'F'

/-- Whether a digest is one that a lockfile may record. -/
def isDigest (digest : String) : Bool :=
  if "sha256:".toList.isPrefixOf digest.toList then
    -- every digit is one byte
    let s := digest.toList.drop 7
    s.length = 64 && s.all isAsciiHexdigit
  else
    false

/-- `GraphRef::parse`, of a pointer. -/
def parse (pointer : String × String) : Except String (GraphRef T) :=
  if isDigest pointer.2 then
    .ok (sidecar (PathBuf.mk pointer.1).components [] pointer.2 none)
  else
    .error "invalid dependency graph digest"

/-- Whether a component is a name without backslashes. -/
def isPlain : Component → Bool
  | .normal name => !name.contains '\\'
  | _ => false

/-- `GraphRef::resolve_path`, for the lockfile in `base`. -/
def resolvePath (base : Dir) : GraphRef T → Except String (GraphRef T)
  | inline graph dir digest => .ok (inline graph dir digest)
  | sidecar dir _ digest cell =>
    if dir.all isPlain then
      .ok (sidecar (base ++ dir) base digest cell)
    else
      .error ("invalid dependency sidecar path " ++ display dir)

end GraphRef

/-! ### Writing -/

/-- Where a lockfile is: the directory it is in, the one that `layout` is read from (with
links resolved, if that is possible), whether that is the global one, and its name. -/
structure Place where
  base : Dir
  layout : Dir
  isGlobal : Bool
  name : List Char
  noSlash : '/' ∉ name

/-- `Path::file_name`. -/
def fileName (p : Dir) : Option (List Char) :=
  match p.getLast? with
  | some (.normal name) => some name
  | _ => none

/-- The directory of all sidecars in that of the lockfile, in `sidecar_root_in`. -/
def Place.locks (place : Place) : List String :=
  if place.isGlobal then ["locks"]
  else if fileName place.layout = some ".mise".toList then ["locks"]
  else if fileName place.layout = some "mise".toList ∧
      fileName place.layout.dropLast = some ".config".toList then ["locks"]
  else if fileName place.layout = some ".config".toList then ["mise", "locks"]
  else [".mise", "locks"]

/-- `sidecar_root`. -/
def Place.root (place : Place) : Dir :=
  let root := place.locks.foldl join place.base
  if place.name = "mise.lock".toList then root
  else join root (String.ofList (fileStem place.name))

/-- `SidecarWrites`. -/
structure SidecarWrites where
  files : List (Dir × String) := []
  /-- A set. -/
  referenced : List Dir := []
  dir : Dir
  root : Dir
  remove : List Dir := []

/-- `SidecarWrites::new`. -/
def SidecarWrites.new (place : Place) : SidecarWrites := { dir := place.base, root := place.root }

/-- A graph of an entry, with what its directory is chosen from. -/
structure Use (T : Type) where
  native : NativeGraph T
  short : String
  version : String
  backend : Option String
  options : LockOptions
  graph : GraphRef T

section Write

variable {T : Type} (sha256 : List UInt8 → String) (toolDirectoryName : String → String)
  (disk : Disk) (root : Dir)

namespace Use

/-- The directory that a graph keeps. -/
def recorded (u : Use T) : Option Dir := u.graph.dir.filter root.isPrefixOf

/-- `plain`. -/
def plain (u : Use T) : Dir := join (join root (toolDirectoryName u.short)) u.version

/-- The directory whose name has the variant's suffix. -/
def suffixed (u : Use T) : Dir :=
  join (join root (toolDirectoryName u.short))
    (u.version ++ "~" ++ variantSuffix sha256 u.backend u.options)

/-- Whether a new graph takes the suffixed name. -/
def takesSuffix (referenced : List Dir) (u : Use T) : Bool :=
  !u.options.isEmpty || referenced.contains (u.plain toolDirectoryName root)

/-- The directory of a graph, in `prepare`. -/
def place (referenced : List Dir) (u : Use T) : Dir :=
  match u.recorded root with
  | some dir => dir
  | none =>
    if u.takesSuffix toolDirectoryName root referenced then
      u.suffixed sha256 toolDirectoryName root
    else
      u.plain toolDirectoryName root

end Use

namespace SidecarWrites

/-- `SidecarWrites::root_is_linked`. -/
def rootIsLinked (w : SidecarWrites) : Bool := (symlinkBelow disk w.dir w.root).isSome

/-- `SidecarWrites::reserve`. -/
def reserve (w : SidecarWrites) (graph : GraphRef T) : SidecarWrites :=
  match graph.dir.filter w.root.isPrefixOf with
  | some dir => { w with referenced := dir :: w.referenced }
  | none => w

/-- The files of a graph that the disk does not have as they are. -/
def changedFiles (dir : Dir) (files : List (String × String)) : List (Dir × String) :=
  files.filterMap fun file =>
    let target := join dir file.1
    let contents := normalizeNewlines file.2
    let onDisk := (disk.readToString target).toOption.map normalizeNewlines
    if onDisk = some contents then none else some (target, contents)

/-- What `prepare` does with a graph that is not in its directory yet. -/
def store (w : SidecarWrites) (u : Use T) (dir : Dir) :
    Except String (SidecarWrites × GraphRef T) :=
  match u.graph.load sha256 disk u.native with
  | .error e =>
    match u.graph with
    | .sidecar .. => .ok (w, u.graph.loaded sha256 disk u.native)
    | .inline .. => .error e
  | .ok body => do
    let files ← u.native.files body
    let text ← u.native.graphText body
    return ({ w with files := w.files ++ changedFiles disk dir files },
      .sidecar dir w.dir (digestText sha256 text) none)

/-- `SidecarWrites::prepare`. -/
def prepare (w : SidecarWrites) (u : Use T) : Except String (SidecarWrites × GraphRef T) :=
  if isPlainFileName u.version = false then
    .error ("cannot store dependency sidecar for invalid version " ++ u.version)
  else
    let dir := u.place sha256 toolDirectoryName w.root w.referenced
    let w := { w with referenced := dir :: w.referenced }
    match u.graph with
    | .sidecar source _ digest cell =>
      if source = dir ∧ disk.isDir source = true then
        match cell with
        | some (.ok loaded) => do
          -- a digest of text with other line endings is brought up to date
          let identity := digestText sha256 (← u.native.graphText loaded)
          if identity ≠ digest then
            return (w, .sidecar dir w.dir identity cell)
          else
            return (w, u.graph)
        | _ => .ok (w, u.graph)
      else
        w.store sha256 disk u dir
    | .inline .. => w.store sha256 disk u dir

/-- The directories of one tool that `collect_garbage` removes. -/
def garbageOf (w : SidecarWrites) (tool : Dir) : List Dir :=
  if disk.isSymlink tool then []
  else
    (((disk.readDir tool).getD []).map fun version => tool ++ [.normal version]).filter fun dir =>
      !disk.isSymlink dir && !w.referenced.contains dir &&
        (disk.isFile (join dir "uv.lock") || disk.isFile (join dir "aube-lock.yaml"))

/-- `SidecarWrites::collect_garbage`. -/
def collectGarbage (w : SidecarWrites) : SidecarWrites :=
  if w.rootIsLinked disk then w
  else
    match disk.readDir w.root with
    | none => w
    | some tools =>
      { w with
        remove := w.remove ++ tools.flatMap fun tool => w.garbageOf disk (w.root ++ [.normal tool]) }

end SidecarWrites

/-- An entry of the lockfile, with its graphs. -/
structure Entry (T : Type) where
  short : String
  version : String
  backend : Option String := none
  options : LockOptions := ∅
  uv : Option (GraphRef T) := none
  aube : Option (GraphRef T) := none

/-- The graphs of an entry, in the order in which they are prepared. -/
def Entry.uses (uvNative aubeNative : NativeGraph T) (e : Entry T) : List (Use T) :=
  (e.uv.map (⟨uvNative, e.short, e.version, e.backend, e.options, ·⟩)).toList ++
    (e.aube.map (⟨aubeNative, e.short, e.version, e.backend, e.options, ·⟩)).toList

/-- The first loop of `prepare_write`: every directory in use is reserved. -/
def reserveAll (place : Place) (uses : List (Use T)) : SidecarWrites :=
  uses.foldl (fun w u => w.reserve u.graph) (.new place)

/-- The second loop of `prepare_write`: every graph gets its directory. -/
def prepareAll : SidecarWrites → List (Use T) → Except String (SidecarWrites × List (GraphRef T))
  | w, [] => .ok (w, [])
  | w, u :: uses => do
    let (w, graph) ← w.prepare sha256 toolDirectoryName disk u
    let (w, graphs) ← prepareAll w uses
    return (w, graph :: graphs)

end Write

end Mise.Sidecar
