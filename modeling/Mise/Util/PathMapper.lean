/-
# Windows paths in an MSYS2 or Cygwin shell

`mise-util/src/windows_posix.rs`: a `PathMapper` has the mounts of a shell's
runtime and maps Windows paths to the shell's and back.  Either way the longest
mount answers; going back, a drive is looked for before the mount at `/`.

Texts are characters and are cut at byte offsets, as the source does it; a
result of `none` is a slice that would cut a character.
-/

import Mathlib.Data.List.DropRight
import Mathlib.Data.Prod.Lex
import Mise.Lib.AsciiCase
import Mise.Lib.LastMax

namespace Mise.WindowsPosix

open Lib
open String (utf8Len)

/-! ### Texts -/

/-- `&text[offset..]`. -/
def sliceFrom (text : List Char) (offset : ℕ) : Option (List Char) :=
  (splitAtByte text offset).map Prod.snd

/-- `replace('\\', "/")`. -/
def slashed (path : List Char) : List Char := path.map fun c => if c = '\\' then '/' else c

/-- `replace('/', "\\")`. -/
def backslashed (path : List Char) : List Char := path.map fun c => if c = '/' then '\\' else c

/-- `trim_end_matches`. -/
def trimEnd (c : Char) (text : List Char) : List Char := text.rdropWhile (· = c)

/-- The loops that pop a slash from a text that is longer than `least`; the text
is reversed. -/
def popSlashes (least : ℕ) : List Char → List Char
  | '/' :: rest => if utf8Len ('/' :: rest) > least then popSlashes least rest else '/' :: rest
  | text => text

/-- A text without slashes at its end, but for its first `least` bytes. -/
def stripSlashes (least : ℕ) (text : List Char) : List Char :=
  (popSlashes least text.reverse).reverse

/-- `normalize_windows`. -/
def normalizeWindows (path : List Char) : List Char := stripSlashes 3 (slashed path)

/-- `normalize_posix`. -/
def normalizePosix (path : List Char) : List Char :=
  let normalized := slashed path
  stripSlashes 1 (if normalized.head? = some '/' then normalized else '/' :: normalized)

/-- `is_windows_absolute`. -/
def isWindowsAbsolute (path : List Char) : Bool :=
  (match path with
    | d :: ':' :: s :: _ => d.isAlpha && (s == '/' || s == '\\')
    | _ => false) || "//".toList.isPrefixOf path || "\\\\".toList.isPrefixOf path

/-- `split_drive`. -/
def splitDrive (path : List Char) : Option (Option (Char × List Char)) :=
  match path with
  | d :: ':' :: _ => if d.isAlpha then (sliceFrom path 2).map fun tail => some (d, tail) else some none
  | _ => some none

/-- `strip_prefix_ascii`. -/
def stripPrefixAscii (value front : List Char) : Option (Option (List Char)) :=
  match splitAtByte value (utf8Len front) with
  | none => some none
  | some (head, _) =>
    if eqAscii head front then (sliceFrom value (utf8Len front)).map some else some none

/-- `prefix_matches`. -/
def prefixMatches (path front : List Char) : Option Bool :=
  if front = ['/'] then some (path.head? == some '/')
  else do
    let tail ← stripPrefixAscii path front
    some (tail.any fun tail =>
      front.getLast? == some '/' || tail.isEmpty || tail.head? == some '/')

/-- `ensure_leading_slash`. -/
def ensureLeadingSlash (tail : List Char) : List Char :=
  if tail.head? = some '/' then tail else '/' :: tail

/-- `append_tail`. -/
def appendTail (base tail : List Char) : List Char :=
  if tail = [] then base else trimEnd '/' base ++ ensureLeadingSlash tail

/-- `append_windows_tail`. -/
def appendWindowsTail (base tail : List Char) : List Char :=
  let base := backslashed base
  if tail = [] then base else trimEnd '\\' base ++ backslashed (ensureLeadingSlash tail)

/-! ### Mounts -/

/-- `RuntimeKind`. -/
inductive RuntimeKind where
  | msys
  | cygwin
  deriving DecidableEq

/-- `Mount`. -/
structure Mount where
  windows : List Char
  posix : List Char
  precedence : ℕ
  deriving DecidableEq

/-- `PathMapper`. -/
structure PathMapper where
  mounts : List Mount
  cygdrive : List Char
  userTemp : Option (List Char)
  nextPrecedence : ℕ

/-- How the best mount for a Windows path is told. -/
def windowsKey (mount : Mount) : ℕ ×ₗ ℕ := toLex (utf8Len mount.windows, mount.precedence)

/-- How the best mount for a path of the shell is told. -/
def posixKey (mount : Mount) : ℕ ×ₗ ℕ := toLex (utf8Len mount.posix, mount.precedence)

namespace PathMapper

/-- `best_windows_mount`. -/
def bestWindowsMount (mapper : PathMapper) (path : List Char) : Option (Option Mount) := do
  let mounts ← mapper.mounts.filterM fun mount => prefixMatches path mount.windows
  some (lastMax windowsKey mounts)

/-- `best_posix_mount`. -/
def bestPosixMount (mapper : PathMapper) (path : List Char) : Option (Option Mount) := do
  let mounts ← mapper.mounts.filterM fun mount => prefixMatches path mount.posix
  some (lastMax posixKey mounts)

/-- What `split_cygdrive` looks for a drive in. -/
def cygdriveRest (mapper : PathMapper) (path : List Char) : Option (Option (List Char)) :=
  if "/proc/cygdrive/".toList.isPrefixOf path then some (some (path.drop 15))
  else if mapper.cygdrive = ['/'] then
    some (if path.head? = some '/' then some path.tail else none)
  else do
    let rest ← stripPrefixAscii path (trimEnd '/' mapper.cygdrive)
    some (rest.bind fun rest => if rest.head? = some '/' then some rest.tail else none)

/-- `split_cygdrive`. -/
def splitCygdrive (mapper : PathMapper) (path : List Char) : Option (Option (Char × List Char)) := do
  let rest ← mapper.cygdriveRest path
  some (rest.bind fun rest =>
    match rest with
    | [] => none
    | drive :: tail =>
      if drive.isAlpha && (tail.isEmpty || tail.head? == some '/') then some (drive, tail) else none)

/-- Where a drive's paths are, without the slash behind. -/
def driveBase (mapper : PathMapper) (drive : Char) : List Char :=
  if mapper.cygdrive = ['/'] then ['/', drive]
  else trimEnd '/' mapper.cygdrive ++ ['/', drive]

/-- `windows_to_posix`. -/
def windowsToPosix (mapper : PathMapper) (input : List Char) : Option (List Char) :=
  if input = [] ∨ isWindowsAbsolute input = false then some input
  else do
    let normalized := normalizeWindows input
    match ← mapper.bestWindowsMount normalized with
    | some mount =>
      let tail ← sliceFrom normalized (utf8Len mount.windows)
      some (appendTail mount.posix tail)
    | none =>
      match ← splitDrive normalized with
      | some (drive, tail) => some (appendTail (mapper.driveBase drive.toLower) tail)
      | none =>
        if "//".toList.isPrefixOf normalized then some ("//".toList ++ normalized.drop 2)
        else some input

/-- The Windows path of what is behind a mount's point. -/
def throughMount (mount : Mount) (path : List Char) : Option (List Char) := do
  let tail ← sliceFrom path (utf8Len mount.posix)
  some (appendWindowsTail mount.windows tail)

/-- `posix_to_windows`. -/
def posixToWindows (mapper : PathMapper) (input : List Char) : Option (List Char) :=
  if input = [] ∨ input.head? ≠ some '/' then some input
  else do
    let normalized := normalizePosix input
    let best ← mapper.bestPosixMount normalized
    match best.filter (·.posix ≠ ['/']) with
    | some mount => throughMount mount normalized
    | none =>
      -- drives take precedence over the mount at `/`
      match ← mapper.splitCygdrive normalized with
      | some (drive, tail) => some (appendWindowsTail [drive.toUpper, ':', '\\'] tail)
      | none =>
        if "//".toList.isPrefixOf normalized then some (backslashed normalized)
        else
          match best with
          | some mount => throughMount mount normalized
          | none => some input

/-- `add_mount`. -/
def addMount (mapper : PathMapper) (windows posix : List Char) : PathMapper :=
  let windows := normalizeWindows windows
  let posix := normalizePosix posix
  if windows = [] ∨ posix.head? ≠ some '/' then mapper
  else
    { mapper with
      -- a later entry replaces the one at the same mountpoint
      mounts := mapper.mounts.filter (fun mount => !eqAscii mount.posix posix) ++
        [⟨windows, posix, mapper.nextPrecedence⟩]
      nextPrecedence := mapper.nextPrecedence + 1 }

/-- `new`; `join` is `Path::join` of the platform. -/
def new (join : List Char → List Char → List Char) (kind : RuntimeKind) (root : List Char)
    (subsystem : Option (List Char)) : PathMapper :=
  let mapper : PathMapper :=
    { mounts := []
      cygdrive := if kind = .cygwin then "/cygdrive".toList else ['/']
      userTemp := none
      nextPrecedence := 0 }
  let mapper := mapper.addMount root ['/']
  let usrDir := if kind = .cygwin then root else join root "usr".toList
  let mapper :=
    if kind = .msys then mapper.addMount (join usrDir "bin".toList) "/bin".toList else mapper
  let mapper := mapper.addMount (join usrDir "bin".toList) "/usr/bin".toList
  let mapper := mapper.addMount (join usrDir "lib".toList) "/usr/lib".toList
  match subsystem with
  | some subsystem =>
    if kind = .msys ∧ eqAscii subsystem "MSYS".toList = false then
      mapper.addMount (join root (folded subsystem)) ('/' :: folded subsystem)
    else mapper
  | none => mapper

end PathMapper

/-- `FstabEntry`. -/
inductive FstabEntry where
  | mount (native posix : List Char) (bind : Bool)
  | cygdrive (point : List Char)
  | usertemp (point : List Char)

namespace PathMapper

/-- One entry of `apply_fstab`. -/
def applyEntry (join : List Char → List Char → List Char) (root : List Char)
    (mapper : PathMapper) (entry : FstabEntry) : Option PathMapper :=
  match entry with
  | .cygdrive point => some { mapper with cygdrive := normalizePosix point }
  | .usertemp point =>
    match mapper.userTemp with
    | some temp => some (mapper.addMount temp point)
    | none => some mapper
  | .mount native posix bind => do
    let native ←
      if bind then mapper.posixToWindows native
      else if isWindowsAbsolute native then some (normalizeWindows native)
      else some (normalizeWindows (join root native))
    if isWindowsAbsolute native = false then some mapper else some (mapper.addMount native posix)

end PathMapper

/-- The mappers that `new` and any entries of fstab files make. -/
inductive Built (join : List Char → List Char → List Char) : PathMapper → Prop
  | new (kind : RuntimeKind) (root : List Char) (subsystem userTemp : Option (List Char)) :
      Built join { PathMapper.new join kind root subsystem with userTemp := userTemp }
  | entry {mapper mapper' : PathMapper} {root : List Char} {entry : FstabEntry}
      (h : Built join mapper) (happly : mapper.applyEntry join root entry = some mapper') :
      Built join mapper'

end Mise.WindowsPosix
