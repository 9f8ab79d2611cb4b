/-
# Load commands of Mach-O files

`mise-brew-relocation/src/macho.rs`: the placeholders in the path strings of a
Mach-O file's load commands are replaced, and a command whose new path does not
fit grows.  Growth takes the padding between the table of load commands and the
first section's data, so that nothing behind moves.

An access out of range panics; the loop of `replace_all`, which starts again
from the front after every replacement, takes fuel.
-/

import Mise.Lib.Image
import Mise.Relocation.Binary

namespace Mise.Relocation

open Lib

namespace MachO

/-- Why a file is refused. -/
inductive PatchError where
  | malformedHeader
  | malformedTable
  | malformedCommand
  | malformedFatHeader
  | malformedFatArch
  | notEnoughPadding (needed firstData : ℕ)
  deriving DecidableEq

/-- How the patcher stops without a result: it refuses the file, it panics, or
it runs out of fuel. -/
inductive Stop where
  | refused (e : PatchError)
  | panics
  | spins
  deriving DecidableEq

/-- What is out of range panics. -/
def orPanic {α : Type} : Option α → Except Stop α
  | some a => .ok a
  | none => .error .panics

def magic64 : ℕ := 0xfeedfacf
def fatMagic : ℕ := 0xcafebabe
def headerSize64 : ℕ := 32
def lcReqDyld : ℕ := 0x80000000
def lcIdDylib : ℕ := 0xd
def lcLoadDylib : ℕ := 0xc
def lcLoadWeakDylib : ℕ := 0x18 + lcReqDyld
def lcReexportDylib : ℕ := 0x1f + lcReqDyld
def lcLazyLoadDylib : ℕ := 0x20
def lcLoadUpwardDylib : ℕ := 0x23 + lcReqDyld
def lcRpath : ℕ := 0x1c + lcReqDyld
def lcSegment64 : ℕ := 0x19

/-- `u32_at`. -/
def u32At (buf : List UInt8) (off : ℕ) : Except Stop ℕ := orPanic (readWord 4 buf off)

/-- The commands that hold a path. -/
def hasPathString (cmd : ℕ) : Bool :=
  [lcIdDylib, lcLoadDylib, lcLoadWeakDylib, lcReexportDylib, lcLazyLoadDylib, lcLoadUpwardDylib,
    lcRpath].contains cmd

/-- The loop of `replace_all` over one kind of placeholder. -/
def replaceLoop (r : Replacement) : ℕ → List UInt8 → Except Stop (List UInt8)
  | 0, _ => .error .spins
  | fuel + 1, out =>
    match memmem out r.placeholder with
    | none => .ok out
    | some pos =>
      replaceLoop r fuel (out.take pos ++ r.value ++ out.drop (pos + r.placeholder.length))

/-- `replace_all`. -/
def replaceAll (fuel : ℕ) (s : List UInt8) (replacements : List Replacement) :
    Except Stop (List UInt8) :=
  replacements.foldlM (fun out r => replaceLoop r fuel out) s

/-- The loop over the sections of a segment: the least file offset that is not
0. -/
def scanSections (slice : List UInt8) (off cmdsize : ℕ) : ℕ → ℕ → ℕ → Except Stop ℕ
  | 0, _, firstData => .ok firstData
  | n + 1, i, firstData =>
    let sect := off + 72 + i * 80
    if sect + 80 > off + cmdsize then .ok firstData
    else do
      let fileOff ← u32At slice (sect + 48)
      scanSections slice off cmdsize n (i + 1)
        (if fileOff > 0 then min firstData fileOff else firstData)

/-- The first pass over the load commands: where the first section's data is. -/
def scanCommands (slice : List UInt8) (lcEnd : ℕ) : ℕ → ℕ → ℕ → Except Stop ℕ
  | 0, _, firstData => .ok firstData
  | n + 1, off, firstData =>
    if off + 8 > lcEnd then .error (.refused .malformedTable)
    else do
      let cmd ← u32At slice off
      let cmdsize ← u32At slice (off + 4)
      if cmdsize < 8 ∨ off + cmdsize > lcEnd then .error (.refused .malformedCommand)
      else if cmd = lcSegment64 then do
        let nsects ← u32At slice (off + 64)
        let firstData ← scanSections slice off cmdsize nsects 0 firstData
        scanCommands slice lcEnd n (off + cmdsize) firstData
      else scanCommands slice lcEnd n (off + cmdsize) firstData

/-- A load command with its path replaced, and whether it changed. -/
def editCommand (fuel : ℕ) (replacements : List Replacement) (bytes : List UInt8) :
    Except Stop (List UInt8 × Bool) := do
  let cmd ← u32At bytes 0
  if hasPathString cmd then
    let strOff ← u32At bytes 8
    if strOff < bytes.length then
      let old := frontText 0 (bytes.drop strOff)
      let new ← replaceAll fuel old replacements
      if new ≠ old then
        -- rebuild the command at the (possibly larger) aligned size
        let newCmdsize := (strOff + new.length + 1 + 7) / 8 * 8
        let rebuilt := bytes.take strOff ++ new
        let rebuilt := rebuilt ++
          List.replicate (max newCmdsize bytes.length - rebuilt.length) 0
        let rebuilt ← orPanic (overwrite 4 (leBytes 4 rebuilt.length) rebuilt)
        .ok (rebuilt, true)
      else .ok (bytes, false)
    else .ok (bytes, false)
  else .ok (bytes, false)

/-- The second pass: the commands of the new table, and whether one changed. -/
def rebuildCommands (fuel : ℕ) (replacements : List Replacement) (slice : List UInt8)
    (lcEnd : ℕ) : ℕ → ℕ → Except Stop (List (List UInt8) × Bool)
  | 0, _ => .ok ([], false)
  | n + 1, off =>
    if off + 8 > lcEnd then .error (.refused .malformedTable)
    else do
      let cmdsize ← u32At slice (off + 4)
      let bytes ← orPanic
        (if off + cmdsize ≤ slice.length then some (cut off cmdsize slice) else none)
      let (bytes, edited) ← editCommand fuel replacements bytes
      let (commands, changed) ← rebuildCommands fuel replacements slice lcEnd n (off + cmdsize)
      .ok (bytes :: commands, edited || changed)

/-- The image with zeros from `start` up to `stop`. -/
def fillZero (start stop : ℕ) (slice : List UInt8) : Except Stop (List UInt8) :=
  if start ≤ stop then orPanic (overwrite start (List.replicate (stop - start) 0) slice)
  else .error .panics

/-- The new table, laid down in the slice. -/
def layTable (slice : List UInt8) (firstData : ℕ) (commands : List (List UInt8)) :
    Except Stop (List UInt8) := do
  let slice ← fillZero headerSize64 firstData slice
  let slice ← orPanic (overwrite headerSize64 commands.flatten slice)
  orPanic (overwrite 20 (leBytes 4 commands.flatten.length) slice)

/-- `patch_slice`: one 64-bit slice, in place.  Returns whether it changed. -/
def patchSlice (fuel : ℕ) (replacements : List Replacement) (slice : List UInt8) :
    Except Stop (List UInt8 × Bool) :=
  if slice.length < headerSize64 then .ok (slice, false)
  else do
    let magic ← u32At slice 0
    if magic ≠ magic64 then .ok (slice, false)
    else do
      let ncmds ← u32At slice 16
      let sizeofcmds ← u32At slice 20
      if headerSize64 + sizeofcmds > slice.length then .error (.refused .malformedHeader)
      else do
        let lcEnd := headerSize64 + sizeofcmds
        let firstData ← scanCommands slice lcEnd ncmds headerSize64 slice.length
        let (commands, changed) ← rebuildCommands fuel replacements slice lcEnd ncmds headerSize64
        if !changed then .ok (slice, false)
        else if headerSize64 + commands.flatten.length > firstData then
          .error (.refused
            (.notEnoughPadding (headerSize64 + commands.flatten.length) firstData))
        else do
          let slice ← layTable slice firstData commands
          .ok (slice, true)

/-- A big-endian word. -/
def u32BeAt (content : List UInt8) (off : ℕ) : Except Stop ℕ :=
  orPanic (if off + 4 ≤ content.length then some (leValue (cut off 4 content).reverse) else none)

/-- The ranges of a fat file's slices. -/
def fatRanges (content : List UInt8) : ℕ → ℕ → Except Stop (List (ℕ × ℕ))
  | 0, _ => .ok []
  | n + 1, i => do
    let entry := 8 + i * 20
    if entry + 20 > content.length then .error (.refused .malformedFatHeader)
    else do
      let offset ← u32BeAt content (entry + 8)
      let size ← u32BeAt content (entry + 12)
      if offset + size > content.length then .error (.refused .malformedFatArch)
      else do
        let ranges ← fatRanges content n (i + 1)
        .ok ((offset, size) :: ranges)

/-- A slice of a fat file, patched in place. -/
def patchRange (fuel : ℕ) (replacements : List Replacement) (state : List UInt8 × Bool)
    (range : ℕ × ℕ) : Except Stop (List UInt8 × Bool) := do
  let slice ← orPanic
    (if range.1 + range.2 ≤ state.1.length then some (cut range.1 range.2 state.1) else none)
  let (slice, changed) ← patchSlice fuel replacements slice
  let content ← orPanic (overwrite range.1 slice state.1)
  .ok (content, state.2 || changed)

/-- `patch`: a thin or a fat file.  Returns whether anything changed. -/
def patch (fuel : ℕ) (content : List UInt8) (replacements : List Replacement) :
    Except Stop (List UInt8 × Bool) :=
  if content.length < 8 then .ok (content, false)
  else do
    let magic ← u32BeAt content 0
    if magic = fatMagic then do
      let nfat ← u32BeAt content 4
      let ranges ← fatRanges content nfat 0
      ranges.foldlM (patchRange fuel replacements) (content, false)
    else patchSlice fuel replacements content

end MachO

end Mise.Relocation
