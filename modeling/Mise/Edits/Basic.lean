/-
# Edits of text files

The block and line edits of `crates/mise-system/src/edits.rs`.  A block stands
between two marker lines that carry its id; a line edit adds one line at an end
of the file.  `apply_to_string` makes the edit, `block_state` compares what is in
the file with what the configuration wants, and `unapply_one` removes the edit.

Offsets are in characters.  What `char::is_alphanumeric` says beyond ASCII is a
parameter.
-/

import Mise.Lib.Positions
import Mise.Merge.Ini

namespace Mise.Edits

open Lib
open Ini (Line trimStart trimLine bom stripBom)

/-! ### Requests -/

/-- `LinePosition`. -/
inductive LinePosition where
  | prepend
  | append

/-- `EditOp`, without merges. -/
inductive EditOp where
  | block (comment : Line)
  | line (line : Line) (position : LinePosition)

/-- `EditRequest`. -/
structure EditRequest where
  id : Line
  op : EditOp

/-- `FileState`, as far as a comparison of contents returns it. -/
inductive FileState where
  | applied
  | differs (reason : String)

/-- Why an edit fails. -/
inductive EditError where
  /-- `block content may not contain its own marker lines`. -/
  | ownMarkers
  /-- `{reason}, fix the file manually`. -/
  | corrupted (reason : String)
  /-- The call `desired.expect("resolved block content")`. -/
  | unresolved

/-! ### Markers -/

variable (unicodeAlphanumeric : Char → Bool)

/-- `char::is_alphanumeric`. -/
def isAlphanumeric (c : Char) : Bool :=
  if c.toNat < 128 then c.isAlphanum else unicodeAlphanumeric c

/-- The IDs that `resolve_entry` accepts. -/
def acceptsId (id : Line) : Bool :=
  !id.isEmpty && id.all fun c => isAlphanumeric unicodeAlphanumeric c || c ∈ ['_', '-', '.']

/-- `>>> mise:{id} >>>`. -/
def beginPattern (id : Line) : Line :=
  ['>', '>', '>', ' ', 'm', 'i', 's', 'e', ':'] ++ id ++ [' ', '>', '>', '>']

/-- `<<< mise:{id} <<<`. -/
def endPattern (id : Line) : Line :=
  ['<', '<', '<', ' ', 'm', 'i', 's', 'e', ':'] ++ id ++ [' ', '<', '<', '<']

/-- What stands behind the pattern in a `begin_marker`. -/
def notice : Line := " managed by mise — do not edit between markers".toList

/-- `begin_marker`. -/
def beginMarker (comment id : Line) : Line := comment ++ ' ' :: (beginPattern id ++ notice)

/-- `end_marker`. -/
def endMarker (comment id : Line) : Line := comment ++ ' ' :: endPattern id

/-- `str::find`. -/
def find (pat : Line) : Line → Option ℕ
  | [] => if pat.isPrefixOf [] then some 0 else none
  | c :: cs => if pat.isPrefixOf (c :: cs) then some 0 else (find pat cs).map (· + 1)

/-- The generic tokens that may stand in front of a marker. -/
def isShort (start : Line) : Bool :=
  String.utf8Len start ≤ 8 && !start.any (isAlphanumeric unicodeAlphanumeric)

/-- `is_marker_line`. -/
def isMarkerLine (line pat comment : Line) : Bool :=
  let trimmed := trimStart line
  match find pat trimmed with
  | some idx =>
    let start := trimLine (trimmed.take idx)
    start == comment || isShort unicodeAlphanumeric start
  | none => false

/-- `find_block`. -/
def findBlock (lines : List Line) (id comment : Line) : Except String (Option (ℕ × ℕ)) :=
  let begins := positions (isMarkerLine unicodeAlphanumeric · (beginPattern id) comment) lines
  let ends := positions (isMarkerLine unicodeAlphanumeric · (endPattern id) comment) lines
  match begins, ends with
  | [], [] => .ok none
  | [b], [e] =>
    if b < e then .ok (some (b, e)) else .error "end marker appears before begin marker"
  | [], _ => .error "end marker without begin marker"
  | _, [] => .error "begin marker without end marker"
  | _, _ => .error "duplicate markers"

/-! ### Applying -/

/-- `str::trim_end_matches('\n')`. -/
def trimNewlines (content : Line) : Line := (content.reverse.dropWhile (· = '\n')).reverse

/-- The end of `desired_content`, for the content of a block. -/
def desiredContent (id comment content : Line) : Except EditError Line :=
  let content := trimNewlines content
  let own (pat : Line) := (lines content).any (isMarkerLine unicodeAlphanumeric · pat comment)
  if own (beginPattern id) || own (endPattern id) then .error .ownMarkers else .ok content

/-- `lines.join("\n")` and a line feed. -/
def joinLines (ls : List Line) : Line := ['\n'].intercalate ls ++ ['\n']

/-- The lines of a block. -/
def blockLines (comment id desired : Line) : List Line :=
  beginMarker comment id :: (if desired.isEmpty then [] else lines desired) ++
    [endMarker comment id]

/-- The arm of `apply_to_string` for a block. -/
def applyBlock (id comment desired text : Line) : Except EditError Line :=
  let ls := lines text
  let block := blockLines comment id desired
  match findBlock unicodeAlphanumeric ls id comment with
  | .ok (some (b, e)) => .ok (joinLines (ls.take b ++ block ++ ls.drop (e + 1)))
  | .ok none => .ok (joinLines (ls ++ block))
  | .error reason => .error (.corrupted reason)

/-- The line ending that a line edit uses: the one of the first line. -/
def newline (body : Line) : Line :=
  match splitOnce '\n' body with
  | some (first, _) => ending (endsCr first)
  | none => ending false

/-- A text from its byte order mark, which may be missing, and the rest. -/
def splitBom : Line → Line × Line
  | c :: cs => if c = bom then ([bom], cs) else ([], c :: cs)
  | [] => ([], [])

/-- The arm of `apply_to_string` for a line. -/
def applyLine (line : Line) (position : LinePosition) (text : Line) : Line :=
  let mark := (splitBom text).1
  let body := (splitBom text).2
  if line ∈ lines body then text
  else
    match position with
    | .prepend =>
      if body.isEmpty then mark ++ line ++ newline body
      else mark ++ line ++ newline body ++ body
    | .append =>
      if body.isEmpty then mark ++ line ++ newline body
      else if text.getLast? = some '\n' then text ++ line ++ newline body
      else text ++ newline body ++ line ++ newline body

/-- `apply_to_string`. -/
def applyToString (req : EditRequest) (desired : Option Line) (text : Line) :
    Except EditError Line :=
  match req.op with
  | .block comment =>
    match desired with
    | some desired => applyBlock unicodeAlphanumeric req.id comment desired text
    | none => .error .unresolved
  | .line line position => .ok (applyLine line position text)

/-- `block_state`, for a block. -/
def blockState (id comment desired text : Line) : FileState :=
  let ls := lines text
  match findBlock unicodeAlphanumeric ls id comment with
  | .ok (some (b, e)) =>
    let current := ['\n'].intercalate ((ls.take e).drop (b + 1))
    if current = desired then .applied else .differs "block content differs"
  | _ => .differs "markers changed during check"

/-! ### Removing -/

/-- `TextLine`. -/
structure TextLine where
  content : Line
  start : ℕ
  finish : ℕ

/-- A line of a text without its ending; a carriage return at its end is always dropped. -/
def withoutEnding (raw : Line) : Line :=
  stripCr (if raw.getLast? = some '\n' then raw.dropLast else raw)

/-- The line that is read at an offset: a byte order mark is not part of the first one. -/
def textLine (offset : ℕ) (raw : Line) : TextLine :=
  let content := withoutEnding raw
  if offset = 0 ∧ content.head? = some bom then ⟨content.tail, 1, raw.length⟩
  else ⟨content, offset, offset + raw.length⟩

/-- The lines from an offset on. -/
def textLinesFrom : ℕ → List Line → List TextLine
  | _, [] => []
  | offset, raw :: raws => textLine offset raw :: textLinesFrom (offset + raw.length) raws

/-- `text_lines`. -/
def textLines (text : Line) : List TextLine := textLinesFrom 0 (rawLines text)

/-- `String::replace_range`, with nothing. -/
def removeRange (text : Line) (start finish : ℕ) : Line := text.take start ++ text.drop finish

/-- `unapply_one`: the text that is written. -/
def unapplyOne (req : EditRequest) (text : Line) : Except EditError Line :=
  let ls := textLines text
  match req.op with
  | .block comment =>
    match findBlock unicodeAlphanumeric (ls.map TextLine.content) req.id comment with
    | .ok (some (b, e)) =>
      match ls[b]?, ls[e]? with
      | some first, some last => .ok (removeRange text first.start last.finish)
      | _, _ => .ok text
    | .ok none => .ok text
    | .error reason => .error (.corrupted reason)
  | .line line position =>
    let found :=
      match position with
      | .prepend => ls.find? fun candidate : TextLine => candidate.content = line
      | .append => ls.reverse.find? fun candidate : TextLine => candidate.content = line
    match found with
    | some found => .ok (removeRange text found.start found.finish)
    | none => .ok text

end Mise.Edits
