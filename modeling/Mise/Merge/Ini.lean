/-
# Setting some keys of an INI file

`crates/mise-util/src/ini_merge.rs`.  A file is parsed line by line: a line that
is indented further than the key above it continues that key's value, blank
lines and comments belong to a value only if it goes on after them, and a key or
a section that is repeated has its last value.  A merge edits the lines of the
target: it replaces the lines of keys that the source sets to another value, and
inserts those of keys and sections that the target lacks.

Offsets are in bytes, as in the source; all slices are at boundaries of
characters except the one in `entry_lines`, which takes the whole line where
that fails.
-/

import Mathlib.Data.List.ModifyLast
import Mathlib.Logic.Function.Basic
import Mise.Lib.IndexMap
import Mise.Lib.Lines
import Mise.Lib.Utf8
import Mise.Text

namespace Mise.Ini

open Lib String

/-! ### Lines -/

/-- A line without its ending. -/
abbrev Line := List Char

/-- `str::trim_start`. -/
def trimStart (l : Line) : Line := l.dropWhile isWhitespace

/-- `str::trim_end`. -/
def trimEnd (l : Line) : Line := (l.reverse.dropWhile isWhitespace).reverse

/-- `str::trim`. -/
def trimLine (l : Line) : Line := trimEnd (trimStart l)

/-- The bytes of white space before a line's text. -/
def indentation (l : Line) : ℕ := utf8Len l - utf8Len (trimStart l)

/-- Whether a line is blank. -/
def isBlank (l : Line) : Bool := (trimLine l).isEmpty

/-- Whether a trimmed line starts a comment. -/
def startsComment (l : Line) : Bool := l.head? = some '#' || l.head? = some ';'

/-- Whether a line is a comment. -/
def isComment (l : Line) : Bool := startsComment (trimStart l)

/-- `BOM`. -/
def bom : Char := '\uFEFF'

/-! ### Documents -/

/-- `Entry`. -/
structure Entry where
  key : Line
  value : Option Line
  /-- `prefix`: the key line up to where its value starts. -/
  lead : Option Line
  indent : ℕ
  start : ℕ
  /-- `end`. -/
  stop : ℕ
  deriving DecidableEq

/-- `Section`. -/
structure Section where
  name : Option Line
  header : Option ℕ
  entries : List Entry
  deriving DecidableEq

/-- `Doc`. -/
structure Doc where
  lines : List Line
  sections : List Section
  deriving DecidableEq

/-! ### Parsing -/

/-- The variables of `parse`. -/
structure ParseState where
  sections : List Section
  current : Section
  /-- `open`: the indent of the key whose value the next line may continue. -/
  opened : Option ℕ
  blanks : ℕ

/-- The error `fail` makes. -/
def failure (what : String) (line : ℕ) (msg : String) : String :=
  "failed to parse the INI " ++ what ++ ": line " ++ toString (line + 1) ++ ": " ++ msg

/-- A line that continues the value above it. -/
def Entry.continue (e : Entry) (blanks : ℕ) (trimmed : Line) (i : ℕ) : Entry :=
  { e with
    value := e.value.map (· ++ List.replicate (blanks + 1) '\n' ++ trimmed)
    stop := i + 1 }

/-- The name in a section's header. -/
def headerName (trimmed : Line) : Option Line :=
  (rsplitOnce ']' trimmed).map fun parts => trimLine (parts.1.drop 1)

/-- Whether a character ends the key of a line. -/
def isDelimiter (c : Char) : Bool := c = '=' || c = ':'

/-- The entry that a key's line starts. -/
def keyLine (line : Line) (i : ℕ) : Entry :=
  let rest := trimStart line
  let before := rest.takeWhile (!isDelimiter ·)
  match rest.dropWhile (!isDelimiter ·) with
  | delim :: after =>
    let value := trimLine after
    let space := after.takeWhile isWhitespace
    { key := trimLine before
      value := some value
      lead := some (line.takeWhile isWhitespace ++ before ++ delim :: space ++
        if value.isEmpty && space.isEmpty then [' '] else [])
      indent := indentation line
      start := i
      stop := i + 1 }
  | [] =>
    { key := trimLine rest
      value := none
      lead := none
      indent := indentation line
      start := i
      stop := i + 1 }

/-- The turn of `parse` for one line. -/
def parseLine (what : String) (st : ParseState) (i : ℕ) (line : Line) :
    Except String ParseState :=
  let trimmed := trimLine line
  if trimmed.isEmpty then
    .ok { st with blanks := st.blanks + 1 }
  else if startsComment trimmed then
    .ok st
  else if !st.current.entries.isEmpty && st.opened.any (· < indentation line) then
    .ok { st with
      current := { st.current with
        entries := st.current.entries.modifyLast (·.continue st.blanks trimmed i) }
      blanks := 0 }
  else if trimmed.head? = some '[' then
    match headerName trimmed with
    | none => .error (failure what i "a section header needs a closing ]")
    | some name =>
      if name.isEmpty then
        .error (failure what i "a section needs a name")
      else
        .ok ⟨st.sections ++ [st.current], ⟨some name, some i, []⟩, none, 0⟩
  else
    let entry := keyLine line i
    if entry.key.isEmpty then
      .error (failure what i "a key needs a name")
    else
      .ok { st with
        current := { st.current with entries := st.current.entries ++ [entry] }
        opened := entry.value.map fun _ => entry.indent
        blanks := 0 }

/-- The loop of `parse`, from line `i` on. -/
def parseLines (what : String) : ParseState → ℕ → List Line → Except String ParseState
  | st, _, [] => .ok st
  | st, i, line :: rest => do
    let st ← parseLine what st i line
    parseLines what st (i + 1) rest

/-- A text without the byte order mark it may start with. -/
def stripBom : List Char → List Char
  | c :: cs => if c = bom then cs else c :: cs
  | [] => []

/-- The variables of `parse` before the first line. -/
def ParseState.start : ParseState := ⟨[], ⟨none, none, []⟩, none, 0⟩

/-- `parse`. -/
def parse (text : List Char) (what : String) : Except String Doc := do
  let ls := lines (stripBom text)
  let st ← parseLines what .start 0 ls
  return ⟨ls, st.sections ++ [st.current]⟩

/-! ### Queries -/

/-- `Effective`. -/
abbrev Effective := IndexMap (Option Line) (IndexMap Line Entry)

namespace Doc

/-- `Doc::effective`. -/
def effective (d : Doc) : Effective :=
  d.sections.foldl (fun out s =>
    if s.header.isNone && s.entries.isEmpty then
      out
    else
      let keys := (out.get s.name).getD .empty
      out.insert s.name (s.entries.foldl (fun keys e => keys.insert e.key e) keys)) .empty

/-- `Doc::has_section`. -/
def hasSection (d : Doc) (name : Option Line) : Bool :=
  name.isNone || d.sections.any (·.name = name)

/-- `Doc::get`. -/
def get (d : Doc) (name : Option Line) (key : Line) : Option Entry :=
  ((d.sections.reverse.filter (·.name = name)).flatMap (·.entries.reverse)).find? (·.key = key)

/-- `Doc::header_line`. -/
def headerLine (d : Doc) (name : Line) : Line :=
  match (d.sections.find? (·.name = some name)).bind (·.header) with
  | some h => d.lines.getD h []
  | none => []

/-- `Doc::indent_of`. -/
def indentOf (d : Doc) (e : Entry) : Line :=
  ((splitAtByte (d.lines.getD e.start []) e.indent).map Prod.fst).getD []

/-- An entry's line with its key moved to `indent`. -/
def entryLine (e : Entry) (indent line : Line) : Line :=
  if isBlank line then
    []
  else
    let space := indentation line
    indent ++ ((splitAtByte line (min space e.indent)).map Prod.snd).getD line

/-- `Doc::entry_lines`. -/
def entryLines (d : Doc) (e : Entry) (indent : Line) : List Line :=
  ((d.lines.drop e.start).take (e.stop - e.start)).map (entryLine e indent)

/-- The loop of `insert_point` that steps over comments. -/
def aboveComments (d : Doc) : ℕ → ℕ
  | 0 => 0
  | n + 1 => if isComment (d.lines.getD n []) then d.aboveComments n else n + 1

/-- `Doc::insert_point`. -/
def insertPoint (d : Doc) (name : Option Line) : ℕ × Line :=
  match (d.sections.reverse.find? (·.name = name)).map fun s => (s.entries.getLast?, s.header) with
  | some (some entry, _) => (entry.stop, d.indentOf entry)
  | some (none, some header) => (header + 1, [])
  | _ =>
    match d.sections.findSome? (·.header) with
    | none => (d.lines.length, [])
    | some header => (d.aboveComments header, [])

end Doc

/-- `contains`. -/
def contains (target source : List Char) : Except String Bool := do
  let t ← parse target "target"
  let s ← parse source "source"
  return s.effective.entries.all fun sec =>
    t.hasSection sec.1 && sec.2.entries.all fun setting =>
      (t.get sec.1 setting.1).any (·.value = setting.2.value)

/-! ### Merging -/

/-- The lines to write in place of others, by their start, and before others. -/
structure Edits where
  replace : ℕ → Option (ℕ × List Line)
  insert : ℕ → List Line

/-- More lines before line `i`. -/
def Edits.extend (e : Edits) (i : ℕ) (ls : List Line) : Edits :=
  { e with insert := Function.update e.insert i (e.insert i ++ ls) }

/-- The key line of `replacement`. -/
def replacedKeyLine (indent : Line) (existing : Entry) (first : Option Line) : Line :=
  match existing.lead, first with
  | _, none => indent ++ existing.key
  | some lead, some [] => trimEnd lead
  | some lead, some value => lead ++ value
  | none, some [] => indent ++ existing.key ++ [' ', '=']
  | none, some value => indent ++ existing.key ++ [' ', '=', ' '] ++ value

/-- `replacement`. -/
def replacement (t : Doc) (existing : Entry) (s : Doc) (entry : Entry) : List Line :=
  let indent := t.indentOf existing
  let first := entry.value.map fun v => (lines v).headD []
  (s.entryLines entry indent).set 0 (replacedKeyLine indent existing first) ++
    ((t.lines.drop (existing.start + 1)).take (existing.stop - (existing.start + 1))).filter
      isComment

/-- The turn of `merge` for one key of a section that the target has. -/
def mergeKey (t s : Doc) (name : Option Line) (place : ℕ × Line) (e : Edits)
    (setting : Line × Entry) : Edits :=
  match t.get name setting.1 with
  | some existing =>
    if existing.value = setting.2.value then
      e
    else
      { e with
        replace := Function.update e.replace existing.start
          (some (existing.stop, replacement t existing s setting.2)) }
  | none =>
    e.extend place.1 (s.entryLines setting.2 place.2)

/-- The turn of `merge` for one section that the target has. -/
def mergeSection (t s : Doc) (e : Edits) (name : Option Line) (keys : IndexMap Line Entry) :
    Edits :=
  let place := t.insertPoint name
  let e' := keys.entries.foldl (mergeKey t s name place) e
  let topLevelAboveHeader := name.isNone && t.sections.head?.any (·.entries.isEmpty) &&
    place.1 < t.lines.length && !isBlank (t.lines.getD place.1 [])
  if topLevelAboveHeader && (e.insert place.1).length < (e'.insert place.1).length then
    e'.extend place.1 [[]]
  else
    e'

/-- The turn of `merge` for one section that the target lacks. -/
def addSection (t s : Doc) (e : Edits) (name : Option Line) (keys : IndexMap Line Entry) : Edits :=
  match name with
  | none => e
  | some name =>
    let written := e.insert t.lines.length
    let blank := if (written.getLast?.or t.lines.getLast?).any (!isBlank ·) then [[]] else []
    e.extend t.lines.length (blank ++ s.headerLine name ::
      keys.entries.flatMap fun setting => s.entryLines setting.2 [])

/-- The edits of the sections that the target has. -/
def presentEdits (t s : Doc) : Edits :=
  (s.effective.entries.filter fun sec => t.hasSection sec.1).foldl
    (fun e sec => mergeSection t s e sec.1 sec.2) ⟨fun _ => none, fun _ => []⟩

/-- The edits that `merge` makes.  The sections that the target lacks are kept
in `new_sections` and written last. -/
def edits (t s : Doc) : Edits :=
  (s.effective.entries.filter fun sec => !t.hasSection sec.1).foldl
    (fun e sec => addSection t s e sec.1 sec.2) (presentEdits t s)

/-- The loop of `merge` over the target's lines, from line `i` on.  Of a
replaced range, `skip` lines are still to come. -/
def Edits.apply (e : Edits) : ℕ → ℕ → List Line → List Line
  | i, 0, [] => e.insert i
  | i, 0, line :: rest =>
    e.insert i ++
      match e.replace i with
      | some (stop, replaced) => replaced ++ e.apply (i + 1) (stop - (i + 1)) rest
      | none => line :: e.apply (i + 1) 0 rest
  | i, skip + 1, _ :: rest => e.apply (i + 1) skip rest
  | _, _ + 1, [] => []

/-- The text of a merged file, with the endings of the target. -/
def finish (target : List Char) (out : List Line) : List Char :=
  let nl := ending (hasCrlf target)
  (if target.head? = some bom then [bom] else []) ++ nl.intercalate out ++
    if target.isEmpty || target.getLast? = some '\n' then nl else []

/-- `merge`. -/
def merge (target source : List Char) : Except String (List Char) := do
  let t ← parse target "target"
  let s ← parse source "source"
  return finish target ((edits t s).apply 0 0 t.lines)

end Mise.Ini
