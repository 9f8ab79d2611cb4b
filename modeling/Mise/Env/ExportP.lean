/-
# Reading `export -p`

`crates/mise-util/src/env_diff.rs`: after a script was sourced, bash prints the
exported variables with `export -p`.  `parse_export_p` cuts that text into
declarations, `normalize_escape_sequences` takes the quotes off a value and
decodes it.  What panics in the source is `none` here.

`exportP` is the text that bash prints for an environment: one `declare -x` per
variable, the value in double quotes or in the `$'...'` form.
-/

import Mise.Lib.BTreeMap
import Mise.Lib.Lines
import Mise.Text

namespace Mise.ExportP

open Lib

/-! ### The parser -/

/-- What every declaration begins with. -/
def declareX : List Char := ['d', 'e', 'c', 'l', 'a', 'r', 'e', ' ', '-', 'x', ' ']

/-- `line.strip_prefix("declare -x ")`. -/
def stripDeclare (line : List Char) : Option (List Char) :=
  if declareX <+: line then some (line.drop declareX.length) else none

/-- `DEFAULT_IGNORE_KEYS` and `PATH`, the keys that are ignored by default. -/
def defaultIgnoreKeys : List (List Char) :=
  ["_", "SHLVL", "PWD", "OLDPWD", "HOME", "USER", "SHELL", "SHELLOPTS", "COMP_WORDBREAKS", "PS1",
    "PROMPT_DIRTRIM", "PATH"].map String.toList

/-- `invalid_key`: keys that are ignored, and those of exported functions. -/
def invalidKey (ignoreKeys : List (List Char)) (k : List Char) : Bool :=
  k.isEmpty || ignoreKeys.contains k || "BASH_FUNC_".toList.isPrefixOf k || [' '].isPrefixOf k

/-- The loop's state: the variables so far, and the one that a line continues. -/
structure ParseState where
  additions : BTreeMap (List Char) (List Char)
  curKey : Option (List Char)

/-- A turn of the loop over the lines. -/
def parseLine (ignoreKeys : List (List Char)) (s : ParseState) (line : List Char) :
    Option ParseState :=
  match stripDeclare line with
  | some decl =>
    -- a new declaration always ends any continuation
    match splitOnce '=' decl with
    | none => some { s with curKey := none }
    | some (k, v) =>
      if invalidKey ignoreKeys k then some { s with curKey := none }
      else some ⟨s.additions.insert k v, some k⟩
  | none =>
    match s.curKey with
    | none => some s
    | some k => s.additions[k]?.map fun v => ⟨s.additions.insert k (v ++ '\n' :: line), some k⟩

/-- The exported variables, each with its value as it was printed. -/
def parseExportP (ignoreKeys : List (List Char)) (out : List Char) :
    Option (BTreeMap (List Char) (List Char)) :=
  ((lines out).foldlM (parseLine ignoreKeys) ⟨∅, none⟩).map ParseState.additions

/-- What an escaped character stands for. -/
def escapeValue (val : Char) : List Char :=
  match val with
  | 'a' => [Char.ofNat 0x07]
  | 'b' => [Char.ofNat 0x08]
  | 'e' => [Char.ofNat 0x1B]
  | 'E' => [Char.ofNat 0x1B]
  | 'f' => [Char.ofNat 0x0C]
  | 'n' => ['\n']
  | 'r' => ['\r']
  | 't' => ['\t']
  | 'v' => [Char.ofNat 0x0B]
  | '\\' => ['\\']
  | '\'' => ['\'']
  | '"' => ['"']
  | '?' => ['?']
  | '`' => ['`']
  | '$' => ['$']
  | val => ['\\', val]

/-- The loop of `normalize_escape_sequences`.  A backslash at the end is warned
about and dropped. -/
def decodeEscapes : List Char → List Char
  | [] => []
  | [c] => if c = '\\' then [] else [c]
  | c :: val :: rest =>
    if c = '\\' then escapeValue val ++ decodeEscapes rest else c :: decodeEscapes (val :: rest)

/-- `&input[n..input.len() - 1]`: the slice panics where it would end before it
begins. -/
def slice (n : ℕ) (input : List Char) : Option (List Char) :=
  if n ≤ input.length - 1 then some (input.dropLast.drop n) else none

/-- `normalize_escape_sequences`. -/
def normalizeEscapeSequences (input : List Char) : Option (List Char) :=
  if input.head? = some '"' ∧ input.getLast? = some '"' then (slice 1 input).map decodeEscapes
  else if ['$', '\''] <+: input ∧ input.getLast? = some '\'' then
    (slice 2 input).map decodeEscapes
  else some (decodeEscapes input)

/-! ### What bash prints -/

/-- A character in double quotes. -/
def quoteChar (c : Char) : List Char :=
  if c ∈ ['\\', '"', '$', '`'] then ['\\', c] else [c]

/-- A byte as an octal escape. -/
def octal (b : ℕ) : List Char :=
  ['\\', Nat.digitChar (b / 64 % 8), Nat.digitChar (b / 8 % 8), Nat.digitChar (b % 8)]

/-- The escapes of C, each with the character that it is written for. -/
def cEscapes : List (Char × Char) :=
  [(Char.ofNat 0x07, 'a'), (Char.ofNat 0x08, 'b'), (Char.ofNat 0x1B, 'E'), (Char.ofNat 0x0C, 'f'),
    ('\n', 'n'), ('\r', 'r'), ('\t', 't'), (Char.ofNat 0x0B, 'v'), ('\\', '\\'), ('\'', '\'')]

/-- A character in the `$'...'` form: the escapes of C, and octal escapes for the
bytes of the other control characters. -/
def ansiChar (c : Char) : List Char :=
  match cEscapes.lookup c with
  | some e => ['\\', e]
  | none =>
    if isControl c then
      if c.toNat < 0x80 then octal c.toNat else octal 0xC2 ++ octal c.toNat
    else [c]

/-- The two ways a value is printed. -/
inductive Form where
  | doubleQuoted
  | ansi
  deriving DecidableEq

/-- A letter, a digit or an underscore. -/
def isNameChar (c : Char) : Bool :=
  ('a' ≤ c && c ≤ 'z') || ('A' ≤ c && c ≤ 'Z') || ('0' ≤ c && c ≤ '9') || c = '_'

/-- An exported variable with a valid name and a value without NUL, and the form
that its value is printed in. -/
structure Variable where
  name : List Char
  value : List Char
  form : Form
  name_ne : name ≠ []
  name_word : ∀ c ∈ name, isNameChar c
  value_text : Char.ofNat 0 ∉ value

/-- The value as it is printed. -/
def Variable.printed (var : Variable) : List Char :=
  match var.form with
  | .doubleQuoted => '"' :: (var.value.flatMap quoteChar ++ ['"'])
  | .ansi => '$' :: '\'' :: (var.value.flatMap ansiChar ++ ['\''])

/-- The declaration of a variable. -/
def Variable.declaration (var : Variable) : List Char :=
  declareX ++ (var.name ++ '=' :: (var.printed ++ ['\n']))

/-- An environment, printed in the order of the list. -/
structure Environment where
  vars : List Variable
  nodup : (vars.map Variable.name).Nodup

/-- The text that `export -p` prints. -/
def exportP (env : Environment) : List Char := env.vars.flatMap Variable.declaration

/-- The map of the variables whose keys are not rejected. -/
def Environment.kept (ignoreKeys : List (List Char)) (env : Environment) :
    BTreeMap (List Char) (List Char) :=
  (env.vars.filter fun var => !invalidKey ignoreKeys var.name).foldl
    (fun m var => m.insert var.name var.value) ∅

end Mise.ExportP
