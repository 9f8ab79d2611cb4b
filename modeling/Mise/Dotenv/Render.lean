/-
# Rendering dotenv assignments

`crates/mise-dotenv/src/render.rs`.

A value is written as it is when the parser reads it back unchanged, and in
double quotes otherwise.  `is_unquoted_safe` decides that by three scans: one
of the last character, one that follows the parser's loop over an unquoted
value, and one that looks for an escape the parser would decode.
-/

import Mise.Dotenv.Parse

namespace Mise
namespace Dotenv

inductive RenderError where
  | emptyKey
  | invalidKeyCharacter (character : Char)
  | invalidValueCharacter (character : Char)
  deriving DecidableEq, Repr

/-- `has_closing_quote`. -/
def hasClosingQuote (quote : Char) : Bool → List Char → Bool
  | _, [] => false
  | escaped, c :: cs =>
    if escaped then hasClosingQuote quote false cs
    else if c == '\\' && quote == '"' then hasClosingQuote quote true cs
    else if c == quote then true
    else hasClosingQuote quote false cs

/-- The first loop of `is_unquoted_safe`. -/
def scansUnquoted : Bool → Option Char → List Char → Bool
  | _, _, [] => true
  | escaped, previous, c :: cs =>
    if c == '\x00' || isNewline c then false
    else if isQuote c && !escaped && hasClosingQuote c false cs then false
    else if c == '#' && previous.all isHorizontalWhitespace && !escaped then false
    else scansUnquoted (c == '\\' && !escaped) (some c) cs

/-- An escape that the parser decodes in an unquoted value. -/
def isDecodedEscape (c : Char) : Bool :=
  c == '\\' || c == '\'' || c == '"' || c == '$' || c == '#' || c == ' ' || c == '\t'

/-- The second loop of `is_unquoted_safe`. -/
def hasNoDecodedEscape : List Char → Bool
  | [] => true
  | [_] => true
  | c :: e :: cs =>
    if c != '\\' then hasNoDecodedEscape (e :: cs)
    else if isDecodedEscape e then false
    else hasNoDecodedEscape cs

/-- The check of `is_unquoted_safe` on the last character, of a value taken
from its last character backwards: white space that no backslash escapes. -/
def endsInBareWhitespace : List Char → Bool
  | [] => false
  | last :: before =>
    isHorizontalWhitespace last && (before.takeWhile (· == '\\')).length % 2 == 0

/-- `is_unquoted_safe`. -/
def isUnquotedSafe (value : List Char) : Bool :=
  match value with
  | [] => true
  | first :: _ =>
    if isQuote first || first == '#' || isNewline first || isHorizontalWhitespace first then false
    else if endsInBareWhitespace value.reverse then false
    else scansUnquoted false none value && hasNoDecodedEscape value

/-- What `render_value` writes for a character of a quoted value. -/
def renderCharacter (c : Char) : List Char :=
  match c with
  | '\x07' => ['\\', 'a']
  | '\x08' => ['\\', 'b']
  | '\x0c' => ['\\', 'f']
  | '\n' => ['\\', 'n']
  | '\r' => ['\\', 'r']
  | '\t' => ['\\', 't']
  | '\x0b' => ['\\', 'v']
  | '\\' => ['\\', '\\']
  | '"' => ['\\', '"']
  | '$' => ['\\', '$']
  | _ => [c]

/-- `render_value`. -/
def renderValue (value : String) : Except RenderError (List Char) :=
  if '\x00' ∈ value.toList then .error (.invalidValueCharacter '\x00')
  else if isUnquotedSafe value.toList then .ok value.toList
  else .ok ('"' :: (value.toList.flatMap renderCharacter ++ ['"']))

/-- A character that `validate_key` refuses anywhere in a key. -/
def isInvalidInKey (c : Char) : Bool := c == '=' || c == '#' || isWhitespace c || isControl c

/-- `validate_key`. -/
def validateKey (key : String) : Except RenderError Unit :=
  if key.toList.isEmpty then .error .emptyKey
  else if key.toList.head? = some '\uFEFF' then .error (.invalidKeyCharacter '\uFEFF')
  else match key.toList.find? isInvalidInKey with
  | some c => .error (.invalidKeyCharacter c)
  | none => .ok ()

/-- `render_var`. -/
def renderVar (key value : String) : Except RenderError (List Char) :=
  (validateKey key).bind fun _ =>
    (renderValue value).map fun value => key.toList ++ '=' :: value

/-- The loop of `render` over the variables left, after `document`. -/
def renderLoop (document : List Char) : List (String × String) → Except RenderError (List Char)
  | [] => .ok document
  | (key, value) :: vars =>
    let document := if document.isEmpty then document else document ++ ['\n']
    (renderVar key value).bind fun rendered => renderLoop (document ++ rendered) vars

/-- `render`. -/
def render (vars : List (String × String)) : Except RenderError String :=
  (renderLoop [] vars).map String.ofList

end Dotenv
end Mise
