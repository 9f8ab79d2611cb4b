/-
# The dotenv parser

`crates/mise-dotenv/src/parse.rs`: `Parser`, its loops and its errors.

The source text and the position in it are a cursor, the characters before the
position, latest first, and those after it; a byte offset of the source is the
number of bytes before the cursor.  A loop of the source that moves one
character at a time is a recursion on the characters left; where it jumps over
a part it has already looked at, the recursion counts the characters to pass.
The loops that move by whole segments or lines take a bound on their rounds,
which the text's length always meets.

The set of names that `variable` records for its callers is left out, and so
are Windows' rules for comparing names.
-/

import Mathlib.Algebra.GroupWithZero.Nat
import Mathlib.Logic.Function.Basic
import Mise.Text

namespace Mise
namespace Dotenv

/-! ### Options, errors and styles -/

structure ParseOptions where
  substitution : Bool
  multiline : Bool
  deriving DecidableEq, Repr

inductive ParseErrorKind where
  | missingKey
  | missingEquals
  | invalidKeyCharacter (character : Char)
  | invalidValueCharacter (character : Char)
  | unterminatedQuote (quote : Char)
  | unterminatedSubstitution
  | invalidSubstitution
  | requiredVariable (name message : String)
  | multilineDisabled
  deriving DecidableEq, Repr

structure ParseError where
  kind : ParseErrorKind
  line : ℕ
  column : ℕ
  byteOffset : ℕ
  sourceLine : String
  deriving DecidableEq, Repr

inductive ValueStyle where
  | unquoted
  | singleQuoted
  | doubleQuoted
  deriving DecidableEq, Repr

def isNewline (c : Char) : Bool := c == '\n' || c == '\r'

def isQuote (c : Char) : Bool := c == '\'' || c == '"'

/-- `is_horizontal_whitespace`. -/
def isHorizontalWhitespace (c : Char) : Bool := isWhitespace c && !isNewline c

/-- `is_substitution_start`. -/
def isSubstitutionStart (c : Char) : Bool := c.isAlpha || c == '_'

/-- `is_substitution_continue`. -/
def isSubstitutionContinue (c : Char) : Bool := c.isAlphanum || c == '_'

/-! ### The cursor -/

/-- A position in the source: what stands before it, latest first, and what
stands after it. -/
structure Cursor where
  before : List Char
  rest : List Char

/-- The line number after a text and, latest first, the characters since that
line's start: `source_line_and_start`. -/
def sourceLineAndStart : List Char → ℕ → List Char → ℕ × List Char
  | [], line, start => (line, start)
  | '\r' :: '\n' :: cs, line, _ => sourceLineAndStart cs (line + 1) []
  | c :: cs, line, start =>
    if isNewline c then sourceLineAndStart cs (line + 1) []
    else sourceLineAndStart cs line (c :: start)

namespace Cursor

/-- `advance`, repeated `n` times. -/
def forward (n : ℕ) (c : Cursor) : Cursor := ⟨(c.rest.take n).reverse ++ c.before, c.rest.drop n⟩

/-- `advance` while the next character satisfies `p`. -/
def skipWhile (p : Char → Bool) (c : Cursor) : Cursor :=
  ⟨(c.rest.takeWhile p).reverse ++ c.before, c.rest.dropWhile p⟩

/-- `skip_horizontal_whitespace`. -/
def skipHorizontalWhitespace (c : Cursor) : Cursor := c.skipWhile isHorizontalWhitespace

/-- `consume_newline`, `none` when there is none. -/
def consumeNewline? (c : Cursor) : Option Cursor :=
  match c.rest with
  | '\r' :: '\n' :: _ => some (c.forward 2)
  | '\r' :: _ => some (c.forward 1)
  | '\n' :: _ => some (c.forward 1)
  | _ => none

/-- `consume_newline` where its answer is not used. -/
def consumeNewline (c : Cursor) : Cursor := c.consumeNewline?.getD c

/-- `skip_comment`. -/
def skipComment (c : Cursor) : Cursor := (c.skipWhile fun a => !isNewline a).consumeNewline

/-- `consume_export_prefix`. -/
def consumeExportPrefix (c : Cursor) : Cursor :=
  match c.rest with
  | 'e' :: 'x' :: 'p' :: 'o' :: 'r' :: 't' :: next :: _ =>
    if isHorizontalWhitespace next then (c.forward 6).skipHorizontalWhitespace else c
  | _ => c

/-- `error` at the cursor. -/
def error (c : Cursor) (kind : ParseErrorKind) : ParseError :=
  let (line, start) := sourceLineAndStart c.before.reverse 1 []
  { kind
    line
    column := start.length + 1
    byteOffset := (c.before.map Char.utf8Size).sum
    sourceLine := String.ofList ((start.reverse ++ c.rest).takeWhile fun a => !isNewline a) }

end Cursor

/-! ### Scans that only look ahead -/

/-- `quote_closes_on_line`, on what follows the quote. -/
def quoteClosesOnLine (quote : Char) : Bool → List Char → Bool
  | _, [] => false
  | escaped, c :: cs =>
    if isNewline c then false
    else if escaped then quoteClosesOnLine quote false cs
    else if c == '\\' && quote == '"' then quoteClosesOnLine quote true cs
    else if c == quote then true
    else quoteClosesOnLine quote false cs

/-- The loop of `skip_quoted_default`: how many characters there are up to and
with the closing quote. -/
def closingQuote (quote : Char) : Bool → List Char → Option ℕ
  | _, [] => none
  | escaped, c :: cs =>
    if escaped then (closingQuote quote false cs).map (· + 1)
    else if c == '\\' && quote == '"' then (closingQuote quote true cs).map (· + 1)
    else if c == quote then some 1
    else (closingQuote quote false cs).map (· + 1)

/-- `skip_quoted_default`: the number of characters of a body that it passes. -/
def skipQuotedDefault (body : List Char) : ℕ :=
  if !(body.head?.any isSubstitutionStart) then 0
  else
    let operator := body.dropWhile isSubstitutionContinue
    let operator := if operator.head? = some ':' then operator.tail else operator
    match operator with
    | sign :: quote :: word =>
      if (sign == '-' || sign == '?' || sign == '+') && isQuote quote then
        match closingQuote quote false word with
        | some n => body.length - word.length + n
        | none => 0
      else 0
    | _ => 0

/-- The loop of `find_substitution_end`; `pass` characters are passed without a
look. -/
def substitutionEnd : ℕ → ℕ → List Char → Option ℕ
  | _, _, [] => none
  | pass + 1, depth, _ :: cs => (substitutionEnd pass depth cs).map (· + 1)
  | 0, depth, c :: cs =>
    if c == '$' && cs.head? = some '{' then
      (substitutionEnd (1 + skipQuotedDefault cs.tail) (depth + 1) cs).map (· + 1)
    else if c == '\\' then (substitutionEnd 1 depth cs).map (· + 1)
    else if c == '}' then
      if depth - 1 = 0 then some 0 else (substitutionEnd 0 (depth - 1) cs).map (· + 1)
    else (substitutionEnd 0 depth cs).map (· + 1)

/-- `find_substitution_end`: how many characters of a body precede the `}` that
closes it. -/
def findSubstitutionEnd (body : List Char) : Option ℕ :=
  substitutionEnd (skipQuotedDefault body) 1 body

/-- The loop of `trim_unquoted_trailing_whitespace`, from the last character
backwards. -/
def trimReversed : List Char → List Char
  | [] => []
  | c :: cs =>
    if !isHorizontalWhitespace c then c :: cs
    else if (cs.takeWhile (· == '\\')).length % 2 = 1 then c :: cs
    else trimReversed cs

/-- `trim_unquoted_trailing_whitespace`. -/
def trimUnquotedTrailingWhitespace (value : List Char) : List Char :=
  (trimReversed value.reverse).reverse

/-- `push_escape`: what it appends. -/
def pushEscape (style : ValueStyle) (escaped : Char) : List Char :=
  let decoded : Option Char :=
    match style with
    | .doubleQuoted =>
      match escaped with
      | 'a' => some '\x07'
      | 'b' => some '\x08'
      | 'f' => some '\x0c'
      | 'n' => some '\n'
      | 'r' => some '\r'
      | 't' => some '\t'
      | 'v' => some '\x0b'
      | '\\' | '\'' | '"' | '$' => some escaped
      | _ => none
    | .singleQuoted => none
    | .unquoted =>
      match escaped with
      | '\\' | '\'' | '"' | '$' | '#' | ' ' | '\t' => some escaped
      | _ => none
  match decoded with
  | some c => [c]
  | none => ['\\', escaped]

/-! ### Substitution -/

/-- The parser's state; the reader's position is its cursor. -/
structure Parser where
  cursor : Cursor
  options : ParseOptions
  baseVariables : String → Option String
  protectedVariables : String → Option String
  parsedVariables : String → Option String
  inputOverrides : Bool
  failed : Bool

inductive Operator where
  | colonDash
  | colonQuestion
  | colonPlus
  | dash
  | question
  | plus
  deriving DecidableEq, Repr

def Operator.text : Operator → List Char
  | .colonDash => [':', '-']
  | .colonQuestion => [':', '?']
  | .colonPlus => [':', '+']
  | .dash => ['-']
  | .question => ['?']
  | .plus => ['+']

/-- The operator a remainder starts with, in the order they are tried, and the
word after it. -/
def stripOperator (remainder : List Char) : Option (Operator × List Char) :=
  [Operator.colonDash, .colonQuestion, .colonPlus, .dash, .question, .plus].findSome? fun op =>
    if op.text.isPrefixOf remainder then some (op, remainder.drop op.text.length) else none

namespace Parser

/-- `variable`, the value of a name. -/
def variableValue (p : Parser) (name : List Char) : Option (List Char) :=
  let name := String.ofList name
  let value :=
    if p.inputOverrides then
      (p.parsedVariables name).or ((p.baseVariables name).or (p.protectedVariables name))
    else
      (p.protectedVariables name).or ((p.parsedVariables name).or (p.baseVariables name))
  value.map String.toList

/-- `evaluate_substitution` of an expression at the cursor; `expandWord` is
`expand` in the same style. -/
def evaluateSubstitution (p : Parser)
    (expandWord : Cursor → List Char → Except ParseError (List Char))
    (cursor : Cursor) (expression : List Char) : Except ParseError (List Char) :=
  if expression.isEmpty then .error (cursor.error .invalidSubstitution)
  else match p.variableValue expression with
  | some value => .ok value
  | none =>
    if !(expression.head?.any isSubstitutionStart) then .error (cursor.error .invalidSubstitution)
    else
      let name := expression.takeWhile isSubstitutionContinue
      let remainder := expression.dropWhile isSubstitutionContinue
      let value := p.variableValue name
      if remainder.isEmpty then .ok (value.getD [])
      else match stripOperator remainder with
      | none => .error ((cursor.forward name.length).error .invalidSubstitution)
      | some (operator, word) =>
        let isSet := value.isSome
        let isNonempty := value.any fun v => !v.isEmpty
        let word := expandWord (cursor.forward (name.length + operator.text.length)) word
        let required := word.bind fun message =>
          .error (cursor.error (.requiredVariable (String.ofList name) (String.ofList message)))
        match operator with
        | .dash => if !isSet then word else .ok (value.getD [])
        | .colonDash => if !isNonempty then word else .ok (value.getD [])
        | .plus => if isSet then word else .ok []
        | .colonPlus => if isNonempty then word else .ok []
        | .question => if !isSet then required else .ok (value.getD [])
        | .colonQuestion => if !isNonempty then required else .ok (value.getD [])

/-- `expand_dollar`, with `raw` what follows the dollar at the cursor: the text
it appends and the number of characters of `raw` it takes. -/
def expandDollar (p : Parser) (expandWord : Cursor → List Char → Except ParseError (List Char))
    (cursor : Cursor) (raw : List Char) : Except ParseError (List Char × ℕ) :=
  match raw with
  | [] => .ok (['$'], 0)
  | '$' :: _ => .ok (['$'], 1)
  | '{' :: body =>
    match findSubstitutionEnd body with
    | none => .error (cursor.error .unterminatedSubstitution)
    | some n =>
      let expression := body.take n
      match p.evaluateSubstitution expandWord (cursor.forward 2) expression with
      | .ok expanded => .ok (expanded, n + 2)
      | .error e =>
        if e.kind = .invalidSubstitution then .ok ('$' :: '{' :: expression ++ ['}'], n + 2)
        else .error e
  | first :: _ =>
    if isSubstitutionStart first then
      let name := raw.takeWhile isSubstitutionContinue
      .ok ((p.variableValue name).getD [], name.length)
    else .ok (['$'], 0)

/-- `expand` of the raw text at the cursor.  Each round takes a character of
the text, and a default word is shorter than the text it stands in, so that the
text's length bounds the rounds. -/
def expand (p : Parser) (style : ValueStyle) :
    ℕ → Cursor → List Char → Except ParseError (List Char)
  | 0, _, _ => .ok []
  | _ + 1, _, [] => .ok []
  | fuel + 1, cursor, c :: cs =>
    if c == '\\' && style != .singleQuoted then
      match cs.head? with
      | none => .ok ['\\']
      | some escaped =>
        (p.expand style fuel (cursor.forward 2) cs.tail).map (pushEscape style escaped ++ ·)
    else if c == '$' && p.options.substitution && style != .singleQuoted then
      (p.expandDollar (p.expand style fuel) cursor cs).bind fun (output, n) =>
        (p.expand style fuel (cursor.forward (n + 1)) (cs.drop n)).map (output ++ ·)
    else if c == '\r' then
      if cs.head? = some '\n' then
        (p.expand style fuel (cursor.forward 2) cs.tail).map ('\n' :: ·)
      else (p.expand style fuel (cursor.forward 1) cs).map ('\n' :: ·)
    else (p.expand style fuel (cursor.forward 1) cs).map (c :: ·)

/-! ### Values -/

/-- The loop of `parse_quoted` after the opening quote: the raw text up to the
closing quote.  `start` is the position of the opening quote. -/
def scanQuoted (p : Parser) (quote : Char) (style : ValueStyle) (start : Cursor) :
    Bool → List Char → List Char → Except ParseError (List Char)
  | _, _, [] => .error (start.error (.unterminatedQuote quote))
  | _, before, '\r' :: '\n' :: cs =>
    if !p.options.multiline then
      .error (Cursor.error ⟨before, '\r' :: '\n' :: cs⟩ .multilineDisabled)
    else
      (p.scanQuoted quote style start false ('\n' :: '\r' :: before) cs).map ('\r' :: '\n' :: ·)
  | escaped, before, c :: cs =>
    if isNewline c then
      if !p.options.multiline then .error (Cursor.error ⟨before, c :: cs⟩ .multilineDisabled)
      else (p.scanQuoted quote style start false (c :: before) cs).map (c :: ·)
    else if c == '\x00' then .error (Cursor.error ⟨before, c :: cs⟩ (.invalidValueCharacter c))
    else if c == quote && !escaped then .ok []
    else
      let escaped := if c == '\\' && style != .singleQuoted then !escaped else false
      (p.scanQuoted quote style start escaped (c :: before) cs).map (c :: ·)

/-- `parse_quoted`: the value and the position after the closing quote. -/
def parseQuoted (p : Parser) (quote : Char) (style : ValueStyle) (cursor : Cursor) :
    Except ParseError (List Char × Cursor) :=
  let start := cursor.forward 1
  (p.scanQuoted quote style cursor false start.before start.rest).bind fun raw =>
    (p.expand style raw.length start raw).map fun value => (value, start.forward (raw.length + 1))

/-- How many characters the loop of `parse_unquoted` passes after a dollar. -/
def passDollar (p : Parser) (afterDollar : Cursor) : Except ParseError ℕ :=
  if !p.options.substitution then .ok 0
  else match afterDollar.rest with
  | '$' :: _ => .ok 1
  | '{' :: body =>
    match findSubstitutionEnd (body.takeWhile fun c => !isNewline c) with
    | none => .ok 0
    | some n =>
      match ('{' :: body.take n).findIdx? (· == '\x00') with
      | some offset =>
        .error ((afterDollar.forward offset).error (.invalidValueCharacter '\x00'))
      | none => .ok (n + 2)
  | _ => .ok 0

/-- The loop of `parse_unquoted`: the raw text and whether the value ends after
it.  `pass` characters are passed without a look. -/
def scanUnquoted (p : Parser) :
    ℕ → Bool → List Char → List Char → Except ParseError (List Char × Bool)
  | _, _, _, [] => .ok ([], true)
  | pass + 1, escaped, before, c :: cs =>
    (p.scanUnquoted pass escaped (c :: before) cs).map fun r => (c :: r.1, r.2)
  | 0, escaped, before, c :: cs =>
    let next (pass : ℕ) (escaped : Bool) : Except ParseError (List Char × Bool) :=
      (p.scanUnquoted pass escaped (c :: before) cs).map fun r => (c :: r.1, r.2)
    if isNewline c then .ok ([], true)
    else if c == '\x00' then .error (Cursor.error ⟨before, c :: cs⟩ (.invalidValueCharacter c))
    else if escaped then next 0 false
    else if c == '\\' then next 0 true
    else if c == '$' && p.options.substitution then
      (p.passDollar ⟨c :: before, cs⟩).bind fun n => next n false
    else if isQuote c && quoteClosesOnLine c false cs then .ok ([], false)
    else if c == '#' && before.head?.any isHorizontalWhitespace then .ok ([], true)
    else next 0 false

/-- `parse_unquoted`: the segment, whether the value ends, and the position
after it. -/
def parseUnquoted (p : Parser) (cursor : Cursor) : Except ParseError (List Char × Bool × Cursor) :=
  (p.scanUnquoted 0 false cursor.before cursor.rest).bind fun (raw, ended) =>
    let after := cursor.forward raw.length
    let trimmed := if ended then trimUnquotedTrailingWhitespace raw else raw
    (p.expand .unquoted trimmed.length cursor trimmed).map fun value =>
      (value, ended,
        if !ended then after
        else if after.rest.head? = some '#' then after.skipComment
        else after.consumeNewline)

/-- The loop of `parse_value`.  Every segment but the last takes a character,
so that the length of the text left bounds the rounds. -/
def parseSegments (p : Parser) : ℕ → Bool → Cursor → Except ParseError (List Char × Cursor)
  | 0, _, cursor => .ok ([], cursor)
  | fuel + 1, firstSegment, cursor =>
    match cursor.rest.head?.filter fun quote =>
        isQuote quote && (firstSegment || quoteClosesOnLine quote false cursor.rest.tail) with
    | some quote =>
      let style := if quote == '\'' then ValueStyle.singleQuoted else ValueStyle.doubleQuoted
      (p.parseQuoted quote style cursor).bind fun (segment, cursor) =>
        (p.parseSegments fuel false cursor).map fun r => (segment ++ r.1, r.2)
    | none =>
      (p.parseUnquoted cursor).bind fun (segment, ended, cursor) =>
        if ended then .ok (segment, cursor)
        else (p.parseSegments fuel false cursor).map fun r => (segment ++ r.1, r.2)

/-- `parse_value`. -/
def parseValue (p : Parser) (cursor : Cursor) : Except ParseError (List Char × Cursor) :=
  p.parseSegments (cursor.rest.length + 1) true cursor

/-! ### Assignments -/

/-- The loop of `parse_assignment` over the key. -/
def scanKey : List Char → List Char → Except ParseError (List Char)
  | _, [] => .ok []
  | before, c :: cs =>
    if c == '=' || isHorizontalWhitespace c then .ok []
    else if isNewline c || c == '#' then .ok []
    else if c == '\x00' || isControl c then
      .error (Cursor.error ⟨before, c :: cs⟩ (.invalidKeyCharacter c))
    else (scanKey (c :: before) cs).map (c :: ·)

/-- `parse_assignment`: the key, the value and the position after them. -/
def parseAssignment (p : Parser) : Except ParseError ((String × String) × Cursor) :=
  let start := p.cursor.consumeExportPrefix
  (scanKey start.before start.rest).bind fun key =>
    if key.isEmpty then .error (start.error .missingKey)
    else
      let equals := (start.forward key.length).skipHorizontalWhitespace
      if equals.rest.head? ≠ some '=' then .error (equals.error .missingEquals)
      else
        let cursor := (equals.forward 1).skipHorizontalWhitespace
        match cursor.rest.head? with
        | none => .ok ((String.ofList key, ""), cursor.consumeNewline)
        | some c =>
          if isNewline c then .ok ((String.ofList key, ""), cursor.consumeNewline)
          else if c = '#' then .ok ((String.ofList key, ""), cursor.skipComment)
          else (p.parseValue cursor).map fun r => ((String.ofList key, String.ofList r.1), r.2)

/-- The loop of `next_entry`.  Every round takes a character, so that the
length of the text left bounds the rounds. -/
def nextEntryLoop : ℕ → Parser → Option (Except ParseError (String × String)) × Parser
  | 0, p => (none, p)
  | fuel + 1, p =>
    let cursor := p.cursor.skipHorizontalWhitespace
    let p := { p with cursor }
    if cursor.rest.isEmpty then (none, p)
    else match cursor.consumeNewline? with
    | some cursor => nextEntryLoop fuel { p with cursor }
    | none =>
      if cursor.rest.head? = some '#' then
        nextEntryLoop fuel { p with cursor := cursor.skipComment }
      else match p.parseAssignment with
      | .ok ((key, value), cursor) =>
        (some (.ok (key, value)), { p with
          cursor
          parsedVariables := Function.update p.parsedVariables key (some value) })
      | .error e => (some (.error e), { p with failed := true })

/-- `next_entry`. -/
def nextEntry (p : Parser) : Option (Except ParseError (String × String)) × Parser :=
  if p.failed then (none, p) else nextEntryLoop (p.cursor.rest.length + 1) p

/-- What an iteration over the parser yields. -/
def entries : ℕ → Parser → List (Except ParseError (String × String))
  | 0, _ => []
  | fuel + 1, p =>
    match p.nextEntry with
    | (none, _) => []
    | (some entry, p) => entry :: entries fuel p

/-- `Parser::new`. -/
def new (source : String) (options : ParseOptions)
    (baseVariables protectedVariables : String → Option String) (inputOverrides : Bool) :
    Parser where
  cursor := ⟨[], if source.toList.head? = some '\uFEFF' then source.toList.tail else source.toList⟩
  options
  baseVariables
  protectedVariables
  parsedVariables := fun _ => none
  inputOverrides
  failed := false

/-- All entries of the source the parser holds. -/
def toEntries (p : Parser) : List (Except ParseError (String × String)) :=
  p.entries (p.cursor.rest.length + 1)

end Parser

end Dotenv
end Mise
