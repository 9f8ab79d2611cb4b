/-
# Templates of the aqua registry

`crates/aqua-registry/src/template.rs`: a template is text with tags between `{{`
and `}}`.  A tag is cut into tokens by `lex`, the tokens are parsed into an
expression by four functions that share one cursor, and the expression is
evaluated over the variables of the context.

The lexer cuts by byte offsets, and a cut inside a character panics, which is
`Failure.panic`.  Unicode's alphabetic and numeric characters are parameters, and
so are the two functions of other crates (`versions::Versioning`, `heck`'s title
case).  A loop that would not end is `Failure.endless`.
-/

import Mise.Lib.Utf8
import Mise.Text

namespace Mise.Aqua

open Lib
open String (utf8Len)

/-! ### Data -/

/-- `Token`. -/
inductive Token where
  | key (k : List Char)
  | string (s : List Char)
  | func (f : List Char)
  | whitespace (s : List Char)
  | pipe
  | lParen
  | rParen
  | dot
  | ident (p : List Char)
  deriving DecidableEq

/-- `Expr`. -/
inductive Expr where
  | var (name : List Char)
  | literal (s : List Char)
  | funcCall (func : List Char) (args : List Expr)
  | propertyAccess (expr : Expr) (prop : List Char)
  | pipe (left right : Expr)

/-- `Value`, with its two types of values. -/
inductive Value where
  | string (s : List Char)
  | semVer (major minor patch : UInt32) (original : List Char)

/-- What rendering fails with: the errors it returns, a panic, and a loop that
does not end. -/
inductive Failure where
  | panic
  | endless
  | unterminatedString
  | unexpectedCharacter (c : Char)
  | endOfExpression
  | expectedClosingParenthesis
  | unexpectedToken (token : Token)
  | expectedArgument
  | expectedIdentifier
  | variableNotFound (name : List Char)
  | unknownFunction (func : List Char)
  | wrongArguments (func : List Char) (expected : ℕ)
  | invalidSemver (input : List Char)
  | propertyOnString
  | unknownProperty (prop : List Char)
  | notAFunctionCall
  deriving DecidableEq

/-- `char::is_alphabetic` and `char::is_numeric`. -/
structure CharClasses where
  isAlphabetic : Char → Bool
  isNumeric : Char → Bool

/-- `char::is_alphanumeric`. -/
def CharClasses.isAlphanumeric (classes : CharClasses) (c : Char) : Bool :=
  classes.isAlphabetic c || classes.isNumeric c

/-- A slice outside the boundaries of characters panics. -/
def orPanic {α : Type} : Option α → Except Failure α
  | some a => .ok a
  | none => .error .panic

/-! ### Tokens -/

section Lex

variable (classes : CharClasses)

/-- `identifier_len`, in bytes. -/
def identifierLen (code : List Char) : ℕ :=
  utf8Len (code.takeWhile fun c => classes.isAlphanumeric c || c = '_')

/-- `dotted_identifier_end`, in bytes. -/
def dottedIdentifierEnd : List Char → Option ℕ
  | '.' :: rest => rest.head?.bind fun first =>
      if !classes.isAlphabetic first then none else some (1 + identifierLen classes rest)
  | _ => none

/-- `str::match_indices` of one character. -/
def matchIndices (q : Char) : List Char → List ℕ
  | [] => []
  | c :: cs => (if c = q then [0] else []) ++ (matchIndices q cs).map (c.utf8Size + ·)

/-- The search for the quote that ends a string, among those behind the first:
the string and the code behind it. -/
def closeString (code : List Char) : List ℕ → Except Failure (Option (List Char × List Char))
  | [] => .ok none
  | stop :: stops => do
    let before ← orPanic (slice code 1 (stop + 1))
    let slashCount := (before.reverse.takeWhile (· = '\\')).length
    if slashCount % 2 = 0 then
      let s ← orPanic (slice code 1 (stop + 1))
      let (_, rest) ← orPanic (splitAtByte code (stop + 2))
      .ok (some (s, rest))
    else closeString code stops

/-- A character of a function's name. -/
def isFuncChar (c : Char) : Bool := classes.isAlphanumeric c || c = '_' || c = '-'

/-- The `while let` that reads chained fields; every turn takes two characters. -/
def chainedFields (fuel : ℕ) (tokens : List Token) (code : List Char) :
    Except Failure (List Token × List Char) :=
  match dottedIdentifierEnd classes code with
  | none => .ok (tokens, code)
  | some stop =>
    match fuel with
    | 0 => .error .endless
    | fuel + 1 => do
      let prop ← orPanic (slice code 1 stop)
      let (_, rest) ← orPanic (splitAtByte code stop)
      chainedFields fuel (tokens ++ [.dot, .ident prop]) rest

/-- The body of the loop of `lex`, for a code that is not empty: the tokens so
far and the code left, or nothing where the loop breaks. -/
def lexStep (tokens : List Token) (code : List Char) :
    Except Failure (Option (List Token × List Char)) :=
  match code with
  | ' ' :: _ =>
    -- a count of characters
    match code.findIdx? fun c => !isWhitespace c with
    | some stop => do
      let (space, rest) ← orPanic (splitAtByte code stop)
      .ok (some (tokens ++ [.whitespace space], rest))
    | none => .ok none
  | '(' :: rest => .ok (some (tokens ++ [.lParen], rest))
  | ')' :: rest => .ok (some (tokens ++ [.rParen], rest))
  | '|' :: rest => .ok (some (tokens ++ [.pipe], rest))
  | '"' :: rest => do
    match ← closeString code (matchIndices '"' rest) with
    | some (s, rest) => .ok (some (tokens ++ [.string s], rest))
    | none => .error .unterminatedString
  | '.' :: rest =>
    match dottedIdentifierEnd classes code with
    | some firstEnd => do
      let name ← orPanic (slice code 1 firstEnd)
      let (_, rest) ← orPanic (splitAtByte code firstEnd)
      let first := if tokens.getLast? = some .rParen then [.dot, .ident name] else [.key name]
      let chained ← chainedFields classes rest.length (tokens ++ first) rest
      .ok (some chained)
    | none => .ok (some (tokens ++ [.dot], rest))
  | code => do
    -- a count of characters too, but the length in bytes where all are read
    let stop := (code.findIdx? fun c => !isFuncChar classes c).getD (utf8Len code)
    if 0 < stop then
      let (name, rest) ← orPanic (splitAtByte code stop)
      .ok (some (tokens ++ [.func name], rest))
    else
      match code with
      | c :: _ => .error (.unexpectedCharacter c)
      | [] => .error .panic

/-- The loop of `lex`, where every turn takes a character at least. -/
def lexFrom : ℕ → List Token → List Char → Except Failure (List Token)
  | _, tokens, [] => .ok tokens
  | 0, _, _ :: _ => .error .endless
  | fuel + 1, tokens, c :: code => do
    match ← lexStep classes tokens (c :: code) with
    | some (tokens, rest) => lexFrom fuel tokens rest
    | none => .ok tokens

/-- `str::trim`. -/
def trimmed (code : List Char) : List Char :=
  ((code.dropWhile isWhitespace).reverse.dropWhile isWhitespace).reverse

/-- `lex`. -/
def lex (code : List Char) : Except Failure (List Token) :=
  lexFrom classes (trimmed code).length [] (trimmed code)

end Lex

/-! ### Expressions -/

/-- `skip_whitespace`. -/
def skipWhitespace : List Token → List Token
  | .whitespace _ :: ts => skipWhitespace ts
  | ts => ts

theorem length_skipWhitespace_le (ts : List Token) :
    (skipWhitespace ts).length ≤ ts.length := by
  fun_induction skipWhitespace ts with
  | case1 s ts ih => exact ih.trans (Nat.le_succ _)
  | case2 ts => exact le_rfl

/-- `parse_property_chain`. -/
def parsePropertyChain (ts : List Token) (expr : Expr) : Except Failure (Expr × List Token) :=
  match ts with
  | .dot :: ts =>
    match _h : skipWhitespace ts with
    | .ident prop :: ts => parsePropertyChain ts (.propertyAccess expr prop)
    | _ => .error .expectedIdentifier
  | ts => .ok (expr, ts)
termination_by ts.length
decreasing_by
  rename_i rest
  have hle := length_skipWhitespace_le rest
  rw [_h, List.length_cons] at hle
  rw [List.length_cons]
  omega

mutual

/-- `parse_pipe`. -/
def parsePipe : ℕ → List Token → Except Failure (Expr × List Token)
  | 0, _ => .error .endless
  | fuel + 1, ts => do
    let (left, ts) ← parsePrimary fuel ts
    pipeLoop fuel left (skipWhitespace ts)

/-- The loop of `parse_pipe`. -/
def pipeLoop : ℕ → Expr → List Token → Except Failure (Expr × List Token)
  | 0, _, .pipe :: _ => .error .endless
  | fuel + 1, left, .pipe :: ts => do
    let (right, ts) ← parsePrimary fuel (skipWhitespace ts)
    pipeLoop fuel (.pipe left right) (skipWhitespace ts)
  | _, left, ts => .ok (left, ts)

/-- `parse_primary`. -/
def parsePrimary : ℕ → List Token → Except Failure (Expr × List Token)
  | 0, _ => .error .endless
  | fuel + 1, ts =>
    match skipWhitespace ts with
    | [] => .error .endOfExpression
    | .key k :: ts => parsePropertyChain ts (.var k)
    | .string s :: ts => parsePropertyChain ts (.literal s)
    | .lParen :: ts => do
      let (inner, ts) ← parsePipe fuel (skipWhitespace ts)
      match skipWhitespace ts with
      | .rParen :: ts => parsePropertyChain ts inner
      | _ => .error .expectedClosingParenthesis
    | .func f :: ts => do
      let (args, ts) ← argsLoop fuel ts
      parsePropertyChain ts (.funcCall f args)
    | token :: _ => .error (.unexpectedToken token)

/-- The loop of `parse_primary` that collects arguments. -/
def argsLoop : ℕ → List Token → Except Failure (List Expr × List Token)
  | 0, _ => .error .endless
  | fuel + 1, ts =>
    match skipWhitespace ts with
    | [] => .ok ([], [])
    | .pipe :: ts => .ok ([], .pipe :: ts)
    | .rParen :: ts => .ok ([], .rParen :: ts)
    -- property access is for the call
    | .dot :: ts => .ok ([], .dot :: ts)
    | .ident p :: ts => .ok ([], .ident p :: ts)
    | ts => do
      let (arg, ts) ← parseArg fuel ts
      let (args, ts) ← argsLoop fuel ts
      .ok (arg :: args, ts)

/-- `parse_arg`. -/
def parseArg : ℕ → List Token → Except Failure (Expr × List Token)
  | 0, _ => .error .endless
  | fuel + 1, ts =>
    match skipWhitespace ts with
    | .lParen :: ts => do
      let (expr, ts) ← parsePipe fuel (skipWhitespace ts)
      match skipWhitespace ts with
      | .rParen :: ts => parsePropertyChain ts expr
      | _ => .error .expectedClosingParenthesis
    | .key k :: ts => parsePropertyChain ts (.var k)
    | .string s :: ts => .ok (.literal s, ts)
    | _ => .error .expectedArgument

end

/-- `parse_tokens`.  What `parse_pipe` leaves of the tokens is not looked at. -/
def parseTokens (tokens : List Token) : Except Failure Expr := do
  let (expr, _) ← parsePipe (3 * tokens.length + 2) tokens
  .ok expr

/-! ### Values -/

/-- The matches of a pattern that is not empty are replaced from the left; the
characters of a match are skipped. -/
def replaceMatches (pattern by_ : List Char) : ℕ → List Char → List Char
  | _, [] => []
  | skip + 1, _ :: cs => replaceMatches pattern by_ skip cs
  | 0, c :: cs =>
    if pattern <+: c :: cs then by_ ++ replaceMatches pattern by_ (pattern.length - 1) cs
    else c :: replaceMatches pattern by_ 0 cs

/-- `str::replace`.  An empty pattern matches around every character. -/
def replaceText (pattern by_ text : List Char) : List Char :=
  if pattern = [] then by_ ++ text.flatMap fun c => c :: by_
  else replaceMatches pattern by_ 0 text

/-- `as_string`. -/
def Value.asString : Value → List Char
  | .string s => s
  | .semVer _ _ _ original => original

/-- `get_property`. -/
def Value.getProperty (v : Value) (prop : List Char) : Except Failure (List Char) :=
  match v with
  | .string _ => .error .propertyOnString
  | .semVer major minor patch _ =>
    if prop = "Major".toList then .ok (Nat.toDigits 10 major.toNat)
    else if prop = "Minor".toList then .ok (Nat.toDigits 10 minor.toNat)
    else if prop = "Patch".toList then .ok (Nat.toDigits 10 patch.toNat)
    else .error (.unknownProperty prop)

/-- The functions of other crates: `Versioning::new` with `nth`, and
`to_title_case`. -/
structure Crates where
  versioning : List Char → Option (ℕ → Option UInt32)
  toTitleCase : List Char → List Char

/-- A function that takes a number of strings. -/
def onStrings (name : List Char) (expected : ℕ) (f : List (List Char) → Except Failure Value)
    (args : List Value) : Except Failure Value :=
  if args.length ≠ expected then .error (.wrongArguments name expected)
  else f (args.map Value.asString)

/-- `FUNCTION_REGISTRY`. -/
def functionRegistry (crates : Crates) (func : List Char) :
    Option (List Value → Except Failure Value) :=
  if func = "semver".toList then some <| onStrings func 1 fun
    | [input] =>
      let cleanVersion := if "v".toList.isPrefixOf input then input.drop 1 else input
      match crates.versioning cleanVersion with
      | some nth => .ok (.semVer ((nth 0).getD 0) ((nth 1).getD 0) ((nth 2).getD 0) cleanVersion)
      | none => .error (.invalidSemver input)
    | _ => .error .panic
  else if func = "title".toList then some <| onStrings func 1 fun
    | [input] => .ok (.string (crates.toTitleCase input))
    | _ => .error .panic
  else if func = "trimV".toList then some <| onStrings func 1 fun
    | [input] => .ok (.string (input.dropWhile (· = 'v')))
    | _ => .error .panic
  else if func = "trimPrefix".toList then some <| onStrings func 2 fun
    | [start, text] =>
      .ok (.string (if start.isPrefixOf text then text.drop start.length else text))
    | _ => .error .panic
  else if func = "trimSuffix".toList then some <| onStrings func 2 fun
    | [tail, text] =>
      .ok (.string (if tail.isSuffixOf text then text.take (text.length - tail.length) else text))
    | _ => .error .panic
  else if func = "replace".toList then some <| onStrings func 3 fun
    | [pattern, by_, text] => .ok (.string (replaceText pattern by_ text))
    | _ => .error .panic
  else none

/-- `Context`. -/
abbrev Context := List Char → Option (List Char)

section Eval

variable (crates : Crates) (ctx : Context)

/-- `eval_func`, with its arguments evaluated. -/
def callFunction (func : List Char) (args : List Value) : Except Failure Value :=
  match functionRegistry crates func with
  | some f => f args
  | none => .error (.unknownFunction func)

mutual

/-- `eval_value`, with `eval_property` and `eval_with_input`. -/
def evalValue : Expr → Except Failure Value
  | .var name =>
    match ctx name with
    | some s => .ok (.string s)
    | none => .error (.variableNotFound name)
  | .literal s => .ok (.string s)
  | .funcCall func args => do
    let args ← evalArgs args
    callFunction crates func args
  | .propertyAccess expr prop =>
    -- a variable may have the property in its name
    match (match expr with | .var name => ctx (name ++ '.' :: prop) | _ => none) with
    | some s => .ok (.string s)
    | none => do
      let value ← evalValue expr
      let s ← value.getProperty prop
      .ok (.string s)
  | .pipe left right => do
    let input ← evalValue left
    match right with
    | .funcCall func args => do
      -- the input is the last argument
      let args ← evalArgs args
      callFunction crates func (args ++ [.string input.asString])
    | _ => .error .notAFunctionCall

/-- The arguments of a call. -/
def evalArgs : List Expr → Except Failure (List Value)
  | [] => .ok []
  | arg :: args => do
    let value ← evalValue arg
    let values ← evalArgs args
    .ok (value :: values)

end

/-- `eval`. -/
def eval (expr : Expr) : Except Failure (List Char) := do
  let value ← evalValue crates ctx expr
  .ok value.asString

end Eval

/-! ### Templates -/

section Render

variable (classes : CharClasses) (crates : Crates) (ctx : Context)

/-- What a tag is replaced by. -/
def renderTag (tag : List Char) : Except Failure (List Char) := do
  let tokens ← lex classes tag
  let ast ← parseTokens tokens
  eval crates ctx ast

/-- The loop of `render`, with the result so far, whether it is in a tag, and the
tag so far. -/
def renderFrom : List Char → List Char → Bool → List Char → Except Failure (List Char)
  | [], result, _, _ => .ok result
  | '{' :: '{' :: cs, result, false, tag => renderFrom cs result true tag
  | '}' :: '}' :: cs, result, true, tag => do
    let value ← renderTag classes crates ctx tag
    renderFrom cs (result ++ value) false []
  | c :: cs, result, true, tag => renderFrom cs result true (tag ++ [c])
  | c :: cs, result, false, tag => renderFrom cs (result ++ [c]) false tag

/-- `render`. -/
def render (tmpl : List Char) : Except Failure (List Char) :=
  renderFrom classes crates ctx tmpl [] false []

end Render

end Mise.Aqua
