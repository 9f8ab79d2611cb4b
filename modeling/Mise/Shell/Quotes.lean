/-
# Quoting for PowerShell, elvish and bash

`src/shell/pwsh.rs`, `src/shell/elvish.rs` and `src/shell/bash.rs`: three shells
that pair or escape quotes each by a rule of its own.  PowerShell reads five
characters as single quotes, and two of them side by side as the second
(`Pwsh.sqFront`).  Elvish reads two apostrophes as one (`Elvish.quotedFront`), and
plain words without quotes.  Bash expands variables between double quotes
(`Bash.dqFront`).

A literal that pairs its quotes is read back exactly where the text behind it
does not pair with its last quote, which is so in every command that is written
(`quotes_round_trip_iff`).
-/

import Mise.Lib.Quoting

namespace Mise

open Lib

/-- `str::replace` of a character. -/
def replaceChar (c : Char) (with_ : List Char) (s : List Char) : List Char :=
  s.flatMap fun d => if d = c then with_ else [d]

namespace Pwsh

/-! ### PowerShell -/

/-- `SINGLE_QUOTES`. -/
def singleQuotes : List Char := ['\'', '\u2018', '\u2019', '\u201a', '\u201b']

/-- What the loop of `escape_sq` writes for a character. -/
def writeChar (c : Char) : List Char := if c ∈ singleQuotes then [c, c] else [c]

/-- `escape_sq`. -/
def escapeSq (input : List Char) : List Char :=
  if input.any (· ∈ singleQuotes) = false then input else input.flatMap writeChar

/-- `escape_env_name`. -/
def escapeEnvName (name : List Char) : List Char :=
  if name.any (· ∈ ['`', '}']) then
    replaceChar '}' ['`', '}'] (replaceChar '`' ['`', '`'] name)
  else name

/-- `set_env`. -/
def setEnv (k v : List Char) : List Char :=
  "$\x7bEnv:".toList ++ escapeEnvName k ++ ['}', '=', '\''] ++ escapeSq v ++ ['\'', '\n']

/-- `prepend_env`. -/
def prependEnv (k v : List Char) : List Char :=
  "$\x7bEnv:".toList ++ escapeEnvName k ++ ['}', '=', '\''] ++ escapeSq v ++ ['\'', '+'] ++
    "[IO.Path]::PathSeparator+$\x7benv:".toList ++ escapeEnvName k ++ ['}', '\n']

/-- `unset_env`. -/
def unsetEnv (k : List Char) : List Char :=
  "Remove-Item -ErrorAction SilentlyContinue -LiteralPath ".toList ++ '\'' ::
    ("Env:/".toList ++ escapeSq k ++ ['\'', '\n'])

/-- The front of a text inside `'...'`: a single quote in front of another one
stands for the second, and any other one ends the literal. -/
def sqFront : List Char → Front Char Char
  | [] => .fails
  | c :: text =>
    if c ∈ singleQuotes then
      match text with
      | [] => .ends []
      | d :: rest => if d ∈ singleQuotes then .reads [d] rest else .ends (d :: rest)
    else .reads [c] text

/-- The front of a text inside `${...}`: a backtick escapes the next character. -/
def nameFront : List Char → Front Char Char
  | [] => .fails
  | c :: text =>
    if c = '}' then .ends text
    else if c = '`' then
      match text with
      | [] => .fails
      | d :: rest => .reads [d] rest
    else .reads [c] text

/-- The value of the literal at the front of a text, and the text behind it. -/
def readLiteral : List Char → Option (List Char × List Char)
  | '\'' :: text => readQuoted sqFront text
  | _ => none

/-- The name in the `${Env:...}` at the front of a text, and the text behind it. -/
def readName (text : List Char) : Option (List Char × List Char) :=
  let start := "$\x7bEnv:".toList
  if start.isPrefixOf text then readQuoted nameFront (text.drop start.length) else none

/-- The variable that the command at the front of a text assigns, the literal at the
front of its value, and the text behind the literal. -/
def readAssignment (text : List Char) : Option (List Char × List Char × List Char) :=
  match readName text with
  | some (k, '=' :: rest) => (readLiteral rest).map fun p => (k, p)
  | _ => none

/-- Where a literal is not continued by what follows it. -/
def EndsLiteral (t : List Char) : Prop := ∀ c ∈ t.head?, c ∉ singleQuotes

theorem escapeSq_eq (v : List Char) : escapeSq v = v.flatMap writeChar := by
  rw [escapeSq]
  split
  · case isTrue h =>
    have hplain : ∀ c ∈ v, writeChar c = [c] := fun c hc =>
      if_neg (by simpa using List.any_eq_false.1 h c hc)
    rw [List.flatMap_congr hplain, List.flatMap_singleton']
  · rfl

theorem sqFront_writeChar (c : Char) :
    writeChar c ≠ [] ∧ ∀ rest, sqFront (writeChar c ++ rest) = .reads [c] rest := by
  rw [writeChar]
  split
  · case isTrue h =>
    exact ⟨List.cons_ne_nil _ _, fun rest => (if_pos h).trans (if_pos h)⟩
  · case isFalse h => exact ⟨List.cons_ne_nil _ _, fun rest => if_neg h⟩

/-- The last quote of a literal pairs with a quote behind it, and only with one. -/
theorem readQuoted_quote_iff (t : List Char) :
    readQuoted sqFront ('\'' :: t) = some ([], t) ↔ EndsLiteral t := by
  have hquote : '\'' ∈ singleQuotes := by decide
  cases t with
  | nil =>
    have hfront : sqFront ['\''] = .ends [] := rfl
    exact ⟨fun _ c hc => (nomatch hc), fun _ => readQuoted_of_ends hfront⟩
  | cons d rest =>
    have hhead : EndsLiteral (d :: rest) ↔ d ∉ singleQuotes :=
      ⟨fun h => h d rfl, fun h c hc => Option.some.inj hc ▸ h⟩
    rw [hhead]
    by_cases hd : d ∈ singleQuotes
    · have hfront : sqFront ('\'' :: d :: rest) = .reads [d] rest := by
        rw [sqFront, if_pos hquote]
        exact if_pos hd
      have hlength : rest.length < ('\'' :: d :: rest).length :=
        Nat.lt_succ_of_lt (Nat.lt_succ_self _)
      rw [readQuoted_of_reads hfront hlength]
      exact ⟨fun h => absurd h (prepend_cons_ne_some_nil d [] _ _), fun h => absurd hd h⟩
    · have hfront : sqFront ('\'' :: d :: rest) = .ends (d :: rest) := by
        rw [sqFront, if_pos hquote]
        exact if_neg hd
      exact ⟨fun _ => hd, fun _ => readQuoted_of_ends hfront⟩

/-- **A literal is read back exactly where no quote follows it.** -/
theorem readLiteral_escapeSq_iff (v t : List Char) :
    readLiteral ('\'' :: (escapeSq v ++ '\'' :: t)) = some (v, t) ↔ EndsLiteral t := by
  rw [readLiteral, escapeSq_eq, readQuoted_append_eq_iff fun c _ => sqFront_writeChar c,
    readQuoted_quote_iff]

/-- What is written for a character of a name. -/
def writeNameChar (c : Char) : List Char :=
  if c = '`' then ['`', '`'] else if c = '}' then ['`', '}'] else [c]

/-- The second replacement leaves what the first one wrote. -/
theorem escapeEnvName_eq (k : List Char) : escapeEnvName k = k.flatMap writeNameChar := by
  rw [escapeEnvName]
  split
  · rw [replaceChar, replaceChar, List.flatMap_assoc]
    refine congrArg (k.flatMap ·) (funext fun c => ?_)
    rw [writeNameChar]
    split
    · rfl
    · rw [List.flatMap_singleton]
  · case isFalse h =>
    rw [Bool.not_eq_true, List.any_eq_false] at h
    have hplain : ∀ c ∈ k, writeNameChar c = [c] := by
      intro c hc
      have hno := h c hc
      rw [decide_eq_true_eq, List.mem_cons, List.mem_singleton, not_or] at hno
      exact (if_neg hno.1).trans (if_neg hno.2)
    rw [List.flatMap_congr hplain, List.flatMap_singleton']

theorem nameFront_writeNameChar (c : Char) :
    writeNameChar c ≠ [] ∧ ∀ rest, nameFront (writeNameChar c ++ rest) = .reads [c] rest := by
  rw [writeNameChar]
  split
  · case isTrue h =>
    subst h
    exact ⟨List.cons_ne_nil _ _, fun rest => rfl⟩
  split
  · case isTrue h =>
    subst h
    exact ⟨List.cons_ne_nil _ _, fun rest => rfl⟩
  · case isFalse hbacktick hbrace =>
    exact ⟨List.cons_ne_nil _ _, fun rest => (if_neg hbrace).trans (if_neg hbacktick)⟩

/-- **A name is read back**, whatever follows it. -/
theorem readName_escapeEnvName (k t : List Char) :
    readName ("$\x7bEnv:".toList ++ (escapeEnvName k ++ '}' :: t)) = some (k, t) := by
  have hstart : "$\x7bEnv:".toList.isPrefixOf
      ("$\x7bEnv:".toList ++ (escapeEnvName k ++ '}' :: t)) = true :=
    List.isPrefixOf_iff_prefix.2 (List.prefix_append _ _)
  have hclose : nameFront (['}'] ++ t) = .ends t := rfl
  rw [readName, if_pos hstart, List.drop_left, escapeEnvName_eq]
  exact readQuoted_flatMap (fun c _ => nameFront_writeNameChar c) hclose

/-- A name and a literal are read from an assignment that goes on without a quote. -/
theorem readAssignment_append (k v : List Char) {t : List Char} (ht : EndsLiteral t) :
    readAssignment ("$\x7bEnv:".toList ++
      (escapeEnvName k ++ '}' :: '=' :: '\'' :: (escapeSq v ++ '\'' :: t))) = some (k, v, t) := by
  rw [readAssignment, readName_escapeEnvName]
  show (readLiteral _).map _ = _
  rw [(readLiteral_escapeSq_iff v t).2 ht]
  rfl

/-- **The commands are read back.** -/
theorem readAssignment_setEnv (k v t : List Char) :
    readAssignment (setEnv k v ++ t) = some (k, v, '\n' :: t) := by
  have ht : EndsLiteral ('\n' :: t) := by
    rintro c ⟨⟩
    decide
  unfold setEnv
  simp only [List.append_assoc, List.cons_append, List.nil_append]
  exact readAssignment_append k v ht

theorem readAssignment_prependEnv (k v t : List Char) :
    readAssignment (prependEnv k v ++ t) =
      some (k, v, '+' :: ("[IO.Path]::PathSeparator+$\x7benv:".toList ++
        (escapeEnvName k ++ '}' :: '\n' :: t))) := by
  have ht : EndsLiteral ('+' :: ("[IO.Path]::PathSeparator+$\x7benv:".toList ++
      (escapeEnvName k ++ '}' :: '\n' :: t))) := by
    rintro c ⟨⟩
    decide
  unfold prependEnv
  simp only [List.append_assoc, List.cons_append, List.nil_append]
  exact readAssignment_append k v ht

/-- The variable to remove is one literal. -/
theorem readLiteral_unsetEnv (k t : List Char) : ∃ argument,
    unsetEnv k ++ t =
        "Remove-Item -ErrorAction SilentlyContinue -LiteralPath ".toList ++ argument ∧
      readLiteral argument = some ("Env:/".toList ++ k, '\n' :: t) := by
  have hstart : "Env:/".toList.flatMap writeChar = "Env:/".toList := by decide
  have hliteral : "Env:/".toList ++ escapeSq k = escapeSq ("Env:/".toList ++ k) := by
    rw [escapeSq_eq, escapeSq_eq, List.flatMap_append, hstart]
  refine ⟨'\'' :: ("Env:/".toList ++ escapeSq k ++ '\'' :: '\n' :: t), ?_, ?_⟩
  · unfold unsetEnv
    simp only [List.append_assoc, List.cons_append, List.nil_append]
  · rw [hliteral]
    refine (readLiteral_escapeSq_iff _ _).2 ?_
    rintro c ⟨⟩
    decide

end Pwsh

namespace Elvish

/-! ### Elvish -/

/-- `needs_quoting`. -/
def needsQuoting (ch : Char) : Bool :=
  !('a' ≤ ch && ch ≤ 'z' || 'A' ≤ ch && ch ≤ 'Z' || '0' ≤ ch && ch ≤ '9' || ch = '-' || ch = '_' ||
    ch = '=' || ch = '/' || ch = ',' || ch = '.' || ch = '+')

/-- `escape`. -/
def escape (input : List Char) : List Char :=
  if input ≠ [] ∧ input.any needsQuoting = false then input
  else '\'' :: (replaceChar '\'' ['\'', '\''] input ++ ['\''])

/-- `set_env`. -/
def setEnv (k v : List Char) : List Char :=
  "set-env ".toList ++ escape k ++ [' '] ++ escape v ++ ['\n']

/-- `prepend_env`, where the separator of a path list is a colon. -/
def prependEnv (k v : List Char) : List Char :=
  "set-env ".toList ++ escape k ++ [' '] ++ escape (v ++ [':']) ++ ['('] ++ "get-env ".toList ++
    escape k ++ [')', '\n']

/-- `unset_env`. -/
def unsetEnv (k : List Char) : List Char :=
  "unset-env ".toList ++ escape k ++ ['\n']

/-- The front of a text inside `'...'`. -/
def quotedFront : List Char → Front Char Char
  | [] => .fails
  | c :: text =>
    if c = '\'' then
      match text with
      | [] => .ends []
      | d :: rest => if d = '\'' then .reads ['\''] rest else .ends (d :: rest)
    else .reads [c] text

/-- The characters of a word without quotes beyond those of ASCII; white space ends
a word. -/
structure Charset where
  more : Char → Bool
  space : more ' ' = false
  newline : more '\n' = false

/-- The characters of a word without quotes: those that `escape` leaves bare,
and more. -/
def Charset.isBareword (charset : Charset) (c : Char) : Bool :=
  !needsQuoting c || c ∈ "!%:@\\~".toList || charset.more c

variable (charset : Charset)

/-- The word at the front of a text, and the text behind it. -/
def readWord : List Char → Option (List Char × List Char)
  | [] => none
  | c :: text =>
    if c = '\'' then readQuoted quotedFront text
    else if charset.isBareword c then
      some ((c :: text).takeWhile charset.isBareword, (c :: text).dropWhile charset.isBareword)
    else none

/-- The variable that the command at the front of a text sets, the first word of its
value, and the text behind that word. -/
def readSetEnv (text : List Char) : Option (List Char × List Char × List Char) :=
  let start := "set-env ".toList
  if start.isPrefixOf text then
    match readWord charset (text.drop start.length) with
    | some (k, ' ' :: rest) => (readWord charset rest).map fun p => (k, p)
    | _ => none
  else none

/-- The variable that the command at the front of a text removes, and the text behind
its word. -/
def readUnsetEnv (text : List Char) : Option (List Char × List Char) :=
  let start := "unset-env ".toList
  if start.isPrefixOf text then readWord charset (text.drop start.length) else none

/-- Where the word for a value is not continued by what follows it. -/
def EndsWord (v t : List Char) : Prop :=
  if v ≠ [] ∧ v.any needsQuoting = false then ∀ c ∈ t.head?, charset.isBareword c = false
  else ∀ c ∈ t.head?, c ≠ '\''

/-- What the replacement writes for a character is read as that character. -/
theorem quotedFront_replaced (c : Char) :
    (if c = '\'' then ['\'', '\''] else [c]) ≠ [] ∧ ∀ rest,
      quotedFront ((if c = '\'' then ['\'', '\''] else [c]) ++ rest) = .reads [c] rest := by
  split
  · case isTrue h =>
    subst h
    exact ⟨List.cons_ne_nil _ _, fun rest => rfl⟩
  · case isFalse h => exact ⟨List.cons_ne_nil _ _, fun rest => if_neg h⟩

theorem readQuoted_quote_iff (t : List Char) :
    readQuoted quotedFront ('\'' :: t) = some ([], t) ↔ ∀ c ∈ t.head?, c ≠ '\'' := by
  cases t with
  | nil => exact ⟨fun _ c hc => (nomatch hc), fun _ => readQuoted_of_ends rfl⟩
  | cons d rest =>
    have hhead : (∀ c ∈ (d :: rest).head?, c ≠ '\'') ↔ d ≠ '\'' :=
      ⟨fun h => h d rfl, fun h c hc => Option.some.inj hc ▸ h⟩
    rw [hhead]
    by_cases hd : d = '\''
    · have hfront : quotedFront ('\'' :: d :: rest) = .reads ['\''] rest := if_pos hd
      have hlength : rest.length < ('\'' :: d :: rest).length :=
        Nat.lt_succ_of_lt (Nat.lt_succ_self _)
      rw [readQuoted_of_reads hfront hlength]
      exact ⟨fun h => absurd h (prepend_cons_ne_some_nil _ [] _ _), fun h => absurd hd h⟩
    · have hfront : quotedFront ('\'' :: d :: rest) = .ends (d :: rest) := if_neg hd
      exact ⟨fun _ => hd, fun _ => readQuoted_of_ends hfront⟩

theorem takeWhile_append_eq_iff {α : Type} {p : α → Bool} {v : List α} (hv : ∀ c ∈ v, p c = true)
    (t : List α) : (v ++ t).takeWhile p = v ↔ ∀ c ∈ t.head?, p c = false := by
  rw [List.takeWhile_append_of_pos hv, List.append_right_eq_self]
  cases t with
  | nil => exact ⟨fun _ c hc => (nomatch hc), fun _ => rfl⟩
  | cons c t =>
    cases hc : p c with
    | true =>
      rw [List.takeWhile_cons_of_pos hc]
      exact ⟨fun h => absurd h (List.cons_ne_nil _ _),
        fun h => absurd (hc.symm.trans (h c rfl)) (by decide)⟩
    | false =>
      rw [List.takeWhile_cons_of_neg (by rw [hc]; exact Bool.false_ne_true)]
      exact ⟨fun _ d hd => Option.some.inj hd ▸ hc, fun _ => rfl⟩

/-- **A word is read back exactly where it is not continued.** -/
theorem readWord_escape_iff (v t : List Char) :
    readWord charset (escape v ++ t) = some (v, t) ↔ EndsWord charset v t := by
  rw [escape, EndsWord]
  split
  · case isTrue h =>
    obtain ⟨hne, hbare⟩ := h
    obtain ⟨c, v, rfl⟩ := List.exists_cons_of_ne_nil hne
    rw [List.any_eq_false] at hbare
    have hword : ∀ d ∈ c :: v, charset.isBareword d = true := by
      intro d hd
      rw [Charset.isBareword, Bool.eq_false_iff.2 (hbare d hd)]
      rfl
    have hquote : c ≠ '\'' := by
      rintro rfl
      exact hbare '\'' List.mem_cons_self (by decide)
    rw [List.cons_append, readWord, if_neg hquote, if_pos (hword c List.mem_cons_self),
      ← List.cons_append, ← takeWhile_append_eq_iff hword, Option.some.injEq, Prod.mk.injEq]
    refine ⟨And.left, fun htake => ⟨htake, ?_⟩⟩
    have hsplit := List.takeWhile_append_dropWhile (p := charset.isBareword) (l := c :: v ++ t)
    rw [htake] at hsplit
    exact List.append_cancel_left hsplit
  · rw [List.cons_append, List.append_assoc]
    show readQuoted quotedFront _ = _ ↔ _
    rw [replaceChar, readQuoted_append_eq_iff fun c _ => quotedFront_replaced c]
    exact readQuoted_quote_iff t

/-- Where a value is quoted, a parenthesis does not continue its word. -/
theorem readWord_escape_colon (v t : List Char) :
    readWord charset (escape (v ++ [':']) ++ '(' :: t) = some (v ++ [':'], '(' :: t) := by
  refine (readWord_escape_iff charset _ _).2 ?_
  have hcolon : (v ++ [':']).any needsQuoting = true := by
    rw [List.any_append]
    exact Bool.or_eq_true_iff.2 (.inr (by decide))
  rw [EndsWord, if_neg fun h => absurd (hcolon.symm.trans h.2) (by decide)]
  rintro c ⟨⟩
  decide

theorem isBareword_space : charset.isBareword ' ' = false := by
  rw [Charset.isBareword, charset.space]
  decide

theorem isBareword_newline : charset.isBareword '\n' = false := by
  rw [Charset.isBareword, charset.newline]
  decide

/-- A character that is neither a quote nor of a bare word ends every word. -/
theorem endsWord_cons {c : Char} (hquote : c ≠ '\'') (hc : charset.isBareword c = false)
    (v t : List Char) : EndsWord charset v (c :: t) := by
  rw [EndsWord]
  split
  · rintro d ⟨⟩
    exact hc
  · rintro d ⟨⟩
    exact hquote

/-- The name and the first word of the value are read. -/
theorem readSetEnv_append {k w rest text : List Char}
    (h : readWord charset text = some (w, rest)) :
    readSetEnv charset ("set-env ".toList ++ (escape k ++ ' ' :: text)) = some (k, w, rest) := by
  have hstart : "set-env ".toList.isPrefixOf ("set-env ".toList ++ (escape k ++ ' ' :: text)) =
      true := List.isPrefixOf_iff_prefix.2 (List.prefix_append _ _)
  have hname := (readWord_escape_iff charset k (' ' :: text)).2
    (endsWord_cons charset (by decide) (isBareword_space charset) k text)
  rw [readSetEnv, if_pos hstart, List.drop_left, hname]
  show (readWord charset text).map _ = _
  rw [h]
  rfl

/-- **The commands are read back**; the value to prepend is one word up to the
output capture. -/
theorem readSetEnv_setEnv (k v t : List Char) :
    readSetEnv charset (setEnv k v ++ t) = some (k, v, '\n' :: t) := by
  unfold setEnv
  simp only [List.append_assoc, List.cons_append, List.nil_append]
  exact readSetEnv_append charset ((readWord_escape_iff charset v _).2
    (endsWord_cons charset (by decide) (isBareword_newline charset) v t))

theorem readSetEnv_prependEnv (k v t : List Char) :
    readSetEnv charset (prependEnv k v ++ t) =
      some (k, v ++ [':'], '(' :: ("get-env ".toList ++ (escape k ++ ')' :: '\n' :: t))) := by
  have hword := readWord_escape_colon charset v
    ("get-env ".toList ++ (escape k ++ ')' :: '\n' :: t))
  unfold prependEnv
  simp only [List.append_assoc, List.cons_append, List.nil_append]
  exact readSetEnv_append charset hword

theorem readUnsetEnv_unsetEnv (k t : List Char) :
    readUnsetEnv charset (unsetEnv k ++ t) = some (k, '\n' :: t) := by
  have hstart : "unset-env ".toList.isPrefixOf ("unset-env ".toList ++ (escape k ++ '\n' :: t)) =
      true := List.isPrefixOf_iff_prefix.2 (List.prefix_append _ _)
  unfold unsetEnv
  simp only [List.append_assoc, List.cons_append, List.nil_append]
  rw [readUnsetEnv, if_pos hstart, List.drop_left]
  exact (readWord_escape_iff charset k _).2
    (endsWord_cons charset (by decide) (isBareword_newline charset) k t)

end Elvish

namespace Bash

/-! ### Bash -/

def isNameStart (c : Char) : Bool :=
  'a' ≤ c && c ≤ 'z' || 'A' ≤ c && c ≤ 'Z' || c = '_'

def isNameChar (c : Char) : Bool := isNameStart c || '0' ≤ c && c ≤ '9'

/-- The name of a variable. -/
structure Name where
  text : List Char
  start : ∃ c ∈ text.head?, isNameStart c = true
  chars : ∀ c ∈ text, isNameChar c = true

/-- The value as `prepend_env` writes it. -/
def escape (v : List Char) : List Char :=
  replaceChar '$' ['\\', '$'] (replaceChar '`' ['\\', '`']
    (replaceChar '"' ['\\', '"'] (replaceChar '\\' ['\\', '\\'] v)))

/-- `prepend_env`, where no path is mapped. -/
def prependEnv (k v : List Char) : List Char :=
  "export ".toList ++ k ++ ['=', '"'] ++ escape v ++ [':', '$'] ++ k ++ ['"', '\n']

/-- The front of a text behind a `$`: a variable stands for its value, and any
other expansion is not read. -/
def dollarFront (old : List Char → List Char) (text : List Char) : Front Char Char :=
  match text with
  | [] => .reads ['$'] []
  | c :: _ =>
    if isNameStart c then .reads (old (text.takeWhile isNameChar)) (text.dropWhile isNameChar)
    else if c ∈ "\x7b([*@#?-!".toList ∨ '0' ≤ c ∧ c ≤ '9' ∨ c = '$' then .fails
    else .reads ['$'] text

/-- The front of a text inside `"..."`; `old` has the values of the variables. -/
def dqFront (old : List Char → List Char) : List Char → Front Char Char
  | [] => .fails
  | c :: text =>
    if c = '"' then .ends text
    else if c = '`' then .fails
    else if c = '$' then dollarFront old text
    else if c = '\\' then
      match text with
      | [] => .reads ['\\'] []
      | d :: rest =>
        if d ∈ ['$', '`', '"', '\\'] then .reads [d] rest
        else if d = '\n' then .reads [] rest
        else .reads ['\\'] (d :: rest)
    else .reads [c] text

/-- The variable that the command at the front of a text exports, its value, and the
text behind it. -/
def readExport (old : List Char → List Char) (text : List Char) :
    Option (List Char × List Char × List Char) :=
  let start := "export ".toList
  if start.isPrefixOf text then
    let rest := text.drop start.length
    match rest.dropWhile isNameChar with
    | '=' :: '"' :: rest' =>
      (readQuoted (dqFront old) rest').map fun p => (rest.takeWhile isNameChar, p)
    | _ => none
  else none

/-- What is written for a character of the value. -/
def writeChar (c : Char) : List Char := if c ∈ ['$', '`', '"', '\\'] then ['\\', c] else [c]

/-- The later replacements leave what the earlier ones wrote. -/
theorem escape_eq (v : List Char) : escape v = v.flatMap writeChar := by
  rw [escape, replaceChar, replaceChar, replaceChar, replaceChar, List.flatMap_assoc,
    List.flatMap_assoc, List.flatMap_assoc]
  refine congrArg (v.flatMap ·) (funext fun c => ?_)
  by_cases hc : c ∈ ['$', '`', '"', '\\']
  · rw [writeChar, if_pos hc]
    simp only [List.mem_cons, List.not_mem_nil, or_false] at hc
    rcases hc with rfl | rfl | rfl | rfl <;> rfl
  · rw [writeChar, if_neg hc]
    simp only [List.mem_cons, List.not_mem_nil, or_false, not_or] at hc
    obtain ⟨hdollar, hbacktick, hquote, hbackslash⟩ := hc
    rw [if_neg hbackslash, List.flatMap_singleton, if_neg hquote, List.flatMap_singleton,
      if_neg hbacktick, List.flatMap_singleton, if_neg hdollar]

variable (old : List Char → List Char)

theorem dqFront_writeChar (c : Char) :
    writeChar c ≠ [] ∧ ∀ rest, dqFront old (writeChar c ++ rest) = .reads [c] rest := by
  rw [writeChar]
  split
  · case isTrue h =>
    refine ⟨List.cons_ne_nil _ _, fun rest => ?_⟩
    exact if_pos h
  · case isFalse h =>
    simp only [List.mem_cons, List.not_mem_nil, or_false, not_or] at h
    obtain ⟨hdollar, hbacktick, hquote, hbackslash⟩ := h
    refine ⟨List.cons_ne_nil _ _, fun rest => ?_⟩
    exact (if_neg hquote).trans
      ((if_neg hbacktick).trans ((if_neg hdollar).trans (if_neg hbackslash)))

/-- A name ends in front of the quote behind it, and in front of an equals sign. -/
theorem takeWhile_name (k : Name) {c : Char} (hc : isNameChar c = false) (t : List Char) :
    (k.text ++ c :: t).takeWhile isNameChar = k.text ∧
      (k.text ++ c :: t).dropWhile isNameChar = c :: t := by
  have hneg : ¬ isNameChar c = true := by
    rw [hc]
    exact Bool.false_ne_true
  rw [List.takeWhile_append_of_pos k.chars, List.takeWhile_cons_of_neg hneg, List.append_nil,
    List.dropWhile_append_of_pos k.chars, List.dropWhile_cons_of_neg hneg]
  exact ⟨rfl, rfl⟩

/-- The value between the quotes, a colon, and what the variable had. -/
theorem readQuoted_escape (k : Name) (v t : List Char) :
    readQuoted (dqFront old) (escape v ++ (':' :: '$' :: (k.text ++ '"' :: t))) =
      some (v ++ ':' :: old k.text, t) := by
  obtain ⟨c, hhead, hstart⟩ := k.start
  obtain ⟨name, hname⟩ : ∃ name, k.text = c :: name := by
    cases htext : k.text with
    | nil =>
      rw [htext] at hhead
      exact nomatch hhead
    | cons d name =>
      rw [htext] at hhead
      exact ⟨name, congrArg (· :: name) (Option.some.inj hhead)⟩
  obtain ⟨htake, hdrop⟩ := takeWhile_name k (c := '"') (by decide) t
  have hdollar : dqFront old ('$' :: (k.text ++ '"' :: t)) = .reads (old k.text) ('"' :: t) := by
    have hfront : dqFront old ('$' :: (k.text ++ '"' :: t)) =
        dollarFront old (k.text ++ '"' :: t) := rfl
    rw [hfront, dollarFront.eq_def]
    rw [hname] at htake hdrop ⊢
    rw [List.cons_append] at htake hdrop ⊢
    show (if _ then _ else _) = _
    rw [if_pos hstart, htake, hdrop]
  have hcolon : dqFront old (':' :: '$' :: (k.text ++ '"' :: t)) =
      .reads [':'] ('$' :: (k.text ++ '"' :: t)) := rfl
  have hlength : ('"' :: t).length < ('$' :: (k.text ++ '"' :: t)).length := by
    rw [List.length_cons (a := '$'), List.length_append]
    omega
  have hend : dqFront old ('"' :: t) = .ends t := rfl
  rw [escape_eq, readQuoted_append fun c _ => dqFront_writeChar old c,
    readQuoted_of_reads hcolon (Nat.lt_succ_self _), readQuoted_of_reads hdollar hlength,
    readQuoted_of_ends hend]
  simp only [prepend_some, List.append_nil, List.singleton_append]

/-- **The command is read back.** -/
theorem readExport_prependEnv (k : Name) (v t : List Char) :
    readExport old (prependEnv k.text v ++ t) =
      some (k.text, v ++ ':' :: old k.text, '\n' :: t) := by
  have hquoted := readQuoted_escape old k v ('\n' :: t)
  obtain ⟨htake, hdrop⟩ := takeWhile_name k (c := '=') (by decide)
    ('"' :: (escape v ++ (':' :: '$' :: (k.text ++ '"' :: '\n' :: t))))
  have hstart : "export ".toList.isPrefixOf ("export ".toList ++ (k.text ++ '=' :: '"' ::
      (escape v ++ (':' :: '$' :: (k.text ++ '"' :: '\n' :: t))))) = true :=
    List.isPrefixOf_iff_prefix.2 (List.prefix_append _ _)
  unfold prependEnv
  simp only [List.append_assoc, List.cons_append, List.nil_append]
  rw [readExport, if_pos hstart, List.drop_left]
  dsimp only
  rw [hdrop, htake]
  show (readQuoted (dqFront old) _).map _ = _
  rw [hquoted]
  rfl

end Bash

/-- **The quoting of three shells is read back.**  In PowerShell and elvish a value
is read back exactly where the text behind it does not continue its literal or
word; a name between braces, and a value between the double quotes of bash, are
read back whatever follows.  All commands are read back. -/
theorem quotes_round_trip_iff :
    (∀ v t, Pwsh.readLiteral ('\'' :: (Pwsh.escapeSq v ++ '\'' :: t)) = some (v, t) ↔
      Pwsh.EndsLiteral t) ∧
    (∀ k t, Pwsh.readName ("$\x7bEnv:".toList ++ (Pwsh.escapeEnvName k ++ '}' :: t)) =
      some (k, t)) ∧
    (∀ k v t, Pwsh.readAssignment (Pwsh.setEnv k v ++ t) = some (k, v, '\n' :: t)) ∧
    (∀ k v t, Pwsh.readAssignment (Pwsh.prependEnv k v ++ t) =
      some (k, v, '+' :: ("[IO.Path]::PathSeparator+$\x7benv:".toList ++
        (Pwsh.escapeEnvName k ++ '}' :: '\n' :: t)))) ∧
    (∀ k t, ∃ argument,
      Pwsh.unsetEnv k ++ t =
          "Remove-Item -ErrorAction SilentlyContinue -LiteralPath ".toList ++ argument ∧
        Pwsh.readLiteral argument = some ("Env:/".toList ++ k, '\n' :: t)) ∧
    (∀ (charset : Elvish.Charset) v t,
      Elvish.readWord charset (Elvish.escape v ++ t) = some (v, t) ↔
      Elvish.EndsWord charset v t) ∧
    (∀ charset k v t, Elvish.readSetEnv charset (Elvish.setEnv k v ++ t) =
      some (k, v, '\n' :: t)) ∧
    (∀ charset k v t, Elvish.readSetEnv charset (Elvish.prependEnv k v ++ t) =
      some (k, v ++ [':'],
        '(' :: ("get-env ".toList ++ (Elvish.escape k ++ ')' :: '\n' :: t)))) ∧
    (∀ charset k t, Elvish.readUnsetEnv charset (Elvish.unsetEnv k ++ t) = some (k, '\n' :: t)) ∧
    (∀ old (k : Bash.Name) v t,
      readQuoted (Bash.dqFront old)
          (Bash.escape v ++ (':' :: '$' :: (k.text ++ '"' :: t))) =
        some (v ++ ':' :: old k.text, t)) ∧
    ∀ old (k : Bash.Name) v t, Bash.readExport old (Bash.prependEnv k.text v ++ t) =
      some (k.text, v ++ ':' :: old k.text, '\n' :: t) :=
  ⟨Pwsh.readLiteral_escapeSq_iff, Pwsh.readName_escapeEnvName, Pwsh.readAssignment_setEnv,
    Pwsh.readAssignment_prependEnv, Pwsh.readLiteral_unsetEnv, Elvish.readWord_escape_iff,
    Elvish.readSetEnv_setEnv,
    Elvish.readSetEnv_prependEnv, Elvish.readUnsetEnv_unsetEnv, Bash.readQuoted_escape, Bash.readExport_prependEnv⟩

/-- A quote behind a literal of PowerShell goes on with it. -/
theorem quote_behind_literal :
    Pwsh.readLiteral ('\'' :: (Pwsh.escapeSq ['a'] ++ '\'' :: ['\'', 'b', '\''])) ≠
      some (['a'], ['\'', 'b', '\'']) := by
  rw [Ne, Pwsh.readLiteral_escapeSq_iff]
  exact fun h => h '\'' rfl (by decide)

end Mise
