/-
# Quoting for xonsh

`src/shell/xonsh.rs`: `xonsh_escape_sq` writes a value for a single-quoted
literal of Python, which xonsh reads by Python's lexical rules (`pyFront`).  The
three characters it escapes are the quote, the backslash and the line feed.  A
carriage return ends a line of Python as well, and one in a value is written as
it is (`xonsh_round_trip_iff`).
-/

import Mise.Lib.Quoting

namespace Mise.Xonsh

open Lib

/-! ### Writing -/

/-- `xonsh_escape_char`. -/
def xonshEscapeChar (ch : Char) : Option (List Char) :=
  if ch = '\'' then some ['\\', '\'']
  else if ch = '\\' then some ['\\', '\\']
  else if ch = '\n' then some ['\\', 'n']
  else none

/-- What the loop of `xonsh_escape_sq` writes for a character. -/
def writeChar (ch : Char) : List Char := (xonshEscapeChar ch).getD [ch]

/-- `Cow`. -/
inductive Cow where
  | borrowed (text : List Char)
  | owned (text : List Char)

def Cow.text : Cow → List Char
  | borrowed text => text
  | owned text => text

/-- `xonsh_escape_sq`: the input up to its first character to escape is copied as
it is, and there is a copy only where there is such a character. -/
def xonshEscapeSq (input : List Char) : Cow :=
  match input.findIdx? fun ch => (xonshEscapeChar ch).isSome with
  | some i => .owned (input.take i ++ (input.drop i).flatMap writeChar)
  | none => .borrowed input

variable (shellEscape : List Char → List Char)

/-- The literal that `set_env` and `prepend_env` write for a value. -/
def literal (v : List Char) : List Char := '\'' :: ((xonshEscapeSq v).text ++ ['\''])

/-- `set_env`; `shellEscape` is `shell_escape::unix::escape`. -/
def setEnv (k v : List Char) : List Char :=
  "from xonsh.built_ins import XSH\nXSH.env['".toList ++ shellEscape k ++ "'] = ".toList ++
    literal v ++ ['\n']

/-- `prepend_env`. -/
def prependEnv (k v : List Char) : List Char :=
  "from xonsh.built_ins import XSH\nXSH.env['".toList ++ shellEscape k ++ "'].add(".toList ++
    literal v ++ ", front=True)\n".toList

/-! ### Reading -/

/-- The value of a digit in a base up to 16. -/
def digitValue (base : ℕ) (c : Char) : Option ℕ :=
  let value := if '0' ≤ c ∧ c ≤ '9' then c.toNat - '0'.toNat
    else if 'a' ≤ c ∧ c ≤ 'f' then c.toNat - 'a'.toNat + 10
    else if 'A' ≤ c ∧ c ≤ 'F' then c.toNat - 'A'.toNat + 10
    else base
  if value < base then some value else none

/-- The number that up to `n` digits at the front write, how many they are, and the text
behind them. -/
def readDigits (base : ℕ) : ℕ → ℕ → List Char → ℕ × ℕ × List Char
  | 0, value, text => (value, 0, text)
  | _ + 1, value, [] => (value, 0, [])
  | n + 1, value, c :: text =>
    match digitValue base c with
    | none => (value, 0, c :: text)
    | some d =>
      let read := readDigits base n (base * value + d) text
      (read.1, read.2.1 + 1, read.2.2)

/-- The character that exactly `n` hexadecimal digits name. -/
def hexEscape (n : ℕ) (text : List Char) : Front Char Char :=
  let read := readDigits 16 n 0 text
  if read.2.1 = n ∧ read.1.isValidChar then .reads [Char.ofNat read.1] read.2.2 else .fails

/-- What a backslash means in front of a character and the text behind it. -/
def pyEscape (named : List Char → Option Char) (c : Char) (text : List Char) : Front Char Char :=
  match c with
  | '\n' => .reads [] text
  | '\r' => .reads [] (if text.head? = some '\n' then text.tail else text)
  | '\\' | '\'' | '"' => .reads [c] text
  | 'a' => .reads ['\x07'] text
  | 'b' => .reads ['\x08'] text
  | 'f' => .reads ['\x0c'] text
  | 'n' => .reads ['\n'] text
  | 'r' => .reads ['\r'] text
  | 't' => .reads ['\t'] text
  | 'v' => .reads ['\x0b'] text
  | 'x' => hexEscape 2 text
  | 'u' => hexEscape 4 text
  | 'U' => hexEscape 8 text
  | 'N' =>
    match text with
    | '{' :: text =>
      match named (text.takeWhile (· ≠ '}')), text.dropWhile (· ≠ '}') with
      | some c, _ :: rest => .reads [c] rest
      | _, _ => .fails
    | _ => .fails
  | _ =>
    if (digitValue 8 c).isSome then
      let read := readDigits 8 3 0 (c :: text)
      .reads [Char.ofNat read.1] read.2.2
    else .reads ['\\', c] text

/-- The front of a text inside a single-quoted literal, as Python reads it;
`named` gives the characters of Unicode their names.  A literal ends on its
line, and a line ends with a line feed, a carriage return, or both. -/
def pyFront (named : List Char → Option Char) : List Char → Front Char Char
  | [] => .fails
  | c :: text =>
    if c = '\'' then .ends text
    else if c = '\n' ∨ c = '\r' then .fails
    else if c = '\\' then
      match text with
      | [] => .fails
      | e :: text => pyEscape named e text
    else .reads [c] text

/-- The value of the literal at the front of a text, and the text behind it. -/
def readLiteral (named : List Char → Option Char) : List Char → Option (List Char × List Char)
  | '\'' :: text => readQuoted (pyFront named) text
  | _ => none

/-! ### Reading what was written -/

/-- The copy and the input say the same. -/
theorem text_xonshEscapeSq (v : List Char) : (xonshEscapeSq v).text = v.flatMap writeChar := by
  have hplain : ∀ l : List Char, (∀ c ∈ l, (xonshEscapeChar c).isSome = false) →
      l.flatMap writeChar = l := by
    intro l hl
    induction l with
    | nil => rfl
    | cons c l ih =>
      have hc := Option.not_isSome_iff_eq_none.1 (Bool.eq_false_iff.1 (hl c List.mem_cons_self))
      rw [List.flatMap_cons, writeChar, hc, Option.getD_none, List.singleton_append,
        ih fun d hd => hl d (List.mem_cons_of_mem c hd)]
  rw [xonshEscapeSq]
  cases hi : v.findIdx? fun ch => (xonshEscapeChar ch).isSome with
  | none => exact (hplain v (List.findIdx?_eq_none_iff.1 hi)).symm
  | some i =>
    obtain ⟨hlt, -, hbefore⟩ := List.findIdx?_eq_some_iff_getElem.1 hi
    have htake : (v.take i).flatMap writeChar = v.take i := by
      refine hplain _ fun c hc => ?_
      obtain ⟨j, hj, rfl⟩ := List.getElem_of_mem hc
      rw [List.length_take] at hj
      rw [List.getElem_take]
      exact Bool.eq_false_iff.2 (hbefore j (by omega))
    show v.take i ++ (v.drop i).flatMap writeChar = _
    conv_rhs => rw [← List.take_append_drop i v, List.flatMap_append, htake]

theorem pyFront_writeChar (named : List Char → Option Char) {c : Char} (hc : c ≠ '\r') :
    writeChar c ≠ [] ∧ ∀ rest, pyFront named (writeChar c ++ rest) = .reads [c] rest := by
  rw [writeChar, xonshEscapeChar]
  split
  · case isTrue h =>
    subst h
    exact ⟨List.cons_ne_nil _ _, fun rest => rfl⟩
  split
  · case isTrue h =>
    subst h
    exact ⟨List.cons_ne_nil _ _, fun rest => rfl⟩
  split
  · case isTrue h =>
    subst h
    exact ⟨List.cons_ne_nil _ _, fun rest => rfl⟩
  · case isFalse hquote hbackslash hnewline =>
    refine ⟨List.cons_ne_nil _ _, fun rest => ?_⟩
    exact (if_neg hquote).trans
      ((if_neg (not_or.2 ⟨hnewline, hc⟩)).trans (if_neg hbackslash))

/-- The front of a literal is that of the text its value is written as. -/
theorem readLiteral_literal (named : List Char → Option Char) (v t : List Char) :
    readLiteral named (literal v ++ t) =
      readQuoted (pyFront named) (v.flatMap writeChar ++ (['\''] ++ t)) := by
  rw [literal, text_xonshEscapeSq, List.cons_append, List.append_assoc]
  rfl

/-- A carriage return ends the line, and the literal is not read. -/
theorem readLiteral_of_mem (named : List Char → Option Char) {v : List Char} (hv : '\r' ∈ v)
    (t : List Char) : readLiteral named (literal v ++ t) = none := by
  obtain ⟨before, after, rfl, hbefore⟩ := List.eq_append_cons_of_mem hv
  have hread : ∀ c ∈ before, writeChar c ≠ [] ∧
      ∀ rest, pyFront named (writeChar c ++ rest) = .reads [c] rest :=
    fun c hc => pyFront_writeChar named fun h => hbefore (h ▸ hc)
  have hwrite : writeChar '\r' = ['\r'] := by decide
  rw [readLiteral_literal, List.flatMap_append, List.flatMap_cons, List.append_assoc, hwrite,
    readQuoted_append hread, readQuoted_of_fails rfl]
  rfl

/-- **A literal is read back, and ends where it was ended, exactly when its
value has no carriage return.**  The input that is passed on and the copy say
the same. -/
theorem xonsh_round_trip_iff (named : List Char → Option Char)
    (shellEscape : List Char → List Char) (k v : List Char) :
    (∀ t, readLiteral named (literal v ++ t) = some (v, t) ↔ '\r' ∉ v) ∧
      (∃ before, setEnv shellEscape k v = before ++ (literal v ++ ['\n'])) ∧
      (∃ before, prependEnv shellEscape k v = before ++ (literal v ++ ", front=True)\n".toList)) ∧
      (xonshEscapeSq v).text = v.flatMap writeChar := by
  refine ⟨fun t => ⟨fun hread hv => ?_, fun hv => ?_⟩, ⟨_, List.append_assoc ..⟩,
    ⟨_, List.append_assoc ..⟩, text_xonshEscapeSq v⟩
  · rw [readLiteral_of_mem named hv t] at hread
    exact Option.some_ne_none _ hread.symm
  · rw [readLiteral_literal]
    exact readQuoted_flatMap (fun c hc => pyFront_writeChar named fun h => hv (h ▸ hc)) rfl

/-- A carriage return in a value breaks its literal. -/
theorem xonsh_carriage_return :
    readLiteral (fun _ => none) (literal "a\rb".toList ++ ['\n']) ≠
      some ("a\rb".toList, ['\n']) := by
  rw [readLiteral_of_mem _ (by decide)]
  exact (Option.some_ne_none _).symm

end Mise.Xonsh
