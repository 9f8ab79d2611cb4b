/-
# Quoting for fish

`src/shell/fish.rs`: `escape` writes a value so that fish reads it as one word, and
the commands that set variables and aliases are put together from such words.

How fish reads a word is stated here (`readWord`): a bare character outside
`needs_quoting` is itself, and inside `'...'` only a backslash before a quote or
before another backslash is an escape.  Any other bare character has a meaning of
its own, and a word with one is not read.
-/

import Mathlib.Data.List.Basic

namespace Mise.Fish

/-! ### Writing -/

/-- `needs_quoting`. -/
def needsQuoting (ch : Char) : Bool :=
  !('a' ≤ ch && ch ≤ 'z' || 'A' ≤ ch && ch ≤ 'Z' || '0' ≤ ch && ch ≤ '9' || ch = '-' || ch = '_' ||
    ch = '=' || ch = '/' || ch = ',' || ch = '.' || ch = '+')

/-- The loop of `escape`. -/
def escapeChars : List Char → List Char
  | [] => []
  | c :: chars =>
    if c = '\'' then '\\' :: '\'' :: escapeChars chars
    else if c = '\\' ∧ (chars.head? = none ∨ chars.head? = some '\\' ∨ chars.head? = some '\'') then
      '\\' :: '\\' :: escapeChars chars
    else c :: escapeChars chars

/-- `escape`. -/
def escape (input : List Char) : List Char :=
  if input ≠ [] ∧ input.any needsQuoting = false then input
  else '\'' :: escapeChars input ++ ['\'']

/-! ### Reading -/

/-- Whether a character ends a bare word. -/
def isSeparator (c : Char) : Bool := c = ' ' || c = '\t' || c = '\n'

/-- A character of a word, in front of what is read after it. -/
def push (c : Char) (read : Option (List Char × List Char)) : Option (List Char × List Char) :=
  read.map fun p => (c :: p.1, p.2)

/-- The rest of a word, inside quotes or not, and the text behind the word. -/
def readRest : Bool → List Char → Option (List Char × List Char)
  | false, [] => some ([], [])
  | false, c :: text =>
    if isSeparator c then some ([], c :: text)
    else if c = '\'' then readRest true text
    else if needsQuoting c then none
    else push c (readRest false text)
  | true, [] => none
  | true, '\\' :: '\\' :: text => push '\\' (readRest true text)
  | true, '\\' :: '\'' :: text => push '\'' (readRest true text)
  | true, c :: text => if c = '\'' then readRest false text else push c (readRest true text)

/-- A word, and the text behind it; there is none where the text starts with a separator. -/
def readWord : List Char → Option (List Char × List Char)
  | [] => none
  | c :: text => if isSeparator c then none else readRest false (c :: text)

/-! ### Reading what was written -/

/-- Where a word ends. -/
def EndsWord (t : List Char) : Prop := ∀ c ∈ t.head?, isSeparator c = true

theorem needsQuoting_of_isSeparator {c : Char} (h : isSeparator c = true) :
    needsQuoting c = true := by
  simp only [isSeparator, Bool.or_eq_true, decide_eq_true_eq] at h
  rcases h with (rfl | rfl) | rfl <;> decide

theorem readRest_bare {v t : List Char} (hv : v.any needsQuoting = false) (ht : EndsWord t) :
    readRest false (v ++ t) = some (v, t) := by
  induction v with
  | nil =>
    cases t with
    | nil => rfl
    | cons c t => exact if_pos (ht c rfl)
  | cons c v ih =>
    rw [List.any_cons, Bool.or_eq_false_iff] at hv
    have hseparator : isSeparator c ≠ true := fun h =>
      Bool.false_ne_true (hv.1.symm.trans (needsQuoting_of_isSeparator h))
    have hquote : c ≠ '\'' := by
      rintro rfl
      exact absurd hv.1 (by decide)
    rw [List.cons_append, readRest, if_neg hseparator, if_neg hquote, if_neg (by simp [hv.1]),
      ih hv.2]
    rfl

/-- A character that is no backslash stands for itself inside quotes, unless it ends them. -/
theorem readRest_quoted {c : Char} (hquote : c ≠ '\'') (hbackslash : c ≠ '\\')
    (text : List Char) : readRest true (c :: text) = push c (readRest true text) := by
  rw [readRest]
  · exact if_neg hquote
  · exact fun _ h => absurd h hbackslash
  · exact fun _ h => absurd h hbackslash

/-- A backslash stands for itself in front of any other character. -/
theorem readRest_backslash {c : Char} (hquote : c ≠ '\'') (hbackslash : c ≠ '\\')
    (text : List Char) :
    readRest true ('\\' :: c :: text) = push '\\' (readRest true (c :: text)) := by
  rw [readRest]
  · exact if_neg (by decide)
  · exact fun _ _ h => absurd (List.cons.inj h).1 hbackslash
  · exact fun _ _ h => absurd (List.cons.inj h).1 hquote

/-- **What is written between quotes is read back**, with what follows the closing quote. -/
theorem readRest_escapeChars (v t : List Char) :
    readRest true (escapeChars v ++ '\'' :: t) =
      (readRest false t).map fun p => (v ++ p.1, p.2) := by
  induction v with
  | nil =>
    rw [escapeChars, List.nil_append, readRest]
    · simp
    · exact fun _ h => nomatch h
    · exact fun _ h => nomatch h
  | cons c v ih =>
    have hpush : ∀ a, push a ((readRest false t).map fun p => (v ++ p.1, p.2)) =
        (readRest false t).map fun p => (a :: v ++ p.1, p.2) := by
      intro a
      rw [push, Option.map_map]
      rfl
    rw [escapeChars]
    by_cases hquote : c = '\''
    · rw [if_pos hquote, List.cons_append, List.cons_append, readRest, ih, hpush, hquote]
    · rw [if_neg hquote]
      by_cases hbackslash : c = '\\'
      · subst hbackslash
        split
        · case isTrue h => rw [List.cons_append, List.cons_append, readRest, ih, hpush]
        · case isFalse h =>
          -- the next character is written as it is, so that the backslash is no escape
          simp only [true_and, not_or] at h
          obtain ⟨hnone, hslash, hquote'⟩ := h
          cases v with
          | nil => exact absurd rfl hnone
          | cons d v =>
            have hd : d ≠ '\\' := fun h => hslash (congrArg some h)
            have hd' : d ≠ '\'' := fun h => hquote' (congrArg some h)
            have hescape : escapeChars (d :: v) = d :: escapeChars v := by
              rw [escapeChars, if_neg hd', if_neg (by simp [hd])]
            rw [hescape] at ih ⊢
            rw [List.cons_append, List.cons_append, readRest_backslash hd' hd,
              ← List.cons_append, ih, hpush]
      · rw [if_neg fun h => hbackslash h.1, List.cons_append, readRest_quoted hquote hbackslash, ih,
          hpush]

/-- **fish reads an escaped value as one word, the value, and stops behind it.** -/
theorem readWord_escape (v : List Char) {t : List Char} (ht : EndsWord t) :
    readWord (escape v ++ t) = some (v, t) := by
  rw [escape]
  split
  · case isTrue h =>
    obtain ⟨hne, hbare⟩ := h
    obtain ⟨c, v, rfl⟩ := List.exists_cons_of_ne_nil hne
    have hseparator : isSeparator c ≠ true := by
      intro hc
      rw [List.any_cons, needsQuoting_of_isSeparator hc, Bool.true_or] at hbare
      exact nomatch hbare
    rw [List.cons_append, readWord, if_neg hseparator, ← List.cons_append, readRest_bare hbare ht]
  · have hend : readRest false t = some ([], t) := readRest_bare (v := []) rfl ht
    rw [List.cons_append, List.cons_append, readWord, if_neg (by decide), readRest,
      if_neg (by decide), if_pos rfl, List.append_assoc, List.singleton_append,
      readRest_escapeChars, hend, Option.map_some, List.append_nil]

/-- **A value cannot end its word early**: fish reads what `escape` wrote as one word, which is
the value, whatever the value holds and whatever follows behind a blank or a newline. -/
theorem escape_round_trip (v : String) {t : List Char} (ht : EndsWord t) :
    readWord (escape v.toList ++ t) = some (v.toList, t) :=
  readWord_escape v.toList ht

/-- A quote behind a backslash stays in its word. -/
theorem escape_round_trip_quote :
    readWord (escape "x\\'; touch PWNED; #".toList ++ "\ntouch PWNED".toList) =
      some ("x\\'; touch PWNED; #".toList, "\ntouch PWNED".toList) :=
  escape_round_trip "x\\'; touch PWNED; #" (by rintro c ⟨⟩; rfl)

/-! ### Commands -/

end Mise.Fish
