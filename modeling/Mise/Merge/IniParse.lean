/-
# What a line does to the parser

`LineStep` has one case for each kind of line: a blank one, a comment, one that
continues the value above it, a section's header and a key.  A line is parsed
exactly when it is of one kind (`parseLine_eq_ok_iff`), and a text when its
lines are, one after another (`LineSteps`).
-/

import Mise.Merge.Ini

namespace Mise.Ini

open Lib

/-- Whether a line is neither blank nor a comment. -/
def isSignificant (line : Line) : Bool :=
  !(trimLine line).isEmpty && !startsComment (trimLine line)

/-- Whether a line goes on with the value of the key above it. -/
def ParseState.continues (st : ParseState) (line : Line) : Bool :=
  !st.current.entries.isEmpty && st.opened.any (· < indentation line)

/-- What one line makes of the parser's variables. -/
inductive LineStep (st : ParseState) (i : ℕ) (line : Line) : ParseState → Prop
  | blank (hline : (trimLine line).isEmpty = true) :
      LineStep st i line { st with blanks := st.blanks + 1 }
  | comment (hblank : (trimLine line).isEmpty = false)
      (hline : startsComment (trimLine line) = true) : LineStep st i line st
  | continues (hline : isSignificant line = true) (hcontinues : st.continues line = true) :
      LineStep st i line
        { st with
          current := { st.current with
            entries := st.current.entries.modifyLast (·.continue st.blanks (trimLine line) i) }
          blanks := 0 }
  | header (hline : isSignificant line = true) (hcontinues : st.continues line = false)
      (hbracket : (trimLine line).head? = some '[') {name : Line}
      (hname : headerName (trimLine line) = some name) (hne : name ≠ []) :
      LineStep st i line ⟨st.sections ++ [st.current], ⟨some name, some i, []⟩, none, 0⟩
  | key (hline : isSignificant line = true) (hcontinues : st.continues line = false)
      (hbracket : (trimLine line).head? ≠ some '[') (hne : (keyLine line i).key ≠ []) :
      LineStep st i line
        { st with
          current := { st.current with entries := st.current.entries ++ [keyLine line i] }
          opened := (keyLine line i).value.map fun _ => (keyLine line i).indent
          blanks := 0 }

/-- **A line is parsed when it is of one of the kinds.** -/
theorem parseLine_eq_ok_iff {what : String} {st st' : ParseState} {i : ℕ} {line : Line} :
    parseLine what st i line = .ok st' ↔ LineStep st i line st' := by
  constructor
  · intro h
    rw [parseLine] at h
    split at h
    · case isTrue hblank =>
      obtain rfl := Except.ok.inj h
      exact .blank hblank
    · case isFalse hblank =>
      rw [Bool.not_eq_true] at hblank
      split at h
      · case isTrue hcomment =>
        obtain rfl := Except.ok.inj h
        exact .comment hblank hcomment
      · case isFalse hcomment =>
        rw [Bool.not_eq_true] at hcomment
        have hline : isSignificant line = true := by
          rw [isSignificant, hblank, hcomment]
          rfl
        split at h
        · case isTrue hcontinues =>
          obtain rfl := Except.ok.inj h
          exact .continues hline hcontinues
        · case isFalse hcontinues =>
          have hcontinues : st.continues line = false := Bool.eq_false_iff.2 hcontinues
          split at h
          · case isTrue hbracket =>
            split at h
            · exact nomatch h
            · case h_2 name hname =>
              split at h
              · exact nomatch h
              · case isFalse hne =>
                obtain rfl := Except.ok.inj h
                exact .header hline hcontinues hbracket hname (mt List.isEmpty_iff.2 hne)
          · case isFalse hbracket =>
            dsimp only at h
            split at h
            · exact nomatch h
            · case isFalse hne =>
              obtain rfl := Except.ok.inj h
              exact .key hline hcontinues hbracket (mt List.isEmpty_iff.2 hne)
  · intro h
    have hsignificant : isSignificant line = true → (trimLine line).isEmpty = false ∧
        startsComment (trimLine line) = false := by
      intro hline
      rw [isSignificant, Bool.and_eq_true, Bool.not_eq_true', Bool.not_eq_true'] at hline
      exact hline
    rw [parseLine]
    cases h with
    | blank hline => rw [if_pos hline]
    | comment hblank hline =>
      rw [if_neg (Bool.eq_false_iff.1 hblank), if_pos hline]
    | continues hline hcontinues =>
      obtain ⟨hblank, hcomment⟩ := hsignificant hline
      rw [if_neg (Bool.eq_false_iff.1 hblank), if_neg (Bool.eq_false_iff.1 hcomment)]
      exact if_pos hcontinues
    | header hline hcontinues hbracket hname hne =>
      obtain ⟨hblank, hcomment⟩ := hsignificant hline
      rw [if_neg (Bool.eq_false_iff.1 hblank), if_neg (Bool.eq_false_iff.1 hcomment)]
      refine (if_neg (Bool.eq_false_iff.1 hcontinues)).trans ?_
      rw [if_pos hbracket, hname]
      exact if_neg (mt List.isEmpty_iff.1 hne)
    | key hline hcontinues hbracket hne =>
      obtain ⟨hblank, hcomment⟩ := hsignificant hline
      rw [if_neg (Bool.eq_false_iff.1 hblank), if_neg (Bool.eq_false_iff.1 hcomment)]
      refine (if_neg (Bool.eq_false_iff.1 hcontinues)).trans ?_
      rw [if_neg hbracket]
      exact if_neg (mt List.isEmpty_iff.1 hne)

/-- What lines make of the parser's variables, from line `i` on. -/
inductive LineSteps : ParseState → ℕ → List Line → ParseState → Prop
  | nil {st : ParseState} {i : ℕ} : LineSteps st i [] st
  | cons {st st₁ st' : ParseState} {i : ℕ} {line : Line} {rest : List Line}
      (first : LineStep st i line st₁) (steps : LineSteps st₁ (i + 1) rest st') :
      LineSteps st i (line :: rest) st'

theorem parseLines_eq_ok_iff {what : String} {st st' : ParseState} {i : ℕ} {ls : List Line} :
    parseLines what st i ls = .ok st' ↔ LineSteps st i ls st' := by
  induction ls generalizing st i with
  | nil =>
    constructor
    · intro h
      obtain rfl := Except.ok.inj h
      exact .nil
    · rintro ⟨⟩
      rfl
  | cons line ls ih =>
    constructor
    · intro h
      rw [parseLines] at h
      cases hline : parseLine what st i line with
      | error err =>
        rw [hline] at h
        exact nomatch h
      | ok st₁ =>
        rw [hline] at h
        exact .cons (parseLine_eq_ok_iff.1 hline) (ih.1 h)
    · intro h
      cases h with
      | cons first steps =>
        rw [parseLines, parseLine_eq_ok_iff.2 first]
        exact ih.2 steps

theorem parse_eq_ok_iff {text : List Char} {what : String} {d : Doc} :
    parse text what = .ok d ↔ ∃ st, LineSteps .start 0 (lines (stripBom text)) st ∧
      d = ⟨lines (stripBom text), st.sections ++ [st.current]⟩ := by
  rw [parse]
  constructor
  · intro h
    cases hlines : parseLines what .start 0 (lines (stripBom text)) with
    | error err =>
      rw [hlines] at h
      exact nomatch h
    | ok st =>
      rw [hlines] at h
      obtain rfl := Except.ok.inj h
      exact ⟨st, parseLines_eq_ok_iff.1 hlines, rfl⟩
  · rintro ⟨st, hsteps, rfl⟩
    have hlines : parseLines what .start 0 (lines (stripBom text)) = .ok st :=
      parseLines_eq_ok_iff.2 hsteps
    rw [hlines]
    rfl

end Mise.Ini
