/-
# An INI file as a list of headers and keys

A line that is neither blank nor a comment goes on with the value above it, heads
a section or sets a key.  Which of these it does depends on the line's text, on its
indentation and on the last header or key above it alone.  So a file is read as a
list of `Item`s, without the positions that a merge needs (`exists_parse_of_readLines`),
and lines that differ in the white space behind their text are read alike.
-/

import Mathlib.Data.List.TakeWhile
import Mise.Merge.IniSettings

namespace Mise.Ini

open Lib String

/-! ### White space at the ends of a line -/

/-- Whether all of a text is white space. -/
def IsWhite (w : Line) : Prop := ∀ c ∈ w, isWhitespace c = true

/-- A text without white space at its ends. -/
structure Trimmed (m : Line) : Prop where
  first : ∀ c ∈ m.head?, isWhitespace c = false
  last : ∀ c ∈ m.getLast?, isWhitespace c = false

theorem IsWhite.nil : IsWhite [] := nofun

theorem IsWhite.append {w w' : Line} (hw : IsWhite w) (hw' : IsWhite w') : IsWhite (w ++ w') := by
  intro c hc
  rcases List.mem_append.1 hc with hc | hc
  · exact hw c hc
  · exact hw' c hc

theorem isWhite_takeWhile (l : Line) : IsWhite (l.takeWhile isWhitespace) :=
  fun _ hc => List.mem_takeWhile_imp hc

theorem trimStart_append {w : Line} (hw : IsWhite w) (l : Line) :
    trimStart (w ++ l) = trimStart l :=
  List.dropWhile_append_of_pos hw

theorem trimEnd_append {w : Line} (hw : IsWhite w) (l : Line) : trimEnd (l ++ w) = trimEnd l := by
  have hw' : ∀ c ∈ w.reverse, isWhitespace c = true := fun c hc => hw c (List.mem_reverse.1 hc)
  rw [trimEnd, trimEnd, List.reverse_append, List.dropWhile_append_of_pos hw']

theorem dropWhile_eq_self {l : Line} (hl : ∀ c ∈ l.head?, isWhitespace c = false) :
    l.dropWhile isWhitespace = l := by
  cases l with
  | nil => rfl
  | cons c l => rw [List.dropWhile_cons, hl c rfl, if_neg Bool.false_ne_true]

theorem head?_dropWhile {l : Line} {c : Char} (h : c ∈ (l.dropWhile isWhitespace).head?) :
    isWhitespace c = false := by
  have := List.head?_dropWhile_not isWhitespace l
  rw [h] at this
  simpa using this

theorem Trimmed.trimEnd_eq {m : Line} (hm : Trimmed m) : trimEnd m = m := by
  have hlast : ∀ c ∈ m.reverse.head?, isWhitespace c = false := by
    rw [List.head?_reverse]
    exact hm.last
  rw [trimEnd, dropWhile_eq_self hlast, List.reverse_reverse]

/-- **A line is its text between white space.** -/
theorem trimLine_append {w m w' : Line} (hw : IsWhite w) (hw' : IsWhite w') (hm : Trimmed m) :
    trimLine (w ++ m ++ w') = m := by
  rw [trimLine, List.append_assoc, trimStart_append hw]
  cases m with
  | nil =>
    have hnil : trimStart ([] ++ w') = [] := List.dropWhile_eq_nil_iff.2 hw'
    rw [hnil]
    rfl
  | cons c m =>
    have hstart : trimStart (c :: m ++ w') = c :: m ++ w' :=
      dropWhile_eq_self fun d hd => hm.first d hd
    rw [hstart, trimEnd_append hw', hm.trimEnd_eq]

theorem Trimmed.trimLine_eq {m : Line} (hm : Trimmed m) : trimLine m = m := by
  have := trimLine_append IsWhite.nil IsWhite.nil hm
  rwa [List.nil_append, List.append_nil] at this

theorem trimEnd_eq_append (l : Line) : ∃ w, IsWhite w ∧ l = trimEnd l ++ w := by
  refine ⟨(l.reverse.takeWhile isWhitespace).reverse, fun c hc => ?_, ?_⟩
  · exact List.mem_takeWhile_imp (List.mem_reverse.1 hc)
  · rw [trimEnd, ← List.reverse_append, List.takeWhile_append_dropWhile, List.reverse_reverse]

theorem trimmed_trimLine (l : Line) : Trimmed (trimLine l) := by
  obtain ⟨w, hw, hl⟩ := trimEnd_eq_append (trimStart l)
  constructor
  · intro c hc
    refine head?_dropWhile (l := l) ?_
    rw [← trimStart.eq_1, hl, List.head?_append]
    rw [trimLine] at hc
    rw [hc]
    rfl
  · intro c hc
    rw [trimLine, trimEnd, List.getLast?_reverse] at hc
    exact head?_dropWhile hc

/-- The white space in front of a line's text and behind it. -/
theorem eq_trimLine_append (l : Line) :
    ∃ w', IsWhite w' ∧ l = l.takeWhile isWhitespace ++ trimLine l ++ w' := by
  obtain ⟨w', hw', hl⟩ := trimEnd_eq_append (trimStart l)
  refine ⟨w', hw', ?_⟩
  rw [trimLine, List.append_assoc, ← hl, trimStart, List.takeWhile_append_dropWhile]

theorem indentation_eq (l : Line) : indentation l = utf8Len (l.takeWhile isWhitespace) := by
  have hl : l = l.takeWhile isWhitespace ++ trimStart l :=
    (List.takeWhile_append_dropWhile (p := isWhitespace)).symm
  have hlen := congrArg utf8Len hl
  rw [utf8Len_append] at hlen
  rw [indentation]
  omega

theorem takeWhile_append_of_trimmed {w m w' : Line} (hw : IsWhite w) (hm : Trimmed m)
    (hne : m ≠ []) : (w ++ m ++ w').takeWhile isWhitespace = w := by
  obtain ⟨c, m, rfl⟩ := List.exists_cons_of_ne_nil hne
  rw [List.append_assoc, List.takeWhile_append_of_pos hw, List.cons_append, List.takeWhile_cons,
    hm.first c rfl, if_neg Bool.false_ne_true, List.append_nil]

/-- The indentation of a text behind white space. -/
theorem indentation_append {w m w' : Line} (hw : IsWhite w) (hm : Trimmed m) (hne : m ≠ []) :
    indentation (w ++ m ++ w') = utf8Len w := by
  rw [indentation_eq, takeWhile_append_of_trimmed hw hm hne]

/-! ### The key and the value of a line -/

theorem isDelimiter_of_isWhitespace {c : Char} (h : isWhitespace c = true) :
    isDelimiter c = false := by
  by_contra hc
  rw [Bool.not_eq_false, isDelimiter, Bool.or_eq_true, decide_eq_true_eq, decide_eq_true_eq] at hc
  rcases hc with rfl | rfl
  · exact absurd h (by decide)
  · exact absurd h (by decide)

/-- The key of a line's text. -/
def keyOf (m : Line) : Line := trimLine (m.takeWhile (!isDelimiter ·))

/-- The value of a line's text, on this line. -/
def valueOf (m : Line) : Option Line :=
  match m.dropWhile (!isDelimiter ·) with
  | _ :: after => some (trimLine after)
  | [] => none

theorem trimLine_append_white {w : Line} (hw : IsWhite w) (l : Line) :
    trimLine (l ++ w) = trimLine l := by
  obtain ⟨w', hw', hl⟩ := eq_trimLine_append l
  have heq : l ++ w = l.takeWhile isWhitespace ++ trimLine l ++ (w' ++ w) := by
    conv_lhs => rw [hl]
    rw [List.append_assoc]
  rw [heq]
  exact trimLine_append (isWhite_takeWhile l) (hw'.append hw) (trimmed_trimLine l)

theorem trimLine_white_append {w : Line} (hw : IsWhite w) (l : Line) :
    trimLine (w ++ l) = trimLine l := by
  rw [trimLine, trimStart_append hw, trimLine]

theorem trimLine_trimStart (l : Line) : trimLine (trimStart l) = trimLine l := by
  rw [trimLine, trimLine, trimStart, trimStart, dropWhile_eq_self fun _ => head?_dropWhile]

/-- The key and the value of a line are those of its text. -/
theorem key_value_keyLine (line : Line) (i : ℕ) :
    (keyLine line i).key = keyOf (trimLine line) ∧
      (keyLine line i).value = valueOf (trimLine line) := by
  obtain ⟨w, hw, hrest⟩ := trimEnd_eq_append (trimStart line)
  rw [← trimLine] at hrest
  have hdelim : ∀ c ∈ w, (!isDelimiter c) = true := fun c hc => by
    rw [isDelimiter_of_isWhitespace (hw c hc)]
    rfl
  rw [keyLine, keyOf, valueOf]
  cases hdrop : (trimLine line).dropWhile (!isDelimiter ·) with
  | nil =>
    have hall := List.dropWhile_eq_nil_iff.1 hdrop
    have hnone : (trimStart line).dropWhile (!isDelimiter ·) = [] := by
      rw [hrest, List.dropWhile_append_of_pos hall]
      exact List.dropWhile_eq_nil_iff.2 hdelim
    have htake : (trimLine line).takeWhile (!isDelimiter ·) = trimLine line :=
      List.takeWhile_eq_self_iff.2 hall
    rw [hnone, htake, (trimmed_trimLine line).trimLine_eq]
    exact ⟨trimLine_trimStart line, rfl⟩
  | cons d after =>
    have hd : ¬(!isDelimiter d) = true := by
      have := List.head?_dropWhile_not (!isDelimiter ·) (trimLine line)
      rw [hdrop] at this
      simpa using this
    have hsplit : trimLine line = (trimLine line).takeWhile (!isDelimiter ·) ++ d :: after := by
      rw [← hdrop, List.takeWhile_append_dropWhile]
    have htake : ∀ c ∈ (trimLine line).takeWhile (!isDelimiter ·), (!isDelimiter c) = true :=
      fun c hc => List.mem_takeWhile_imp (p := fun c => !isDelimiter c) hc
    have hline : trimStart line =
        (trimLine line).takeWhile (!isDelimiter ·) ++ d :: (after ++ w) := by
      rw [hrest]
      conv_lhs => rw [hsplit]
      rw [List.append_assoc, List.cons_append]
    have hbefore : (trimStart line).takeWhile (!isDelimiter ·) =
        (trimLine line).takeWhile (!isDelimiter ·) := by
      rw [hline, List.takeWhile_append_of_pos htake, List.takeWhile_cons, if_neg hd,
        List.append_nil]
    have hbehind : (trimStart line).dropWhile (!isDelimiter ·) = d :: (after ++ w) := by
      rw [hline, List.dropWhile_append_of_pos htake, List.dropWhile_cons, if_neg hd]
    rw [hbehind, hbefore]
    exact ⟨rfl, congrArg some (trimLine_append_white hw after)⟩

theorem indent_keyLine (line : Line) (i : ℕ) : (keyLine line i).indent = indentation line := by
  rw [keyLine]
  split
  · rfl
  · rfl

/-! ### Items -/

/-- A key with its value and the indentation of its line. -/
structure Setting where
  key : Line
  value : Option Line
  indent : ℕ
  deriving DecidableEq

/-- The header of a section, or a key in a section. -/
structure Item where
  name : Option Line
  setting : Option Setting
  deriving DecidableEq

/-- The indent beyond which a line goes on with the value of a key. -/
def Setting.opened (s : Setting) : Option ℕ := s.value.map fun _ => s.indent

/-- The indent beyond which a line goes on with a value. -/
def opened (its : List Item) : Option ℕ := (its.getLast?.bind (·.setting)).bind Setting.opened

/-- The section that a key comes to stand in. -/
def lastName (its : List Item) : Option Line := its.getLast?.bind (·.name)

@[simp] theorem opened_concat (its : List Item) (it : Item) :
    opened (its ++ [it]) = it.setting.bind Setting.opened := by
  rw [opened, List.getLast?_concat]
  rfl

@[simp] theorem lastName_concat (its : List Item) (it : Item) :
    lastName (its ++ [it]) = it.name := by
  rw [lastName, List.getLast?_concat]
  rfl

/-- A line that continues a value. -/
def Setting.continue (s : Setting) (blanks : ℕ) (trimmed : Line) : Setting :=
  { s with value := s.value.map (· ++ List.replicate (blanks + 1) '\n' ++ trimmed) }

/-- A line that continues the value of an item. -/
def Item.continue (it : Item) (blanks : ℕ) (trimmed : Line) : Item :=
  { it with setting := it.setting.map (·.continue blanks trimmed) }

/-- The header or the key that a line starts. -/
def itemOf (its : List Item) (line : Line) : Option Item :=
  if (trimLine line).head? = some '[' then
    (headerName (trimLine line)).bind fun name => if name = [] then none else some ⟨some name, none⟩
  else if keyOf (trimLine line) = [] then none
  else some ⟨lastName its, some ⟨keyOf (trimLine line), valueOf (trimLine line), indentation line⟩⟩

/-- What a line makes of the items above it, with the blank lines since the last one that
says something. -/
def readLine (r : List Item × ℕ) (line : Line) : Option (List Item × ℕ) :=
  if isSignificant line then
    if (opened r.1).any (· < indentation line) then
      some (r.1.modifyLast (·.continue r.2 (trimLine line)), 0)
    else
      (itemOf r.1 line).map fun it => (r.1 ++ [it], 0)
  else
    some (r.1, if (trimLine line).isEmpty then r.2 + 1 else r.2)

/-- What lines make of the items above them. -/
def readLines (r : List Item × ℕ) (ls : List Line) : Option (List Item × ℕ) :=
  ls.foldlM readLine r

theorem readLines_cons (r : List Item × ℕ) (line : Line) (ls : List Line) :
    readLines r (line :: ls) = (readLine r line).bind fun r' => readLines r' ls :=
  List.foldlM_cons

theorem readLines_append (r : List Item × ℕ) (ls ls' : List Line) :
    readLines r (ls ++ ls') = (readLines r ls).bind fun r' => readLines r' ls' :=
  List.foldlM_append

/-- The items of a section. -/
def Section.items (s : Section) : List Item :=
  (s.header.toList.map fun _ => ⟨s.name, none⟩) ++
    s.entries.map fun e => ⟨s.name, some ⟨e.key, e.value, e.indent⟩⟩

/-- The items of a file. -/
def Doc.items (d : Doc) : List Item := d.sections.flatMap Section.items

/-- The parser's variables hold the items that were read. -/
structure Shows (st : ParseState) (r : List Item × ℕ) : Prop where
  items : (st.sections ++ [st.current]).flatMap Section.items = r.1
  opened : st.opened = opened r.1
  name : st.current.name = lastName r.1
  blanks : st.blanks = r.2
  entries : st.opened.isSome → st.current.entries ≠ []

theorem shows_start : Shows .start ([], 0) := ⟨rfl, rfl, rfl, rfl, nofun⟩

/-! ### The parser reads the items -/

theorem continues_eq {st : ParseState} {r : List Item × ℕ} (h : Shows st r) (line : Line) :
    st.continues line = (Ini.opened r.1).any (· < indentation line) := by
  rw [ParseState.continues, ← h.opened]
  cases hopened : st.opened with
  | none => simp
  | some k =>
    have hne := h.entries (by simp [hopened])
    simp [hne]

theorem items_header (sections : List Section) (current : Section) (name : Line) (i : ℕ) :
    (sections ++ [current] ++ [Section.mk (some name) (some i) []]).flatMap Section.items =
      (sections ++ [current]).flatMap Section.items ++ [⟨some name, none⟩] := by
  simp [Section.items]

theorem items_key (sections : List Section) (current : Section) (e : Entry) :
    (sections ++ [{ current with entries := current.entries ++ [e] }]).flatMap Section.items =
      (sections ++ [current]).flatMap Section.items ++
        [⟨current.name, some ⟨e.key, e.value, e.indent⟩⟩] := by
  simp [Section.items]

theorem items_continue (sections : List Section) (current : Section)
    (hne : current.entries ≠ []) (blanks : ℕ) (trimmed : Line) (i : ℕ) :
    (sections ++ [{ current with
        entries := current.entries.modifyLast (·.continue blanks trimmed i) }]).flatMap
          Section.items =
      ((sections ++ [current]).flatMap Section.items).modifyLast (·.continue blanks trimmed) := by
  obtain ⟨init, last, hlast⟩ := current.entries.eq_nil_or_concat'.resolve_left hne
  have hitems : (sections ++ [current]).flatMap Section.items =
      (sections ++ [{ current with entries := init }]).flatMap Section.items ++
        [⟨current.name, some ⟨last.key, last.value, last.indent⟩⟩] := by
    rw [← items_key, ← hlast]
  rw [hitems, List.modifyLast_concat, hlast, List.modifyLast_concat]
  exact items_key sections { current with entries := init } (last.continue blanks trimmed i)

/-- What continues a value does not end it. -/
theorem opened_modifyLast (its : List Item) (blanks : ℕ) (trimmed : Line) :
    opened (its.modifyLast (·.continue blanks trimmed)) = opened its ∧
      lastName (its.modifyLast (·.continue blanks trimmed)) = lastName its := by
  rcases its.eq_nil_or_concat' with rfl | ⟨init, ⟨name, setting⟩, rfl⟩
  · exact ⟨rfl, rfl⟩
  · simp only [List.modifyLast_concat, opened_concat, lastName_concat]
    refine ⟨?_, rfl⟩
    rcases setting with _ | ⟨key, _ | v, indent⟩
    · rfl
    · rfl
    · rfl

/-- **A line that is read is parsed.** -/
theorem Shows.step {st : ParseState} {r r' : List Item × ℕ} {line : Line} (h : Shows st r)
    (hr : readLine r line = some r') (i : ℕ) : ∃ st', LineStep st i line st' ∧ Shows st' r' := by
  rw [readLine] at hr
  split at hr
  · case isTrue hline =>
    split at hr
    · case isTrue hopen =>
      obtain rfl := Option.some.inj hr
      have hcontinues := (continues_eq h line).trans hopen
      have hne : st.current.entries ≠ [] := by
        rw [ParseState.continues, Bool.and_eq_true] at hcontinues
        simpa using hcontinues.1
      refine ⟨_, .continues hline hcontinues, ?_⟩
      obtain ⟨hopened, hname⟩ := opened_modifyLast r.1 r.2 (trimLine line)
      constructor
      · rw [← h.items, h.blanks]
        exact items_continue _ _ hne _ _ i
      · exact h.opened.trans hopened.symm
      · exact h.name.trans hname.symm
      · rfl
      · intro _ hnil
        obtain ⟨init, last, hlast⟩ := st.current.entries.eq_nil_or_concat'.resolve_left hne
        rw [hlast, List.modifyLast_concat] at hnil
        exact absurd hnil (by simp)
    · case isFalse hopen =>
      have hcontinues := (continues_eq h line).trans (Bool.eq_false_iff.2 hopen)
      obtain ⟨it, hit, rfl⟩ := Option.map_eq_some_iff.1 hr
      rw [itemOf] at hit
      split at hit
      · case isTrue hbracket =>
        obtain ⟨name, hname, hit⟩ := Option.bind_eq_some_iff.1 hit
        split at hit
        · exact nomatch hit
        · case isFalse hne =>
          obtain rfl := Option.some.inj hit
          refine ⟨_, .header hline hcontinues hbracket hname hne, ?_⟩
          constructor
          · rw [← h.items]
            exact items_header _ _ _ _
          · simp
          · simp
          · rfl
          · exact nofun
      · case isFalse hbracket =>
        split at hit
        · exact nomatch hit
        · case isFalse hne =>
          obtain rfl := Option.some.inj hit
          obtain ⟨hkey, hvalue⟩ := key_value_keyLine line i
          refine ⟨_, .key hline hcontinues hbracket (hkey ▸ hne), ?_⟩
          constructor
          · rw [← h.name, ← h.items, ← hkey, ← hvalue, ← indent_keyLine line i]
            exact items_key _ _ _
          · simp [Setting.opened, hvalue, indent_keyLine]
          · simp [h.name]
          · rfl
          · intro _ hnil
            exact absurd hnil (by simp)
  · case isFalse hline =>
    obtain rfl := Option.some.inj hr
    by_cases hblank : (trimLine line).isEmpty = true
    · refine ⟨_, .blank hblank, h.items, h.opened, h.name, ?_, h.entries⟩
      rw [if_pos hblank]
      exact congrArg (· + 1) h.blanks
    · have hcomment : startsComment (trimLine line) = true := by
        rw [isSignificant] at hline
        simpa [hblank] using hline
      refine ⟨_, .comment (Bool.eq_false_iff.2 hblank) hcomment, h.items, h.opened, h.name, ?_,
        h.entries⟩
      rw [if_neg hblank]
      exact h.blanks

theorem Shows.steps {st : ParseState} {r r' : List Item × ℕ} {ls : List Line} (h : Shows st r)
    (hr : readLines r ls = some r') (i : ℕ) : ∃ st', LineSteps st i ls st' ∧ Shows st' r' := by
  induction ls generalizing st r i with
  | nil =>
    obtain rfl := Option.some.inj hr
    exact ⟨st, .nil, h⟩
  | cons line ls ih =>
    rw [readLines_cons] at hr
    obtain ⟨r₁, hline, hr⟩ := Option.bind_eq_some_iff.1 hr
    obtain ⟨st₁, hstep, h₁⟩ := h.step hline i
    obtain ⟨st', hsteps, h'⟩ := ih h₁ hr (i + 1)
    exact ⟨st', .cons hstep hsteps, h'⟩

/-- **A text whose lines are read is parsed, to the items that were read.** -/
theorem exists_parse_of_readLines {text : List Char} {its : List Item} {blanks : ℕ}
    (h : readLines ([], 0) (lines (stripBom text)) = some (its, blanks)) (what : String) :
    ∃ d, parse text what = .ok d ∧ d.lines = lines (stripBom text) ∧ d.items = its := by
  obtain ⟨st, hsteps, hshows⟩ := shows_start.steps h 0
  exact ⟨_, parse_eq_ok_iff.2 ⟨st, hsteps, rfl⟩, rfl, hshows.items⟩

end Mise.Ini
