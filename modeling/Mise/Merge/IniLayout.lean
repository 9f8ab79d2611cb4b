/-
# Where a file has its headers and keys

The lines of a parsed file are blank lines and comments, and then one `Part` for each
header and each key: its lines, and the blank lines and comments up to the next one
(`exists_layout`).  What a merge asks of a file, the entry that sets a key and the place
where a section ends, is found in the parts.
-/

import Mise.Merge.IniRead

namespace Mise.Ini

open Lib String

/-! ### The lines of a key -/

/-- A line behind a key whose value has gone on so far, with the blank lines since. -/
def addLine (v : Line × ℕ) (line : Line) : Line × ℕ :=
  if isSignificant line then
    (v.1 ++ List.replicate (v.2 + 1) '\n' ++ trimLine line, 0)
  else
    (v.1, if (trimLine line).isEmpty then v.2 + 1 else v.2)

/-- A value on a key's line that goes on below it. -/
def valueFrom (v : Line) (body : List Line) : Line := (body.foldl addLine (v, 0)).1

/-- The lines below a key are those of its value. -/
def IsBody (indent : ℕ) (first : Option Line) (body : List Line) (value : Option Line) : Prop :=
  match first with
  | none => body = [] ∧ value = none
  | some v => value = some (valueFrom v body) ∧
      ∀ line ∈ body, isSignificant line = true → indent < indentation line

/-- The lines that set a key. -/
structure SetsKey (line : Line) (body : List Line) (s : Setting) : Prop where
  significant : isSignificant line = true
  bracket : (trimLine line).head? ≠ some '['
  key : keyOf (trimLine line) = s.key
  named : s.key ≠ []
  indent : indentation line = s.indent
  body : IsBody s.indent (valueOf (trimLine line)) body s.value

/-- The line that heads a section. -/
structure Heads (line : Line) (name : Line) : Prop where
  significant : isSignificant line = true
  bracket : (trimLine line).head? = some '['
  title : headerName (trimLine line) = some name
  named : name ≠ []

/-- Lines that say nothing. -/
def IsNoise (ls : List Line) : Prop := ∀ line ∈ ls, isSignificant line = false

/-! ### Reading them -/

/-- Lines that add to the items above them. -/
def Reads (ls : List Line) (its its' : List Item) : Prop :=
  ∀ blanks, ∃ blanks', readLines (its, blanks) ls = some (its', blanks')

theorem Reads.nil (its : List Item) : Reads [] its its := fun blanks => ⟨blanks, rfl⟩

theorem Reads.append {ls ls' : List Line} {its its₁ its' : List Item} (h : Reads ls its its₁)
    (h' : Reads ls' its₁ its') : Reads (ls ++ ls') its its' := by
  intro blanks
  obtain ⟨b₁, h₁⟩ := h blanks
  obtain ⟨b₂, h₂⟩ := h' b₁
  refine ⟨b₂, ?_⟩
  rw [readLines_append, h₁]
  exact h₂

theorem readLine_noise {line : Line} (h : isSignificant line = false) (r : List Item × ℕ) :
    readLine r line = some (r.1, if (trimLine line).isEmpty then r.2 + 1 else r.2) := by
  rw [readLine, if_neg (Bool.eq_false_iff.1 h)]

theorem IsNoise.reads {ls : List Line} (h : IsNoise ls) (its : List Item) : Reads ls its its := by
  intro blanks
  induction ls generalizing blanks with
  | nil => exact ⟨blanks, rfl⟩
  | cons line ls ih =>
    rw [IsNoise, List.forall_mem_cons] at h
    rw [readLines_cons, readLine_noise h.1]
    exact ih h.2 _

theorem readLine_item {its : List Item} {line : Line} {it : Item}
    (h : isSignificant line = true) (hfits : ∀ k ∈ opened its, indentation line ≤ k)
    (hit : itemOf its line = some it) (blanks : ℕ) :
    readLine (its, blanks) line = some (its ++ [it], 0) := by
  have hopen : (opened its).any (· < indentation line) = false := by
    cases hopened : opened its with
    | none => rfl
    | some k =>
      have := hfits k hopened
      simpa using this
  rw [readLine, if_pos h, if_neg (Bool.eq_false_iff.1 hopen), hit]
  rfl

/-- A header is read as one where it does not go on with a value. -/
theorem Heads.reads {line name : Line} (h : Heads line name) {its : List Item}
    (hfits : ∀ k ∈ opened its, indentation line ≤ k) :
    Reads [line] its (its ++ [⟨some name, none⟩]) := by
  have hit : itemOf its line = some ⟨some name, none⟩ := by
    rw [itemOf, if_pos h.bracket, h.title, Option.bind_some, if_neg h.named]
  intro blanks
  refine ⟨0, ?_⟩
  rw [readLines_cons, readLine_item h.significant hfits hit]
  rfl

/-- The lines of a value are read as it, one after another. -/
theorem readLines_body {indent : ℕ} {body : List Line}
    (hbody : ∀ line ∈ body, isSignificant line = true → indent < indentation line)
    (its : List Item) (name : Option Line) (key : Line) (v : Line × ℕ) :
    readLines (its ++ [⟨name, some ⟨key, some v.1, indent⟩⟩], v.2) body =
      some (its ++ [⟨name, some ⟨key, some (body.foldl addLine v).1, indent⟩⟩],
        (body.foldl addLine v).2) := by
  induction body generalizing v with
  | nil => rfl
  | cons line body ih =>
    rw [List.forall_mem_cons] at hbody
    rw [readLines_cons]
    by_cases hline : isSignificant line = true
    · have hopened : opened (its ++ [⟨name, some ⟨key, some v.1, indent⟩⟩]) = some indent := by
        rw [opened, List.getLast?_concat]
        rfl
      have hopen : (opened (its ++ [⟨name, some ⟨key, some v.1, indent⟩⟩])).any
          (· < indentation line) = true := by
        rw [hopened]
        exact decide_eq_true (hbody.1 hline)
      have hstep : readLine (its ++ [⟨name, some ⟨key, some v.1, indent⟩⟩], v.2) line =
          some (its ++ [⟨name, some ⟨key, some (addLine v line).1, indent⟩⟩],
            (addLine v line).2) := by
        rw [readLine, if_pos hline, if_pos hopen, List.modifyLast_concat, addLine, if_pos hline]
        rfl
      rw [hstep]
      exact ih hbody.2 (addLine v line)
    · have hline : isSignificant line = false := Bool.eq_false_iff.2 hline
      have hstep : addLine v line =
          (v.1, if (trimLine line).isEmpty then v.2 + 1 else v.2) := by
        rw [addLine, if_neg (Bool.eq_false_iff.1 hline)]
      rw [readLine_noise hline, List.foldl_cons, hstep]
      exact ih hbody.2 (v.1, if (trimLine line).isEmpty then v.2 + 1 else v.2)

/-- The lines of a key are read as it where they do not go on with a value. -/
theorem SetsKey.reads {line : Line} {body : List Line} {s : Setting} (h : SetsKey line body s)
    {its : List Item} (hfits : ∀ k ∈ opened its, s.indent ≤ k) :
    Reads (line :: body) its (its ++ [⟨lastName its, some s⟩]) := by
  have hit : itemOf its line =
      some ⟨lastName its, some ⟨s.key, valueOf (trimLine line), s.indent⟩⟩ := by
    rw [itemOf, if_neg h.bracket, h.key, h.indent, if_neg h.named]
  obtain ⟨key, value, indent⟩ := s
  have hbody := h.body
  intro blanks
  rw [readLines_cons,
    readLine_item h.significant (fun k hk => h.indent.symm ▸ hfits k hk) hit]
  cases hv : valueOf (trimLine line) with
  | none =>
    simp only [IsBody, hv] at hbody
    obtain ⟨rfl, rfl⟩ := hbody
    exact ⟨0, rfl⟩
  | some v =>
    simp only [IsBody, hv] at hbody
    obtain ⟨rfl, hdeeper⟩ := hbody
    exact ⟨_, readLines_body hdeeper its (lastName its) key (v, 0)⟩

/-! ### The parts of a file -/

/-- A header or a key of a section, and the number of its line. -/
structure Mark where
  name : Option Line
  start : ℕ
  entry : Option Entry

/-- The header and the keys of a section. -/
def Section.marks (s : Section) : List Mark :=
  (s.header.toList.map fun h => ⟨s.name, h, none⟩) ++
    s.entries.map fun e => ⟨s.name, e.start, some e⟩

/-- The headers and keys of a file, in their order. -/
def Doc.marks (d : Doc) : List Mark := d.sections.flatMap Section.marks

/-- What an entry sets. -/
def Entry.setting (e : Entry) : Setting := ⟨e.key, e.value, e.indent⟩

/-- A header or a key with its first line, the other lines of its value, and the lines up
to the next header or key. -/
structure Part where
  mark : Mark
  line : Line
  body : List Line
  rest : List Line

namespace Part

/-- All lines of a part. -/
def lines (p : Part) : List Line := p.line :: p.body ++ p.rest

/-- The number of the line behind a header or a key. -/
def stop (p : Part) : ℕ := p.mark.start + (p.body.length + 1)

/-- The indent beyond which a line goes on with the value of a key. -/
def opened (p : Part) : Option ℕ := p.mark.entry.bind fun e => e.setting.opened

/-- The lines of a part are those of its header or its key. -/
structure Sound (p : Part) : Prop where
  header : p.mark.entry = none → p.body = [] ∧ ∃ name, p.mark.name = some name ∧ Heads p.line name
  key : ∀ e ∈ p.mark.entry, SetsKey p.line p.body e.setting ∧ e.start = p.mark.start ∧
    e.stop = p.stop ∧ e.lead = (keyLine p.line 0).lead
  rest : IsNoise p.rest

/-- A part that stands at line `i` behind another one. -/
structure After (before : Option Part) (i : ℕ) (p : Part) : Prop where
  sound : p.Sound
  start : p.mark.start = i
  fits : ∀ k ∈ before.bind opened, indentation p.line ≤ k
  name : p.mark.entry.isSome → p.mark.name = before.bind (·.mark.name)

end Part

/-- Parts that follow one another from line `i` on. -/
def Laid : ℕ → Option Part → List Part → Prop
  | _, _, [] => True
  | i, before, p :: parts => p.After before i ∧ Laid (i + p.lines.length) (some p) parts

theorem laid_concat {i : ℕ} {before : Option Part} {parts : List Part} {p : Part} :
    Laid i before (parts ++ [p]) ↔ Laid i before parts ∧
      p.After (parts.getLast?.or before) (i + (parts.flatMap Part.lines).length) := by
  induction parts generalizing i before with
  | nil => simp [Laid]
  | cons q parts ih =>
    rw [List.cons_append, Laid, ih, Laid, and_assoc, List.flatMap_cons, List.length_append,
      Nat.add_assoc]
    have hlast : parts.getLast?.or (some q) = ((q :: parts).getLast?.or before) := by
      rw [List.getLast?_cons]
      cases parts.getLast? <;> rfl
    rw [hlast]

theorem length_lines (p : Part) : p.lines.length = p.body.length + 1 + p.rest.length := by
  rw [Part.lines, List.length_append, List.length_cons]

theorem stop_add (p : Part) : p.mark.start + p.lines.length = p.stop + p.rest.length := by
  rw [length_lines, Part.stop]
  omega

/-- What the parser has read of a file, as its parts. -/
structure ParsedTo (st : ParseState) (ls lead : List Line) (parts : List Part) : Prop where
  lines : ls = lead ++ parts.flatMap Part.lines
  noise : IsNoise lead
  laid : Laid lead.length none parts
  marks : (st.sections ++ [st.current]).flatMap Section.marks = parts.map Part.mark
  opened : st.opened = parts.getLast?.bind Part.opened
  name : st.current.name = parts.getLast?.bind (·.mark.name)
  entries : st.opened.isSome → st.current.entries ≠ []
  blanks : ∀ p ∈ parts.getLast?, ∀ v, ((p.body ++ p.rest).foldl addLine (v, 0)).2 = st.blanks

/-- Lines that say nothing leave the value behind them as it is. -/
theorem foldl_addLine_noise {ls : List Line} (h : IsNoise ls) (v : Line × ℕ) :
    (ls.foldl addLine v).1 = v.1 := by
  induction ls generalizing v with
  | nil => rfl
  | cons line ls ih =>
    rw [IsNoise, List.forall_mem_cons] at h
    rw [List.foldl_cons, ih h.2, addLine, if_neg (Bool.eq_false_iff.1 h.1)]

theorem not_isSignificant_of_isEmpty {line : Line} (h : (trimLine line).isEmpty = true) :
    isSignificant line = false := by
  rw [isSignificant, h]
  rfl

theorem not_isSignificant_of_startsComment {line : Line}
    (h : startsComment (trimLine line) = true) : isSignificant line = false := by
  rw [isSignificant, h]
  exact Bool.and_false _

variable {st st' : ParseState} {ls lead : List Line} {parts : List Part} {line : Line}

/-- A line that says nothing is one more behind the last part. -/
theorem ParsedTo.skip (h : ParsedTo st ls lead parts) (hline : isSignificant line = false)
    (hst : st' = { st with
      blanks := if (trimLine line).isEmpty then st.blanks + 1 else st.blanks }) :
    ∃ lead' parts', ParsedTo st' (ls ++ [line]) lead' parts' := by
  subst hst
  rcases parts.eq_nil_or_concat' with rfl | ⟨init, p, rfl⟩
  · refine ⟨lead ++ [line], [], ?_⟩
    constructor
    · rw [h.lines, List.flatMap_nil, List.append_nil, List.append_nil]
    · intro l hl
      rcases List.mem_append.1 hl with hl | hl
      · exact h.noise l hl
      · rwa [List.mem_singleton.1 hl]
    · trivial
    · exact h.marks
    · exact h.opened
    · exact h.name
    · exact h.entries
    · exact nofun
  · obtain ⟨hinit, hp⟩ := laid_concat.1 h.laid
    have hopened := h.opened
    have hname := h.name
    have hblanks := h.blanks p (by simp)
    rw [List.getLast?_concat] at hopened hname
    refine ⟨lead, init ++ [{ p with rest := p.rest ++ [line] }], ?_⟩
    constructor
    · rw [h.lines]
      simp [Part.lines]
    · exact h.noise
    · refine laid_concat.2 ⟨hinit, ?_, hp.start, hp.fits, hp.name⟩
      refine ⟨hp.sound.header, hp.sound.key, fun l hl => ?_⟩
      rcases List.mem_append.1 hl with hl | hl
      · exact hp.sound.rest l hl
      · rwa [List.mem_singleton.1 hl]
    · rw [h.marks, List.map_append, List.map_append]
      rfl
    · rw [List.getLast?_concat]
      exact hopened
    · rw [List.getLast?_concat]
      exact hname
    · exact h.entries
    · intro q hq v
      rw [List.getLast?_concat, Option.mem_some_iff] at hq
      subst hq
      rw [← List.append_assoc, List.foldl_append, List.foldl_cons, List.foldl_nil, addLine,
        if_neg (Bool.eq_false_iff.1 hline), hblanks v]

theorem marks_key (sections : List Section) (current : Section) (e : Entry) :
    (sections ++ [{ current with entries := current.entries ++ [e] }]).flatMap Section.marks =
      (sections ++ [current]).flatMap Section.marks ++ [⟨current.name, e.start, some e⟩] := by
  simp [Section.marks]

/-- A line that goes on with a value is one more of its lines. -/
theorem SetsKey.continue {e : Entry} {head : Line} {body rest : List Line} {blanks k : ℕ}
    (h : SetsKey head body e.setting) (hrest : IsNoise rest) (hline : isSignificant line = true)
    (hblanks : ∀ v, ((body ++ rest).foldl addLine (v, 0)).2 = blanks)
    (hopened : e.setting.opened = some k) (hdeeper : k < indentation line) (i : ℕ) :
    SetsKey head (body ++ rest ++ [line]) (e.continue blanks (trimLine line) i).setting := by
  refine ⟨h.significant, h.bracket, h.key, h.named, h.indent, ?_⟩
  have hbody := h.body
  cases hvalue : valueOf (trimLine head) with
  | none =>
    simp only [IsBody, hvalue] at hbody
    rw [Setting.opened, hbody.2] at hopened
    cases hopened
  | some v =>
    simp only [IsBody, hvalue] at hbody
    obtain ⟨hfrom, hbody⟩ := hbody
    rw [Setting.opened, hfrom] at hopened
    obtain rfl := Option.some.inj hopened
    have hfold : (body ++ rest).foldl addLine (v, 0) = (valueFrom v body, blanks) := by
      refine Prod.ext ?_ (hblanks v)
      rw [List.foldl_append, foldl_addLine_noise hrest, valueFrom]
    constructor
    · have hvalue : e.value = some (valueFrom v body) := hfrom
      rw [valueFrom, List.foldl_append, hfold, List.foldl_cons, List.foldl_nil, addLine,
        if_pos hline]
      show e.value.map _ = _
      rw [hvalue]
      rfl
    · intro l hl hsignificant
      rcases List.mem_append.1 hl with hl | hl
      · rcases List.mem_append.1 hl with hl | hl
        · exact hbody l hl hsignificant
        · exact absurd hsignificant (Bool.eq_false_iff.1 (hrest l hl))
      · rwa [List.mem_singleton.1 hl]

theorem opened_continue (e : Entry) (blanks : ℕ) (trimmed : Line) (i : ℕ) :
    (e.continue blanks trimmed i).setting.opened = e.setting.opened := by
  show (e.value.map _).map _ = e.value.map _
  rw [Option.map_map]
  rfl

/-- A line that goes on with a value is one more of the last part's key. -/
theorem ParsedTo.continue (h : ParsedTo st ls lead parts) (hline : isSignificant line = true)
    (hcontinues : st.continues line = true)
    (hst : st' = { st with
      current := { st.current with
        entries := st.current.entries.modifyLast
          (·.continue st.blanks (trimLine line) ls.length) }
      blanks := 0 }) :
    ∃ lead' parts', ParsedTo st' (ls ++ [line]) lead' parts' := by
  subst hst
  rw [ParseState.continues, Bool.and_eq_true, Option.any_eq_true] at hcontinues
  obtain ⟨hne, k, hk, hdeeper⟩ := hcontinues
  have hdeeper := of_decide_eq_true hdeeper
  have hne : st.current.entries ≠ [] := by simpa using hne
  obtain ⟨entries, e, hentries⟩ := st.current.entries.eq_nil_or_concat'.resolve_left hne
  have hopened := h.opened
  rw [hk] at hopened
  rcases parts.eq_nil_or_concat' with rfl | ⟨init, p, rfl⟩
  · cases hopened
  · rw [List.getLast?_concat, Option.bind_some, Part.opened] at hopened
    obtain ⟨hinit, hp⟩ := laid_concat.1 h.laid
    -- the last key of the parser is the last part
    have hmarks := h.marks
    have hcurrent : st.current = { st.current with entries := entries ++ [e] } := by
      rw [← hentries]
    rw [hcurrent, marks_key st.sections { st.current with entries := entries } e, List.map_append,
      List.map_singleton] at hmarks
    obtain ⟨hbefore, hmark⟩ := List.append_inj' hmarks rfl
    have hmark := (List.cons.inj hmark).1
    rw [← hmark] at hopened
    obtain ⟨hsets, hstart, hstop, hlead⟩ := hp.sound.key e (by rw [← hmark]; rfl)
    refine ⟨lead, init ++ [⟨⟨st.current.name, e.start,
      some (e.continue st.blanks (trimLine line) ls.length)⟩, p.line,
      p.body ++ p.rest ++ [line], []⟩], ?_⟩
    have hsound := hsets.continue hp.sound.rest hline (h.blanks p (by simp)) hopened.symm hdeeper ls.length
    constructor
    · rw [h.lines]
      simp [Part.lines]
    · exact h.noise
    · refine laid_concat.2 ⟨hinit, ?_, ?_, hp.fits, ?_⟩
      · refine ⟨(by cases ·), ?_, List.forall_mem_nil _⟩
        rintro _ ⟨⟩
        refine ⟨hsound, rfl, ?_, hlead⟩
        have hlen := hp.start
        rw [← hmark] at hlen
        rw [Part.stop, Entry.continue, h.lines]
        simp only [List.length_append, List.length_singleton, List.flatMap_append,
          List.flatMap_singleton, length_lines]
        simp only at hlen
        omega
      · rw [← hp.start, ← hmark]
      · intro _
        rw [← hp.name (by rw [← hmark]; rfl), ← hmark]
    · rw [hentries, List.modifyLast_concat, List.map_append, ← hbefore]
      exact marks_key st.sections { st.current with entries := entries } _
    · rw [List.getLast?_concat]
      exact hk.trans (hopened.trans (opened_continue e _ _ _).symm)
    · rw [List.getLast?_concat]
      rfl
    · intro _ hnil
      rw [hentries, List.modifyLast_concat] at hnil
      exact absurd hnil (by simp)
    · intro q hq v
      rw [List.getLast?_concat, Option.mem_some_iff] at hq
      subst hq
      rw [List.append_nil, List.foldl_append, List.foldl_cons, List.foldl_nil, addLine,
        if_pos hline]

/-- A line that goes on with no value is not deeper than the value above it. -/
theorem ParsedTo.fits (h : ParsedTo st ls lead parts) (hcontinues : st.continues line = false) :
    ∀ k ∈ parts.getLast?.bind Part.opened, indentation line ≤ k := by
  intro k hk
  rw [← h.opened] at hk
  have hne := h.entries (by rw [hk]; rfl)
  rw [ParseState.continues, hk] at hcontinues
  simpa [hne] using hcontinues

theorem keyLine_eq (line : Line) (i : ℕ) :
    keyLine line i = { keyLine line 0 with start := i, stop := i + 1 } := by
  rw [keyLine, keyLine]
  split
  · rfl
  · rfl

/-- A key's line sets its key. -/
theorem setsKey_keyLine (hline : isSignificant line = true)
    (hbracket : (trimLine line).head? ≠ some '[') {i : ℕ} (hne : (keyLine line i).key ≠ []) :
    SetsKey line [] (keyLine line i).setting := by
  obtain ⟨hkey, hvalue⟩ := key_value_keyLine line i
  refine ⟨hline, hbracket, hkey.symm, hne, (indent_keyLine line i).symm, ?_⟩
  show IsBody _ _ [] (keyLine line i).value
  rw [hvalue]
  cases valueOf (trimLine line) with
  | none => exact ⟨rfl, rfl⟩
  | some v => exact ⟨rfl, nofun⟩

/-- Any other line is a part of its own. -/
theorem ParsedTo.append (h : ParsedTo st ls lead parts) {p : Part} (hp : p.Sound)
    (hlines : p.lines = [line]) (hstart : p.mark.start = ls.length)
    (hcontinues : st.continues line = false)
    (hname : p.mark.entry.isSome → p.mark.name = st.current.name)
    (hmarks : (st'.sections ++ [st'.current]).flatMap Section.marks =
      (st.sections ++ [st.current]).flatMap Section.marks ++ [p.mark])
    (hopened : st'.opened = p.opened) (hcurrent : st'.current.name = p.mark.name)
    (hentries : st'.opened.isSome → st'.current.entries ≠ []) (hblanks : st'.blanks = 0) :
    ∃ lead' parts', ParsedTo st' (ls ++ [line]) lead' parts' := by
  refine ⟨lead, parts ++ [p], ?_⟩
  obtain ⟨mark, line', body, rest⟩ := p
  obtain ⟨rfl, hnil⟩ := List.cons.inj hlines
  obtain ⟨rfl, rfl⟩ := List.append_eq_nil_iff.1 hnil
  constructor
  · rw [h.lines, List.flatMap_append, List.flatMap_singleton, hlines, List.append_assoc]
  · exact h.noise
  · refine laid_concat.2 ⟨h.laid, hp, ?_, ?_, ?_⟩
    · rw [hstart, h.lines, List.length_append]
    · rw [Option.or_none]
      exact h.fits hcontinues
    · intro hentry
      rw [Option.or_none, ← h.name]
      exact hname hentry
  · rw [hmarks, h.marks, List.map_append]
    rfl
  · rw [List.getLast?_concat]
    exact hopened
  · rw [List.getLast?_concat]
    exact hcurrent
  · exact hentries
  · intro q hq v
    rw [List.getLast?_concat, Option.mem_some_iff] at hq
    subst hq
    exact hblanks.symm

/-- **One line of a file.** -/
theorem ParsedTo.step (h : ParsedTo st ls lead parts) (hstep : LineStep st ls.length line st') :
    ∃ lead' parts', ParsedTo st' (ls ++ [line]) lead' parts' := by
  cases hstep with
  | blank hline => exact h.skip (not_isSignificant_of_isEmpty hline) (by rw [if_pos hline])
  | comment hblank hline =>
    exact h.skip (not_isSignificant_of_startsComment hline)
      (by rw [if_neg (Bool.eq_false_iff.1 hblank)])
  | continues hline hcontinues => exact h.continue hline hcontinues rfl
  | @header hline hcontinues hbracket name hname hne =>
    refine h.append (p := ⟨⟨some name, ls.length, none⟩, line, [], []⟩) ?_ rfl rfl hcontinues nofun
      ?_ rfl rfl nofun rfl
    · exact ⟨fun _ => ⟨rfl, name, rfl, hline, hbracket, hname, hne⟩, nofun, nofun⟩
    · simp [Section.marks]
  | key hline hcontinues hbracket hne =>
    have hstart := start_keyLine line ls.length
    refine h.append (p := ⟨⟨st.current.name, ls.length, some (keyLine line ls.length)⟩, line, [],
      []⟩) ?_ rfl rfl hcontinues (fun _ => rfl) ?_ rfl rfl (fun _ hnil => absurd hnil (by simp)) rfl
    · refine ⟨nofun, ?_, nofun⟩
      rintro _ ⟨⟩
      exact ⟨setsKey_keyLine hline hbracket hne, hstart.1, hstart.2, by rw [keyLine_eq]⟩
    · rw [marks_key, hstart.1]

theorem ParsedTo.steps (h : ParsedTo st ls lead parts) {more : List Line}
    (hsteps : LineSteps st ls.length more st') :
    ∃ lead' parts', ParsedTo st' (ls ++ more) lead' parts' := by
  induction more generalizing st ls lead parts with
  | nil =>
    cases hsteps
    rw [List.append_nil]
    exact ⟨lead, parts, h⟩
  | cons line more ih =>
    cases hsteps with
    | cons first steps =>
      obtain ⟨lead₁, parts₁, h₁⟩ := h.step first
      have hlen : (ls ++ [line]).length = ls.length + 1 := List.length_append
      rw [← hlen] at steps
      have := ih h₁ steps
      rwa [List.append_assoc, List.singleton_append] at this

/-- A file is blank lines and comments, and then its parts. -/
structure Layout (d : Doc) (lead : List Line) (parts : List Part) : Prop where
  lines : d.lines = lead ++ parts.flatMap Part.lines
  noise : IsNoise lead
  laid : Laid lead.length none parts
  marks : d.marks = parts.map Part.mark

/-- **Every parsed file is made of its parts.** -/
theorem exists_layout {text : List Char} {what : String} {d : Doc}
    (h : parse text what = .ok d) : ∃ lead parts, Layout d lead parts := by
  obtain ⟨st, hsteps, rfl⟩ := parse_eq_ok_iff.1 h
  have hstart : ParsedTo .start [] [] [] := ⟨rfl, nofun, trivial, rfl, rfl, rfl, nofun, nofun⟩
  obtain ⟨lead, parts, hparsed⟩ := hstart.steps hsteps
  exact ⟨lead, parts, hparsed.lines, hparsed.noise, hparsed.laid, hparsed.marks⟩

end Mise.Ini
