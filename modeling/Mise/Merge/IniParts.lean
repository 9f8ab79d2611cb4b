/-
# What is looked up in a file, found in its parts

The entry that sets a key is the one of the last part for it (`get_eq`), and the place
where new keys of a section go is behind the last part of the section
(`Layout.insertPoint_last`), or among the blank lines and comments in front of all parts
(`Layout.insertPoint_top`).
-/

import Mise.Merge.IniLayout

namespace Mise.Ini

open Lib String

/-! ### Sections -/

/-- The keys in front of all headers come first; the other sections have one. -/
def Headed (sections : List Section) : Prop :=
  ∃ first rest, sections = first :: rest ∧ first.name = none ∧ first.header = none ∧
    ∀ s ∈ rest, ∃ name h, s.name = some name ∧ s.header = some h

theorem Headed.entries {sections : List Section} {current : Section}
    (h : Headed (sections ++ [current])) (entries : List Entry) :
    Headed (sections ++ [{ current with entries := entries }]) := by
  obtain ⟨first, rest, heq, hname, hheader, hrest⟩ := h
  rcases rest.eq_nil_or_concat' with rfl | ⟨init, last, rfl⟩
  · obtain ⟨rfl, hcurrent⟩ := List.append_eq_singleton_iff.1 heq |>.resolve_right (by simp)
    obtain rfl := (List.cons.inj hcurrent).1
    exact ⟨_, [], rfl, hname, hheader, nofun⟩
  · rw [← List.cons_append] at heq
    obtain ⟨rfl, hcurrent⟩ := List.append_inj' heq rfl
    obtain rfl := (List.cons.inj hcurrent).1
    refine ⟨first, init ++ [{ current with entries := entries }], rfl, hname, hheader, ?_⟩
    intro s hs
    rcases List.mem_append.1 hs with hs | hs
    · exact hrest s (List.mem_append_left _ hs)
    · obtain rfl := List.mem_singleton.1 hs
      exact hrest current (by simp)

theorem Headed.step {st st' : ParseState} {i : ℕ} {line : Line}
    (hst : Headed (st.sections ++ [st.current])) (h : LineStep st i line st') :
    Headed (st'.sections ++ [st'.current]) := by
  cases h with
  | blank hline => exact hst
  | comment hblank hline => exact hst
  | continues hline hcontinues => exact hst.entries _
  | @header hline hcontinues hbracket name hname hne =>
    obtain ⟨first, rest, heq, hfirst, hheader, hrest⟩ := hst
    refine ⟨first, rest ++ [⟨some name, some i, []⟩], ?_, hfirst, hheader, ?_⟩
    · show st.sections ++ [st.current] ++ [_] = _
      rw [heq, List.cons_append]
    · intro s hs
      rcases List.mem_append.1 hs with hs | hs
      · exact hrest s hs
      · obtain rfl := List.mem_singleton.1 hs
        exact ⟨name, i, rfl, rfl⟩
  | key hline hcontinues hbracket hne => exact hst.entries _

theorem headed_parse {text : List Char} {what : String} {d : Doc} (h : parse text what = .ok d) :
    Headed d.sections := by
  obtain ⟨st, hsteps, rfl⟩ := parse_eq_ok_iff.1 h
  have hrun : ∀ {st st' : ParseState} {i : ℕ} {ls : List Line},
      Headed (st.sections ++ [st.current]) → LineSteps st i ls st' →
        Headed (st'.sections ++ [st'.current]) := by
    intro st st' i ls hst hsteps
    induction hsteps with
    | nil => exact hst
    | cons first steps ih => exact ih (hst.step first)
  exact hrun ⟨_, [], rfl, rfl, rfl, nofun⟩ hsteps

theorem Headed.titled {sections : List Section} (h : Headed sections) : Titled sections := by
  obtain ⟨first, rest, rfl, hname, -, hrest⟩ := h
  intro s hs hsome
  rcases List.mem_cons.1 hs with rfl | hs
  · rw [hname] at hsome
    exact nomatch hsome
  · obtain ⟨_, _, _, hheader⟩ := hrest s hs
    rw [hheader]
    rfl

theorem name_of_mem_marks {s : Section} {m : Mark} (h : m ∈ s.marks) : m.name = s.name := by
  rw [Section.marks, List.mem_append, List.mem_map, List.mem_map] at h
  rcases h with ⟨_, _, rfl⟩ | ⟨_, _, rfl⟩
  · rfl
  · rfl

/-- A section with a name has a mark, its header. -/
theorem Titled.mark_mem {sections : List Section} (h : Titled sections) {s : Section}
    (hs : s ∈ sections) {name : Line} (hname : s.name = some name) :
    ∃ i, s.header = some i ∧ ⟨some name, i, none⟩ ∈ s.marks := by
  obtain ⟨i, hi⟩ := Option.isSome_iff_exists.1 (h s hs (by rw [hname]; rfl))
  refine ⟨i, hi, ?_⟩
  rw [Section.marks, hi, hname]
  exact List.mem_append_left _ List.mem_cons_self

/-! ### The entry that sets a key -/

/-- The entry of a mark, if it is for a key. -/
def Mark.at (m : Mark) (name : Option Line) (key : Line) : Option Entry :=
  if m.name = name then m.entry.filter (·.key = key) else none

theorem findSome?_marks (s : Section) (name : Option Line) (key : Line) :
    s.marks.reverse.findSome? (·.at name key) =
      if s.name = name then s.entries.reverse.find? (·.key = key) else none := by
  by_cases hname : s.name = name
  · rw [if_pos hname, Section.marks, List.reverse_append, List.findSome?_append,
      ← List.map_reverse, List.findSome?_map]
    have hheader : (s.header.toList.map fun h => Mark.mk s.name h none).reverse.findSome?
        (·.at name key) = none := by
      refine List.findSome?_eq_none_iff.2 fun m hm => ?_
      obtain ⟨_, _, rfl⟩ := List.mem_map.1 (List.mem_reverse.1 hm)
      exact ite_self _
    rw [hheader, Option.or_none]
    induction s.entries.reverse with
    | nil => rfl
    | cons e es ih =>
      rw [List.findSome?_cons, List.find?_cons, ih, Function.comp_apply, Mark.at, if_pos hname,
        Option.filter_some]
      by_cases hkey : e.key = key
      · simp [hkey]
      · simp [hkey]
  · rw [if_neg hname, List.findSome?_eq_none_iff]
    intro m hm
    rw [Mark.at, name_of_mem_marks (List.mem_reverse.1 hm), if_neg hname]

/-- **The entry that sets a key is the one of its last mark.** -/
theorem get_eq (d : Doc) (name : Option Line) (key : Line) :
    d.get name key = d.marks.reverse.findSome? (·.at name key) := by
  obtain ⟨ls, sections⟩ := d
  rw [Doc.get, Doc.marks]
  show List.find? _ (List.flatMap _ (List.filter _ sections.reverse)) = _
  induction sections with
  | nil => rfl
  | cons s sections ih =>
    rw [List.reverse_cons, List.filter_append, List.flatMap_append, List.find?_append, ih,
      List.flatMap_cons, List.reverse_append, List.findSome?_append, findSome?_marks]
    by_cases hname : s.name = name
    · simp [hname]
    · simp [hname]

/-! ### Lines -/

theorem laid_append {i : ℕ} {before : Option Part} {pre post : List Part} :
    Laid i before (pre ++ post) ↔ Laid i before pre ∧
      Laid (i + (pre.flatMap Part.lines).length) (pre.getLast?.or before) post := by
  induction pre generalizing i before with
  | nil => simp [Laid]
  | cons q pre ih =>
    rw [List.cons_append, Laid, ih, Laid, and_assoc, List.flatMap_cons, List.length_append,
      Nat.add_assoc]
    have hlast : pre.getLast?.or (some q) = ((q :: pre).getLast?.or before) := by
      rw [List.getLast?_cons]
      cases pre.getLast? <;> rfl
    rw [hlast]

variable {d : Doc} {lead : List Line} {parts pre post : List Part} {p : Part}

/-- Where a part stands, and the lines before and behind it. -/
theorem Layout.split (h : Layout d lead (pre ++ p :: post)) :
    p.After pre.getLast? (lead.length + (pre.flatMap Part.lines).length) ∧
      d.lines.drop p.mark.start = p.lines ++ post.flatMap Part.lines := by
  have hlaid := (laid_append.1 h.laid).2
  rw [Option.or_none, Laid] at hlaid
  refine ⟨hlaid.1, ?_⟩
  rw [hlaid.1.start, h.lines, List.flatMap_append, List.flatMap_cons, ← List.append_assoc,
    ← List.length_append, List.drop_left]

theorem Layout.drop_start (h : Layout d lead parts) (hp : p ∈ parts) :
    ∃ more, d.lines.drop p.mark.start = p.line :: p.body ++ more := by
  obtain ⟨pre, post, rfl⟩ := List.append_of_mem hp
  refine ⟨p.rest ++ post.flatMap Part.lines, ?_⟩
  rw [h.split.2, Part.lines, List.append_assoc]

theorem Layout.sound (h : Layout d lead parts) (hp : p ∈ parts) : p.Sound := by
  obtain ⟨pre, post, rfl⟩ := List.append_of_mem hp
  exact h.split.1.sound

/-- The first line of a part. -/
theorem Layout.getD_start (h : Layout d lead parts) (hp : p ∈ parts) :
    d.lines.getD p.mark.start [] = p.line := by
  obtain ⟨more, hmore⟩ := h.drop_start hp
  have hget := congrArg (·[0]?) hmore
  simp only [List.getElem?_drop, Nat.add_zero, List.cons_append, List.getElem?_cons_zero] at hget
  rw [List.getD_eq_getElem?_getD, hget]
  rfl

/-- The lines of an entry. -/
theorem Layout.entryLines (h : Layout d lead parts) (hp : p ∈ parts) {e : Entry}
    (he : e ∈ p.mark.entry) (indent : Line) :
    d.entryLines e indent = (p.line :: p.body).map (Doc.entryLine e indent) := by
  obtain ⟨more, hmore⟩ := h.drop_start hp
  obtain ⟨-, hstart, hstop, -⟩ := (h.sound hp).key e he
  have hlen : e.stop - e.start = (p.line :: p.body).length := by
    rw [hstop, hstart, Part.stop, List.length_cons]
    omega
  rw [Doc.entryLines, hstart, hmore, ← hstart, hlen, List.take_left]

theorem splitAtByte_indentation (l : Line) :
    splitAtByte l (indentation l) = some (l.takeWhile isWhitespace, trimStart l) := by
  have hl : l = l.takeWhile isWhitespace ++ trimStart l :=
    (List.takeWhile_append_dropWhile (p := isWhitespace)).symm
  rw [indentation_eq]
  conv_lhs => rw [hl]
  rw [trimStart, List.takeWhile_append_dropWhile]
  have := splitAtByte_append (l.takeWhile isWhitespace) (l.dropWhile isWhitespace)
  rwa [List.takeWhile_append_dropWhile] at this

/-- The white space in front of a key. -/
theorem Layout.indentOf (h : Layout d lead parts) (hp : p ∈ parts) {e : Entry}
    (he : e ∈ p.mark.entry) : d.indentOf e = p.line.takeWhile isWhitespace := by
  obtain ⟨hsets, hstart, -, -⟩ := (h.sound hp).key e he
  have hindent : indentation p.line = e.indent := hsets.indent
  rw [Doc.indentOf, hstart, h.getD_start hp, ← hindent, splitAtByte_indentation]
  rfl

/-- The entry that sets a key is in a part. -/
theorem Layout.mem_of_get (h : Layout d lead parts) {name : Option Line} {key : Line} {e : Entry}
    (he : d.get name key = some e) :
    ∃ p ∈ parts, p.mark.name = name ∧ p.mark.entry = some e ∧ e.key = key := by
  rw [get_eq, h.marks] at he
  obtain ⟨m, hm, hat⟩ := List.exists_of_findSome?_eq_some he
  obtain ⟨p, hp, rfl⟩ := List.mem_map.1 (List.mem_reverse.1 hm)
  rw [Mark.at] at hat
  split at hat
  · case isTrue hname =>
    obtain ⟨hentry, hkey⟩ := Option.filter_eq_some_iff.1 hat
    exact ⟨p, hp, hname, hentry, of_decide_eq_true hkey⟩
  · exact nomatch hat

/-- The sections that a file has. -/
theorem Layout.hasSection_iff (h : Layout d lead parts) (hd : Titled d.sections)
    (name : Option Line) :
    d.hasSection name = true ↔ name = none ∨ ∃ p ∈ parts, p.mark.name = name := by
  cases name with
  | none => exact iff_of_true rfl (.inl rfl)
  | some name =>
    rw [Doc.hasSection, Bool.or_eq_true, List.any_eq_true]
    constructor
    · rintro (hnone | ⟨s, hs, hname⟩)
      · cases hnone
      · obtain ⟨i, -, hi⟩ := hd.mark_mem hs (of_decide_eq_true hname)
        have hmem : ⟨some name, i, none⟩ ∈ d.marks := List.mem_flatMap.2 ⟨s, hs, hi⟩
        rw [h.marks] at hmem
        obtain ⟨p, hp, hmark⟩ := List.mem_map.1 hmem
        exact .inr ⟨p, hp, by rw [hmark]⟩
    · rintro (hnone | ⟨p, hp, hname⟩)
      · cases hnone
      · have hmem : p.mark ∈ d.marks := by
          rw [h.marks]
          exact List.mem_map_of_mem hp
        obtain ⟨s, hs, hm⟩ := List.mem_flatMap.1 hmem
        exact .inr ⟨s, hs, decide_eq_true ((name_of_mem_marks hm).symm.trans hname)⟩

/-- The header line of a section is one. -/
theorem Layout.heads_headerLine (h : Layout d lead parts) (hd : Titled d.sections) {name : Line}
    (hname : d.hasSection (some name) = true) : Heads (d.headerLine name) name := by
  have hsome : (d.sections.find? (·.name = some name)).isSome := by
    rw [List.find?_isSome]
    rw [Doc.hasSection, Bool.or_eq_true, List.any_eq_true] at hname
    exact hname.resolve_left Bool.false_ne_true
  obtain ⟨s, hs⟩ := Option.isSome_iff_exists.1 hsome
  have hfound := List.find?_some hs
  obtain ⟨i, hi, hmark⟩ := hd.mark_mem (List.mem_of_find?_eq_some hs) (of_decide_eq_true hfound)
  have hmem : ⟨some name, i, none⟩ ∈ d.marks :=
    List.mem_flatMap.2 ⟨s, List.mem_of_find?_eq_some hs, hmark⟩
  rw [h.marks] at hmem
  obtain ⟨p, hp, hpmark⟩ := List.mem_map.1 hmem
  obtain ⟨-, name', hname', hheads⟩ := (h.sound hp).header (by rw [hpmark])
  rw [hpmark] at hname'
  obtain rfl := Option.some.inj hname'
  have hget := h.getD_start hp
  rw [hpmark] at hget
  rw [Doc.headerLine, hs, Option.bind_some, hi]
  show Heads (d.lines.getD i []) name
  rwa [hget]

/-! ### Where new keys go -/

/-- The last section of a name ends with the last mark of that name. -/
theorem exists_find?_of_last {sections : List Section} {name : Option Line} {m : Mark}
    {before after : List Mark} (hne : ∀ s ∈ sections, s.name = name → s.marks ≠ [])
    (hmarks : sections.flatMap Section.marks = before ++ m :: after) (hm : m.name = name)
    (hafter : ∀ m' ∈ after, m'.name ≠ name) :
    ∃ s, sections.reverse.find? (·.name = name) = some s ∧ s.marks.getLast? = some m := by
  induction sections using List.reverseRecOn generalizing after with
  | nil => exact absurd hmarks (by simp)
  | append_singleton init s ih =>
    rw [List.flatMap_append, List.flatMap_singleton] at hmarks
    rw [List.reverse_append, List.reverse_singleton, List.singleton_append, List.find?_cons]
    by_cases hname : s.name = name
    · refine ⟨s, by simp [hname], ?_⟩
      obtain ⟨marks, last, hlast⟩ :=
        s.marks.eq_nil_or_concat'.resolve_left (hne s (by simp) hname)
      rw [hlast, ← List.append_assoc] at hmarks
      have hend := congrArg List.getLast? hmarks
      have hlastname : last.name = name := by
        rw [name_of_mem_marks (s := s) (by rw [hlast]; simp), hname]
      rcases after.eq_nil_or_concat' with rfl | ⟨as, a, rfl⟩
      · rw [hlast]
        simpa using hend
      · have hlasta : last = a := by
          rw [List.getLast?_concat, ← List.cons_append, ← List.append_assoc,
            List.getLast?_concat] at hend
          exact Option.some.inj hend
        exact absurd (hlasta ▸ hlastname) (hafter a (by simp))
    · -- the mark is not one of this section
      have hnotmem : m ∉ s.marks := fun hmem => hname ((name_of_mem_marks hmem).symm.trans hm)
      rw [decide_eq_false hname]
      rcases List.append_eq_append_iff.1 hmarks with ⟨x, -, hx⟩ | ⟨x, hinit, hx⟩
      · exact absurd (hx ▸ List.mem_append_right x List.mem_cons_self) hnotmem
      · rcases x with _ | ⟨m', x⟩
        · rw [List.nil_append] at hx
          exact absurd (hx ▸ List.mem_cons_self) hnotmem
        · rw [List.cons_append] at hx
          obtain ⟨rfl, rfl⟩ := List.cons.inj hx
          exact ih (fun s' hs' => hne s' (List.mem_append_left _ hs')) hinit
            fun m' hm' => hafter m' (List.mem_append_left _ hm')

/-- The white space in front of a part's key. -/
def Part.indent (p : Part) : Line :=
  if p.mark.entry.isSome then p.line.takeWhile isWhitespace else []

/-- **New keys go behind the last part of their section.** -/
theorem Layout.insertPoint_last (h : Layout d lead (pre ++ p :: post)) (hd : Headed d.sections)
    (hlast : ∀ q ∈ post, q.mark.name ≠ p.mark.name) :
    d.insertPoint p.mark.name = (p.stop, p.indent) := by
  have hp : p ∈ pre ++ p :: post := by simp
  have hmarks := h.marks
  rw [List.map_append, List.map_cons, Doc.marks] at hmarks
  have hne : ∀ s ∈ d.sections, s.name = p.mark.name → s.marks ≠ [] := by
    intro s hs hname hnil
    cases hsome : s.name with
    | some name =>
      obtain ⟨i, -, hmem⟩ := hd.titled.mark_mem hs hsome
      rw [hnil] at hmem
      cases hmem
    | none =>
      -- only the first section has no name, and the part is one of its keys
      obtain ⟨first, rest, heq, -, -, hrest⟩ := hd
      have hfirst : ∀ s ∈ d.sections, s.name = none → s = first := by
        intro s hs hnone
        rw [heq] at hs
        refine (List.mem_cons.1 hs).resolve_right fun hs => ?_
        obtain ⟨_, _, hsome, -⟩ := hrest s hs
        cases hnone.symm.trans hsome
      have hmem : p.mark ∈ d.sections.flatMap Section.marks := by
        rw [hmarks]
        simp
      obtain ⟨s', hs', hm⟩ := List.mem_flatMap.1 hmem
      have hs'name := (name_of_mem_marks hm).symm.trans (hname.symm.trans hsome)
      rw [hfirst s' hs' hs'name, ← hfirst s hs hsome, hnil] at hm
      cases hm
  obtain ⟨s, hs, hmark⟩ := exists_find?_of_last hne hmarks rfl fun m' hm' => by
    obtain ⟨q, hq, rfl⟩ := List.mem_map.1 hm'
    exact hlast q hq
  rw [Doc.insertPoint, hs, Option.map_some]
  rcases s.entries.eq_nil_or_concat' with hentries | ⟨entries, e, hentries⟩
  · cases hheader : s.header with
    | none =>
      rw [Section.marks, hentries, hheader] at hmark
      cases hmark
    | some i =>
      rw [Section.marks, hentries, hheader] at hmark
      have hpmark : Mark.mk s.name i none = p.mark := Option.some.inj hmark
      have hbody := ((h.sound hp).header (by rw [← hpmark])).1
      rw [hentries, Part.stop, Part.indent, ← hpmark, hbody]
      rfl
  · have hpmark : Mark.mk s.name e.start (some e) = p.mark := by
      rw [Section.marks, hentries, List.map_append, ← List.append_assoc] at hmark
      simpa using hmark
    obtain ⟨-, -, hstop, -⟩ := (h.sound hp).key e (by rw [← hpmark]; rfl)
    rw [hentries, List.getLast?_concat]
    show (e.stop, d.indentOf e) = _
    rw [hstop, h.indentOf hp (by rw [← hpmark]; rfl), Part.indent, ← hpmark]
    rfl

theorem aboveComments_le (d : Doc) (n : ℕ) : d.aboveComments n ≤ n := by
  induction n with
  | zero => exact le_rfl
  | succ n ih =>
    rw [Doc.aboveComments]
    split
    · omega
    · exact le_rfl

/-- New keys of a file that has none in front of its headers go in front of all parts. -/
theorem Layout.insertPoint_top (h : Layout d lead parts) (hd : Headed d.sections)
    (hnone : ∀ p ∈ parts, p.mark.name ≠ none) :
    (d.insertPoint none).1 ≤ lead.length ∧ (d.insertPoint none).2 = [] := by
  obtain ⟨first, rest, heq, hname, hheader, hrest⟩ := hd
  have hmarks := h.marks
  rw [Doc.marks, heq, List.flatMap_cons] at hmarks
  have hfirst : first.entries = [] := by
    refine List.eq_nil_iff_forall_not_mem.2 fun e he => ?_
    have hmem : Mark.mk first.name e.start (some e) ∈ parts.map Part.mark := by
      rw [← hmarks, Section.marks]
      exact List.mem_append_left _ (List.mem_append_right _ (List.mem_map_of_mem he))
    obtain ⟨p, hp, hpmark⟩ := List.mem_map.1 hmem
    exact hnone p hp (by rw [hpmark]; exact hname)
  have hfind : d.sections.reverse.find? (·.name = none) = some first := by
    have hrestnone : rest.reverse.find? (·.name = none) = none := by
      refine List.find?_eq_none.2 fun s hs => ?_
      obtain ⟨_, _, hsome, -⟩ := hrest s (List.mem_reverse.1 hs)
      simp [hsome]
    rw [heq, List.reverse_cons, List.find?_append, hrestnone]
    simp [hname]
  rw [Doc.insertPoint, hfind, Option.map_some, hfirst, hheader]
  rcases rest with _ | ⟨s, rest⟩
  · -- no headers and no keys
    have hparts : parts = [] := by
      rw [Section.marks, hfirst, hheader] at hmarks
      exact List.map_eq_nil_iff.1 hmarks.symm
    have hlines := h.lines
    rw [hparts, List.flatMap_nil, List.append_nil] at hlines
    rw [heq, List.findSome?_cons, hheader, hlines]
    exact ⟨le_rfl, rfl⟩
  · obtain ⟨name, i, -, hi⟩ := hrest s List.mem_cons_self
    have hstart : i = lead.length := by
      rw [Section.marks, hfirst, hheader, List.flatMap_cons, Section.marks, hi] at hmarks
      rcases parts with _ | ⟨p, parts⟩
      · cases hmarks
      · have hpmark := (List.cons.inj hmarks).1
        rw [← h.laid.1.start, ← hpmark]
    rw [heq, List.findSome?_cons, hheader, List.findSome?_cons, hi]
    exact ⟨hstart ▸ aboveComments_le d i, rfl⟩

end Mise.Ini
