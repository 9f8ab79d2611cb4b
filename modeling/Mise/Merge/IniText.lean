/-
# The text of a merged INI file

The lines of a merged file are joined and read back.  None of them holds a line feed
(`noBreak_edits`), the carriage returns and the blank line that are lost at their ends say
nothing (`Reads.lines_finish`), and the file begins with a byte order mark only if the target
does (`head?_edits`).  So a merge that disturbs nothing has a text that is parsed, with the
values of the source and else those of the target (`exists_merged`).
-/

import Mise.Merge.IniOutcome

namespace Mise.Ini

open Lib String

/-! ### Line feeds -/

/-- Lines without line feeds in them. -/
def NoBreak (ls : List Line) : Prop := ∀ l ∈ ls, '\n' ∉ l

theorem NoBreak.append {ls ls' : List Line} (h : NoBreak ls) (h' : NoBreak ls') :
    NoBreak (ls ++ ls') := by
  intro l hl
  rcases List.mem_append.1 hl with hl | hl
  · exact h l hl
  · exact h' l hl

theorem NoBreak.nil : NoBreak [] := nofun

theorem noBreak_blank (b : Bool) : NoBreak (if b then [[]] else []) := by
  intro l hl
  split at hl
  · obtain rfl := List.mem_singleton.1 hl
    exact List.not_mem_nil
  · exact nomatch hl

theorem noBreak_parse {text : List Char} {what : String} {d : Doc}
    (h : parse text what = .ok d) : NoBreak d.lines := by
  obtain ⟨st, -, rfl⟩ := parse_eq_ok_iff.1 h
  exact fun l hl => notMem_lines hl

theorem mem_of_mem_entryLine {e : Entry} {indent line : Line} {c : Char}
    (h : c ∈ Doc.entryLine e indent line) : c ∈ indent ∨ c ∈ line := by
  rw [Doc.entryLine] at h
  split at h
  · cases h
  · rcases List.mem_append.1 h with h | h
    · exact .inl h
    · refine .inr ?_
      cases hsplit : splitAtByte line (min (indentation line) e.indent) with
      | none =>
        simp only [hsplit] at h
        exact h
      | some parts =>
        simp only [hsplit] at h
        rw [(splitAtByte_eq_some hsplit).1]
        exact List.mem_append_right _ h

theorem noBreak_entryLines {d : Doc} (hd : NoBreak d.lines) {indent : Line}
    (hindent : '\n' ∉ indent) (e : Entry) : NoBreak (d.entryLines e indent) := by
  intro l hl hmem
  obtain ⟨line, hline, rfl⟩ := List.mem_map.1 hl
  rcases mem_of_mem_entryLine hmem with h | h
  · exact hindent h
  · exact hd line (List.mem_of_mem_drop (List.mem_of_mem_take hline)) h

theorem NoBreak.getD {ls : List Line} (h : NoBreak ls) (i : ℕ) : '\n' ∉ ls.getD i [] := by
  rw [List.getD_eq_getElem?_getD]
  cases hget : ls[i]? with
  | none => exact List.not_mem_nil
  | some l => exact h l (List.mem_of_getElem? hget)

theorem notMem_indentOf {d : Doc} (hd : NoBreak d.lines) (e : Entry) : '\n' ∉ d.indentOf e := by
  rw [Doc.indentOf]
  cases hsplit : splitAtByte (d.lines.getD e.start []) e.indent with
  | none => exact List.not_mem_nil
  | some parts =>
    intro hmem
    refine hd.getD e.start ?_
    rw [(splitAtByte_eq_some hsplit).1]
    exact List.mem_append_left _ hmem

theorem notMem_headerLine {d : Doc} (hd : NoBreak d.lines) (name : Line) :
    '\n' ∉ d.headerLine name := by
  rw [Doc.headerLine]
  split
  · exact hd.getD _
  · exact List.not_mem_nil

theorem notMem_keyOf {line : Line} (h : '\n' ∉ line) : '\n' ∉ keyOf (trimLine line) :=
  fun hmem => h (mem_of_mem_trimLine ((List.takeWhile_sublist _).subset (mem_of_mem_trimLine hmem)))

theorem notMem_lead {line lead : Line} (h : '\n' ∉ line)
    (hlead : (keyLine line 0).lead = some lead) : '\n' ∉ lead := by
  have hstart : ∀ c ∈ trimStart line, c ∈ line := fun c hc =>
    (List.dropWhile_sublist _).subset hc
  rw [keyLine] at hlead
  cases hdrop : (trimStart line).dropWhile (!isDelimiter ·) with
  | nil =>
    simp only [hdrop] at hlead
    cases hlead
  | cons d after =>
    have hbehind : ∀ c ∈ d :: after, c ∈ line := fun c hc =>
      hstart c ((List.dropWhile_sublist (!isDelimiter ·)).subset (hdrop ▸ hc))
    simp only [hdrop] at hlead
    rw [← Option.some.inj hlead]
    intro hmem
    rcases List.mem_append.1 hmem with hmem | hmem
    · rcases List.mem_append.1 hmem with hmem | hmem
      · rcases List.mem_append.1 hmem with hmem | hmem
        · exact h ((List.takeWhile_sublist _).subset hmem)
        · exact h (hstart _ ((List.takeWhile_sublist _).subset hmem))
      · rcases List.mem_cons.1 hmem with rfl | hmem
        · exact h (hbehind _ List.mem_cons_self)
        · exact h (hbehind _ (.tail _ ((List.takeWhile_sublist _).subset hmem)))
    · split at hmem
      · exact absurd (List.mem_singleton.1 hmem) (by decide)
      · cases hmem

theorem notMem_replacedKeyLine {indent : Line} (hindent : '\n' ∉ indent) {existing : Entry}
    (hkey : '\n' ∉ existing.key) (hlead : ∀ lead ∈ existing.lead, '\n' ∉ lead)
    {first : Option Line} (hfirst : ∀ v ∈ first, '\n' ∉ v) :
    '\n' ∉ replacedKeyLine indent existing first := by
  have hbefore : '\n' ∉ indent ++ existing.key := by simp [hindent, hkey]
  unfold replacedKeyLine
  split
  · exact hbefore
  · case h_2 lead hopt =>
    obtain ⟨w, -, heq⟩ := trimEnd_eq_append lead
    have := hlead lead hopt
    rw [heq, List.mem_append, not_or] at this
    exact this.1
  · case h_3 lead v _ hopt =>
    rw [List.mem_append, not_or]
    exact ⟨hlead lead hopt, hfirst v rfl⟩
  · rw [List.mem_append, not_or]
    exact ⟨hbefore, by decide⟩
  · case h_5 v _ _ =>
    rw [List.mem_append, not_or, List.mem_append, not_or]
    exact ⟨⟨hbefore, by decide⟩, hfirst v rfl⟩

variable {t s : Doc} {lead : List Line} {parts : List Part}

theorem noBreak_replacement (h : Layout t lead parts) (ht : NoBreak t.lines)
    (hs : NoBreak s.lines) {p : Part} (hp : p ∈ parts) {existing : Entry}
    (he : p.mark.entry = some existing) (entry : Entry) :
    NoBreak (replacement t existing s entry) := by
  have hindent := notMem_indentOf ht existing
  obtain ⟨hsets, -, -, hlead⟩ := (h.sound hp).key existing he
  have hline := ht p.line (h.line_mem hp)
  refine NoBreak.append (fun l hl => ?_) fun l hl => ?_
  · rcases List.mem_or_eq_of_mem_set hl with hl | rfl
    · exact noBreak_entryLines hs hindent entry l hl
    · refine notMem_replacedKeyLine hindent ?_ (fun lead hopt => ?_) fun v hv => ?_
      · have hkey : keyOf (trimLine p.line) = existing.key := hsets.key
        rw [← hkey]
        exact notMem_keyOf hline
      · exact notMem_lead hline (hlead.symm.trans hopt)
      · obtain ⟨v, -, rfl⟩ := Option.map_eq_some_iff.1 hv
        cases hlines : Lib.lines v with
        | nil => exact List.not_mem_nil
        | cons l ls => exact notMem_lines (show l ∈ Lib.lines v by rw [hlines]; exact List.mem_cons_self)
  · exact ht l (List.mem_of_mem_drop (List.mem_of_mem_take (List.mem_of_mem_filter hl)))

theorem notMem_insertPoint (h : Layout t lead parts) (hd : Headed t.sections)
    (ht : NoBreak t.lines) {name : Option Line} (hname : t.hasSection name = true) :
    '\n' ∉ (t.insertPoint name).2 := by
  rcases h.place hd hname with ⟨pre, p, post, rfl, rfl, -, hplace⟩ | ⟨rfl, -, -, hplace⟩
  · rw [hplace]
    show '\n' ∉ p.indent
    rw [Part.indent]
    split
    · exact fun hmem => ht p.line (h.line_mem (by simp)) ((List.takeWhile_sublist _).subset hmem)
    · exact List.not_mem_nil
  · rw [hplace]
    exact List.not_mem_nil

theorem noBreak_sectionLines (hs : NoBreak s.lines)
    (secs : List (Option Line × IndexMap Line Entry)) (before : List Line) :
    NoBreak (sectionLines t s before secs) := by
  induction secs generalizing before with
  | nil => exact .nil
  | cons sec secs ih =>
    obtain ⟨_ | name, keys⟩ := sec
    · exact ih before
    · refine NoBreak.append (NoBreak.append (noBreak_blank _) ?_) (ih _)
      intro l hl
      rcases List.mem_cons.1 hl with rfl | hl
      · exact notMem_headerLine hs name
      · obtain ⟨setting, -, hl⟩ := List.mem_flatMap.1 hl
        exact noBreak_entryLines hs List.not_mem_nil setting.2 l hl

/-- **No line of a merged file holds a line feed.** -/
theorem noBreak_edits (h : Layout t lead parts) (hd : Headed t.sections) (ht : NoBreak t.lines)
    (hs : NoBreak s.lines) : NoBreak ((edits t s).apply 0 0 t.lines) := by
  have hinsert : ∀ j, NoBreak ((presentEdits t s).insert j) := by
    intro j l hl
    rw [insert_presentEdits] at hl
    obtain ⟨sec, hsec, hl⟩ := List.mem_flatMap.1 hl
    split at hl
    · have hname := (List.mem_filter.1 hsec).2
      rcases List.mem_append.1 hl with hl | hl
      · obtain ⟨setting, -, hl⟩ := List.mem_flatMap.1 hl
        exact noBreak_entryLines hs (notMem_insertPoint h hd ht hname) setting.2 l hl
      · exact noBreak_blank _ l hl
    · exact nomatch hl
  have hreplace : ∀ i r, (presentEdits t s).replace i = some r → NoBreak r.2 := by
    intro i r hr
    obtain ⟨p, hp, -, existing, entry, he, -, -, rfl⟩ := exists_part_of_replace h hr
    exact noBreak_replacement h ht hs hp he entry
  have happly : ∀ (ls : List Line) (i skip : ℕ), NoBreak ls →
      NoBreak ((presentEdits t s).apply i skip ls) := by
    intro ls
    induction ls with
    | nil =>
      intro i skip _
      cases skip with
      | zero => exact hinsert i
      | succ skip => exact .nil
    | cons line ls ih =>
      intro i skip hls
      rw [NoBreak, List.forall_mem_cons] at hls
      cases skip with
      | succ skip => exact ih (i + 1) skip hls.2
      | zero =>
        refine NoBreak.append (hinsert i) ?_
        cases hr : (presentEdits t s).replace i with
        | none =>
          intro l hl
          rcases List.mem_cons.1 hl with rfl | hl
          · exact hls.1
          · exact ih (i + 1) 0 hls.2 l hl
        | some r => exact (hreplace i r hr).append (ih (i + 1) _ hls.2)
  rw [apply_edits h]
  exact (happly t.lines 0 0 ht).append (noBreak_sectionLines hs _ _)

/-! ### The lines of a joined text -/

theorem readLine_congr {l l' : Line} (htrim : trimLine l = trimLine l')
    (hindent : isSignificant l = true → indentation l = indentation l') (r : List Item × ℕ) :
    readLine r l = readLine r l' := by
  have hsignificant := isSignificant_congr htrim
  by_cases hl : isSignificant l = true
  · rw [readLine, readLine, itemOf, itemOf, ← hsignificant, htrim, hindent hl]
  · rw [readLine, readLine, ← hsignificant, if_neg hl, if_neg hl, htrim]

theorem trimLine_stripCr (l : Line) : trimLine (stripCr l) = trimLine l := by
  by_cases hends : endsCr l = true
  · have hcr : IsWhite ['\r'] := fun c hc => (List.mem_singleton.1 hc) ▸ rfl
    conv_rhs => rw [eq_concat_of_endsCr hends, trimLine_append_white hcr]
  · rw [stripCr_eq_self.2 (Bool.eq_false_iff.2 hends)]

theorem indentation_stripCr {l : Line} (h : isSignificant l = true) :
    indentation (stripCr l) = indentation l := by
  by_cases hends : endsCr l = true
  · have hblank := isBlank_of_isSignificant h
    have hne : trimLine (stripCr l) ≠ [] := fun hnil => by
      rw [isBlank, ← trimLine_stripCr, hnil] at hblank
      exact Bool.false_ne_true hblank.symm
    obtain ⟨w', hw', heq⟩ := eq_trimLine_append (stripCr l)
    have hlong : l = (stripCr l).takeWhile isWhitespace ++ trimLine (stripCr l) ++
        (w' ++ ['\r']) := by
      conv_lhs => rw [eq_concat_of_endsCr hends, heq]
      rw [List.append_assoc]
    have hindent := @indentation_append _ _ w' (isWhite_takeWhile (stripCr l))
      (trimmed_trimLine _) hne
    rw [← heq] at hindent
    conv_rhs => rw [hlong]
    rw [hindent, indentation_append (isWhite_takeWhile _) (trimmed_trimLine _) hne]
  · rw [stripCr_eq_self.2 (Bool.eq_false_iff.2 hends)]

/-- A carriage return at the end of a line says nothing. -/
theorem readLine_stripCr (r : List Item × ℕ) (l : Line) : readLine r (stripCr l) = readLine r l := by
  refine readLine_congr (trimLine_stripCr l) (fun h => indentation_stripCr ?_) r
  rwa [isSignificant_congr (trimLine_stripCr l)] at h

theorem Heads.stripCr {line name : Line} (h : Heads line name) : Heads (stripCr line) name where
  significant := by
    rw [isSignificant_congr (trimLine_stripCr line)]
    exact h.significant
  bracket := by
    rw [trimLine_stripCr]
    exact h.bracket
  title := by
    rw [trimLine_stripCr]
    exact h.title
  named := h.named

theorem readLines_map_stripCr (r : List Item × ℕ) (ls : List Line) :
    readLines r (ls.map stripCr) = readLines r ls := by
  induction ls generalizing r with
  | nil => rfl
  | cons l ls ih =>
    rw [List.map_cons, readLines_cons, readLines_cons, readLine_stripCr]
    exact congrArg _ (funext ih)

theorem Reads.map_stripCr {ls : List Line} {its its' : List Item} (h : Reads ls its its') :
    Reads (ls.map stripCr) its its' := by
  intro blanks
  rw [readLines_map_stripCr]
  exact h blanks

/-- A last line that is empty says nothing. -/
theorem Reads.of_concat_nil {ls : List Line} {its its' : List Item}
    (h : Reads (ls ++ [[]]) its its') : Reads ls its its' := by
  intro blanks
  obtain ⟨blanks', h⟩ := h blanks
  rw [readLines_append] at h
  obtain ⟨r, hr, h⟩ := Option.bind_eq_some_iff.1 h
  obtain ⟨rfl, -⟩ := Prod.mk.inj (Option.some.inj h)
  exact ⟨r.2, hr⟩

theorem Reads.eq_of_nil {its its' : List Item} (h : Reads [] its its') : its' = its := by
  obtain ⟨_, h⟩ := h 0
  exact (Prod.mk.inj (Option.some.inj h)).1.symm

/-- **Lines that are joined are read back.** -/
theorem Reads.lines_finish {out : List Line} {its its' : List Item} (h : Reads out its its')
    (hout : NoBreak out) (crlf ended : Bool) :
    Reads (Lib.lines ((ending crlf).intercalate out ++ if ended then ending crlf else []))
      its its' := by
  have hended : ∀ {ls : List Line} (rest : List Char), NoBreak ls →
      ∃ ls', (ls' = ls ∨ ls' = ls.map stripCr) ∧
        Lib.lines (endedLines crlf ls ++ rest) = ls' ++ Lib.lines rest := by
    intro ls rest hls
    cases crlf with
    | true => exact ⟨ls, .inl rfl, lines_endedLines hls (fun h => absurd h (by decide)) rest⟩
    | false => exact ⟨ls.map stripCr, .inr rfl, lines_endedLines_false hls rest⟩
  rcases out.eq_nil_or_concat' with rfl | ⟨ls, l, rfl⟩
  · rw [h.eq_of_nil]
    refine IsNoise.reads (fun line hline => ?_) its
    have hblank : line = [] := by
      cases ended with
      | false => exact nomatch hline
      | true =>
        cases crlf with
        | true => exact List.mem_singleton.1 hline
        | false => exact List.mem_singleton.1 hline
    rw [hblank]
    rfl
  · rw [intercalate_concat]
    cases ended with
    | true =>
      have hjoin : endedLines crlf ls ++ l ++ ending crlf = endedLines crlf (ls ++ [l]) ++ [] := by
        rw [endedLines, endedLines, List.flatMap_append, List.flatMap_singleton, List.append_nil,
          List.append_assoc]
      obtain ⟨ls', hls', hlines⟩ := hended [] hout
      show Reads (Lib.lines (endedLines crlf ls ++ l ++ ending crlf)) its its'
      rw [hjoin, hlines]
      show Reads (ls' ++ []) its its'
      rw [List.append_nil]
      rcases hls' with rfl | rfl
      · exact h
      · exact h.map_stripCr
    | false =>
      have hls : NoBreak ls := fun m hm => hout m (List.mem_append_left _ hm)
      have hl : '\n' ∉ l := hout l (by simp)
      obtain ⟨ls', hls', hlines⟩ := hended l hls
      show Reads (Lib.lines (endedLines crlf ls ++ l ++ [])) its its'
      rw [List.append_nil, hlines]
      have hlast : Reads (ls ++ Lib.lines l) its its' := by
        by_cases hne : l = []
        · subst hne
          show Reads (ls ++ []) its its'
          rw [List.append_nil]
          exact h.of_concat_nil
        · rw [lines_last hl hne]
          exact h
      rcases hls' with rfl | rfl
      · exact hlast
      · intro blanks
        obtain ⟨b, hb⟩ := hlast blanks
        refine ⟨b, ?_⟩
        rw [readLines_append, readLines_map_stripCr, ← readLines_append]
        exact hb

/-! ### The byte order mark -/

/-- A key that is added as the first line of a file does not begin with a byte order mark, or
the file has one in front of it. -/
def Unmarked (target : List Char) (t : Doc) (s : Settings) : Prop :=
  target.head? ≠ some bom → (t.insertPoint none).1 = 0 →
    ∀ setting ∈ (addedKeys t s none).head?, setting.1.head? ≠ some bom

instance (target : List Char) (t : Doc) (s : Settings) : Decidable (Unmarked target t s) :=
  inferInstanceAs (Decidable (_ → _ → ∀ setting ∈ _, _))

theorem head?_eq_head? {l l' m : List Char} (hne : m ≠ []) (h : m <+: l) (h' : m <+: l') :
    l.head? = l'.head? := by
  obtain ⟨x, rfl⟩ := h
  obtain ⟨y, rfl⟩ := h'
  obtain ⟨c, m, rfl⟩ := List.exists_cons_of_ne_nil hne
  rfl

theorem SetsKey.begins {line : Line} {body : List Line} {e : Setting} (h : SetsKey line body e) :
    line.takeWhile isWhitespace ++ e.key <+: line := by
  obtain ⟨gap, more, -, htext, -⟩ := h.text_eq
  obtain ⟨w, -, hline⟩ := eq_trimLine_append line
  refine ⟨gap ++ more ++ w, ?_⟩
  conv_rhs => rw [hline, htext]
  simp

theorem Heads.head?_ne {line name : Line} (h : Heads line name) : line.head? ≠ some bom := by
  obtain ⟨w, -, hline⟩ := eq_trimLine_append line
  intro hbom
  rw [hline, List.append_assoc, List.head?_append] at hbom
  cases hwhite : (line.takeWhile isWhitespace).head? with
  | some c =>
    rw [hwhite] at hbom
    obtain rfl : c = bom := Option.some.inj hbom
    exact absurd (isWhite_takeWhile line bom (List.mem_of_head? hwhite)) (by decide)
  | none =>
    rw [hwhite, Option.none_or, List.head?_append, h.bracket] at hbom
    exact absurd (Option.some.inj hbom) (by decide)

section Mark

variable {lead' : List Line} {parts' : List Part}

/-- The first line of a key that is written without an indent. -/
theorem head?_entryLines (hs : Layout s lead' parts') {name : Option Line} {key : Line} {e : Entry}
    (hget : s.get name key = some e) (hkey : key.head? ≠ some bom) :
    ∀ l ∈ (s.entryLines e []).head?, l.head? ≠ some bom := by
  obtain ⟨q, hq, -, hentry, hqkey⟩ := hs.mem_of_get hget
  obtain ⟨hsets, -⟩ := (hs.sound hq).key e hentry
  intro l hl
  rw [hs.entryLines hq hentry] at hl
  obtain rfl := Option.some.inj hl
  obtain ⟨w, hw, heq, hnil, -⟩ :=
    entryLine_eq (e := e) (isBlank_of_isSignificant hsets.significant) []
  obtain ⟨gap, more, -, htext, -⟩ := hsets.text_eq
  obtain ⟨w', -, hstart⟩ := trimStart_eq q.line
  rw [heq, hnil hsets.indent, hstart, htext]
  obtain ⟨c, rest, hcons⟩ := List.exists_cons_of_ne_nil hsets.named
  have hcons' : key = c :: rest := hqkey ▸ hcons
  rw [hcons]
  rw [hcons'] at hkey
  exact hkey

/-- The first of the keys that are added in front of all parts. -/
theorem head?_topAddition (ht : Layout t lead parts) (htd : Headed t.sections)
    (hs : Layout s lead' parts')
    (hmark : ∀ setting ∈ (addedKeys t s.settings none).head?, setting.1.head? ≠ some bom) :
    ∀ l ∈ (topAddition t s parts).head?, l.head? ≠ some bom := by
  intro l hl
  rw [topAddition] at hl
  split at hl
  · cases hl
  · case isFalse hnone =>
    have hall : ∀ p ∈ parts, p.mark.name ≠ none := by simpa using hnone
    have hindent := (ht.insertPoint_top htd hall).2
    cases hkeys : s.effective.get none with
    | none =>
      rw [hkeys] at hl
      cases hl
    | some keys =>
      have hadded := addedKeys_eq hkeys t
      rw [hkeys, Option.elim_some, addition, absentLines, hindent] at hl
      cases hsettings : keys.entries.filter fun setting => (t.get none setting.1).isNone with
      | nil =>
        rw [hsettings] at hl
        simp at hl
      | cons setting settings =>
        have hmem : setting ∈ keys.entries := by
          refine List.mem_of_mem_filter (p := fun setting => (t.get none setting.1).isNone) ?_
          rw [hsettings]
          exact List.mem_cons_self
        have hget := get_of_mem_effective (s.effective.mem_entries.2 hkeys) hmem
        obtain ⟨q, hq, -, hentry, -⟩ := hs.mem_of_get hget
        have hfirst := hmark (setting.1, setting.2.value) (by rw [hadded, hsettings]; rfl)
        refine head?_entryLines hs hget hfirst l ?_
        rw [hs.entryLines hq hentry]
        rw [hsettings, List.flatMap_cons, hs.entryLines hq hentry] at hl
        exact hl

theorem head?_sectionLines (hs : Layout s lead' parts') (hsd : Headed s.sections)
    (secs : List (Option Line × IndexMap Line Entry)) (hsecs : ∀ sec ∈ secs,
      sec ∈ s.effective.entries) (before : List Line) :
    ∀ l ∈ (sectionLines t s before secs).head?, l.head? ≠ some bom := by
  induction secs generalizing before with
  | nil => exact fun _ hl => by cases hl
  | cons sec secs ih =>
    rw [List.forall_mem_cons] at hsecs
    obtain ⟨_ | name, keys⟩ := sec
    · exact ih hsecs.2 before
    · intro l hl
      have hsection : s.hasSection (some name) = true :=
        hasSection_of_mem_effective hsd.titled hsecs.1
      rw [sectionLines] at hl
      split at hl
      · obtain rfl := Option.some.inj hl
        exact fun h => by cases h
      · obtain rfl := Option.some.inj hl
        exact (hs.heads_headerLine hsd.titled hsection).head?_ne

theorem mem_head?_append {α : Type} {xs ys : List α} {a : α} (h : a ∈ (xs ++ ys).head?) :
    a ∈ xs.head? ∨ xs = [] ∧ a ∈ ys.head? := by
  cases xs with
  | nil => exact .inr ⟨rfl, h⟩
  | cons x xs => exact .inl h

/-- **A merged file begins with a byte order mark only where the target does.** -/
theorem head?_edits (ht : Layout t lead parts) (htd : Headed t.sections)
    (hs : Layout s lead' parts') (hsd : Headed s.sections)
    (hnl : ∀ line ∈ s.lines, '\n' ∉ line)
    (hfirst : ∀ l ∈ t.lines.head?, l.head? ≠ some bom)
    (hmark : (t.insertPoint none).1 = 0 → ∀ setting ∈ (addedKeys t s.settings none).head?,
      setting.1.head? ≠ some bom) :
    ∀ l ∈ ((edits t s).apply 0 0 t.lines).head?, l.head? ≠ some bom := by
  obtain ⟨a, b, hlead, hplace, happly⟩ := apply_presentEdits ht htd s
  rw [apply_edits ht, happly]
  have hlines := ht.lines
  rw [hlead] at hlines
  intro l hl
  rcases mem_head?_append hl with hout | ⟨-, hl⟩
  · rcases mem_head?_append hout with hfront | ⟨hnil, hl⟩
    · rcases mem_head?_append hfront with hfront | ⟨hnil, hl⟩
      · rcases mem_head?_append hfront with hl | ⟨hnil, hl⟩
        · refine hfirst l ?_
          rw [hlines, List.append_assoc, List.head?_append, hl]
          rfl
        · have hne : topAddition t s parts ≠ [] := by
            intro hnil
            rw [hnil] at hl
            exact nomatch hl
          rw [hnil] at hplace
          exact head?_topAddition ht htd hs (hmark (hplace hne).symm) l hl
      · rw [(List.append_eq_nil_iff.1 hnil).1] at hlines
        refine hfirst l ?_
        rw [hlines, List.nil_append, List.head?_append, hl]
        rfl
    · obtain ⟨hnil, hb⟩ := List.append_eq_nil_iff.1 hnil
      rw [(List.append_eq_nil_iff.1 hnil).1, hb] at hlines
      -- the first part is the first line of the target
      rcases parts with _ | ⟨p, parts⟩
      · exact nomatch hl
      · have hline : t.lines.head? = some p.line := by
          rw [hlines]
          rfl
        have hp := hfirst p.line hline
        rw [List.flatMap_cons, written, writtenHead] at hl
        cases hr : (presentEdits t s).replace p.mark.start with
        | none =>
          rw [hr] at hl
          obtain rfl := Option.some.inj hl
          exact hp
        | some r =>
          obtain ⟨existing, entry, hentry, -, hsource, rfl⟩ :=
            exists_of_replace_start ht List.mem_cons_self hr
          obtain ⟨q, hq, -, hqentry, -⟩ := hs.mem_of_get hsource
          obtain ⟨line, body, comments, hreplaced, -, -, hprefix⟩ :=
            exists_replacement ht hs List.mem_cons_self hq hentry hqentry
              (hnl _ (hs.line_mem hq))
          rw [hr] at hl
          dsimp only at hl
          rw [hreplaced] at hl
          obtain rfl := Option.some.inj hl
          obtain ⟨hsets, -⟩ := (ht.sound List.mem_cons_self).key existing hentry
          have hne : p.line.takeWhile isWhitespace ++ existing.key ≠ [] := by
            have hnamed : existing.key ≠ [] := hsets.named
            simp [hnamed]
          rw [head?_eq_head? hne hprefix hsets.begins]
          exact hp
  · refine head?_sectionLines hs hsd _ (fun sec hsec => ?_) _ l hl
    exact List.mem_of_mem_filter hsec

end Mark

/-! ### Merged texts -/

theorem head?_lines {cs l : List Char} (hl : l ∈ (Lib.lines cs).head?) {c : Char}
    (hc : l.head? = some c) : cs.head? = some c := by
  induction cs using lineInduction with
  | nil => exact nomatch hl
  | last m hne hm =>
    rw [lines_last hm hne] at hl
    obtain rfl := Option.some.inj hl
    exact hc
  | line m rest hm ih =>
    rw [lines_line hm] at hl
    obtain rfl := Option.some.inj hl
    have hm : m.head? = some c := by
      split at hc
      · cases m with
        | nil => exact nomatch hc
        | cons d m =>
          cases m with
          | nil => exact nomatch hc
          | cons d' m => exact hc
      · exact hc
    rw [List.head?_append, hm]
    rfl

theorem stripBom_of_head? {cs : List Char} (h : cs.head? ≠ some bom) : stripBom cs = cs := by
  cases cs with
  | nil => rfl
  | cons c cs =>
    rw [stripBom, if_neg]
    exact fun hc => h (congrArg some hc)

/-- A text begins with a byte order mark where its first line does. -/
theorem head?_intercalate {crlf : Bool} {out : List Line}
    (h : ∀ l ∈ out.head?, l.head? ≠ some bom) (ended : Bool) :
    ((ending crlf).intercalate out ++ if ended then ending crlf else []).head? ≠ some bom := by
  have hending : ∀ more : List Char, (ending crlf ++ more).head? ≠ some bom := by
    intro more
    cases crlf with
    | true => exact fun hbom => absurd (Option.some.inj hbom) (by decide)
    | false => exact fun hbom => absurd (Option.some.inj hbom) (by decide)
  have htail : (if ended then ending crlf else []).head? ≠ some bom := by
    cases ended with
    | true =>
      have := hending []
      rwa [List.append_nil] at this
    | false => exact nofun
  cases out with
  | nil => exact htail
  | cons l ls =>
    have hl := h l rfl
    cases ls with
    | nil =>
      rw [List.intercalate_singleton]
      cases l with
      | nil => exact htail
      | cons c l => exact hl
    | cons l' ls =>
      rw [List.intercalate_cons_of_ne_nil (by simp), List.append_assoc, List.append_assoc]
      cases l with
      | nil => exact hending _
      | cons c l => exact hl

/-- The merge of a source into a target is read as it is written. -/
structure Readable (target : List Char) (t s : Doc) : Prop where
  undisturbed : Undisturbed t s.settings s.headerIndent
  unmarked : Unmarked target t s.settings

instance (target : List Char) (t s : Doc) : Decidable (Readable target t s) :=
  decidable_of_iff (Undisturbed t s.settings s.headerIndent ∧ Unmarked target t s.settings)
    ⟨fun ⟨undisturbed, unmarked⟩ => ⟨undisturbed, unmarked⟩,
      fun h => ⟨h.undisturbed, h.unmarked⟩⟩

/-- A text is parsed to the values of a source and else those of a target, in the sections
of both. -/
structure Merged (r : List Char) (t s : Settings) (d : Doc) : Prop where
  parsed : ∀ what, parse r what = .ok d
  value : ∀ name key, d.settings.value name key = (s.value name key).or (t.value name key)
  sections : ∀ name, d.settings.hasSection name = (t.hasSection name || s.hasSection name)

/-- What a text is parsed to is told by no name for it. -/
theorem parse_any {text : List Char} {what : String} {d : Doc} (h : parse text what = .ok d)
    (what' : String) : parse text what' = .ok d := by
  obtain ⟨st, hsteps, hd⟩ := parse_eq_ok_iff.1 h
  exact parse_eq_ok_iff.2 ⟨st, hsteps, hd⟩

/-- **A merge that is read as it is written** has a text that is parsed, with the values of the
source and else those of the target, and with the sections of both. -/
theorem exists_merged {target source : List Char} {t s : Doc}
    (ht : parse target "target" = .ok t) (hs : parse source "source" = .ok s)
    (h : Readable target t s) : ∃ r d, merge target source = .ok r ∧
      Merged r t.settings s.settings d := by
  obtain ⟨lead, parts, hlayout⟩ := exists_layout ht
  obtain ⟨lead', parts', hlayout'⟩ := exists_layout hs
  have htd := headed_parse ht
  have hsd := headed_parse hs
  have hnl := noBreak_parse hs
  have hout := noBreak_edits hlayout htd (noBreak_parse ht) hnl
  have hreads := (reads_edits hlayout htd hlayout' hsd hnl h.undisturbed).lines_finish hout
    (hasCrlf target) (target.isEmpty || target.getLast? = some '\n')
  have hmerge : merge target source = .ok (finish target ((edits t s).apply 0 0 t.lines)) := by
    rw [merge, ht, hs]
    rfl
  -- the byte order mark comes off again
  have hstrip : stripBom (finish target ((edits t s).apply 0 0 t.lines)) =
      (ending (hasCrlf target)).intercalate ((edits t s).apply 0 0 t.lines) ++
        if target.isEmpty || target.getLast? = some '\n' then ending (hasCrlf target) else [] := by
    rw [finish]
    by_cases hbom : target.head? = some bom
    · rw [if_pos hbom, List.append_assoc, List.singleton_append, stripBom, if_pos rfl]
    · rw [if_neg hbom, List.nil_append]
      refine stripBom_of_head? (head?_intercalate ?_ _)
      refine head?_edits hlayout htd hlayout' hsd hnl (fun l hl hc => ?_) (h.unmarked hbom)
      obtain ⟨st, -, rfl⟩ := parse_eq_ok_iff.1 ht
      rw [stripBom_of_head? hbom] at hl
      exact hbom (head?_lines hl hc)
  obtain ⟨blanks, hread⟩ := hreads 0
  rw [← hstrip] at hread
  obtain ⟨d, hparse, -, hitems⟩ := exists_parse_of_readLines hread ""
  refine ⟨_, d, hmerge, parse_any hparse, fun name key => ?_, fun name => ?_⟩
  · rw [value_items, hitems]
    exact itemValue_mergedItems hlayout htd s.settings name key
  · cases name with
    | none => rfl
    | some name =>
      rw [hasSection_settings (titled_parse hparse), hasSection_items (titled_parse hparse), hitems,
        hasSection_settings htd.titled]
      exact any_mergedItems hlayout htd s.settings name

/-! ### Merged files -/

/-- `merge` of `structured_merge.rs`, for INI files: a target that has the values already stays
as it is. -/
def mergeFile (target source : List Char) : Except String (List Char) := do
  if ← contains target source then
    return target
  else
    merge target source

/-- A file that has the values, or whose merge is read as it is written. -/
theorem exists_merged_file {target source : List Char} {t s : Doc}
    (ht : parse target "target" = .ok t) (hs : parse source "source" = .ok s)
    (h : t.settings.contains s.settings = false → Readable target t s) :
    ∃ r d, mergeFile target source = .ok r ∧ Merged r t.settings s.settings d := by
  have hcontains := contains_eq ht hs
  cases hc : t.settings.contains s.settings with
  | true =>
    rw [hc] at hcontains
    obtain ⟨hsections, hvalues⟩ := Settings.contains_iff.1 hc
    refine ⟨target, t, ?_, parse_any ht, fun name key => ?_, fun name => ?_⟩
    · rw [mergeFile, hcontains]
      rfl
    · cases hv : s.settings.value name key with
      | none => rfl
      | some v => exact hvalues name key v hv
    · cases hname : s.settings.hasSection name with
      | true => rw [hsections name hname, Bool.or_true]
      | false => rw [Bool.or_false]
  | false =>
    rw [hc] at hcontains
    obtain ⟨r, d, hmerge, hmerged⟩ := exists_merged ht hs (h hc)
    refine ⟨r, d, ?_, hmerged⟩
    rw [mergeFile, hcontains]
    exact hmerge

end Mise.Ini
