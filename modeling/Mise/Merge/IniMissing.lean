/-
# What is missing, as a file of its own

`missing` writes the absent keys of one section after another, and `fill_missing` parses that
text again.  A file's values are what its items make of an empty map (`settings_items`), so the
text has the values that are missing wherever it is read as it is written: where no header in
it goes on with the value above it, and its first key does not begin with a byte order mark
(`exists_parse_missing`).
-/

import Mise.Merge.IniText

namespace Mise.Ini

open Lib String

/-! ### The values that items set -/

/-- An item puts its section and its key in place. -/
def addItem (m : Settings) (it : Item) : Settings :=
  let keys := (m.get it.name).getD .empty
  m.insert it.name (it.setting.elim keys fun e => keys.insert e.key e.value)

theorem foldl_addItem_keys {ε : Type} (name : Option Line) (setting : ε → Setting)
    (entries : List ε) (m : Settings) :
    (entries.map fun e => Item.mk name (some (setting e))).foldl addItem m =
      if entries.isEmpty then m
      else m.insert name (entries.foldl
        (fun keys e => keys.insert (setting e).key (setting e).value)
        ((m.get name).getD .empty)) := by
  induction entries generalizing m with
  | nil => rfl
  | cons e entries ih =>
    rw [List.map_cons, List.foldl_cons, ih]
    show _ = m.insert name _
    have hget : ((addItem m ⟨name, some (setting e)⟩).get name).getD .empty =
        ((m.get name).getD .empty).insert (setting e).key (setting e).value := by
      simp [addItem]
    rw [hget]
    cases entries with
    | nil => rfl
    | cons e' entries => exact IndexMap.insert_insert m name _ _

/-- The values of the entries that are inserted. -/
theorem mapValues_foldl_insert (entries : List Entry) (keys : IndexMap Line Entry) :
    (entries.foldl (fun keys e => keys.insert e.key e) keys).mapValues (·.value) =
      entries.foldl (fun keys e => keys.insert e.key e.value) (keys.mapValues (·.value)) := by
  induction entries generalizing keys with
  | nil => rfl
  | cons e entries ih => rw [List.foldl_cons, ih, IndexMap.mapValues_insert, List.foldl_cons]

/-- **A file's values are those that its items set**, one after another. -/
theorem settings_items (d : Doc) : d.settings = d.items.foldl addItem .empty := by
  obtain ⟨ls, sections⟩ := d
  induction sections using List.reverseRecOn with
  | nil => rfl
  | append_singleton sections sec ih =>
    have hitems : (Doc.mk ls (sections ++ [sec])).items =
        (Doc.mk ls sections).items ++ sec.items := by
      simp [Doc.items]
    rw [hitems, List.foldl_append, ← ih, Section.items, List.foldl_append,
      foldl_addItem_keys sec.name (fun e : Entry => ⟨e.key, e.value, e.indent⟩)]
    rw [Doc.settings, effective_concat]
    have hkeys : ((Doc.mk ls sections).settings.get sec.name).getD .empty =
        (((Doc.mk ls sections).effective.get sec.name).getD .empty).mapValues (·.value) := by
      rw [settings_get]
      cases (Doc.mk ls sections).effective.get sec.name <;> rfl
    cases hheader : sec.header with
    | none =>
      rw [Option.isNone_none, Bool.true_and]
      show _ = if sec.entries.isEmpty then (Doc.mk ls sections).settings else _
      split
      · rfl
      · rw [IndexMap.mapValues_insert, mapValues_foldl_insert, ← hkeys]
        rfl
    | some i =>
      rw [Option.isNone_some, Bool.false_and, if_neg Bool.false_ne_true,
        IndexMap.mapValues_insert, mapValues_foldl_insert, ← hkeys]
      have hfirst : (List.map (fun _ => Item.mk sec.name none) (some i).toList).foldl addItem
          (Doc.mk ls sections).settings = (Doc.mk ls sections).settings.insert sec.name
            (((Doc.mk ls sections).settings.get sec.name).getD .empty) := rfl
      rw [hfirst]
      cases hentries : sec.entries with
      | nil => rfl
      | cons e entries =>
        rw [List.isEmpty_cons, if_neg Bool.false_ne_true, IndexMap.insert_insert,
          IndexMap.get_insert, if_pos rfl, Option.getD_some]
        rfl

/-- The items of a section that stands in a file of its own. -/
def fileItems (sec : Option Line × IndexMap Line (Option Line)) : List Item :=
  (sec.1.toList.map fun _ => ⟨sec.1, none⟩) ++
    sec.2.entries.map fun setting => ⟨sec.1, some ⟨setting.1, setting.2, 0⟩⟩

/-- A section that is new to a map is put in place with its keys. -/
theorem foldl_fileItems {m : Settings} {sec : Option Line × IndexMap Line (Option Line)}
    (hnew : m.get sec.1 = none) (hkeys : sec.1 = none → sec.2.entries ≠ []) :
    (fileItems sec).foldl addItem m = m.insert sec.1 sec.2 := by
  obtain ⟨name, keys⟩ := sec
  have hentries := foldl_addItem_keys name
    (fun setting : Line × Option Line => ⟨setting.1, setting.2, 0⟩) keys.entries
  rw [fileItems, List.foldl_append, hentries]
  cases name with
  | none =>
    have hne : keys.entries.isEmpty = false := List.isEmpty_eq_false_iff.2 (hkeys rfl)
    have hnew : m.get none = none := hnew
    show (if keys.entries.isEmpty then m else m.insert none (keys.entries.foldl
      (fun keys e => keys.insert e.1 e.2) ((m.get none).getD .empty))) = _
    rw [hne, if_neg Bool.false_ne_true, hnew]
    exact congrArg _ keys.foldl_insert_entries
  | some name =>
    have hnew : m.get (some name) = none := hnew
    have hheader : ((some name).toList.map fun _ => Item.mk (some name) none).foldl addItem m =
        m.insert (some name) .empty := by
      show m.insert (some name) ((m.get (some name)).getD .empty) = _
      rw [hnew]
      rfl
    rw [hheader, IndexMap.get_insert, if_pos rfl, Option.getD_some, IndexMap.insert_insert]
    rw [IndexMap.foldl_insert_entries]
    split
    · case isTrue hnil =>
      rw [show keys = .empty from IndexMap.eq_of_entries (List.isEmpty_iff.1 hnil)]
    · rfl

/-- **The items of a map's sections put the map in place.** -/
theorem foldl_flatMap_fileItems {m : Settings}
    (hm : ∀ keys, m.get none = some keys → keys.entries ≠ []) :
    (m.entries.flatMap fileItems).foldl addItem .empty = m := by
  have hall : ∀ secs : List (Option Line × IndexMap Line (Option Line)),
      (secs.map Prod.fst).Nodup → (∀ sec ∈ secs, sec.1 = none → sec.2.entries ≠ []) →
        ((secs.flatMap fileItems).foldl addItem .empty).entries = secs := by
    intro secs
    induction secs using List.reverseRecOn with
    | nil => exact fun _ _ => rfl
    | append_singleton init sec ih =>
      intro hnodup hsecs
      rw [List.map_append, List.nodup_append] at hnodup
      have hinit := ih hnodup.1 fun sec' hsec' => hsecs sec' (List.mem_append_left _ hsec')
      have hnot : sec.1 ∉ init.map Prod.fst := fun hmem => hnodup.2.2 sec.1 hmem sec.1 (by simp) rfl
      have hnew : ((init.flatMap fileItems).foldl addItem .empty).get sec.1 = none := by
        rw [Option.eq_none_iff_forall_not_mem]
        intro keys hget
        rw [Option.mem_def, ← IndexMap.mem_entries, hinit] at hget
        exact hnot (List.mem_map.2 ⟨_, hget, rfl⟩)
      rw [List.flatMap_append, List.flatMap_singleton, List.foldl_append,
        foldl_fileItems hnew (hsecs sec (by simp))]
      show IndexMap.insertEntry sec.1 sec.2 _ = _
      rw [hinit, IndexMap.insertEntry_of_notMem hnot]
  refine IndexMap.eq_of_entries (hall m.entries m.nodup fun sec hsec hname => ?_)
  obtain ⟨name, keys⟩ := sec
  obtain rfl : name = none := hname
  exact hm keys (m.mem_entries.1 hsec)

/-! ### Header lines -/

/-- The line of a section's first header. -/
def headerOf (sections : List Section) (name : Line) : Option ℕ :=
  (sections.find? (·.name = some name)).bind (·.header)

theorem headerOf_append {sections : List Section} {name : Line} {h : ℕ}
    (hname : headerOf sections name = some h) (more : List Section) :
    headerOf (sections ++ more) name = some h := by
  obtain ⟨sec, hsec, hheader⟩ := Option.bind_eq_some_iff.1 hname
  rw [headerOf, List.find?_append, hsec]
  exact hheader

/-- A section's header line, where it is known, stays the same. -/
theorem LineStep.headerOf_eq {st st' : ParseState} {i : ℕ} {line name : Line} {h : ℕ}
    (hstep : LineStep st i line st') (hst : headerOf (st.sections ++ [st.current]) name = some h) :
    headerOf (st'.sections ++ [st'.current]) name = some h := by
  have hwith : ∀ entries : List Entry,
      headerOf (st.sections ++ [{ st.current with entries := entries }]) name = some h := by
    intro entries
    rw [← hst, headerOf, headerOf, List.find?_append, List.find?_append]
    cases st.sections.find? (·.name = some name) with
    | some sec => rfl
    | none =>
      rw [Option.none_or, Option.none_or, List.find?_singleton, List.find?_singleton]
      by_cases hname : st.current.name = some name
      · simp [hname]
      · simp [hname]
  cases hstep with
  | blank hline => exact hst
  | comment hblank hline => exact hst
  | continues hline hcontinues => exact hwith _
  | header hline hcontinues hbracket hname hne => exact headerOf_append hst _
  | key hline hcontinues hbracket hne => exact hwith _

theorem LineSteps.headerOf_eq {st st' : ParseState} {i : ℕ} {ls : List Line} {name : Line} {h : ℕ}
    (hsteps : LineSteps st i ls st')
    (hst : headerOf (st.sections ++ [st.current]) name = some h) :
    headerOf (st'.sections ++ [st'.current]) name = some h := by
  induction hsteps with
  | nil => exact hst
  | cons first steps ih => exact ih (first.headerOf_eq hst)

theorem LineSteps.of_append {st st' : ParseState} {i : ℕ} {pre post : List Line}
    (h : LineSteps st i (pre ++ post) st') :
    ∃ st₁, LineSteps st i pre st₁ ∧ LineSteps st₁ (i + pre.length) post st' := by
  induction pre generalizing st i with
  | nil => exact ⟨st, .nil, h⟩
  | cons line pre ih =>
    cases h with
    | cons first steps =>
      obtain ⟨st₁, hpre, hpost⟩ := ih steps
      refine ⟨st₁, .cons first hpre, ?_⟩
      rwa [List.length_cons, Nat.add_comm pre.length 1, ← Nat.add_assoc]

theorem LineSteps.unique {st st₁ st₂ : ParseState} {i : ℕ} {ls : List Line}
    (h₁ : LineSteps st i ls st₁) (h₂ : LineSteps st i ls st₂) : st₁ = st₂ := by
  have hrun₁ : parseLines "" st i ls = .ok st₁ := parseLines_eq_ok_iff.2 h₁
  have hrun₂ : parseLines "" st i ls = .ok st₂ := parseLines_eq_ok_iff.2 h₂
  exact Except.ok.inj (hrun₁.symm.trans hrun₂)

theorem LineStep.unique {st st₁ st₂ : ParseState} {i : ℕ} {line : Line}
    (h₁ : LineStep st i line st₁) (h₂ : LineStep st i line st₂) : st₁ = st₂ := by
  have hrun₁ : parseLine "" st i line = .ok st₁ := parseLine_eq_ok_iff.2 h₁
  have hrun₂ : parseLine "" st i line = .ok st₂ := parseLine_eq_ok_iff.2 h₂
  exact Except.ok.inj (hrun₁.symm.trans hrun₂)

/-- A line of a file is the first one that heads a section, wherever it is read as a header. -/
def Opens (ls : List Line) (name line : Line) : Prop :=
  ∃ pre post its, ls = pre ++ line :: post ∧ Reads pre [] its ∧
    (∀ it ∈ its, it.name ≠ some name) ∧ ∀ k ∈ opened its, indentation line ≤ k

theorem Opens.append {ls : List Line} {name line : Line} (h : Opens ls name line)
    (more : List Line) : Opens (ls ++ more) name line := by
  obtain ⟨pre, post, its, rfl, hpre, hnames, hfits⟩ := h
  exact ⟨pre, post ++ more, its, by simp, hpre, hnames, hfits⟩

/-- **The header line of a section is the first one that heads it.** -/
theorem headerLine_of_opens {text : List Char} {what : String} {d : Doc} {name line : Line}
    (hparse : parse text what = .ok d) (hopens : Opens d.lines name line)
    (hheads : Heads line name) : d.headerLine name = line := by
  obtain ⟨st', hsteps, rfl⟩ := parse_eq_ok_iff.1 hparse
  obtain ⟨pre, post, its, hlines, hpre, hnames, hfits⟩ := hopens
  have hlines : lines (stripBom text) = pre ++ line :: post := hlines
  rw [hlines] at hsteps
  obtain ⟨st, hbefore, hsteps⟩ := hsteps.of_append
  rw [Nat.zero_add] at hsteps
  obtain ⟨blanks, hread⟩ := hpre 0
  obtain ⟨st₀, hsteps₀, hshows⟩ := shows_start.steps hread 0
  obtain rfl := hbefore.unique hsteps₀
  -- no section has the name before the line
  have hnone : (st.sections ++ [st.current]).find? (·.name = some name) = none := by
    have htitled : Titled (st.sections ++ [st.current]) := by
      refine Titled.steps (fun sec hsec hname => ?_) hbefore
      rw [List.mem_singleton.1 hsec] at hname
      cases hname
    rw [List.find?_eq_none]
    intro sec hsec hname
    obtain ⟨i, -, hmark⟩ := htitled.mark_mem hsec (of_decide_eq_true hname)
    have hmem : Mark.item ⟨some name, i, none⟩ ∈ its := by
      have hitems : (Doc.mk [] (st.sections ++ [st.current])).items = its := hshows.items
      rw [← hitems, items_eq_map_marks]
      exact List.mem_map_of_mem (List.mem_flatMap.2 ⟨sec, hsec, hmark⟩)
    exact hnames _ hmem rfl
  cases hsteps with
  | @cons _ st₁ _ _ _ _ first steps =>
    have hcontinues : st.continues line = false := by
      rw [continues_eq hshows]
      cases hopened : opened its with
      | none => rfl
      | some k => simpa using hfits k hopened
    obtain rfl := first.unique (.header hheads.significant hcontinues hheads.bracket hheads.title
      hheads.named)
    have hhere : headerOf (st.sections ++ [st.current] ++ [⟨some name, some pre.length, []⟩]) name =
        some pre.length := by
      rw [headerOf, List.find?_append, hnone, Option.none_or, List.find?_singleton]
      simp
    have hline := steps.headerOf_eq hhere
    rw [headerOf] at hline
    simp only [Doc.headerLine, hline, hlines]
    simp

/-! ### The keys without a section -/

/-- The keys without a section come first. -/
theorem notMem_tail_effective {d : Doc} (hd : Headed d.sections) :
    ∀ sec ∈ d.effective.entries.tail, sec.1 ≠ none := by
  have hinsert : ∀ (m : Effective) (name : Line) (keys : IndexMap Line Entry),
      (∀ sec ∈ m.entries.tail, sec.1 ≠ none) →
        ∀ sec ∈ (m.insert (some name) keys).entries.tail, sec.1 ≠ none := by
    intro m name keys hm
    show ∀ sec ∈ (IndexMap.insertEntry (some name) keys m.entries).tail, _
    cases hentries : m.entries with
    | nil => exact List.forall_mem_nil _
    | cons e rest =>
      rw [hentries, List.tail_cons] at hm
      rw [IndexMap.insertEntry]
      split
      · exact hm
      · intro sec hsec
        rcases (IndexMap.mem_keys_insertEntry (some name) sec.1 keys rest).1
          (List.mem_map_of_mem hsec) with hname | hmem
        · rw [hname]
          exact Option.some_ne_none name
        · obtain ⟨sec', hsec', hname⟩ := List.mem_map.1 hmem
          exact hname ▸ hm sec' hsec'
  obtain ⟨ls, sections⟩ := d
  obtain ⟨first, rest, heq, hname, hheader, hrest⟩ := hd
  obtain rfl : sections = first :: rest := heq
  induction rest using List.reverseRecOn with
  | nil =>
    rw [← List.nil_append [first], effective_concat, hname]
    split <;> exact List.forall_mem_nil _
  | append_singleton rest sec ih =>
    have ih := ih (fun sec hsec => hrest sec (List.mem_append_left _ hsec))
    obtain ⟨name, i, hname, hheader⟩ := hrest sec (by simp)
    rw [← List.cons_append, effective_concat, hheader, Option.isNone_some, Bool.false_and,
      if_neg Bool.false_ne_true, hname]
    exact hinsert _ name _ ih

/-! ### The lines that are missing -/

section Missing

variable {t s : Doc} {lead : List Line} {parts : List Part}

/-- The keys of a section that `missing` writes, with their entries. -/
def absentKeys (t : Doc) (name : Option Line) (keys : IndexMap Line Entry) : IndexMap Line Entry :=
  keys.filterKeys fun key => !t.hasSection name || (t.get name key).isNone

/-- The values that are missing from a section are those of the entries that are written. -/
theorem missingKeys_eq (ht : Titled t.sections) (name : Option Line)
    (keys : IndexMap Line Entry) :
    t.settings.missingKeys name (keys.mapValues (·.value)) =
      if t.hasSection name && (absentKeys t name keys).entries.isEmpty then none
      else some ((absentKeys t name keys).mapValues (·.value)) := by
  have hkeys : ((keys.mapValues (·.value)).filterKeys fun key =>
      !t.settings.hasSection name || (t.settings.value name key).isNone) =
        (absentKeys t name keys).mapValues (·.value) := by
    refine IndexMap.eq_of_entries ?_
    simp only [absentKeys, IndexMap.filterKeys, IndexMap.mapValues, List.filter_map,
      hasSection_settings ht, value_settings, Option.isNone_map]
    rfl
  rw [Settings.missingKeys, hkeys, hasSection_settings ht, IndexMap.mapValues, List.isEmpty_map]

/-- What is missing from some of the sections. -/
def missingOf (t : Doc) (secs : List (Option Line × IndexMap Line Entry)) :
    List (Option Line × IndexMap Line (Option Line)) :=
  secs.filterMap fun sec =>
    (t.settings.missingKeys sec.1 (sec.2.mapValues (·.value))).map (sec.1, ·)

theorem missingOf_cons (ht : Titled t.sections) (name : Option Line) (keys : IndexMap Line Entry)
    (secs : List (Option Line × IndexMap Line Entry)) : missingOf t ((name, keys) :: secs) =
      if t.hasSection name && (absentKeys t name keys).entries.isEmpty then missingOf t secs
      else (name, (absentKeys t name keys).mapValues (·.value)) :: missingOf t secs := by
  rw [missingOf, List.filterMap_cons, missingKeys_eq ht name keys]
  cases t.hasSection name && (absentKeys t name keys).entries.isEmpty <;> rfl

theorem entries_filterMapWithKey (t s : Doc) :
    (s.settings.filterMapWithKey t.settings.missingKeys).entries =
      missingOf t s.effective.entries := by
  show List.filterMap _ (s.effective.entries.map _) = _
  rw [List.filterMap_map]
  rfl

theorem exists_foldl_missingSection (t s : Doc) (secs : List (Option Line × IndexMap Line Entry))
    (out : List Line) : ∃ more, secs.foldl (missingSection t s) out = out ++ more := by
  induction secs generalizing out with
  | nil => exact ⟨[], (List.append_nil out).symm⟩
  | cons sec secs ih =>
    obtain ⟨more, hmore⟩ := ih (missingSection t s out sec)
    rw [List.foldl_cons, hmore, missingSection]
    split
    · exact ⟨more, rfl⟩
    · exact ⟨_, by rw [List.append_assoc, List.append_assoc]⟩

theorem opened_fileItems {sec : Option Line × IndexMap Line (Option Line)}
    (hkeys : sec.1 = none → sec.2.entries ≠ []) (its : List Item) :
    opened (its ++ fileItems sec) =
      sec.2.entries.getLast?.bind fun setting => setting.2.map fun _ => 0 := by
  obtain ⟨_ | name, keys⟩ := sec
  · obtain ⟨init, setting, hlast⟩ := keys.entries.eq_nil_or_concat'.resolve_left (hkeys rfl)
    rw [fileItems]
    show opened (its ++ keys.entries.map _) = _
    rw [hlast, List.map_append, List.map_singleton, ← List.append_assoc, opened_concat,
      List.getLast?_concat]
    rfl
  · exact opened_sectionItems (some name, keys) its

theorem name_of_mem_fileItems {sec : Option Line × IndexMap Line (Option Line)} {it : Item}
    (hit : it ∈ fileItems sec) : it.name = sec.1 := by
  rw [fileItems, List.mem_append] at hit
  rcases hit with hit | hit
  · obtain ⟨_, _, rfl⟩ := List.mem_map.1 hit
    rfl
  · obtain ⟨_, _, rfl⟩ := List.mem_map.1 hit
    rfl

/-- What `missing` writes of a section that it does not leave out. -/
def sectionText (s : Doc) (out : List Line) (name : Option Line) (keys : IndexMap Line Entry) :
    List Line :=
  (match name with
    | some name => (if out.isEmpty then [] else [[]]) ++ [s.headerLine name]
    | none => []) ++ keys.entries.flatMap fun setting => s.entryLines setting.2 []

theorem missingSection_eq {sec : Option Line × IndexMap Line Entry}
    (hsec : sec ∈ s.effective.entries) (t : Doc) (out : List Line) :
    missingSection t s out sec =
      if t.hasSection sec.1 && (absentKeys t sec.1 sec.2).entries.isEmpty then out
      else out ++ sectionText s out sec.1 (absentKeys t sec.1 sec.2) := by
  have habsent : ((sec.2.entries.map Prod.snd).filter fun e =>
      !t.hasSection sec.1 || (t.get sec.1 e.key).isNone) =
        (absentKeys t sec.1 sec.2).entries.map Prod.snd := by
    rw [absentKeys, IndexMap.filterKeys, List.filter_map]
    congr 1
    refine List.filter_congr fun setting hsetting => ?_
    rw [Function.comp_apply, key_of_get (get_of_mem_effective hsec hsetting)]
  rw [missingSection, habsent, List.isEmpty_map, List.flatMap_map, sectionText.eq_def]
  refine ite_congr rfl (fun _ => rfl) fun _ => ?_
  exact List.append_assoc _ _ _

/-- Something is written exactly where something is missing. -/
theorem foldl_missingSection_eq_nil_iff (ht : Titled t.sections)
    (hs : Placed s.lines.length s.sections) {secs : List (Option Line × IndexMap Line Entry)}
    (hsecs : ∀ sec ∈ secs, sec ∈ s.effective.entries) :
    secs.foldl (missingSection t s) [] = [] ↔ missingOf t secs = [] := by
  induction secs with
  | nil => exact iff_of_true rfl rfl
  | cons sec secs ih =>
    obtain ⟨name, keys⟩ := sec
    rw [List.forall_mem_cons] at hsecs
    rw [List.foldl_cons, missingSection_eq hsecs.1, missingOf_cons ht]
    split
    · exact ih hsecs.2
    · case isFalse hskip =>
      obtain ⟨more, hmore⟩ := exists_foldl_missingSection t s secs
        ([] ++ sectionText s [] name (absentKeys t name keys))
      rw [hmore]
      refine iff_of_false (fun hnil => ?_) (List.cons_ne_nil _ _)
      have htext := (List.append_eq_nil_iff.1 (List.append_eq_nil_iff.1 hnil).1).2
      cases name with
      | some name => cases htext
      | none =>
        -- the keys before the first header need none, so one of them is absent
        have hne : (absentKeys t none keys).entries ≠ [] := fun h => hskip (by rw [h]; rfl)
        obtain ⟨setting, hsetting⟩ := List.exists_mem_of_ne_nil _ hne
        refine entryLines_ne_nil hs (get_of_mem_effective hsecs.1
          (List.mem_of_mem_filter hsetting)) [] ?_
        exact List.flatMap_eq_nil_iff.1 htext setting hsetting

/-- A section is read as it is written. -/
theorem reads_sectionText (hs : Layout s lead parts) (hsd : Headed s.sections)
    {name : Option Line} (hname : s.hasSection name = true) {keys : IndexMap Line Entry}
    (hkeys : ∀ setting ∈ keys.entries, s.get name setting.1 = some setting.2)
    {out : List Line} {its : List Item} (hfirst : name = none → its = [])
    (hnames : ∀ it ∈ its, it.name ≠ name)
    (hfits : (opened its).all (s.headerIndent name ≤ ·) = true) (hreads : Reads out [] its) :
    Reads (out ++ sectionText s out name keys) []
        (its ++ fileItems (name, keys.mapValues (·.value))) ∧
      ∀ title, name = some title →
        Opens (out ++ sectionText s out name keys) title (s.headerLine title) := by
  cases name with
  | none =>
    obtain rfl := hfirst rfl
    refine ⟨hreads.append ?_, fun _ h => by cases h⟩
    have hentries : Reads _ [] _ := reads_entries hs .nil hkeys (fun _ => rfl)
      fun _ k hk => by cases hk
    rw [fileItems, IndexMap.mapValues, List.map_map]
    exact hentries
  | some title =>
    have hopened : ∀ k ∈ opened its, indentation (s.headerLine title) ≤ k := by
      intro k hk
      rw [hk] at hfits
      exact of_decide_eq_true hfits
    have hblank : IsNoise (if out.isEmpty then [] else [[]]) := by
      intro line hline
      split at hline
      · cases hline
      · obtain rfl := List.mem_singleton.1 hline
        rfl
    have hbefore := hreads.append (hblank.reads its)
    have hheader := (hs.heads_headerLine hsd.titled hname).reads hopened
    have hentries : Reads _ (its ++ [⟨some title, none⟩]) _ := reads_entries hs .nil hkeys
      (fun _ => lastName_concat _ _) fun _ k hk => by
        rw [opened_concat] at hk
        cases hk
    constructor
    · have hall := (hbefore.append hheader).append hentries
      rw [fileItems, IndexMap.mapValues, List.map_map, sectionText]
      simp only [List.append_assoc] at hall ⊢
      exact hall
    · intro title' htitle
      obtain rfl := Option.some.inj htitle
      exact ⟨_, keys.entries.flatMap fun setting => s.entryLines setting.2 [], its,
        by simp [sectionText], hbefore, hnames, hopened⟩

/-- **What is missing is read as it is written**, one section after another, where no header
goes on with the value above it. -/
theorem reads_missing (ht : Titled t.sections) (hs : Layout s lead parts) (hsd : Headed s.sections)
    (secs : List (Option Line × IndexMap Line Entry)) {out : List Line} {its : List Item}
    (hsecs : ∀ sec ∈ secs, sec ∈ s.effective.entries) (hnodup : (secs.map Prod.fst).Nodup)
    (htail : ∀ sec ∈ secs.tail, sec.1 ≠ none) (hhead : ∀ sec ∈ secs.head?, sec.1 = none → its = [])
    (hnames : ∀ it ∈ its, it.name ∉ secs.map Prod.fst)
    (hfits : headersFit s.headerIndent (opened its) (missingOf t secs) = true)
    (hreads : Reads out [] its) :
    Reads (secs.foldl (missingSection t s) out) [] (its ++ (missingOf t secs).flatMap fileItems) ∧
      ∀ name keys, (some name, keys) ∈ missingOf t secs →
        Opens (secs.foldl (missingSection t s) out) name (s.headerLine name) := by
  induction secs generalizing out its with
  | nil =>
    refine ⟨?_, nofun⟩
    rw [missingOf, List.filterMap_nil, List.flatMap_nil, List.append_nil]
    exact hreads
  | cons sec secs ih =>
    obtain ⟨name, keys⟩ := sec
    rw [List.forall_mem_cons] at hsecs
    rw [List.map_cons, List.nodup_cons] at hnodup
    rw [List.tail_cons] at htail
    have hhead' : ∀ its' : List Item, ∀ sec ∈ secs.head?, sec.1 = none → its' = [] :=
      fun _ sec hsec hname => absurd hname (htail sec (List.mem_of_mem_head? hsec))
    have htail' : ∀ sec ∈ secs.tail, sec.1 ≠ none :=
      fun sec hsec => htail sec (List.mem_of_mem_tail hsec)
    rw [missingOf_cons ht] at hfits ⊢
    rw [List.foldl_cons, missingSection_eq hsecs.1]
    split at hfits
    · case isTrue hskip =>
      rw [if_pos hskip, if_pos hskip]
      refine ih hsecs.2 hnodup.2 htail' (hhead' its) (fun it hit hmem => ?_) hfits hreads
      exact hnames it hit (List.mem_cons_of_mem _ hmem)
    · case isFalse hskip =>
      rw [if_neg hskip, if_neg hskip]
      have hne : name = none → ((absentKeys t name keys).mapValues (·.value)).entries ≠ [] := by
        rintro rfl hnil
        rw [IndexMap.mapValues, List.map_eq_nil_iff] at hnil
        rw [hnil] at hskip
        exact hskip rfl
      have hsection : s.hasSection name = true := hasSection_of_mem_effective hsd.titled hsecs.1
      rw [headersFit, Bool.and_eq_true] at hfits
      have hwritten : ∀ setting ∈ (absentKeys t name keys).entries,
          s.get name setting.1 = some setting.2 := fun setting hsetting =>
        get_of_mem_effective hsecs.1 (List.mem_of_mem_filter hsetting)
      obtain ⟨hhere, hopens⟩ := reads_sectionText hs hsd hsection hwritten
        (fun hname => hhead _ rfl hname)
        (fun it hit hname => hnames it hit (hname ▸ List.mem_cons_self)) hfits.1 hreads
      have hlast := @opened_fileItems (name, _) hne its
      have hrest := ih hsecs.2 hnodup.2 htail' (hhead' _) (fun it hit hmem => ?_)
        (hlast ▸ hfits.2) hhere
      · rw [List.flatMap_cons, ← List.append_assoc]
        refine ⟨hrest.1, fun title keys' hmem => ?_⟩
        rcases List.mem_cons.1 hmem with heq | hmem
        · obtain ⟨more, hmore⟩ := exists_foldl_missingSection t s secs
            (out ++ sectionText s out name (absentKeys t name keys))
          rw [hmore]
          exact (hopens title (congrArg Prod.fst heq).symm).append more
        · exact hrest.2 title keys' hmem
      · rcases List.mem_append.1 hit with hit | hit
        · exact hnames it hit (List.mem_cons_of_mem _ hmem)
        · rw [name_of_mem_fileItems hit] at hmem
          exact hnodup.1 hmem

/-- No line of what is missing holds a line feed. -/
theorem noBreak_missing (hs : NoBreak s.lines) (t : Doc)
    (secs : List (Option Line × IndexMap Line Entry)) {out : List Line} (hout : NoBreak out) :
    NoBreak (secs.foldl (missingSection t s) out) := by
  induction secs generalizing out with
  | nil => exact hout
  | cons sec secs ih =>
    refine ih ?_
    rw [missingSection]
    split
    · exact hout
    · refine NoBreak.append (NoBreak.append hout ?_) fun l hl => ?_
      · intro l hl
        split at hl
        · rcases List.mem_append.1 hl with hl | hl
          · split at hl
            · cases hl
            · obtain rfl := List.mem_singleton.1 hl
              exact List.not_mem_nil
          · obtain rfl := List.mem_singleton.1 hl
            exact notMem_headerLine hs _
        · cases hl
      · obtain ⟨e, -, hl⟩ := List.mem_flatMap.1 hl
        exact noBreak_entryLines hs List.not_mem_nil e l hl

/-- What is missing begins with a header, or with a key that has no byte order mark. -/
theorem head?_missing (ht : Titled t.sections) (hs : Layout s lead parts)
    (hsd : Headed s.sections) (secs : List (Option Line × IndexMap Line Entry))
    (hsecs : ∀ sec ∈ secs, sec ∈ s.effective.entries)
    (hmark : ∀ keys, (none, keys) ∈ missingOf t secs → ∀ setting ∈ keys.entries.head?,
      setting.1.head? ≠ some bom) :
    ∀ l ∈ (secs.foldl (missingSection t s) []).head?, l.head? ≠ some bom := by
  induction secs with
  | nil => exact nofun
  | cons sec secs ih =>
    obtain ⟨name, keys⟩ := sec
    rw [List.forall_mem_cons] at hsecs
    rw [missingOf_cons ht] at hmark
    rw [List.foldl_cons, missingSection_eq hsecs.1]
    split at hmark
    · case isTrue hskip =>
      rw [if_pos hskip]
      exact ih hsecs.2 hmark
    · case isFalse hskip =>
      rw [if_neg hskip]
      obtain ⟨more, hmore⟩ := exists_foldl_missingSection t s secs
        ([] ++ sectionText s [] name (absentKeys t name keys))
      rw [hmore, List.nil_append]
      intro l hl
      cases name with
      | some name =>
        have hsection : s.hasSection (some name) = true :=
          hasSection_of_mem_effective hsd.titled hsecs.1
        obtain rfl : s.headerLine name = l := Option.some.inj hl
        exact (hs.heads_headerLine hsd.titled hsection).head?_ne
      | none =>
        cases hentries : (absentKeys t none keys).entries with
        | nil =>
          rw [hentries] at hskip
          exact absurd rfl hskip
        | cons setting settings =>
          have hmem : setting ∈ keys.entries := by
            refine List.mem_of_mem_filter (p := fun setting : Line × Entry =>
              !t.hasSection none || (t.get none setting.1).isNone) ?_
            show setting ∈ (absentKeys t none keys).entries
            rw [hentries]
            exact List.mem_cons_self
          have hget := get_of_mem_effective hsecs.1 hmem
          have hfirst := hmark _ List.mem_cons_self (setting.1, setting.2.value) (by
            show (List.map _ (absentKeys t none keys).entries).head? = _
            rw [hentries]
            rfl)
          obtain ⟨q, hq, -, hentry, -⟩ := hs.mem_of_get hget
          refine head?_entryLines hs hget hfirst l ?_
          rw [sectionText, hentries, List.nil_append, List.flatMap_cons,
            hs.entryLines hq hentry] at hl
          rw [hs.entryLines hq hentry]
          exact hl

end Missing

/-! ### The text that is missing -/

/-- **Something is missing exactly where the values of the source are.** -/
theorem missing_eq_none_iff {target source : List Char} {t s : Doc}
    (ht : parse target "target" = .ok t) (hs : parse source "source" = .ok s) :
    missing target source = .ok none ↔ t.settings.missing s.settings = none := by
  have hnil := foldl_missingSection_eq_nil_iff (titled_parse ht) (placed_parse hs) fun _ h => h
  rw [missing, ht, hs, Settings.missing, entries_filterMapWithKey]
  show Except.ok _ = Except.ok _ ↔ _
  rw [Except.ok.injEq]
  by_cases hmissing : missingOf t s.effective.entries = []
  · rw [if_pos (List.isEmpty_iff.2 (hnil.2 hmissing)), if_pos (List.isEmpty_iff.2 hmissing)]
    exact iff_of_true rfl rfl
  · rw [if_neg (mt List.isEmpty_iff.1 (mt hnil.1 hmissing)),
      if_neg (mt List.isEmpty_iff.1 hmissing)]
    exact iff_of_false (Option.some_ne_none _) (Option.some_ne_none _)

theorem lines_intercalate_ended {out : List Line} (hne : out ≠ []) (hout : NoBreak out) :
    Lib.lines (['\n'].intercalate out ++ ['\n']) = out.map stripCr := by
  obtain ⟨ls, l, rfl⟩ := out.eq_nil_or_concat'.resolve_left hne
  have hjoin : ['\n'].intercalate (ls ++ [l]) ++ ['\n'] = endedLines false (ls ++ [l]) ++ [] := by
    have hconcat := intercalate_concat false ls l
    rw [show ['\n'] = ending false from rfl, hconcat, endedLines, endedLines, List.flatMap_append,
      List.flatMap_singleton, List.append_nil, List.append_assoc]
  rw [hjoin, lines_endedLines_false hout]
  exact List.append_nil _

theorem Opens.map_stripCr {ls : List Line} {name line : Line} (h : Opens ls name line)
    (hheads : Heads line name) : Opens (ls.map stripCr) name (stripCr line) := by
  obtain ⟨pre, post, its, rfl, hpre, hnames, hfits⟩ := h
  refine ⟨pre.map stripCr, post.map stripCr, its, by simp, hpre.map_stripCr, hnames, ?_⟩
  rw [indentation_stripCr hheads.significant]
  exact hfits

/-- **The text that is missing is parsed**, and has the values that are missing, under the
source's header lines. -/
theorem exists_parse_missing {target source : List Char} {t s : Doc}
    (ht : parse target "target" = .ok t) (hs : parse source "source" = .ok s) {absent : Settings}
    (habsent : t.settings.missing s.settings = some absent)
    (hfits : headersFit s.headerIndent none absent.entries = true)
    (hmark : ∀ keys, absent.get none = some keys → ∀ setting ∈ keys.entries.head?,
      setting.1.head? ≠ some bom) :
    ∃ m d, missing target source = .ok (some m) ∧ (∀ what, parse m what = .ok d) ∧
      d.settings = absent ∧ ∀ sec ∈ absent.entries, d.headerIndent sec.1 = s.headerIndent sec.1 := by
  obtain ⟨lead, parts, hlayout⟩ := exists_layout hs
  have hsd := headed_parse hs
  have htd := titled_parse ht
  have hnl := noBreak_parse hs
  obtain ⟨out, hout⟩ : ∃ out, out = s.effective.entries.foldl (missingSection t s) [] := ⟨_, rfl⟩
  have hof : absent.entries = missingOf t s.effective.entries := by
    rw [Settings.eq_of_missing habsent, entries_filterMapWithKey]
  have hmissing : missing target source =
      .ok (if out.isEmpty then none else some (['\n'].intercalate out ++ ['\n'])) := by
    rw [missing, ht, hs, hout]
    rfl
  have hne : out ≠ [] := by
    intro hnil
    rw [hnil] at hmissing
    have hnone := (missing_eq_none_iff ht hs).1 hmissing
    cases hnone.symm.trans habsent
  rw [if_neg (mt List.isEmpty_iff.1 hne)] at hmissing
  rw [hof] at hfits
  obtain ⟨hreads, hopens⟩ := reads_missing htd hlayout hsd s.effective.entries
    (fun _ hsec => hsec) s.effective.nodup (notMem_tail_effective hsd) (fun _ _ _ => rfl)
    (fun _ h => by cases h) hfits (.nil [])
  have hbreak := noBreak_missing hnl t s.effective.entries .nil
  rw [List.nil_append, ← hout] at hreads
  rw [← hout] at hbreak hopens
  have hlines := lines_intercalate_ended hne hbreak
  have hstrip : stripBom (['\n'].intercalate out ++ ['\n']) = ['\n'].intercalate out ++ ['\n'] := by
    refine stripBom_of_head? ?_
    refine @head?_intercalate false _ ?_ true
    rw [hout]
    refine head?_missing htd hlayout hsd _ (fun _ hsec => hsec) fun keys hkeys => ?_
    rw [← hof, IndexMap.mem_entries] at hkeys
    exact hmark keys hkeys
  obtain ⟨blanks, hread⟩ := hreads.map_stripCr 0
  rw [← hlines, ← hstrip] at hread
  obtain ⟨d, hparse, hdlines, hitems⟩ := exists_parse_of_readLines hread ""
  have hany : ∀ what, parse (['\n'].intercalate out ++ ['\n']) what = .ok d := by
    intro what
    obtain ⟨st, hsteps, hd⟩ := parse_eq_ok_iff.1 hparse
    exact parse_eq_ok_iff.2 ⟨st, hsteps, hd⟩
  refine ⟨_, d, hmissing, hany, ?_, ?_⟩
  · rw [settings_items, hitems, ← hof]
    refine foldl_flatMap_fileItems fun keys hkeys hnil => ?_
    rw [Settings.eq_of_missing habsent, IndexMap.get_filterMapWithKey] at hkeys
    obtain ⟨all, -, hkeys⟩ := Option.bind_eq_some_iff.1 hkeys
    rw [Settings.missingKeys] at hkeys
    split at hkeys
    · cases hkeys
    · case isFalse hskip =>
      obtain rfl := Option.some.inj hkeys
      exact hskip (by rw [hnil]; rfl)
  · rintro ⟨_ | name, keys⟩ hsec
    · rfl
    · have hsource : s.hasSection (some name) = true := by
        rw [hof] at hsec
        obtain ⟨sec, hmem, hmissing⟩ := List.mem_filterMap.1 hsec
        obtain ⟨_, -, hkeys⟩ := Option.map_eq_some_iff.1 hmissing
        have hname : sec.1 = some name := congrArg Prod.fst hkeys
        rw [← hname]
        exact hasSection_of_mem_effective hsd.titled hmem
      have hheads := hlayout.heads_headerLine hsd.titled hsource
      have hopens := (hopens name keys (hof ▸ hsec)).map_stripCr hheads
      rw [← hlines, ← hstrip, ← hdlines] at hopens
      show indentation (d.headerLine name) = indentation (s.headerLine name)
      rw [headerLine_of_opens hparse hopens hheads.stripCr, indentation_stripCr hheads.significant]

end Mise.Ini
