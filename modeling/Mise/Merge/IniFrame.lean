/-
# What an INI merge leaves alone

A merge takes lines away only where it replaces an entry, and it replaces the
entry that a key's value is read from, when the source sets that key to another
value.  Every other line of the target is a line of the merged file, and they
stand in their order (`merge_keeps_lines`).

Lines are compared without their endings: a merged file has one ending
throughout, so a line of a file with both is rewritten with the other
(`merge_rewrites_ending`).
-/

import Mise.Merge.IniParse

namespace Mise.Ini

open Lib

/-! ### The lines that are left alone -/

/-- The target's entries that a merge replaces: those that hold the value of a
key which the source sets to another. -/
def overwritten (t s : Doc) : List Entry :=
  s.effective.entries.flatMap fun sec =>
    sec.2.entries.filterMap fun setting =>
      (t.get sec.1 setting.1).filter (·.value ≠ setting.2.value)

/-- Whether line `i` belongs to an entry that is replaced. -/
def isTouched (t s : Doc) (i : ℕ) : Bool :=
  (overwritten t s).any fun e => e.start ≤ i && i < e.stop

/-- Those of the target's lines, in some form, that belong to no entry that is
replaced. -/
def untouched {α : Type} (t s : Doc) (ls : List α) : List α :=
  ((ls.zipIdx).filter fun p => !isTouched t s p.2).map Prod.fst

/-! ### Where entries stand -/

/-- Every entry has a line, and its lines are among the first `n`. -/
def Placed (n : ℕ) (sections : List Section) : Prop :=
  ∀ sec ∈ sections, ∀ e ∈ sec.entries, e.start < e.stop ∧ e.stop ≤ n

theorem Placed.succ {n : ℕ} {sections : List Section} (h : Placed n sections) :
    Placed (n + 1) sections := fun sec hsec e he =>
  ⟨(h sec hsec e he).1, Nat.le_succ_of_le (h sec hsec e he).2⟩

theorem start_keyLine (line : Line) (i : ℕ) :
    (keyLine line i).start = i ∧ (keyLine line i).stop = i + 1 := by
  rw [keyLine]
  split
  · exact ⟨rfl, rfl⟩
  · exact ⟨rfl, rfl⟩

/-- One line keeps the entries placed. -/
theorem Placed.step {st st' : ParseState} {i : ℕ} {line : Line}
    (hst : Placed i (st.sections ++ [st.current])) (h : LineStep st i line st') :
    Placed (i + 1) (st'.sections ++ [st'.current]) := by
  have hcurrent : ∀ e ∈ st.current.entries, e.start < e.stop ∧ e.stop ≤ i :=
    hst st.current (by simp)
  have hwith : ∀ entries : List Entry, (∀ e ∈ entries, e.start < e.stop ∧ e.stop ≤ i + 1) →
      Placed (i + 1) (st.sections ++ [{ st.current with entries := entries }]) := by
    intro entries hentries sec hsec
    rcases List.mem_append.1 hsec with hsec | hsec
    · exact hst.succ sec (List.mem_append_left _ hsec)
    · rw [List.mem_singleton.1 hsec]
      exact hentries
  cases h with
  | blank hline => exact hst.succ
  | comment hblank hline => exact hst.succ
  | continues hline hcontinues =>
    refine hwith _ ?_
    rcases st.current.entries.eq_nil_or_concat' with hnil | ⟨init, last, hlast⟩
    · rw [hnil]
      exact fun e he => (nomatch he)
    · rw [hlast, List.modifyLast_concat]
      rw [hlast] at hcurrent
      intro e he
      rcases List.mem_append.1 he with he | he
      · have := hcurrent e (List.mem_append_left _ he)
        exact ⟨this.1, by omega⟩
      · rw [List.mem_singleton.1 he]
        have := hcurrent last (by simp)
        show last.start < i + 1 ∧ i + 1 ≤ i + 1
        omega
  | header hline hcontinues hbracket hname hne =>
    intro sec hsec
    rcases List.mem_append.1 hsec with hsec | hsec
    · exact hst.succ sec hsec
    · rw [List.mem_singleton.1 hsec]
      exact fun e he => (nomatch he)
  | key hline hcontinues hbracket hne =>
    refine hwith _ fun e he => ?_
    rcases List.mem_append.1 he with he | he
    · have := hcurrent e he
      exact ⟨this.1, by omega⟩
    · rw [List.mem_singleton.1 he, (start_keyLine line i).1, (start_keyLine line i).2]
      omega

theorem Placed.steps {st st' : ParseState} {i : ℕ} {ls : List Line}
    (hst : Placed i (st.sections ++ [st.current])) (h : LineSteps st i ls st') :
    Placed (i + ls.length) (st'.sections ++ [st'.current]) := by
  induction h with
  | nil => exact hst
  | cons first steps ih =>
    rw [List.length_cons, Nat.add_comm (List.length _) 1, ← Nat.add_assoc]
    exact ih (hst.step first)

/-- The entries of a document are placed among its lines. -/
theorem placed_parse {text : List Char} {what : String} {d : Doc} (h : parse text what = .ok d) :
    Placed d.lines.length d.sections := by
  obtain ⟨st, hsteps, rfl⟩ := parse_eq_ok_iff.1 h
  have hstart : Placed 0 (ParseState.start.sections ++ [ParseState.start.current]) := by
    simp [Placed, ParseState.start]
  have hplaced := hstart.steps hsteps
  rwa [Nat.zero_add] at hplaced

/-- An entry that is found is one of the document's. -/
theorem mem_of_get {d : Doc} {name : Option Line} {key : Line} {e : Entry}
    (h : d.get name key = some e) : ∃ sec ∈ d.sections, sec.name = name ∧ e ∈ sec.entries ∧
      e.key = key := by
  rw [Doc.get] at h
  obtain ⟨sec, hsec, he⟩ := List.mem_flatMap.1 (List.mem_of_find?_eq_some h)
  obtain ⟨hsec, hname⟩ := List.mem_filter.1 hsec
  have hkey := List.find?_some h
  exact ⟨sec, List.mem_reverse.1 hsec, of_decide_eq_true hname, List.mem_reverse.1 he,
    of_decide_eq_true hkey⟩

theorem start_lt_of_mem_overwritten {t s : Doc} (ht : Placed t.lines.length t.sections) {e : Entry}
    (he : e ∈ overwritten t s) : e.start < e.stop := by
  obtain ⟨sec, -, he⟩ := List.mem_flatMap.1 he
  obtain ⟨setting, -, he⟩ := List.mem_filterMap.1 he
  obtain ⟨hget, -⟩ := Option.filter_eq_some_iff.1 he
  obtain ⟨sec', hsec', -, hmem, -⟩ := mem_of_get hget
  exact (ht sec' hsec' e hmem).1

/-! ### Edits -/

/-- What is written in place of other lines replaces an entry. -/
def ReplacesEntries (t s : Doc) (e : Edits) : Prop :=
  ∀ i r, e.replace i = some r → ∃ existing ∈ overwritten t s,
    existing.start = i ∧ existing.stop = r.1

variable {t s : Doc} {e : Edits}

theorem replace_mergeSection (t s : Doc) (e : Edits) (name : Option Line)
    (keys : IndexMap Line Entry) : (mergeSection t s e name keys).replace =
      (keys.entries.foldl (mergeKey t s name (t.insertPoint name)) e).replace := by
  rw [mergeSection]
  split
  · rfl
  · rfl

theorem replace_edits (t s : Doc) : (edits t s).replace = (presentEdits t s).replace := by
  rw [edits]
  refine List.foldlRecOn (motive := fun e : Edits => e.replace = (presentEdits t s).replace) _ _ rfl
    fun e he sec _ => ?_
  obtain ⟨name, keys⟩ := sec
  cases name with
  | none => exact he
  | some name => exact he

/-- What is written over lines of the target is what a setting of the source with
another value asks for. -/
theorem of_replace {P : ℕ → ℕ × List Line → Prop}
    (hP : ∀ sec ∈ s.effective.entries, ∀ setting ∈ sec.2.entries, ∀ existing,
      t.get sec.1 setting.1 = some existing → existing.value ≠ setting.2.value →
        P existing.start (existing.stop, replacement t existing s setting.2)) :
    ∀ i r, (presentEdits t s).replace i = some r → P i r := by
  refine List.foldlRecOn (motive := fun e : Edits => ∀ i r, e.replace i = some r → P i r) _ _
    (fun i r hr => by cases hr) fun e he sec hsec => ?_
  rw [replace_mergeSection]
  refine List.foldlRecOn (motive := fun e : Edits => ∀ i r, e.replace i = some r → P i r) _ _ he
    fun e he setting hsetting => ?_
  rw [mergeKey]
  split
  · case h_1 existing hget =>
    split
    · exact he
    · case isFalse hvalue =>
      intro i r hr
      dsimp only at hr
      rw [Function.update_apply] at hr
      split at hr
      · case isTrue hi =>
        obtain rfl := hi
        obtain rfl := Option.some.inj hr
        exact hP sec (List.mem_of_mem_filter hsec) setting hsetting existing hget hvalue
      · exact he i r hr
  · exact he

theorem replacesEntries_edits (t s : Doc) : ReplacesEntries t s (edits t s) := by
  rw [ReplacesEntries, replace_edits]
  refine of_replace fun sec hsec setting hsetting existing hget hvalue =>
    ⟨existing, List.mem_flatMap.2 ⟨sec, hsec, List.mem_filterMap.2 ⟨setting, hsetting, ?_⟩⟩, rfl,
      rfl⟩
  rw [hget, Option.filter_some, if_pos (decide_eq_true hvalue)]

/-- What the loop over the lines keeps: `skip` lines of a replaced entry are
still to come. -/
theorem sublist_apply (ht : Placed t.lines.length t.sections) (he : ReplacesEntries t s e)
    (ls : List Line) (i skip : ℕ) (hskip : ∀ j, i ≤ j → j < i + skip → isTouched t s j = true) :
    (((ls.zipIdx i).filter fun p => !isTouched t s p.2).map Prod.fst).Sublist
      (e.apply i skip ls) := by
  induction ls generalizing i skip with
  | nil => exact List.nil_sublist _
  | cons line ls ih =>
    rw [List.zipIdx_cons, List.filter_cons]
    cases skip with
    | succ skip =>
      have htouched := hskip i le_rfl (by omega)
      rw [htouched, if_neg (by simp), Edits.apply]
      exact ih (i + 1) skip fun j hij hj => hskip j (by omega) (by omega)
    | zero =>
      rw [Edits.apply]
      refine List.Sublist.trans ?_ (List.sublist_append_right _ _)
      cases hreplace : e.replace i with
      | none =>
        have hrest := ih (i + 1) 0 fun j _ hj => by omega
        split
        · rw [List.map_cons]
          exact hrest.cons_cons line
        · exact hrest.cons line
      | some r =>
        obtain ⟨existing, hmem, hstart, hstop⟩ := he i r hreplace
        have hlt := start_lt_of_mem_overwritten ht hmem
        have htouched : ∀ j, i ≤ j → j < r.1 → isTouched t s j = true := by
          intro j hij hj
          refine List.any_eq_true.2 ⟨existing, hmem, ?_⟩
          rw [Bool.and_eq_true, decide_eq_true_eq, decide_eq_true_eq]
          omega
        rw [htouched i le_rfl (by omega), if_neg (by simp)]
        refine List.Sublist.trans ?_ (List.sublist_append_right _ _)
        exact ih (i + 1) _ fun j hij hj => htouched j (by omega) (by omega)

/-! ### The frame -/

/-- **A merge leaves every other line alone.**  The merged file is made of
lines, among which the target's stand in their order, all but those of the
entries that are replaced.  They are joined by one ending: a carriage return
and a line feed if the target has such an ending, else a line feed; and the last
line is ended if the target's is, or if the target is empty. -/
theorem merge_keeps_lines {target source : List Char} {t s : Doc}
    (ht : parse target "target" = .ok t) (hs : parse source "source" = .ok s) :
    ∃ out : List Line, (untouched t s t.lines).Sublist out ∧
      merge target source = .ok ((if target.head? = some bom then [bom] else []) ++
        (ending (hasCrlf target)).intercalate out ++
        if target.isEmpty || target.getLast? = some '\n' then ending (hasCrlf target) else []) := by
  refine ⟨(edits t s).apply 0 0 t.lines, ?_, ?_⟩
  · refine sublist_apply (placed_parse ht) (replacesEntries_edits t s) t.lines 0 0 ?_
    exact fun j _ hj => by omega
  · rw [merge, ht, hs]
    rfl

/-- The frame at a file with both endings, where a key is added. -/
theorem merge_keeps_lines_mixed : ∃ out : List Line,
    [['a', '=', '1'], ['b', '=', '2']].Sublist out ∧
      merge "a=1\r\nb=2\n".toList "c=3\n".toList =
        .ok (['\r', '\n'].intercalate out ++ ['\r', '\n']) := by
  obtain ⟨out, hout, hmerge⟩ :=
    @merge_keeps_lines "a=1\r\nb=2\n".toList "c=3\n".toList _ _ rfl rfl
  exact ⟨out, hout, hmerge⟩

/-- A line of a file with both endings does not keep its own. -/
theorem merge_rewrites_ending : ∃ t s r,
    parse "a=1\r\nb=2\n".toList "target" = .ok t ∧ parse "c=3\n".toList "source" = .ok s ∧
    merge "a=1\r\nb=2\n".toList "c=3\n".toList = .ok r ∧
    ¬(untouched t s (rawLines (stripBom "a=1\r\nb=2\n".toList))).Sublist
      (rawLines (stripBom r)) :=
  ⟨_, _, _, rfl, rfl, rfl, by decide⟩

end Mise.Ini
