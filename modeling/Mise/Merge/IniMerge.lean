/-
# What a merged INI file reads as

A key that is written with a value goes on with every deeper line behind it.  So a merge
is read back as it was written where no such line follows: where no header or key of the
target comes to stand behind a key that got a value and is deeper than it
(`Undisturbed`).  The merged file is then the target's headers and keys, with the values of
the source, and the keys and sections that were added (`reads_edits`).
-/

import Mise.Merge.IniEdits

namespace Mise.Ini

open Lib String

/-! ### Merges that disturb nothing -/

/-- The next line that says something, from line `j` on, is indented by `k` at most. -/
def Doc.NotDeeper (d : Doc) (j k : ℕ) : Prop :=
  ∀ line ∈ (d.lines.drop j).find? isSignificant, indentation line ≤ k

instance (d : Doc) (j k : ℕ) : Decidable (d.NotDeeper j k) :=
  inferInstanceAs (Decidable (∀ line ∈ _, _))

/-- The keys that the target lacks in a section, with their values. -/
def addedKeys (t : Doc) (s : Settings) (name : Option Line) : List (Line × Option Line) :=
  ((s.get name).elim [] (·.entries)).filter fun setting => (t.get name setting.1).isNone

/-- The value that an entry has in the merged file. -/
def mergedValue (t : Doc) (s : Settings) (name : Option Line) (e : Entry) : Option Line :=
  if t.get name e.key = some e then (s.value name e.key).getD e.value else e.value

/-- The indent beyond which a line goes on with the last value of the target, once the keys of
its sections are merged. -/
def endOpened (t : Doc) (s : Settings) : Option ℕ :=
  let name := t.marks.getLast?.bind (·.name)
  match (addedKeys t s name).getLast? with
  | some setting => setting.2.map fun _ => utf8Len (t.insertPoint name).2
  | none => (t.marks.getLast?.bind (·.entry)).bind fun e =>
      (mergedValue t s name e).map fun _ => e.indent

/-- The headers of sections that are written one after another go on with no value: neither
with the one above them nor with that of the section before. -/
def headersFit (indents : Option Line → ℕ) :
    Option ℕ → List (Option Line × IndexMap Line (Option Line)) → Bool
  | _, [] => true
  | above, (name, keys) :: secs => above.all (indents name ≤ ·) &&
      headersFit indents (keys.entries.getLast?.bind fun setting => setting.2.map fun _ => 0) secs

/-- The indentation of a section's header line. -/
def Doc.headerIndent (d : Doc) (name : Option Line) : ℕ :=
  name.elim 0 fun name => indentation (d.headerLine name)

/-- A merge of the values `s`, under header lines of the given indents, makes no line go on
with a value that it writes. -/
structure Undisturbed (t : Doc) (s : Settings) (indents : Option Line → ℕ) : Prop where
  /-- A key without a value gets one, and no key is added behind it. -/
  replaced : ∀ sec ∈ s.entries, ∀ setting ∈ sec.2.entries, ∀ e ∈ t.get sec.1 setting.1,
    e.value = none → setting.2.isSome →
      ((t.insertPoint sec.1).1 = e.stop → addedKeys t s sec.1 = []) → t.NotDeeper e.stop e.indent
  /-- A key with a value is the last one that is added to a section. -/
  added : ∀ sec ∈ s.entries, t.hasSection sec.1 = true →
    ∀ setting ∈ (addedKeys t s sec.1).getLast?, setting.2.isSome →
      t.NotDeeper (t.insertPoint sec.1).1 (utf8Len (t.insertPoint sec.1).2)
  /-- Sections are added at the end. -/
  headers : headersFit indents (endOpened t s)
    (s.entries.filter fun sec => !t.hasSection sec.1) = true

instance (t : Doc) (s : Settings) (indents : Option Line → ℕ) :
    Decidable (Undisturbed t s indents) :=
  decidable_of_iff ((∀ sec ∈ s.entries, ∀ setting ∈ sec.2.entries, ∀ e ∈ t.get sec.1 setting.1,
      e.value = none → setting.2.isSome →
        ((t.insertPoint sec.1).1 = e.stop → addedKeys t s sec.1 = []) →
          t.NotDeeper e.stop e.indent) ∧
      (∀ sec ∈ s.entries, t.hasSection sec.1 = true →
        ∀ setting ∈ (addedKeys t s sec.1).getLast?, setting.2.isSome →
          t.NotDeeper (t.insertPoint sec.1).1 (utf8Len (t.insertPoint sec.1).2)) ∧
      headersFit indents (endOpened t s)
        (s.entries.filter fun sec => !t.hasSection sec.1) = true)
    ⟨fun ⟨replaced, added, headers⟩ => ⟨replaced, added, headers⟩,
      fun h => ⟨h.replaced, h.added, h.headers⟩⟩

/-! ### The items of a merged file -/

/-- The header or the key of a part, with the value that it has in the merged file. -/
def mergedItem (t : Doc) (s : Settings) (p : Part) : Item :=
  ⟨p.mark.name, p.mark.entry.map fun e => ⟨e.key, mergedValue t s p.mark.name e, e.indent⟩⟩

/-- The keys that are added to a section. -/
def addedItems (t : Doc) (s : Settings) (name : Option Line) : List Item :=
  (addedKeys t s name).map fun setting =>
    ⟨name, some ⟨setting.1, setting.2, utf8Len (t.insertPoint name).2⟩⟩

/-- The items of a part, with the keys that are added behind it. -/
def partItems (t : Doc) (s : Settings) (p : Part) : List Item :=
  mergedItem t s p :: if (t.insertPoint p.mark.name).1 = p.stop then addedItems t s p.mark.name
    else []

/-- The keys that are added in front of all parts. -/
def topItems (t : Doc) (s : Settings) (parts : List Part) : List Item :=
  if parts.any (·.mark.name = none) then [] else addedItems t s none

/-- The items of a section that is added. -/
def sectionItems (sec : Option Line × IndexMap Line (Option Line)) : List Item :=
  ⟨sec.1, none⟩ :: sec.2.entries.map fun setting => ⟨sec.1, some ⟨setting.1, setting.2, 0⟩⟩

/-- The items of the merged file. -/
def mergedItems (t : Doc) (s : Settings) (parts : List Part) : List Item :=
  topItems t s parts ++ parts.flatMap (partItems t s) ++
    (s.entries.filter fun sec => !t.hasSection sec.1).flatMap sectionItems

/-! ### Added keys -/

section Added

variable {t s : Doc} {lead lead' : List Line} {parts parts' : List Part}

/-- Entries that are written at one indent are read one after another. -/
theorem reads_entries (hs : Layout s lead' parts') {name : Option Line} {indent : Line}
    (hindent : IsWhite indent) {settings : List (Line × Entry)}
    (hmem : ∀ setting ∈ settings, s.get name setting.1 = some setting.2) {inside : Option Line}
    {its : List Item} (hname : settings ≠ [] → lastName its = inside)
    (hfits : settings ≠ [] → ∀ k ∈ opened its, utf8Len indent ≤ k) :
    Reads (settings.flatMap fun setting => s.entryLines setting.2 indent) its
      (its ++ settings.map fun setting =>
        ⟨inside, some ⟨setting.1, setting.2.value, utf8Len indent⟩⟩) := by
  induction settings generalizing its with
  | nil =>
    rw [List.map_nil, List.append_nil]
    exact .nil its
  | cons setting settings ih =>
    obtain ⟨key, e⟩ := setting
    rw [List.forall_mem_cons] at hmem
    obtain ⟨q, hq, -, hentry, hkey⟩ := hs.mem_of_get hmem.1
    have hkey : e.key = key := hkey
    subst hkey
    obtain ⟨hsets, -⟩ := (hs.sound hq).key e hentry
    have hfirst := (hsets.entryLine hindent).reads (hfits (List.cons_ne_nil _ _))
    rw [hname (List.cons_ne_nil _ _)] at hfirst
    rw [List.flatMap_cons, hs.entryLines hq hentry]
    refine hfirst.append ?_
    have hrest : Reads _ (its ++ [⟨inside, some ⟨e.key, e.value, utf8Len indent⟩⟩]) _ := ih hmem.2
      (fun _ => lastName_concat _ _) fun _ k hk => by
        rw [opened_concat, Option.bind_some, Setting.opened, Option.mem_map] at hk
        obtain ⟨_, _, rfl⟩ := hk
        exact le_rfl
    rwa [List.append_assoc] at hrest

theorem settings_get (d : Doc) (name : Option Line) :
    d.settings.get name = (d.effective.get name).map fun keys => keys.mapValues (·.value) :=
  IndexMap.get_mapValues _ _ name

/-- The keys that are added are those of the entries that are written. -/
theorem addedKeys_eq {name : Option Line} {keys : IndexMap Line Entry}
    (hkeys : s.effective.get name = some keys) (t : Doc) :
    addedKeys t s.settings name =
      (keys.entries.filter fun setting => (t.get name setting.1).isNone).map fun setting =>
        (setting.1, setting.2.value) := by
  rw [addedKeys, settings_get, hkeys]
  show List.filter _ (keys.entries.map _) = _
  rw [List.filter_map]
  rfl

theorem isNoise_blank (b : Bool) : IsNoise (if b then [[]] else []) := by
  intro line hline
  split at hline
  · obtain rfl := List.mem_singleton.1 hline
    rfl
  · exact nomatch hline

/-- The keys that are added to a section are read in it. -/
theorem reads_addition (hs : Layout s lead' parts') {name : Option Line}
    (hindent : IsWhite (t.insertPoint name).2) {its : List Item}
    (hname : addedKeys t s.settings name ≠ [] → lastName its = name)
    (hfits : addedKeys t s.settings name ≠ [] →
      ∀ k ∈ opened its, utf8Len (t.insertPoint name).2 ≤ k) :
    Reads ((s.effective.get name).elim [] (addition t s name)) its
      (its ++ addedItems t s.settings name) := by
  cases hkeys : s.effective.get name with
  | none =>
    have hnil : addedItems t s.settings name = [] := by
      rw [addedItems, addedKeys, settings_get, hkeys]
      rfl
    rw [hnil, List.append_nil]
    exact .nil its
  | some keys =>
    have hadded := addedKeys_eq hkeys t
    rw [hadded, Ne, List.map_eq_nil_iff] at hname hfits
    have hentries : Reads _ its _ := reads_entries hs hindent
      (fun setting hsetting => get_of_mem_effective
        (show (name, keys) ∈ s.effective.entries from s.effective.mem_entries.2 hkeys) (List.mem_of_mem_filter hsetting)) hname hfits
    rw [Option.elim_some, addition, addedItems, hadded, List.map_map]
    exact hentries.append ((isNoise_blank _).reads _)

end Added

/-! ### The target's parts -/

section Parts

variable {t s : Doc} {lead lead' : List Line} {parts parts' pre post : List Part} {p q : Part}

theorem Layout.line_mem (h : Layout t lead parts) (hp : p ∈ parts) : p.line ∈ t.lines := by
  rw [h.lines]
  refine List.mem_append_right _ (List.mem_flatMap.2 ⟨p, hp, ?_⟩)
  simp [Part.lines]

theorem Part.Sound.significant (h : p.Sound) : isSignificant p.line = true := by
  cases hentry : p.mark.entry with
  | none =>
    obtain ⟨-, name, -, hheads⟩ := h.header hentry
    exact hheads.significant
  | some e => exact (h.key e hentry).1.significant

/-- What replaces a part's key. -/
theorem exists_of_replace_start (h : Layout t lead parts) (hp : p ∈ parts) {r : ℕ × List Line}
    (hr : (presentEdits t s).replace p.mark.start = some r) :
    ∃ existing entry, p.mark.entry = some existing ∧
      t.get p.mark.name existing.key = some existing ∧
      s.get p.mark.name existing.key = some entry ∧
      r = (p.stop, replacement t existing s entry) := by
  obtain ⟨q, hq, hstart, hreplaces⟩ := exists_part_of_replace h hr
  have hqp : q = p := by
    have := q.start_lt_stop
    have := q.stop_le_next
    have := p.start_lt_stop
    have := p.stop_le_next
    rcases h.trichotomy hp hq with rfl | hlt | hlt
    · rfl
    · omega
    · omega
  exact hqp ▸ hreplaces

theorem value_of_get {d : Doc} {name : Option Line} {key : Line} {e : Entry}
    (h : d.get name key = some e) : d.settings.value name key = some e.value := by
  rw [value_settings, h]
  rfl

theorem mergedValue_of_get {existing entry : Entry} {name : Option Line}
    (ht : t.get name existing.key = some existing) (hs : s.get name existing.key = some entry) :
    mergedValue t s.settings name existing = entry.value := by
  rw [mergedValue, if_pos ht, value_of_get hs]
  rfl

/-- An entry that is not replaced keeps its value. -/
theorem mergedValue_of_replace_eq_none (h : Layout t lead parts) (hp : p ∈ parts) {e : Entry}
    (he : p.mark.entry = some e) (hr : (presentEdits t s).replace p.mark.start = none) :
    mergedValue t s.settings p.mark.name e = e.value := by
  rw [mergedValue]
  split
  · case isTrue hget =>
    rw [value_settings]
    cases hs : s.get p.mark.name e.key with
    | none => rfl
    | some entry =>
      by_contra hne
      have hreplace := replace_ne_none hget hs (Ne.symm hne)
      rw [((h.sound hp).key e he).2.1] at hreplace
      exact hreplace hr
  · rfl

/-- The key of a part is read with the value that it gets. -/
theorem reads_writtenHead (h : Layout t lead parts) (hs : Layout s lead' parts')
    (hnl : ∀ line ∈ s.lines, '\n' ∉ line) (hp : p ∈ parts) {its : List Item}
    (hname : p.mark.entry.isSome → lastName its = p.mark.name)
    (hfits : ∀ k ∈ opened its, indentation p.line ≤ k) :
    Reads (writtenHead t s p) its (its ++ [mergedItem t s.settings p]) := by
  have hsound := h.sound hp
  rw [writtenHead]
  cases hr : (presentEdits t s).replace p.mark.start with
  | some r =>
    obtain ⟨existing, entry, hentry, hget, hsource, rfl⟩ := exists_of_replace_start h hp hr
    obtain ⟨q, hq, -, hqentry, -⟩ := hs.mem_of_get hsource
    obtain ⟨line, body, comments, hlines, hsets, hcomments, -⟩ :=
      exists_replacement h hs hp hq hentry hqentry (hnl _ (hs.line_mem hq))
    have hindent := (hsound.key existing hentry).1.indent
    have hreads := (hsets.reads fun k hk => hindent.symm ▸ hfits k hk).append
      (hcomments.reads _)
    rw [hname (by rw [hentry]; rfl)] at hreads
    rw [mergedItem, hentry, Option.map_some, mergedValue_of_get hget hsource]
    show Reads (replacement t existing s entry) _ _
    rwa [hlines]
  | none =>
    show Reads (p.line :: p.body) _ _
    cases hentry : p.mark.entry with
    | none =>
      obtain ⟨hbody, name, hpname, hheads⟩ := hsound.header hentry
      rw [hbody, mergedItem, hentry, hpname]
      exact hheads.reads hfits
    | some e =>
      obtain ⟨hsets, -⟩ := hsound.key e hentry
      have hreads := hsets.reads fun k hk => hsets.indent ▸ hfits k hk
      rw [hname (by rw [hentry]; rfl)] at hreads
      rw [mergedItem, hentry, Option.map_some, mergedValue_of_replace_eq_none h hp hentry hr]
      exact hreads

/-- Whether a part is the last of its section. -/
theorem insertPoint_eq_stop_iff (h : Layout t lead (pre ++ p :: post)) (hd : Headed t.sections) :
    (t.insertPoint p.mark.name).1 = p.stop ↔ ∀ q ∈ post, q.mark.name ≠ p.mark.name := by
  constructor
  · intro hstop q hq hname
    have hmore : ∃ q ∈ post, q.mark.name = p.mark.name := ⟨q, hq, hname⟩
    obtain ⟨a, q', b, rfl, hq'name, hlast⟩ := exists_last_of_mem hmore
    have hq'mem : q' ∈ a ++ q' :: b := by simp
    have hafter := h.before.2.1 q' hq'mem
    have hsplit : pre ++ p :: (a ++ q' :: b) = (pre ++ p :: a) ++ q' :: b := by simp
    rw [hsplit] at h
    have hplace := h.insertPoint_last hd fun r hr hrname => hlast r hr (hrname.trans hq'name)
    rw [← hq'name, hplace] at hstop
    have := q'.start_lt_stop
    have := p.stop_le_next
    have hstop : q'.stop = p.stop := hstop
    omega
  · intro hlast
    rw [h.insertPoint_last hd hlast]

theorem insert_stop (h : Layout t lead (pre ++ p :: post)) (hd : Headed t.sections) (s : Doc) :
    (presentEdits t s).insert p.stop = if (t.insertPoint p.mark.name).1 = p.stop then
      (s.effective.get p.mark.name).elim [] (addition t s p.mark.name) else [] := by
  split
  · case isTrue hstop =>
    exact insert_stop_of_last h hd ((insertPoint_eq_stop_iff h hd).1 hstop)
  · case isFalse hstop =>
    refine insert_stop_of_not_last h hd ?_
    by_contra hnone
    exact hstop ((insertPoint_eq_stop_iff h hd).2 fun q hq hname => hnone ⟨q, hq, hname⟩)

theorem isWhite_indent (p : Part) : IsWhite p.indent := by
  rw [Part.indent]
  split
  · exact isWhite_takeWhile _
  · exact .nil

theorem utf8Len_indent (h : p.Sound) {e : Entry} (he : p.mark.entry = some e) :
    utf8Len p.indent = e.indent := by
  rw [Part.indent, he, Option.isSome_some, if_pos rfl, ← indentation_eq]
  exact (h.key e he).1.indent

theorem opened_mergedItem (t : Doc) (s : Settings) (p : Part) (its : List Item) :
    opened (its ++ [mergedItem t s p]) = p.mark.entry.bind fun e =>
      (mergedValue t s p.mark.name e).map fun _ => e.indent := by
  rw [opened_concat, mergedItem]
  cases p.mark.entry <;> rfl

/-- **A part is read with what is written for it.** -/
theorem reads_written (h : Layout t lead (pre ++ p :: post)) (hd : Headed t.sections)
    (hs : Layout s lead' parts') (hnl : ∀ line ∈ s.lines, '\n' ∉ line) {its : List Item}
    (hname : p.mark.entry.isSome → lastName its = p.mark.name)
    (hfits : ∀ k ∈ opened its, indentation p.line ≤ k) :
    Reads (written t s p) its (its ++ partItems t s.settings p) := by
  have hp : p ∈ pre ++ p :: post := by simp
  have hsound := h.sound hp
  have hhead := reads_writtenHead h hs hnl hp hname hfits
  rw [written, insert_stop h hd]
  refine Reads.append ?_ (hsound.rest.reads _)
  refine hhead.append ?_
  rw [partItems]
  split
  · case isTrue hstop =>
    have hplace := h.insertPoint_last hd ((insertPoint_eq_stop_iff h hd).1 hstop)
    have hreads : Reads _ (its ++ [mergedItem t s.settings p])
        (_ ++ addedItems t s.settings p.mark.name) := reads_addition hs (by rw [hplace]; exact isWhite_indent p)
      (fun _ => lastName_concat _ _) fun _ k hk => by
        rw [opened_mergedItem, Option.mem_def, Option.bind_eq_some_iff] at hk
        obtain ⟨e, he, hk⟩ := hk
        obtain ⟨_, _, rfl⟩ := Option.map_eq_some_iff.1 hk
        rw [hplace, utf8Len_indent hsound he]
    rwa [List.append_assoc, List.singleton_append] at hreads
  · exact .nil _

/-- The section that is open behind a part. -/
theorem lastName_partItems (t : Doc) (s : Settings) (p : Part) (its : List Item) :
    lastName (its ++ partItems t s p) = p.mark.name := by
  have hall : ∀ it ∈ partItems t s p, it.name = p.mark.name := by
    intro it hit
    rcases List.mem_cons.1 hit with rfl | hit
    · rfl
    · split at hit
      · obtain ⟨_, _, rfl⟩ := List.mem_map.1 hit
        rfl
      · exact nomatch hit
  rcases (partItems t s p).eq_nil_or_concat' with hnil | ⟨init, it, hlast⟩
  · exact nomatch hnil
  · rw [hlast, ← List.append_assoc, lastName_concat]
    exact hall it (by rw [hlast]; simp)

/-- The indent beyond which a line goes on with what is written for a part. -/
theorem opened_partItems (t : Doc) (s : Settings) (p : Part) (its : List Item) :
    opened (its ++ partItems t s p) =
      match if (t.insertPoint p.mark.name).1 = p.stop then
        (addedKeys t s p.mark.name).getLast? else none with
      | some setting => setting.2.map fun _ => utf8Len (t.insertPoint p.mark.name).2
      | none => p.mark.entry.bind fun e =>
        (mergedValue t s p.mark.name e).map fun _ => e.indent := by
  rw [partItems, ← opened_mergedItem t s p its]
  split
  · case isTrue hstop =>
    rw [addedItems]
    rcases (addedKeys t s p.mark.name).eq_nil_or_concat' with hnil | ⟨init, setting, hlast⟩
    · rw [hnil]
      rfl
    · rw [hlast, List.map_append, List.map_singleton, ← List.cons_append, ← List.append_assoc,
        opened_concat, List.getLast?_concat]
      rfl
  · rfl

/-! ### Seams -/

theorem find?_drop_stop (h : Layout t lead (pre ++ p :: q :: post)) :
    (t.lines.drop p.stop).find? isSignificant = some q.line := by
  have hq : q ∈ pre ++ p :: q :: post := by simp
  have hp : p ∈ pre ++ p :: q :: post := by simp
  have hdrop : t.lines.drop p.stop = p.rest ++ (q :: post).flatMap Part.lines := by
    rw [Part.stop, ← List.drop_drop, h.split.2, Part.lines, List.append_assoc]
    exact List.drop_left
  have hrest : p.rest.find? isSignificant = none :=
    List.find?_eq_none.2 fun line hline => Bool.eq_false_iff.1 ((h.sound hp).rest line hline)
  rw [hdrop, List.find?_append, hrest, List.flatMap_cons, Part.lines, List.cons_append,
    List.cons_append, List.find?_cons, (h.sound hq).significant]
  rfl

theorem find?_drop_lead (h : Layout t lead (q :: post)) {k : ℕ} (hk : k ≤ lead.length) :
    (t.lines.drop k).find? isSignificant = some q.line := by
  have hlead : (lead.drop k).find? isSignificant = none :=
    List.find?_eq_none.2 fun line hline =>
      Bool.eq_false_iff.1 (h.noise line (List.mem_of_mem_drop hline))
  rw [h.lines, List.drop_append_of_le_length hk, List.find?_append, hlead, List.flatMap_cons,
    Part.lines, List.cons_append, List.cons_append, List.find?_cons,
    (h.sound List.mem_cons_self).significant]
  rfl

theorem mem_entries_of_addedKeys {s : Settings} {name : Option Line}
    {setting : Line × Option Line} (h : setting ∈ addedKeys t s name) :
    ∃ keys, (name, keys) ∈ s.entries := by
  rw [addedKeys] at h
  cases hkeys : s.get name with
  | none =>
    rw [hkeys] at h
    exact nomatch h
  | some keys => exact ⟨keys, s.mem_entries.2 hkeys⟩

/-- The header or key behind a part goes on with nothing that is written for it. -/
theorem fits_behind {indents : Option Line → ℕ} (hund : Undisturbed t s.settings indents)
    (h : Layout t lead (pre ++ p :: q :: post)) (hd : Headed t.sections) (its : List Item) :
    ∀ k ∈ opened (its ++ partItems t s.settings p), indentation q.line ≤ k := by
  have hp : p ∈ pre ++ p :: q :: post := by simp
  have hseam : ∀ k, t.NotDeeper p.stop k → indentation q.line ≤ k :=
    fun k hk => hk q.line (find?_drop_stop h)
  intro k hk
  rw [opened_partItems] at hk
  split at hk
  · case h_1 setting hlast =>
    split at hlast
    · case isTrue hstop =>
      obtain ⟨v, hv, rfl⟩ := Option.map_eq_some_iff.1 hk
      obtain ⟨keys, hkeys⟩ := mem_entries_of_addedKeys (List.mem_of_getLast? hlast)
      have hname : t.hasSection p.mark.name = true :=
        (h.hasSection_iff hd.titled _).2 (.inr ⟨p, hp, rfl⟩)
      refine hseam _ ?_
      rw [← hstop]
      exact hund.added _ hkeys hname setting hlast (by rw [hv]; rfl)
    · cases hlast
  · case h_2 hlast =>
    obtain ⟨e, he, hk⟩ := Option.bind_eq_some_iff.1 hk
    obtain ⟨v, hv, rfl⟩ := Option.map_eq_some_iff.1 hk
    obtain ⟨-, -, hstop, -⟩ := (h.sound hp).key e he
    cases hvalue : e.value with
    | some w =>
      -- the value was open before
      have hsplit : pre ++ p :: q :: post = (pre ++ [p]) ++ q :: post := by simp
      rw [hsplit] at h
      refine h.split.1.fits _ ?_
      rw [List.getLast?_concat, Option.bind_some, Part.opened, he, Option.bind_some,
        Setting.opened]
      show _ ∈ e.value.map _
      rw [hvalue]
      rfl
    | none =>
      rw [mergedValue, hvalue] at hv
      split at hv
      · case isTrue hget =>
        cases hs : s.settings.value p.mark.name e.key with
        | none =>
          rw [hs] at hv
          cases hv
        | some w =>
          rw [hs] at hv
          obtain rfl : w = some v := hv
          obtain ⟨keys, hkeys, hentry⟩ := Settings.value_eq_some_iff.1 hs
          refine hseam _ ?_
          rw [← hstop]
          refine hund.replaced _ (s.settings.mem_entries.2 hkeys) _ (keys.mem_entries.2 hentry) e
            hget hvalue rfl fun heq => ?_
          rw [hstop] at heq
          rw [if_pos heq] at hlast
          exact List.getLast?_eq_none_iff.1 hlast
      · cases hv

/-- **The target's parts are read one after another.** -/
theorem reads_parts {indents : Option Line → ℕ} (hund : Undisturbed t s.settings indents)
    (h : Layout t lead (pre ++ post)) (hd : Headed t.sections) (hs : Layout s lead' parts')
    (hnl : ∀ line ∈ s.lines, '\n' ∉ line) {its : List Item}
    (hname : ∀ p ∈ post.head?, p.mark.entry.isSome → lastName its = p.mark.name)
    (hfits : ∀ p ∈ post.head?, ∀ k ∈ opened its, indentation p.line ≤ k) :
    Reads (post.flatMap (written t s)) its (its ++ post.flatMap (partItems t s.settings)) := by
  induction post generalizing pre its with
  | nil =>
    rw [List.flatMap_nil, List.flatMap_nil, List.append_nil]
    exact .nil its
  | cons p post ih =>
    have hsplit : pre ++ p :: post = (pre ++ [p]) ++ post := by simp
    rw [List.flatMap_cons, List.flatMap_cons, ← List.append_assoc]
    refine (reads_written h hd hs hnl (hname p rfl) (hfits p rfl)).append ?_
    refine ih (hsplit ▸ h) (fun q hq hentry => ?_) fun q hq => ?_
    · obtain ⟨post, rfl⟩ := List.head?_eq_some_iff.1 hq
      rw [hsplit] at h
      have hqname := h.split.1.name hentry
      rw [List.getLast?_concat] at hqname
      rw [lastName_partItems, hqname]
      rfl
    · obtain ⟨post, rfl⟩ := List.head?_eq_some_iff.1 hq
      exact fits_behind hund h hd its

/-- The keys that are added in front of all parts are read there. -/
theorem reads_topAddition (h : Layout t lead parts) (hd : Headed t.sections)
    (hs : Layout s lead' parts') :
    Reads (topAddition t s parts) [] (topItems t s.settings parts) := by
  rw [topAddition, topItems]
  split
  · exact .nil []
  · case isFalse hnone =>
    have hall : ∀ p ∈ parts, p.mark.name ≠ none := by simpa using hnone
    have hreads : Reads _ [] (_ ++ addedItems t s.settings none) := reads_addition hs
      (by rw [(h.insertPoint_top hd hall).2]; exact .nil) (fun _ => rfl)
      fun _ k hk => by cases hk
    rwa [List.nil_append] at hreads

/-- The first header of the target goes on with no key that is added in front of it. -/
theorem fits_topItems {indents : Option Line → ℕ} (hund : Undisturbed t s.settings indents)
    (h : Layout t lead (q :: post)) (hd : Headed t.sections) :
    ∀ k ∈ opened (topItems t s.settings (q :: post)), indentation q.line ≤ k := by
  intro k hk
  rw [topItems] at hk
  split at hk
  · exact nomatch hk
  · case isFalse hnone =>
    have hall : ∀ p ∈ q :: post, p.mark.name ≠ none := by simpa using hnone
    rw [addedItems] at hk
    rcases (addedKeys t s.settings none).eq_nil_or_concat' with hnil | ⟨init, setting, hlast⟩
    · rw [hnil] at hk
      exact nomatch hk
    · rw [hlast, List.map_append, List.map_singleton, opened_concat, Option.bind_some,
        Setting.opened] at hk
      obtain ⟨v, hv, rfl⟩ := Option.map_eq_some_iff.1 hk
      have hmem : setting ∈ (addedKeys t s.settings none).getLast? := by
        rw [hlast, List.getLast?_concat]
        rfl
      obtain ⟨keys, hkeys⟩ := mem_entries_of_addedKeys (List.mem_of_getLast? hmem)
      have hseam := hund.added _ hkeys rfl setting hmem (by
        have hv : setting.2 = some v := hv
        rw [hv]
        rfl)
      exact hseam q.line (find?_drop_lead h (h.insertPoint_top hd hall).1)

/-- The value that is open at the end of the target, once the keys of its sections are
merged. -/
theorem opened_eq_endOpened (h : Layout t lead parts) (hd : Headed t.sections) (s : Settings) :
    opened (topItems t s parts ++ parts.flatMap (partItems t s)) = endOpened t s := by
  rw [endOpened, h.marks, List.getLast?_map]
  rcases parts.eq_nil_or_concat' with rfl | ⟨init, p, rfl⟩
  · show opened (addedItems t s none ++ []) = _
    rw [List.append_nil, addedItems]
    rcases (addedKeys t s none).eq_nil_or_concat' with hnil | ⟨init, setting, hlast⟩
    · simp [hnil, opened]
    · simp [hlast, Setting.opened]
  · have hstop : (t.insertPoint p.mark.name).1 = p.stop :=
      (insertPoint_eq_stop_iff h hd).2 fun _ h => by cases h
    rw [List.flatMap_append, List.flatMap_singleton, ← List.append_assoc, opened_partItems,
      if_pos hstop, List.getLast?_concat]
    rfl

theorem opened_sectionItems (sec : Option Line × IndexMap Line (Option Line)) (its : List Item) :
    opened (its ++ sectionItems sec) =
      sec.2.entries.getLast?.bind fun setting => setting.2.map fun _ => 0 := by
  rw [sectionItems]
  rcases sec.2.entries.eq_nil_or_concat' with hnil | ⟨init, setting, hlast⟩
  · rw [hnil, List.map_nil, opened_concat]
    rfl
  · rw [hlast, List.map_append, List.map_singleton, ← List.cons_append, ← List.append_assoc,
      opened_concat, List.getLast?_concat]
    rfl

/-- **The sections that are added are read one after another.** -/
theorem reads_sectionLines (hs : Layout s lead' parts') (hsd : Headed s.sections)
    (secs : List (Option Line × IndexMap Line Entry))
    (hsecs : ∀ sec ∈ secs, sec.1 ≠ none ∧ sec ∈ s.effective.entries) (before : List Line)
    {its : List Item} (hfits : headersFit s.headerIndent (opened its)
      (secs.map fun sec => (sec.1, sec.2.mapValues (·.value))) = true) :
    Reads (sectionLines t s before secs) its
      (its ++ (secs.map fun sec => (sec.1, sec.2.mapValues (·.value))).flatMap sectionItems) := by
  induction secs generalizing its before with
  | nil =>
    rw [List.map_nil, List.flatMap_nil, List.append_nil]
    exact .nil its
  | cons sec secs ih =>
    obtain ⟨name, keys⟩ := sec
    rw [List.forall_mem_cons] at hsecs
    obtain ⟨⟨hne, hmem⟩, hsecs⟩ := hsecs
    obtain ⟨name, rfl⟩ := Option.ne_none_iff_exists'.1 hne
    rw [List.map_cons, headersFit, Bool.and_eq_true] at hfits
    have hsection : s.hasSection (some name) = true := hasSection_of_mem_effective hsd.titled hmem
    have hheader : Reads _ its _ := (hs.heads_headerLine hsd.titled hsection).reads fun k hk => by
      have hall := hfits.1
      rw [hk] at hall
      exact of_decide_eq_true hall
    have hentries : Reads _ (its ++ [⟨some name, none⟩]) _ := reads_entries hs .nil
      (fun setting hsetting => get_of_mem_effective hmem hsetting)
      (fun _ => lastName_concat _ _) fun _ k hk => by
        rw [opened_concat] at hk
        exact nomatch hk
    have hopened := opened_sectionItems (some name, keys.mapValues (·.value)) its
    have hrest := fun before => ih hsecs before (hopened ▸ hfits.2)
    simp only [List.append_assoc] at hrest
    rw [sectionLines, List.map_cons, List.flatMap_cons]
    refine Reads.append ?_ (hrest _)
    refine ((isNoise_blank _).reads its).append ?_
    rw [← List.singleton_append (l := List.flatMap _ _)]
    refine hheader.append ?_
    rw [sectionItems, IndexMap.mapValues, List.map_map]
    rw [List.append_assoc, List.singleton_append] at hentries
    exact hentries

/-- **A merge that disturbs nothing is read as it was written.** -/
theorem reads_edits (ht : Layout t lead parts) (htd : Headed t.sections)
    (hs : Layout s lead' parts') (hsd : Headed s.sections)
    (hnl : ∀ line ∈ s.lines, '\n' ∉ line)
    (hund : Undisturbed t s.settings s.headerIndent) :
    Reads ((edits t s).apply 0 0 t.lines) [] (mergedItems t s.settings parts) := by
  obtain ⟨a, b, hlead, -, happly⟩ := apply_presentEdits ht htd s
  have hnoise : IsNoise (a ++ b) := hlead ▸ ht.noise
  have hparts : Reads _ (topItems t s.settings parts) _ :=
    reads_parts hund (show Layout t lead ([] ++ parts) from ht) htd hs hnl ?_ ?_
  · rw [apply_edits ht, happly, mergedItems]
    have hfits := hund.headers
    rw [← opened_eq_endOpened ht htd] at hfits
    have hmap : (s.settings.entries.filter fun sec => !t.hasSection sec.1) =
        (s.effective.entries.filter fun sec => !t.hasSection sec.1).map fun sec =>
          (sec.1, sec.2.mapValues (·.value)) := by
      show List.filter _ (s.effective.entries.map _) = _
      rw [List.filter_map]
      rfl
    rw [hmap] at hfits ⊢
    refine Reads.append ?_ (reads_sectionLines hs hsd _ (fun sec hsec => ?_) _ hfits)
    · refine Reads.append ?_ hparts
      refine Reads.append ?_ (IsNoise.reads (fun l hl => hnoise l (List.mem_append_right a hl)) _)
      have htop := reads_topAddition ht htd hs
      exact Reads.append (IsNoise.reads (fun l hl => hnoise l (List.mem_append_left b hl)) []) htop
    · obtain ⟨hmem, habsent⟩ := List.mem_filter.1 hsec
      refine ⟨fun hname => ?_, hmem⟩
      rw [hname] at habsent
      exact nomatch habsent
  · intro p hp hentry
    obtain ⟨post, rfl⟩ := List.head?_eq_some_iff.1 hp
    have hname := ht.laid.1.name hentry
    have hnone : (p :: post).any (·.mark.name = none) = true := by
      rw [List.any_cons, hname]
      rfl
    rw [topItems, if_pos hnone, hname]
    rfl
  · intro p hp
    obtain ⟨post, rfl⟩ := List.head?_eq_some_iff.1 hp
    exact fits_topItems hund ht htd

end Parts

end Mise.Ini
