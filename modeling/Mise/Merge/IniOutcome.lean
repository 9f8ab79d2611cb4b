/-
# What a merged INI file sets

A file's items have its values (`value_items`).  So a merged file that is read as it was
written sets what the source sets, and else what the target does
(`itemValue_mergedItems`), and has the sections of both.
-/

import Mise.Merge.IniMerge

namespace Mise.Ini

open Lib String

/-! ### The values of items -/

/-- The value of an item, if it is for a key. -/
def Item.at (it : Item) (name : Option Line) (key : Line) : Option (Option Line) :=
  if it.name = name then (it.setting.filter (·.key = key)).map (·.value) else none

/-- The value of a key: the one of its last item. -/
def itemValue (its : List Item) (name : Option Line) (key : Line) : Option (Option Line) :=
  its.reverse.findSome? (·.at name key)

theorem itemValue_append (its its' : List Item) (name : Option Line) (key : Line) :
    itemValue (its ++ its') name key = (itemValue its' name key).or (itemValue its name key) := by
  rw [itemValue, List.reverse_append, List.findSome?_append]
  rfl

theorem itemValue_eq_none_iff {its : List Item} {name : Option Line} {key : Line} :
    itemValue its name key = none ↔ ∀ it ∈ its, it.at name key = none := by
  rw [itemValue, List.findSome?_eq_none_iff]
  simp

/-- Items that agree on the value of a key. -/
theorem itemValue_eq {its : List Item} {name : Option Line} {key : Line}
    {v : Option (Option Line)} (hall : ∀ it ∈ its, ∀ w, it.at name key = some w → v = some w)
    (hsome : v.isSome → ∃ it ∈ its, (it.at name key).isSome) : itemValue its name key = v := by
  cases hvalue : itemValue its name key with
  | none =>
    cases v with
    | none => rfl
    | some w =>
      obtain ⟨it, hit, hat⟩ := hsome rfl
      rw [itemValue_eq_none_iff.1 hvalue it hit] at hat
      exact nomatch hat
  | some w =>
    obtain ⟨it, hit, hat⟩ := List.exists_of_findSome?_eq_some hvalue
    exact (hall it (List.mem_reverse.1 hit) w hat).symm

theorem at_key {name name' : Option Line} {key key' : Line} {v : Option Line} {i : ℕ}
    {w : Option Line} : Item.at ⟨name', some ⟨key', v, i⟩⟩ name key = some w ↔
      name' = name ∧ key' = key ∧ v = w := by
  rw [Item.at]
  by_cases hname : name' = name
  · by_cases hkey : key' = key
    · simp [hname, hkey]
    · simp [hkey]
  · simp [hname]

/-- What a mark reads as. -/
def Mark.item (m : Mark) : Item := ⟨m.name, m.entry.map Entry.setting⟩

theorem items_eq_map_marks (d : Doc) : d.items = d.marks.map Mark.item := by
  rw [Doc.items, Doc.marks, List.map_flatMap]
  congr 1
  funext s
  simp [Section.items, Section.marks, Mark.item, Entry.setting, Function.comp_def]

theorem at_item (m : Mark) (name : Option Line) (key : Line) :
    m.item.at name key = (m.at name key).map (·.value) := by
  rw [Item.at, Mark.at, Mark.item]
  by_cases hname : m.name = name
  · rw [if_pos hname, if_pos hname]
    cases m.entry with
    | none => rfl
    | some e =>
      rw [Option.map_some, Option.filter_some, Option.filter_some]
      by_cases hkey : e.key = key
      · simp [Entry.setting, hkey]
      · simp [Entry.setting, hkey]
  · rw [if_neg hname, if_neg hname]
    rfl

/-- **A file's items have its values.** -/
theorem value_items (d : Doc) (name : Option Line) (key : Line) :
    d.settings.value name key = itemValue d.items name key := by
  rw [value_settings, get_eq, items_eq_map_marks, itemValue, ← List.map_reverse,
    List.findSome?_map, List.map_findSome?]
  congr 1
  funext m
  exact (at_item m name key).symm

/-- **A file's items stand in its sections.** -/
theorem hasSection_items {d : Doc} (hd : Titled d.sections) (name : Line) :
    d.hasSection (some name) = d.items.any (·.name = some name) := by
  rw [Bool.eq_iff_iff, items_eq_map_marks, List.any_eq_true]
  rw [Doc.hasSection, Option.isNone_some, Bool.false_or, List.any_eq_true]
  constructor
  · rintro ⟨s, hs, hname⟩
    obtain ⟨i, -, hi⟩ := hd.mark_mem hs (of_decide_eq_true hname)
    exact ⟨_, List.mem_map_of_mem (List.mem_flatMap.2 ⟨s, hs, hi⟩), decide_eq_true rfl⟩
  · rintro ⟨it, hit, hname⟩
    obtain ⟨m, hm, rfl⟩ := List.mem_map.1 hit
    obtain ⟨s, hs, hm⟩ := List.mem_flatMap.1 hm
    exact ⟨s, hs, decide_eq_true ((name_of_mem_marks hm).symm.trans (of_decide_eq_true hname))⟩

/-! ### The values of a merged file -/

section Merged

variable {t : Doc} {s : Settings} {lead : List Line} {parts : List Part} {name name' : Option Line}
  {key : Line} {v : Option Line}

theorem mem_addedKeys_iff : (key, v) ∈ addedKeys t s name ↔
    s.value name key = some v ∧ t.get name key = none := by
  rw [addedKeys, List.mem_filter, Option.isNone_iff_eq_none, Settings.value]
  cases hkeys : s.get name with
  | none => simp
  | some keys => exact and_congr_left fun _ => keys.mem_entries

theorem at_of_mem_addedItems {it : Item} (hit : it ∈ addedItems t s name')
    (hat : it.at name key = some v) :
    name' = name ∧ s.value name key = some v ∧ t.get name key = none := by
  obtain ⟨⟨key', v'⟩, hsetting, rfl⟩ := List.mem_map.1 hit
  obtain ⟨rfl, rfl, rfl⟩ := at_key.1 hat
  exact ⟨rfl, mem_addedKeys_iff.1 hsetting⟩

theorem exists_mem_addedItems (hs : s.value name key = some v) (ht : t.get name key = none) :
    ∃ it ∈ addedItems t s name, (it.at name key).isSome := by
  refine ⟨_, List.mem_map_of_mem (mem_addedKeys_iff.2 ⟨hs, ht⟩), ?_⟩
  rw [at_key.2 ⟨rfl, rfl, rfl⟩]
  rfl

theorem at_of_mem_sectionItems {sec : Option Line × IndexMap Line (Option Line)}
    (hsec : sec ∈ s.entries) {it : Item} (hit : it ∈ sectionItems sec)
    (hat : it.at name key = some v) : sec.1 = name ∧ s.value name key = some v := by
  rw [sectionItems] at hit
  rcases List.mem_cons.1 hit with rfl | hit
  · rw [Item.at] at hat
    split at hat
    · cases hat
    · cases hat
  · obtain ⟨⟨key', v'⟩, hsetting, rfl⟩ := List.mem_map.1 hit
    obtain ⟨rfl, rfl, rfl⟩ := at_key.1 hat
    refine ⟨rfl, Settings.value_eq_some_iff.2 ⟨sec.2, s.mem_entries.1 hsec, ?_⟩⟩
    exact sec.2.mem_entries.1 hsetting

theorem at_mergedItem {p : Part} (hat : (mergedItem t s p).at name key = some v) :
    ∃ e, p.mark.at name key = some e ∧ v = mergedValue t s name e := by
  rw [mergedItem] at hat
  cases hentry : p.mark.entry with
  | none =>
    rw [hentry, Item.at] at hat
    split at hat
    · cases hat
    · cases hat
  | some e =>
    rw [hentry] at hat
    obtain ⟨hname, hkey, rfl⟩ := at_key.1 hat
    refine ⟨e, ?_, by rw [hname]⟩
    rw [Mark.at, if_pos hname, hentry, Option.filter_some, if_pos (decide_eq_true hkey)]

/-- What of a part sets a key: its own, or one that is added to its section. -/
theorem at_of_mem_partItems {p : Part} {it : Item} (hit : it ∈ partItems t s p)
    (hat : it.at name key = some v) :
    (∃ e, p.mark.at name key = some e ∧ v = mergedValue t s name e) ∨
      s.value name key = some v ∧ t.get name key = none := by
  rw [partItems] at hit
  rcases List.mem_cons.1 hit with rfl | hit
  · exact .inl (at_mergedItem hat)
  · split at hit
    · exact .inr (at_of_mem_addedItems hit hat).2
    · cases hit

/-- What sets a key among the added items of a merged file. -/
theorem at_of_mem_topItems {it : Item} (hit : it ∈ topItems t s parts)
    (hat : it.at name key = some v) : s.value name key = some v ∧ t.get name key = none := by
  rw [topItems] at hit
  split at hit
  · cases hit
  · exact (at_of_mem_addedItems hit hat).2

theorem at_of_mem_addedSections {it : Item}
    (hit : it ∈ (s.entries.filter fun sec => !t.hasSection sec.1).flatMap sectionItems)
    (hat : it.at name key = some v) : s.value name key = some v ∧ t.hasSection name = false := by
  obtain ⟨sec, hsec, hit⟩ := List.mem_flatMap.1 hit
  obtain ⟨hmem, habsent⟩ := List.mem_filter.1 hsec
  obtain ⟨rfl, hv⟩ := at_of_mem_sectionItems hmem hit hat
  exact ⟨hv, by simpa using habsent⟩

/-- The entry that sets a key, with parts behind it that do not. -/
theorem Layout.exists_of_get (h : Layout t lead parts) {e : Entry}
    (hget : t.get name key = some e) : ∃ pre p post, parts = pre ++ p :: post ∧
      p.mark.at name key = some e ∧ ∀ q ∈ post, q.mark.at name key = none := by
  rw [get_eq, h.marks, ← List.map_reverse, List.findSome?_map] at hget
  obtain ⟨post, p, pre, hparts, hat, hpost⟩ := List.findSome?_eq_some_iff.1 hget
  refine ⟨pre.reverse, p, post.reverse, ?_, hat, fun q hq => hpost q (List.mem_reverse.1 hq)⟩
  rw [← List.reverse_reverse parts, hparts]
  simp

theorem Layout.at_eq_none (h : Layout t lead parts) (hget : t.get name key = none) {p : Part}
    (hp : p ∈ parts) : p.mark.at name key = none := by
  rw [get_eq, h.marks, List.findSome?_eq_none_iff] at hget
  exact hget p.mark (List.mem_reverse.2 (List.mem_map_of_mem hp))

/-- **The values of a merged file**: those of the source, and else those of the target. -/
theorem itemValue_mergedItems (h : Layout t lead parts) (hd : Headed t.sections) (s : Settings)
    (name : Option Line) (key : Line) :
    itemValue (mergedItems t s parts) name key =
      (s.value name key).or (t.settings.value name key) := by
  rw [value_settings, mergedItems]
  cases hget : t.get name key with
  | some e =>
    obtain ⟨pre, p, post, rfl, hat, hpost⟩ := h.exists_of_get hget
    -- behind the entry that sets the key, nothing sets it
    have hbehind : itemValue ((if (t.insertPoint p.mark.name).1 = p.stop then
        addedItems t s p.mark.name else []) ++ post.flatMap (partItems t s) ++
        (s.entries.filter fun sec => !t.hasSection sec.1).flatMap sectionItems) name key = none := by
      refine itemValue_eq_none_iff.2 fun it hit => ?_
      by_contra hne
      obtain ⟨w, hw⟩ := Option.ne_none_iff_exists'.1 hne
      rcases List.mem_append.1 hit with hit | hit
      · rcases List.mem_append.1 hit with hit | hit
        · split at hit
          · cases hget.symm.trans (at_of_mem_addedItems hit hw).2.2
          · cases hit
        · obtain ⟨q, hq, hit⟩ := List.mem_flatMap.1 hit
          rcases at_of_mem_partItems hit hw with ⟨e', he', -⟩ | ⟨-, hnone⟩
          · cases (hpost q hq).symm.trans he'
          · cases hget.symm.trans hnone
      · have hnot := (at_of_mem_addedSections hit hw).2
        rw [hasSection_of_get hget] at hnot
        cases hnot
    have hitem : (mergedItem t s p).at name key = some ((s.value name key).getD e.value) := by
      rw [Mark.at] at hat
      split at hat
      · case isTrue hname =>
        obtain ⟨hentry, hkey⟩ := Option.filter_eq_some_iff.1 hat
        have hkey : e.key = key := of_decide_eq_true hkey
        rw [mergedItem, hentry]
        refine at_key.2 ⟨hname, hkey, ?_⟩
        rw [mergedValue, hname, hkey, if_pos hget]
      · cases hat
    have hsplit : topItems t s (pre ++ p :: post) ++ (pre ++ p :: post).flatMap (partItems t s) ++
        (s.entries.filter fun sec => !t.hasSection sec.1).flatMap sectionItems =
        (topItems t s (pre ++ p :: post) ++ pre.flatMap (partItems t s) ++ [mergedItem t s p]) ++
          ((if (t.insertPoint p.mark.name).1 = p.stop then addedItems t s p.mark.name else []) ++
            post.flatMap (partItems t s) ++
            (s.entries.filter fun sec => !t.hasSection sec.1).flatMap sectionItems) := by
      rw [List.flatMap_append, List.flatMap_cons, partItems]
      simp
    rw [hsplit, itemValue_append, hbehind, Option.none_or, itemValue_append]
    rw [itemValue, List.reverse_singleton, List.findSome?_cons, hitem]
    cases s.value name key <;> rfl
  | none =>
    show _ = (s.value name key).or none
    rw [Option.or_none]
    refine itemValue_eq (fun it hit w hw => ?_) fun hsome => ?_
    · rcases List.mem_append.1 hit with hit | hit
      · rcases List.mem_append.1 hit with hit | hit
        · exact (at_of_mem_topItems hit hw).1
        · obtain ⟨p, hp, hit⟩ := List.mem_flatMap.1 hit
          rcases at_of_mem_partItems hit hw with ⟨e, he, -⟩ | ⟨hv, -⟩
          · cases (h.at_eq_none hget hp).symm.trans he
          · exact hv
      · exact (at_of_mem_addedSections hit hw).1
    · obtain ⟨v, hv⟩ := Option.isSome_iff_exists.1 hsome
      obtain ⟨it, hit, hat⟩ := exists_mem_addedItems hv hget
      cases hname : t.hasSection name with
      | true =>
        refine ⟨it, List.mem_append_left _ ?_, hat⟩
        rcases h.place hd hname with ⟨pre, p, post, rfl, rfl, -, hplace⟩ | ⟨rfl, hnone, -⟩
        · refine List.mem_append_right _ (List.mem_flatMap.2 ⟨p, by simp, ?_⟩)
          rw [partItems, hplace, if_pos rfl]
          exact List.mem_cons_of_mem _ hit
        · refine List.mem_append_left _ ?_
          rw [topItems, if_neg (by simpa using hnone)]
          exact hit
      | false =>
        obtain ⟨keys, hkeys, hkey⟩ := Settings.value_eq_some_iff.1 hv
        have hsec : (name, keys) ∈ s.entries.filter fun sec => !t.hasSection sec.1 :=
          List.mem_filter.2 ⟨s.mem_entries.2 hkeys, by rw [hname]; rfl⟩
        refine ⟨_, List.mem_append_right _ (List.mem_flatMap.2 ⟨_, hsec,
          List.mem_cons_of_mem _ (List.mem_map_of_mem (keys.mem_entries.2 hkey))⟩), ?_⟩
        rw [at_key.2 ⟨rfl, rfl, rfl⟩]
        rfl

/-- **The sections of a merged file.** -/
theorem any_mergedItems (h : Layout t lead parts) (hd : Headed t.sections) (s : Settings)
    (name : Line) : (mergedItems t s parts).any (·.name = some name) =
      (t.hasSection (some name) || s.hasSection (some name)) := by
  have hpart : ∀ p : Part, ∀ it ∈ partItems t s p, it.name = p.mark.name := by
    intro p it hit
    rcases List.mem_cons.1 hit with rfl | hit
    · rfl
    · split at hit
      · obtain ⟨_, _, rfl⟩ := List.mem_map.1 hit
        rfl
      · cases hit
  have hsec : ∀ sec : Option Line × IndexMap Line (Option Line), ∀ it ∈ sectionItems sec,
      it.name = sec.1 := by
    intro sec it hit
    rcases List.mem_cons.1 hit with rfl | hit
    · rfl
    · obtain ⟨_, _, rfl⟩ := List.mem_map.1 hit
      rfl
  have ht := h.hasSection_iff hd.titled (some name)
  have hs : s.hasSection (some name) = true ↔ ∃ keys, (some name, keys) ∈ s.entries := by
    rw [Settings.hasSection_eq_true_iff]
    simp [s.mem_entries]
  rw [Bool.eq_iff_iff, Bool.or_eq_true, ht, hs, List.any_eq_true]
  constructor
  · rintro ⟨it, hit, hname⟩
    have hname := of_decide_eq_true hname
    rcases List.mem_append.1 hit with hit | hit
    · rcases List.mem_append.1 hit with hit | hit
      · rw [topItems] at hit
        split at hit
        · cases hit
        · obtain ⟨_, _, rfl⟩ := List.mem_map.1 hit
          cases hname
      · obtain ⟨p, hp, hit⟩ := List.mem_flatMap.1 hit
        exact .inl (.inr ⟨p, hp, (hpart p it hit).symm.trans hname⟩)
    · obtain ⟨⟨name', keys⟩, hmem, hit⟩ := List.mem_flatMap.1 hit
      have hname' : name' = some name := (hsec _ it hit).symm.trans hname
      exact .inr ⟨keys, hname' ▸ (List.mem_filter.1 hmem).1⟩
  · rintro ((hnone | ⟨p, hp, hname⟩) | ⟨keys, hkeys⟩)
    · cases hnone
    · refine ⟨mergedItem t s p, ?_, decide_eq_true hname⟩
      exact List.mem_append_left _ (List.mem_append_right _
        (List.mem_flatMap.2 ⟨p, hp, List.mem_cons_self⟩))
    · by_cases hname : t.hasSection (some name) = true
      · rcases ht.1 hname with hnone | ⟨p, hp, hname⟩
        · cases hnone
        · refine ⟨mergedItem t s p, ?_, decide_eq_true hname⟩
          exact List.mem_append_left _ (List.mem_append_right _
            (List.mem_flatMap.2 ⟨p, hp, List.mem_cons_self⟩))
      · refine ⟨⟨some name, none⟩, List.mem_append_right _ (List.mem_flatMap.2
          ⟨(some name, keys), List.mem_filter.2 ⟨hkeys, ?_⟩, List.mem_cons_self⟩),
          decide_eq_true rfl⟩
        simpa using hname

end Merged

end Mise.Ini
