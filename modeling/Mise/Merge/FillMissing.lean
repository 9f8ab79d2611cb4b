/-
# Setting only the keys that a file has no value for

`fill_missing` merges what `missing` leaves of a source, so a value that the target
has stays, and a key that it lost comes back.  The merge is the one that overwrites:
nothing is overwritten because nothing that the target has is left to merge.

JSON and TOML files are value trees, and what is printed of them is read back as it
was.  An INI file is its text: what is missing is written line by line, parsed again and
written into the target, and a key that is written with a value goes on with the deeper lines
that come to stand behind it (`fill_missing_loses`).
-/

import Mise.Lib.ValueTreeFill
import Mise.Merge.IniMissing
import Mise.Merge.Structured

namespace Mise

open Lib

/-- `fill_missing`, for a format with its `missing` and `merge`. -/
def fillMissing {δ : Type} (missing : δ → δ → Option δ) (merge : δ → δ → δ) (target source : δ) :
    δ :=
  match missing target source with
  | some missing => merge target missing
  | none => target

theorem fillMissing_of_none {δ : Type} {missing : δ → δ → Option δ} {merge : δ → δ → δ} {t s : δ}
    (h : missing t s = none) : fillMissing missing merge t s = t := by
  rw [fillMissing, h]

/-- A file that is filled in misses nothing: only then did it stay as it was, and it stays
as it is from then on. -/
theorem fillMissing_unchanged {δ : Type} {missing : δ → δ → Option δ} {merge : δ → δ → δ}
    {t s : δ} (h : missing (fillMissing missing merge t s) s = none) :
    (missing t s = none ↔ fillMissing missing merge t s = t) ∧
      fillMissing missing merge (fillMissing missing merge t s) s =
        fillMissing missing merge t s := by
  refine ⟨⟨fillMissing_of_none, fun hfill => ?_⟩, fillMissing_of_none h⟩
  rwa [hfill] at h

/-! ### Value trees -/

section Trees

variable {α : Type}

/-- **Filling in never overrides and always completes**: a value that is not a table stays
and a table stays a table; a path of the source that no value of the target blocks is there,
with the source's value if the target had none. -/
structure FillsMissing (missing : Document α → Document α → Option (Document α))
    (merge : Document α → Document α → Document α) (t s : Document α) : Prop where
  kept : ∀ p v, t.tree.get p = some v → ∃ w,
    (fillMissing missing merge t s).tree.get p = some w ∧ (w = v ∨ v.IsTable ∧ w.IsTable)
  completed : ∀ p v, s.tree.get p = some v → ¬t.tree.Blocks p → ∃ w,
    (fillMissing missing merge t s).tree.get p = some w ∧ (t.tree.get p = none → w = v)
  unchanged : missing t s = none ↔ fillMissing missing merge t s = t
  again : fillMissing missing merge (fillMissing missing merge t s) s =
    fillMissing missing merge t s

/-- What a file lacks of another, if anything. -/
def absentDocument (t s : Document α) : Option (Document α) :=
  if (ValueTree.absentEntries s.entries t.entries).isEmpty then none
  else some ⟨ValueTree.absentEntries s.entries t.entries,
    ValueTree.wf_absentEntries s.wf t.entries⟩

theorem absentDocument_eq_none_iff {t s : Document α} :
    absentDocument t s = none ↔ ValueTree.absentEntries s.entries t.entries = [] := by
  rw [absentDocument, ← List.isEmpty_iff]
  split
  · case isTrue h => exact iff_of_true rfl h
  · case isFalse h => exact iff_of_false (Option.some_ne_none _) h

variable {eq : α → α → Bool} {pick : Option (ValueTree α) → ValueTree α → ValueTree α}
  (hpick : ValueTree.Fair eq pick)

theorem entries_fillMissing (t s : Document α) :
    (fillMissing absentDocument (overlayUnlessContained hpick) t s).entries =
      ValueTree.fillEntries pick t.entries s.entries := by
  rw [fillMissing, absentDocument, ValueTree.fillEntries]
  by_cases hnil : ValueTree.absentEntries s.entries t.entries = []
  · rw [if_pos (List.isEmpty_iff.2 hnil), hnil]
    rfl
  · have hnot : ValueTree.subsetEntries eq (ValueTree.absentEntries s.entries t.entries)
        t.entries ≠ true :=
      ne_true_of_eq_false (ValueTree.subsetEntries_absentEntries s.wf hnil)
    rw [if_neg (mt List.isEmpty_iff.1 hnil)]
    exact congrArg Document.entries (if_neg hnot)

/-- **Overlays fill in what is missing.** -/
theorem fillsMissing_overlay (t s : Document α) :
    FillsMissing absentDocument (overlayUnlessContained hpick) t s := by
  have hfilled : absentDocument
      (fillMissing absentDocument (overlayUnlessContained hpick) t s) s = none := by
    rw [absentDocument_eq_none_iff, entries_fillMissing]
    exact ValueTree.absentEntries_fillEntries hpick s.wf t.entries
  exact
    { kept := fun p v h => by
        rw [Document.tree, entries_fillMissing]
        exact ValueTree.get_fillEntries hpick s.wf h
      completed := fun p v h hblocks => by
        rw [Document.tree, entries_fillMissing]
        exact ValueTree.get_fillEntries_of_get hpick s.wf h hblocks
      unchanged := (fillMissing_unchanged hfilled).1
      again := (fillMissing_unchanged hfilled).2 }

end Trees

/-- `json_missing`. -/
def jsonMissingEntries (source target : Entries JsonScalar) : Entries JsonScalar :=
  ValueTree.absentEntries source target

/-- `missing`, for JSON. -/
def jsonMissing (target source : JsonDocument) : Option JsonDocument :=
  let missing := jsonMissingEntries source.entries target.entries
  if missing.isEmpty then none
  else some ⟨missing, ValueTree.wf_absentEntries source.wf target.entries⟩

/-- `toml_missing`. -/
def tomlMissingEntries (source target : Entries TomlScalar) : Entries TomlScalar :=
  ValueTree.absentEntries source target

/-- `missing`, for TOML. -/
def tomlMissing (target source : TomlDocument) : Option TomlDocument :=
  let missing := tomlMissingEntries source.entries target.entries
  if missing.isEmpty then none
  else some ⟨missing, ValueTree.wf_absentEntries source.wf target.entries⟩

theorem fillsMissing_json (t s : JsonDocument) : FillsMissing jsonMissing jsonMerge t s := by
  rw [jsonMerge_eq_overlay]
  exact fillsMissing_overlay fair_jsonChoice t s

theorem fillsMissing_toml (t s : TomlDocument) : FillsMissing tomlMissing tomlMerge t s :=
  fillsMissing_overlay fair_tomlChoice t s

/-! ### INI -/

namespace Ini

/-- `fill_missing`, for INI files. -/
def fillMissing (target source : List Char) : Except String (List Char) := do
  match ← missing target source with
  | some missing => mergeFile target missing
  | none => return target

/-- What is missing is read as it is written, both on its own and in the target. -/
structure FillReadable (t s : Doc) (absent : Settings) : Prop where
  written : headersFit s.headerIndent none absent.entries = true
  undisturbed : Undisturbed t absent s.headerIndent
  unmarked : ∀ keys ∈ absent.get none, ∀ setting ∈ keys.entries.head?, setting.1.head? ≠ some bom

instance (t s : Doc) (absent : Settings) : Decidable (FillReadable t s absent) :=
  decidable_of_iff (headersFit s.headerIndent none absent.entries = true ∧
      Undisturbed t absent s.headerIndent ∧ ∀ keys ∈ absent.get none,
        ∀ setting ∈ keys.entries.head?, setting.1.head? ≠ some bom)
    ⟨fun ⟨written, undisturbed, unmarked⟩ => ⟨written, undisturbed, unmarked⟩,
      fun h => ⟨h.written, h.undisturbed, h.unmarked⟩⟩

/-- **Filling in an INI file never overrides and always completes.** -/
structure FillsMissing (target source : List Char) (t s : Doc) (r : List Char) (d : Doc) :
    Prop where
  parsed : ∀ what, parse r what = .ok d
  kept : ∀ name key v, t.settings.value name key = some v → d.settings.value name key = some v
  keptSections : ∀ name, t.settings.hasSection name = true → d.settings.hasSection name = true
  completed : ∀ name key v, s.settings.value name key = some v → ∃ w,
    d.settings.value name key = some w ∧ (t.settings.value name key = none → w = v)
  completedSections : ∀ name, s.settings.hasSection name = true → d.settings.hasSection name = true
  unchanged : missing target source = .ok none ↔ r = target
  again : fillMissing r source = .ok r

theorem exists_of_map_eq_ok {α β : Type} {e : Except String α} {f : α → β} {b : β}
    (h : e.map f = .ok b) : ∃ a, e = .ok a ∧ f a = b := by
  cases e with
  | error err => exact nomatch h
  | ok a => exact ⟨a, rfl, Except.ok.inj h⟩

theorem headersFit_congr {i j : Option Line → ℕ}
    {secs : List (Option Line × IndexMap Line (Option Line))}
    (h : ∀ sec ∈ secs, i sec.1 = j sec.1) (above : Option ℕ) :
    headersFit i above secs = headersFit j above secs := by
  induction secs generalizing above with
  | nil => rfl
  | cons sec secs ih =>
    rw [List.forall_mem_cons] at h
    rw [headersFit, headersFit, h.1, ih h.2]

theorem Undisturbed.congr {t : Doc} {m : Settings} {i j : Option Line → ℕ}
    (hm : Undisturbed t m i) (h : ∀ sec ∈ m.entries, j sec.1 = i sec.1) : Undisturbed t m j where
  replaced := hm.replaced
  added := hm.added
  headers := by
    rw [headersFit_congr fun sec hsec => h sec (List.mem_of_mem_filter hsec)]
    exact hm.headers

section Fill

variable {target source : List Char} {t s : Doc}

theorem fillMissing_of_none (h : missing target source = .ok none) :
    fillMissing target source = .ok target := by
  rw [fillMissing, h]
  rfl

/-- All keys that are missing are added. -/
theorem addedKeys_missing {absent : Settings} (habsent : t.settings.missing s.settings = some absent)
    {name : Option Line} {keys : IndexMap Line (Option Line)} (hkeys : absent.get name = some keys) :
    addedKeys t absent name = keys.entries := by
  rw [addedKeys, hkeys]
  refine List.filter_eq_self.2 fun setting hsetting => ?_
  have hvalue : absent.value name setting.1 = some setting.2 :=
    Settings.value_eq_some_iff.2 ⟨keys, hkeys, keys.mem_entries.1 hsetting⟩
  rw [Settings.value_missing habsent, value_settings] at hvalue
  cases hget : t.get name setting.1 with
  | none => rfl
  | some e =>
    rw [hget] at hvalue
    cases hvalue

/-- **A file that is filled in has its own values, and else those of the source.** -/
theorem exists_filled (ht : parse target "target" = .ok t) (hs : parse source "source" = .ok s)
    (h : ∀ absent ∈ t.settings.missing s.settings, FillReadable t s absent) :
    ∃ r d, fillMissing target source = .ok r ∧ Merged r s.settings t.settings d := by
  cases habsent : t.settings.missing s.settings with
  | none =>
    obtain ⟨hsections, hvalues⟩ := Settings.missing_eq_none_iff.1 habsent
    refine ⟨target, t, fillMissing_of_none ((missing_eq_none_iff ht hs).2 habsent), parse_any ht,
      fun name key => ?_, fun name => ?_⟩
    · cases hv : s.settings.value name key with
      | none => exact Option.or_none.symm
      | some v =>
        obtain ⟨w, hw⟩ := Option.isSome_iff_exists.1 (hvalues name key v hv)
        rw [hw, Option.some_or]
    · cases hname : s.settings.hasSection name with
      | true => rw [hsections name hname, Bool.true_or]
      | false => rw [Bool.false_or]
  | some absent =>
    have hreadable := h absent habsent
    obtain ⟨m, written, hmissing, hwritten, rfl, hindents⟩ :=
      exists_parse_missing ht hs habsent hreadable.written hreadable.unmarked
    have hmerge : Readable target t written := by
      refine ⟨hreadable.undisturbed.congr hindents, fun _ _ setting hsetting => ?_⟩
      cases hkeys : written.settings.get none with
      | none =>
        rw [addedKeys, hkeys] at hsetting
        cases hsetting
      | some keys =>
        rw [addedKeys_missing habsent hkeys] at hsetting
        exact hreadable.unmarked keys hkeys setting hsetting
    obtain ⟨r, d, hr, hparsed, hvalue, hsections⟩ :=
      exists_merged_file ht (hwritten "source") fun _ => hmerge
    refine ⟨r, d, ?_, hparsed, fun name key => ?_, fun name => ?_⟩
    · rw [fillMissing, hmissing]
      exact hr
    · rw [hvalue, Settings.value_missing habsent]
      cases t.settings.value name key with
      | none => exact Option.or_none
      | some v => rfl
    · rw [hsections]
      cases hname : t.settings.hasSection name with
      | true => rw [Bool.true_or, Bool.or_true]
      | false => rw [Settings.hasSection_missing habsent hname, Bool.or_comm]

/-- **Filling in what is missing**, where it is read as it is written. -/
theorem exists_fillsMissing (ht : parse target "target" = .ok t)
    (hs : parse source "source" = .ok s)
    (h : ∀ absent ∈ t.settings.missing s.settings, FillReadable t s absent) :
    ∃ r d, fillMissing target source = .ok r ∧ FillsMissing target source t s r d := by
  obtain ⟨r, d, hr, hparsed, hvalue, hsections⟩ := exists_filled ht hs h
  have hnone : missing r source = .ok none := by
    refine (missing_eq_none_iff (hparsed "target") hs).2 ?_
    refine Settings.missing_eq_none_iff.2 ⟨fun name hname => ?_, fun name key v hv => ?_⟩
    · rw [hsections, hname, Bool.true_or]
    · rw [hvalue, hv]
      cases t.settings.value name key <;> rfl
  refine ⟨r, d, hr, hparsed, fun name key v hv => ?_, fun name hname => ?_,
    fun name key v hv => ?_, fun name hname => ?_, ⟨fun hmissing => ?_, ?_⟩,
    fillMissing_of_none hnone⟩
  · rw [hvalue, hv, Option.some_or]
  · rw [hsections, hname, Bool.or_true]
  · rw [hvalue, hv]
    cases t.settings.value name key with
    | none => exact ⟨v, rfl, fun _ => rfl⟩
    | some w => exact ⟨w, rfl, fun hnot => nomatch hnot⟩
  · rw [hsections, hname, Bool.true_or]
  · exact Except.ok.inj (hr.symm.trans (fillMissing_of_none hmissing))
  · rintro rfl
    exact hnone

end Fill

end Ini

/-- **Filling in never overrides and always completes**: in JSON and TOML, and in INI where what
is missing is read as it is written. -/
theorem fill_missing_completes (json jsonSource : JsonDocument) (toml tomlSource : TomlDocument)
    {target source : List Char} {t s : Ini.Doc} (ht : Ini.parse target "target" = .ok t)
    (hs : Ini.parse source "source" = .ok s) :
    FillsMissing jsonMissing jsonMerge json jsonSource ∧
      FillsMissing tomlMissing tomlMerge toml tomlSource ∧
        ((∀ absent ∈ t.settings.missing s.settings, Ini.FillReadable t s absent) →
          ∃ r d, Ini.fillMissing target source = .ok r ∧
            Ini.FillsMissing target source t s r d) :=
  ⟨fillsMissing_json json jsonSource, fillsMissing_toml toml tomlSource,
    Ini.exists_fillsMissing ht hs⟩

/-- A top-level key, a key of a section and a section are filled in. -/
theorem fill_missing_completes_sample : ∃ t s r d,
    Ini.parse "[a]\nbare\n[b]\nx = 1\n".toList "target" = .ok t ∧
      Ini.parse "top = 0\n[a]\nbare = 1\nk = v\n[c]\ny\n".toList "source" = .ok s ∧
      Ini.fillMissing "[a]\nbare\n[b]\nx = 1\n".toList
        "top = 0\n[a]\nbare = 1\nk = v\n[c]\ny\n".toList = .ok r ∧
      Ini.FillsMissing "[a]\nbare\n[b]\nx = 1\n".toList
        "top = 0\n[a]\nbare = 1\nk = v\n[c]\ny\n".toList t s r d := by
  have hreadable : (do
      let t ← Ini.parse "[a]\nbare\n[b]\nx = 1\n".toList "target"
      let s ← Ini.parse "top = 0\n[a]\nbare = 1\nk = v\n[c]\ny\n".toList "source"
      return decide (∀ absent ∈ t.settings.missing s.settings, Ini.FillReadable t s absent)) =
        .ok true := by decide +kernel
  obtain ⟨t, ht, -⟩ := Ini.exists_of_map_eq_ok (show
    (Ini.parse "[a]\nbare\n[b]\nx = 1\n".toList "target").map (fun _ => ()) = .ok () by
      decide +kernel)
  obtain ⟨s, hs, -⟩ := Ini.exists_of_map_eq_ok (show
    (Ini.parse "top = 0\n[a]\nbare = 1\nk = v\n[c]\ny\n".toList "source").map (fun _ => ()) =
      .ok () by decide +kernel)
  rw [ht, hs] at hreadable
  have hempty : ∀ {α : Type}, ValueTree.WF (.table ([] : Entries α)) :=
    .table List.nodup_nil (by simp)
  obtain ⟨r, d, hr, hfills⟩ := (fill_missing_completes ⟨[], hempty⟩ ⟨[], hempty⟩ ⟨[], hempty⟩
    ⟨[], hempty⟩ ht hs).2.2 (of_decide_eq_true (Except.ok.inj hreadable))
  exact ⟨t, s, r, d, ht, hs, hr, hfills⟩

/-- **Filling in can lose values**: the key that it adds goes on with the indented header behind
it. -/
theorem fill_missing_loses : ∃ t s r d,
    Ini.parse "[a]\nbare\n    [b]\nx = 1\n".toList "target" = .ok t ∧
      Ini.parse "[a]\nk = v\n".toList "source" = .ok s ∧
      Ini.fillMissing "[a]\nbare\n    [b]\nx = 1\n".toList "[a]\nk = v\n".toList = .ok r ∧
      Ini.parse r "target" = .ok d ∧
      t.settings.value (some ['b']) ['x'] = some (some ['1']) ∧
      d.settings.value (some ['b']) ['x'] = none ∧
      ¬Ini.FillsMissing "[a]\nbare\n    [b]\nx = 1\n".toList "[a]\nk = v\n".toList t s r d := by
  obtain ⟨t, ht, htx⟩ := Ini.exists_of_map_eq_ok (show
    (Ini.parse "[a]\nbare\n    [b]\nx = 1\n".toList "target").map
      (·.settings.value (some ['b']) ['x']) = .ok (some (some ['1'])) by decide +kernel)
  obtain ⟨s, hs, -⟩ := Ini.exists_of_map_eq_ok (show
    (Ini.parse "[a]\nk = v\n".toList "source").map (fun _ => ()) = .ok () by decide +kernel)
  have hr : Ini.fillMissing "[a]\nbare\n    [b]\nx = 1\n".toList "[a]\nk = v\n".toList =
      .ok "[a]\nbare\nk = v\n    [b]\nx = 1\n".toList := by decide +kernel
  obtain ⟨d, hd, hdx⟩ := Ini.exists_of_map_eq_ok (show
    (Ini.parse "[a]\nbare\nk = v\n    [b]\nx = 1\n".toList "target").map
      (·.settings.value (some ['b']) ['x']) = .ok none by decide +kernel)
  refine ⟨t, s, _, d, ht, hs, hr, hd, htx, hdx, fun h => ?_⟩
  exact nomatch hdx.symm.trans (h.kept _ _ _ htx)

end Mise
