/-
# Sources that no file can hold together

`conflicts` names the paths where two sources set different values.  It is a
recursion of its own, apart from the ones of `contains` and `merge`; here it is
read back as the paths where the sources clash, and with that compared to what
two merges in a row leave contained.

With a value that is not equal to itself a source is never contained, whether it
conflicts or not: in TOML that is a NaN (`conflictsExact_toml_iff`).  In INI a key that
is written goes on with the deeper lines that come to stand behind it, so there both sources
stay contained in the targets that they are merged into safely (`Ini.conflictsExact`).
-/

import Mise.Lib.ValueTreeClash
import Mise.Merge.FillMissing

namespace Mise

open Lib

/-! ### Value trees -/

/-- `child_path`. -/
def childPath (path key : String) : String :=
  if path.isEmpty then key else path ++ "." ++ key

section Trees

variable {α : Type} (eq : α → α → Bool)

mutual

/-- The paths below `path` where two tables conflict, in the order of the first one. -/
def conflictEntries (path : String) : Entries α → Entries α → List String
  | [], _ => []
  | (key, av) :: a, b =>
    ((b.lookup key).elim [] fun bv => conflictValue (childPath path key) av bv) ++
      conflictEntries path a b

/-- The paths at and below `path` where two values conflict. -/
def conflictValue (path : String) : ValueTree α → ValueTree α → List String
  | .table a, .table b => conflictEntries path a b
  | av, bv => if ValueTree.same eq av bv then [] else [path]

end

variable {eq}

theorem mem_conflictEntries {path path' : String} {a b : Entries α} :
    path' ∈ conflictEntries eq path a b ↔ ∃ e ∈ a, ∃ w, b.lookup e.1 = some w ∧
      path' ∈ conflictValue eq (childPath path e.1) e.2 w := by
  induction a with
  | nil => simp [conflictEntries]
  | cons e a ih =>
    rw [conflictEntries, List.mem_append, ih]
    simp only [List.mem_cons, or_and_right, exists_or, exists_eq_left]
    cases b.lookup e.1 <;> simp

theorem conflictValue_of_not_isTable {v w : ValueTree α} (h : ¬(v.IsTable ∧ w.IsTable))
    (path : String) :
    conflictValue eq path v w = if ValueTree.same eq v w then [] else [path] := by
  cases v with
  | leaf a => cases w <;> rfl
  | array items => cases w <;> rfl
  | table s =>
    cases w with
    | leaf a => rfl
    | array items => rfl
    | table t => exact absurd ⟨⟨s, rfl⟩, ⟨t, rfl⟩⟩ h

/-- **The paths of the conflicts are those where the trees clash.** -/
theorem mem_conflictValue_iff {v : ValueTree α} (hv : v.WF) : ∀ {path path' : String}
    {w : ValueTree α}, path' ∈ conflictValue eq path v w ↔
      ∃ p, ValueTree.Clashes eq v w p ∧ path' = p.foldl childPath path := by
  have hone : ∀ {v w : ValueTree α} {path path' : String}, ¬(v.IsTable ∧ w.IsTable) →
      (path' ∈ conflictValue eq path v w ↔
        ∃ p, ValueTree.Clashes eq v w p ∧ path' = p.foldl childPath path) := by
    intro v w path path' hnot
    rw [conflictValue_of_not_isTable hnot]
    simp only [ValueTree.clashes_of_not_isTable hnot]
    cases ValueTree.same eq v w <;> simp
  induction hv with
  | leaf a => exact hone fun h => ValueTree.not_isTable_leaf a h.1
  | @array items _ _ => exact hone fun h => ValueTree.not_isTable_array items h.1
  | @table s hnodup _ ih =>
    intro path path' w
    by_cases hw : w.IsTable
    · obtain ⟨t, rfl⟩ := hw
      rw [conflictValue, mem_conflictEntries]
      constructor
      · rintro ⟨e, he, u, hu, hmem⟩
        obtain ⟨p, hp, rfl⟩ := (ih e he).1 hmem
        have hs := (IndexMap.lookup_eq_some_iff_mem hnodup).2 (show (e.1, e.2) ∈ s from he)
        exact ⟨e.1 :: p, ValueTree.clashes_cons_iff.2 ⟨e.2, u, hs, hu, hp⟩, rfl⟩
      · rintro ⟨p, hp, rfl⟩
        cases p with
        | nil => exact absurd hp (ValueTree.not_clashes_nil s t)
        | cons k p =>
          obtain ⟨v, u, hv, hu, hp⟩ := ValueTree.clashes_cons_iff.1 hp
          have hmem := (IndexMap.lookup_eq_some_iff_mem hnodup).1 hv
          exact ⟨(k, v), hmem, u, hu, (ih (k, v) hmem).2 ⟨p, hp, rfl⟩⟩
    · exact hone fun h => hw h.2

/-- The conflicts of two files. -/
def conflictDocument (eq : α → α → Bool) (a b : Document α) : List String :=
  conflictEntries eq "" a.entries b.entries

theorem mem_conflictDocument_iff {a b : Document α} {path : String} :
    path ∈ conflictDocument eq a b ↔
      ∃ p, ValueTree.Clashes eq a.tree b.tree p ∧ path = p.foldl childPath "" := by
  have h : path ∈ conflictValue eq "" (.table a.entries) (.table b.entries) ↔
      ∃ p, ValueTree.Clashes eq a.tree b.tree p ∧ path = p.foldl childPath "" :=
    mem_conflictValue_iff a.wf
  rwa [conflictValue] at h

theorem conflictDocument_eq_nil_iff {a b : Document α} :
    conflictDocument eq a b = [] ↔ ∀ p, ¬ValueTree.Clashes eq a.tree b.tree p := by
  rw [List.eq_nil_iff_forall_not_mem]
  simp only [mem_conflictDocument_iff, not_exists, not_and]
  exact ⟨fun h p hp => h _ p hp rfl, fun h path p hp => absurd hp (h p)⟩

/-- **Conflicts are exact**: there are none exactly when both sources stay contained in
every target they are merged into, the two orders of merging then give the same values,
and the paths have no direction. -/
structure ConflictsExact (eq : α → α → Bool) (contains : Document α → Document α → Bool)
    (merge : Document α → Document α → Document α)
    (conflicts : Document α → Document α → List String) (a b : Document α) : Prop where
  exact : conflicts a b = [] ↔ ∀ t, contains (merge (merge t a) b) a = true ∧
    contains (merge (merge t a) b) b = true
  commutes : conflicts a b = [] → ∀ t p, ValueTree.Agree eq
    ((merge (merge t a) b).tree.get p) ((merge (merge t b) a).tree.get p)
  symm : ∀ path, path ∈ conflicts a b ↔ path ∈ conflicts b a

variable {pick : Option (ValueTree α) → ValueTree α → ValueTree α} (hpick : ValueTree.Fair eq pick)

/-- A merge leaves contained what its source does not clash with. -/
theorem subset_overlayUnlessContained {a b r : Document α}
    (ha : ValueTree.subset eq a.tree r.tree = true)
    (hclash : ∀ p, ¬ValueTree.Clashes eq a.tree b.tree p) :
    ValueTree.subset eq a.tree (overlayUnlessContained hpick r b).tree = true := by
  rw [overlayUnlessContained]
  split
  · exact ha
  · exact ValueTree.subset_overlay_of_not_clashes hpick a.wf b.wf ha hclash

variable (hsymm : ∀ a b, eq a b = true → eq b a = true)
  (htrans : ∀ a b c, eq a b = true → eq b c = true → eq a c = true)
include hsymm htrans

/-- **Two sources that do not clash are both contained.** -/
theorem subset_merge_merge {a b : Document α} (ha : ValueTree.Proper eq a.tree)
    (hb : ValueTree.Proper eq b.tree) (hclash : ∀ p, ¬ValueTree.Clashes eq a.tree b.tree p)
    (t : Document α) :
    ValueTree.subset eq a.tree (overlayUnlessContained hpick
        (overlayUnlessContained hpick t a) b).tree = true ∧
      ValueTree.subset eq b.tree (overlayUnlessContained hpick
        (overlayUnlessContained hpick t a) b).tree = true := by
  refine ⟨subset_overlayUnlessContained hpick ?_ hclash, ?_⟩
  · exact ((mergesKeys_iff hpick hsymm htrans t a).2 ha).contained
  · exact ((mergesKeys_iff hpick hsymm htrans _ b).2 hb).contained

/-- **Two sources that do not clash can be merged in any order.** -/
theorem agree_merge_merge {a b : Document α} (ha : ValueTree.Proper eq a.tree)
    (hb : ValueTree.Proper eq b.tree) (hclash : ∀ p, ¬ValueTree.Clashes eq a.tree b.tree p)
    (t : Document α) (p : List String) :
    ValueTree.Agree eq
      ((overlayUnlessContained hpick (overlayUnlessContained hpick t a) b).tree.get p)
      ((overlayUnlessContained hpick (overlayUnlessContained hpick t b) a).tree.get p) := by
  have hclash' : ∀ p, ¬ValueTree.Clashes eq b.tree a.tree p := fun p hp =>
    hclash p (ValueTree.clashes_symm hsymm b.wf a.wf hp)
  have hab := subset_merge_merge hpick hsymm htrans ha hb hclash t
  have hba := subset_merge_merge hpick hsymm htrans hb ha hclash' t
  by_cases hpa : a.tree.Sets p
  · exact ValueTree.agree_of_subset hsymm htrans a.wf (Document.wf _) hab.1 hba.2 hpa
  · by_cases hpb : b.tree.Sets p
    · exact ValueTree.agree_of_subset hsymm htrans b.wf (Document.wf _) hab.2 hba.1 hpb
    · have hmerge : ∀ t : Document α,
          MergesKeys eq _ (overlayUnlessContained hpick) t a ∧
            MergesKeys eq _ (overlayUnlessContained hpick) t b := fun t =>
        ⟨(mergesKeys_iff hpick hsymm htrans t a).2 ha, (mergesKeys_iff hpick hsymm htrans t b).2 hb⟩
      rw [(hmerge _).2.frame p hpb, (hmerge t).1.frame p hpa, (hmerge _).1.frame p hpa,
        (hmerge t).2.frame p hpb]
      exact .refl _

/-- **Conflicts are exact for sources that are equal to themselves, and for those that
clash anyway.** -/
theorem conflictsExact_iff (a b : Document α) :
    ConflictsExact eq (fun t s => ValueTree.subsetEntries eq s.entries t.entries)
        (overlayUnlessContained hpick) (conflictDocument eq) a b ↔
      ValueTree.Proper eq a.tree ∧ ValueTree.Proper eq b.tree ∨
        ∃ p, ValueTree.Clashes eq a.tree b.tree p := by
  constructor
  · intro h
    by_cases hclash : ∃ p, ValueTree.Clashes eq a.tree b.tree p
    · exact .inr hclash
    · rw [not_exists] at hclash
      obtain ⟨ha, hb⟩ := h.exact.1 (conflictDocument_eq_nil_iff.2 hclash) a
      exact .inl ⟨ValueTree.proper_of_subset htrans hsymm a.wf (Document.wf _) ha,
        ValueTree.proper_of_subset htrans hsymm b.wf (Document.wf _) hb⟩
  · intro h
    have hproper : conflictDocument eq a b = [] →
        ValueTree.Proper eq a.tree ∧ ValueTree.Proper eq b.tree := by
      intro hnil
      rcases h with h | ⟨p, hp⟩
      · exact h
      · exact absurd hp (conflictDocument_eq_nil_iff.1 hnil p)
    constructor
    · constructor
      · intro hnil t
        obtain ⟨ha, hb⟩ := hproper hnil
        exact subset_merge_merge hpick hsymm htrans ha hb (conflictDocument_eq_nil_iff.1 hnil) t
      · intro hcontained
        obtain ⟨ha, hb⟩ := hcontained a
        exact conflictDocument_eq_nil_iff.2
          (ValueTree.not_clashes_of_subset hsymm htrans a.wf b.wf (Document.wf _) ha hb)
    · intro hnil t p
      obtain ⟨ha, hb⟩ := hproper hnil
      exact agree_merge_merge hpick hsymm htrans ha hb (conflictDocument_eq_nil_iff.1 hnil) t p
    · intro path
      rw [mem_conflictDocument_iff, mem_conflictDocument_iff]
      refine exists_congr fun p => and_congr_left' ⟨?_, ?_⟩
      · exact ValueTree.clashes_symm hsymm a.wf b.wf
      · exact ValueTree.clashes_symm hsymm b.wf a.wf

end Trees

/-- `json_conflicts`. -/
def jsonConflicts (path : String) : JsonValue → JsonValue → List String
  | .table a, .table b => conflictEntries JsonScalar.eq path a b
  | _, _ => []

/-- `toml_conflicts`. -/
def tomlConflicts (path : String) (a b : Entries TomlScalar) : List String :=
  conflictEntries TomlScalar.eq path a b

theorem conflictsExact_json (a b : JsonDocument) :
    ConflictsExact JsonScalar.eq jsonContains jsonMerge
      (fun a b => jsonConflicts "" a.tree b.tree) a b := by
  rw [jsonMerge_eq_overlay, jsonContains_eq_subset]
  exact (conflictsExact_iff fair_jsonChoice JsonScalar.eq_symm JsonScalar.eq_trans a b).2
    (.inl ⟨proper_json a.wf, proper_json b.wf⟩)

/-- **TOML conflicts are exact without a NaN, and for sources that conflict.** -/
theorem conflictsExact_toml_iff (a b : TomlDocument) :
    ConflictsExact TomlScalar.eq tomlContains tomlMerge
        (fun a b => tomlConflicts "" a.entries b.entries) a b ↔
      NoNan a.tree ∧ NoNan b.tree ∨
        ∃ p, ValueTree.Clashes TomlScalar.eq a.tree b.tree p := by
  have h := conflictsExact_iff fair_tomlChoice TomlScalar.eq_symm TomlScalar.eq_trans a b
  exact h.trans (or_congr (and_congr (proper_toml_iff a.wf) (proper_toml_iff b.wf)) Iff.rfl)

/-! ### INI -/

namespace Ini

/-- The name of a key in `conflicts`. -/
def conflictPath (name : Option Line) (key : Line) : Line :=
  match name with
  | some name => name ++ '.' :: key
  | none => key

/-- `conflicts`. -/
def conflicts (a b : List Char) : Except String (List Line) := do
  let a ← parse a "source"
  let b ← parse b "source"
  let other := b.effective
  return a.effective.entries.flatMap fun sec =>
    (other.get sec.1).elim [] fun keys =>
      (sec.2.entries.filter fun setting =>
        (keys.get setting.1).any (·.value ≠ setting.2.value)).map fun setting =>
          conflictPath sec.1 setting.1

/-- `conflicts`, of the values of two files. -/
def Settings.conflicts (a b : Settings) : List Line :=
  a.entries.flatMap fun sec =>
    (b.get sec.1).elim [] fun keys =>
      (sec.2.entries.filter fun setting => (keys.get setting.1).any (· ≠ setting.2)).map
        fun setting => conflictPath sec.1 setting.1

/-- **`conflicts` is about the values of the two files.** -/
theorem conflicts_eq {source other : List Char} {a b : Doc} (ha : parse source "source" = .ok a)
    (hb : parse other "source" = .ok b) :
    conflicts source other = .ok (a.settings.conflicts b.settings) := by
  rw [conflicts, ha, hb]
  show Except.ok _ = Except.ok _
  congr 1
  have hsections : a.settings.entries =
      a.effective.entries.map fun sec => (sec.1, sec.2.mapValues (·.value)) := rfl
  have hother : ∀ name, b.settings.get name =
      (b.effective.get name).map fun keys => keys.mapValues (·.value) := fun name =>
    IndexMap.get_mapValues _ _ name
  rw [Settings.conflicts, hsections, List.flatMap_map]
  congr 1
  funext sec
  rw [hother, IndexMap.mapValues]
  cases b.effective.get sec.1 with
  | none => rfl
  | some keys =>
    rw [Option.map_some, Option.elim_some, Option.elim_some, List.filter_map, List.map_map]
    refine congrArg _ (List.filter_congr fun setting _ => ?_)
    rw [Function.comp_apply, IndexMap.get_mapValues, Option.any_map]

namespace Settings

/-- **The paths of the conflicts are the keys with two values.** -/
theorem mem_conflicts_iff {a b : Settings} {path : Line} : path ∈ a.conflicts b ↔
    ∃ name key v w, a.value name key = some v ∧ b.value name key = some w ∧ v ≠ w ∧
      path = conflictPath name key := by
  rw [conflicts, List.mem_flatMap]
  constructor
  · rintro ⟨⟨name, keys⟩, hsec, hmem⟩
    cases hb : b.get name with
    | none =>
      rw [hb] at hmem
      exact absurd hmem List.not_mem_nil
    | some other =>
      rw [hb, Option.elim_some, List.mem_map] at hmem
      obtain ⟨⟨key, v⟩, hsetting, rfl⟩ := hmem
      obtain ⟨hsetting, hany⟩ := List.mem_filter.1 hsetting
      obtain ⟨w, hw, hne⟩ := (Option.any_eq_true _ _).1 hany
      refine ⟨name, key, v, w, value_eq_some_iff.2 ⟨keys, a.mem_entries.1 hsec, ?_⟩,
        value_eq_some_iff.2 ⟨other, hb, hw⟩, (of_decide_eq_true hne).symm, rfl⟩
      exact keys.mem_entries.1 hsetting
  · rintro ⟨name, key, v, w, hv, hw, hne, rfl⟩
    obtain ⟨keys, hkeys, hv⟩ := value_eq_some_iff.1 hv
    obtain ⟨other, hother, hw⟩ := value_eq_some_iff.1 hw
    refine ⟨(name, keys), a.mem_entries.2 hkeys, ?_⟩
    rw [hother, Option.elim_some, List.mem_map]
    refine ⟨(key, v), List.mem_filter.2 ⟨keys.mem_entries.2 hv, ?_⟩, rfl⟩
    exact (Option.any_eq_true _ _).2 ⟨w, hw, decide_eq_true hne.symm⟩

theorem conflicts_eq_nil_iff {a b : Settings} : a.conflicts b = [] ↔
    ∀ name key v w, a.value name key = some v → b.value name key = some w → v = w := by
  rw [List.eq_nil_iff_forall_not_mem]
  constructor
  · intro h name key v w hv hw
    by_contra hne
    exact h _ (mem_conflicts_iff.2 ⟨name, key, v, w, hv, hw, hne, rfl⟩)
  · intro h path hmem
    obtain ⟨name, key, v, w, hv, hw, hne, -⟩ := mem_conflicts_iff.1 hmem
    exact hne (h name key v w hv hw)

end Settings

/-- A merge finds the values in its target, or is read as it is written. -/
def Safe (target source : List Char) : Prop :=
  ∀ t s, parse target "target" = .ok t → parse source "source" = .ok s →
    t.settings.contains s.settings = false → Readable target t s

/-- Two merges in a row. -/
def mergeBoth (target a b : List Char) : Except String (List Char) := do
  let r ← mergeFile target a
  mergeFile r b

/-- Two merges in a row are safe, each in the target that it is given. -/
def SafeBoth (target a b : List Char) : Prop :=
  Safe target a ∧ ∀ r, mergeFile target a = .ok r → Safe r b

instance (target source : List Char) : Decidable (Safe target source) :=
  match ht : parse target "target", hs : parse source "source" with
  | .ok t, .ok s =>
    decidable_of_iff (t.settings.contains s.settings = false → Readable target t s)
      ⟨fun h _ _ ht' hs' => Except.ok.inj (ht.symm.trans ht') ▸
        Except.ok.inj (hs.symm.trans hs') ▸ h, fun h => h t s ht hs⟩
  | .error _, _ => isTrue fun _ _ ht' _ => nomatch ht.symm.trans ht'
  | .ok _, .error _ => isTrue fun _ _ _ hs' => nomatch hs.symm.trans hs'

instance (target a b : List Char) : Decidable (SafeBoth target a b) :=
  match hr : mergeFile target a with
  | .ok r =>
    decidable_of_iff (Safe target a ∧ Safe r b)
      ⟨fun h => ⟨h.1, fun _ hr' => Except.ok.inj (hr.symm.trans hr') ▸ h.2⟩,
        fun h => ⟨h.1, h.2 r hr⟩⟩
  | .error _ =>
    decidable_of_iff (Safe target a)
      ⟨fun h => ⟨h, fun _ hr' => nomatch hr.symm.trans hr'⟩, fun h => h.1⟩

/-- **Conflicts of INI files are exact**: they are the same in both directions, no file has the
values of two sources that conflict, and sources that do not conflict are both contained
after two safe merges, whose order does not matter. -/
structure ConflictsExact (a b : List Char) (paths : List Line) : Prop where
  listed : conflicts a b = .ok paths
  symm : ∃ other, conflicts b a = .ok other ∧ ∀ path, path ∈ paths ↔ path ∈ other
  conflicting : paths ≠ [] → ∀ r, ¬(contains r a = .ok true ∧ contains r b = .ok true)
  contained : paths = [] → ∀ target t, parse target "target" = .ok t → SafeBoth target a b →
    ∃ r, mergeBoth target a b = .ok r ∧ contains r a = .ok true ∧ contains r b = .ok true
  commutes : paths = [] → ∀ target t, parse target "target" = .ok t → SafeBoth target a b →
    SafeBoth target b a → ∃ r r' d d', mergeBoth target a b = .ok r ∧
      mergeBoth target b a = .ok r' ∧ parse r "target" = .ok d ∧ parse r' "target" = .ok d' ∧
      (∀ name, d.settings.hasSection name = d'.settings.hasSection name) ∧
      ∀ name key, d.settings.value name key = d'.settings.value name key

section Texts

variable {a b target : List Char} {t sa sb : Doc}

/-- The values of a file after two safe merges. -/
theorem exists_mergedBoth (ht : parse target "target" = .ok t) (ha : parse a "source" = .ok sa)
    (hb : parse b "source" = .ok sb) (hsafe : SafeBoth target a b) :
    ∃ r d, mergeBoth target a b = .ok r ∧ (∀ what, parse r what = .ok d) ∧
      (∀ name key, d.settings.value name key = (sb.settings.value name key).or
        ((sa.settings.value name key).or (t.settings.value name key))) ∧
      ∀ name, d.settings.hasSection name = (t.settings.hasSection name ||
        sa.settings.hasSection name || sb.settings.hasSection name) := by
  obtain ⟨r, d, hr, hparsed, hvalue, hsections⟩ := exists_merged_file ht ha (hsafe.1 t sa ht ha)
  obtain ⟨r', d', hr', hparsed', hvalue', hsections'⟩ := exists_merged_file (hparsed "target") hb
    (hsafe.2 r hr d sb (hparsed "target") hb)
  refine ⟨r', d', ?_, hparsed', fun name key => ?_, fun name => ?_⟩
  · rw [mergeBoth, hr]
    exact hr'
  · rw [hvalue', hvalue]
  · rw [hsections', hsections]

/-- A source that is contained in a text has its values there. -/
theorem value_of_contains {r source : List Char} {s : Doc} (hs : parse source "source" = .ok s)
    (h : contains r source = .ok true) : ∃ d, parse r "target" = .ok d ∧
      ∀ name key v, s.settings.value name key = some v → d.settings.value name key = some v := by
  cases hr : parse r "target" with
  | error err =>
    rw [contains, hr] at h
    cases h
  | ok d =>
    rw [contains_eq hr hs] at h
    exact ⟨d, rfl, (Settings.contains_iff.1 (Except.ok.inj h)).2⟩

/-- **When conflicts of INI files are exact.** -/
theorem conflictsExact (ha : parse a "source" = .ok sa) (hb : parse b "source" = .ok sb) :
    ConflictsExact a b (sa.settings.conflicts sb.settings) where
  listed := conflicts_eq ha hb
  symm := by
    refine ⟨_, conflicts_eq hb ha, fun path => ?_⟩
    rw [Settings.mem_conflicts_iff, Settings.mem_conflicts_iff]
    constructor
    · rintro ⟨name, key, v, w, hv, hw, hne, rfl⟩
      exact ⟨name, key, w, v, hw, hv, hne.symm, rfl⟩
    · rintro ⟨name, key, v, w, hv, hw, hne, rfl⟩
      exact ⟨name, key, w, v, hw, hv, hne.symm, rfl⟩
  conflicting := by
    rintro hne r ⟨hca, hcb⟩
    obtain ⟨d, hd, hva⟩ := value_of_contains ha hca
    obtain ⟨d', hd', hvb⟩ := value_of_contains hb hcb
    obtain rfl := Except.ok.inj (hd.symm.trans hd')
    refine hne (Settings.conflicts_eq_nil_iff.2 fun name key v w hv hw => ?_)
    exact Option.some.inj ((hva name key v hv).symm.trans (hvb name key w hw))
  contained := by
    intro hnil target t ht hsafe
    obtain ⟨r, d, hr, hparsed, hvalue, hsections⟩ := exists_mergedBoth ht ha hb hsafe
    refine ⟨r, hr, ?_, ?_⟩
    · rw [contains_eq (hparsed "target") ha]
      refine congrArg Except.ok (Settings.contains_iff.2 ⟨fun name hname => ?_,
        fun name key v hv => ?_⟩)
      · rw [hsections, hname, Bool.or_true, Bool.true_or]
      · rw [hvalue, hv]
        cases hw : sb.settings.value name key with
        | none => rfl
        | some w => rw [Settings.conflicts_eq_nil_iff.1 hnil name key v w hv hw, Option.some_or]
    · rw [contains_eq (hparsed "target") hb]
      refine congrArg Except.ok (Settings.contains_iff.2 ⟨fun name hname => ?_,
        fun name key v hv => ?_⟩)
      · rw [hsections, hname, Bool.or_true]
      · rw [hvalue, hv, Option.some_or]
  commutes := by
    intro hnil target t ht hab hba
    obtain ⟨r, d, hr, hparsed, hvalue, hsections⟩ := exists_mergedBoth ht ha hb hab
    obtain ⟨r', d', hr', hparsed', hvalue', hsections'⟩ := exists_mergedBoth ht hb ha hba
    refine ⟨r, r', d, d', hr, hr', hparsed "target", hparsed' "target", fun name => ?_,
      fun name key => ?_⟩
    · rw [hsections, hsections', Bool.or_assoc, Bool.or_assoc,
        Bool.or_comm (sa.settings.hasSection name)]
    · rw [hvalue, hvalue']
      cases hv : sa.settings.value name key with
      | none => rw [Option.none_or, Option.none_or]
      | some v =>
        cases hw : sb.settings.value name key with
        | none => rw [Option.none_or, Option.none_or]
        | some w => rw [Settings.conflicts_eq_nil_iff.1 hnil name key v w hv hw, Option.some_or]

end Texts

end Ini

/-! ### All formats -/

/-- **When conflicts are exact**: always in JSON, in TOML when neither source has a NaN or the
sources clash, and in INI for targets that both are merged into safely. -/
theorem conflicts_exact_iff (json jsonOther : JsonDocument) (toml tomlOther : TomlDocument)
    {a b : List Char} {sa sb : Ini.Doc} (ha : Ini.parse a "source" = .ok sa)
    (hb : Ini.parse b "source" = .ok sb) :
    ConflictsExact JsonScalar.eq jsonContains jsonMerge
        (fun a b => jsonConflicts "" a.tree b.tree) json jsonOther ∧
      (ConflictsExact TomlScalar.eq tomlContains tomlMerge
          (fun a b => tomlConflicts "" a.entries b.entries) toml tomlOther ↔
        NoNan toml.tree ∧ NoNan tomlOther.tree ∨
          ∃ p, ValueTree.Clashes TomlScalar.eq toml.tree tomlOther.tree p) ∧
      ∃ paths, Ini.ConflictsExact a b paths :=
  ⟨conflictsExact_json json jsonOther, conflictsExact_toml_iff toml tomlOther,
    _, Ini.conflictsExact ha hb⟩

/-- Two sources with a key each for one section, which are merged safely in both orders. -/
theorem conflicts_exact_sample : ∃ r,
    Ini.conflicts "[s]\nk = v\n".toList "[s]\nj = w\n[u]\n".toList = .ok [] ∧
      Ini.mergeBoth "[s]\nbare\n".toList "[s]\nk = v\n".toList
        "[s]\nj = w\n[u]\n".toList = .ok r ∧
      Ini.contains r "[s]\nk = v\n".toList = .ok true ∧
      Ini.contains r "[s]\nj = w\n[u]\n".toList = .ok true := by
  obtain ⟨t, ht, -⟩ := Ini.exists_of_map_eq_ok (show
    (Ini.parse "[s]\nbare\n".toList "target").map (fun _ => ()) = .ok () by decide +kernel)
  obtain ⟨sa, ha, -⟩ := Ini.exists_of_map_eq_ok (show
    (Ini.parse "[s]\nk = v\n".toList "source").map (fun _ => ()) = .ok () by decide +kernel)
  obtain ⟨sb, hb, -⟩ := Ini.exists_of_map_eq_ok (show
    (Ini.parse "[s]\nj = w\n[u]\n".toList "source").map (fun _ => ()) = .ok () by decide +kernel)
  have hnone : Ini.conflicts "[s]\nk = v\n".toList "[s]\nj = w\n[u]\n".toList = .ok [] := by
    decide +kernel
  have hempty : ∀ {α : Type}, ValueTree.WF (.table ([] : Entries α)) :=
    .table List.nodup_nil (by simp)
  obtain ⟨-, -, paths, hexact⟩ := conflicts_exact_iff ⟨[], hempty⟩ ⟨[], hempty⟩ ⟨[], hempty⟩
    ⟨[], hempty⟩ ha hb
  have hpaths : paths = [] := Except.ok.inj (hexact.listed.symm.trans hnone)
  obtain ⟨r, hr, hca, hcb⟩ := hexact.contained hpaths _ t ht (by decide +kernel)
  exact ⟨r, hnone, hr, hca, hcb⟩

/-- A file without keys. -/
def emptyDocument : TomlDocument where
  entries := []
  wf := .table List.nodup_nil (by simp)

/-- **Conflicts are not exact.**  A NaN conflicts with nothing in a source without keys, and is
still not contained after both were merged; and a key of an INI file that gets its value from
the first source goes on with the deeper line behind it. -/
theorem uncontained_without_conflict :
    (tomlConflicts "" nanDocument.entries emptyDocument.entries = [] ∧
      tomlContains (tomlMerge (tomlMerge emptyDocument nanDocument) emptyDocument) nanDocument =
        false ∧
      ¬ConflictsExact TomlScalar.eq tomlContains tomlMerge
        (fun a b => tomlConflicts "" a.entries b.entries) nanDocument emptyDocument) ∧
    ∃ r, Ini.conflicts "[s]\nbare = v\n".toList [] = .ok [] ∧
      Ini.mergeBoth "[s]\nbare\n  deeper = 1\n".toList "[s]\nbare = v\n".toList [] = .ok r ∧
      Ini.contains r "[s]\nbare = v\n".toList = .ok false := by
  have hnone : tomlConflicts "" nanDocument.entries emptyDocument.entries = [] := rfl
  have hmissing : tomlContains
      (tomlMerge (tomlMerge emptyDocument nanDocument) emptyDocument) nanDocument = false := by
    decide +kernel
  refine ⟨⟨hnone, hmissing, fun h => ?_⟩, ?_⟩
  · have hcontained := (h.exact.1 hnone emptyDocument).1
    exact Bool.false_ne_true (hmissing.symm.trans hcontained)
  · exact ⟨"[s]\nbare = v\n  deeper = 1\n".toList, by decide +kernel, by decide +kernel,
      by decide +kernel⟩

end Mise
