/-
# What an INI file sets

The value of a key is its last one in any section of that name, so a file comes to
a map of sections to maps of keys (`Settings`).  `contains` reads a file through
that map alone (`contains_eq`).
-/

import Mathlib.Data.List.Induction
import Mise.Merge.IniFrame

namespace Mise.Ini

open Lib

/-! ### The text -/

/-- The turn of `missing` for one section. -/
def missingSection (t s : Doc) (out : List Line) (sec : Option Line × IndexMap Line Entry) :
    List Line :=
  let present := t.hasSection sec.1
  let absent := (sec.2.entries.map Prod.snd).filter fun e =>
    !present || (t.get sec.1 e.key).isNone
  if present && absent.isEmpty then
    out
  else
    let header := match sec.1 with
      | some name => (if out.isEmpty then [] else [[]]) ++ [s.headerLine name]
      | none => []
    out ++ header ++ absent.flatMap fun e => s.entryLines e []

/-- `missing`. -/
def missing (target source : List Char) : Except String (Option (List Char)) := do
  let t ← parse target "target"
  let s ← parse source "source"
  let out := s.effective.entries.foldl (missingSection t s) []
  return if out.isEmpty then none else some (['\n'].intercalate out ++ ['\n'])

/-! ### The values of a file -/

/-- The values of the keys of each section. -/
abbrev Settings := IndexMap (Option Line) (IndexMap Line (Option Line))

namespace Settings

/-- Whether there is a section; the keys before the first header need none. -/
def hasSection (m : Settings) (name : Option Line) : Bool := name.isNone || m.containsKey name

/-- The value that a key is set to. -/
def value (m : Settings) (name : Option Line) (key : Line) : Option (Option Line) :=
  (m.get name).bind (·.get key)

/-- `contains`. -/
def contains (t s : Settings) : Bool :=
  s.entries.all fun sec => t.hasSection sec.1 &&
    sec.2.entries.all fun setting => t.value sec.1 setting.1 = some setting.2

/-- What `missing` writes of one section. -/
def missingKeys (t : Settings) (name : Option Line) (keys : IndexMap Line (Option Line)) :
    Option (IndexMap Line (Option Line)) :=
  let absent := keys.filterKeys fun key => !t.hasSection name || (t.value name key).isNone
  if t.hasSection name && absent.entries.isEmpty then none else some absent

/-- `missing`. -/
def missing (t s : Settings) : Option Settings :=
  let out := s.filterMapWithKey t.missingKeys
  if out.entries.isEmpty then none else some out

end Settings

/-- The values of a file. -/
def Doc.settings (d : Doc) : Settings :=
  d.effective.mapValues fun keys => keys.mapValues (·.value)

namespace Settings

/-! ### What is set -/

theorem hasSection_eq_true_iff {m : Settings} {name : Option Line} :
    m.hasSection name = true ↔ name = none ∨ ∃ keys, m.get name = some keys := by
  rw [hasSection, Bool.or_eq_true, Option.isNone_iff_eq_none, IndexMap.containsKey,
    Option.isSome_iff_exists]

theorem value_eq_some_iff {m : Settings} {name : Option Line} {key : Line} {v : Option Line} :
    m.value name key = some v ↔ ∃ keys, m.get name = some keys ∧ keys.get key = some v :=
  Option.bind_eq_some_iff

theorem hasSection_of_value {m : Settings} {name : Option Line} {key : Line} {v : Option Line}
    (h : m.value name key = some v) : m.hasSection name = true := by
  obtain ⟨keys, hkeys, -⟩ := value_eq_some_iff.1 h
  exact hasSection_eq_true_iff.2 (.inr ⟨keys, hkeys⟩)

/-- What holds of every section and its keys. -/
theorem forall_sections_iff {t s : Settings} {P : Option Line → Line → Option Line → Prop} :
    (∀ name keys, s.get name = some keys →
      t.hasSection name = true ∧ ∀ key v, keys.get key = some v → P name key v) ↔
    (∀ name, s.hasSection name = true → t.hasSection name = true) ∧
      ∀ name key v, s.value name key = some v → P name key v := by
  constructor
  · intro h
    refine ⟨fun name hname => ?_, fun name key v hv => ?_⟩
    · rcases hasSection_eq_true_iff.1 hname with rfl | ⟨keys, hkeys⟩
      · rfl
      · exact (h name keys hkeys).1
    · obtain ⟨keys, hkeys, hkey⟩ := value_eq_some_iff.1 hv
      exact (h name keys hkeys).2 key v hkey
  · rintro ⟨hsections, hvalues⟩ name keys hkeys
    exact ⟨hsections name (hasSection_eq_true_iff.2 (.inr ⟨keys, hkeys⟩)),
      fun key v hkey => hvalues name key v (value_eq_some_iff.2 ⟨keys, hkeys, hkey⟩)⟩

/-- **What is contained is set, and its sections are there.** -/
theorem contains_iff {t s : Settings} : t.contains s = true ↔
    (∀ name, s.hasSection name = true → t.hasSection name = true) ∧
      ∀ name key v, s.value name key = some v → t.value name key = some v := by
  rw [← forall_sections_iff]
  simp only [contains, List.all_eq_true, Prod.forall, IndexMap.mem_entries, Bool.and_eq_true,
    decide_eq_true_eq]

/-- The key of a section that is not there has no value. -/
theorem isAbsent_eq (t : Settings) (name : Option Line) (key : Line) :
    (!t.hasSection name || (t.value name key).isNone) = (t.value name key).isNone := by
  cases hv : t.value name key with
  | none => exact Bool.or_true _
  | some v =>
    rw [hasSection_of_value hv]
    rfl

/-- A section is left out when it is there and has all keys. -/
theorem missingKeys_eq_none_iff {t : Settings} {name : Option Line}
    {keys : IndexMap Line (Option Line)} : t.missingKeys name keys = none ↔
      t.hasSection name = true ∧ ∀ key v, keys.get key = some v → (t.value name key).isSome := by
  have hempty : (keys.filterKeys fun key =>
      !t.hasSection name || (t.value name key).isNone).entries = [] ↔
        ∀ key v, keys.get key = some v → (t.value name key).isSome := by
    simp only [isAbsent_eq, IndexMap.filterKeys, List.filter_eq_nil_iff, Prod.forall,
      IndexMap.mem_entries, Option.isNone_iff_eq_none, Option.isSome_iff_ne_none, Ne]
  rw [missingKeys, ← hempty, ← List.isEmpty_iff, ← Bool.and_eq_true]
  split
  · case isTrue h => exact iff_of_true rfl h
  · case isFalse h => exact iff_of_false (Option.some_ne_none _) h

/-- The keys that are left of a section. -/
theorem get_missingKeys (t : Settings) (name : Option Line) (keys : IndexMap Line (Option Line))
    (key : Line) : (t.missingKeys name keys).bind (·.get key) =
      if (t.value name key).isNone then keys.get key else none := by
  have hget := IndexMap.get_filterKeys keys
    (fun key => !t.hasSection name || (t.value name key).isNone) key
  rw [isAbsent_eq] at hget
  rw [← hget, missingKeys]
  split
  · case isTrue h =>
    have hnil := List.isEmpty_iff.1 (Bool.and_eq_true_iff.1 h).2
    rw [IndexMap.get, hnil]
    rfl
  · rfl

/-- **Nothing is missing when every section and key is there.** -/
theorem missing_eq_none_iff {t s : Settings} : t.missing s = none ↔
    (∀ name, s.hasSection name = true → t.hasSection name = true) ∧
      ∀ name key v, s.value name key = some v → (t.value name key).isSome := by
  have hnil : t.missing s = none ↔
      ∀ name keys, s.get name = some keys → t.missingKeys name keys = none := by
    have hentries : (s.filterMapWithKey t.missingKeys).entries = [] ↔
        ∀ name keys, s.get name = some keys → t.missingKeys name keys = none := by
      simp only [IndexMap.filterMapWithKey, List.filterMap_eq_nil_iff, Option.map_eq_none_iff,
        Prod.forall, IndexMap.mem_entries]
    rw [missing, ← hentries, ← List.isEmpty_iff]
    split
    · case isTrue h => exact iff_of_true rfl h
    · case isFalse h => exact iff_of_false (Option.some_ne_none _) h
  rw [hnil, ← forall_sections_iff]
  simp only [missingKeys_eq_none_iff]

theorem eq_of_missing {t s m : Settings} (h : t.missing s = some m) :
    m = s.filterMapWithKey t.missingKeys := by
  rw [missing] at h
  split at h
  · exact nomatch h
  · exact (Option.some.inj h).symm

/-- **The values that are missing.** -/
theorem value_missing {t s m : Settings} (h : t.missing s = some m) (name : Option Line)
    (key : Line) :
    m.value name key = if (t.value name key).isNone then s.value name key else none := by
  rw [eq_of_missing h, value, IndexMap.get_filterMapWithKey, Option.bind_assoc, value.eq_1 s]
  cases s.get name with
  | none => exact (ite_self _).symm
  | some keys => exact get_missingKeys t name keys key

/-- **The sections that are missing.** -/
theorem hasSection_missing {t s m : Settings} (h : t.missing s = some m) {name : Option Line}
    (hname : t.hasSection name = false) : m.hasSection name = s.hasSection name := by
  rw [eq_of_missing h, hasSection, hasSection, IndexMap.containsKey, IndexMap.containsKey,
    IndexMap.get_filterMapWithKey]
  cases hkeys : s.get name with
  | none => rfl
  | some keys =>
    have hsome : (t.missingKeys name keys).isSome := by
      rw [Option.isSome_iff_ne_none, Ne, missingKeys_eq_none_iff, hname]
      exact fun hnot => Bool.false_ne_true hnot.1
    rw [Option.bind_some, hsome]
    rfl

end Settings

/-! ### A file is read through its values -/

/-- A section with a name has a header. -/
def Titled (sections : List Section) : Prop :=
  ∀ sec ∈ sections, sec.name.isSome → sec.header.isSome

/-- One line keeps the sections titled. -/
theorem Titled.step {st st' : ParseState} {i : ℕ} {line : Line}
    (hst : Titled (st.sections ++ [st.current])) (h : LineStep st i line st') :
    Titled (st'.sections ++ [st'.current]) := by
  have hwith : ∀ entries : List Entry,
      Titled (st.sections ++ [{ st.current with entries := entries }]) := by
    intro entries sec hsec
    rcases List.mem_append.1 hsec with hsec | hsec
    · exact hst sec (List.mem_append_left _ hsec)
    · rw [List.mem_singleton.1 hsec]
      exact hst st.current (by simp)
  cases h with
  | blank hline => exact hst
  | comment hblank hline => exact hst
  | continues hline hcontinues => exact hwith _
  | header hline hcontinues hbracket hname hne =>
    intro sec hsec
    rcases List.mem_append.1 hsec with hsec | hsec
    · exact hst sec hsec
    · rw [List.mem_singleton.1 hsec]
      exact fun _ => rfl
  | key hline hcontinues hbracket hne => exact hwith _

theorem Titled.steps {st st' : ParseState} {i : ℕ} {ls : List Line}
    (hst : Titled (st.sections ++ [st.current])) (h : LineSteps st i ls st') :
    Titled (st'.sections ++ [st'.current]) := by
  induction h with
  | nil => exact hst
  | cons first steps ih => exact ih (hst.step first)

theorem titled_parse {text : List Char} {what : String} {d : Doc} (h : parse text what = .ok d) :
    Titled d.sections := by
  obtain ⟨st, hsteps, rfl⟩ := parse_eq_ok_iff.1 h
  refine Titled.steps (fun sec hsec hname => ?_) hsteps
  rw [List.mem_singleton.1 hsec] at hname
  exact nomatch hname

/-- The last entry of a key is the one that counts. -/
theorem get_foldl_insert (entries : List Entry) (keys : IndexMap Line Entry) (key : Line) :
    (entries.foldl (fun keys e => keys.insert e.key e) keys).get key =
      (entries.reverse.find? (·.key = key)).or (keys.get key) := by
  induction entries generalizing keys with
  | nil => rfl
  | cons e entries ih =>
    rw [List.foldl_cons, ih, IndexMap.get_insert, List.reverse_cons, List.find?_append,
      Option.or_assoc]
    by_cases hkey : key = e.key
    · simp [hkey]
    · simp [hkey, Ne.symm hkey]

/-- What the last section adds. -/
theorem effective_concat (ls : List Line) (sections : List Section) (s : Section) :
    (Doc.mk ls (sections ++ [s])).effective =
      if s.header.isNone && s.entries.isEmpty then
        (Doc.mk ls sections).effective
      else
        (Doc.mk ls sections).effective.insert s.name
          (s.entries.foldl (fun keys e => keys.insert e.key e)
            (((Doc.mk ls sections).effective.get s.name).getD .empty)) := by
  rw [Doc.effective, List.foldl_append]
  rfl

/-- **The entry that sets a key is the effective one.** -/
theorem get_effective (d : Doc) (name : Option Line) (key : Line) :
    d.get name key = (d.effective.get name).bind (·.get key) := by
  obtain ⟨ls, sections⟩ := d
  induction sections using List.reverseRecOn with
  | nil => rfl
  | append_singleton sections s ih =>
    rw [effective_concat, Doc.get, List.reverse_append, List.reverse_singleton,
      List.singleton_append, List.filter_cons]
    rw [Doc.get] at ih
    by_cases hempty : (s.header.isNone && s.entries.isEmpty) = true
    · have hnil : s.entries = [] := List.isEmpty_iff.1 (Bool.and_eq_true_iff.1 hempty).2
      rw [if_pos hempty]
      split
      · rw [List.flatMap_cons, hnil, List.reverse_nil, List.nil_append, ih]
      · exact ih
    · rw [if_neg hempty, IndexMap.get_insert]
      by_cases hname : s.name = name
      · rw [if_pos (decide_eq_true hname), if_pos hname.symm, List.flatMap_cons,
          List.find?_append, ih, Option.bind_some, get_foldl_insert, hname]
        cases (Doc.mk ls sections).effective.get name with
        | none => rfl
        | some keys => rfl
      · rw [if_neg (by simpa using hname), if_neg (Ne.symm hname), ih]

theorem key_of_get {d : Doc} {name : Option Line} {key : Line} {e : Entry}
    (h : d.get name key = some e) : e.key = key := by
  simpa using List.find?_some h

/-- **A section of the file is one of its effective ones.** -/
theorem containsKey_effective {d : Doc} (hd : Titled d.sections) (name : Line) :
    d.effective.containsKey (some name) = d.sections.any (·.name = some name) := by
  obtain ⟨ls, sections⟩ := d
  induction sections using List.reverseRecOn with
  | nil => rfl
  | append_singleton sections s ih =>
    have ih := ih fun sec hsec => hd sec (List.mem_append_left _ hsec)
    have hs := hd s (by simp)
    rw [effective_concat, List.any_append, ← ih, List.any_cons, List.any_nil, Bool.or_false]
    by_cases hempty : (s.header.isNone && s.entries.isEmpty) = true
    · have hname : s.name ≠ some name := by
        intro hname
        have hheader := hs (by rw [hname]; rfl)
        rw [Bool.and_eq_true, Option.isNone_iff_eq_none] at hempty
        rw [hempty.1] at hheader
        exact nomatch hheader
      rw [if_pos hempty, decide_eq_false hname, Bool.or_false]
    · rw [if_neg hempty, IndexMap.containsKey, IndexMap.get_insert]
      by_cases hname : s.name = some name
      · rw [if_pos hname.symm, decide_eq_true hname, Bool.or_true]
        rfl
      · rw [if_neg (Ne.symm hname), decide_eq_false hname, Bool.or_false]
        rfl

/-- The value of the entry that sets a key. -/
theorem value_settings (d : Doc) (name : Option Line) (key : Line) :
    d.settings.value name key = (d.get name key).map (·.value) := by
  rw [Settings.value, Doc.settings, IndexMap.get_mapValues, get_effective]
  cases d.effective.get name with
  | none => rfl
  | some keys => exact IndexMap.get_mapValues keys _ key

theorem hasSection_settings {d : Doc} (hd : Titled d.sections) (name : Option Line) :
    d.settings.hasSection name = d.hasSection name := by
  cases name with
  | none => rfl
  | some name =>
    rw [Settings.hasSection, Doc.hasSection, ← containsKey_effective hd, IndexMap.containsKey,
      IndexMap.containsKey, Doc.settings, IndexMap.get_mapValues, Option.isSome_map]

/-- **`contains` is about the values of the two files.** -/
theorem contains_eq {target source : List Char} {t s : Doc} (ht : parse target "target" = .ok t)
    (hs : parse source "source" = .ok s) :
    contains target source = .ok (t.settings.contains s.settings) := by
  rw [contains, ht, hs]
  show Except.ok _ = Except.ok _
  congr 1
  rw [Settings.contains, Doc.settings, IndexMap.mapValues, List.all_map]
  congr 1
  funext sec
  rw [Function.comp_apply, hasSection_settings (titled_parse ht), IndexMap.mapValues, List.all_map]
  congr 2
  funext setting
  rw [Function.comp_apply, value_settings]
  cases t.get sec.1 setting.1 with
  | none => rfl
  | some e => simp

/-- An entry has lines. -/
theorem entryLines_ne_nil {d : Doc} (hd : Placed d.lines.length d.sections) {name : Option Line}
    {key : Line} {e : Entry} (he : d.get name key = some e) (indent : Line) :
    d.entryLines e indent ≠ [] := by
  obtain ⟨sec, hsec, -, hmem, -⟩ := mem_of_get he
  have hplaced := hd sec hsec e hmem
  rw [Doc.entryLines]
  intro hnil
  have hlen := congrArg List.length hnil
  rw [List.length_map, List.length_take, List.length_drop, List.length_nil] at hlen
  omega

end Mise.Ini
