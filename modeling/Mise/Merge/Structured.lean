/-
# Setting some keys of a JSON or TOML file

`structured_merge` sets the keys of a source in a target and leaves the rest of
the target alone.  Both formats are merged at the level of value trees: what
`serde_json` and `toml_edit` print is read back as the value it was printed from,
so an object that was kept as its text is the value it parses to, and a TOML item
is the value under its key (a table or an inline table is a table, an array or an
array of tables an array).

Floats are compared as IEEE 754 says.  JSON has no NaN, so a merge always does what
it should (`mergesKeys_json`).  TOML has one, and it is never equal to itself:
`contains` stays false for a source with a NaN (`mergesKeys_toml_iff`).
-/

import Mise.Lib.ValueTree

namespace Mise

open Lib

/-! ### Scalars -/

/-- The bits of an `f64` below its sign. -/
def floatMagnitude (bits : UInt64) : UInt64 := bits &&& 0x7fffffffffffffff

/-- `f64::is_nan`. -/
def floatIsNan (bits : UInt64) : Bool := 0x7ff0000000000000 < floatMagnitude bits

/-- `f64::is_finite`. -/
def floatIsFinite (bits : UInt64) : Bool := floatMagnitude bits < 0x7ff0000000000000

/-- Equality of `f64`: a NaN is equal to nothing, and both zeros are equal. -/
def floatEq (a b : UInt64) : Bool :=
  !floatIsNan a && !floatIsNan b && (a = b || floatMagnitude a = 0 && floatMagnitude b = 0)

theorem floatEq_self (a : UInt64) : floatEq a a = !floatIsNan a := by
  simp [floatEq]

theorem floatEq_symm (a b : UInt64) (h : floatEq a b = true) : floatEq b a = true := by
  simp only [floatEq, Bool.and_eq_true, Bool.or_eq_true, decide_eq_true_eq] at h ⊢
  obtain ⟨⟨ha, hb⟩, heq | ⟨ha', hb'⟩⟩ := h
  · exact ⟨⟨hb, ha⟩, .inl heq.symm⟩
  · exact ⟨⟨hb, ha⟩, .inr ⟨hb', ha'⟩⟩

theorem floatEq_trans (a b c : UInt64) (hab : floatEq a b = true) (hbc : floatEq b c = true) :
    floatEq a c = true := by
  simp only [floatEq, Bool.and_eq_true, Bool.or_eq_true, decide_eq_true_eq] at hab hbc ⊢
  obtain ⟨⟨ha, hb⟩, rfl | ⟨ha', hb'⟩⟩ := hab
  · exact hbc
  · obtain ⟨⟨-, hc⟩, rfl | ⟨-, hc'⟩⟩ := hbc
    · exact ⟨⟨ha, hc⟩, .inr ⟨ha', hb'⟩⟩
    · exact ⟨⟨ha, hc⟩, .inr ⟨ha', hc'⟩⟩

/-- `serde_json::Number`: a float is finite. -/
inductive JsonNumber
  | posInt (n : UInt64)
  | negInt (n : Int64)
  | float (bits : UInt64) (finite : floatIsFinite bits = true)

/-- A `serde_json::Value` that is neither an array nor an object. -/
inductive JsonScalar
  | null
  | bool (b : Bool)
  | number (n : JsonNumber)
  | string (s : String)

/-- A `toml::Value` that is neither an array nor a table; a date is its text. -/
inductive TomlScalar
  | string (s : String)
  | integer (i : Int64)
  | float (bits : UInt64)
  | boolean (b : Bool)
  | datetime (text : String)

/-- Equality of `serde_json::Number`. -/
def JsonNumber.eq : JsonNumber → JsonNumber → Bool
  | posInt a, posInt b => a = b
  | negInt a, negInt b => a = b
  | float a _, float b _ => floatEq a b
  | _, _ => false

/-- Equality of scalar `serde_json::Value`s. -/
def JsonScalar.eq : JsonScalar → JsonScalar → Bool
  | null, null => true
  | bool a, bool b => a = b
  | number a, number b => a.eq b
  | string a, string b => a = b
  | _, _ => false

/-- Equality of scalar `toml::Value`s. -/
def TomlScalar.eq : TomlScalar → TomlScalar → Bool
  | string a, string b => a = b
  | integer a, integer b => a = b
  | float a, float b => floatEq a b
  | boolean a, boolean b => a = b
  | datetime a, datetime b => a = b
  | _, _ => false

/-- A finite float is not a NaN. -/
theorem floatIsNan_of_finite {bits : UInt64} (h : floatIsFinite bits = true) :
    floatIsNan bits = false := by
  rw [floatIsFinite, decide_eq_true_eq] at h
  rw [floatIsNan, decide_eq_false_iff_not]
  exact UInt64.not_lt.2 (UInt64.le_of_lt h)

namespace JsonScalar

theorem eq_self (a : JsonScalar) : a.eq a = true := by
  cases a with
  | null => rfl
  | bool b => exact decide_eq_true rfl
  | string s => exact decide_eq_true rfl
  | number n =>
    cases n with
    | posInt n => exact decide_eq_true rfl
    | negInt n => exact decide_eq_true rfl
    | float bits finite =>
      show floatEq bits bits = true
      rw [floatEq_self, floatIsNan_of_finite finite]
      rfl

theorem eq_symm (a b : JsonScalar) (h : a.eq b = true) : b.eq a = true := by
  cases a <;> cases b <;> simp_all [eq]
  case number m n => cases m <;> cases n <;> simp_all [JsonNumber.eq]; exact floatEq_symm _ _ h

theorem eq_trans (a b c : JsonScalar) (hab : a.eq b = true) (hbc : b.eq c = true) :
    a.eq c = true := by
  cases a <;> cases b <;> simp_all [eq]
  case number l m =>
    cases c <;> simp_all
    case number n =>
      cases l <;> cases m <;> simp_all [JsonNumber.eq]
      cases n <;> simp_all
      exact floatEq_trans _ _ _ hab hbc

end JsonScalar

namespace TomlScalar

theorem eq_symm (a b : TomlScalar) (h : a.eq b = true) : b.eq a = true := by
  cases a <;> cases b <;> simp_all [eq]
  case float a b => exact floatEq_symm a b h

theorem eq_trans (a b c : TomlScalar) (hab : a.eq b = true) (hbc : b.eq c = true) :
    a.eq c = true := by
  cases a <;> cases b <;> simp_all [eq]
  case float a b =>
    cases c <;> simp_all
    case float c => exact floatEq_trans a b c hab hbc

end TomlScalar

/-! ### What a merge is for -/

section MergesKeys

variable {α : Type}

/-- **A merge that sets the keys of a source and nothing else**, in a format with
the equality `eq`. -/
structure MergesKeys (eq : α → α → Bool) (contains : Document α → Document α → Bool)
    (merge : Document α → Document α → Document α) (t s : Document α) : Prop where
  contained : contains (merge t s) s = true
  frame : ∀ p, ¬s.tree.Sets p → (merge t s).tree.get p = t.tree.get p
  created : ∀ p, ((merge t s).tree.get p).isSome → (t.tree.get p).isSome ∨ (s.tree.get p).isSome
  again : merge (merge t s) s = merge t s
  unchanged : contains t s = true → merge t s = t
  changed : ValueTree.same eq (merge t s).tree t.tree = true → contains t s = true

/-- Lay the source over the target where that does not contain it. -/
def overlayUnlessContained {eq : α → α → Bool}
    {pick : Option (ValueTree α) → ValueTree α → ValueTree α} (hpick : ValueTree.Fair eq pick) (t s : Document α) : Document α :=
  if ValueTree.subsetEntries eq s.entries t.entries then t
  else ⟨ValueTree.overlay pick t.entries s.entries, ValueTree.wf_overlay hpick s.wf t.wf⟩

/-- **Overlays merge exactly the sources that are equal to themselves.** -/
theorem mergesKeys_iff {eq : α → α → Bool} {pick : Option (ValueTree α) → ValueTree α → ValueTree α}
    (hpick : ValueTree.Fair eq pick) (hsymm : ∀ a b, eq a b = true → eq b a = true)
    (htrans : ∀ a b c, eq a b = true → eq b c = true → eq a c = true) (t s : Document α) :
    MergesKeys eq (fun t s => ValueTree.subsetEntries eq s.entries t.entries)
      (overlayUnlessContained hpick) t s ↔ ValueTree.Proper eq s.tree := by
  constructor
  · intro h
    exact ValueTree.proper_of_subset htrans hsymm s.wf (overlayUnlessContained hpick t s).wf
      h.contained
  · intro hproper
    by_cases hcontains : ValueTree.subsetEntries eq s.entries t.entries = true
    · have hmerge : overlayUnlessContained hpick t s = t := if_pos hcontains
      exact
        { contained := by rw [hmerge]; exact hcontains
          frame := fun p _ => by rw [hmerge]
          created := fun p h => .inl (by rwa [hmerge] at h)
          again := by rw [hmerge, hmerge]
          unchanged := fun _ => hmerge
          changed := fun _ => hcontains }
    · have hmerge : overlayUnlessContained hpick t s =
          ⟨ValueTree.overlay pick t.entries s.entries, ValueTree.wf_overlay hpick s.wf t.wf⟩ :=
        if_neg hcontains
      have hcontained := ValueTree.subset_overlay hpick hsymm s.wf t.wf hproper
      exact
        { contained := by rw [hmerge]; exact hcontained
          frame := fun p hp => by rw [hmerge]; exact ValueTree.get_overlay hpick s.wf hp t.entries
          created := fun p h => ValueTree.isSome_get_overlay hpick s.wf (by rwa [hmerge] at h)
          again := by rw [hmerge]; exact if_pos hcontained
          unchanged := fun h => absurd h hcontains
          changed := fun h => by
            rw [hmerge] at h
            exact ValueTree.subset_of_subset_same htrans s.wf (ValueTree.wf_overlay hpick s.wf t.wf)
              hcontained h }

end MergesKeys

/-! ### JSON -/

/-- `serde_json::Value`. -/
abbrev JsonValue := ValueTree JsonScalar

/-- `json_subset`. -/
def jsonSubset (source target : JsonValue) : Bool := ValueTree.subset JsonScalar.eq source target

/-- `JsonNode`: a value on its way back to text; `raw` is what was not touched. -/
inductive JsonNode
  | raw (v : JsonValue)
  | object (entries : List (String × JsonNode))
  | value (v : JsonValue)

mutual

/-- `merge_json_objects`, after its target became raw nodes. -/
def mergeJsonInto : List (String × JsonNode) → Entries JsonScalar → List (String × JsonNode)
  | merged, [] => merged
  | merged, (key, value) :: source =>
    mergeJsonInto (IndexMap.insertEntry key (mergeJsonValue (merged.lookup key) value) merged)
      source

/-- The node for one key of the source; an object meets only an object that is
there as text. -/
def mergeJsonValue : Option JsonNode → JsonValue → JsonNode
  | some (.raw (.table existing)), .table child =>
    .object (mergeJsonInto (existing.map fun e => (e.1, .raw e.2)) child)
  | _, value => .value value

end

/-- `merge_json_objects`. -/
def mergeJsonObjects (target source : Entries JsonScalar) : List (String × JsonNode) :=
  mergeJsonInto (target.map fun e => (e.1, .raw e.2)) source

mutual

/-- What the text of a node is read back as. -/
def JsonNode.parsed : JsonNode → JsonValue
  | .raw v => v
  | .object entries => .table (parsedEntries entries)
  | .value v => v

/-- What the text of an object is read back as. -/
def parsedEntries : List (String × JsonNode) → Entries JsonScalar
  | [] => []
  | (key, node) :: entries => (key, node.parsed) :: parsedEntries entries

end

theorem lookup_parsedEntries (entries : List (String × JsonNode)) (k : String) :
    (parsedEntries entries).lookup k = (entries.lookup k).map (·.parsed) := by
  induction entries with
  | nil => rfl
  | cons e entries ih =>
    obtain ⟨key, node⟩ := e
    rw [parsedEntries, IndexMap.lookup_cons_ite, IndexMap.lookup_cons_ite, ih]
    split <;> rfl

theorem parsedEntries_insertEntry (k : String) (node : JsonNode)
    (entries : List (String × JsonNode)) :
    parsedEntries (IndexMap.insertEntry k node entries) =
      IndexMap.insertEntry k node.parsed (parsedEntries entries) := by
  induction entries with
  | nil => rfl
  | cons e entries ih =>
    obtain ⟨key, old⟩ := e
    rw [IndexMap.insertEntry, parsedEntries, IndexMap.insertEntry]
    split
    · rw [parsedEntries]
    · rw [parsedEntries, ih]

theorem parsedEntries_raw (entries : Entries JsonScalar) :
    parsedEntries (entries.map fun e => (e.1, .raw e.2)) = entries := by
  induction entries with
  | nil => rfl
  | cons e entries ih => rw [List.map_cons, parsedEntries, ih, JsonNode.parsed]

theorem exists_raw (entries : Entries JsonScalar) (k : String) : ∃ old : Option JsonValue,
    (entries.map fun e => (e.1, JsonNode.raw e.2)).lookup k = old.map .raw := by
  refine ⟨entries.lookup k, ?_⟩
  induction entries with
  | nil => rfl
  | cons e entries ih =>
    rw [List.map_cons, IndexMap.lookup_cons_ite, ih, IndexMap.lookup_cons_ite]
    split <;> rfl

/-- A value of the source always takes the place of another. -/
def jsonChoice (_ : Option JsonValue) (value : JsonValue) : JsonValue := value

theorem fair_jsonChoice : ValueTree.Fair JsonScalar.eq jsonChoice := fun _ _ => .inl rfl

/-- Keys of the source that were not merged yet still have a raw node. -/
theorem parsedEntries_mergeJsonInto_of {source : Entries JsonScalar}
    (hnodup : (source.map Prod.fst).Nodup)
    (hvalues : ∀ e ∈ source, ∀ old : Option JsonValue,
      (mergeJsonValue (old.map .raw) e.2).parsed = ValueTree.overlayValue jsonChoice old e.2)
    {merged : List (String × JsonNode)}
    (hraw : ∀ e ∈ source, ∃ old : Option JsonValue, merged.lookup e.1 = old.map .raw) :
    parsedEntries (mergeJsonInto merged source) =
      ValueTree.overlay jsonChoice (parsedEntries merged) source := by
  induction source generalizing merged with
  | nil => rfl
  | cons e source ih =>
    obtain ⟨key, value⟩ := e
    rw [List.map_cons, List.nodup_cons] at hnodup
    obtain ⟨old, hold⟩ := hraw (key, value) List.mem_cons_self
    have hparsed : (parsedEntries merged).lookup key = old := by
      rw [lookup_parsedEntries, hold, Option.map_map]
      exact Option.map_id'
    have hstep := hvalues (key, value) List.mem_cons_self old
    rw [mergeJsonInto, ValueTree.overlay, hparsed, ← hstep, ← hold, ← parsedEntries_insertEntry]
    refine ih hnodup.2 (fun e he => hvalues e (List.mem_cons_of_mem _ he)) fun e he => ?_
    obtain ⟨old', hold'⟩ := hraw e (List.mem_cons_of_mem _ he)
    refine ⟨old', ?_⟩
    have hne : e.1 ≠ key := by
      intro hkey
      exact hnodup.1 (List.mem_map.2 ⟨e, he, hkey⟩)
    rw [IndexMap.lookup_insertEntry, if_neg hne, hold']

/-- One value, where the target is still text. -/
theorem parsed_mergeJsonValue {v : JsonValue} (hv : v.WF) : ∀ old : Option JsonValue,
    (mergeJsonValue (old.map .raw) v).parsed = ValueTree.overlayValue jsonChoice old v := by
  induction hv with
  | leaf a =>
    intro old
    rcases ValueTree.overlayValue_cases old (.leaf a) with ⟨_, _, -, h, -⟩ | ⟨-, h⟩
    · exact nomatch h
    · rw [h, mergeJsonValue]
      · rfl
      · simp
  | @array items _ _ =>
    intro old
    rcases ValueTree.overlayValue_cases old (.array items) with ⟨_, _, -, h, -⟩ | ⟨-, h⟩
    · exact nomatch h
    · rw [h, mergeJsonValue]
      · rfl
      · simp
  | @table entries hnodup _ ih =>
    intro old
    rcases ValueTree.overlayValue_cases old (.table entries) with ⟨t, s, rfl, hs, h⟩ | ⟨hnot, h⟩
    · obtain rfl : entries = s := by injection hs
      rw [h, Option.map_some, mergeJsonValue, JsonNode.parsed,
        parsedEntries_mergeJsonInto_of hnodup ih, parsedEntries_raw]
      exact fun e _ => exists_raw t e.1
    · rw [h, mergeJsonValue]
      · rfl
      · intro existing child hold hchild
        cases old with
        | none => exact nomatch hold
        | some o =>
          obtain rfl : o = .table existing := by
            injection hold with hold
            injection hold
          exact hnot existing child rfl hchild

/-- **The merge of JSON objects refines laying one over the other.** -/
theorem parsedEntries_mergeJsonObjects {source : Entries JsonScalar}
    (hsource : (ValueTree.table source).WF) (target : Entries JsonScalar) :
    parsedEntries (mergeJsonObjects target source) =
      ValueTree.overlay jsonChoice target source := by
  have hvalues : ∀ e ∈ source, ∀ old : Option JsonValue,
      (mergeJsonValue (old.map .raw) e.2).parsed = ValueTree.overlayValue jsonChoice old e.2 := by
    intro e he
    have hlookup : source.lookup e.1 = some e.2 :=
      (IndexMap.lookup_eq_some_iff_mem hsource.nodup).2 he
    exact parsed_mergeJsonValue (hsource.of_lookup hlookup)
  rw [mergeJsonObjects, parsedEntries_mergeJsonInto_of hsource.nodup hvalues, parsedEntries_raw]
  exact fun e _ => exists_raw target e.1

/-- A JSON file. -/
abbrev JsonDocument := Document JsonScalar

/-- `contains`, for JSON. -/
def jsonContains (target source : JsonDocument) : Bool := jsonSubset source.tree target.tree

/-- `merge`, for JSON: the file that is written, as it is read back. -/
def jsonMerge (target source : JsonDocument) : JsonDocument :=
  if jsonContains target source then target
  else
    { entries := parsedEntries (mergeJsonObjects target.entries source.entries)
      wf := by
        rw [parsedEntries_mergeJsonObjects source.wf]
        exact ValueTree.wf_overlay fair_jsonChoice source.wf target.wf }

theorem jsonMerge_eq (t s : JsonDocument) :
    jsonMerge t s = overlayUnlessContained fair_jsonChoice t s := by
  rw [jsonMerge, overlayUnlessContained, jsonContains, jsonSubset, Document.tree, Document.tree,
    ValueTree.subset]
  split
  · rfl
  · congr 1
    exact parsedEntries_mergeJsonObjects s.wf t.entries

theorem jsonMerge_eq_overlay : jsonMerge = overlayUnlessContained fair_jsonChoice :=
  funext fun t => funext fun s => jsonMerge_eq t s

theorem jsonContains_eq_subset : jsonContains =
    fun t s => ValueTree.subsetEntries JsonScalar.eq s.entries t.entries := by
  funext t s
  rw [jsonContains, jsonSubset, Document.tree, Document.tree, ValueTree.subset]

theorem proper_json {v : JsonValue} (hv : v.WF) : ValueTree.Proper JsonScalar.eq v := by
  induction hv with
  | leaf a => exact .leaf a.eq_self
  | array _ ih => exact .array ih
  | table _ _ ih => exact .table ih

/-- **A JSON merge sets the keys of the source and nothing else.** -/
theorem mergesKeys_json (t s : JsonDocument) :
    MergesKeys JsonScalar.eq jsonContains jsonMerge t s := by
  rw [jsonMerge_eq_overlay, jsonContains_eq_subset]
  exact (mergesKeys_iff fair_jsonChoice JsonScalar.eq_symm JsonScalar.eq_trans t s).2
    (proper_json s.wf)

/-! ### TOML -/

/-- A TOML item, at the level of values. -/
abbrev TomlItem := ValueTree TomlScalar

/-- `toml_subset`. -/
def tomlSubset (source target : Entries TomlScalar) : Bool :=
  ValueTree.subsetEntries TomlScalar.eq source target

/-- `same_toml_item`. -/
def sameTomlItem (a b : TomlItem) : Bool := ValueTree.same TomlScalar.eq a b

/-- An item that is there stays when it is the same as the one of the source. -/
def tomlChoice (target : Option TomlItem) (source : TomlItem) : TomlItem :=
  match target with
  | none => source
  | some target => if sameTomlItem target source then target else source

theorem fair_tomlChoice : ValueTree.Fair TomlScalar.eq tomlChoice := by
  intro old v
  cases old with
  | none => exact .inl rfl
  | some o =>
    rw [tomlChoice]
    split
    · case isTrue hsame => exact .inr ⟨rfl, hsame⟩
    · exact .inl rfl

/-- `merge_toml_tables`. -/
def mergeTomlTables (target source : Entries TomlScalar) : Entries TomlScalar :=
  ValueTree.overlay tomlChoice target source

/-- A TOML file. -/
abbrev TomlDocument := Document TomlScalar

/-- `contains`, for TOML. -/
def tomlContains (target source : TomlDocument) : Bool := tomlSubset source.entries target.entries

/-- `merge`, for TOML. -/
def tomlMerge (target source : TomlDocument) : TomlDocument :=
  if tomlContains target source then target
  else ⟨mergeTomlTables target.entries source.entries,
    ValueTree.wf_overlay fair_tomlChoice source.wf target.wf⟩

/-- No float of the value is a NaN. -/
inductive NoNan : TomlItem → Prop
  | leaf {a : TomlScalar} : (∀ bits, a = .float bits → floatIsNan bits = false) → NoNan (.leaf a)
  | array {items : List TomlItem} : (∀ v ∈ items, NoNan v) → NoNan (.array items)
  | table {entries : Entries TomlScalar} : (∀ e ∈ entries, NoNan e.2) → NoNan (.table entries)

theorem eq_self_iff (a : TomlScalar) :
    a.eq a = true ↔ ∀ bits, a = .float bits → floatIsNan bits = false := by
  cases a with
  | float bits =>
    show floatEq bits bits = true ↔ _
    rw [floatEq_self, Bool.not_eq_true']
    exact ⟨fun h bits' hbits => by injection hbits with hbits; rwa [← hbits], fun h => h bits rfl⟩
  | string s => exact ⟨fun _ _ h => (nomatch h), fun _ => decide_eq_true rfl⟩
  | integer i => exact ⟨fun _ _ h => (nomatch h), fun _ => decide_eq_true rfl⟩
  | boolean b => exact ⟨fun _ _ h => (nomatch h), fun _ => decide_eq_true rfl⟩
  | datetime text => exact ⟨fun _ _ h => (nomatch h), fun _ => decide_eq_true rfl⟩

theorem proper_toml_iff {v : TomlItem} (hv : v.WF) :
    ValueTree.Proper TomlScalar.eq v ↔ NoNan v := by
  induction hv with
  | leaf a =>
    rw [ValueTree.proper_leaf_iff, eq_self_iff]
    exact ⟨.leaf, fun h => by cases h with | leaf h => exact h⟩
  | array _ ih =>
    rw [ValueTree.proper_array_iff]
    exact ⟨fun h => .array fun v hv => (ih v hv).1 (h v hv),
      fun h => by cases h with | array h => exact fun v hv => (ih v hv).2 (h v hv)⟩
  | table _ _ ih =>
    rw [ValueTree.proper_table_iff]
    exact ⟨fun h => .table fun e he => (ih e he).1 (h e he),
      fun h => by cases h with | table h => exact fun e he => (ih e he).2 (h e he)⟩

/-- **A TOML merge sets the keys of the source exactly when that has no NaN.** -/
theorem mergesKeys_toml_iff (t s : TomlDocument) :
    MergesKeys TomlScalar.eq tomlContains tomlMerge t s ↔ NoNan s.tree :=
  (mergesKeys_iff fair_tomlChoice TomlScalar.eq_symm TomlScalar.eq_trans t s).trans
    (proper_toml_iff s.wf)

/-- **When structured merges set the keys of their source and nothing else.** -/
theorem structured_merge_correct (json jsonSource : JsonDocument) (toml tomlSource : TomlDocument) :
    MergesKeys JsonScalar.eq jsonContains jsonMerge json jsonSource ∧
      (MergesKeys TomlScalar.eq tomlContains tomlMerge toml tomlSource ↔ NoNan tomlSource.tree) :=
  ⟨mergesKeys_json json jsonSource, mergesKeys_toml_iff toml tomlSource⟩

/-- The file `x = nan`. -/
def nanDocument : TomlDocument where
  entries := [("x", .leaf (.float 0x7ff8000000000000))]
  wf := by
    refine .table (by simp) fun e he => ?_
    obtain rfl := List.mem_singleton.1 he
    exact .leaf _

/-- Set in a file that has it already, a NaN is still not contained. -/
theorem nan_never_contained :
    tomlMerge nanDocument nanDocument = nanDocument ∧
      tomlContains (tomlMerge nanDocument nanDocument) nanDocument = false ∧
      ¬MergesKeys TomlScalar.eq tomlContains tomlMerge nanDocument nanDocument := by
  have hself : tomlContains nanDocument nanDocument = false := by decide +kernel
  have hmerge : tomlMerge nanDocument nanDocument = nanDocument := by
    rw [tomlMerge, hself]
    rfl
  refine ⟨hmerge, by rw [hmerge]; exact hself, fun h => ?_⟩
  have hcontained := h.contained
  rw [hmerge, hself] at hcontained
  exact Bool.noConfusion hcontained

end Mise
