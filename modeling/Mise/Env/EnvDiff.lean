/-
# `EnvDiff`: what mise changed in an environment

`crates/mise-util/src/env_diff.rs`.  A diff holds the previous value of every
variable mise changed or removed (`old`), the value mise gave it (`new`) and
the directories mise put on `PATH`.  `to_patches` turns it into the operations
a shell runs; `serialize_excluding` writes it to `__MISE_DIFF` with the new
values replaced by digests and without the previous values of secrets.

Two things are not in the repository and are parameters here: the BLAKE3
digest, as its hexadecimal text, and the text codec of `__MISE_DIFF`
(MessagePack, then zlib, then base64), of which only losslessness is assumed.
Variable names are compared exactly, as in the unix build (`env_key_eq`).
-/

import Mise.Lib.IndexMap
import Mise.Path
import Std.Data.TreeMap

namespace Mise

open Lib

/-- `BTreeMap<String, String>`. -/
abbrev EnvMap := Std.TreeMap String String

/-- An insertion, as a decision on the names. -/
theorem EnvMap.getElem?_insert_ite (env : EnvMap) (k k' v : String) :
    (env.insert k v)[k']? = if k = k' then some v else env[k']? := by
  rw [Std.TreeMap.getElem?_insert]
  by_cases h : k = k' <;> simp [h]

/-- A removal, as a decision on the names. -/
theorem EnvMap.getElem?_erase_ite (env : EnvMap) (k k' : String) :
    (env.erase k)[k']? = if k = k' then none else env[k']? := by
  rw [Std.TreeMap.getElem?_erase]
  by_cases h : k = k' <;> simp [h]

/-- `PATH_KEY` of the unix build. -/
def pathKey : String := "PATH"

/-- `ENV_STATE_VERSION`: from this version on the new values are digests. -/
def envStateVersion : ℕ := 2

/-- `legacy_env_state_version`: the version of a blob without one. -/
def legacyEnvStateVersion : ℕ := 1

/-- `EnvDiff`. -/
structure EnvDiff where
  v : ℕ
  old : IndexMap String String
  new : IndexMap String String
  path : List PathBuf

/-- `EnvDiffOperation`. -/
inductive EnvDiffOperation where
  | add (key value : String)
  | change (key value : String)
  | remove (key : String)
  deriving DecidableEq

namespace EnvDiffOperation

/-- The variable an operation is about. -/
def key : EnvDiffOperation → String
  | add k _ | change k _ | remove k => k

/-- The value the variable has afterwards. -/
def value : EnvDiffOperation → Option String
  | add _ v | change _ v => some v
  | remove _ => none

/-- What a shell does with an operation: `set_env` for additions and changes,
`unset_env` for removals (`build_env_commands` in `src/hook_env.rs`). -/
def apply (env : EnvMap) : EnvDiffOperation → EnvMap
  | add k v | change k v => env.insert k v
  | remove k => env.erase k

theorem getElem?_apply (env : EnvMap) (op : EnvDiffOperation) (k : String) :
    (op.apply env)[k]? = if op.key = k then op.value else env[k]? := by
  cases op with
  | add k' v => exact env.getElem?_insert_ite k' k v
  | change k' v => exact env.getElem?_insert_ite k' k v
  | remove k' => exact env.getElem?_erase_ite k' k

end EnvDiffOperation

/-- An environment after the operations of a patch list, in order. -/
def applyPatches (patches : List EnvDiffOperation) (env : EnvMap) : EnvMap :=
  patches.foldl EnvDiffOperation.apply env

/-- Operations on other variables leave a variable alone. -/
theorem getElem?_applyPatches_of_ne {patches : List EnvDiffOperation} {k : String}
    (h : ∀ op ∈ patches, op.key ≠ k) (env : EnvMap) : (applyPatches patches env)[k]? = env[k]? := by
  refine get_foldl_of_notMem (fun (s : EnvMap) k => s[k]?) EnvDiffOperation.key
    EnvDiffOperation.apply (fun op _ => op.value) EnvDiffOperation.getElem?_apply patches env k ?_
  intro hk
  obtain ⟨op, hop, rfl⟩ := List.mem_map.1 hk
  exact h op hop rfl

/-- `hash_env_value`, for the hexadecimal BLAKE3 digest `blake3` of a text. -/
def hashEnvValue (blake3 : String → String) (value : String) : String :=
  "blake3:" ++ blake3 value

/-- `env_value_matches`: whether `actual` is the value recorded as `stored` in
a blob of schema `version`. -/
def envValueMatches (blake3 : String → String) (version : ℕ) (stored actual : String) : Bool :=
  if version ≥ 2 then stored == hashEnvValue blake3 actual else stored == actual

namespace EnvDiff

/-- `EnvDiff::default`. -/
def default : EnvDiff := ⟨0, .empty, .empty, []⟩

/-- One addition of `EnvDiff::new`: a changed variable is recorded on both
sides, a new one only as `new`, an unchanged one not at all. -/
def record (original : EnvMap) (diff : EnvDiff) (addition : String × String) : EnvDiff :=
  match original[addition.1]? with
  | some originalVal =>
      if originalVal ≠ addition.2 then
        { diff with
          old := diff.old.insert addition.1 originalVal
          new := diff.new.insert addition.1 addition.2 }
      else diff
  | none => { diff with new := diff.new.insert addition.1 addition.2 }

/-- `EnvDiff::new`. -/
def newDiff (original : EnvMap) (additions : List (String × String)) : EnvDiff :=
  additions.foldl (record original) default

/-- `EnvDiff::to_patches`. -/
def toPatches (d : EnvDiff) : List EnvDiffOperation :=
  (d.old.keys.map fun k =>
    match d.new.get k with
    | some v => .change k v
    | none => .remove k) ++
  (d.new.entries.filter fun e => !d.old.containsKey e.1).map fun e => .add e.1 e.2

/-- `EnvDiff::reverse`. -/
def reverse (d : EnvDiff) : EnvDiff := ⟨legacyEnvStateVersion, d.new, d.old, d.path⟩

/-- `EnvDiff::from_final_env`: the variables of `finalEnv` other than `PATH`
and `__MISE_DIFF` against `pristine`, and the `PATH` entries `pristine` lacks. -/
def fromFinalEnv (pristine finalEnv : EnvMap) : EnvDiff :=
  let additions := finalEnv.toList.filter fun e => e.1 ≠ pathKey ∧ e.1 ≠ "__MISE_DIFF"
  let diff := newDiff pristine additions
  let pristinePaths := (pristine[pathKey]?.map splitPaths).getD []
  match finalEnv[pathKey]? with
  | some finalPath =>
      { diff with path := (splitPaths finalPath).filter fun p => !pristinePaths.contains p }
  | none => diff

end EnvDiff

/-! ### The text of `__MISE_DIFF` -/

/-- The record `serialize_excluding` writes. -/
structure Wire where
  v : ℕ
  old : IndexMap String String
  new : IndexMap String String
  path : List String

/-- What a reader makes of the record. -/
def Wire.toEnvDiff (w : Wire) : EnvDiff := ⟨w.v, w.old, w.new, w.path.map PathBuf.mk⟩

/-- A text codec for the record: MessagePack, zlib and base64 in mise. -/
structure Codec where
  encode : Wire → String
  decode : String → Option EnvDiff

/-- The codec reads back the record it wrote. -/
def Codec.LosslessOn (codec : Codec) (w : Wire) : Prop :=
  codec.decode (codec.encode w) = some w.toEnvDiff

namespace EnvDiff

/-- The record of a diff: digests for the new values, and no previous value of
an excluded variable. -/
def wire (blake3 : String → String) (exclude : List String) (d : EnvDiff) : Wire where
  v := envStateVersion
  old := d.old.filterKeys fun k => !exclude.any fun e => k == e
  new := d.new.mapValues (hashEnvValue blake3)
  path := d.path.map PathBuf.raw

/-- `EnvDiff::serialize_excluding`. -/
def serializeExcluding (codec : Codec) (blake3 : String → String) (exclude : List String)
    (d : EnvDiff) : String :=
  codec.encode (d.wire blake3 exclude)

/-- `EnvDiff::deserialize`. -/
def deserialize (codec : Codec) (raw : String) : Option EnvDiff := codec.decode raw

/-- **What survives the trip through `__MISE_DIFF`.** -/
theorem deserialize_serializeExcluding {codec : Codec} {blake3 : String → String}
    {exclude : List String} {d : EnvDiff} (h : codec.LosslessOn (d.wire blake3 exclude)) :
    deserialize codec (d.serializeExcluding codec blake3 exclude) =
      some (d.wire blake3 exclude).toEnvDiff :=
  h

@[simp] theorem wire_path (blake3 : String → String) (exclude : List String) (d : EnvDiff) :
    (d.wire blake3 exclude).toEnvDiff.path = d.path := by
  simp [wire, Wire.toEnvDiff, Function.comp_def]

/-! ### What `EnvDiff::new` records -/

/-- The two sides of a diff at a variable. -/
def sides (d : EnvDiff) (k : String) : Option String × Option String := (d.old.get k, d.new.get k)

/-- What recording the value `v` leaves at its own variable. -/
def recordAt (original : EnvMap) (addition : String × String)
    (s : Option String × Option String) : Option String × Option String :=
  match original[addition.1]? with
  | some o => if o ≠ addition.2 then (some o, some addition.2) else s
  | none => (s.1, some addition.2)

theorem sides_record (original : EnvMap) (d : EnvDiff) (a : String × String) (k : String) :
    (record original d a).sides k =
      if a.1 = k then recordAt original a (d.sides k) else d.sides k := by
  by_cases hk : a.1 = k
  · subst hk
    unfold record recordAt
    cases original[a.1]? with
    | none => simp [sides]
    | some o => by_cases ho : o = a.2 <;> simp [sides, ho]
  · have hk' : k ≠ a.1 := fun h => hk h.symm
    unfold record
    cases original[a.1]? with
    | none => simp [sides, hk, hk']
    | some o => by_cases ho : o = a.2 <;> simp [sides, hk, hk', ho]

/-- **`EnvDiff::new`, variable by variable.**  A variable is recorded exactly
when an addition gives it a value it did not have, with its previous value on
the other side. -/
theorem sides_newDiff (original : EnvMap) {additions : List (String × String)}
    (hnd : (additions.map Prod.fst).Nodup) (k : String) :
    (newDiff original additions).sides k =
      match additions.lookup k with
      | none => (none, none)
      | some v => if original[k]? = some v then (none, none) else (original[k]?, some v) := by
  cases hk : additions.lookup k with
  | none =>
      have hnot : k ∉ additions.map Prod.fst := by
        intro hm
        obtain ⟨⟨k', v⟩, hmem, rfl⟩ := List.mem_map.1 hm
        rw [(IndexMap.lookup_eq_some_iff_mem hnd).2 hmem] at hk
        cases hk
      exact get_foldl_of_notMem sides Prod.fst (record original) (recordAt original)
        (sides_record original) additions default k hnot
  | some v =>
      have hmem := (IndexMap.lookup_eq_some_iff_mem hnd).1 hk
      have h := get_foldl_of_nodup sides Prod.fst (record original) (recordAt original)
        (sides_record original) additions hnd default hmem
      refine h.trans ?_
      show recordAt original (k, v) (none, none) = _
      unfold recordAt
      cases original[k]? with
      | none => simp
      | some o => by_cases ho : o = v <;> simp [ho]

/-- Digests and exclusions at one variable. -/
theorem sides_wire (blake3 : String → String) (exclude : List String) (d : EnvDiff) (k : String) :
    (d.wire blake3 exclude).toEnvDiff.sides k =
      (if k ∈ exclude then none else d.old.get k, (d.new.get k).map (hashEnvValue blake3)) := by
  have hany : (exclude.any fun e => k == e) = decide (k ∈ exclude) := by
    rw [Bool.eq_iff_iff]
    simp
  by_cases hk : k ∈ exclude <;> simp [sides, wire, Wire.toEnvDiff, hany, hk]

/-! ### What `to_patches` does to an environment -/

theorem nodup_key_toPatches (d : EnvDiff) : (d.toPatches.map EnvDiffOperation.key).Nodup := by
  have hold : (d.old.keys.map fun k => match d.new.get k with
      | some v => EnvDiffOperation.change k v
      | none => EnvDiffOperation.remove k).map EnvDiffOperation.key = d.old.keys := by
    rw [List.map_map]
    conv_rhs => rw [← List.map_id d.old.keys]
    refine List.map_congr_left fun k _ => ?_
    cases h : d.new.get k <;> simp [EnvDiffOperation.key, h]
  rw [toPatches, List.map_append, hold, List.map_map, List.nodup_append]
  refine ⟨d.old.nodup, ?_, ?_⟩
  · exact d.new.nodup.sublist (List.filter_sublist.map _)
  · intro a ha b hb hab
    subst hab
    obtain ⟨e, he, rfl⟩ := List.mem_map.1 hb
    have := (List.mem_filter.1 he).2
    obtain ⟨v, hv⟩ := d.old.mem_keys.1 ha
    simp [EnvDiffOperation.key, IndexMap.containsKey] at this hv
    simp [this] at hv

/-- **A patch list sets every recorded variable to its new value**, unsetting
it when there is none, and no other variable. -/
theorem getElem?_applyPatches_toPatches (d : EnvDiff) (env : EnvMap) (k : String) :
    (applyPatches d.toPatches env)[k]? =
      if d.old.get k = none ∧ d.new.get k = none then env[k]? else d.new.get k := by
  have hstep : ∀ (s : EnvMap) (op : EnvDiffOperation) (k : String),
      (op.apply s)[k]? = if op.key = k then op.value else s[k]? :=
    EnvDiffOperation.getElem?_apply
  have hmemOld : ∀ o, d.old.get k = some o →
      (match d.new.get k with
        | some v => EnvDiffOperation.change k v
        | none => .remove k) ∈ d.toPatches := fun o ho =>
    List.mem_append_left _ (List.mem_map.2 ⟨k, d.old.mem_keys.2 ⟨o, ho⟩, rfl⟩)
  have hat := fun {op : EnvDiffOperation} (hop : op ∈ d.toPatches) =>
    get_foldl_of_nodup (fun (s : EnvMap) k => s[k]?) EnvDiffOperation.key
      EnvDiffOperation.apply (fun op _ => op.value) hstep d.toPatches
      d.nodup_key_toPatches env hop
  cases ho : d.old.get k with
  | some o =>
      have h := hmemOld o ho
      cases hn : d.new.get k with
      | some v => rw [hn] at h; exact hat h
      | none => rw [hn] at h; exact hat h
  | none =>
      cases hn : d.new.get k with
      | some v =>
          have h : EnvDiffOperation.add k v ∈ d.toPatches := by
            refine List.mem_append_right _ (List.mem_map.2 ⟨(k, v), ?_, rfl⟩)
            exact List.mem_filter.2 ⟨d.new.mem_entries.2 hn, by simp [IndexMap.containsKey, ho]⟩
          exact hat h
      | none =>
          have hnot : k ∉ d.toPatches.map EnvDiffOperation.key := by
            rw [toPatches, List.map_append, List.mem_append, not_or]
            constructor
            · intro hm
              simp only [List.map_map, List.mem_map, Function.comp_apply] at hm
              obtain ⟨k', hk', he⟩ := hm
              obtain ⟨v, hv⟩ := d.old.mem_keys.1 hk'
              have : k' = k := by
                rw [← he]; cases d.new.get k' <;> rfl
              rw [this, ho] at hv
              cases hv
            · intro hm
              simp only [List.map_map, List.mem_map, Function.comp_apply] at hm
              obtain ⟨e, he, rfl⟩ := hm
              have := d.new.mem_entries.1 (List.mem_filter.1 he).1
              simp only [EnvDiffOperation.key] at hn
              rw [hn] at this
              cases this
          simpa [applyPatches] using get_foldl_of_notMem (fun (s : EnvMap) k => s[k]?)
            EnvDiffOperation.key EnvDiffOperation.apply (fun op _ => op.value) hstep
            d.toPatches env k hnot

end EnvDiff

end Mise
