/-
# The environment as if mise had not run

`get_pristine_env` in `crates/mise-util/src/env.rs`.  It reverses the recorded
variables, then takes mise's directories off `PATH`, each once and from the
left, except for a directory of `__MISE_ORIG_PATH` that stands there once, and
finally withholds inherited secrets.

The function joins the remaining entries with `unwrap`, which panics on an
entry holding a colon; the entries come from splitting a `PATH`, so it never
does (`getElem?_getPristineEnv`).
-/

import Mise.Env.Reverse
import Mise.Lib.Occurrences
import Mise.Text

namespace Mise

open Lib

/-- `SECRET_KEYS_MARKER`. -/
def secretKeysMarker : String := "__MISE_SECRET_KEYS"

/-- `MISE_TASK_NAMES_ONLY_ENV`. -/
def miseTaskNamesOnlyEnv : String := "__MISE_TASK_NAMES_ONLY"

/-- The variable that holds `PATH` as it was before activation. -/
def origPathKey : String := "__MISE_ORIG_PATH"

/-- `FISH_SECRET_PREFIX`. -/
def fishSecretPrefix : String := "__MISE_FISH_SECRET_"

/-! ### Inherited secrets -/

/-- `reserved_secret_name`. -/
def reservedSecretName (name : String) : Bool :=
  (["PATH", "HOME", "USER", "SHELL", "TERM", "COLORTERM", "LANG"].any fun r => name == r) ||
    startsWith name "__MISE_"

/-- `is_valid_secret_name`: `[A-Za-z_][A-Za-z0-9_]*`. -/
def isValidSecretName (name : String) : Bool :=
  match name.toList with
  | [] => false
  | c :: rest => (c.isAlpha || c == '_') && rest.all fun c => c.isAlphanum || c == '_'

/-- `parse_secret_keys`. -/
def parseSecretKeys (marker : String) : List String :=
  ((marker.toList.splitOn ',').map fun k => trim (String.ofList k)).filter fun k =>
    isValidSecretName k && !reservedSecretName k

/-- `inherited_secret_keys`: the names the marker lists and fish's temporary
copies. -/
def inheritedSecretKeys (marker : Option String) (names : List String) : List String :=
  (marker.map parseSecretKeys).getD [] ++ names.filter fun k => startsWith k fishSecretPrefix

/-- `INHERITED_SECRET_KEYS` of a process with the environment `env`. -/
def inheritedSecretKeysOf (env : EnvMap) : List String :=
  inheritedSecretKeys env[secretKeysMarker]? env.keys

/-- `is_inherited_secret_key`. -/
def isInheritedSecretKey (name : String) (keys : List String) : Bool :=
  (keys.any fun m => name == m) || name == secretKeysMarker

/-- `strip_inherited_secrets`. -/
def stripInheritedSecrets (env : EnvMap) (keys : List String) : EnvMap :=
  env.filter fun k _ => !isInheritedSecretKey k keys

/-- A reserved name other than mise's own two markers is never an inherited
secret, whatever the marker variable lists. -/
theorem isInheritedSecretKey_of_reserved (env : EnvMap) {name : String}
    (hr : reservedSecretName name = true) (hf : startsWith name fishSecretPrefix = false)
    (hm : name ≠ secretKeysMarker) :
    isInheritedSecretKey name (inheritedSecretKeysOf env) = false := by
  have hkey : name ∉ inheritedSecretKeysOf env := by
    intro h
    rcases List.mem_append.1 h with h | h
    · cases hm : env[secretKeysMarker]? with
      | none => simp [hm] at h
      | some marker =>
          rw [hm, Option.map_some, Option.getD_some] at h
          have := (List.mem_filter.1 h).2
          simp [hr] at this
    · rw [(List.mem_filter.1 h).2] at hf
      exact absurd hf (by decide)
  rw [isInheritedSecretKey, Bool.or_eq_false_iff, List.any_eq_false]
  refine ⟨fun m hm => ?_, by simpa using hm⟩
  have : name ≠ m := fun e => hkey (e ▸ hm)
  simpa using this

theorem isInheritedSecretKey_pathKey (env : EnvMap) :
    isInheritedSecretKey pathKey (inheritedSecretKeysOf env) = false :=
  isInheritedSecretKey_of_reserved env (by decide) (by decide) (by decide)

theorem isInheritedSecretKey_namesOnly (env : EnvMap) :
    isInheritedSecretKey miseTaskNamesOnlyEnv (inheritedSecretKeysOf env) = false :=
  isInheritedSecretKey_of_reserved env (by decide) (by decide) (by decide)

/-! ### The pristine environment -/

/-- The entries of a `PATH` variable, none when it is not set. -/
def pathEntries (value : Option String) : List PathBuf := (value.map splitPaths).getD []

/-- The entries of `path` that `get_pristine_env` keeps, `managed` being mise's
directories and `origPath` those of `__MISE_ORIG_PATH`. -/
def pristinePath (origPath managed path : List PathBuf) : List PathBuf :=
  dropMarked (fun p => origPath.contains p && path.count p == 1) managed path

theorem respects_keepOrig (origPath path : List PathBuf) :
    Respects fun p => origPath.contains p && path.count p == 1 := fun a b h => by
  simp only [contains_respects origPath a b h, show path.count a = path.count b from
    count_respects path a b h]

variable (blake3 : String → String)

/-- `get_pristine_env`; `none` stands for the panic of its `unwrap`. -/
def getPristineEnv (miseDiff : EnvDiff) (origEnv : EnvMap) : Option EnvMap :=
  let origPath := pathEntries origEnv[origPathKey]?
  let env := (reverseDiffPreservingOverrides blake3 miseDiff origEnv).erase miseTaskNamesOnlyEnv
  let path := pathEntries env[pathKey]?
  (joinPaths (pristinePath origPath miseDiff.path path)).map fun joined =>
    stripInheritedSecrets (env.insert pathKey joined) (inheritedSecretKeysOf origEnv)

/-- The entries of a `PATH` variable can be joined again, and so can any of
them. -/
theorem joinPaths_of_sublist {value : Option String} {l : List PathBuf}
    (h : l.Sublist (pathEntries value)) : ∃ s, joinPaths l = some s := by
  refine joinPaths_of_hasSeparator fun p hp => ?_
  cases value with
  | none => exact absurd (h.subset hp) List.not_mem_nil
  | some s => exact hasSeparator_of_mem_splitPaths (h.subset hp)

/-- **What the pristine environment holds**, variable by variable: nothing at
a secret and at the names-only marker, the entries `pristinePath` keeps at
`PATH`, and the reversed value elsewhere. -/
theorem getElem?_getPristineEnv (d : EnvDiff) (env : EnvMap)
    (hpath : (reverseDiffPreservingOverrides blake3 d env)[pathKey]? = env[pathKey]?) :
    ∃ joined pristine,
      joinPaths (pristinePath (pathEntries env[origPathKey]?) d.path (pathEntries env[pathKey]?))
          = some joined ∧
        getPristineEnv blake3 d env = some pristine ∧
        pristine[pathKey]? = some joined ∧
        ∀ k : String, k ≠ pathKey → isInheritedSecretKey k (inheritedSecretKeysOf env) = false →
          pristine[k]? =
            if k = miseTaskNamesOnlyEnv then none
            else (reverseDiffPreservingOverrides blake3 d env)[k]? := by
  have hne : miseTaskNamesOnlyEnv ≠ pathKey := by decide
  have herase : ((reverseDiffPreservingOverrides blake3 d env).erase miseTaskNamesOnlyEnv)[pathKey]?
      = env[pathKey]? := by
    rw [EnvMap.getElem?_erase_ite, if_neg hne, hpath]
  have hsub : (pristinePath (pathEntries env[origPathKey]?) d.path
      (pathEntries env[pathKey]?)).Sublist (pathEntries env[pathKey]?) :=
    dropMarked_sublist d.path (pathEntries env[pathKey]?)
  obtain ⟨joined, hjoined⟩ := joinPaths_of_sublist hsub
  refine ⟨joined, stripInheritedSecrets (((reverseDiffPreservingOverrides blake3 d env).erase
    miseTaskNamesOnlyEnv).insert pathKey joined) (inheritedSecretKeysOf env), hjoined, ?_, ?_,
    fun k hk hs => ?_⟩
  · rw [getPristineEnv, herase, hjoined, Option.map_some]
  · rw [stripInheritedSecrets, Std.TreeMap.getElem?_filter', isInheritedSecretKey_pathKey,
      EnvMap.getElem?_insert_ite, if_pos rfl]
    rfl
  · rw [stripInheritedSecrets, Std.TreeMap.getElem?_filter', hs, EnvMap.getElem?_insert_ite,
      if_neg (Ne.symm hk), EnvMap.getElem?_erase_ite]
    by_cases hm : miseTaskNamesOnlyEnv = k
    · simp [hm]
    · rw [if_neg hm, if_neg (Ne.symm hm)]
      cases (reverseDiffPreservingOverrides blake3 d env)[k]? <;> rfl

end Mise
