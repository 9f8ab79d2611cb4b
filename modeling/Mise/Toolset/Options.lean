/-
# Tool options and where they come from

`ResolvedToolOptions` in `src/toolset/tool_version_options.rs`: the options of a
tool, laid one layer over the other, with the source of each.  The values are in
a typed record, in a map of free-form options and in a map of environment
variables; the sources are in one map from names, in which a variable of
`install_env` is `install_env.<variable>`.

A registry entry's signer options are one policy: a layer of another source that
sets a signer option drops those of them that are still the registry's.
-/

import Mise.Lib.IndexMap
import Mise.Text
import Mise.Toml

namespace Mise.Toolset

open Lib

/-! ### Options -/

/-- `EnvValue`. -/
inductive EnvValue where
  | string (s : String)
  | integer (i : Int)
  | boolean (b : Bool)
  deriving DecidableEq

/-- `CoreToolOptions`. -/
structure CoreToolOptions where
  os : Option (List String) := none
  depends : Option (List String) := none
  installEnv : IndexMap String EnvValue := .empty
  lazy : Option Bool := none
  lazyBins : List String := []
  autoUpdate : Option String := none

/-- `ToolOptions`. -/
structure ToolOptions extends CoreToolOptions where
  opts : IndexMap String TomlValue := .empty

/-- `ToolOptionSource`. -/
inductive ToolOptionSource where
  | registry
  | installManifest
  | backendAlias
  | config
  | request
  | inlineBackendArg
  deriving DecidableEq

/-- `SIGNER_OPTION_KEYS`. -/
def signerOptionKeys : List String :=
  ["workflow", "pubkey", "identity", "identity_prefix", "issuer"]

/-- `REGISTRY_SIGNER_POLICY_KEYS`. -/
def registrySignerPolicyKeys : List String :=
  ["workflow", "pubkey", "identity", "identity_prefix", "issuer", "list_identity_prefix"]

/-- `sets_signer_option`. -/
def setsSignerOption (user : ToolOptions) : Bool :=
  signerOptionKeys.any fun key => user.opts.containsKey key

/-- `ToolOptions::apply_overrides`. -/
def ToolOptions.applyOverrides (options overrides : ToolOptions) : ToolOptions where
  os := if overrides.os.isSome then overrides.os else options.os
  depends := if overrides.depends.isSome then overrides.depends else options.depends
  installEnv := overrides.installEnv.entries.foldl (fun m e => m.insert e.1 e.2) options.installEnv
  lazy := if overrides.lazy.isSome then overrides.lazy else options.lazy
  lazyBins := if overrides.lazyBins.isEmpty then options.lazyBins else overrides.lazyBins
  autoUpdate := if overrides.autoUpdate.isSome then overrides.autoUpdate else options.autoUpdate
  opts := overrides.opts.entries.foldl (fun m e => m.insert e.1 e.2) options.opts

/-! ### Sources -/

/-- `ResolvedToolOptions`. -/
structure ResolvedToolOptions where
  options : ToolOptions := {}
  sources : IndexMap String ToolOptionSource := .empty
  registryBackend : Option String := none

namespace ResolvedToolOptions

/-- The name of a variable of `install_env` among the sources. -/
def installEnvKey (key : String) : String := "install_env." ++ key

/-- `source_for_key`. -/
def sourceForKey (r : ResolvedToolOptions) (key : String) : Option ToolOptionSource :=
  (r.sources.get key).or
    ((splitOnce '.' key.toList).bind fun p => r.sources.get (String.ofList p.1))

/-- The loop of `drop_superseded_registry_defaults`, at one key. -/
def dropRegistryDefault (r : ResolvedToolOptions) (key : String) : ResolvedToolOptions :=
  if r.sources.get key = some .registry then
    { r with
      options := { r.options with opts := r.options.opts.shiftRemove key }
      sources := r.sources.shiftRemove key }
  else r

/-- `drop_superseded_registry_defaults`. -/
def dropSupersededRegistryDefaults (r : ResolvedToolOptions) (options : ToolOptions)
    (source : ToolOptionSource) : ResolvedToolOptions :=
  if source = .registry ∨ ¬ setsSignerOption options then r
  else registrySignerPolicyKeys.foldl dropRegistryDefault r

/-- Note the source of an option, where the layer sets it. -/
def note (r : ResolvedToolOptions) (sets : Bool) (key : String) (source : ToolOptionSource) :
    ResolvedToolOptions :=
  if sets then { r with sources := r.sources.insert key source } else r

/-- `ResolvedToolOptions::apply_overrides`. -/
def applyOverrides (r : ResolvedToolOptions) (options : ToolOptions) (source : ToolOptionSource) :
    ResolvedToolOptions :=
  let r := { r with options := r.options.applyOverrides options }
  let r := options.opts.keys.foldl (fun r key => r.note true key source) r
  let r := r.dropSupersededRegistryDefaults options source
  let r := r.note options.os.isSome "os" source
  let r := r.note options.depends.isSome "depends" source
  let r := r.note (!options.installEnv.entries.isEmpty) "install_env" source
  let r := options.installEnv.keys.foldl (fun r key => r.note true (installEnvKey key) source) r
  let r := r.note options.lazy.isSome "lazy" source
  let r := r.note (!options.lazyBins.isEmpty) "lazy_bins" source
  r.note options.autoUpdate.isSome "auto_update" source

/-- `apply_registry`. -/
def applyRegistry (r : ResolvedToolOptions) (options : ToolOptions) (backend : String) :
    ResolvedToolOptions :=
  { r with registryBackend := some backend }.applyOverrides options .registry

/-- `options_from_sources`. -/
def optionsFromSources (r : ResolvedToolOptions) (sources : List ToolOptionSource) : ToolOptions :=
  let wanted := fun key => (r.sourceForKey key).any fun source => sources.contains source
  { os := if wanted "os" then r.options.os else none
    depends := if wanted "depends" then r.options.depends else none
    installEnv := r.options.installEnv.filterKeys fun key => wanted (installEnvKey key)
    lazy := if wanted "lazy" then r.options.lazy else none
    lazyBins := if wanted "lazy_bins" then r.options.lazyBins else []
    autoUpdate := if wanted "auto_update" then r.options.autoUpdate else none
    opts := r.options.opts.filterKeys wanted }

/-- The sources other than the registry, in the order they are copied. -/
def sourcesWithoutRegistry : List ToolOptionSource :=
  [.installManifest, .backendAlias, .config, .request, .inlineBackendArg]

/-- `extend_without_registry`. -/
def extendWithoutRegistry (r target : ResolvedToolOptions) : ResolvedToolOptions :=
  sourcesWithoutRegistry.foldl
    (fun target source => target.applyOverrides (r.optionsFromSources [source]) source) target

end ResolvedToolOptions

/-! ### Options one by one -/

/-- One option: a free-form one, a variable of `install_env`, or a typed one. -/
inductive OptionKey where
  | backend (key : String)
  | installEnv (key : String)
  | os
  | depends
  | lazy
  | lazyBins
  | autoUpdate
  deriving DecidableEq

/-- The value of an option. -/
inductive OptionValue where
  | toml (v : TomlValue)
  | env (v : EnvValue)
  | strings (l : List String)
  | flag (b : Bool)
  | text (s : String)

/-- The name of an option among the sources. -/
def OptionKey.name : OptionKey → String
  | .backend key => key
  | .installEnv key => ResolvedToolOptions.installEnvKey key
  | .os => "os"
  | .depends => "depends"
  | .lazy => "lazy"
  | .lazyBins => "lazy_bins"
  | .autoUpdate => "auto_update"

namespace ToolOptions

/-- The value that options have for one of them, if they set it. -/
def get (o : ToolOptions) : OptionKey → Option OptionValue
  | .backend key => (o.opts.get key).map .toml
  | .installEnv key => (o.installEnv.get key).map .env
  | .os => o.os.map .strings
  | .depends => o.depends.map .strings
  | .lazy => o.lazy.map .flag
  | .lazyBins => if o.lazyBins.isEmpty then none else some (.strings o.lazyBins)
  | .autoUpdate => o.autoUpdate.map .text

/-- Whether a layer notes its source under a name. -/
def names (o : ToolOptions) (name : String) : Bool :=
  o.opts.containsKey name || (o.os.isSome && name == "os") ||
    (o.depends.isSome && name == "depends") ||
    (!o.installEnv.entries.isEmpty && name == "install_env") ||
    o.installEnv.keys.any (fun key => ResolvedToolOptions.installEnvKey key == name) ||
    (o.lazy.isSome && name == "lazy") || (!o.lazyBins.isEmpty && name == "lazy_bins") ||
    (o.autoUpdate.isSome && name == "auto_update")

/-- An option that is set notes its source. -/
theorem names_of_get {o : ToolOptions} {k : OptionKey} (h : (o.get k).isSome) :
    o.names k.name = true := by
  cases k with
  | installEnv key =>
    rw [get, Option.isSome_map] at h
    have hmem : key ∈ o.installEnv.keys := o.installEnv.mem_keys.2 (Option.isSome_iff_exists.1 h)
    have hany : o.installEnv.keys.any (fun key' => ResolvedToolOptions.installEnvKey key' ==
        ResolvedToolOptions.installEnvKey key) = true :=
      List.any_eq_true.2 ⟨key, hmem, beq_self_eq_true _⟩
    simp [names, OptionKey.name, hany]
  | lazyBins =>
    rw [get] at h
    split_ifs at h with hempty
    · exact nomatch h
    · simp only [Bool.not_eq_true] at hempty
      simp [names, OptionKey.name, hempty]
  | _ =>
    simp only [get, Option.isSome_map] at h
    simp [names, OptionKey.name, IndexMap.containsKey, h]

/-- **Overrides win, option by option.** -/
theorem get_applyOverrides (o overrides : ToolOptions) (k : OptionKey) :
    (o.applyOverrides overrides).get k = (overrides.get k).or (o.get k) := by
  cases k with
  | backend key =>
    rw [get, get, get, applyOverrides, IndexMap.get_foldl_insert]
    cases overrides.opts.get key <;> rfl
  | installEnv key =>
    rw [get, get, get, applyOverrides, IndexMap.get_foldl_insert]
    cases overrides.installEnv.get key <;> rfl
  | lazyBins =>
    rw [get, get, get, applyOverrides]
    by_cases hempty : overrides.lazyBins.isEmpty = true
    · rw [if_pos hempty, if_pos hempty, Option.none_or]
    · rw [if_neg hempty, if_neg hempty, Option.some_or]
  | os => simp only [get, applyOverrides]; cases overrides.os <;> rfl
  | depends => simp only [get, applyOverrides]; cases overrides.depends <;> rfl
  | lazy => simp only [get, applyOverrides]; cases overrides.lazy <;> rfl
  | autoUpdate => simp only [get, applyOverrides]; cases overrides.autoUpdate <;> rfl

end ToolOptions

end Mise.Toolset
