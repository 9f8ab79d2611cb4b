/-
# The source of each resolved option

What `resolve` records for an option is the last layer that set it, apart from
the registry's retired policy (`resolved_layers`).  A name stands for one option
as long as no layer notes it for another one (`Unshared`): a free-form option
named `depends` shares its name with the typed one.

`extend_without_registry` copies the options one source after the other, which is
a run of layers of its own, over nothing.
-/

import Mise.Toolset.OptionsLayers

namespace Mise.Toolset

open Lib

namespace ResolvedToolOptions

/-! ### Names and options -/

/-- A layer that notes the option's name sets that option. -/
def Unshared (k : OptionKey) (layers : List Layer) : Prop :=
  ∀ l ∈ layers, l.1.names k.name = true → (l.1.get k).isSome

section Names

variable {registry : ToolOptions} {layers : List Layer}

theorem map_snd_or_map (v : Option OptionValue) (source : ToolOptionSource)
    (last : Option (OptionValue × ToolOptionSource)) :
    ((v.map (·, source)).or last).map Prod.snd =
      if v.isSome then some source else last.map Prod.snd := by
  cases v <;> rfl

theorem lastNoted_of_unshared {k : OptionKey} (h : Unshared k layers) :
    lastNoted k.name layers = (lastSet k layers).map Prod.snd := by
  induction layers using List.reverseRecOn with
  | nil => rfl
  | append_singleton layers l ih =>
    rw [lastNoted_concat, lastSet_concat, map_snd_or_map,
      ih fun x hx => h x (List.mem_append_left _ hx)]
    by_cases hset : (l.1.get k).isSome = true
    · rw [if_pos hset, if_pos (ToolOptions.names_of_get hset)]
    · rw [if_neg hset,
        if_neg (mt (h l (List.mem_append_right _ List.mem_cons_self)) hset)]

/-- An option that some layer sets has its name noted. -/
theorem isSome_lastNoted {k : OptionKey} (h : (lastSet k layers).isSome) :
    (lastNoted k.name layers).isSome := by
  induction layers using List.reverseRecOn with
  | nil => exact h
  | append_singleton layers l ih =>
    rw [lastNoted_concat]
    rw [lastSet_concat] at h
    by_cases hset : (l.1.get k).isSome = true
    · rw [if_pos (ToolOptions.names_of_get hset)]
      rfl
    · rw [Option.not_isSome_iff_eq_none.1 hset, Option.map_none, Option.none_or] at h
      split_ifs
      · rfl
      · exact ih h

/-- A retired name is that of no other option. -/
theorem retired_name {k : OptionKey} (h : retired registry layers (.backend k.name) = true) :
    k = .backend k.name := by
  have hkey : k.name ∈ registrySignerPolicyKeys := by
    rw [retired, Bool.and_eq_true, Bool.and_eq_true, Bool.and_eq_true] at h
    exact List.contains_iff_mem.1 h.1.1.1
  cases k with
  | backend key => rfl
  | installEnv key => exact absurd (dot_mem_installEnvKey key) (dot_not_mem_policy _ hkey)
  | _ => exact absurd hkey (by decide)

theorem retired_backend_name (k : OptionKey) :
    retired registry layers (.backend k.name) = retired registry layers k := by
  by_cases h : retired registry layers (.backend k.name) = true
  · rw [← retired_name h]
  · cases k with
    | backend key => rfl
    | _ => exact Bool.eq_false_iff.2 h

theorem sourceForKey_of_isSome {r : ResolvedToolOptions} {key : String}
    (h : (r.sources.get key).isSome) : r.sourceForKey key = r.sources.get key := by
  obtain ⟨source, hsource⟩ := Option.isSome_iff_exists.1 h
  rw [sourceForKey, hsource, Option.some_or]

/-- The names of the policy have no dot to fall back from. -/
theorem sourceForKey_of_mem_policy {key : String} (h : key ∈ registrySignerPolicyKeys)
    (r : ResolvedToolOptions) : r.sourceForKey key = r.sources.get key := by
  have hsplit : splitOnce '.' key.toList = none := by
    cases hsome : splitOnce '.' key.toList with
    | none => rfl
    | some p =>
      have hdot := dot_not_mem_policy key h
      rw [splitOnce_eq_some hsome] at hdot
      exact absurd (List.mem_append_right _ List.mem_cons_self) hdot
  rw [sourceForKey, hsplit, Option.bind_none, Option.or_none]

theorem lastSet_cons (k : OptionKey) (l : Layer) :
    lastSet k (l :: layers) = (lastSet k layers).or ((l.1.get k).map (·, l.2)) := by
  rw [lastSet, List.reverse_cons, List.findSome?_append, ← lastSet, List.findSome?_cons]
  cases l.1.get k <;> rfl

/-- What no layer sets comes from nowhere. -/
theorem lastSet_eq_none {k : OptionKey} (h : ∀ l ∈ layers, l.1.get k = none) :
    lastSet k layers = none := by
  rw [lastSet, List.findSome?_eq_none_iff]
  intro l hl
  rw [h l (List.mem_reverse.1 hl)]
  rfl

end Names

/-! ### Copying what is not the registry's -/

section Layered

variable {layers : List Layer}

/-- The layers over nothing. -/
def layered (layers : List Layer) : ResolvedToolOptions :=
  layers.foldl (fun r l => r.applyOverrides l.1 l.2) {}

/-- The last layer to note a name is one of them. -/
theorem mem_of_lastNoted {n : String} {source : ToolOptionSource}
    (h : lastNoted n layers = some source) : ∃ l ∈ layers, l.1.names n = true ∧ l.2 = source := by
  obtain ⟨l, hl, hsource⟩ := List.exists_of_findSome?_eq_some h
  split_ifs at hsource with hname
  exact ⟨l, List.mem_reverse.1 hl, hname, Option.some.inj hsource⟩

/-- Layers that are not the registry's retire nothing. -/
theorem layered_spec (hsources : ∀ l ∈ layers, l.2 ≠ .registry) :
    (∀ k, (layered layers).options.get k = (lastSet k layers).map Prod.fst) ∧
      ∀ n, (layered layers).sources.get n = lastNoted n layers := by
  induction layers using List.reverseRecOn with
  | nil =>
    refine ⟨fun k => ?_, fun n => rfl⟩
    cases k <;> rfl
  | append_singleton layers l ih =>
    have hbefore := fun x hx => hsources x (List.mem_append_left [l] hx)
    obtain ⟨ihget, ihsource⟩ := ih hbefore
    obtain ⟨hget, hsource⟩ := applyOverrides_spec (layered layers) l.1 l.2
    have hlayered : layered (layers ++ [l]) = (layered layers).applyOverrides l.1 l.2 := by
      rw [layered, List.foldl_append]
      rfl
    have hkeep : ∀ k, ¬ drops (layered layers) l.1 l.2 k := by
      intro k hdrops
      cases k with
      | backend key =>
        obtain ⟨x, hx, -, hreg⟩ := mem_of_lastNoted ((ihsource key).symm.trans hdrops.2.2.2.1)
        exact hbefore x hx hreg
      | _ => exact hdrops
    rw [hlayered]
    refine ⟨fun k => (hget k).trans ?_, fun n => (hsource n).trans ?_⟩
    · rw [if_neg (hkeep k), ihget, lastSet_concat, map_fst_or_map]
    · rw [if_neg (hkeep _), ihsource, lastNoted_concat]

end Layered

section Extend

variable (r : ResolvedToolOptions)

/-- The layers that the copy is made of. -/
def copies : List Layer :=
  sourcesWithoutRegistry.map fun source => (r.optionsFromSources [source], source)

theorem extendWithoutRegistry_eq : r.extendWithoutRegistry {} = layered r.copies := by
  rw [extendWithoutRegistry, layered, copies, List.foldl_map]

theorem copies_ne_registry : ∀ l ∈ r.copies, l.2 ≠ .registry := by
  intro l hl
  obtain ⟨source, hsource, rfl⟩ := List.mem_map.1 hl
  have hne : ∀ source ∈ sourcesWithoutRegistry, source ≠ .registry := by decide
  exact hne source hsource

theorem any_contains_singleton (found : Option ToolOptionSource) (source : ToolOptionSource) :
    (found.any fun s => [source].contains s) = true ↔ found = some source := by
  cases found with
  | none => simp
  | some s => simp

theorem get_optionsFromSources (source : ToolOptionSource) (k : OptionKey) :
    (r.optionsFromSources [source]).get k =
      if r.sourceForKey k.name = some source then r.options.get k else none := by
  have hwanted := any_contains_singleton (r.sourceForKey k.name) source
  by_cases hsource : r.sourceForKey k.name = some source
  · rw [if_pos hsource]
    have hpos := hwanted.2 hsource
    cases k <;> simp only [OptionKey.name] at hpos <;>
      simp only [ToolOptions.get, optionsFromSources, IndexMap.get_filterKeys, hpos, if_true]
  · rw [if_neg hsource]
    have hneg := Bool.eq_false_iff.2 (mt hwanted.1 hsource)
    cases k <;> simp only [OptionKey.name] at hneg <;>
      simp only [ToolOptions.get, optionsFromSources, IndexMap.get_filterKeys, hneg,
        Bool.false_eq_true, if_false, Option.map_none, List.isEmpty_nil, if_true]

/-- Each option is copied in the layer of its source. -/
theorem lastSet_copies (k : OptionKey) : (lastSet k r.copies).map Prod.fst =
    (r.sourceForKey k.name).bind fun source =>
      if source = .registry then none else r.options.get k := by
  cases hsource : r.sourceForKey k.name with
  | none =>
    rw [lastSet_eq_none, Option.bind_none, Option.map_none]
    intro l hl
    obtain ⟨source, -, rfl⟩ := List.mem_map.1 hl
    rw [get_optionsFromSources, hsource]
    rfl
  | some source =>
    cases source <;> cases hget : r.options.get k <;>
      simp [lastSet, copies, sourcesWithoutRegistry, get_optionsFromSources, hsource, hget]

/-- A name that a copy notes is one whose source it has, except that of all
variables. -/
theorem sourceForKey_of_names {source : ToolOptionSource} {n : String}
    (h : (r.optionsFromSources [source]).names n = true) :
    r.sourceForKey n = some source ∨ n = "install_env" ∧ r.options.installEnv.entries ≠ [] := by
  have hwanted := any_contains_singleton (r.sourceForKey n) source
  by_cases hsource : r.sourceForKey n = some source
  · exact .inl hsource
  · have hneg := Bool.eq_false_iff.2 (mt hwanted.1 hsource)
    simp only [ToolOptions.names, Bool.or_eq_true, Bool.and_eq_true, beq_iff_eq] at h
    rcases h with
      ((((((h | ⟨h, rfl⟩) | ⟨h, rfl⟩) | ⟨h, rfl⟩) | h) | ⟨h, rfl⟩) | ⟨h, rfl⟩) | ⟨h, rfl⟩
    · rw [IndexMap.containsKey, optionsFromSources, IndexMap.get_filterKeys, hneg] at h
      cases h
    · simp only [optionsFromSources, hneg] at h
      cases h
    · simp only [optionsFromSources, hneg] at h
      cases h
    · refine .inr ⟨rfl, fun hnil => ?_⟩
      simp only [optionsFromSources, IndexMap.filterKeys, hnil] at h
      cases h
    · obtain ⟨key, hkey, hname⟩ := List.any_eq_true.1 h
      obtain ⟨v, hv⟩ := (IndexMap.mem_keys _).1 hkey
      simp only [optionsFromSources, IndexMap.get_filterKeys, beq_iff_eq.1 hname, hneg] at hv
      cases hv
    · simp only [optionsFromSources, hneg] at h
      cases h
    · simp only [optionsFromSources, hneg] at h
      cases h
    · simp only [optionsFromSources, hneg] at h
      cases h

/-- **The copy has each option that is not the registry's, from its source.** -/
theorem extendWithoutRegistry_spec :
    (∀ k, (r.extendWithoutRegistry {}).options.get k =
      (r.sourceForKey k.name).bind fun source =>
        if source = .registry then none else r.options.get k) ∧
    ∀ k, ((r.extendWithoutRegistry {}).options.get k).isSome →
      (k = .backend "install_env" → r.options.installEnv.entries = []) →
      (r.extendWithoutRegistry {}).sourceForKey k.name = r.sourceForKey k.name := by
  obtain ⟨hget, hsource⟩ := layered_spec r.copies_ne_registry
  rw [extendWithoutRegistry_eq]
  refine ⟨fun k => (hget k).trans (r.lastSet_copies k), fun k hset henv => ?_⟩
  rw [hget, Option.isSome_map] at hset
  have hnoted := isSome_lastNoted hset
  rw [sourceForKey_of_isSome (by rwa [hsource]), hsource]
  obtain ⟨source, hlast⟩ := Option.isSome_iff_exists.1 hnoted
  obtain ⟨l, hl, hname, hl2⟩ := mem_of_lastNoted hlast
  obtain ⟨source', -, rfl⟩ := List.mem_map.1 hl
  subst hl2
  rw [hlast]
  rcases r.sourceForKey_of_names hname with h | ⟨hn, hne⟩
  · exact h.symm
  · refine absurd (henv ?_) hne
    cases k with
    | backend key => exact congrArg OptionKey.backend hn
    | installEnv key =>
      have hdot := dot_mem_installEnvKey key
      rw [show installEnvKey key = "install_env" from hn] at hdot
      exact absurd hdot (by decide)
    | _ => exact absurd hn (by decide)

end Extend

/-! ### Every option, its value and its source -/

/-- What is left of the registry's options and the layers over them. -/
structure Resolves (registry : ToolOptions) (layers : List Layer) (r : ResolvedToolOptions) :
    Prop where
  /-- An option has the value of the last layer that sets it. -/
  value : ∀ k, r.options.get k = if retired registry layers k then none
    else (lastSet k ((registry, .registry) :: layers)).map Prod.fst
  /-- Its name is noted with the source of that layer. -/
  source : ∀ k, Unshared k ((registry, .registry) :: layers) →
    r.sources.get k.name = if retired registry layers k then none
      else (lastSet k ((registry, .registry) :: layers)).map Prod.snd
  /-- The source that is read for an option is the one noted. -/
  read : ∀ k, (r.options.get k).isSome →
    (r.sources.get k.name).isSome ∧ r.sourceForKey k.name = r.sources.get k.name
  /-- Next to a signer option of a layer, no policy of the registry is left. -/
  signer : (∃ l ∈ layers, setsSignerOption l.1 = true) → ∀ key ∈ registrySignerPolicyKeys,
    r.sourceForKey key ≠ some .registry ∧
      r.options.get (.backend key) = (lastSet (.backend key) layers).map Prod.fst
  /-- The copy has exactly the options that are not the registry's. -/
  copy : ∀ k, (r.extendWithoutRegistry {}).options.get k =
    if r.sourceForKey k.name = some .registry then none else r.options.get k
  /-- Each has the same source there. -/
  copySource : ∀ k, ((r.extendWithoutRegistry {}).options.get k).isSome →
    (k = .backend "install_env" → r.options.installEnv.entries = []) →
    (r.extendWithoutRegistry {}).sourceForKey k.name = r.sourceForKey k.name

section Resolved

variable {registry : ToolOptions} {layers : List Layer}

theorem isSome_sources_resolve (backend : String) (hsources : ∀ l ∈ layers, l.2 ≠ .registry)
    {k : OptionKey} (h : ((resolve registry backend layers).options.get k).isSome) :
    ((resolve registry backend layers).sources.get k.name).isSome := by
  obtain ⟨hget, hsource⟩ := resolve_spec registry backend hsources
  rw [hget] at h
  rw [hsource, retired_backend_name]
  split_ifs at h ⊢ with hretired
  · exact h
  · exact isSome_lastNoted (by rwa [Option.isSome_map] at h)

/-- Once a layer sets a signer option, a policy option of the registry that no
layer sets is retired. -/
theorem retired_of_signer {key : String} (hkey : key ∈ registrySignerPolicyKeys)
    (hset : ∃ l ∈ layers, setsSignerOption l.1 = true)
    (hregistry : registry.opts.containsKey key = true)
    (hlayers : ∀ l ∈ layers, l.1.opts.containsKey key = false) :
    retired registry layers (.backend key) = true := by
  simp only [retired, List.contains_iff_mem, Bool.and_eq_true, List.all_eq_true,
    List.any_eq_true, Bool.not_eq_true']
  exact ⟨⟨⟨hkey, hregistry⟩, hlayers⟩, hset⟩

/-- With a signer of its own, a tool has no signer policy of the registry. -/
theorem signer_resolve (backend : String) (hsources : ∀ l ∈ layers, l.2 ≠ .registry)
    (hset : ∃ l ∈ layers, setsSignerOption l.1 = true) {key : String}
    (hkey : key ∈ registrySignerPolicyKeys) :
    (resolve registry backend layers).sourceForKey key ≠ some .registry ∧
      (resolve registry backend layers).options.get (.backend key) =
        (lastSet (.backend key) layers).map Prod.fst := by
  obtain ⟨hget, hsource⟩ := resolve_spec registry backend hsources
  rw [sourceForKey_of_mem_policy hkey, hsource, hget]
  by_cases hretired : retired registry layers (.backend key) = true
  · rw [if_pos hretired, if_pos hretired, lastSet_eq_none, Option.map_none]
    · exact ⟨nofun, rfl⟩
    · intro l hl
      simp only [retired, Bool.and_eq_true, List.all_eq_true, Bool.not_eq_true'] at hretired
      have hno := hretired.1.2 l hl
      rw [IndexMap.containsKey, Option.isSome_eq_false_iff, Option.isNone_iff_eq_none] at hno
      rw [ToolOptions.get, hno, Option.map_none]
  · rw [if_neg hretired, if_neg hretired, lastSet_cons]
    refine ⟨fun hreg => ?_, ?_⟩
    · obtain ⟨hregistry, hlayers⟩ := (lastNoted_eq_registry_iff hkey hsources).1 hreg
      exact hretired (retired_of_signer hkey hset hregistry hlayers)
    · cases hlast : lastSet (.backend key) layers with
      | some found => rfl
      | none =>
        have hlayers : ∀ l ∈ layers, l.1.opts.containsKey key = false := by
          intro l hl
          rw [lastSet, List.findSome?_eq_none_iff] at hlast
          have hno := hlast l (List.mem_reverse.2 hl)
          rw [ToolOptions.get, Option.map_eq_none_iff, Option.map_eq_none_iff] at hno
          rw [IndexMap.containsKey, hno]
          rfl
        cases hregistry : registry.opts.get key with
        | none => rw [ToolOptions.get, hregistry]; rfl
        | some v =>
          refine absurd (retired_of_signer hkey hset ?_ hlayers) hretired
          rw [IndexMap.containsKey, hregistry]
          rfl

/-- **What the registry and any layers over it resolve to.** -/
theorem resolved_layers (registry : ToolOptions) (backend : String) (layers : List Layer)
    (hsources : ∀ l ∈ layers, l.2 ≠ .registry) :
    Resolves registry layers (resolve registry backend layers) where
  value := (resolve_spec registry backend hsources).1
  source k hk := by
    rw [(resolve_spec registry backend hsources).2, retired_backend_name,
      lastNoted_of_unshared hk]
  read k hk := by
    have hsome := isSome_sources_resolve backend hsources hk
    exact ⟨hsome, sourceForKey_of_isSome hsome⟩
  signer hset key hkey := signer_resolve backend hsources hset hkey
  copy k := by
    rw [(extendWithoutRegistry_spec _).1]
    cases hsource : (resolve registry backend layers).sourceForKey k.name with
    | some source =>
      rw [Option.bind_some]
      exact ite_congr (propext Option.some_inj.symm) (fun _ => rfl) fun _ => rfl
    | none =>
      rw [if_neg nofun, Option.bind_none]
      symm
      rw [← Option.not_isSome_iff_eq_none]
      intro hset
      have hsome := isSome_sources_resolve backend hsources hset
      rw [sourceForKey_of_isSome hsome] at hsource
      rw [hsource] at hsome
      exact nomatch hsome
  copySource := (extendWithoutRegistry_spec _).2

end Resolved

/-! ### Two tools -/

/-- An option with a text value. -/
def text (key value : String) : ToolOptions where
  opts := IndexMap.empty.insert key (.string value)

theorem resolved_layers_workflow :
    Resolves (text "issuer" "login") [(text "workflow" "release.yml", .config)]
      (resolve (text "issuer" "login") "aqua:a/b" [(text "workflow" "release.yml", .config)]) :=
  resolved_layers _ _ _ (by simp)

/-- The issuer that the registry alone sets is gone once a workflow is set, and a
free-form option `depends` of a later layer takes over the source that is read
for the typed one, whose value is still that of the configuration. -/
theorem resolved_layers_issuer_depends :
    (((lastSet (.backend "issuer") [(text "issuer" "login", .registry),
        (text "workflow" "release.yml", .config)]).map Prod.snd = some .registry) ∧
      (resolve (text "issuer" "login") "aqua:a/b"
        [(text "workflow" "release.yml", .config)]).options.get (.backend "issuer") = none ∧
      (resolve (text "issuer" "login") "aqua:a/b"
        [(text "workflow" "release.yml", .config)]).sourceForKey "issuer" = none) ∧
    (lastSet .depends [({}, .registry), ({ depends := some ["node"] }, .config),
        (text "depends" "go", .inlineBackendArg)] = some (.strings ["node"], .config)) ∧
      (resolve {} "aqua:a/b" [({ depends := some ["node"] }, .config),
        (text "depends" "go", .inlineBackendArg)]).options.get .depends =
          some (.strings ["node"]) ∧
      (resolve {} "aqua:a/b" [({ depends := some ["node"] }, .config),
        (text "depends" "go", .inlineBackendArg)]).sourceForKey (OptionKey.name .depends) =
          some .inlineBackendArg := by
  refine ⟨⟨rfl, ?_, ?_⟩, rfl, rfl, ?_⟩
  · rfl
  · decide +kernel
  · decide +kernel

end ResolvedToolOptions

end Mise.Toolset
