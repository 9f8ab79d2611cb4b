/-
# Layers of tool options

What `apply_registry` and any number of `apply_overrides` from other sources
leave: every option has the value of the last layer that sets it, and is noted
under its name with that layer's source, except for the registry's signer policy
once a layer sets a signer option (`resolved_layers`). A name stands for one
option as long as no layer sets both a free-form option and a typed one of that
name (`Unshared`).
-/

import Mathlib.Data.List.Induction
import Mise.Toolset.Options

namespace Mise.Toolset

open Lib

namespace ResolvedToolOptions

/-! ### One layer -/

section Layer

variable {r : ResolvedToolOptions} {o : ToolOptions} {source : ToolOptionSource}

theorem options_note (sets : Bool) (key : String) :
    (r.note sets key source).options = r.options := by
  rw [note]
  split_ifs <;> rfl

theorem get_sources_note (sets : Bool) (key n : String) :
    (r.note sets key source).sources.get n =
      if sets && n == key then some source else r.sources.get n := by
  rw [note]
  by_cases hsets : sets = true
  · rw [if_pos hsets, IndexMap.get_insert, hsets, Bool.true_and]
    exact ite_congr (propext beq_iff_eq.symm) (fun _ => rfl) fun _ => rfl
  · rw [if_neg hsets, Bool.eq_false_iff.2 hsets, Bool.false_and]
    rfl

/-- The names that one after another are noted. -/
def noteAll (r : ResolvedToolOptions) (names : List (Bool × String)) (source : ToolOptionSource) :
    ResolvedToolOptions :=
  names.foldl (fun r e => r.note e.1 e.2 source) r

theorem options_noteAll (names : List (Bool × String)) :
    (r.noteAll names source).options = r.options := by
  induction names generalizing r with
  | nil => rfl
  | cons e names ih => exact ih.trans (options_note e.1 e.2)

theorem get_sources_noteAll (names : List (Bool × String)) (n : String) :
    (r.noteAll names source).sources.get n =
      if names.any (fun e => e.1 && n == e.2) then some source else r.sources.get n := by
  induction names generalizing r with
  | nil => rfl
  | cons e names ih =>
    refine ih.trans ?_
    rw [get_sources_note, List.any_cons]
    by_cases he : (e.1 && n == e.2) = true
    · rw [if_pos he, he, Bool.true_or, if_pos rfl, ite_self]
    · rw [if_neg he, Bool.eq_false_iff.2 he, Bool.false_or]

/-- An option that is still the registry's is dropped at its key alone. -/
theorem dropRegistryDefault_spec (r : ResolvedToolOptions) (a : String) :
    (r.dropRegistryDefault a).options.toCoreToolOptions = r.options.toCoreToolOptions ∧
      ∀ key, (r.dropRegistryDefault a).options.opts.get key =
          (if key = a ∧ r.sources.get key = some .registry then none
            else r.options.opts.get key) ∧
        (r.dropRegistryDefault a).sources.get key =
          if key = a ∧ r.sources.get key = some .registry then none else r.sources.get key := by
  rw [dropRegistryDefault]
  by_cases ha : r.sources.get a = some .registry
  · rw [if_pos ha]
    refine ⟨rfl, fun key => ?_⟩
    rw [IndexMap.get_shiftRemove, IndexMap.get_shiftRemove]
    by_cases hkey : key = a
    · subst hkey
      rw [if_pos rfl, if_pos rfl, if_pos ⟨rfl, ha⟩, if_pos ⟨rfl, ha⟩]
      exact ⟨rfl, rfl⟩
    · rw [if_neg hkey, if_neg hkey, if_neg fun h => hkey h.1, if_neg fun h => hkey h.1]
      exact ⟨rfl, rfl⟩
  · rw [if_neg ha]
    refine ⟨rfl, fun key => ?_⟩
    have hkey : ¬ (key = a ∧ r.sources.get key = some .registry) := by
      rintro ⟨rfl, h⟩
      exact ha h
    rw [if_neg hkey, if_neg hkey]
    exact ⟨rfl, rfl⟩

theorem foldl_dropRegistryDefault_spec (keys : List String) (r : ResolvedToolOptions) :
    (keys.foldl dropRegistryDefault r).options.toCoreToolOptions = r.options.toCoreToolOptions ∧
      ∀ key, (keys.foldl dropRegistryDefault r).options.opts.get key =
          (if key ∈ keys ∧ r.sources.get key = some .registry then none
            else r.options.opts.get key) ∧
        (keys.foldl dropRegistryDefault r).sources.get key =
          if key ∈ keys ∧ r.sources.get key = some .registry then none
            else r.sources.get key := by
  induction keys generalizing r with
  | nil =>
    refine ⟨rfl, fun key => ?_⟩
    rw [if_neg fun h => List.not_mem_nil h.1, if_neg fun h => List.not_mem_nil h.1]
    exact ⟨rfl, rfl⟩
  | cons a keys ih =>
    obtain ⟨hcore, hdrop⟩ := dropRegistryDefault_spec r a
    obtain ⟨hcore', hrest⟩ := ih (r.dropRegistryDefault a)
    refine ⟨hcore'.trans hcore, fun key => ?_⟩
    obtain ⟨hopts, hsource⟩ := hdrop key
    rw [List.foldl_cons, (hrest key).1, (hrest key).2, hopts, hsource]
    by_cases hreg : r.sources.get key = some .registry
    · by_cases ha : key = a
      · simp [ha, ha ▸ hreg]
      · simp [ha, hreg]
    · simp [hreg]

/-- A signer option of the registry that the layer retires. -/
def drops (r : ResolvedToolOptions) (o : ToolOptions) (source : ToolOptionSource) :
    OptionKey → Prop
  | .backend key => source ≠ .registry ∧ setsSignerOption o = true ∧
    key ∈ registrySignerPolicyKeys ∧ r.sources.get key = some .registry ∧ o.opts.get key = none
  | _ => False

instance : DecidablePred (drops r o source) := fun k =>
  match k with
  | .backend _ => inferInstanceAs (Decidable (_ ∧ _))
  | .installEnv _ | .os | .depends | .lazy | .lazyBins | .autoUpdate =>
    inferInstanceAs (Decidable False)

/-- The layer's free-form options are noted before the registry's are dropped. -/
def noted (r : ResolvedToolOptions) (o : ToolOptions) (source : ToolOptionSource) :
    ResolvedToolOptions :=
  noteAll { r with options := r.options.applyOverrides o } (o.opts.keys.map fun key => (true, key))
    source

theorem any_keys {ν : Type} (m : IndexMap String ν) (n : String) :
    m.keys.any (fun key => n == key) = m.containsKey n := by
  rw [Bool.eq_iff_iff, List.any_eq_true, IndexMap.containsKey, Option.isSome_iff_exists,
    ← IndexMap.mem_keys]
  constructor
  · rintro ⟨key, hkey, heq⟩
    exact beq_iff_eq.1 heq ▸ hkey
  · exact fun hn => ⟨n, hn, beq_self_eq_true n⟩

theorem get_sources_noted (n : String) : (r.noted o source).sources.get n =
    if o.opts.containsKey n then some source else r.sources.get n := by
  rw [noted, get_sources_noteAll, List.any_map, ← any_keys]
  simp only [Function.comp_def, Bool.true_and]

/-- Where the registry's options are dropped. -/
theorem dropSuperseded_noted_spec :
    ((r.noted o source).dropSupersededRegistryDefaults o source).options.toCoreToolOptions =
        (r.options.applyOverrides o).toCoreToolOptions ∧
      ∀ n, ((r.noted o source).dropSupersededRegistryDefaults o source).options.opts.get n =
          (if drops r o source (.backend n) then none
            else (r.options.applyOverrides o).opts.get n) ∧
        ((r.noted o source).dropSupersededRegistryDefaults o source).sources.get n =
          if drops r o source (.backend n) then none else (r.noted o source).sources.get n := by
  have hoptions : (r.noted o source).options = r.options.applyOverrides o :=
    options_noteAll _
  rw [dropSupersededRegistryDefaults]
  by_cases hgate : source = .registry ∨ ¬ setsSignerOption o = true
  · rw [if_pos hgate, hoptions]
    refine ⟨rfl, fun n => ?_⟩
    have hnot : ¬ drops r o source (.backend n) := fun h =>
      hgate.elim h.1 fun hset => hset h.2.1
    rw [if_neg hnot, if_neg hnot]
    exact ⟨rfl, rfl⟩
  · rw [if_neg hgate]
    obtain ⟨hcore, hdrop⟩ := foldl_dropRegistryDefault_spec registrySignerPolicyKeys
      (r.noted o source)
    rw [not_or, not_not] at hgate
    refine ⟨hcore.trans (by rw [hoptions]), fun n => ?_⟩
    -- a key that the layer sets is not the registry's any more
    have hiff : (n ∈ registrySignerPolicyKeys ∧
        (r.noted o source).sources.get n = some .registry) ↔ drops r o source (.backend n) := by
      rw [get_sources_noted, IndexMap.containsKey]
      constructor
      · rintro ⟨hn, hreg⟩
        cases hset : o.opts.get n with
        | none =>
          rw [hset, Option.isSome_none, if_neg Bool.false_ne_true] at hreg
          exact ⟨hgate.1, hgate.2, hn, hreg, hset⟩
        | some v =>
          rw [hset, Option.isSome_some, if_pos rfl] at hreg
          exact absurd (Option.some.inj hreg) hgate.1
      · rintro ⟨-, -, hn, hreg, hset⟩
        rw [hset, Option.isSome_none, if_neg Bool.false_ne_true]
        exact ⟨hn, hreg⟩
    rw [(hdrop n).1, (hdrop n).2, hoptions]
    exact ⟨ite_congr (propext hiff) (fun _ => rfl) fun _ => rfl,
      ite_congr (propext hiff) (fun _ => rfl) fun _ => rfl⟩

/-- The names a layer notes after that. -/
def coreNames (o : ToolOptions) : List (Bool × String) :=
  [(o.os.isSome, "os"), (o.depends.isSome, "depends"),
    (!o.installEnv.entries.isEmpty, "install_env")] ++
    o.installEnv.keys.map (fun key => (true, installEnvKey key)) ++
    [(o.lazy.isSome, "lazy"), (!o.lazyBins.isEmpty, "lazy_bins"),
      (o.autoUpdate.isSome, "auto_update")]

theorem applyOverrides_eq : r.applyOverrides o source =
    ((r.noted o source).dropSupersededRegistryDefaults o source).noteAll (coreNames o) source := by
  rw [noteAll, coreNames, List.foldl_append, List.foldl_append, List.foldl_map]
  rw [noted, noteAll, List.foldl_map]
  rfl

theorem names_eq (n : String) :
    o.names n = (o.opts.containsKey n || (coreNames o).any fun e => e.1 && n == e.2) := by
  have henv : o.installEnv.keys.any (fun key => installEnvKey key == n) =
      o.installEnv.keys.any (fun key => n == installEnvKey key) := by
    simp only [beq_eq_decide, eq_comm]
  rw [ToolOptions.names, henv, coreNames, List.any_append, List.any_append, List.any_map]
  simp only [List.any_cons, List.any_nil, Function.comp_def, Bool.true_and, Bool.or_false,
    Bool.or_assoc]

/-- **What one layer does to each option and to each source.** -/
theorem applyOverrides_spec (r : ResolvedToolOptions) (o : ToolOptions)
    (source : ToolOptionSource) :
    (∀ k, (r.applyOverrides o source).options.get k =
      if drops r o source k then none else (o.get k).or (r.options.get k)) ∧
    ∀ n, (r.applyOverrides o source).sources.get n =
      if o.names n then some source else if drops r o source (.backend n) then none
      else r.sources.get n := by
  obtain ⟨hcore, hdrop⟩ := @dropSuperseded_noted_spec r o source
  refine ⟨fun k => ?_, fun n => ?_⟩
  · rw [applyOverrides_eq, options_noteAll, ← ToolOptions.get_applyOverrides]
    cases k with
    | backend key =>
      rw [ToolOptions.get, (hdrop key).1]
      split_ifs
      · rfl
      · rfl
    | _ =>
      rw [if_neg (show ¬ drops r o source _ from id), ToolOptions.get, hcore]
      rfl
  · rw [applyOverrides_eq, get_sources_noteAll, names_eq, (hdrop n).2, get_sources_noted]
    cases hset : o.opts.containsKey n with
    | false => rw [Bool.false_or, if_neg Bool.false_ne_true]
    | true =>
      have hnot : ¬ drops r o source (.backend n) := by
        rintro ⟨-, -, -, -, hnone⟩
        rw [IndexMap.containsKey, hnone] at hset
        cases hset
      rw [Bool.true_or, if_pos rfl, if_neg hnot, if_pos rfl, ite_self]

end Layer

/-! ### All layers -/

/-- A layer: options and where they come from. -/
abbrev Layer := ToolOptions × ToolOptionSource

/-- The value and the source that the last layer to set an option gives it. -/
def lastSet (k : OptionKey) (layers : List Layer) : Option (OptionValue × ToolOptionSource) :=
  layers.reverse.findSome? fun l => (l.1.get k).map (·, l.2)

/-- The source of the last layer that notes a name. -/
def lastNoted (n : String) (layers : List Layer) : Option ToolOptionSource :=
  layers.reverse.findSome? fun l => if l.1.names n then some l.2 else none

/-- The registry's options, and the layers over them. -/
def resolve (registry : ToolOptions) (backend : String) (layers : List Layer) :
    ResolvedToolOptions :=
  layers.foldl (fun r l => r.applyOverrides l.1 l.2)
    (applyRegistry {} registry backend)

/-- An option of the registry's signer policy that no layer sets, though one of
them sets a signer option. -/
def retired (registry : ToolOptions) (layers : List Layer) : OptionKey → Bool
  | .backend key => registrySignerPolicyKeys.contains key && registry.opts.containsKey key &&
    layers.all (fun l => !l.1.opts.containsKey key) && layers.any fun l => setsSignerOption l.1
  | _ => false

section Layers

variable {registry : ToolOptions} {layers : List Layer}

theorem lastSet_concat (k : OptionKey) (l : Layer) :
    lastSet k (layers ++ [l]) = ((l.1.get k).map (·, l.2)).or (lastSet k layers) := by
  rw [lastSet, List.reverse_append, List.reverse_singleton, List.singleton_append,
    List.findSome?_cons]
  cases l.1.get k <;> rfl

theorem lastNoted_concat (n : String) (l : Layer) :
    lastNoted n (layers ++ [l]) = if l.1.names n then some l.2 else lastNoted n layers := by
  rw [lastNoted, List.reverse_append, List.reverse_singleton, List.singleton_append,
    List.findSome?_cons]
  split_ifs <;> rfl

theorem dot_mem_installEnvKey (key : String) : '.' ∈ (installEnvKey key).toList := by
  rw [installEnvKey, String.toList_append]
  exact List.mem_append_left _ (by decide)

theorem dot_not_mem_policy : ∀ key ∈ registrySignerPolicyKeys, '.' ∉ key.toList := by
  simp [registrySignerPolicyKeys]

/-- The names of the signer policy are free-form options. -/
theorem names_of_mem_policy {o : ToolOptions} {key : String}
    (h : key ∈ registrySignerPolicyKeys) : o.names key = o.opts.containsKey key := by
  have henv : o.installEnv.keys.any (fun x => key == installEnvKey x) = false := by
    rw [List.any_eq_false]
    rintro x - heq
    have hdot := dot_mem_installEnvKey x
    rw [← beq_iff_eq.1 heq] at hdot
    exact dot_not_mem_policy key h hdot
  have hplain : ∀ name ∈ ["os", "depends", "install_env", "lazy", "lazy_bins", "auto_update"],
      ∀ key ∈ registrySignerPolicyKeys, (key == name) = false := by decide
  have hcore : (coreNames o).any (fun e => e.1 && key == e.2) = false := by
    rw [coreNames, List.any_append, List.any_append, List.any_map]
    simp [Function.comp_def, henv, hplain _ _ key h]
  rw [names_eq, hcore, Bool.or_false]

/-- Only the registry notes an option of its policy that is still its own. -/
theorem lastNoted_eq_registry_iff {key : String} (hkey : key ∈ registrySignerPolicyKeys)
    (hsources : ∀ l ∈ layers, l.2 ≠ .registry) :
    lastNoted key ((registry, .registry) :: layers) = some .registry ↔
      registry.opts.containsKey key = true ∧ ∀ l ∈ layers, l.1.opts.containsKey key = false := by
  induction layers using List.reverseRecOn with
  | nil =>
    rw [← List.nil_append [(registry, ToolOptionSource.registry)], lastNoted_concat,
      names_of_mem_policy hkey]
    cases registry.opts.containsKey key <;> simp [lastNoted]
  | append_singleton layers l ih =>
    have ih := ih fun x hx => hsources x (List.mem_append_left _ hx)
    have hl := hsources l (List.mem_append_right _ List.mem_cons_self)
    rw [← List.cons_append, lastNoted_concat, names_of_mem_policy hkey]
    cases hset : l.1.opts.containsKey key with
    | true =>
      rw [if_pos rfl]
      refine iff_of_false (fun h => hl (Option.some.inj h)) fun h => ?_
      rw [h.2 l (List.mem_append_right _ List.mem_cons_self)] at hset
      cases hset
    | false =>
      rw [if_neg Bool.false_ne_true, ih]
      refine and_congr_right fun _ =>
        ⟨fun h x hx => ?_, fun h x hx => h x (List.mem_append_left _ hx)⟩
      rcases List.mem_append.1 hx with hx | hx
      · exact h x hx
      · exact List.mem_singleton.1 hx ▸ hset

/-- An option is retired by a layer that drops it, or before it. -/
theorem retired_concat_iff {r : ResolvedToolOptions} {l : Layer} {key : String}
    (hl : l.2 ≠ .registry) (hsources : ∀ l ∈ layers, l.2 ≠ .registry)
    (hr : r.sources.get key = if retired registry layers (.backend key) then none
      else lastNoted key ((registry, .registry) :: layers)) :
    retired registry (layers ++ [l]) (.backend key) = true ↔ l.1.opts.get key = none ∧
      (retired registry layers (.backend key) = true ∨ drops r l.1 l.2 (.backend key)) := by
  have hnone : l.1.opts.containsKey key = false ↔ l.1.opts.get key = none := by
    rw [IndexMap.containsKey, Option.isSome_eq_false_iff, Option.isNone_iff_eq_none]
  by_cases hkey : key ∈ registrySignerPolicyKeys
  · have hlast := @lastNoted_eq_registry_iff registry layers key hkey hsources
    simp only [retired, List.contains_iff_mem, Bool.and_eq_true, List.all_eq_true,
      List.any_eq_true, Bool.not_eq_true'] at hr ⊢
    simp only [hkey, true_and] at hr ⊢
    constructor
    · rintro ⟨⟨hreg, hall⟩, hany⟩
      refine ⟨hnone.1 (hall l (List.mem_append_right _ List.mem_cons_self)), ?_⟩
      have hall' := fun x hx => hall x (List.mem_append_left _ hx)
      by_cases hbefore : ∃ x ∈ layers, setsSignerOption x.1 = true
      · exact .inl ⟨⟨hreg, hall'⟩, hbefore⟩
      · obtain ⟨x, hx, hset⟩ := hany
        rcases List.mem_append.1 hx with hx | hx
        · exact absurd ⟨x, hx, hset⟩ hbefore
        · rw [List.mem_singleton.1 hx] at hset
          rw [if_neg fun h => hbefore h.2, hlast.2 ⟨hreg, hall'⟩] at hr
          exact .inr ⟨hl, hset, hkey, hr,
            hnone.1 (hall l (List.mem_append_right _ List.mem_cons_self))⟩
    · rintro ⟨hl', ⟨⟨hreg, hall⟩, x, hx, hset⟩ | ⟨-, hset, -, hreg, -⟩⟩
      · refine ⟨⟨hreg, fun y hy => ?_⟩, x, List.mem_append_left _ hx, hset⟩
        rcases List.mem_append.1 hy with hy | hy
        · exact hall y hy
        · exact List.mem_singleton.1 hy ▸ hnone.2 hl'
      · rw [hr] at hreg
        split_ifs at hreg
        obtain ⟨hreg, hall⟩ := hlast.1 hreg
        refine ⟨⟨hreg, fun y hy => ?_⟩, l, List.mem_append_right _ List.mem_cons_self, hset⟩
        rcases List.mem_append.1 hy with hy | hy
        · exact hall y hy
        · exact List.mem_singleton.1 hy ▸ hnone.2 hl'
  · have hno : registrySignerPolicyKeys.contains key = false := by
      rwa [← Bool.not_eq_true, List.contains_iff_mem]
    simp only [retired, hno, Bool.false_and, Bool.false_eq_true, false_iff, false_or, not_and]
    exact fun _ hdrops => hkey hdrops.2.2.1

theorem map_fst_or_map (v : Option OptionValue) (source : ToolOptionSource)
    (last : Option (OptionValue × ToolOptionSource)) :
    ((v.map (·, source)).or last).map Prod.fst = v.or (last.map Prod.fst) := by
  cases v <;> rfl

/-- **What the layers leave, option by option and name by name.** -/
theorem resolve_spec (registry : ToolOptions) (backend : String) {layers : List Layer}
    (hsources : ∀ l ∈ layers, l.2 ≠ .registry) :
    (∀ k, (resolve registry backend layers).options.get k = if retired registry layers k then none
      else (lastSet k ((registry, .registry) :: layers)).map Prod.fst) ∧
    ∀ n, (resolve registry backend layers).sources.get n =
      if retired registry layers (.backend n) then none
      else lastNoted n ((registry, .registry) :: layers) := by
  induction layers using List.reverseRecOn with
  | nil =>
    have hno : ∀ k, retired registry [] k = false := by
      rintro (_ | _ | _ | _ | _ | _ | _)
      · simp only [retired, List.any_nil, Bool.and_false]
      all_goals rfl
    have hkeep : ∀ k, ¬ drops { ({} : ResolvedToolOptions) with registryBackend := some backend }
        registry .registry k := by
      rintro (_ | _ | _ | _ | _ | _ | _) h
      · exact h.1 rfl
      all_goals exact h
    obtain ⟨hget, hsource⟩ := applyOverrides_spec
      { ({} : ResolvedToolOptions) with registryBackend := some backend } registry .registry
    refine ⟨fun k => (hget k).trans ?_, fun n => (hsource n).trans ?_⟩
    · rw [if_neg (hkeep k), hno, if_neg Bool.false_ne_true, ← List.nil_append [_],
        lastSet_concat, map_fst_or_map]
      cases k <;> rfl
    · rw [if_neg (hkeep _), hno, if_neg Bool.false_ne_true, ← List.nil_append [_],
        lastNoted_concat]
      rfl
  | append_singleton layers l ih =>
    have hbefore := fun x hx => hsources x (List.mem_append_left [l] hx)
    have hl := hsources l (List.mem_append_right _ List.mem_cons_self)
    obtain ⟨ihget, ihsource⟩ := ih hbefore
    obtain ⟨hget, hsource⟩ := applyOverrides_spec (resolve registry backend layers) l.1 l.2
    have hresolve : resolve registry backend (layers ++ [l]) =
        (resolve registry backend layers).applyOverrides l.1 l.2 := by
      rw [resolve, List.foldl_append]
      rfl
    have hiff := fun key => retired_concat_iff hl hbefore (ihsource key)
    rw [hresolve]
    refine ⟨fun k => (hget k).trans ?_, fun n => (hsource n).trans ?_⟩
    · rw [ihget, ← List.cons_append, lastSet_concat, map_fst_or_map]
      cases k with
      | backend key =>
        by_cases hretired : retired registry (layers ++ [l]) (.backend key) = true
        · obtain ⟨hnone, hor⟩ := (hiff key).1 hretired
          rw [if_pos hretired, ToolOptions.get, hnone]
          rcases hor with hor | hor
          · rw [if_pos hor, Option.map_none, Option.none_or, ite_self]
          · rw [if_pos hor]
        · rw [if_neg hretired]
          cases hset : l.1.opts.get key with
          | none =>
            have hno := not_and.1 (mt (hiff key).2 hretired) hset
            rw [if_neg fun h => hno (.inr h), if_neg fun h => hno (.inl h)]
          | some v =>
            rw [ToolOptions.get, hset, Option.map_some, Option.some_or, Option.some_or, if_neg]
            exact fun h => Option.some_ne_none v (hset.symm.trans h.2.2.2.2)
      | _ => rfl
    · rw [ihsource, ← List.cons_append, lastNoted_concat]
      by_cases hretired : retired registry (layers ++ [l]) (.backend n) = true
      · obtain ⟨hnone, hor⟩ := (hiff n).1 hretired
        have hkey : n ∈ registrySignerPolicyKeys := by
          rw [retired, Bool.and_eq_true, Bool.and_eq_true, Bool.and_eq_true] at hretired
          exact List.contains_iff_mem.1 hretired.1.1.1
        have hname : l.1.names n = false := by
          rw [names_of_mem_policy hkey, IndexMap.containsKey, hnone]
          rfl
        rw [if_pos hretired, hname, if_neg Bool.false_ne_true]
        rcases hor with hor | hor
        · rw [if_pos hor, ite_self]
        · rw [if_pos hor]
      · rw [if_neg hretired]
        by_cases hname : l.1.names n = true
        · rw [if_pos hname, if_pos hname]
        · have hset : l.1.opts.get n = none := by
            rw [names_eq, Bool.or_eq_true, not_or, IndexMap.containsKey] at hname
            exact Option.not_isSome_iff_eq_none.1 hname.1
          have hno := not_and.1 (mt (hiff n).2 hretired) hset
          rw [if_neg hname, if_neg hname, if_neg fun h => hno (.inr h),
            if_neg fun h => hno (.inl h)]

end Layers

end ResolvedToolOptions

end Mise.Toolset
