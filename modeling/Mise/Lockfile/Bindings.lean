/-
# Request bindings

An entry of a lockfile carries the specifiers of the requests that resolved to
it.  A lookup of a request fails when two entries with the same options carry its
specifier, so a lockfile should stay `Unambiguous`.  `bind_request` sees to that,
and operations that drop or change entries keep it.  The migration of another
lockfile adds specifiers without a look at other entries; `MigrationClear` says
when they clash with none.
-/

import Mise.Lockfile.MergeToolsSpec
import Mise.Lockfile.Operations

namespace Mise

open Lib
open Std (ExtTreeMap ExtTreeSet)

/-- The entry has the options and carries the specifier. -/
def LockfileTool.Carries (tool : LockfileTool) (o : LockOptions) (s : String) : Prop :=
  tool.options = o ∧ s ∈ tool.specifiers

/-- At most one entry with the options carries the specifier. -/
def BoundOnce (tools : List LockfileTool) (o : LockOptions) (s : String) : Prop :=
  tools.Pairwise fun a b => a.Carries o s → ¬b.Carries o s

instance (tool : LockfileTool) (o : LockOptions) (s : String) : Decidable (tool.Carries o s) :=
  inferInstanceAs (Decidable (_ ∧ _))

instance (tools : List LockfileTool) (o : LockOptions) (s : String) :
    Decidable (BoundOnce tools o s) :=
  inferInstanceAs (Decidable (tools.Pairwise _))

/-- **A lockfile without ambiguous bindings.** -/
def Lockfile.Unambiguous (l : Lockfile) : Prop :=
  ∀ key o s, BoundOnce (l.entries key) o s

/-! ### Entries that carry a specifier -/

section BoundOnce

variable {tools tools' : List LockfileTool} {o : LockOptions} {s : String}

theorem boundOnce_iff : BoundOnce tools o s ↔
    ∀ (i j : ℕ) a b, tools[i]? = some a → tools[j]? = some b → a.Carries o s → b.Carries o s →
      i = j := by
  rw [BoundOnce, List.pairwise_iff_getElem]
  constructor
  · intro h i j a b hi hj ha hb
    obtain ⟨hi', rfl⟩ := List.getElem?_eq_some_iff.1 hi
    obtain ⟨hj', rfl⟩ := List.getElem?_eq_some_iff.1 hj
    rcases Nat.lt_trichotomy i j with hlt | heq | hlt
    · exact absurd hb (h i j hi' hj' hlt ha)
    · exact heq
    · exact absurd ha (h j i hj' hi' hlt hb)
  · intro h i j hi hj hlt ha hb
    have heq := h i j _ _ (List.getElem?_eq_getElem hi) (List.getElem?_eq_getElem hj) ha hb
    omega

/-- Two entries that carry a specifier are one. -/
theorem BoundOnce.eq_of_mem (h : BoundOnce tools o s) {a b : LockfileTool} (ha : a ∈ tools)
    (hb : b ∈ tools) (hca : a.Carries o s) (hcb : b.Carries o s) : a = b := by
  obtain ⟨i, hi⟩ := List.mem_iff_getElem?.1 ha
  obtain ⟨j, hj⟩ := List.mem_iff_getElem?.1 hb
  obtain rfl := boundOnce_iff.1 h i j a b hi hj hca hcb
  exact Option.some.inj (hi.symm.trans hj)

theorem BoundOnce.sublist (h : BoundOnce tools o s) (hsub : tools'.Sublist tools) :
    BoundOnce tools' o s :=
  List.Pairwise.sublist hsub h

theorem BoundOnce.map (h : BoundOnce tools o s) {f : LockfileTool → LockfileTool}
    (hf : ∀ t ∈ tools, (f t).Carries o s → t.Carries o s) : BoundOnce (tools.map f) o s := by
  rw [BoundOnce, List.pairwise_map]
  refine List.Pairwise.imp_of_mem ?_ h
  exact fun {a b} ha hb hab hca hcb => hab (hf a ha hca) (hf b hb hcb)

/-- Entries that carry what they carried before, at their place. -/
theorem BoundOnce.of_getElem? (h : BoundOnce tools o s)
    (hsub : ∀ (i : ℕ) t', tools'[i]? = some t' → t'.Carries o s →
      ∃ t, tools[i]? = some t ∧ t.Carries o s) :
    BoundOnce tools' o s := by
  refine boundOnce_iff.2 fun i j a b hi hj ha hb => ?_
  obtain ⟨a', hi', ha'⟩ := hsub i a hi ha
  obtain ⟨b', hj', hb'⟩ := hsub j b hj hb
  exact boundOnce_iff.1 h i j a' b' hi' hj' ha' hb'

/-- With distinct keys it is enough that the versions agree. -/
theorem boundOnce_of_version_eq (hkeys : (tools.map (·.key)).Nodup)
    (h : ∀ a ∈ tools, ∀ b ∈ tools, a.Carries o s → b.Carries o s → a.version = b.version) :
    BoundOnce tools o s := by
  have hne : tools.Pairwise fun a b => a.key ≠ b.key := List.pairwise_map.1 hkeys
  refine List.Pairwise.imp_of_mem ?_ hne
  intro a b ha hb hab hca hcb
  refine hab (Prod.ext (h a ha b hb hca hcb) ?_)
  exact hca.1.trans hcb.1.symm

end BoundOnce

/-! ### Operations that only drop or change entries -/

namespace Lockfile

variable {l : Lockfile} (stateShort : String → String)

theorem entries_insert (l : Lockfile) (key k : String) (tools : List LockfileTool) :
    ({ l with tools := l.tools.insert key tools } : Lockfile).entries k =
      if key = k then tools else l.entries k := by
  simp only [entries, BTreeMap.get_insert]
  split <;> rfl

theorem Unambiguous.insert (hl : l.Unambiguous) {key : String} {tools : List LockfileTool}
    (htools : ∀ o s, BoundOnce tools o s) :
    ({ l with tools := l.tools.insert key tools } : Lockfile).Unambiguous := by
  intro k o s
  rw [entries_insert]
  split
  · exact htools o s
  · exact hl k o s

theorem Unambiguous.modifyTools (hl : l.Unambiguous) {short : String}
    {f : List LockfileTool → List LockfileTool}
    (hf : ∀ tools o s, BoundOnce tools o s → BoundOnce (f tools) o s) :
    (l.modifyTools stateShort short f).Unambiguous := by
  rw [Lockfile.modifyTools]
  split
  · exact hl
  · case h_2 key _ => exact hl.insert fun o s => hf _ o s (hl key o s)

theorem Unambiguous.map (hl : l.Unambiguous) (f : String → List LockfileTool → List LockfileTool)
    (hf : ∀ short tools o s, BoundOnce tools o s → BoundOnce (f short tools) o s) :
    ({ l with tools := l.tools.map f } : Lockfile).Unambiguous := by
  intro k o s
  have hk := hl k o s
  rw [entries] at hk ⊢
  rw [ExtTreeMap.getElem?_map]
  cases hget : l.tools[k]? with
  | none => exact List.Pairwise.nil
  | some tools =>
    rw [hget] at hk
    exact hf k tools o s hk

theorem Unambiguous.switchBackend (hl : l.Unambiguous) (short fromBackend : String)
    (versions : BTreeSet String) (backendFor : String → Option String) :
    (l.switchBackend stateShort short fromBackend versions backendFor).2.Unambiguous := by
  refine hl.modifyTools stateShort fun tools o s h => h.map fun t _ hcarries => ?_
  rw [LockfileTool.switchBackend] at hcarries
  split at hcarries
  · split at hcarries
    · exact hcarries
    · exact hcarries
  · exact hcarries

theorem Unambiguous.retainGraphEntries (hl : l.Unambiguous) (keep : String → LockfileTool → Bool) :
    (l.retainGraphEntries keep).Unambiguous :=
  hl.map _ fun _ _ _ _ h => h.sublist List.filter_sublist

theorem Unambiguous.retainUnsupersededUnboundEntries (hl : l.Unambiguous)
    (inScope : String → LockfileTool → Bool) :
    (l.retainUnsupersededUnboundEntries inScope).Unambiguous :=
  hl.map _ fun _ _ _ _ h => h.sublist List.filter_sublist

theorem Unambiguous.retainToolsByShortOrBackend (hl : l.Unambiguous)
    (keepShorts keepBackends : BTreeSet String) :
    (l.retainToolsByShortOrBackend stateShort keepShorts keepBackends).Unambiguous := by
  intro k o s
  have hk := hl k o s
  rw [entries] at hk ⊢
  rw [Lockfile.retainToolsByShortOrBackend, cleanupUnreferencedCondaPackages,
    ExtTreeMap.getElem?_filter']
  cases hget : l.tools[k]? with
  | none => exact List.Pairwise.nil
  | some tools =>
    rw [hget] at hk
    rw [Option.filter_some]
    split
    · exact hk
    · exact List.Pairwise.nil

theorem Unambiguous.retainToolVersions (hl : l.Unambiguous) (short : String)
    (keepVersions : BTreeSet String) :
    (l.retainToolVersions stateShort short keepVersions).Unambiguous := by
  rw [Lockfile.retainToolVersions]
  split
  · exact hl
  · case h_2 key _ =>
    simp only
    split
    · intro k o s
      have hk := hl k o s
      rw [entries] at hk ⊢
      rw [cleanupUnreferencedCondaPackages, ExtTreeMap.getElem?_erase]
      split
      · exact List.Pairwise.nil
      · exact hk
    · exact hl.insert fun o s => (hl key o s).sublist List.filter_sublist

theorem Unambiguous.setPlatformInfo (hl : l.Unambiguous) (short version : String)
    (backend : Option String) (options : LockOptions) (platformKey : String)
    (info : PlatformInfo) :
    (l.setPlatformInfo stateShort short version backend options platformKey info).Unambiguous := by
  refine hl.insert fun o s => ?_
  rw [toolKey_getD]
  have hkey := hl (stateShort short) o s
  rw [setPlatformInTools]
  split
  · refine hkey.of_getElem? fun i t' ht' hcarries => ?_
    rw [List.getElem?_modify] at ht'
    obtain ⟨t, ht, rfl⟩ := Option.map_eq_some_iff.1 ht'
    refine ⟨t, ht, ?_⟩
    split at hcarries
    · simp only at hcarries
      split at hcarries
      · exact hcarries
      · exact hcarries
    · exact hcarries
  · -- the new entry carries no specifier
    refine List.pairwise_append.2 ⟨hkey, List.pairwise_singleton _ _, fun a _ b hb _ hcb => ?_⟩
    obtain rfl := List.mem_singleton.1 hb
    exact ExtTreeSet.not_mem_empty hcb.2

end Lockfile

/-! ### Binding a request -/

namespace LockfileTool

variable {s s' : String} {o o' : LockOptions}

theorem unbind_key (s : String) (o : LockOptions) (t : LockfileTool) : (t.unbind s o).key = t.key := by
  rw [unbind]
  split <;> rfl

theorem not_carries_unbind (t : LockfileTool) : ¬(t.unbind s o).Carries o s := by
  rw [unbind]
  split
  · rintro ⟨-, hs⟩
    exact (ExtTreeSet.mem_erase.1 hs).1 (Std.compare_eq_iff_eq.2 rfl)
  · case isFalse ho => exact fun h => ho h.1

theorem carries_of_unbind {t : LockfileTool} (h : (t.unbind s o).Carries o' s') :
    t.Carries o' s' := by
  rw [unbind] at h
  split at h
  · exact ⟨h.1, (ExtTreeSet.mem_erase.1 h.2).2⟩
  · exact h

theorem carries_of_bind {t : LockfileTool} (hne : s' ≠ s) (h : (t.bind s).Carries o' s') :
    t.Carries o' s' := by
  rcases ExtTreeSet.mem_insert.1 h.2 with hs | hs
  · exact absurd (Std.compare_eq_iff_eq.1 hs).symm hne
  · exact ⟨h.1, hs⟩

end LockfileTool

/-- What `bind_request` does to the entries: the specifier is left with one of the
version, and other specifiers stay where they were. -/
theorem getElem?_bindTools {s v : String} {o : LockOptions} {tools tools' : List LockfileTool}
    (h : bindTools s v o tools = some tools') :
    ∃ target : ℕ, (∃ t, tools'[target]? = some t ∧ t.version = v ∧ t.Carries o s) ∧
      tools'.map (·.key) = tools.map (·.key) ∧
      ∀ (j : ℕ) t', tools'[j]? = some t' → (t'.Carries o s → j = target) ∧
        ∀ o' s', (o', s') ≠ (o, s) → t'.Carries o' s' →
          ∃ t, tools[j]? = some t ∧ t.Carries o' s' := by
  obtain ⟨target, hfind, rfl⟩ := Option.map_eq_some_iff.1 h
  obtain ⟨hlt, hfor, -⟩ := List.findIdx?_eq_some_iff_getElem.1 hfind
  have hkey : (tools[target].unbind s o).key = (v, o) := by
    rw [LockfileTool.unbind_key, (LockfileTool.isFor_iff _ _ _).1 hfor]
  have hoptions : (tools[target].unbind s o).options = o := congrArg Prod.snd hkey
  refine ⟨target, ⟨(tools[target].unbind s o).bind s, ?_, congrArg Prod.fst hkey, hoptions,
    ExtTreeSet.mem_insert_self⟩, ?_, fun j t' ht' => ?_⟩
  · rw [List.getElem?_modify, List.getElem?_map, List.getElem?_eq_getElem hlt]
    simp
  · refine List.ext_getElem? fun j => ?_
    rw [List.getElem?_map, List.getElem?_map, List.getElem?_modify, List.getElem?_map]
    cases tools[j]? with
    | none => rfl
    | some t =>
      simp only [Option.map_some, Option.map_eq_map, Option.some.injEq]
      split
      · exact LockfileTool.unbind_key s o t
      · exact LockfileTool.unbind_key s o t
  · rw [List.getElem?_modify, List.getElem?_map] at ht'
    cases ht : tools[j]? with
    | none =>
      rw [ht] at ht'
      exact absurd ht' (by simp)
    | some t =>
      rw [ht] at ht'
      simp only [Option.map_some, Option.map_eq_map, Option.some.injEq] at ht'
      split at ht'
      · case isTrue hj =>
        refine ⟨fun _ => hj.symm, fun o' s' hne hcarries => ⟨t, rfl, ?_⟩⟩
        subst ht'
        refine LockfileTool.carries_of_unbind (LockfileTool.carries_of_bind ?_ hcarries)
        rintro rfl
        -- the target has the options
        subst hj
        rw [List.getElem?_eq_getElem hlt, Option.some.injEq] at ht
        subst ht
        exact hne (Prod.ext (hcarries.1.symm.trans hoptions) rfl)
      · case isFalse hj =>
        subst ht'
        refine ⟨fun hcarries => absurd hcarries t.not_carries_unbind, fun o' s' _ hcarries => ?_⟩
        exact ⟨t, rfl, LockfileTool.carries_of_unbind hcarries⟩

/-- Binding a request leaves its specifier with one entry and clashes nowhere else. -/
theorem boundOnce_bindTools {s v : String} {o o' : LockOptions} {s' : String}
    {tools tools' : List LockfileTool} (h : bindTools s v o tools = some tools')
    (hother : (o', s') ≠ (o, s) → BoundOnce tools o' s') : BoundOnce tools' o' s' := by
  obtain ⟨target, -, -, hall⟩ := getElem?_bindTools h
  by_cases hsame : (o', s') = (o, s)
  · obtain ⟨rfl, rfl⟩ := Prod.mk.inj hsame
    refine boundOnce_iff.2 fun i j a b hi hj ha hb => ?_
    rw [(hall i a hi).1 ha, (hall j b hj).1 hb]
  · exact (hother hsame).of_getElem? fun i t' ht' hcarries => (hall i t' ht').2 o' s' hsame hcarries

namespace Lockfile

variable (stateShort : String → String)

/-- The two outcomes of `bind_request`. -/
theorem bindRequest_cases (l : Lockfile) (short s v : String) (o : LockOptions) :
    (l.bindRequest stateShort short s v o = (false, l) ∧
      (l.usesRequestBindings = true → (v, o) ∉ (l.entries (stateShort short)).map (·.key))) ∨
    ∃ tools, bindTools s v o (l.entries (stateShort short)) = some tools ∧
      l.bindRequest stateShort short s v o =
        (true, { l with tools := l.tools.insert (stateShort short) tools }) := by
  rw [bindRequest]
  cases huses : l.usesRequestBindings with
  | false => exact .inl ⟨rfl, fun h => Bool.noConfusion h⟩
  | true =>
    rw [toolKey]
    by_cases hkey : stateShort short ∈ l.tools
    · simp only [hkey, if_true]
      cases hbind : bindTools s v o (l.entries (stateShort short)) with
      | some tools => exact .inr ⟨tools, rfl, rfl⟩
      | none =>
        refine .inl ⟨rfl, fun _ hmem => ?_⟩
        obtain ⟨t, ht, htk⟩ := List.mem_map.1 hmem
        have hnot := List.findIdx?_eq_none_iff.1 (Option.map_eq_none_iff.1 hbind) t ht
        rw [(LockfileTool.isFor_iff _ _ t).2 htk] at hnot
        exact Bool.noConfusion hnot
    · refine .inl ⟨by simp [hkey], fun _ hmem => ?_⟩
      rw [entries, ExtTreeMap.getElem?_eq_none hkey] at hmem
      exact absurd hmem List.not_mem_nil

theorem Unambiguous.bindRequest {l : Lockfile} (hl : l.Unambiguous) (short s v : String)
    (o : LockOptions) : (l.bindRequest stateShort short s v o).2.Unambiguous := by
  rcases bindRequest_cases stateShort l short s v o with ⟨heq, -⟩ | ⟨tools, hbind, heq⟩
  · rw [heq]
    exact hl
  · rw [heq]
    exact hl.insert fun o' s' => boundOnce_bindTools hbind fun _ => hl _ o' s'

/-- One entry with the options carries the specifier, and it is one of the version. -/
def OnlyBoundTo (tools : List LockfileTool) (s v : String) (o : LockOptions) : Prop :=
  ∃ (i : ℕ) (t : LockfileTool), tools[i]? = some t ∧ t.version = v ∧ t.Carries o s ∧
    ∀ (j : ℕ) u, tools[j]? = some u → u.Carries o s → j = i

/-- **After a request is bound only its entry carries it.** -/
theorem onlyBoundTo_bindRequest {l l' : Lockfile} {short s v : String} {o : LockOptions}
    (h : l.bindRequest stateShort short s v o = (true, l')) :
    OnlyBoundTo (l'.entries (stateShort short)) s v o := by
  rcases bindRequest_cases stateShort l short s v o with ⟨heq, -⟩ | ⟨tools, hbind, heq⟩
  · rw [heq] at h
    exact Bool.noConfusion (Prod.mk.inj h).1
  · rw [heq] at h
    obtain ⟨-, rfl⟩ := Prod.mk.inj h
    rw [entries_insert, if_pos rfl]
    obtain ⟨target, ⟨t, ht, hversion, hcarries⟩, -, hall⟩ := getElem?_bindTools hbind
    exact ⟨target, t, ht, hversion, hcarries, fun j u hu => (hall j u hu).1⟩

/-- The loop that binds the fresh requests: what it binds need not have been
unambiguous before. -/
theorem unambiguous_foldl_bindRequest (short : String)
    (bindings : List (String × String × LockOptions)) {l : Lockfile}
    (huses : l.usesRequestBindings = true)
    (hl : ∀ key o s, BoundOnce (l.entries key) o s ∨ key = stateShort short ∧
      ∃ v, (s, v, o) ∈ bindings ∧ (v, o) ∈ (l.entries key).map (·.key)) :
    (bindings.foldl (fun l b => (l.bindRequest stateShort short b.1 b.2.1 b.2.2).2)
      l).Unambiguous := by
  induction bindings generalizing l with
  | nil =>
    intro key o s
    rcases hl key o s with h | ⟨-, v, hv, -⟩
    · exact h
    · exact absurd hv List.not_mem_nil
  | cons b bindings ih =>
    rw [List.foldl_cons]
    rcases bindRequest_cases stateShort l short b.1 b.2.1 b.2.2 with ⟨heq, hno⟩ | ⟨tools, hbind, heq⟩
    · rw [heq]
      refine ih huses fun key o s => ?_
      rcases hl key o s with h | ⟨rfl, v, hv, hkey⟩
      · exact .inl h
      · rcases List.mem_cons.1 hv with rfl | hv
        · exact absurd hkey (hno huses)
        · exact .inr ⟨rfl, v, hv, hkey⟩
    · rw [heq]
      obtain ⟨_, -, hkeys, -⟩ := getElem?_bindTools hbind
      refine ih huses fun key o s => ?_
      rw [entries_insert]
      split
      · case isTrue hk =>
        subst hk
        rw [hkeys]
        by_cases hsame : (o, s) = (b.2.2, b.1)
        · exact .inl (boundOnce_bindTools hbind fun hne => absurd hsame hne)
        · rcases hl (stateShort short) o s with h | ⟨-, v, hv, hkey⟩
          · exact .inl (boundOnce_bindTools hbind fun _ => h)
          · rcases List.mem_cons.1 hv with rfl | hv
            · exact absurd rfl hsame
            · exact .inr ⟨rfl, v, hv, hkey⟩
      · case isFalse hk =>
        rcases hl key o s with h | ⟨rfl, -⟩
        · exact .inl h
        · exact absurd rfl hk

/-! ### Migrating another lockfile -/

/-- The entry that carries a specifier is the one entries of the key are merged into. -/
def BoundAtFirst (tools : List LockfileTool) (key : LockfileToolKey) (o : LockOptions)
    (s : String) : Prop :=
  ∀ (i : ℕ) e, tools[i]? = some e → e.Carries o s →
    tools.findIdx? (·.isFor key.1 key.2) = some i

theorem BoundAtFirst.boundOnce {tools : List LockfileTool} {key : LockfileToolKey}
    {o : LockOptions} {s : String} (h : BoundAtFirst tools key o s) : BoundOnce tools o s := by
  refine boundOnce_iff.2 fun i j a b hi hj ha hb => ?_
  exact Option.some.inj ((h i a hi ha).symm.trans (h j b hj hb))

theorem findIdx?_isFor (tools : List LockfileTool) (key : LockfileToolKey) :
    tools.findIdx? (·.isFor key.1 key.2) = (tools.map (·.key)).findIdx? (· = key) := by
  rw [List.findIdx?_map]
  refine congrArg (List.findIdx? · tools) (funext fun t => ?_)
  rw [Bool.eq_iff_iff, LockfileTool.isFor_iff]
  exact decide_eq_true_iff.symm

/-- The first entry of a key stays the first one. -/
theorem findIdx?_absorbEntry {l : List LockfileTool} {key : LockfileToolKey} {i : ℕ}
    (h : l.findIdx? (·.isFor key.1 key.2) = some i) (t : LockfileTool) :
    (absorbEntry l t).findIdx? (·.isFor key.1 key.2) = some i := by
  rw [findIdx?_isFor] at h ⊢
  rcases absorbEntry_cases l t with ⟨l₁, e, l₂, rfl, -, -, heq⟩ | ⟨-, heq⟩
  · rw [heq]
    simpa only [List.map_append, List.map_cons, (keeps_takeOver e t).key] using h
  · rw [heq, List.map_append, List.findIdx?_append, h]
    rfl

/-- The entries after one entry of the other lockfile, place by place. -/
theorem getElem?_absorbEntry {l : List LockfileTool} {t : LockfileTool} {i : ℕ} {e' : LockfileTool}
    (h : (absorbEntry l t)[i]? = some e') {o : LockOptions} {s : String} (hcarries : e'.Carries o s) :
    (∃ e, l[i]? = some e ∧ e.Carries o s) ∨
      t.Carries o s ∧ (absorbEntry l t).findIdx? (·.isFor t.version t.options) = some i := by
  rw [absorbEntry] at h ⊢
  cases hfind : l.findIdx? (·.isFor t.version t.options) with
  | some target =>
    simp only [hfind] at h ⊢
    rw [List.getElem?_modify] at h
    obtain ⟨e, he, rfl⟩ := Option.map_eq_some_iff.1 h
    split at hcarries
    · case isTrue htarget =>
      subst htarget
      rcases ExtTreeSet.mem_union_iff.1 hcarries.2 with hs | hs
      · exact .inl ⟨e, he, hcarries.1, hs⟩
      · obtain ⟨hlt, hfor, -⟩ := List.findIdx?_eq_some_iff_getElem.1 hfind
        rw [List.getElem?_eq_getElem hlt, Option.some.injEq] at he
        have hkey := (LockfileTool.isFor_iff _ _ _).1 hfor
        refine .inr ⟨⟨?_, hs⟩, ?_⟩
        · rw [← hcarries.1, ← he]
          exact (congrArg Prod.snd hkey).symm
        · have hstays : (absorbEntry l t).findIdx? (·.isFor t.key.1 t.key.2) = some target :=
            findIdx?_absorbEntry hfind t
          rw [absorbEntry, hfind] at hstays
          exact hstays
    · exact .inl ⟨e, he, hcarries⟩
  | none =>
    simp only [hfind] at h ⊢
    rcases Nat.lt_or_ge i l.length with hi | hi
    · rw [List.getElem?_append_left hi] at h
      exact .inl ⟨e', h, hcarries⟩
    · rw [List.getElem?_append_right hi] at h
      obtain ⟨hlast, rfl⟩ := List.getElem?_eq_some_iff.1 h
      have hzero : i - l.length = 0 := by simpa using hlast
      obtain rfl : i = l.length := by omega
      simp only [Nat.sub_self, List.getElem_cons_zero] at hcarries
      refine .inr ⟨hcarries, ?_⟩
      rw [List.findIdx?_append, hfind, Option.none_or]
      simp [(LockfileTool.isFor_iff t.version t.options t).2 rfl]

/-- All entries of the other lockfile, where those that carry the specifier agree
on the key. -/
theorem boundAtFirst_foldl (ts : List LockfileTool) {l : List LockfileTool}
    {key : LockfileToolKey} {o : LockOptions} {s : String} (hl : BoundAtFirst l key o s)
    (hts : ∀ t ∈ ts, t.Carries o s → t.key = key) :
    BoundAtFirst (ts.foldl absorbEntry l) key o s := by
  induction ts generalizing l with
  | nil => exact hl
  | cons t ts ih =>
    refine ih (fun i e he hcarries => ?_) fun x hx => hts x (List.mem_cons_of_mem t hx)
    rcases getElem?_absorbEntry he hcarries with ⟨e', he', hcarries'⟩ | ⟨hcarries', hfind⟩
    · exact findIdx?_absorbEntry (hl i e' he' hcarries') t
    · rw [← hts t List.mem_cons_self hcarries']
      exact hfind

/-- Entries that do not carry the specifier. -/
theorem boundOnce_foldl_absorbEntry (ts : List LockfileTool) {l : List LockfileTool}
    {o : LockOptions} {s : String} (hl : BoundOnce l o s) (hts : ∀ t ∈ ts, ¬t.Carries o s) :
    BoundOnce (ts.foldl absorbEntry l) o s := by
  induction ts generalizing l with
  | nil => exact hl
  | cons t ts ih =>
    refine ih (hl.of_getElem? fun i t' ht' hcarries => ?_) fun x hx =>
      hts x (List.mem_cons_of_mem t hx)
    rcases getElem?_absorbEntry ht' hcarries with h | ⟨h, -⟩
    · exact h
    · exact absurd h (hts t List.mem_cons_self)

/-- **The migration clashes nowhere**: an entry of the root that carries a
specifier of an incoming one is the entry that one is merged into, and so is it for
two incoming entries that are recorded under one name. -/
structure MigrationClear (root other : Lockfile) : Prop where
  root : ∀ key, ∀ t ∈ other.incoming stateShort key, ∀ s ∈ t.specifiers,
    BoundAtFirst (root.entries key) t.key t.options s
  incoming : ∀ short short', short ≠ short' → stateShort short = stateShort short' →
    ∀ t ∈ other.entries short, ∀ t' ∈ other.entries short', ∀ o s,
      t.Carries o s → t'.Carries o s → t.version = t'.version

theorem Unambiguous.mergePreservingRoot {root other : Lockfile} (hroot : root.Unambiguous)
    (hother : other.Unambiguous) (hclear : MigrationClear stateShort root other) :
    (root.mergePreservingRoot stateShort other).Unambiguous := by
  intro key o s
  rw [entries_mergePreservingRoot]
  by_cases hexists : ∃ t ∈ other.incoming stateShort key, t.Carries o s
  · obtain ⟨t, ht, hcarries⟩ := hexists
    have hstart := hclear.root key t ht s hcarries.2
    rw [hcarries.1] at hstart
    refine (boundAtFirst_foldl _ hstart fun t' ht' hcarries' => ?_).boundOnce
    obtain ⟨short, tools, htools, hshort, hmem⟩ := (mem_incoming stateShort other key t).1 ht
    obtain ⟨short', tools', htools', hshort', hmem'⟩ := (mem_incoming stateShort other key t').1 ht'
    have hentries : t ∈ other.entries short := by rwa [entries, htools]
    have hentries' : t' ∈ other.entries short' := by rwa [entries, htools']
    by_cases hsame : short = short'
    · subst hsame
      rw [(hother short o s).eq_of_mem hentries hentries' hcarries hcarries']
    · have hversion := hclear.incoming short short' hsame (hshort.trans hshort'.symm) t hentries t'
        hentries' o s hcarries hcarries'
      exact Prod.ext hversion.symm (hcarries'.1.trans hcarries.1.symm)
  · refine boundOnce_foldl_absorbEntry _ (hroot key o s) fun t ht hcarries => ?_
    exact hexists ⟨t, ht, hcarries⟩

end Lockfile

end Mise
