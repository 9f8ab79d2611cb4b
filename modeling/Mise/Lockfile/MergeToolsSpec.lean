/-
# What an update of a tool's entries keeps

Every step of `merge_tool_entries` touches the record of a platform in one of
three ways: it leaves it, merges another into it, or, for a platform of a legacy
entry that `resolve` has no options for, replaces it.  `infoAt_addExisting` says
which, and the results about whole runs follow from it: fresh data wins, nothing
that is not refreshed gets lost, and consumed keys are the legacy ones that are
gone.
-/

import Mise.Lockfile.MergeTools

namespace Mise

open Lib
open Std (ExtTreeMap ExtTreeSet)

/-- What is recorded for a platform under a key. -/
def infoAt (m : IndexMap LockfileToolKey LockfileTool) (k : LockfileToolKey) (p : String) :
    Option PlatformInfo :=
  (m.get k).bind (·.platforms[p]?)

/-- A record, merged with what comes later. -/
def mergeOr (old : Option PlatformInfo) (info : PlatformInfo) : PlatformInfo :=
  old.elim info fun old => old.mergeWith info

/-! ### The fresh entries -/

theorem get_mergePlatforms (merge : PlatformInfo → PlatformInfo → PlatformInfo)
    (platforms records : BTreeMap String PlatformInfo) (p : String) :
    (mergePlatforms merge platforms records)[p]? =
      records[p]?.elim platforms[p]? fun info =>
        some (platforms[p]?.elim info fun old => merge old info) :=
  BTreeMap.get_foldl (fun (m : BTreeMap String PlatformInfo) p => m[p]?)
    (fun acc platform info =>
      acc.alter platform fun old => some (old.elim info fun old => merge old info))
    (fun _ info old => some (old.elim info fun old => merge old info))
    (fun m a _ k => BTreeMap.get_alter m a k _) records platforms p

theorem get_addFresh (m : IndexMap LockfileToolKey LockfileTool) (t : LockfileTool)
    (k : LockfileToolKey) (hk : k ≠ t.key) : (addFresh m t).get k = m.get k := by
  rw [addFresh, IndexMap.get_insert, if_neg hk]

/-- A fresh record goes over what its key has, and a fresh entry without a record
for the platform leaves what is there. -/
theorem infoAt_addFresh (m : IndexMap LockfileToolKey LockfileTool) (t : LockfileTool)
    (p : String) :
    (∀ info, t.platforms[p]? = some info →
      ∃ r, infoAt (addFresh m t) t.key p = some r ∧ Takes info r) ∧
    (t.platforms[p]? = none → infoAt (addFresh m t) t.key p = infoAt m t.key p) := by
  have hinfo : infoAt (addFresh m t) t.key p =
      t.platforms[p]?.elim ((m.get t.key).getD t).platforms[p]? fun info =>
        some (((m.get t.key).getD t).platforms[p]?.elim info fun old => info.mergeWith old) := by
    rw [infoAt, addFresh, IndexMap.get_insert, if_pos rfl, Option.bind_some, get_mergePlatforms]
    rfl
  rw [hinfo]
  constructor
  · intro info hsome
    rw [hsome]
    refine ⟨_, rfl, ?_⟩
    cases ((m.get t.key).getD t).platforms[p]? with
    | none => exact Takes.refl info
    | some old => exact takes_mergeWith info old
  · intro hnone
    rw [hnone, infoAt]
    cases m.get t.key with
    | none => exact hnone
    | some e => rfl

theorem infoAt_addFresh_other (m : IndexMap LockfileToolKey LockfileTool) {t : LockfileTool}
    {k : LockfileToolKey} {p : String} (h : t.key = k → t.platforms[p]? = none) :
    infoAt (addFresh m t) k p = infoAt m k p := by
  by_cases hk : k = t.key
  · subst hk
    exact (infoAt_addFresh m t p).2 (h rfl)
  · rw [infoAt, infoAt, get_addFresh m t k hk]

/-- **The last fresh entry with a record of a platform decides.** -/
theorem infoAt_freshByKey (pre : List LockfileTool) {post : List LockfileTool} {t : LockfileTool}
    {p : String} {info : PlatformInfo} (hinfo : t.platforms[p]? = some info)
    (hlast : ∀ u ∈ post, u.key = t.key → u.platforms[p]? = none) :
    ∃ r, infoAt (freshByKey (pre ++ t :: post)) t.key p = some r ∧ Takes info r := by
  obtain ⟨r, hr, htakes⟩ := (infoAt_addFresh (pre.foldl addFresh .empty) t p).1 info hinfo
  have hpost : ∀ (us : List LockfileTool) (m : IndexMap LockfileToolKey LockfileTool),
      (∀ u ∈ us, u.key = t.key → u.platforms[p]? = none) →
        infoAt (us.foldl addFresh m) t.key p = infoAt m t.key p := by
    intro us
    induction us with
    | nil => exact fun m _ => rfl
    | cons u us ih =>
      intro m hus
      rw [List.foldl_cons, ih _ fun v hv => hus v (List.mem_cons_of_mem u hv),
        infoAt_addFresh_other m (hus u List.mem_cons_self)]
  refine ⟨r, ?_, htakes⟩
  rw [freshByKey, List.foldl_append, List.foldl_cons, hpost post _ hlast, hr]

/-- The keys of the fresh entries. -/
theorem containsKey_freshByKey (entries : List LockfileTool) (k : LockfileToolKey) :
    (freshByKey entries).containsKey k = true ↔ ∃ t ∈ entries, t.key = k := by
  have hfold : ∀ (ts : List LockfileTool) (m : IndexMap LockfileToolKey LockfileTool),
      (ts.foldl addFresh m).containsKey k = true ↔ m.containsKey k = true ∨ ∃ t ∈ ts, t.key = k := by
    intro ts
    induction ts with
    | nil => intro m; simp
    | cons t ts ih =>
      intro m
      have hstep : (addFresh m t).containsKey k = true ↔ m.containsKey k = true ∨ t.key = k := by
        rw [IndexMap.containsKey, addFresh, IndexMap.get_insert]
        split
        · case isTrue hk => simp [hk]
        · case isFalse hk =>
          rw [IndexMap.containsKey]
          exact ⟨.inl, fun h => h.resolve_right fun hk' => hk hk'.symm⟩
      rw [List.foldl_cons, ih, hstep]
      simp only [List.mem_cons, exists_eq_or_imp, or_assoc]
  rw [freshByKey, hfold]
  simp [IndexMap.containsKey]

theorem freshVersion_iff (entries : List LockfileTool) (version : String) :
    freshVersion (freshByKey entries) version = true ↔ ∃ t ∈ entries, t.version = version := by
  rw [freshVersion, List.any_eq_true]
  constructor
  · rintro ⟨k, hk, hversion⟩
    obtain ⟨v, hv⟩ := (IndexMap.mem_keys _).1 hk
    obtain ⟨t, ht, hkey⟩ := (containsKey_freshByKey entries k).1 (by
      rw [IndexMap.containsKey, hv]
      rfl)
    exact ⟨t, ht, by rw [← of_decide_eq_true hversion, ← hkey]; rfl⟩
  · rintro ⟨t, ht, rfl⟩
    have hcontains := (containsKey_freshByKey entries t.key).2 ⟨t, ht, rfl⟩
    obtain ⟨v, hv⟩ := Option.isSome_iff_exists.1 hcontains
    exact ⟨t.key, (IndexMap.mem_keys _).2 ⟨v, hv⟩, decide_eq_true rfl⟩

/-- A platform that is recorded was recorded by a fresh entry of that key. -/
theorem exists_of_infoAt_freshByKey {entries : List LockfileTool} {k : LockfileToolKey} {p : String}
    (h : infoAt (freshByKey entries) k p ≠ none) :
    ∃ t ∈ entries, t.key = k ∧ t.platforms[p]?.isSome := by
  by_contra hno
  have hnone : ∀ t ∈ entries, t.key = k → t.platforms[p]? = none := by
    intro t ht hk
    by_contra hsome
    exact hno ⟨t, ht, hk, Option.isSome_iff_ne_none.2 hsome⟩
  have hfold : ∀ (ts : List LockfileTool) (m : IndexMap LockfileToolKey LockfileTool),
      (∀ t ∈ ts, t.key = k → t.platforms[p]? = none) →
        infoAt (ts.foldl addFresh m) k p = infoAt m k p := by
    intro ts
    induction ts with
    | nil => exact fun m _ => rfl
    | cons t ts ih =>
      intro m hts
      rw [List.foldl_cons, ih _ fun u hu => hts u (List.mem_cons_of_mem t hu),
        infoAt_addFresh_other m (hts t List.mem_cons_self)]
  exact h (hfold entries .empty hnone)

theorem exists_of_freshPlatform {entries : List LockfileTool} {version platform : String}
    (h : freshPlatform (freshByKey entries) version platform = true) :
    ∃ t ∈ entries, t.version = version ∧ t.platforms[platform]?.isSome := by
  obtain ⟨⟨k, e⟩, he, hok⟩ := List.any_eq_true.1 h
  rw [Bool.and_eq_true, decide_eq_true_eq] at hok
  have hget := (IndexMap.mem_entries _).1 he
  have hinfo : infoAt (freshByKey entries) k platform ≠ none := by
    rw [infoAt, hget, Option.bind_some, ← Option.isSome_iff_ne_none,
      ExtTreeMap.isSome_getElem?_eq_contains]
    exact hok.2
  obtain ⟨t, ht, hkey, hsome⟩ := exists_of_infoAt_freshByKey hinfo
  exact ⟨t, ht, by rw [← hok.1, ← hkey]; rfl, hsome⟩

/-! ### The existing entries -/

theorem get_spreadProvenance (m : IndexMap LockfileToolKey LockfileTool) (e : LockfileTool)
    (k : LockfileToolKey) :
    (spreadProvenance m e).get k = none ↔ m.get k = none := by
  rw [spreadProvenance]
  split
  · rfl
  · rw [IndexMap.get_mapWithKey, Option.map_eq_none_iff]

theorem infoAt_spreadProvenance (m : IndexMap LockfileToolKey LockfileTool) (e : LockfileTool)
    (k : LockfileToolKey) (p : String) : infoAt (spreadProvenance m e) k p = infoAt m k p := by
  rw [spreadProvenance]
  split
  · rfl
  · rw [infoAt, infoAt, IndexMap.get_mapWithKey]
    cases m.get k with
    | none => rfl
    | some tool =>
      rw [Option.map_some, Option.bind_some, Option.bind_some]
      split <;> rfl

theorem get_takeSpecifiers (m : IndexMap LockfileToolKey LockfileTool) (e : LockfileTool)
    (k : LockfileToolKey) : (takeSpecifiers m e).get k = none ↔ m.get k = none := by
  rw [takeSpecifiers]
  split
  · rfl
  · case h_2 entry hentry =>
    rw [IndexMap.get_insert]
    split
    · case isTrue hk => simp [hk, hentry]
    · rfl

theorem infoAt_takeSpecifiers (m : IndexMap LockfileToolKey LockfileTool) (e : LockfileTool)
    (k : LockfileToolKey) (p : String) : infoAt (takeSpecifiers m e) k p = infoAt m k p := by
  rw [takeSpecifiers]
  split
  · rfl
  · case h_2 entry hentry =>
    rw [infoAt, infoAt, IndexMap.get_insert]
    split
    · case isTrue hk =>
      rw [hk, hentry]
      rfl
    · rfl

/-- An existing entry with options, where its key is already there. -/
theorem infoAt_mergeVariant_of_get (fresh : IndexMap LockfileToolKey LockfileTool)
    {m : IndexMap LockfileToolKey LockfileTool} {e : LockfileTool} (hget : m.get e.key ≠ none)
    (p : String) : infoAt (mergeVariant fresh m e) e.key p =
      e.platforms[p]?.elim (infoAt m e.key p) fun info => some (mergeOr (infoAt m e.key p) info) := by
  obtain ⟨entry, hentry⟩ := Option.ne_none_iff_exists'.1 hget
  simp only [mergeVariant, hentry, infoAt, IndexMap.get_insert, if_true, Option.bind_some,
    get_mergePlatforms]
  rfl

/-- An existing entry with options leaves the other keys. -/
theorem get_mergeVariant_of_ne (fresh m : IndexMap LockfileToolKey LockfileTool) (e : LockfileTool)
    {k : LockfileToolKey} (hk : k ≠ e.key) : (mergeVariant fresh m e).get k = m.get k := by
  simp only [mergeVariant]
  split
  · rw [IndexMap.get_insert, if_neg hk]
  · split
    · split
      · rfl
      · rw [IndexMap.get_insert, if_neg hk]
    · rfl

/-- An existing entry with options and no counterpart keeps what was not refreshed. -/
theorem infoAt_mergeVariant_kept {fresh m : IndexMap LockfileToolKey LockfileTool}
    {e : LockfileTool} (hget : m.get e.key = none) (hversion : freshVersion fresh e.version = true)
    {p : String} {info : PlatformInfo} (hinfo : e.platforms[p]? = some info)
    (hfresh : freshPlatform fresh e.version p = false) :
    infoAt (mergeVariant fresh m e) e.key p = some info := by
  have hkept : (e.platforms.filter fun platform _ => !freshPlatform fresh e.version platform)[p]? =
      some info := by
    rw [ExtTreeMap.getElem?_filter]
    simp [hinfo, hfresh]
  have hne : (e.platforms.filter fun platform _ =>
      !freshPlatform fresh e.version platform).isEmpty = false := by
    rw [Bool.eq_false_iff]
    intro hempty
    rw [ExtTreeMap.isEmpty_iff.1 hempty, ExtTreeMap.getElem?_empty] at hkept
    exact Option.some_ne_none _ hkept.symm
  simp only [mergeVariant, hget, hversion, if_true, hne, Bool.false_eq_true, if_false, infoAt,
    IndexMap.get_insert, Option.bind_some, hkept]

section Resolve

variable {π : Type} (parse : String → Option π) (resolve : String → π → Option LockOptions)

/-- The key a platform of a legacy entry goes to. -/
def legacyKey (e : LockfileTool) (p : String) : LockfileToolKey :=
  (e.version, (resolvedOptions parse resolve e.version p).getD e.options)

theorem get_rekeyPlatform_of_ne {e : LockfileTool} {p : String} {k : LockfileToolKey}
    (hk : k ≠ legacyKey parse resolve e p) (m : IndexMap LockfileToolKey LockfileTool)
    (info : PlatformInfo) : (rekeyPlatform parse resolve e m p info).get k = m.get k := by
  rw [legacyKey] at hk
  rw [rekeyPlatform]
  split
  · case h_1 hnone =>
    rw [hnone] at hk
    rw [IndexMap.get_insert]
    exact if_neg hk
  · case h_2 options hsome =>
    rw [hsome] at hk
    rw [IndexMap.get_insert]
    exact if_neg hk

/-- A platform moves to the key of its options, and no other does. -/
theorem infoAt_rekeyPlatform (e : LockfileTool) (m : IndexMap LockfileToolKey LockfileTool)
    (a : String) (info : PlatformInfo) (k : LockfileToolKey) (p : String) :
    infoAt (rekeyPlatform parse resolve e m a info) k p =
      if a = p then
        if legacyKey parse resolve e a = k then
          some (if resolvedOptions parse resolve e.version a = none then info
            else mergeOr (infoAt m k p) info)
        else infoAt m k p
      else infoAt m k p := by
  by_cases hk : legacyKey parse resolve e a = k
  · subst hk
    simp only [if_true]
    have hempty : ∀ options, ((e.legacyAt options).platforms)[p]? = none := fun _ =>
      ExtTreeMap.getElem?_empty
    cases hres : resolvedOptions parse resolve e.version a with
    | none =>
      have hkey : legacyKey parse resolve e a = e.key := by rw [legacyKey, hres]; rfl
      simp only [rekeyPlatform, hres, hkey, infoAt, IndexMap.get_insert, if_true, Option.bind_some,
        BTreeMap.get_insert]
      split
      · rfl
      · cases m.get e.key with
        | none => exact hempty _
        | some entry => rfl
    | some options =>
      have hkey : legacyKey parse resolve e a = (e.version, options) := by rw [legacyKey, hres]; rfl
      simp only [rekeyPlatform, hres, hkey, infoAt, IndexMap.get_insert, if_true, Option.bind_some,
        BTreeMap.get_alter, reduceCtorEq, if_false]
      split
      · cases m.get (e.version, options) with
        | none =>
          rw [Option.getD_none, hempty]
          rfl
        | some entry => rfl
      · cases m.get (e.version, options) with
        | none => exact hempty _
        | some entry => rfl
  · rw [if_neg hk, infoAt, get_rekeyPlatform_of_ne parse resolve (Ne.symm hk)]
    split <;> rfl

/-- **All platforms of a legacy entry**, each at the key it goes to. -/
theorem infoAt_foldl_rekeyPlatform (e : LockfileTool) (m : IndexMap LockfileToolKey LockfileTool)
    (k : LockfileToolKey) (p : String) :
    infoAt (e.platforms.foldl (rekeyPlatform parse resolve e) m) k p =
      e.platforms[p]?.elim (infoAt m k p) fun info =>
        if legacyKey parse resolve e p = k then
          some (if resolvedOptions parse resolve e.version p = none then info
            else mergeOr (infoAt m k p) info)
        else infoAt m k p :=
  BTreeMap.get_foldl (fun m p => infoAt m k p) (rekeyPlatform parse resolve e)
    (fun a info old =>
      if legacyKey parse resolve e a = k then
        some (if resolvedOptions parse resolve e.version a = none then info else mergeOr old info)
      else old)
    (fun m a info p => infoAt_rekeyPlatform parse resolve e m a info k p) e.platforms m p

/-! ### One existing entry -/

/-- The step replaces the record of a platform: a legacy entry has one for it, and
no options were resolved. -/
def Replaces (e : LockfileTool) (k : LockfileToolKey) (p : String) : Prop :=
  e.options = ∅ ∧ e.key = k ∧ e.platforms[p]?.isSome ∧
    resolvedOptions parse resolve e.version p = none

section Step

variable (fresh : IndexMap LockfileToolKey LockfileTool)
  (state : IndexMap LockfileToolKey LockfileTool × List LockfileToolKey) (e : LockfileTool)

/-- The map when the platforms of an existing entry are about to be merged. -/
def prepared : IndexMap LockfileToolKey LockfileTool :=
  takeSpecifiers (spreadProvenance state.1 e) e

theorem infoAt_prepared (k : LockfileToolKey) (p : String) :
    infoAt (prepared state e) k p = infoAt state.1 k p := by
  rw [prepared, infoAt_takeSpecifiers, infoAt_spreadProvenance]

theorem get_prepared (k : LockfileToolKey) :
    (prepared state e).get k = none ↔ state.1.get k = none := by
  rw [prepared, get_takeSpecifiers, get_spreadProvenance]

/-- What the step does to the map, by the kind of the existing entry. -/
theorem addExisting_fst :
    (addExisting parse resolve fresh state e).1 =
      if e.options = ∅ then
        if freshVersion fresh e.version then
          e.platforms.foldl (rekeyPlatform parse resolve e) (prepared state e)
        else prepared state e
      else mergeVariant fresh (prepared state e) e := by
  have hempty : e.options.isEmpty = true ↔ e.options = ∅ := ExtTreeMap.isEmpty_iff
  simp only [addExisting, Bool.not_eq_true', Bool.eq_false_iff, ne_eq, hempty]
  by_cases hopts : e.options = ∅
  · by_cases hversion : freshVersion fresh e.version = true
    · simp [hopts, hversion, prepared]
    · simp [hopts, hversion, prepared]
  · simp [hopts, prepared]

/-- A legacy entry of a fresh version is consumed when its key is gone. -/
theorem addExisting_snd :
    (addExisting parse resolve fresh state e).2 =
      if e.options = ∅ ∧ freshVersion fresh e.version = true ∧
          (addExisting parse resolve fresh state e).1.get e.key = none then e.key :: state.2
      else state.2 := by
  rw [addExisting_fst]
  have hempty : e.options.isEmpty = true ↔ e.options = ∅ := ExtTreeMap.isEmpty_iff
  simp only [addExisting, Bool.not_eq_true', Bool.eq_false_iff, ne_eq, hempty]
  by_cases hopts : e.options = ∅
  · by_cases hversion : freshVersion fresh e.version = true
    · simp only [hopts, hversion, not_true, if_false, if_true, true_and, IndexMap.containsKey,
        prepared, Option.isSome_iff_ne_none, ne_eq, ite_not]
    · simp [hopts, hversion]
  · simp [hopts]

variable {fresh state e} {k : LockfileToolKey} {p : String}

/-- **A record is left or merged into**, unless it is replaced. -/
theorem infoAt_addExisting {r : PlatformInfo} (hr : infoAt state.1 k p = some r)
    (hkeep : ¬Replaces parse resolve e k p) :
    ∃ r', infoAt (addExisting parse resolve fresh state e).1 k p = some r' ∧
      (r' = r ∨ ∃ x, r' = r.mergeWith x) := by
  have hprep : infoAt (prepared state e) k p = some r := (infoAt_prepared state e k p).trans hr
  rw [addExisting_fst]
  split
  · case isTrue hopts =>
    split
    · rw [infoAt_foldl_rekeyPlatform, hprep]
      cases hinfo : e.platforms[p]? with
      | none => exact ⟨r, rfl, .inl rfl⟩
      | some info =>
        rw [Option.elim_some]
        split
        · case isTrue hk =>
          have hres : resolvedOptions parse resolve e.version p ≠ none := by
            intro hnone
            refine hkeep ⟨hopts, ?_, by rw [hinfo]; rfl, hnone⟩
            rw [← hk, legacyKey, hnone]
            rfl
          rw [if_neg hres]
          exact ⟨r.mergeWith info, rfl, .inr ⟨info, rfl⟩⟩
        · exact ⟨r, rfl, .inl rfl⟩
    · exact ⟨r, hprep, .inl rfl⟩
  · by_cases hk : k = e.key
    · have hget : (prepared state e).get e.key ≠ none := by
        intro hnone
        rw [infoAt, hk, hnone] at hprep
        exact Option.some_ne_none r hprep.symm
      rw [hk] at hprep ⊢
      rw [infoAt_mergeVariant_of_get fresh hget, hprep]
      cases e.platforms[p]? with
      | none => exact ⟨r, rfl, .inl rfl⟩
      | some info => exact ⟨r.mergeWith info, rfl, .inr ⟨info, rfl⟩⟩
    · refine ⟨r, ?_, .inl rfl⟩
      rw [infoAt, get_mergeVariant_of_ne fresh _ e hk]
      exact hprep

/-- The key under which a platform of an existing entry is found afterwards. -/
def ownKey (e : LockfileTool) (p : String) : LockfileToolKey :=
  if e.options = ∅ then legacyKey parse resolve e p else e.key

theorem mergedInto_mergeOr (old : Option PlatformInfo) (info : PlatformInfo) :
    MergedInto info (mergeOr old info) := by
  cases old with
  | none => exact .self
  | some old => exact .right old info .self

/-- **An existing record is merged in at its own turn**, unless it is of an option
variant without counterpart and was refreshed. -/
theorem infoAt_addExisting_own {info : PlatformInfo} (hinfo : e.platforms[p]? = some info)
    (hversion : freshVersion fresh e.version = true)
    (hstays : e.options = ∅ ∨ state.1.get e.key ≠ none ∨
      freshPlatform fresh e.version p = false) :
    ∃ r, infoAt (addExisting parse resolve fresh state e).1 (ownKey parse resolve e p) p = some r ∧
      MergedInto info r := by
  rw [addExisting_fst]
  by_cases hopts : e.options = ∅
  · rw [if_pos hopts, if_pos hversion, ownKey, if_pos hopts, infoAt_foldl_rekeyPlatform, hinfo,
      Option.elim_some, if_pos rfl]
    refine ⟨_, rfl, ?_⟩
    split
    · exact .self
    · exact mergedInto_mergeOr _ info
  · rw [if_neg hopts, ownKey, if_neg hopts]
    by_cases hget : (prepared state e).get e.key = none
    · have hfresh := (hstays.resolve_left hopts).resolve_left
        (not_not_intro ((get_prepared state e e.key).1 hget))
      exact ⟨info, infoAt_mergeVariant_kept hget hversion hinfo hfresh, .self⟩
    · rw [infoAt_mergeVariant_of_get fresh hget, hinfo]
      exact ⟨_, rfl, mergedInto_mergeOr _ info⟩

/-! ### The keys -/

theorem get_rekeyPlatform_ne_none {m : IndexMap LockfileToolKey LockfileTool}
    {info : PlatformInfo} :
    (rekeyPlatform parse resolve e m p info).get k ≠ none ↔
      k = legacyKey parse resolve e p ∨ m.get k ≠ none := by
  by_cases hk : k = legacyKey parse resolve e p
  · refine iff_of_true ?_ (.inl hk)
    rw [hk, legacyKey, rekeyPlatform]
    cases resolvedOptions parse resolve e.version p with
    | none =>
      rw [IndexMap.get_insert]
      exact ne_of_eq_of_ne (if_pos rfl) (Option.some_ne_none _)
    | some options =>
      rw [IndexMap.get_insert]
      exact ne_of_eq_of_ne (if_pos rfl) (Option.some_ne_none _)
  · rw [get_rekeyPlatform_of_ne parse resolve hk]
    exact ⟨.inr, fun h => h.resolve_left hk⟩

/-- No step removes a key. -/
theorem addExisting_get_ne_none (hk : state.1.get k ≠ none) :
    (addExisting parse resolve fresh state e).1.get k ≠ none := by
  have hprep : (prepared state e).get k ≠ none := fun h => hk ((get_prepared state e k).1 h)
  rw [addExisting_fst]
  split
  · split
    · refine BTreeMap.foldl_induction (fun m : IndexMap _ _ => m.get k ≠ none) _ hprep ?_
      intro m a info _ hm
      exact (get_rekeyPlatform_ne_none parse resolve).2 (.inr hm)
    · exact hprep
  · by_cases hkey : k = e.key
    · rw [mergeVariant]
      split
      · rw [IndexMap.get_insert, if_pos hkey]
        exact Option.some_ne_none _
      · case h_2 hnone => exact absurd hnone (hkey ▸ hprep)
    · rw [get_mergeVariant_of_ne fresh _ e hkey]
      exact hprep

/-- A key without options is only ever added by an existing entry of that key. -/
theorem eq_key_of_addExisting (hempty : k.2 = ∅)
    (hk : (addExisting parse resolve fresh state e).1.get k ≠ none) :
    state.1.get k ≠ none ∨ e.key = k := by
  by_contra hno
  rw [not_or, not_not] at hno
  obtain ⟨hnone, hne⟩ := hno
  have hprep : (prepared state e).get k = none := (get_prepared state e k).2 hnone
  rw [addExisting_fst] at hk
  split at hk
  · case isTrue hopts =>
    split at hk
    · refine hk (BTreeMap.foldl_induction (fun m : IndexMap _ _ => m.get k = none) _ hprep ?_)
      intro m a info _ hm
      by_contra hadded
      rcases (get_rekeyPlatform_ne_none parse resolve).1 hadded with hlegacy | hold
      · refine hne ?_
        rw [LockfileTool.key, hopts, hlegacy]
        rw [hlegacy] at hempty
        exact Prod.ext rfl hempty.symm
      · exact hold hm
    · exact hk hprep
  · rw [get_mergeVariant_of_ne fresh _ e (Ne.symm hne)] at hk
    exact hk hprep

/-- Each value is stored under its own key. -/
def Keyed (m : IndexMap LockfileToolKey LockfileTool) : Prop :=
  ∀ k t, m.get k = some t → t.key = k

theorem Keyed.insert {m : IndexMap LockfileToolKey LockfileTool} (hm : Keyed m)
    {k : LockfileToolKey} {t : LockfileTool} (ht : t.key = k) : Keyed (m.insert k t) := by
  intro k' t' hget
  rw [IndexMap.get_insert] at hget
  split at hget
  · case isTrue hk =>
    obtain rfl := Option.some.inj hget
    exact ht.trans hk.symm
  · exact hm k' t' hget

theorem keyed_addFresh {m : IndexMap LockfileToolKey LockfileTool} (hm : Keyed m)
    (t : LockfileTool) : Keyed (addFresh m t) := by
  refine hm.insert ?_
  show ((m.get t.key).getD t).key = t.key
  cases hget : m.get t.key with
  | none => rfl
  | some entry => exact hm _ _ hget

theorem keyed_freshByKey (entries : List LockfileTool) : Keyed (freshByKey entries) := by
  have hfold : ∀ (ts : List LockfileTool) (m : IndexMap LockfileToolKey LockfileTool), Keyed m →
      Keyed (ts.foldl addFresh m) := by
    intro ts
    induction ts with
    | nil => exact fun m hm => hm
    | cons t ts ih => exact fun m hm => ih _ (keyed_addFresh hm t)
  exact hfold entries .empty fun k t h => absurd h.symm (Option.some_ne_none t)

theorem keyed_prepared (hm : Keyed state.1) : Keyed (prepared state e) := by
  have hspread : Keyed (spreadProvenance state.1 e) := by
    rw [spreadProvenance]
    split
    · exact hm
    · intro k t hget
      rw [IndexMap.get_mapWithKey] at hget
      obtain ⟨t', hget', rfl⟩ := Option.map_eq_some_iff.1 hget
      have hkey := hm k t' hget'
      split
      · exact hkey
      · exact hkey
  rw [prepared, takeSpecifiers]
  split
  · exact hspread
  · case h_2 entry hentry =>
    have hkey : entry.key = e.key := hspread _ _ hentry
    exact hspread.insert hkey

theorem keyed_rekeyPlatform {m : IndexMap LockfileToolKey LockfileTool} (hm : Keyed m)
    (e : LockfileTool) (p : String) (info : PlatformInfo) :
    Keyed (rekeyPlatform parse resolve e m p info) := by
  rw [rekeyPlatform]
  split
  · refine hm.insert ?_
    show ((m.get e.key).getD (e.legacyAt e.options)).key = e.key
    cases hget : m.get e.key with
    | none => rfl
    | some entry => exact hm _ _ hget
  · case h_2 options _ =>
    refine hm.insert ?_
    show ((m.get (e.version, options)).getD (e.legacyAt options)).key = (e.version, options)
    cases hget : m.get (e.version, options) with
    | none => rfl
    | some entry => exact hm _ _ hget

theorem keyed_mergeVariant {m : IndexMap LockfileToolKey LockfileTool} (hm : Keyed m)
    (fresh : IndexMap LockfileToolKey LockfileTool) (e : LockfileTool) :
    Keyed (mergeVariant fresh m e) := by
  rw [mergeVariant]
  split
  · case h_1 entry hentry =>
    have hkey : entry.key = e.key := hm _ _ hentry
    exact hm.insert hkey
  · split
    · simp only
      split
      · exact hm
      · exact hm.insert rfl
    · exact hm

theorem keyed_addExisting (hm : Keyed state.1) :
    Keyed (addExisting parse resolve fresh state e).1 := by
  have hprep := keyed_prepared (e := e) hm
  rw [addExisting_fst]
  split
  · split
    · refine BTreeMap.foldl_induction Keyed _ hprep ?_
      exact fun m a info _ hm => keyed_rekeyPlatform parse resolve hm e a info
    · exact hprep
  · exact keyed_mergeVariant hprep fresh e

end Step

/-! ### Runs -/

section Run

variable {fresh : IndexMap LockfileToolKey LockfileTool}
  {state : IndexMap LockfileToolKey LockfileTool × List LockfileToolKey}
  (es : List LockfileTool) {k : LockfileToolKey} {p : String}

/-- What holds of a record and survives merging holds of it at the end. -/
theorem infoAt_run {Q : PlatformInfo → Prop} (hQ : ∀ r x, Q r → Q (r.mergeWith x))
    {r : PlatformInfo} (hr : infoAt state.1 k p = some r) (hQr : Q r)
    (hkeep : ∀ e ∈ es, ¬Replaces parse resolve e k p) :
    ∃ r', infoAt (es.foldl (addExisting parse resolve fresh) state).1 k p = some r' ∧ Q r' := by
  induction es generalizing state r with
  | nil => exact ⟨r, hr, hQr⟩
  | cons e es ih =>
    obtain ⟨r', hr', hcases⟩ :=
      infoAt_addExisting parse resolve hr (hkeep e List.mem_cons_self)
    refine ih hr' ?_ fun x hx => hkeep x (List.mem_cons_of_mem e hx)
    rcases hcases with rfl | ⟨x, rfl⟩
    · exact hQr
    · exact hQ r x hQr

theorem get_run_ne_none (hk : state.1.get k ≠ none) :
    (es.foldl (addExisting parse resolve fresh) state).1.get k ≠ none := by
  induction es generalizing state with
  | nil => exact hk
  | cons e es ih => exact ih (addExisting_get_ne_none parse resolve hk)

theorem eq_key_of_run (hempty : k.2 = ∅)
    (hk : (es.foldl (addExisting parse resolve fresh) state).1.get k ≠ none) :
    state.1.get k ≠ none ∨ ∃ e ∈ es, e.key = k := by
  induction es generalizing state with
  | nil => exact .inl hk
  | cons e es ih =>
    rcases ih hk with hstep | ⟨x, hx, hkey⟩
    · rcases eq_key_of_addExisting parse resolve hempty hstep with hold | hkey
      · exact .inl hold
      · exact .inr ⟨e, List.mem_cons_self, hkey⟩
    · exact .inr ⟨x, List.mem_cons_of_mem e hx, hkey⟩

theorem keyed_run (hm : Keyed state.1) :
    Keyed (es.foldl (addExisting parse resolve fresh) state).1 := by
  induction es generalizing state with
  | nil => exact hm
  | cons e es ih => exact ih (keyed_addExisting parse resolve hm)

theorem mem_consumed_run {k : LockfileToolKey} (hk : k ∈ state.2) :
    k ∈ (es.foldl (addExisting parse resolve fresh) state).2 := by
  induction es generalizing state with
  | nil => exact hk
  | cons e es ih =>
    refine ih ?_
    rw [addExisting_snd]
    split
    · exact List.mem_cons_of_mem _ hk
    · exact hk

/-- A legacy key of a fresh version that is gone was consumed. -/
theorem mem_consumed_of_absent {e : LockfileTool} (he : e ∈ es) (hopts : e.options = ∅)
    (hversion : freshVersion fresh e.version = true)
    (hgone : (es.foldl (addExisting parse resolve fresh) state).1.get e.key = none) :
    e.key ∈ (es.foldl (addExisting parse resolve fresh) state).2 := by
  induction es generalizing state with
  | nil => exact absurd he List.not_mem_nil
  | cons x es ih =>
    rcases List.mem_cons.1 he with rfl | he
    · refine mem_consumed_run parse resolve es ?_
      have hnow : (addExisting parse resolve fresh state e).1.get e.key = none := by
        by_contra hsome
        exact get_run_ne_none parse resolve es hsome hgone
      rw [addExisting_snd, if_pos ⟨hopts, hversion, hnow⟩]
      exact List.mem_cons_self
    · exact ih he hgone

/-- A consumed key is of a legacy entry of a fresh version, and is gone unless
another existing entry has it as well. -/
theorem of_mem_consumed (hk : k ∈ (es.foldl (addExisting parse resolve fresh) state).2) :
    k ∈ state.2 ∨ ∃ e ∈ es, e.options = ∅ ∧ freshVersion fresh e.version = true ∧ e.key = k ∧
      ((es.map (·.key)).count k ≤ 1 →
        (es.foldl (addExisting parse resolve fresh) state).1.get k = none) := by
  induction es generalizing state with
  | nil => exact .inl hk
  | cons e es ih =>
    rcases ih hk with hstep | ⟨x, hx, hopts, hversion, hkey, hgone⟩
    · rw [addExisting_snd] at hstep
      split at hstep
      · case isTrue hconsumed =>
        rcases List.mem_cons.1 hstep with rfl | hold
        · refine .inr ⟨e, List.mem_cons_self, hconsumed.1, hconsumed.2.1, rfl, fun hcount => ?_⟩
          -- nothing after the entry adds its key again
          by_contra hsome
          rcases eq_key_of_run parse resolve es hconsumed.1 hsome with hnow | ⟨x, hx, hkey⟩
          · exact hnow hconsumed.2.2
          · have hpos : 0 < (es.map (·.key)).count e.key :=
              List.count_pos_iff.2 (List.mem_map.2 ⟨x, hx, hkey⟩)
            rw [List.map_cons, List.count_cons_self] at hcount
            omega
        · exact .inl hold
      · exact .inl hstep
    · refine .inr ⟨x, List.mem_cons_of_mem e hx, hopts, hversion, hkey, fun hcount => hgone ?_⟩
      rw [List.map_cons, List.count_cons] at hcount
      omega

end Run

/-! ### The result -/

theorem optionsRank_injective : Function.Injective optionsRank := by
  intro a b hab
  have htoList : a.toList = b.toList := (List.map_injective_iff.2 toLex.injective) hab
  refine ExtTreeMap.ext_getElem? fun k => Option.ext fun v => ?_
  rw [← ExtTreeMap.mem_toList_iff_getElem?_eq_some, htoList,
    ExtTreeMap.mem_toList_iff_getElem?_eq_some]

theorem keyRank_injective : Function.Injective keyRank := by
  rintro ⟨version, options⟩ ⟨version', options'⟩ hab
  obtain ⟨hversion, hoptions⟩ := Prod.mk.inj (toLex.injective hab)
  exact Prod.ext hversion (optionsRank_injective hoptions)

theorem mem_sortTools {tools : List LockfileTool} {t : LockfileTool} :
    t ∈ sortTools tools ↔ t ∈ tools :=
  List.mem_insertionSort _

/-- Distinct keys are sorted strictly. -/
theorem pairwise_sortTools {tools : List LockfileTool} (hnodup : (tools.map (·.key)).Nodup) :
    (sortTools tools).Pairwise fun a b => keyRank a.key < keyRank b.key := by
  have htotal : Std.Total fun a b : LockfileTool => keyRank a.key ≤ keyRank b.key :=
    ⟨fun a b => le_total _ _⟩
  have htrans : IsTrans LockfileTool fun a b => keyRank a.key ≤ keyRank b.key :=
    ⟨fun a b c => le_trans⟩
  have hsorted := List.pairwise_insertionSort
    (fun a b : LockfileTool => keyRank a.key ≤ keyRank b.key) tools
  have hne : (sortTools tools).Pairwise fun a b => a.key ≠ b.key := by
    have hperm := (List.perm_insertionSort
      (fun a b : LockfileTool => keyRank a.key ≤ keyRank b.key) tools).map (·.key)
    exact List.pairwise_map.1 (hperm.nodup_iff.2 hnodup)
  refine (hsorted.and hne).imp fun {a b} h => lt_of_le_of_ne h.1 fun heq => ?_
  exact h.2 (keyRank_injective heq)

theorem keyed_mergeLoops (entries existing : List LockfileTool) :
    Keyed (mergeLoops parse resolve entries existing).1 :=
  keyed_run parse resolve existing (keyed_freshByKey entries)

theorem mem_mergeToolEntries (entries existing : List LockfileTool) (e : LockfileTool) :
    e ∈ (mergeToolEntries parse resolve entries existing).1 ↔
      (mergeLoops parse resolve entries existing).1.get e.key = some e := by
  rw [mergeToolEntries, mem_sortTools, List.mem_map]
  constructor
  · rintro ⟨⟨k, t⟩, hmem, rfl⟩
    have hget := (IndexMap.mem_entries _).1 hmem
    rwa [keyed_mergeLoops parse resolve entries existing k t hget]
  · exact fun hget => ⟨(e.key, e), (IndexMap.mem_entries _).2 hget, rfl⟩

theorem pairwise_mergeToolEntries (entries existing : List LockfileTool) :
    (mergeToolEntries parse resolve entries existing).1.Pairwise
      fun a b => keyRank a.key < keyRank b.key := by
  refine pairwise_sortTools ?_
  have hkeys : (mergeLoops parse resolve entries existing).1.entries.map (fun e => e.2.key) =
      (mergeLoops parse resolve entries existing).1.entries.map Prod.fst := by
    refine List.map_congr_left fun e he => ?_
    exact keyed_mergeLoops parse resolve entries existing e.1 e.2 ((IndexMap.mem_entries _).1 he)
  rw [List.map_map]
  exact hkeys ▸ (mergeLoops parse resolve entries existing).1.nodup

/-- Every fresh entry has its key in the result. -/
theorem key_mem_mergeToolEntries (entries existing : List LockfileTool) (t : LockfileTool)
    (ht : t ∈ entries) : t.key ∈ (mergeToolEntries parse resolve entries existing).1.map (·.key) := by
  have hfresh := (containsKey_freshByKey entries t.key).2 ⟨t, ht, rfl⟩
  have hget : (mergeLoops parse resolve entries existing).1.get t.key ≠ none :=
    get_run_ne_none parse resolve existing (Option.isSome_iff_ne_none.1 hfresh)
  obtain ⟨e, he⟩ := Option.ne_none_iff_exists'.1 hget
  have hkey := keyed_mergeLoops parse resolve entries existing t.key e he
  exact List.mem_map.2 ⟨e, (mem_mergeToolEntries parse resolve entries existing e).2 (hkey ▸ he), hkey⟩

/-- An entry of the list has the key and the record. -/
def RecordedIn (tools : List LockfileTool) (k : LockfileToolKey) (p : String) (r : PlatformInfo) :
    Prop :=
  ∃ e ∈ tools, e.key = k ∧ e.platforms[p]? = some r

theorem recordedIn_of_infoAt {entries existing : List LockfileTool} {k : LockfileToolKey}
    {p : String} {r : PlatformInfo}
    (h : infoAt (mergeLoops parse resolve entries existing).1 k p = some r) :
    RecordedIn (mergeToolEntries parse resolve entries existing).1 k p r := by
  obtain ⟨e, hget, hinfo⟩ := Option.bind_eq_some_iff.1 h
  have hkey := keyed_mergeLoops parse resolve entries existing k e hget
  exact ⟨e, (mem_mergeToolEntries parse resolve entries existing e).2 (hkey ▸ hget), hkey, hinfo⟩

theorem get_mergeLoops_eq_none_iff {entries existing : List LockfileTool} {k : LockfileToolKey} :
    (mergeLoops parse resolve entries existing).1.get k = none ↔
      ∀ e ∈ (mergeToolEntries parse resolve entries existing).1, e.key ≠ k := by
  constructor
  · rintro hnone e he rfl
    rw [(mem_mergeToolEntries parse resolve entries existing e).1 he] at hnone
    exact Option.some_ne_none e hnone
  · intro hno
    by_contra hsome
    obtain ⟨e, he⟩ := Option.ne_none_iff_exists'.1 hsome
    have hkey := keyed_mergeLoops parse resolve entries existing k e he
    exact hno e ((mem_mergeToolEntries parse resolve entries existing e).2 (hkey ▸ he)) hkey

/-- **What an update keeps.**  The entries have distinct versions and options and
are sorted by them; the last fresh record of a platform is taken, unless a legacy
record replaces it; an existing record of a fresh version is merged in, unless it
was refreshed or a later legacy record replaces it; and what is consumed are the
legacy keys that are gone. -/
structure KeepsData (entries existing result : List LockfileTool)
    (consumed : List LockfileToolKey) : Prop where
  sorted : result.Pairwise fun a b => keyRank a.key < keyRank b.key
  freshWins : ∀ pre t post p f, entries = pre ++ t :: post → t.platforms[p]? = some f →
    (∀ u ∈ post, u.key = t.key → u.platforms[p]? = none) →
    (∀ e ∈ existing, ¬Replaces parse resolve e t.key p) →
      ∃ r, RecordedIn result t.key p r ∧ Takes f r
  nothingLost : ∀ pre e post p info, existing = pre ++ e :: post → e.platforms[p]? = some info →
    (∃ t ∈ entries, t.version = e.version) →
    (e.options = ∅ ∨ (∃ t ∈ entries, t.key = e.key) ∨
      ∀ t ∈ entries, t.version = e.version → t.platforms[p]? = none) →
    (∀ u ∈ post, ¬Replaces parse resolve u e.key p) →
      ∃ r, RecordedIn result (ownKey parse resolve e p) p r ∧ MergedInto info r
  consumedOnly : ∀ k ∈ consumed,
    (∃ e ∈ existing, e.options = ∅ ∧ e.key = k ∧ ∃ t ∈ entries, t.version = e.version) ∧
      ((existing.map (·.key)).count k ≤ 1 → ∀ e ∈ result, e.key ≠ k)
  consumedAll : ∀ e ∈ existing, e.options = ∅ → (∃ t ∈ entries, t.version = e.version) →
    (∀ x ∈ result, x.key ≠ e.key) → e.key ∈ consumed

/-- **An update keeps fresh data and loses none.** -/
theorem update_keeps_data (entries existing : List LockfileTool) :
    KeepsData parse resolve entries existing (mergeToolEntries parse resolve entries existing).1
      (mergeToolEntries parse resolve entries existing).2 where
  sorted := pairwise_mergeToolEntries parse resolve entries existing
  freshWins := by
    rintro pre t post p f rfl hf hlast hkeep
    obtain ⟨r, hr, htakes⟩ := infoAt_freshByKey pre hf hlast
    have hstart : infoAt (freshByKey (pre ++ t :: post), ([] : List LockfileToolKey)).1 t.key p =
        some r := hr
    obtain ⟨r', hr', htakes'⟩ := infoAt_run parse resolve existing
      (fun r x h => h.trans (takes_mergeWith r x)) hstart htakes hkeep
    exact ⟨r', recordedIn_of_infoAt parse resolve hr', htakes'⟩
  nothingLost := by
    rintro pre e post p info rfl hinfo hfresh hstays hkeep
    have hstays' : e.options = ∅ ∨
        (pre.foldl (addExisting parse resolve (freshByKey entries))
          (freshByKey entries, [])).1.get e.key ≠ none ∨
        freshPlatform (freshByKey entries) e.version p = false := by
      rcases hstays with hopts | hkey | hnot
      · exact .inl hopts
      · refine .inr (.inl (get_run_ne_none parse resolve pre ?_))
        exact Option.isSome_iff_ne_none.1 ((containsKey_freshByKey entries e.key).2 hkey)
      · refine .inr (.inr (Bool.eq_false_iff.2 fun hplatform => ?_))
        obtain ⟨t, ht, hversion, hsome⟩ := exists_of_freshPlatform hplatform
        rw [hnot t ht hversion] at hsome
        exact Bool.noConfusion hsome
    obtain ⟨r, hr, hmerged⟩ := infoAt_addExisting_own parse resolve hinfo
      ((freshVersion_iff entries e.version).2 hfresh) hstays'
    -- later entries only merge into it
    have hkeep' : ∀ u ∈ post, ¬Replaces parse resolve u (ownKey parse resolve e p) p := by
      intro u hu hrep
      refine hkeep u hu ⟨hrep.1, ?_, hrep.2.2⟩
      rw [hrep.2.1, ownKey]
      split
      · case isTrue hopts =>
        have hversion : u.version = e.version := by
          have := congrArg Prod.fst hrep.2.1
          rwa [ownKey, if_pos hopts] at this
        rw [legacyKey, ← hversion, hrep.2.2.2, hversion]
        rfl
      · rfl
    obtain ⟨r', hr', hmerged'⟩ := infoAt_run parse resolve post
      (fun r x h => MergedInto.left r x h) hr hmerged hkeep'
    refine ⟨r', recordedIn_of_infoAt parse resolve ?_, hmerged'⟩
    rwa [mergeLoops, List.foldl_append, List.foldl_cons]
  consumedOnly := by
    intro k hk
    rcases of_mem_consumed parse resolve existing hk with hnil | ⟨e, he, hopts, hversion, hkey, hgone⟩
    · exact absurd hnil List.not_mem_nil
    · refine ⟨⟨e, he, hopts, hkey, (freshVersion_iff entries e.version).1 hversion⟩, fun hcount => ?_⟩
      exact (get_mergeLoops_eq_none_iff parse resolve).1 (hgone hcount)
  consumedAll := by
    intro e he hopts hfresh habsent
    exact mem_consumed_of_absent parse resolve existing he hopts
      ((freshVersion_iff entries e.version).2 hfresh)
      ((get_mergeLoops_eq_none_iff parse resolve).2 habsent)

end Resolve

/-- An entry with options, recorded with the provenance. -/
def ripgrepEntry (provenance : ProvenanceType) : LockfileTool where
  version := "14.1.0"
  backend := some "github:BurntSushi/ripgrep"
  options := (∅ : LockOptions).insert "asset_pattern" "ripgrep-*-musl.tar.gz"
  platforms := (∅ : BTreeMap String PlatformInfo).insert "linux-x64"
    { url := some "https://example.com/rg.tar.gz"
      checksum := some "sha256:aa"
      provenance := some provenance }

/-- Fresh provenance gives way to recorded provenance of a higher priority. -/
theorem update_raises_provenance :
    (ripgrepEntry .cosign).platforms["linux-x64"]?.bind (·.provenance) = some .cosign ∧
    ¬∃ r, RecordedIn
      (mergeToolEntries some (fun _ (_ : String) => none) [ripgrepEntry .cosign]
        [ripgrepEntry .githubAttestations]).1
      (ripgrepEntry .cosign).key "linux-x64" r ∧ r.provenance = some .cosign := by
  refine ⟨by decide +kernel, ?_⟩
  rintro ⟨r, ⟨e, he, -, hinfo⟩, hr⟩
  have hresult : ∀ e ∈ (mergeToolEntries some (fun _ (_ : String) => none) [ripgrepEntry .cosign]
      [ripgrepEntry .githubAttestations]).1,
      e.platforms["linux-x64"]?.bind (·.provenance) = some .githubAttestations := by
    decide +kernel
  have hraised := hresult e he
  rw [hinfo, Option.bind_some, hr] at hraised
  exact absurd hraised (by decide)

end Mise
