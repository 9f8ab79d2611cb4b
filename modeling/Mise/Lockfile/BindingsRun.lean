/-
# Runs of operations keep bindings unambiguous

Where the specifiers of an updated tool come from: fresh entries (`FreshBinds`),
existing entries that stay under their options (`Stays`), and legacy entries that
move to the options found for a platform (`Rekeys`).  `Traced` says so of the map
that `merge_tool_entries` builds, turn by turn.  Fresh specifiers are bound anew in
the end, and those that stay were unambiguous before, so only a specifier that
moves can clash: `UpdateClear` excludes that, and `bindings_stay_unambiguous` is
about every run of operations that are clear when their turn comes.
-/

import Mise.Lockfile.Bindings

namespace Mise

open Lib
open Std (ExtTreeMap ExtTreeSet)

section Sources

variable {π : Type} (parse : String → Option π) (resolve : String → π → Option LockOptions)
  (entries : List LockfileTool)

/-- A fresh entry with the key carries the specifier. -/
def FreshBinds (k : LockfileToolKey) (s : String) : Prop :=
  ∃ t ∈ entries, t.key = k ∧ s ∈ t.specifiers

/-- An existing entry of a fresh version has the tool keep an entry with the key:
for a platform that was not refreshed, or for one of a legacy entry. -/
def Opens (x : LockfileTool) (k : LockfileToolKey) : Prop :=
  (∃ t ∈ entries, t.version = x.version) ∧ ∃ p, x.platforms[p]?.isSome ∧
    if x.options = ∅ then legacyKey parse resolve x p = k
    else x.key = k ∧ ∀ t ∈ entries, t.version = x.version → t.platforms[p]? = none

/-- An existing entry with the key carries the specifier, and there is a fresh
entry with the key, or this or an earlier existing entry has it kept. -/
def Stays (existing : List LockfileTool) (k : LockfileToolKey) (s : String) : Prop :=
  ∃ before e after, existing = before ++ e :: after ∧ e.key = k ∧ s ∈ e.specifiers ∧
    ((∃ t ∈ entries, t.key = k) ∨ ∃ x ∈ before ++ [e], Opens parse resolve entries x k)

/-- A legacy entry of a fresh version carries the specifier and has a platform that
goes to the key. -/
def Rekeys (existing : List LockfileTool) (k : LockfileToolKey) (s : String) : Prop :=
  ∃ e ∈ existing, e.options = ∅ ∧ (∃ t ∈ entries, t.version = e.version) ∧ s ∈ e.specifiers ∧
    ∃ p, e.platforms[p]?.isSome ∧ ∃ o, resolvedOptions parse resolve e.version p = some o ∧
      k = (e.version, o)

/-- **Where keys and specifiers come from**, after the existing entries `before`. -/
structure Traced (before : List LockfileTool) (m : IndexMap LockfileToolKey LockfileTool) :
    Prop where
  keys : ∀ k t, m.get k = some t →
    (∃ t ∈ entries, t.key = k) ∨ ∃ x ∈ before, Opens parse resolve entries x k
  specifiers : ∀ k t, m.get k = some t → ∀ s ∈ t.specifiers,
    FreshBinds entries k s ∨ Stays parse resolve entries before k s ∨
      Rekeys parse resolve entries before k s

variable {parse resolve entries}

theorem Stays.append {existing : List LockfileTool} {k : LockfileToolKey} {s : String}
    (h : Stays parse resolve entries existing k s) (more : List LockfileTool) :
    Stays parse resolve entries (existing ++ more) k s := by
  obtain ⟨before, e, after, rfl, hrest⟩ := h
  exact ⟨before, e, after ++ more, by simp, hrest⟩

theorem Rekeys.append {existing : List LockfileTool} {k : LockfileToolKey} {s : String}
    (h : Rekeys parse resolve entries existing k s) (more : List LockfileTool) :
    Rekeys parse resolve entries (existing ++ more) k s := by
  obtain ⟨e, he, hrest⟩ := h
  exact ⟨e, List.mem_append_left more he, hrest⟩

theorem Stays.exists_mem {existing : List LockfileTool} {k : LockfileToolKey} {s : String}
    (h : Stays parse resolve entries existing k s) : ∃ e ∈ existing, e.key = k ∧ s ∈ e.specifiers := by
  obtain ⟨before, e, after, rfl, hkey, hs, -⟩ := h
  exact ⟨e, List.mem_append_right before List.mem_cons_self, hkey, hs⟩

/-- A platform that some fresh entry of the version records counts as refreshed. -/
theorem freshPlatform_of_mem {t : LockfileTool} (ht : t ∈ entries) {p : String}
    (hp : t.platforms[p]? ≠ none) : freshPlatform (freshByKey entries) t.version p = true := by
  have hstep : ∀ (m : IndexMap LockfileToolKey LockfileTool) (u : LockfileTool),
      infoAt m t.key p ≠ none → infoAt (addFresh m u) t.key p ≠ none := by
    intro m u hm
    by_cases hkey : u.key = t.key ∧ u.platforms[p]? ≠ none
    · obtain ⟨info, hinfo⟩ := Option.ne_none_iff_exists'.1 hkey.2
      obtain ⟨r, hr, -⟩ := (infoAt_addFresh m u p).1 info hinfo
      rw [← hkey.1, hr]
      exact Option.some_ne_none r
    · rw [infoAt_addFresh_other m fun hk => by_contra fun hsome => hkey ⟨hk, hsome⟩]
      exact hm
  have hfold : ∀ (ts : List LockfileTool) (m : IndexMap LockfileToolKey LockfileTool),
      (t ∈ ts ∨ infoAt m t.key p ≠ none) → infoAt (ts.foldl addFresh m) t.key p ≠ none := by
    intro ts
    induction ts with
    | nil => exact fun m hm => hm.resolve_left List.not_mem_nil
    | cons u ts ih =>
      intro m hm
      refine ih _ ?_
      rcases hm with hmem | hm
      · rcases List.mem_cons.1 hmem with rfl | hmem
        · obtain ⟨info, hinfo⟩ := Option.ne_none_iff_exists'.1 hp
          obtain ⟨r, hr, -⟩ := (infoAt_addFresh m t p).1 info hinfo
          rw [hr]
          exact .inr (Option.some_ne_none r)
        · exact .inl hmem
      · exact .inr (hstep m u hm)
  obtain ⟨info, hinfo⟩ := Option.ne_none_iff_exists'.1 (hfold entries .empty (.inl ht))
  obtain ⟨e, hget, hrecord⟩ := Option.bind_eq_some_iff.1 hinfo
  refine List.any_eq_true.2 ⟨(t.key, e), (IndexMap.mem_entries _).2 hget, ?_⟩
  rw [Bool.and_eq_true]
  refine ⟨decide_eq_true rfl, ?_⟩
  rw [← ExtTreeMap.isSome_getElem?_eq_contains]
  exact Option.isSome_iff_exists.2 ⟨info, hrecord⟩

/-- A platform of a kept entry that was not refreshed. -/
theorem exists_kept {e : LockfileTool} (h : ¬(e.platforms.filter fun platform _ =>
      !freshPlatform (freshByKey entries) e.version platform).isEmpty = true) :
    ∃ p : String, e.platforms[p]?.isSome ∧
      ∀ t ∈ entries, t.version = e.version → t.platforms[p]? = none := by
  by_contra hno
  refine h (ExtTreeMap.isEmpty_iff.2 (ExtTreeMap.ext_getElem? fun p => ?_))
  rw [ExtTreeMap.getElem?_filter', ExtTreeMap.getElem?_empty]
  cases hp : e.platforms[p]? with
  | none => rfl
  | some info =>
    rw [Option.filter_some, if_neg]
    rw [Bool.not_eq_true', Bool.not_eq_false]
    by_contra hfresh
    refine hno ⟨p, by rw [hp]; rfl, fun t ht hversion => ?_⟩
    by_contra hsome
    exact hfresh (hversion ▸ freshPlatform_of_mem ht hsome)

namespace Traced

variable {before : List LockfileTool} {m : IndexMap LockfileToolKey LockfileTool} {e : LockfileTool}

theorem append (h : Traced parse resolve entries before m) (more : List LockfileTool) :
    Traced parse resolve entries (before ++ more) m where
  keys k t ht := by
    rcases h.keys k t ht with hfresh | ⟨x, hx, hopens⟩
    · exact .inl hfresh
    · exact .inr ⟨x, List.mem_append_left more hx, hopens⟩
  specifiers k t ht s hs := by
    rcases h.specifiers k t ht s hs with hfresh | hstays | hrekeys
    · exact .inl hfresh
    · exact .inr (.inl (hstays.append more))
    · exact .inr (.inr (hrekeys.append more))

/-- What an entry that is written needs. -/
theorem insert (h : Traced parse resolve entries before m) {k : LockfileToolKey} {t : LockfileTool}
    (hkey : (∃ t ∈ entries, t.key = k) ∨ ∃ x ∈ before, Opens parse resolve entries x k)
    (hspecifiers : ∀ s ∈ t.specifiers, FreshBinds entries k s ∨
      Stays parse resolve entries before k s ∨ Rekeys parse resolve entries before k s) :
    Traced parse resolve entries before (m.insert k t) where
  keys k' t' ht' := by
    rw [IndexMap.get_insert] at ht'
    split at ht'
    · case isTrue hk => rwa [hk]
    · exact h.keys k' t' ht'
  specifiers k' t' ht' s hs := by
    rw [IndexMap.get_insert] at ht'
    split at ht'
    · case isTrue hk =>
      obtain rfl := Option.some.inj ht'
      rw [hk]
      exact hspecifiers s hs
    · exact h.specifiers k' t' ht' s hs

theorem spreadProvenance (h : Traced parse resolve entries before m) (e : LockfileTool) :
    Traced parse resolve entries before (spreadProvenance m e) := by
  rw [Mise.spreadProvenance]
  split
  · exact h
  · constructor
    · intro k t ht
      rw [IndexMap.get_mapWithKey] at ht
      obtain ⟨t', ht', -⟩ := Option.map_eq_some_iff.1 ht
      exact h.keys k t' ht'
    · intro k t ht s hs
      rw [IndexMap.get_mapWithKey] at ht
      obtain ⟨t', ht', rfl⟩ := Option.map_eq_some_iff.1 ht
      refine h.specifiers k t' ht' s ?_
      split at hs
      · exact hs
      · exact hs

/-- An entry with the key of an existing one takes its specifiers. -/
theorem stays_of_get (h : Traced parse resolve entries (before ++ [e]) m) {t : LockfileTool}
    (ht : m.get e.key = some t) {s : String} (hs : s ∈ e.specifiers) :
    Stays parse resolve entries (before ++ [e]) e.key s :=
  ⟨before, e, [], rfl, rfl, hs, h.keys e.key t ht⟩

theorem takeSpecifiers (h : Traced parse resolve entries (before ++ [e]) m) :
    Traced parse resolve entries (before ++ [e]) (takeSpecifiers m e) := by
  rw [Mise.takeSpecifiers]
  split
  · exact h
  · case h_2 entry hentry =>
    refine h.insert (h.keys _ _ hentry) fun s hs => ?_
    rcases ExtTreeSet.mem_union_iff.1 hs with hs | hs
    · exact h.specifiers _ _ hentry s hs
    · exact .inr (.inl (h.stays_of_get hentry hs))

theorem mergeVariant (h : Traced parse resolve entries (before ++ [e]) m)
    (hopts : e.options ≠ ∅) :
    Traced parse resolve entries (before ++ [e]) (mergeVariant (freshByKey entries) m e) := by
  rw [Mise.mergeVariant]
  split
  · case h_1 entry hentry =>
    refine h.insert (h.keys _ _ hentry) fun s hs => ?_
    rcases ExtTreeSet.mem_union_iff.1 hs with hs | hs
    · exact h.specifiers _ _ hentry s hs
    · exact .inr (.inl (h.stays_of_get hentry hs))
  · split
    · case isTrue hversion =>
      simp only
      split
      · exact h
      · case isFalse hkept =>
        have hopens : Opens parse resolve entries e e.key := by
          obtain ⟨p, hp⟩ := exists_kept hkept
          refine ⟨(freshVersion_iff entries e.version).1 hversion, p, hp.1, ?_⟩
          rw [if_neg hopts]
          exact ⟨rfl, hp.2⟩
        have hmem : ∃ x ∈ before ++ [e], Opens parse resolve entries x e.key :=
          ⟨e, List.mem_append_right before List.mem_cons_self, hopens⟩
        exact h.insert (.inr hmem) fun s hs => .inr (.inl ⟨before, e, [], rfl, rfl, hs, .inr hmem⟩)
    · exact h

/-- Moving a platform to the key of its options keeps entries traced. -/
theorem rekeyPlatform (h : Traced parse resolve entries (before ++ [e]) m) (hopts : e.options = ∅)
    (hfresh : ∃ t ∈ entries, t.version = e.version) {p : String} {info : PlatformInfo}
    (hp : e.platforms[p]? = some info) :
    Traced parse resolve entries (before ++ [e]) (rekeyPlatform parse resolve e m p info) := by
  have he : e ∈ before ++ [e] := List.mem_append_right before List.mem_cons_self
  have hsome : e.platforms[p]?.isSome := by rw [hp]; rfl
  have hopens : ∃ x ∈ before ++ [e], Opens parse resolve entries x (legacyKey parse resolve e p) :=
    ⟨e, he, hfresh, p, hsome, by rw [if_pos hopts]⟩
  rw [Mise.rekeyPlatform]
  split
  · case h_1 hnone =>
    have hkey : legacyKey parse resolve e p = e.key := by rw [legacyKey, hnone]; rfl
    rw [hkey] at hopens
    refine h.insert (.inr hopens) fun s hs => ?_
    cases hget : m.get e.key with
    | none =>
      rw [hget] at hs
      exact .inr (.inl ⟨before, e, [], rfl, rfl, hs, .inr hopens⟩)
    | some entry =>
      rw [hget] at hs
      exact h.specifiers _ _ hget s hs
  · case h_2 o ho =>
    have hkey : legacyKey parse resolve e p = (e.version, o) := by rw [legacyKey, ho]; rfl
    rw [hkey] at hopens
    have hrekeys : ∀ s ∈ e.specifiers, Rekeys parse resolve entries (before ++ [e]) (e.version, o) s :=
      fun s hs => ⟨e, he, hopts, hfresh, hs, p, hsome, o, ho, rfl⟩
    refine h.insert (.inr hopens) fun s hs => ?_
    rcases ExtTreeSet.mem_union_iff.1 hs with hs | hs
    · cases hget : m.get (e.version, o) with
      | none =>
        rw [hget] at hs
        exact .inr (.inr (hrekeys s hs))
      | some entry =>
        rw [hget] at hs
        exact h.specifiers _ _ hget s hs
    · exact .inr (.inr (hrekeys s hs))

/-- **One existing entry.** -/
theorem addExisting {state : IndexMap LockfileToolKey LockfileTool × List LockfileToolKey}
    (h : Traced parse resolve entries before state.1) (e : LockfileTool) :
    Traced parse resolve entries (before ++ [e])
      (addExisting parse resolve (freshByKey entries) state e).1 := by
  have hprep : Traced parse resolve entries (before ++ [e]) (prepared state e) :=
    ((h.append [e]).spreadProvenance e).takeSpecifiers
  rw [addExisting_fst]
  split
  · case isTrue hopts =>
    split
    · case isTrue hversion =>
      refine BTreeMap.foldl_induction _ _ hprep fun m p info hp hm => ?_
      exact hm.rekeyPlatform hopts ((freshVersion_iff entries e.version).1 hversion) hp
    · exact hprep
  · case isFalse hopts => exact hprep.mergeVariant hopts

/-- **All existing entries.** -/
theorem run (es : List LockfileTool)
    {state : IndexMap LockfileToolKey LockfileTool × List LockfileToolKey}
    (h : Traced parse resolve entries before state.1) :
    Traced parse resolve entries (before ++ es)
      (es.foldl (Mise.addExisting parse resolve (freshByKey entries)) state).1 := by
  induction es generalizing before state with
  | nil => rwa [List.append_nil]
  | cons e es ih =>
    rw [List.append_cons]
    exact ih (h.addExisting e)

end Traced

/-- The fresh entries are traced to themselves. -/
theorem traced_freshByKey : Traced parse resolve entries [] (freshByKey entries) where
  keys k t ht := by
    refine .inl ((containsKey_freshByKey entries k).1 ?_)
    rw [IndexMap.containsKey, ht]
    rfl
  specifiers k t ht s hs := by
    have hfold : ∀ (ts : List LockfileTool) (m : IndexMap LockfileToolKey LockfileTool),
        (∀ x ∈ ts, x ∈ entries) →
        (∀ k t, m.get k = some t → ∀ s ∈ t.specifiers, FreshBinds entries k s) →
          ∀ k t, (ts.foldl addFresh m).get k = some t → ∀ s ∈ t.specifiers, FreshBinds entries k s := by
      intro ts
      induction ts with
      | nil => exact fun m _ hm => hm
      | cons x ts ih =>
        intro m hts hm
        refine ih _ (fun y hy => hts y (List.mem_cons_of_mem x hy)) fun k t ht s hs => ?_
        rw [addFresh, IndexMap.get_insert] at ht
        split at ht
        · case isTrue hk =>
          obtain rfl := Option.some.inj ht
          have hx : s ∈ x.specifiers → FreshBinds entries k s := fun hs =>
            ⟨x, hts x List.mem_cons_self, hk.symm, hs⟩
          rcases ExtTreeSet.mem_union_iff.1 hs with hs | hs
          · cases hget : m.get x.key with
            | none =>
              rw [hget] at hs
              exact hx hs
            | some entry =>
              rw [hget] at hs
              rw [hk]
              exact hm _ _ hget s hs
          · exact hx hs
        · exact hm k t ht s hs
    refine .inl (hfold entries .empty (fun _ h => h) (fun k t ht => ?_) k t ht s hs)
    exact absurd ht (by simp [IndexMap.get, IndexMap.empty])

/-- **Where the specifiers of a merged entry come from.** -/
theorem source_of_mem_mergeToolEntries {existing : List LockfileTool} {t : LockfileTool}
    (ht : t ∈ (mergeToolEntries parse resolve entries existing).1) {s : String}
    (hs : s ∈ t.specifiers) :
    FreshBinds entries t.key s ∨ Stays parse resolve entries existing t.key s ∨
      Rekeys parse resolve entries existing t.key s := by
  have htraced : Traced parse resolve entries ([] ++ existing)
      (mergeLoops parse resolve entries existing).1 := Traced.run existing traced_freshByKey
  rw [List.nil_append] at htraced
  exact htraced.specifiers t.key t
    ((mem_mergeToolEntries parse resolve entries existing t).1 ht) s hs

end Sources

/-! ### Entries that are kept after the merge -/

/-- **A loop that adds entries with new keys**: keys stay distinct, and what was
added comes from an entry the loop ran over. -/
theorem foldl_push {f : List LockfileTool → LockfileTool → List LockfileTool}
    {Q : LockfileTool → LockfileTool → Prop}
    (hf : ∀ l e, f l e = l ∨ ∃ x, f l e = l ++ [x] ∧ x.key ∉ l.map (·.key) ∧ Q e x)
    (es l : List LockfileTool) (hl : (l.map (·.key)).Nodup) :
    ((es.foldl f l).map (·.key)).Nodup ∧ (∀ a ∈ l, a ∈ es.foldl f l) ∧
      ∀ a ∈ es.foldl f l, a ∈ l ∨ a.key ∉ l.map (·.key) ∧ ∃ e ∈ es, Q e a := by
  induction es generalizing l with
  | nil => exact ⟨hl, fun _ h => h, fun _ h => .inl h⟩
  | cons e es ih =>
    rw [List.foldl_cons]
    rcases hf l e with heq | ⟨x, heq, hnew, hx⟩
    · rw [heq]
      obtain ⟨hnodup, hsub, hall⟩ := ih l hl
      refine ⟨hnodup, hsub, fun a ha => (hall a ha).imp_right ?_⟩
      rintro ⟨hkey, y, hy, hQ⟩
      exact ⟨hkey, y, List.mem_cons_of_mem e hy, hQ⟩
    · rw [heq]
      have hl' : ((l ++ [x]).map (·.key)).Nodup := by
        rw [List.map_append, List.map_singleton, ← List.concat_eq_append]
        exact hl.concat hnew
      obtain ⟨hnodup, hsub, hall⟩ := ih (l ++ [x]) hl'
      refine ⟨hnodup, fun a ha => hsub a (List.mem_append_left [x] ha), fun a ha => ?_⟩
      rcases hall a ha with hmem | ⟨hkey, y, hy, hQ⟩
      · rcases List.mem_append.1 hmem with hmem | hmem
        · exact .inl hmem
        · obtain rfl := List.mem_singleton.1 hmem
          exact .inr ⟨hnew, e, List.mem_cons_self, hx⟩
      · rw [List.map_append, List.mem_append, not_or] at hkey
        exact .inr ⟨hkey.1, y, List.mem_cons_of_mem e hy, hQ⟩

theorem key_notMem_of_any {l : List LockfileTool} {k : LockfileToolKey}
    (h : l.any (·.key = k) = false) : k ∉ l.map (·.key) := by
  intro hmem
  obtain ⟨t, ht, hk⟩ := List.mem_map.1 hmem
  have := List.any_eq_false.1 h t ht
  exact this (decide_eq_true hk)

theorem preserveAbsent_push (consumed : List LockfileToolKey) (l : List LockfileTool)
    (e : LockfileTool) : preserveAbsent consumed l e = l ∨ ∃ x, preserveAbsent consumed l e = l ++ [x] ∧
      x.key ∉ l.map (·.key) ∧ (x = e ∧ e.key ∉ consumed) := by
  rw [preserveAbsent]
  split
  · exact .inl rfl
  · case isFalse h =>
    rw [Bool.or_eq_true, not_or, Bool.not_eq_true] at h
    exact .inr ⟨e, rfl, key_notMem_of_any h.1, rfl, fun hmem => h.2 (List.contains_iff_mem.2 hmem)⟩

theorem preserveSelected_push (unlocked : List SelectedPython) (l : List LockfileTool)
    (e : LockfileTool) : preserveSelected unlocked l e = l ∨ ∃ x,
      preserveSelected unlocked l e = l ++ [x] ∧ x.key ∉ l.map (·.key) ∧
      (x.key = e.key ∧ ∀ s ∈ x.specifiers, s ∈ e.specifiers ∧ (s, e.options) ∈ unlocked) := by
  rw [preserveSelected]
  split
  · case isTrue h =>
    rw [Bool.and_eq_true, Bool.not_eq_true', Bool.not_eq_true'] at h
    refine .inr ⟨_, rfl, key_notMem_of_any h.2, rfl, fun s hs => ?_⟩
    obtain ⟨hmem, hany⟩ := ExtTreeSet.mem_filter.1 hs
    rw [ExtTreeSet.get_eq] at hany
    obtain ⟨request, hrequest, hspecifier⟩ := List.any_eq_true.1 hany
    obtain ⟨hunlocked, hbinds⟩ := List.mem_filter.1 hrequest
    rw [LockfileTool.binds, Bool.and_eq_true, decide_eq_true_eq] at hbinds
    have hrequest' : request = (s, e.options) :=
      Prod.ext (of_decide_eq_true hspecifier) hbinds.1.symm
    exact ⟨hmem, hrequest' ▸ hunlocked⟩
  · exact .inl rfl

theorem reinsertBaseline_push (l : List LockfileTool) (e : LockfileTool) :
    reinsertBaseline l e = l ∨ ∃ x, reinsertBaseline l e = l ++ [x] ∧
      x.key ∉ l.map (·.key) ∧ x = e := by
  rw [reinsertBaseline]
  split
  · exact .inl rfl
  · case isFalse h =>
    refine .inr ⟨e, rfl, fun hmem => h ?_, rfl⟩
    obtain ⟨t, ht, hk⟩ := List.mem_map.1 hmem
    exact List.any_eq_true.2 ⟨t, ht, (LockfileTool.isFor_iff _ _ t).2 hk⟩

/-! ### One update -/

namespace ToolUpdate

variable {π : Type} (parse : String → Option π) (u : ToolUpdate π) (existing : List LockfileTool)

/-- A request that the update binds. -/
def Binds (o : LockOptions) (s : String) : Prop := ∃ t ∈ u.entries, t.Carries o s

/-- An existing entry with the key carries the specifier and is kept: by the merge,
in a monorepo's lockfile, or as a baseline. -/
def Kept (k : LockfileToolKey) (s : String) : Prop :=
  Stays parse u.resolve u.entries existing k s ∨
    (u.isMonorepoRoot = true ∧ ∃ e ∈ existing, e.key = k ∧ s ∈ e.specifiers ∧
      (e.options ≠ ∅ ∨ ∀ t ∈ u.entries, t.version ≠ e.version)) ∨
    ∃ e ∈ u.baselineEntries existing, e.key = k ∧ s ∈ e.specifiers

/-- **No specifier clashes in the update**: one that moves with a legacy entry is
not carried by another version that is kept, unless it is bound anew; and in a
lockfile without request bindings, where nothing is bound anew, a fresh one is
carried by one version. -/
structure Clear (usesRequestBindings : Bool) : Prop where
  moved : ∀ v v' o s, Rekeys parse u.resolve u.entries existing (v, o) s →
    u.Kept parse existing (v', o) s → v = v' ∨ u.Binds o s
  unbound : usesRequestBindings = false → ∀ v v' o s, FreshBinds u.entries (v, o) s →
    FreshBinds u.entries (v', o) s ∨ u.Kept parse existing (v', o) s ∨
      Rekeys parse u.resolve u.entries existing (v', o) s → v = v'

variable {parse u existing}

theorem Kept.exists_mem {k : LockfileToolKey} {s : String} (h : u.Kept parse existing k s) :
    ∃ e ∈ existing, e.key = k ∧ s ∈ e.specifiers := by
  rcases h with hstays | ⟨-, e, he, hkey, hs, -⟩ | ⟨e, he, hkey, hs⟩
  · exact hstays.exists_mem
  · exact ⟨e, he, hkey, hs⟩
  · obtain ⟨i, -, hi⟩ := List.mem_filterMap.1 he
    exact ⟨e, List.mem_of_getElem? hi, hkey, hs⟩

/-- Two versions that carry an existing specifier are one. -/
theorem version_eq_of_existing {o : LockOptions} {s v v' : String}
    (hexisting : BoundOnce existing o s) (h : ∃ e ∈ existing, e.key = (v, o) ∧ s ∈ e.specifiers)
    (h' : ∃ e ∈ existing, e.key = (v', o) ∧ s ∈ e.specifiers) : v = v' := by
  obtain ⟨e, he, hkey, hs⟩ := h
  obtain ⟨e', he', hkey', hs'⟩ := h'
  have heq := hexisting.eq_of_mem he he' ⟨congrArg Prod.snd hkey, hs⟩ ⟨congrArg Prod.snd hkey', hs'⟩
  rw [heq] at hkey
  exact congrArg Prod.fst (hkey.symm.trans hkey')

/-- Where the specifiers come from before selected requests and baselines. -/
def Sourced (u : ToolUpdate π) (parse : String → Option π) (existing : List LockfileTool)
    (k : LockfileToolKey) (s : String) : Prop :=
  FreshBinds u.entries k s ∨ u.Kept parse existing k s ∨
    Rekeys parse u.resolve u.entries existing k s

/-- **Sources of one specifier agree on the version**, unless it is bound anew. -/
theorem Clear.version_eq {uses : Bool} (hclear : u.Clear parse existing uses)
    (hexisting : ∀ o s, BoundOnce existing o s) {o : LockOptions} {s v v' : String}
    (hbind : ¬(uses = true ∧ u.Binds o s)) (h : u.Sourced parse existing (v, o) s)
    (h' : u.Sourced parse existing (v', o) s) : v = v' := by
  have hfresh : ∀ w, FreshBinds u.entries (w, o) s → uses = false := by
    rintro w ⟨t, ht, hkey, hs⟩
    exact Bool.eq_false_iff.2 fun huses => hbind ⟨huses, t, ht, congrArg Prod.snd hkey, hs⟩
  by_cases hany : ∃ w, FreshBinds u.entries (w, o) s
  · -- nothing is bound anew, and a fresh entry decides the version
    obtain ⟨w, hw⟩ := hany
    rw [← hclear.unbound (hfresh w hw) w v o s hw h, hclear.unbound (hfresh w hw) w v' o s hw h']
  · have hno : ¬u.Binds o s := by
      rintro ⟨t, ht, hcarries⟩
      exact hany ⟨t.version, t, ht, Prod.ext rfl hcarries.1, hcarries.2⟩
    rcases h.resolve_left fun hf => hany ⟨v, hf⟩ with hkept | hrekeys
    · rcases h'.resolve_left fun hf => hany ⟨v', hf⟩ with hkept' | hrekeys'
      · exact version_eq_of_existing (hexisting o s) hkept.exists_mem hkept'.exists_mem
      · exact ((hclear.moved v' v o s hrekeys' hkept).resolve_right hno).symm
    · rcases h'.resolve_left fun hf => hany ⟨v', hf⟩ with hkept' | hrekeys'
      · exact (hclear.moved v v' o s hrekeys hkept').resolve_right hno
      · -- both moved from entries without options
        obtain ⟨e, he, hopts, -, hs, p, -, o₁, -, hkey⟩ := hrekeys
        obtain ⟨e', he', hopts', -, hs', p', -, o₂, -, hkey'⟩ := hrekeys'
        obtain ⟨rfl, -⟩ := Prod.mk.inj hkey
        obtain ⟨rfl, -⟩ := Prod.mk.inj hkey'
        rw [(hexisting ∅ s).eq_of_mem he he' ⟨hopts, hs⟩ ⟨hopts', hs'⟩]

theorem nodup_keys_mergeToolEntries (parse : String → Option π)
    (resolve : String → π → Option LockOptions) (entries existing : List LockfileTool) :
    ((mergeToolEntries parse resolve entries existing).1.map (·.key)).Nodup := by
  have hsorted := pairwise_mergeToolEntries parse resolve entries existing
  exact List.pairwise_map.2 (hsorted.imp fun h heq => absurd (congrArg keyRank heq) h.ne)

/-- The entries after the merge and, in a monorepo's lockfile, with absent ones. -/
theorem sourced_withAbsent (u : ToolUpdate π) (parse : String → Option π)
    (existing : List LockfileTool) :
    ((u.withAbsent parse existing).map (·.key)).Nodup ∧
      (∀ t ∈ u.entries, t.key ∈ (u.withAbsent parse existing).map (·.key)) ∧
      ∀ t ∈ u.withAbsent parse existing, ∀ s ∈ t.specifiers, u.Sourced parse existing t.key s := by
  have hnodup := nodup_keys_mergeToolEntries parse u.resolve u.entries existing
  have hkeys := key_mem_mergeToolEntries parse u.resolve u.entries existing
  have hsource : ∀ t ∈ (mergeToolEntries parse u.resolve u.entries existing).1, ∀ s ∈ t.specifiers,
      u.Sourced parse existing t.key s := by
    intro t ht s hs
    rcases source_of_mem_mergeToolEntries ht hs with hfresh | hstays | hrekeys
    · exact .inl hfresh
    · exact .inr (.inl (.inl hstays))
    · exact .inr (.inr hrekeys)
  simp only [withAbsent]
  split
  · case isTrue hroot =>
    obtain ⟨hnodup', hsub, hall⟩ := foldl_push
      (preserveAbsent_push (mergeToolEntries parse u.resolve u.entries existing).2) existing _ hnodup
    have hperm := List.perm_insertionSort (fun a b : LockfileTool => keyRank a.key ≤ keyRank b.key)
      (existing.foldl (preserveAbsent (mergeToolEntries parse u.resolve u.entries existing).2)
        (mergeToolEntries parse u.resolve u.entries existing).1)
    refine ⟨((hperm.map _).nodup_iff).2 hnodup', fun t ht => ?_, fun t ht s hs => ?_⟩
    · obtain ⟨t', ht', hkey⟩ := List.mem_map.1 (hkeys t ht)
      exact List.mem_map.2 ⟨t', mem_sortTools.2 (hsub t' ht'), hkey⟩
    · rcases hall t (mem_sortTools.1 ht) with hmem | ⟨hnew, e, he, rfl, hconsumed⟩
      · exact hsource t hmem s hs
      · refine .inr (.inl (.inr (.inl ⟨hroot, t, he, rfl, hs, ?_⟩)))
        -- a legacy entry of a fresh version that is gone would have been consumed
        by_contra hno
        rw [not_or, not_not, not_forall] at hno
        obtain ⟨hopts, x, hx⟩ := hno
        rw [Classical.not_imp, not_not] at hx
        refine hconsumed (mem_consumed_of_absent parse u.resolve existing he hopts
          ((freshVersion_iff u.entries t.version).2 ⟨x, hx⟩) ?_)
        refine (get_mergeLoops_eq_none_iff parse u.resolve).2 fun y hy hkey => ?_
        exact hnew (List.mem_map.2 ⟨y, hy, hkey⟩)
  · exact ⟨hnodup, hkeys, hsource⟩

/-- **The entries before requests are bound**: a specifier that is not bound anew is
carried once. -/
theorem boundOnce_mergedTools {uses : Bool} (hclear : u.Clear parse existing uses)
    (hexisting : ∀ o s, BoundOnce existing o s) {o : LockOptions} {s : String}
    (hbind : ¬(uses = true ∧ u.Binds o s)) : BoundOnce (u.mergedTools parse existing) o s := by
  obtain ⟨hnodup, -, hsource⟩ := sourced_withAbsent u parse existing
  obtain ⟨hnodup', hsub', hall'⟩ := foldl_push (preserveSelected_push
    (u.selected.filter fun r => !(u.withAbsent parse existing).any (·.binds r))) existing _ hnodup
  obtain ⟨hnodup'', -, hall''⟩ := foldl_push reinsertBaseline_push (u.baselineEntries existing) _ hnodup'
  -- a carrier comes from the merge or a baseline, or was selected since no other carries it
  have hcases : ∀ a ∈ u.mergedTools parse existing, a.Carries o s →
      (u.Sourced parse existing (a.version, o) s ∧ (a ∈ u.withAbsent parse existing ∨
        ∃ e ∈ existing, e.key = (a.version, o) ∧ s ∈ e.specifiers)) ∨
      ((∃ e ∈ existing, e.key = (a.version, o) ∧ s ∈ e.specifiers) ∧
        ∀ b ∈ u.withAbsent parse existing, ¬b.Carries o s) := by
    intro a ha hcarries
    have hkey : a.key = (a.version, o) := Prod.ext rfl hcarries.1
    rcases hall'' a ha with ha' | ⟨-, e, he, rfl⟩
    · rcases hall' a ha' with hmem | ⟨-, e, he, hekey, hspecifiers⟩
      · exact .inl ⟨hkey ▸ hsource a hmem s hcarries.2, .inl hmem⟩
      · obtain ⟨hs, hunlocked⟩ := hspecifiers s hcarries.2
        refine .inr ⟨⟨e, he, hekey.symm.trans hkey, hs⟩, fun b hb hcarries' => ?_⟩
        have hnone := (List.mem_filter.1 hunlocked).2
        rw [Bool.not_eq_true', List.any_eq_false] at hnone
        refine hnone b hb ?_
        have hopts : e.options = o := congrArg Prod.snd (hekey.symm.trans hkey)
        rw [LockfileTool.binds, Bool.and_eq_true, decide_eq_true_eq]
        exact ⟨hcarries'.1.trans hopts.symm, ExtTreeSet.contains_iff_mem.2 hcarries'.2⟩
    · have hkept : u.Kept parse existing (a.version, o) s := .inr (.inr ⟨a, he, hkey, hcarries.2⟩)
      exact .inl ⟨.inr (.inl hkept), .inr hkept.exists_mem⟩
  refine boundOnce_of_version_eq hnodup'' fun a ha b hb hca hcb => ?_
  rcases hcases a ha hca with ⟨hsa, hwa⟩ | ⟨hea, hnoa⟩
  · rcases hcases b hb hcb with ⟨hsb, -⟩ | ⟨heb, hnob⟩
    · exact hclear.version_eq hexisting hbind hsa hsb
    · rcases hwa with hmem | hea
      · exact absurd hca (hnob a hmem)
      · exact version_eq_of_existing (hexisting o s) hea heb
  · rcases hcases b hb hcb with ⟨-, hwb⟩ | ⟨heb, -⟩
    · rcases hwb with hmem | heb
      · exact absurd hcb (hnoa b hmem)
      · exact version_eq_of_existing (hexisting o s) hea heb
    · exact version_eq_of_existing (hexisting o s) hea heb

/-- Every fresh entry is there when requests are bound. -/
theorem key_mem_mergedTools (u : ToolUpdate π) (parse : String → Option π)
    (existing : List LockfileTool) {t : LockfileTool} (ht : t ∈ u.entries) :
    t.key ∈ (u.mergedTools parse existing).map (·.key) := by
  obtain ⟨hnodup, hkeys, -⟩ := sourced_withAbsent u parse existing
  obtain ⟨hnodup', hsub', -⟩ := foldl_push (preserveSelected_push
    (u.selected.filter fun r => !(u.withAbsent parse existing).any (·.binds r))) existing _ hnodup
  obtain ⟨-, hsub'', -⟩ := foldl_push reinsertBaseline_push (u.baselineEntries existing) _ hnodup'
  obtain ⟨e, he, hkey⟩ := List.mem_map.1 (hkeys t ht)
  exact List.mem_map.2 ⟨e, hsub'' e (hsub' e he), hkey⟩

end ToolUpdate

namespace Lockfile

variable {π : Type} (stateShort : String → String) (parse : String → Option π)

/-- An update of a tool keeps its bindings unambiguous. -/
theorem Unambiguous.updateTool {l : Lockfile} (hl : l.Unambiguous) {u : ToolUpdate π}
    (hclear : u.Clear parse (l.entries (stateShort u.short)) l.usesRequestBindings) :
    (l.updateTool stateShort parse u).Unambiguous := by
  have hexisting : (l.toolKey stateShort u.short).elim [] l.entries =
      l.entries (stateShort u.short) := by
    rw [toolKey]
    split
    · rfl
    · case isFalse hkey =>
      rw [entries, ExtTreeMap.getElem?_eq_none hkey]
      rfl
  rw [Lockfile.updateTool, hexisting]
  split
  · case isTrue huses =>
    refine unambiguous_foldl_bindRequest stateShort u.short u.bindings huses fun key o s => ?_
    rw [entries_insert]
    split
    · case isTrue hk =>
      by_cases hbind : u.Binds o s
      · obtain ⟨t, ht, hcarries⟩ := hbind
        refine .inr ⟨hk.symm, t.version, ?_, ?_⟩
        · refine List.mem_flatMap.2 ⟨t, ht, List.mem_map.2 ⟨s, ?_, by rw [hcarries.1]⟩⟩
          exact ExtTreeSet.mem_toList.2 hcarries.2
        · have hmem := u.key_mem_mergedTools parse (l.entries (stateShort u.short)) ht
          rwa [LockfileTool.key, hcarries.1] at hmem
      · refine .inl (ToolUpdate.boundOnce_mergedTools hclear (hl _) ?_)
        exact fun h => hbind h.2
    · exact .inl (hl key o s)
  · case isFalse huses =>
    refine hl.insert fun o s => ToolUpdate.boundOnce_mergedTools hclear (hl _) fun h => ?_
    exact huses h.1

end Lockfile

/-! ### Runs -/

section Runs

variable {π : Type} (stateShort : String → String) (parse : String → Option π)

/-- **An operation that moves no specifier onto another**, on this lockfile. -/
def LockfileOp.Clear (l : Lockfile) : LockfileOp π → Prop
  | .updateTool u => u.Clear parse (l.entries (stateShort u.short)) l.usesRequestBindings
  | .mergePreservingRoot other =>
    other.Unambiguous ∧ Lockfile.MigrationClear stateShort l other
  | _ => True

/-- A run whose operations are clear, each on the lockfile it finds. -/
inductive ClearRun (l : Lockfile) : Lockfile → Prop
  | start : ClearRun l l
  | step {l' : Lockfile} (op : LockfileOp π) : ClearRun l l' → op.Clear stateShort parse l' →
      ClearRun l (op.run stateShort parse l')

/-- One clear operation. -/
theorem Lockfile.Unambiguous.run {l : Lockfile} (hl : l.Unambiguous) {op : LockfileOp π}
    (hclear : op.Clear stateShort parse l) : (op.run stateShort parse l).Unambiguous := by
  cases op with
  | bindRequest short s v o => exact hl.bindRequest stateShort short s v o
  | setPlatformInfo short v backend o key info =>
    exact hl.setPlatformInfo stateShort short v backend o key info
  | switchBackend short fromBackend versions backendFor =>
    exact hl.switchBackend stateShort short fromBackend versions backendFor
  | retainGraphEntries keep => exact hl.retainGraphEntries keep
  | retainUnsupersededUnboundEntries inScope => exact hl.retainUnsupersededUnboundEntries inScope
  | retainToolsByShortOrBackend keepShorts keepBackends =>
    exact hl.retainToolsByShortOrBackend stateShort keepShorts keepBackends
  | retainToolVersions short keep => exact hl.retainToolVersions stateShort short keep
  | updateTool u => exact hl.updateTool stateShort parse hclear
  | mergePreservingRoot other => exact hl.mergePreservingRoot stateShort hclear.1 hclear.2

/-- **Request bindings stay unambiguous** in every run of clear operations, and a
request that was bound is carried by its entry alone. -/
theorem bindings_stay_unambiguous {l l' : Lockfile} (hl : l.Unambiguous)
    (hrun : ClearRun stateShort parse l l') :
    l'.Unambiguous ∧ ∀ short s v o l'', l'.bindRequest stateShort short s v o = (true, l'') →
      Lockfile.OnlyBoundTo (l''.entries (stateShort short)) s v o := by
  refine ⟨?_, fun short s v o l'' h => Lockfile.onlyBoundTo_bindRequest stateShort h⟩
  induction hrun with
  | start => exact hl
  | step op _ hclear ih => exact ih.run stateShort parse hclear

end Runs

/-- A lockfile with one entry of `node` that carries one specifier. -/
def nodeBound (version specifier : String) : Lockfile where
  lockfileVersion := 1
  tools := (∅ : BTreeMap String (List LockfileTool)).insert "node"
    [{ version := version, specifiers := (∅ : BTreeSet String).insert specifier }]

theorem entries_nodeBound (version specifier key : String) :
    (nodeBound version specifier).entries key = if "node" = key then
      [{ version := version, specifiers := (∅ : BTreeSet String).insert specifier }] else [] := by
  simp only [nodeBound, Lockfile.entries, BTreeMap.get_insert, ExtTreeMap.getElem?_empty]
  split <;> rfl

theorem unambiguous_nodeBound (version specifier : String) :
    (nodeBound version specifier).Unambiguous := by
  intro key o s
  rw [entries_nodeBound]
  split
  · exact List.pairwise_singleton _ _
  · exact List.Pairwise.nil

/-- The subproject's `latest` is added beside the root's. -/
theorem migration_makes_ambiguous :
    (nodeBound "20.0.0" "latest").Unambiguous ∧ (nodeBound "22.0.0" "latest").Unambiguous ∧
      ¬((LockfileOp.mergePreservingRoot (nodeBound "22.0.0" "latest")).run id
        (some : String → Option String) (nodeBound "20.0.0" "latest")).Unambiguous := by
  refine ⟨unambiguous_nodeBound _ _, unambiguous_nodeBound _ _, fun h => ?_⟩
  have hnode := h "node" ∅ "latest"
  revert hnode
  decide +kernel

/-- A subproject that binds another request is migrated, and a request is bound. -/
theorem bindings_stay_unambiguous_node :
    let migrated := (LockfileOp.mergePreservingRoot (nodeBound "22.0.0" "22")).run id
      (some : String → Option String) (nodeBound "20.0.0" "latest")
    let bound := (LockfileOp.bindRequest "node" "latest" "22.0.0" ∅).run id
      (some : String → Option String) migrated
    bound.Unambiguous ∧ ∀ short s v o l, bound.bindRequest id short s v o = (true, l) →
      Lockfile.OnlyBoundTo (l.entries short) s v o := by
  refine bindings_stay_unambiguous id some (unambiguous_nodeBound "20.0.0" "latest")
    (.step _ (.step _ .start ⟨unambiguous_nodeBound _ _, ?_, ?_⟩) trivial)
  · intro key t ht s hs i e he hcarries
    obtain ⟨short, tools, htools, rfl, hmem⟩ := (Lockfile.mem_incoming id _ key t).1 ht
    have ht' : t ∈ (nodeBound "22.0.0" "22").entries short := by rwa [Lockfile.entries, htools]
    rw [entries_nodeBound] at ht' he
    split at ht'
    · case isTrue hshort =>
      obtain rfl := List.mem_singleton.1 ht'
      rw [if_pos (show "node" = id short from hshort)] at he
      obtain rfl := List.mem_singleton.1 (List.mem_of_getElem? he)
      have h22 : "22" = s := by simpa using hs
      have hlatest : "latest" = s := by simpa using hcarries.2
      rw [← h22] at hlatest
      exact absurd hlatest (by decide)
    · exact absurd ht' List.not_mem_nil
  · intro short short' hne heq
    exact absurd heq hne

end Mise
