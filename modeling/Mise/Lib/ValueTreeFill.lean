/-
# What a table lacks, and filling it in

`absentEntries` is the part of one table that another has no value for: a value
that is there counts whatever it is, and a table that both have is compared key by
key.  Laid over the other table, that part changes none of its values
(`get_fillEntries`) and completes it (`get_fillEntries_of_get`): only a value that
is not a table can keep a path out.
-/

import Mise.Lib.ValueTree

namespace Mise.Lib

namespace ValueTree

variable {α : Type}

/-- The value is a table. -/
def IsTable (v : ValueTree α) : Prop := ∃ entries, v = table entries

theorem not_isTable_leaf (a : α) : ¬(leaf a).IsTable := fun ⟨_, h⟩ => nomatch h

theorem not_isTable_array (items : List (ValueTree α)) : ¬(array items).IsTable :=
  fun ⟨_, h⟩ => nomatch h

/-- Some value above the path is not a table. -/
def Blocks (v : ValueTree α) (p : List String) : Prop :=
  ∃ q r w, p = q ++ r ∧ r ≠ [] ∧ v.get q = some w ∧ ¬w.IsTable

theorem blocks_of_not_isTable {v : ValueTree α} (hv : ¬v.IsTable) {p : List String}
    (hp : p ≠ []) : v.Blocks p :=
  ⟨[], p, v, rfl, hp, by rw [get], hv⟩

/-- A path that is blocked in a value of the table is blocked in the table. -/
theorem Blocks.table {t : Entries α} {k : String} {v : ValueTree α} (hk : t.lookup k = some v)
    {p : List String} (h : v.Blocks p) : (ValueTree.table t).Blocks (k :: p) := by
  obtain ⟨q, r, w, rfl, hr, hget, hw⟩ := h
  refine ⟨k :: q, r, w, rfl, hr, ?_, hw⟩
  rw [get, hk, Option.bind_some, hget]

/-! ### What a table lacks -/

mutual

/-- What of the first table the second has no value for. -/
def absentEntries : Entries α → Entries α → Entries α
  | [], _ => []
  | (k, v) :: s, t =>
    match absentValue v (t.lookup k) with
    | some w => (k, w) :: absentEntries s t
    | none => absentEntries s t

/-- What of a value there is no value for: a table lacks the keys of another, and
any other value is there or is not. -/
def absentValue : ValueTree α → Option (ValueTree α) → Option (ValueTree α)
  | v, none => some v
  | table s, some (table t) =>
    let inner := absentEntries s t
    if inner.isEmpty then none else some (table inner)
  | _, some _ => none

end

theorem absentValue_none (v : ValueTree α) : absentValue v none = some v := by
  cases v <;> rfl

theorem absentValue_table (s t : Entries α) : absentValue (table s) (some (table t)) =
    if (absentEntries s t).isEmpty then none else some (table (absentEntries s t)) := rfl

theorem absentValue_of_not_isTable {w : ValueTree α} (hw : ¬w.IsTable) (v : ValueTree α) :
    absentValue v (some w) = none := by
  cases w with
  | leaf a => cases v <;> rfl
  | array items => cases v <;> rfl
  | table t => exact absurd ⟨t, rfl⟩ hw

theorem absentValue_of_not_isTable_left {v : ValueTree α} (hv : ¬v.IsTable) (w : ValueTree α) :
    absentValue v (some w) = none := by
  cases v with
  | leaf a => cases w <;> rfl
  | array items => cases w <;> rfl
  | table s => exact absurd ⟨s, rfl⟩ hv

/-- **What is absent, key by key.** -/
theorem lookup_absentEntries {s : Entries α} (hs : (s.map Prod.fst).Nodup) (t : Entries α)
    (k : String) : (absentEntries s t).lookup k =
      (s.lookup k).bind fun v => absentValue v (t.lookup k) := by
  induction s with
  | nil => rfl
  | cons e s ih =>
    obtain ⟨k', v⟩ := e
    rw [List.map_cons, List.nodup_cons] at hs
    have hrest : k = k' → s.lookup k = none := by
      rintro rfl
      refine List.lookup_eq_none_iff.2 fun x hx => bne_iff_ne.2 ?_
      rintro rfl
      exact hs.1 (List.mem_map.2 ⟨x, hx, rfl⟩)
    rw [absentEntries, IndexMap.lookup_cons_ite]
    by_cases hk : k = k'
    · rw [if_pos hk, Option.bind_some, ← hk]
      cases absentValue v (t.lookup k) with
      | some w => exact (IndexMap.lookup_cons_ite k k w _).trans (if_pos rfl)
      | none => exact (ih hs.2).trans (by rw [hrest hk]; rfl)
    · rw [if_neg hk, ← ih hs.2]
      cases absentValue v (t.lookup k') with
      | some w => exact (IndexMap.lookup_cons_ite k k' w _).trans (if_neg hk)
      | none => rfl

theorem absentEntries_eq_nil_iff {s t : Entries α} :
    absentEntries s t = [] ↔ ∀ e ∈ s, absentValue e.2 (t.lookup e.1) = none := by
  induction s with
  | nil => simp [absentEntries]
  | cons e s ih =>
    rw [absentEntries, List.forall_mem_cons]
    cases absentValue e.2 (t.lookup e.1) with
    | some w => simp
    | none => simpa using ih

theorem sublist_keys_absentEntries (s t : Entries α) :
    ((absentEntries s t).map Prod.fst).Sublist (s.map Prod.fst) := by
  induction s with
  | nil => exact .refl _
  | cons e s ih =>
    rw [absentEntries]
    cases absentValue e.2 (t.lookup e.1) with
    | some w => exact ih.cons_cons _
    | none => exact ih.cons _

/-- A value lacks nothing of itself. -/
theorem absentValue_self {v : ValueTree α} (hv : v.WF) : absentValue v (some v) = none := by
  induction hv with
  | leaf a => rfl
  | array _ _ => rfl
  | @table entries hnodup _ ih =>
    have hnil : absentEntries entries entries = [] := by
      refine absentEntries_eq_nil_iff.2 fun e he => ?_
      rw [(IndexMap.lookup_eq_some_iff_mem hnodup).2 (show (e.1, e.2) ∈ entries from he)]
      exact ih e he
    rw [absentValue_table, hnil]
    rfl

/-- **What is absent is well-formed.** -/
theorem wf_absentValue {v : ValueTree α} (hv : v.WF) : ∀ {old : Option (ValueTree α)}
    {w : ValueTree α}, absentValue v old = some w → w.WF := by
  induction hv with
  | leaf a =>
    intro old w h
    cases old with
    | none => exact Option.some.inj h ▸ .leaf a
    | some o => exact nomatch (absentValue_of_not_isTable_left (not_isTable_leaf a) o).symm.trans h
  | @array items hall _ =>
    intro old w h
    cases old with
    | none => exact Option.some.inj h ▸ .array hall
    | some o =>
      exact nomatch (absentValue_of_not_isTable_left (not_isTable_array items) o).symm.trans h
  | @table entries hnodup hall ih =>
    intro old w h
    cases old with
    | none => exact Option.some.inj h ▸ .table hnodup hall
    | some o =>
      by_cases ho : o.IsTable
      · obtain ⟨t, rfl⟩ := ho
        rw [absentValue_table] at h
        split at h
        · exact nomatch h
        · obtain rfl := Option.some.inj h
          have hkeys := hnodup.sublist (sublist_keys_absentEntries entries t)
          refine .table hkeys fun e he => ?_
          have hlookup := (IndexMap.lookup_eq_some_iff_mem hkeys).2 (show (e.1, e.2) ∈ _ from he)
          rw [lookup_absentEntries hnodup] at hlookup
          obtain ⟨v, hv, habsent⟩ := Option.bind_eq_some_iff.1 hlookup
          exact ih (e.1, v) ((IndexMap.lookup_eq_some_iff_mem hnodup).1 hv) habsent
      · exact nomatch (absentValue_of_not_isTable ho _).symm.trans h

theorem wf_absentEntries {s : Entries α} (hs : (table s).WF) (t : Entries α) :
    (table (absentEntries s t)).WF := by
  by_cases hnil : (absentEntries s t).isEmpty
  · rw [List.isEmpty_iff.1 hnil]
    exact .table List.nodup_nil (by simp)
  · exact wf_absentValue hs ((absentValue_table s t).trans (if_neg hnil))

/-- A table contains nothing that it lacks. -/
theorem subset_absentValue {eq : α → α → Bool} {v : ValueTree α} (hv : v.WF) :
    ∀ {w u : ValueTree α}, absentValue v (some w) = some u → subset eq u w = false := by
  induction hv with
  | leaf a =>
    exact fun h => nomatch (absentValue_of_not_isTable_left (not_isTable_leaf a) _).symm.trans h
  | @array items _ _ =>
    exact fun h => nomatch (absentValue_of_not_isTable_left (not_isTable_array items) _).symm.trans h
  | @table s hnodup _ ih =>
    intro w u h
    by_cases hw : w.IsTable
    · obtain ⟨t, rfl⟩ := hw
      rw [absentValue_table] at h
      split at h
      · exact nomatch h
      · case isFalse hne =>
        obtain rfl := Option.some.inj h
        obtain ⟨e, he⟩ := List.exists_mem_of_ne_nil _ (mt List.isEmpty_iff.2 hne)
        have hkeys := hnodup.sublist (sublist_keys_absentEntries s t)
        have hlookup := (IndexMap.lookup_eq_some_iff_mem hkeys).2 (show (e.1, e.2) ∈ _ from he)
        rw [lookup_absentEntries hnodup] at hlookup
        obtain ⟨v, hv, habsent⟩ := Option.bind_eq_some_iff.1 hlookup
        rw [subset, Bool.eq_false_iff]
        intro hsubset
        obtain ⟨x, hx, hsub⟩ := subsetEntries_iff.1 hsubset e he
        rw [hx] at habsent
        have hfalse := ih (e.1, v) ((IndexMap.lookup_eq_some_iff_mem hnodup).1 hv) habsent
        exact Bool.false_ne_true (hfalse.symm.trans hsub)
    · exact nomatch (absentValue_of_not_isTable hw _).symm.trans h

theorem subsetEntries_absentEntries {eq : α → α → Bool} {s t : Entries α} (hs : (table s).WF)
    (h : absentEntries s t ≠ []) : subsetEntries eq (absentEntries s t) t = false := by
  have hsome := (absentValue_table s t).trans (if_neg (mt List.isEmpty_iff.1 h))
  have hfalse : subset eq (table (absentEntries s t)) (table t) = false :=
    subset_absentValue hs hsome
  rwa [subset] at hfalse

/-! ### Filling it in -/

section Fill

variable (pick : Option (ValueTree α) → ValueTree α → ValueTree α)

/-- Lay what a table lacks over it. -/
def fillEntries (t s : Entries α) : Entries α := overlay pick t (absentEntries s t)

/-- What a value becomes: a table is filled in, and any other value stays. -/
def fillValue : Option (ValueTree α) → Option (ValueTree α) → Option (ValueTree α)
  | none, v => v
  | some (table t), some (table s) => some (table (fillEntries pick t s))
  | some v, _ => some v

variable {pick}

theorem fillValue_of_not_isTable {w : ValueTree α} (hw : ¬w.IsTable) (v : Option (ValueTree α)) :
    fillValue pick (some w) v = some w := by
  cases w with
  | leaf a => cases v <;> rfl
  | array items => cases v <;> rfl
  | table t => exact absurd ⟨t, rfl⟩ hw

theorem fillValue_of_not_isTable_right {w : ValueTree α} (hw : ¬w.IsTable) (v : ValueTree α) :
    fillValue pick (some v) (some w) = some v := by
  cases w with
  | leaf a => cases v <;> rfl
  | array items => cases v <;> rfl
  | table t => exact absurd ⟨t, rfl⟩ hw

variable {eq : α → α → Bool} (hpick : Fair eq pick)
include hpick

/-- **The values of a table that was filled in.** -/
theorem lookup_fillEntries {s : Entries α} (hs : (s.map Prod.fst).Nodup) (t : Entries α)
    (k : String) :
    (fillEntries pick t s).lookup k = fillValue pick (t.lookup k) (s.lookup k) := by
  have hkeys := hs.sublist (sublist_keys_absentEntries s t)
  rw [fillEntries, lookup_overlay hkeys, lookup_absentEntries hs]
  cases hsk : s.lookup k with
  | none =>
    cases htk : t.lookup k with
    | none => rfl
    | some w => cases w <;> rfl
  | some v =>
    rw [Option.bind_some]
    cases htk : t.lookup k with
    | none =>
      rw [absentValue_none, Option.elim_some]
      rcases overlayValue_cases none v with ⟨_, _, h, -⟩ | ⟨-, h⟩
      · exact nomatch h
      · rw [h]
        rcases hpick none v with h | ⟨h, -⟩
        · exact congrArg some h
        · exact nomatch h
    | some w =>
      by_cases hw : w.IsTable
      · by_cases hv : v.IsTable
        · obtain ⟨t', rfl⟩ := hw
          obtain ⟨s', rfl⟩ := hv
          rw [absentValue_table]
          split
          · case isTrue hnil =>
            rw [Option.elim_none, fillValue, fillEntries, List.isEmpty_iff.1 hnil, overlay]
          · rw [Option.elim_some, overlayValue, fillValue, fillEntries]
        · rw [absentValue_of_not_isTable_left hv, fillValue_of_not_isTable_right hv]
          rfl
      · rw [absentValue_of_not_isTable hw, fillValue_of_not_isTable hw]
        rfl

/-- **Filling in changes no value**: only tables get more keys. -/
theorem get_fillEntries {p : List String} {s t : Entries α} (hs : (table s).WF) {v : ValueTree α}
    (h : (table t).get p = some v) : ∃ w, (table (fillEntries pick t s)).get p = some w ∧
      (w = v ∨ v.IsTable ∧ w.IsTable) := by
  induction p generalizing s t with
  | nil =>
    rw [get] at h
    obtain rfl := Option.some.inj h
    exact ⟨_, by rw [get], .inr ⟨⟨t, rfl⟩, ⟨_, rfl⟩⟩⟩
  | cons k p ih =>
    rw [get] at h ⊢
    obtain ⟨u, hu, hget⟩ := Option.bind_eq_some_iff.1 h
    rw [lookup_fillEntries hpick hs.nodup, hu]
    by_cases htable : u.IsTable
    · obtain ⟨t', rfl⟩ := htable
      cases hsk : s.lookup k with
      | none => exact ⟨v, hget, .inl rfl⟩
      | some c =>
        by_cases hc : c.IsTable
        · obtain ⟨s', rfl⟩ := hc
          exact ih (hs.of_lookup hsk) hget
        · rw [fillValue_of_not_isTable_right hc]
          exact ⟨v, hget, .inl rfl⟩
    · rw [fillValue_of_not_isTable htable]
      exact ⟨v, hget, .inl rfl⟩

/-- **Filling in completes a table**, as far as its own values let a path through. -/
theorem get_fillEntries_of_get {p : List String} {s t : Entries α} (hs : (table s).WF)
    {v : ValueTree α} (h : (table s).get p = some v) (hblocks : ¬(table t).Blocks p) :
    ∃ w, (table (fillEntries pick t s)).get p = some w ∧ ((table t).get p = none → w = v) := by
  induction p generalizing s t with
  | nil =>
    refine ⟨_, by rw [get], fun hnone => ?_⟩
    rw [get] at hnone
    cases hnone
  | cons k p ih =>
    rw [get] at h ⊢
    obtain ⟨u, hu, hget⟩ := Option.bind_eq_some_iff.1 h
    rw [lookup_fillEntries hpick hs.nodup, hu, get]
    cases htk : t.lookup k with
    | none => exact ⟨v, hget, fun _ => rfl⟩
    | some c =>
      have hbelow : ¬c.Blocks p := fun hc => hblocks (hc.table htk)
      rw [Option.bind_some]
      cases p with
      | nil =>
        have hsome : ∃ w, fillValue pick (some c) (some u) = some w := by
          unfold fillValue
          split <;> exact ⟨_, rfl⟩
        obtain ⟨w, hw⟩ := hsome
        rw [hw]
        refine ⟨w, by rw [Option.bind_some, get], fun hnone => ?_⟩
        rw [get] at hnone
        cases hnone
      | cons k' p =>
        -- only a table lets a path through, on either side
        by_cases hc : c.IsTable
        · obtain ⟨t', rfl⟩ := hc
          cases u with
          | leaf a => cases hget
          | array items => cases hget
          | table s' => exact ih (hs.of_lookup hu) hget hbelow
        · exact absurd (blocks_of_not_isTable hc (List.cons_ne_nil _ _)) hbelow

/-- **A table that was filled in lacks nothing.** -/
theorem absentValue_fillValue {v : ValueTree α} (hv : v.WF) (old : Option (ValueTree α)) :
    absentValue v (fillValue pick old (some v)) = none := by
  induction hv generalizing old with
  | leaf a =>
    cases old with
    | none => rfl
    | some o =>
      rw [fillValue_of_not_isTable_right (not_isTable_leaf a)]
      exact absentValue_of_not_isTable_left (not_isTable_leaf a) o
  | @array items _ _ =>
    cases old with
    | none => rfl
    | some o =>
      rw [fillValue_of_not_isTable_right (not_isTable_array items)]
      exact absentValue_of_not_isTable_left (not_isTable_array items) o
  | @table entries hnodup hall ih =>
    cases old with
    | none => exact absentValue_self (.table hnodup hall)
    | some o =>
      by_cases ho : o.IsTable
      · obtain ⟨t, rfl⟩ := ho
        have hnil : absentEntries entries (fillEntries pick t entries) = [] := by
          refine absentEntries_eq_nil_iff.2 fun e he => ?_
          rw [lookup_fillEntries hpick hnodup, (IndexMap.lookup_eq_some_iff_mem hnodup).2
            (show (e.1, e.2) ∈ entries from he)]
          exact ih e he (t.lookup e.1)
        rw [fillValue, absentValue_table, hnil]
        rfl
      · rw [fillValue_of_not_isTable ho]
        exact absentValue_of_not_isTable ho _

theorem absentEntries_fillEntries {s : Entries α} (hs : (table s).WF) (t : Entries α) :
    absentEntries s (fillEntries pick t s) = [] := by
  refine absentEntries_eq_nil_iff.2 fun e he => ?_
  have hlookup := (IndexMap.lookup_eq_some_iff_mem hs.nodup).2 (show (e.1, e.2) ∈ s from he)
  rw [lookup_fillEntries hpick hs.nodup, hlookup]
  exact absentValue_fillValue hpick (hs.of_lookup hlookup) _

end Fill

end ValueTree

end Mise.Lib
