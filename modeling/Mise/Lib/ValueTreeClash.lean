/-
# Two trees that one file can hold

Two trees clash at a path where both have a value, the values are not both tables
and they are not equal.  No tree contains two that clash (`not_clashes_of_subset`),
and one laid over a tree that contains the other leaves that contained when they do
not (`subset_overlay_of_not_clashes`).

Two trees that contain a third agree wherever that sets a value
(`agree_of_subset`): equal values, or tables on both sides.
-/

import Mise.Lib.ValueTreeFill

namespace Mise.Lib

namespace ValueTree

variable {α : Type}

/-- A path is set where there is a value, or one above it that is not a table. -/
theorem sets_iff {v : ValueTree α} {p : List String} :
    v.Sets p ↔ (∃ w, v.get p = some w) ∨ v.Blocks p := by
  induction p generalizing v with
  | nil =>
    refine iff_of_true ?_ (.inl ⟨v, by rw [get]⟩)
    cases v <;> trivial
  | cons k p ih =>
    by_cases hv : v.IsTable
    · obtain ⟨s, rfl⟩ := hv
      rw [Sets, get]
      constructor
      · rintro ⟨w, hw, hsets⟩
        rcases ih.1 hsets with ⟨u, hu⟩ | hblocks
        · exact .inl ⟨u, by rw [hw, Option.bind_some, hu]⟩
        · exact .inr (hblocks.table hw)
      · rintro (⟨u, hu⟩ | ⟨q, r, w, hp, hr, hget, hw⟩)
        · obtain ⟨w, hw, hget⟩ := Option.bind_eq_some_iff.1 hu
          exact ⟨w, hw, ih.2 (.inl ⟨u, hget⟩)⟩
        · cases q with
          | nil =>
            rw [get] at hget
            exact absurd ⟨s, (Option.some.inj hget).symm⟩ hw
          | cons k' q =>
            obtain ⟨rfl, rfl⟩ := List.cons.inj hp
            rw [get] at hget
            obtain ⟨u, hu, hget⟩ := Option.bind_eq_some_iff.1 hget
            exact ⟨u, hu, ih.2 (.inr ⟨q, r, w, rfl, hr, hget, hw⟩)⟩
    · refine iff_of_true ?_ (.inr (blocks_of_not_isTable hv (List.cons_ne_nil k p)))
      cases v with
      | leaf a => trivial
      | array items => trivial
      | table s => exact absurd ⟨s, rfl⟩ hv

/-- Below a value that is not a table there is none. -/
theorem get_append_of_not_isTable {v w : ValueTree α} {q r : List String} (hget : v.get q = some w)
    (hw : ¬w.IsTable) (hr : r ≠ []) : v.get (q ++ r) = none := by
  induction q generalizing v with
  | nil =>
    rw [get] at hget
    obtain rfl := Option.some.inj hget
    obtain ⟨k, p, rfl⟩ := List.exists_cons_of_ne_nil hr
    cases v with
    | leaf a => rfl
    | array items => rfl
    | table s => exact absurd ⟨s, rfl⟩ hw
  | cons k q ih =>
    cases v with
    | leaf a => rfl
    | array items => rfl
    | table s =>
      rw [get] at hget
      obtain ⟨u, hu, hget⟩ := Option.bind_eq_some_iff.1 hget
      rw [List.cons_append, get, hu, Option.bind_some, ih hget]

variable {eq : α → α → Bool}

theorem subset_eq_same {v : ValueTree α} (hv : ¬v.IsTable) (w : ValueTree α) :
    subset eq v w = same eq v w := by
  cases v with
  | leaf a => exact subset_leaf a w
  | array items => exact subset_array items w
  | table s => exact absurd ⟨s, rfl⟩ hv

theorem isTable_of_same {v w : ValueTree α} (h : same eq v w = true) :
    v.IsTable ↔ w.IsTable := by
  cases v <;> cases w <;> simp_all [same, IsTable]

theorem IsTable.of_subset {v w : ValueTree α} (hv : v.IsTable) (h : subset eq v w = true) :
    w.IsTable := by
  obtain ⟨s, rfl⟩ := hv
  cases w with
  | leaf a => exact absurd h (by simp [subset, same])
  | array items => exact absurd h (by simp [subset, same])
  | table t => exact ⟨t, rfl⟩

theorem not_isTable_of_subset {v w : ValueTree α} (hv : ¬v.IsTable) (h : subset eq v w = true) :
    ¬w.IsTable := by
  rw [subset_eq_same hv] at h
  rwa [← isTable_of_same h]

/-- **What is contained is found**, path by path. -/
theorem get_of_subset {v w u : ValueTree α} {p : List String} (hv : v.WF)
    (h : subset eq v w = true) (hget : v.get p = some u) :
    ∃ x, w.get p = some x ∧ subset eq u x = true := by
  induction p generalizing v w with
  | nil =>
    rw [get] at hget
    obtain rfl := Option.some.inj hget
    exact ⟨w, by rw [get], h⟩
  | cons k p ih =>
    cases v with
    | leaf a => cases hget
    | array items => cases hget
    | table s =>
      obtain ⟨t, rfl⟩ := IsTable.of_subset ⟨s, rfl⟩ h
      rw [get] at hget
      obtain ⟨c, hc, hget⟩ := Option.bind_eq_some_iff.1 hget
      rw [subset, subsetEntries_iff] at h
      obtain ⟨x, hx, hsub⟩ := h (k, c) ((IndexMap.lookup_eq_some_iff_mem hv.nodup).1 hc)
      obtain ⟨y, hy, hsub'⟩ := ih (hv.of_lookup hc) hsub hget
      exact ⟨y, by rw [get, hx, Option.bind_some, hy], hsub'⟩

theorem WF.of_get {v w : ValueTree α} (hv : v.WF) {p : List String} (h : v.get p = some w) :
    w.WF := by
  induction p generalizing v with
  | nil =>
    rw [get] at h
    exact Option.some.inj h ▸ hv
  | cons k p ih =>
    cases v with
    | leaf a => cases h
    | array items => cases h
    | table s =>
      rw [get] at h
      obtain ⟨c, hc, hget⟩ := Option.bind_eq_some_iff.1 h
      exact ih (hv.of_lookup hc) hget

/-! ### Clashes -/

/-- Both trees have a value at the path, not two tables and not equal ones. -/
def Clashes (eq : α → α → Bool) (v w : ValueTree α) (p : List String) : Prop :=
  ∃ x y, v.get p = some x ∧ w.get p = some y ∧ ¬(x.IsTable ∧ y.IsTable) ∧ same eq x y = false

theorem clashes_cons_iff {s t : Entries α} {k : String} {p : List String} :
    Clashes eq (table s) (table t) (k :: p) ↔
      ∃ v w, s.lookup k = some v ∧ t.lookup k = some w ∧ Clashes eq v w p := by
  constructor
  · rintro ⟨x, y, hx, hy, h⟩
    rw [get] at hx hy
    obtain ⟨v, hv, hx⟩ := Option.bind_eq_some_iff.1 hx
    obtain ⟨w, hw, hy⟩ := Option.bind_eq_some_iff.1 hy
    exact ⟨v, w, hv, hw, x, y, hx, hy, h⟩
  · rintro ⟨v, w, hv, hw, x, y, hx, hy, h⟩
    exact ⟨x, y, by rw [get, hv, Option.bind_some, hx], by rw [get, hw, Option.bind_some, hy], h⟩

/-- Two values that are not both tables clash right where they are or not at all. -/
theorem clashes_of_not_isTable {v w : ValueTree α} (h : ¬(v.IsTable ∧ w.IsTable))
    {p : List String} : Clashes eq v w p ↔ p = [] ∧ same eq v w = false := by
  constructor
  · rintro ⟨x, y, hx, hy, -, hsame⟩
    cases p with
    | nil =>
      rw [get] at hx hy
      obtain rfl := Option.some.inj hx
      obtain rfl := Option.some.inj hy
      exact ⟨rfl, hsame⟩
    | cons k p =>
      refine absurd ⟨?_, ?_⟩ h
      · cases v with
        | leaf a => cases hx
        | array items => cases hx
        | table s => exact ⟨s, rfl⟩
      · cases w with
        | leaf a => cases hy
        | array items => cases hy
        | table t => exact ⟨t, rfl⟩
  · rintro ⟨rfl, hsame⟩
    exact ⟨v, w, by rw [get], by rw [get], h, hsame⟩

/-- Two tables do not clash where they are. -/
theorem not_clashes_nil (s t : Entries α) : ¬Clashes eq (table s) (table t) [] := by
  rintro ⟨x, y, hx, hy, hnot, -⟩
  rw [get] at hx hy
  exact hnot ⟨⟨s, (Option.some.inj hx).symm⟩, ⟨t, (Option.some.inj hy).symm⟩⟩

section Laws

variable (hsymm : ∀ a b, eq a b = true → eq b a = true)
include hsymm

/-- **Clashes have no direction.** -/
theorem clashes_symm {v w : ValueTree α} (hv : v.WF) (hw : w.WF) {p : List String}
    (h : Clashes eq v w p) : Clashes eq w v p := by
  obtain ⟨x, y, hx, hy, hnot, hsame⟩ := h
  refine ⟨y, x, hy, hx, fun hboth => hnot hboth.symm, ?_⟩
  rw [Bool.eq_false_iff] at hsame ⊢
  exact fun hyx => hsame (same_symm hsymm (hw.of_get hy) (hv.of_get hx) hyx)

variable (htrans : ∀ a b c, eq a b = true → eq b c = true → eq a c = true)
include htrans

/-- **No tree contains two that clash.** -/
theorem not_clashes_of_subset {v w u : ValueTree α} (hv : v.WF) (hw : w.WF) (hu : u.WF)
    (hvu : subset eq v u = true) (hwu : subset eq w u = true) (p : List String) :
    ¬Clashes eq v w p := by
  rintro ⟨x, y, hx, hy, hnot, hsame⟩
  obtain ⟨z, hz, hxz⟩ := get_of_subset hv hvu hx
  obtain ⟨z', hz', hyz⟩ := get_of_subset hw hwu hy
  obtain rfl : z = z' := Option.some.inj (hz.symm.trans hz')
  by_cases htable : z.IsTable
  · refine hnot ⟨?_, ?_⟩
    · exact not_not.1 fun hxt => not_isTable_of_subset hxt hxz htable
    · exact not_not.1 fun hyt => not_isTable_of_subset hyt hyz htable
  · have hxt : ¬x.IsTable := fun hxt => htable (hxt.of_subset hxz)
    have hyt : ¬y.IsTable := fun hyt => htable (hyt.of_subset hyz)
    rw [subset_eq_same hxt] at hxz
    rw [subset_eq_same hyt] at hyz
    have hzy := same_symm hsymm (hw.of_get hy) (hu.of_get hz) hyz
    have hxy := same_trans htrans (hv.of_get hx) (hu.of_get hz) hxz hzy
    exact Bool.false_ne_true (hsame.symm.trans hxy)

end Laws

/-! ### Laying one source over another -/

section Overlay

variable {pick : Option (ValueTree α) → ValueTree α → ValueTree α} (hpick : Fair eq pick)
include hpick

/-- Laying an equal value over another leaves what is contained. -/
theorem subset_overlayValue_of_same {v w old : ValueTree α} (hv : v.WF)
    (hnot : ¬(v.IsTable ∧ w.IsTable)) (hold : subset eq v old = true) (hsame : same eq v w = true) :
    subset eq v (overlayValue pick (some old) w) = true := by
  have hpicked : overlayValue pick (some old) w = pick (some old) w := by
    rcases overlayValue_cases (some old) w with ⟨t, s, -, rfl, -⟩ | ⟨-, h⟩
    · exact absurd ⟨(isTable_of_same hsame).2 ⟨s, rfl⟩, ⟨s, rfl⟩⟩ hnot
    · exact h
  rw [hpicked]
  rcases hpick (some old) w with h | ⟨h, -⟩
  · rw [h]
    exact subset_of_same hv hsame
  · rwa [← Option.some.inj h]

/-- What is contained in a value stays contained when a value is laid over that one with
which it does not clash. -/
theorem subset_overlayValue_of_not_clashes {v : ValueTree α} (hv : v.WF) :
    ∀ {w old : ValueTree α}, w.WF → subset eq v old = true → (∀ p, ¬Clashes eq v w p) →
      subset eq v (overlayValue pick (some old) w) = true := by
  -- two values that are not both tables are equal
  have hequal : ∀ {v w : ValueTree α}, ¬(v.IsTable ∧ w.IsTable) → (∀ p, ¬Clashes eq v w p) →
      same eq v w = true := fun hnot hclash =>
    not_not.1 fun hne => hclash [] ((clashes_of_not_isTable hnot).2 ⟨rfl, by simpa using hne⟩)
  induction hv with
  | leaf a =>
    intro w old _ hold hclash
    have hnot : ¬((leaf a).IsTable ∧ w.IsTable) := fun h => not_isTable_leaf a h.1
    exact subset_overlayValue_of_same hpick (.leaf a) hnot hold (hequal hnot hclash)
  | @array items hall _ =>
    intro w old _ hold hclash
    have hnot : ¬((array items).IsTable ∧ w.IsTable) := fun h => not_isTable_array items h.1
    exact subset_overlayValue_of_same hpick (.array hall) hnot hold (hequal hnot hclash)
  | @table s hnodup hall ih =>
    intro w old hw hold hclash
    by_cases htable : w.IsTable
    · obtain ⟨u, rfl⟩ := htable
      obtain ⟨t, rfl⟩ := IsTable.of_subset ⟨s, rfl⟩ hold
      rw [overlayValue, subset, subsetEntries_iff]
      rw [subset, subsetEntries_iff] at hold
      intro e he
      obtain ⟨x, hx, hsub⟩ := hold e he
      rw [lookup_overlay hw.nodup, hx]
      cases hu : u.lookup e.1 with
      | none => exact ⟨x, rfl, hsub⟩
      | some y =>
        refine ⟨_, rfl, ih e he (hw.of_lookup hu) hsub fun p hp => hclash (e.1 :: p) ?_⟩
        have hs := (IndexMap.lookup_eq_some_iff_mem hnodup).2 (show (e.1, e.2) ∈ s from he)
        exact clashes_cons_iff.2 ⟨e.2, y, hs, hu, hp⟩
    · have hnot : ¬((table s).IsTable ∧ w.IsTable) := fun h => htable h.2
      have hs : (table s).WF := .table hnodup hall
      exact subset_overlayValue_of_same hpick hs hnot hold (hequal hnot hclash)

theorem subset_overlay_of_not_clashes {s u t : Entries α} (hs : (table s).WF) (hu : (table u).WF)
    (hold : subset eq (table s) (table t) = true)
    (hclash : ∀ p, ¬Clashes eq (table s) (table u) p) :
    subset eq (table s) (table (overlay pick t u)) = true := by
  have h := subset_overlayValue_of_not_clashes hpick hs hu hold hclash
  rwa [overlayValue] at h

end Overlay

/-! ### Agreeing values -/

/-- Two values that are equal, in one sense or the other, or both tables. -/
inductive Agree (eq : α → α → Bool) : Option (ValueTree α) → Option (ValueTree α) → Prop
  | none : Agree eq none none
  | rfl {v : ValueTree α} : Agree eq (some v) (some v)
  | same {v w : ValueTree α} : same eq v w = true → Agree eq (some v) (some w)
  | table {v w : ValueTree α} : v.IsTable → w.IsTable → Agree eq (some v) (some w)

theorem Agree.refl (v : Option (ValueTree α)) : Agree eq v v := by
  cases v with
  | none => exact .none
  | some v => exact .rfl

/-- **Trees that contain a third agree where that sets a value.** -/
theorem agree_of_subset (hsymm : ∀ a b, eq a b = true → eq b a = true)
    (htrans : ∀ a b c, eq a b = true → eq b c = true → eq a c = true) {v w u : ValueTree α}
    (hv : v.WF) (hw : w.WF) (hvw : subset eq v w = true) (hvu : subset eq v u = true)
    {p : List String} (hp : v.Sets p) : Agree eq (w.get p) (u.get p) := by
  rcases sets_iff.1 hp with ⟨x, hx⟩ | ⟨q, r, x, rfl, hr, hx, hnot⟩
  · obtain ⟨y, hy, hxy⟩ := get_of_subset hv hvw hx
    obtain ⟨z, hz, hxz⟩ := get_of_subset hv hvu hx
    rw [hy, hz]
    by_cases htable : x.IsTable
    · exact .table (htable.of_subset hxy) (htable.of_subset hxz)
    · rw [subset_eq_same htable] at hxy hxz
      have hyx := same_symm hsymm (hv.of_get hx) (hw.of_get hy) hxy
      exact .same (same_trans htrans (hw.of_get hy) (hv.of_get hx) hyx hxz)
  · obtain ⟨y, hy, hxy⟩ := get_of_subset hv hvw hx
    obtain ⟨z, hz, hxz⟩ := get_of_subset hv hvu hx
    rw [get_append_of_not_isTable hy (not_isTable_of_subset hnot hxy) hr,
      get_append_of_not_isTable hz (not_isTable_of_subset hnot hxz) hr]
    exact .none

end ValueTree

end Mise.Lib
