/-
# Trees of tables, and laying one over another

A `ValueTree` is a value of a configuration format: a leaf, an array or a table.
Tables are lists of entries; in a well-formed tree (`WF`) the keys of each table
are distinct, and a `Document` is a table of that kind.

Leaves come with an equality of their own that need not be reflexive, since a
NaN is not equal to itself.  `same` extends it to trees, whose tables are compared
as maps, and `subset` asks for the values of a source in a target, tables being
compared key by key.

`overlay` sets the values of a source in a target: tables merge, and any other
value is chosen by `pick`.  It changes only what the source sets (`get_overlay`),
and with a fair choice the source is then contained (`subset_overlay`).
-/

import Mathlib.Data.List.Nodup
import Mathlib.Data.List.Perm.Basic
import Mise.Lib.IndexMap

namespace Mise.Lib

/-- A leaf, an array or a table. -/
inductive ValueTree (α : Type) where
  | leaf (a : α)
  | array (items : List (ValueTree α))
  | table (entries : List (String × ValueTree α))

/-- The entries of a table. -/
abbrev Entries (α : Type) := List (String × ValueTree α)

namespace ValueTree

variable {α : Type}

/-- The keys of every table are distinct. -/
inductive WF : ValueTree α → Prop
  | leaf (a : α) : WF (leaf a)
  | array {items : List (ValueTree α)} : (∀ v ∈ items, WF v) → WF (array items)
  | table {entries : Entries α} : (entries.map Prod.fst).Nodup → (∀ e ∈ entries, WF e.2) →
      WF (table entries)

theorem WF.nodup {entries : Entries α} (h : (ValueTree.table entries).WF) :
    (entries.map Prod.fst).Nodup := by
  cases h with
  | table hnodup _ => exact hnodup

theorem WF.of_lookup {entries : Entries α} (h : (ValueTree.table entries).WF) {k : String}
    {v : ValueTree α} (hk : entries.lookup k = some v) : WF v := by
  cases h with
  | table hnodup hall => exact hall _ ((IndexMap.lookup_eq_some_iff_mem hnodup).1 hk)

/-! ### Equality and containment -/

section Same

variable (eq : α → α → Bool)

mutual

/-- Equality of values; tables are equal as maps. -/
def same : ValueTree α → ValueTree α → Bool
  | leaf a, leaf b => eq a b
  | array xs, array ys => sameItems xs ys
  | table s, table t => decide (s.length = t.length) && sameEntries s t
  | _, _ => false

/-- Arrays are compared item by item. -/
def sameItems : List (ValueTree α) → List (ValueTree α) → Bool
  | [], [] => true
  | x :: xs, y :: ys => same x y && sameItems xs ys
  | _, _ => false

/-- Every entry of the first table is in the second. -/
def sameEntries : Entries α → Entries α → Bool
  | [], _ => true
  | (k, v) :: s, t => ((t.lookup k).elim false fun w => same v w) && sameEntries s t

end

mutual

/-- Every value of the first tree is in the second. -/
def subset : ValueTree α → ValueTree α → Bool
  | table s, table t => subsetEntries s t
  | s, t => same eq s t

/-- Every value of the first table is in the second. -/
def subsetEntries : Entries α → Entries α → Bool
  | [], _ => true
  | (k, v) :: s, t => ((t.lookup k).elim false fun w => subset v w) && subsetEntries s t

end

variable {eq}

theorem sameItems_iff {xs ys : List (ValueTree α)} :
    sameItems eq xs ys = true ↔ List.Forall₂ (fun x y => same eq x y = true) xs ys := by
  induction xs generalizing ys with
  | nil => cases ys <;> simp [sameItems]
  | cons x xs ih => cases ys <;> simp [sameItems, ih]

theorem sameEntries_iff {s t : Entries α} :
    sameEntries eq s t = true ↔ ∀ e ∈ s, ∃ w, t.lookup e.1 = some w ∧ same eq e.2 w = true := by
  induction s with
  | nil => simp [sameEntries]
  | cons e s ih =>
    rw [sameEntries, Bool.and_eq_true, ih, List.forall_mem_cons]
    refine and_congr_left fun _ => ?_
    cases t.lookup e.1 <;> simp

theorem same_table_iff {s t : Entries α} :
    same eq (table s) (table t) = true ↔ s.length = t.length ∧
      ∀ e ∈ s, ∃ w, t.lookup e.1 = some w ∧ same eq e.2 w = true := by
  rw [same, Bool.and_eq_true, decide_eq_true_eq, sameEntries_iff]

theorem subsetEntries_iff {s t : Entries α} :
    subsetEntries eq s t = true ↔
      ∀ e ∈ s, ∃ w, t.lookup e.1 = some w ∧ subset eq e.2 w = true := by
  induction s with
  | nil => simp [subsetEntries]
  | cons e s ih =>
    rw [subsetEntries, Bool.and_eq_true, ih, List.forall_mem_cons]
    refine and_congr_left fun _ => ?_
    cases t.lookup e.1 <;> simp

theorem subset_leaf (a : α) (w : ValueTree α) : subset eq (leaf a) w = same eq (leaf a) w := by
  cases w <;> rfl

theorem subset_array (items : List (ValueTree α)) (w : ValueTree α) :
    subset eq (array items) w = same eq (array items) w := by
  cases w <;> rfl

/-- Every leaf is equal to itself. -/
inductive Proper (eq : α → α → Bool) : ValueTree α → Prop
  | leaf {a : α} : eq a a = true → Proper eq (leaf a)
  | array {items : List (ValueTree α)} : (∀ v ∈ items, Proper eq v) → Proper eq (array items)
  | table {entries : Entries α} : (∀ e ∈ entries, Proper eq e.2) → Proper eq (table entries)

theorem proper_leaf_iff {a : α} : Proper eq (leaf a) ↔ eq a a = true :=
  ⟨fun h => by cases h with | leaf h => exact h, .leaf⟩

theorem proper_array_iff {items : List (ValueTree α)} :
    Proper eq (array items) ↔ ∀ v ∈ items, Proper eq v :=
  ⟨fun h => by cases h with | array h => exact h, .array⟩

theorem proper_table_iff {entries : Entries α} :
    Proper eq (table entries) ↔ ∀ e ∈ entries, Proper eq e.2 :=
  ⟨fun h => by cases h with | table h => exact h, .table⟩

/-- **A value is equal to itself when its leaves are.** -/
theorem same_self_iff {v : ValueTree α} (hv : v.WF) : same eq v v = true ↔ Proper eq v := by
  induction hv with
  | leaf a => rw [same, proper_leaf_iff]
  | @array items _ ih =>
    rw [proper_array_iff, same, sameItems_iff, List.forall₂_same]
    exact forall₂_congr ih
  | @table entries hnodup _ ih =>
    rw [proper_table_iff, same_table_iff]
    have hself : ∀ e ∈ entries, entries.lookup e.1 = some e.2 := fun e he =>
      (IndexMap.lookup_eq_some_iff_mem hnodup).2 he
    constructor
    · rintro ⟨-, h⟩ e he
      obtain ⟨w, hw, hsame⟩ := h e he
      rw [hself e he] at hw
      obtain rfl := Option.some.inj hw
      exact (ih e he).1 hsame
    · exact fun h => ⟨rfl, fun e he => ⟨e.2, hself e he, (ih e he).2 (h e he)⟩⟩

/-- What is equal to itself is contained in itself. -/
theorem subset_self_iff {v : ValueTree α} (hv : v.WF) : subset eq v v = true ↔ Proper eq v := by
  induction hv with
  | leaf a => rw [subset_leaf, same, proper_leaf_iff]
  | @array items hall _ =>
    rw [subset_array]
    exact same_self_iff (.array hall)
  | @table entries hnodup _ ih =>
    rw [proper_table_iff, subset, subsetEntries_iff]
    refine forall₂_congr fun e he => ?_
    rw [(IndexMap.lookup_eq_some_iff_mem hnodup).2 (show (e.1, e.2) ∈ entries from he)]
    simp [ih e he]

theorem subset_of_same {v : ValueTree α} (hv : v.WF) :
    ∀ {w : ValueTree α}, same eq v w = true → subset eq v w = true := by
  induction hv with
  | leaf a => exact fun h => (subset_leaf a _).trans h
  | @array items _ _ => exact fun h => (subset_array items _).trans h
  | @table entries _ _ ih =>
    intro w h
    cases w with
    | leaf b => exact absurd h (by simp [same])
    | array ys => exact absurd h (by simp [same])
    | table t =>
      rw [subset, subsetEntries_iff]
      intro e he
      obtain ⟨w, hw, hsame⟩ := (same_table_iff.1 h).2 e he
      exact ⟨w, hw, ih e he hsame⟩

/-- Two lists compared the other way round. -/
theorem forall₂_flip {R S : ValueTree α → ValueTree α → Prop} {xs ys : List (ValueTree α)}
    (h : List.Forall₂ R xs ys) (hRS : ∀ x ∈ xs, ∀ y ∈ ys, R x y → S y x) :
    List.Forall₂ S ys xs := by
  induction h with
  | nil => exact .nil
  | cons hxy _ ih =>
    refine .cons (hRS _ List.mem_cons_self _ List.mem_cons_self hxy) (ih fun x hx y hy => ?_)
    exact hRS x (List.mem_cons_of_mem _ hx) y (List.mem_cons_of_mem _ hy)

section Symm

variable (hsymm : ∀ a b, eq a b = true → eq b a = true)
include hsymm

/-- Equality of values is symmetric. -/
theorem same_symm {v : ValueTree α} (hv : v.WF) :
    ∀ {w : ValueTree α}, w.WF → same eq v w = true → same eq w v = true := by
  induction hv with
  | leaf a =>
    intro w _ h
    cases w with
    | leaf b =>
      rw [same] at h ⊢
      exact hsymm a b h
    | array ys => exact absurd h (by simp [same])
    | table t => exact absurd h (by simp [same])
  | @array items _ ih =>
    intro w hw h
    cases w with
    | leaf b => exact absurd h (by simp [same])
    | table t => exact absurd h (by simp [same])
    | array ys =>
      rw [same, sameItems_iff] at h ⊢
      cases hw with
      | array hys =>
        exact forall₂_flip h fun x hx y hy => ih x hx (hys y hy)
  | @table entries hnodup _ ih =>
    intro w hw h
    cases w with
    | leaf b => exact absurd h (by simp [same])
    | array ys => exact absurd h (by simp [same])
    | table t =>
      obtain ⟨hlength, hall⟩ := same_table_iff.1 h
      refine same_table_iff.2 ⟨hlength.symm, fun e he => ?_⟩
      -- the tables have the same keys
      have hsub : entries.map Prod.fst ⊆ t.map Prod.fst := by
        intro k hk
        obtain ⟨x, hx, rfl⟩ := List.mem_map.1 hk
        obtain ⟨w, hlookup, -⟩ := hall x hx
        exact List.mem_map.2 ⟨_, (IndexMap.lookup_eq_some_iff_mem hw.nodup).1 hlookup, rfl⟩
      have hperm : (entries.map Prod.fst).Perm (t.map Prod.fst) :=
        (List.subperm_of_subset hnodup hsub).perm_of_length_le (by simp [hlength])
      obtain ⟨x, hx, hkey⟩ := List.mem_map.1 (hperm.mem_iff.2 (List.mem_map_of_mem he))
      obtain ⟨w, hlookup, hsame⟩ := hall x hx
      have he' : t.lookup x.1 = some e.2 := by
        rw [hkey]
        exact (IndexMap.lookup_eq_some_iff_mem hw.nodup).2 he
      rw [he'] at hlookup
      obtain rfl := Option.some.inj hlookup
      refine ⟨x.2, ?_, ih x hx (hw.of_lookup he') hsame⟩
      rw [← hkey]
      exact (IndexMap.lookup_eq_some_iff_mem hnodup).2 hx

end Symm

/-- Two lists compared through a third. -/
theorem forall₂_trans {R : ValueTree α → ValueTree α → Prop} {xs ys zs : List (ValueTree α)}
    (h : List.Forall₂ R xs ys) (h' : List.Forall₂ R ys zs)
    (hR : ∀ x ∈ xs, ∀ y ∈ ys, ∀ z, R x y → R y z → R x z) : List.Forall₂ R xs zs := by
  induction h generalizing zs with
  | nil => exact h'
  | cons hxy _ ih =>
    cases h' with
    | cons hyz h' =>
      refine .cons (hR _ List.mem_cons_self _ List.mem_cons_self _ hxy hyz) (ih h' ?_)
      exact fun x hx y hy => hR x (List.mem_cons_of_mem _ hx) y (List.mem_cons_of_mem _ hy)

section Trans

variable (htrans : ∀ a b c, eq a b = true → eq b c = true → eq a c = true)
include htrans

/-- Equality of values is transitive. -/
theorem same_trans {u : ValueTree α} (hu : u.WF) : ∀ {v w : ValueTree α}, v.WF →
    same eq u v = true → same eq v w = true → same eq u w = true := by
  induction hu with
  | leaf a =>
    intro v w _ h h'
    cases v with
    | leaf b =>
      cases w with
      | leaf c =>
        rw [same] at h h' ⊢
        exact htrans a b c h h'
      | array zs => exact absurd h' (by simp [same])
      | table r => exact absurd h' (by simp [same])
    | array ys => exact absurd h (by simp [same])
    | table t => exact absurd h (by simp [same])
  | @array items _ ih =>
    intro v w hv h h'
    cases v with
    | leaf b => exact absurd h (by simp [same])
    | table t => exact absurd h (by simp [same])
    | array ys =>
      cases w with
      | leaf c => exact absurd h' (by simp [same])
      | table r => exact absurd h' (by simp [same])
      | array zs =>
        rw [same, sameItems_iff] at h h' ⊢
        cases hv with
        | array hys => exact forall₂_trans h h' fun x hx y hy z => ih x hx (hys y hy)
  | @table entries _ _ ih =>
    intro v w hv h h'
    cases v with
    | leaf b => exact absurd h (by simp [same])
    | array ys => exact absurd h (by simp [same])
    | table t =>
      cases w with
      | leaf c => exact absurd h' (by simp [same])
      | array zs => exact absurd h' (by simp [same])
      | table r =>
        obtain ⟨hlength, hall⟩ := same_table_iff.1 h
        obtain ⟨hlength', hall'⟩ := same_table_iff.1 h'
        refine same_table_iff.2 ⟨hlength.trans hlength', fun e he => ?_⟩
        obtain ⟨v, hv', hsame⟩ := hall e he
        obtain ⟨w, hw, hsame'⟩ := hall' (e.1, v) ((IndexMap.lookup_eq_some_iff_mem hv.nodup).1 hv')
        exact ⟨w, hw, ih e he (hv.of_lookup hv') hsame hsame'⟩

/-- What a value contains an equal value contains. -/
theorem subset_of_subset_same {u : ValueTree α} (hu : u.WF) : ∀ {v w : ValueTree α}, v.WF →
    subset eq u v = true → same eq v w = true → subset eq u w = true := by
  induction hu with
  | leaf a =>
    intro v w hv h h'
    rw [subset_leaf] at h ⊢
    exact same_trans htrans (.leaf a) hv h h'
  | @array items hall _ =>
    intro v w hv h h'
    rw [subset_array] at h ⊢
    exact same_trans htrans (.array hall) hv h h'
  | @table entries _ _ ih =>
    intro v w hv h h'
    cases v with
    | leaf b => exact absurd h (by simp [subset, same])
    | array ys => exact absurd h (by simp [subset, same])
    | table t =>
      cases w with
      | leaf c => exact absurd h' (by simp [same])
      | array zs => exact absurd h' (by simp [same])
      | table r =>
        rw [subset, subsetEntries_iff] at h ⊢
        intro e he
        obtain ⟨v, hv', hsubset⟩ := h e he
        obtain ⟨w, hw, hsame⟩ := (same_table_iff.1 h').2 (e.1, v)
          ((IndexMap.lookup_eq_some_iff_mem hv.nodup).1 hv')
        exact ⟨w, hw, ih e he (hv.of_lookup hv') hsubset hsame⟩

/-- **What is contained in a value is equal to itself.** -/
theorem proper_of_subset (hsymm : ∀ a b, eq a b = true → eq b a = true) {v : ValueTree α}
    (hv : v.WF) : ∀ {w : ValueTree α}, w.WF → subset eq v w = true → Proper eq v := by
  induction hv with
  | leaf a =>
    intro w hw h
    rw [subset_leaf] at h
    exact (same_self_iff (.leaf a)).1 (same_trans htrans (.leaf a) hw h
      (same_symm hsymm (.leaf a) hw h))
  | @array items hall _ =>
    intro w hw h
    rw [subset_array] at h
    exact (same_self_iff (.array hall)).1 (same_trans htrans (.array hall) hw h
      (same_symm hsymm (.array hall) hw h))
  | @table entries _ _ ih =>
    intro w hw h
    cases w with
    | leaf b => exact absurd h (by simp [subset, same])
    | array ys => exact absurd h (by simp [subset, same])
    | table t =>
      rw [subset, subsetEntries_iff] at h
      refine .table fun e he => ?_
      obtain ⟨w, hlookup, hsubset⟩ := h e he
      exact ih e he (hw.of_lookup hlookup) hsubset

end Trans

end Same

/-! ### Paths -/

/-- The value at a path of keys. -/
def get : ValueTree α → List String → Option (ValueTree α)
  | v, [] => some v
  | table s, k :: p => (s.lookup k).bind fun v => v.get p
  | _, _ :: _ => none

/-- The tree has a value at the path, or one that is not a table above it. -/
def Sets : ValueTree α → List String → Prop
  | _, [] => True
  | table s, k :: p => ∃ v, s.lookup k = some v ∧ v.Sets p
  | _, _ :: _ => True

theorem get_eq_none_of_not_sets {v : ValueTree α} {p : List String} (h : ¬v.Sets p) :
    v.get p = none := by
  induction p generalizing v with
  | nil => exact absurd (by simp [Sets]) h
  | cons k p ih =>
    cases v with
    | leaf a => rfl
    | array items => rfl
    | table s =>
      rw [get]
      cases hk : s.lookup k with
      | none => rfl
      | some w => exact ih fun hw => h ⟨w, hk, hw⟩

/-! ### Laying one table over another -/

section Overlay

variable (pick : Option (ValueTree α) → ValueTree α → ValueTree α)

mutual

/-- Set the values of the second table in the first, in the order of its entries. -/
def overlay : Entries α → Entries α → Entries α
  | t, [] => t
  | t, (k, v) :: s => overlay (IndexMap.insertEntry k (overlayValue (t.lookup k) v) t) s

/-- What a value becomes: tables merge, and otherwise `pick` chooses. -/
def overlayValue : Option (ValueTree α) → ValueTree α → ValueTree α
  | some (table t), table s => table (overlay t s)
  | old, v => pick old v

end

variable {pick}

/-- **The values of an overlay.** -/
theorem lookup_overlay {s : Entries α} (hs : (s.map Prod.fst).Nodup) (t : Entries α) (k : String) :
    (overlay pick t s).lookup k =
      (s.lookup k).elim (t.lookup k) fun v => some (overlayValue pick (t.lookup k) v) := by
  induction s generalizing t with
  | nil => rfl
  | cons e s ih =>
    obtain ⟨k', v⟩ := e
    rw [List.map_cons, List.nodup_cons] at hs
    rw [overlay, ih hs.2, IndexMap.lookup_insertEntry, IndexMap.lookup_cons_ite]
    by_cases hk : k = k'
    · have hnone : s.lookup k = none := by
        refine List.lookup_eq_none_iff.2 fun x hx => ?_
        rw [bne_iff_ne]
        rintro rfl
        exact hs.1 (List.mem_map.2 ⟨x, hx, hk⟩)
      rw [hnone, if_pos hk, if_pos hk, hk]
      rfl
    · rw [if_neg hk, if_neg hk]

theorem nodup_overlay (s : Entries α) {t : Entries α} (ht : (t.map Prod.fst).Nodup) :
    ((overlay pick t s).map Prod.fst).Nodup := by
  induction s generalizing t with
  | nil => exact ht
  | cons e s ih => exact ih (IndexMap.nodup_insertEntry _ _ _ ht)

/-- The choice is the new value, or an old one that is equal to it. -/
def Fair (eq : α → α → Bool) (pick : Option (ValueTree α) → ValueTree α → ValueTree α) : Prop :=
  ∀ old v, pick old v = v ∨ old = some (pick old v) ∧ same eq (pick old v) v = true

/-- Tables merge, and otherwise a value is chosen. -/
theorem overlayValue_cases (old : Option (ValueTree α)) (v : ValueTree α) :
    (∃ t s, old = some (table t) ∧ v = table s ∧
      overlayValue pick old v = table (overlay pick t s)) ∨
    ((∀ t s, old = some (table t) → v ≠ table s) ∧ overlayValue pick old v = pick old v) := by
  match old, v with
  | some (table t), table s => exact .inl ⟨t, s, rfl, rfl, by rw [overlayValue]⟩
  | none, v => exact .inr ⟨by simp, by rw [overlayValue]; simp⟩
  | some (leaf a), v => exact .inr ⟨by simp, by rw [overlayValue]; simp⟩
  | some (array items), v => exact .inr ⟨by simp, by rw [overlayValue]; simp⟩
  | some (table t), leaf a => exact .inr ⟨by simp, by rw [overlayValue]; simp⟩
  | some (table t), array items => exact .inr ⟨by simp, by rw [overlayValue]; simp⟩

theorem wf_overlay_of {s t : Entries α} (hs : (s.map Prod.fst).Nodup)
    (hvalues : ∀ e ∈ s, ∀ old : Option (ValueTree α), (∀ o, old = some o → o.WF) →
      (overlayValue pick old e.2).WF) (ht : (table t).WF) : (table (overlay pick t s)).WF := by
  have hnodup : ((overlay pick t s).map Prod.fst).Nodup := nodup_overlay s ht.nodup
  refine .table hnodup fun e he => ?_
  have hlookup := (IndexMap.lookup_eq_some_iff_mem hnodup).2 (show (e.1, e.2) ∈ _ from he)
  rw [lookup_overlay hs] at hlookup
  cases hk : s.lookup e.1 with
  | none =>
    rw [hk] at hlookup
    exact ht.of_lookup hlookup
  | some v =>
    rw [hk, Option.elim_some, Option.some.injEq] at hlookup
    rw [← hlookup]
    exact hvalues (e.1, v) ((IndexMap.lookup_eq_some_iff_mem hs).1 hk) _ fun o ho => ht.of_lookup ho

section Fair

variable {eq : α → α → Bool} (hpick : Fair eq pick)
include hpick

theorem Fair.wf {v : ValueTree α} (hv : v.WF) {old : Option (ValueTree α)}
    (hold : ∀ o, old = some o → o.WF) : (pick old v).WF := by
  rcases hpick old v with h | ⟨h, -⟩
  · rwa [h]
  · exact hold _ h

theorem wf_overlayValue {v : ValueTree α} (hv : v.WF) : ∀ {old : Option (ValueTree α)},
    (∀ o, old = some o → o.WF) → (overlayValue pick old v).WF := by
  induction hv with
  | leaf a =>
    intro old hold
    rcases overlayValue_cases old (leaf a) with ⟨_, _, -, h, -⟩ | ⟨-, h⟩
    · exact nomatch h
    · exact h ▸ hpick.wf (.leaf a) hold
  | @array items hall _ =>
    intro old hold
    rcases overlayValue_cases old (array items) with ⟨_, _, -, h, -⟩ | ⟨-, h⟩
    · exact nomatch h
    · exact h ▸ hpick.wf (.array hall) hold
  | @table entries hnodup hall ih =>
    intro old hold
    rcases overlayValue_cases old (table entries) with ⟨t, s, hold', hs, h⟩ | ⟨-, h⟩
    · obtain rfl : entries = s := by injection hs
      exact h ▸ wf_overlay_of hnodup (fun e he old => ih e he) (hold _ hold')
    · exact h ▸ hpick.wf (.table hnodup hall) hold

/-- **An overlay is well-formed.** -/
theorem wf_overlay {s t : Entries α} (hs : (table s).WF) (ht : (table t).WF) :
    (table (overlay pick t s)).WF := by
  refine wf_overlay_of hs.nodup (fun e he old => wf_overlayValue hpick ?_) ht
  exact hs.of_lookup ((IndexMap.lookup_eq_some_iff_mem hs.nodup).2 he)

/-- A chosen value that is not a table where the new one is: it is the new one. -/
theorem Fair.eq_of_table {s : Entries α} {old : Option (ValueTree α)}
    (hold : ∀ t, old ≠ some (table t)) : pick old (table s) = table s := by
  rcases hpick old (table s) with h | ⟨h, hsame⟩
  · exact h
  · cases hchosen : pick old (table s) with
    | table t => exact absurd (hchosen ▸ h) (hold t)
    | leaf a =>
      rw [hchosen] at hsame
      exact absurd hsame (by simp [same])
    | array items =>
      rw [hchosen] at hsame
      exact absurd hsame (by simp [same])

/-- **What the source does not set stays as it is in the target.** -/
theorem get_overlay {s : Entries α} (hs : (table s).WF) {p : List String} (hp : ¬(table s).Sets p)
    (t : Entries α) : (table (overlay pick t s)).get p = (table t).get p := by
  induction p generalizing s t with
  | nil => exact absurd (by simp [Sets]) hp
  | cons k p ih =>
    rw [get, get, lookup_overlay hs.nodup]
    cases hk : s.lookup k with
    | none => rfl
    | some v =>
      have hv : ¬v.Sets p := fun hv => hp ⟨v, hk, hv⟩
      cases p with
      | nil => exact absurd (by simp [Sets]) hv
      | cons k' p =>
        -- only a table can leave a path below it unset
        cases v with
        | leaf a => exact absurd (by simp [Sets]) hv
        | array items => exact absurd (by simp [Sets]) hv
        | table c =>
          rw [Option.elim_some, Option.bind_some]
          rcases overlayValue_cases (t.lookup k) (table c) with ⟨tc, c', hold, hc, h⟩ | ⟨hnot, h⟩
          · obtain rfl : c = c' := by injection hc
            rw [h, hold]
            exact ih (hs.of_lookup hk) hv tc
          · rw [h, hpick.eq_of_table fun tc hold => hnot tc c hold rfl, get_eq_none_of_not_sets hv]
            cases hold : t.lookup k with
            | none => rfl
            | some o =>
              cases o with
              | leaf a => rfl
              | array items => rfl
              | table tc => exact absurd rfl (hnot tc c hold)

/-- **Every path of an overlay is one of the target or of the source.** -/
theorem isSome_get_overlay {s : Entries α} (hs : (table s).WF) {p : List String} {t : Entries α}
    (h : ((table (overlay pick t s)).get p).isSome) :
    ((table t).get p).isSome ∨ ((table s).get p).isSome := by
  induction p generalizing s t with
  | nil => exact .inl rfl
  | cons k p ih =>
    rw [get, lookup_overlay hs.nodup] at h
    rw [get, get]
    cases hk : s.lookup k with
    | none =>
      rw [hk] at h
      exact .inl h
    | some v =>
      rw [hk, Option.elim_some, Option.bind_some] at h
      rcases overlayValue_cases (t.lookup k) v with ⟨tc, c, hold, rfl, heq⟩ | ⟨-, heq⟩
      · rw [heq] at h
        rw [hold]
        exact ih (hs.of_lookup hk) h
      · rw [heq] at h
        rcases hpick (t.lookup k) v with hchosen | ⟨hchosen, -⟩
        · rw [hchosen] at h
          exact .inr h
        · rw [hchosen]
          exact .inl h

variable (hsymm : ∀ a b, eq a b = true → eq b a = true)
include hsymm

/-- A chosen value contains the new one when that is equal to itself. -/
theorem Fair.subset {v : ValueTree α} (hv : v.WF) (hproper : Proper eq v)
    {old : Option (ValueTree α)} (hold : ∀ o, old = some o → o.WF) : subset eq v (pick old v) = true := by
  rcases hpick old v with h | ⟨h, hsame⟩
  · rw [h]
    exact (subset_self_iff hv).2 hproper
  · exact subset_of_same hv (same_symm hsymm (hold _ h) hv hsame)

theorem subset_overlayValue {v : ValueTree α} (hv : v.WF) : ∀ {old : Option (ValueTree α)},
    Proper eq v → (∀ o, old = some o → o.WF) → subset eq v (overlayValue pick old v) = true := by
  induction hv with
  | leaf a =>
    intro old hproper hold
    rcases overlayValue_cases old (leaf a) with ⟨_, _, -, h, -⟩ | ⟨-, h⟩
    · exact nomatch h
    · exact h ▸ hpick.subset hsymm (.leaf a) hproper hold
  | @array items hall _ =>
    intro old hproper hold
    rcases overlayValue_cases old (array items) with ⟨_, _, -, h, -⟩ | ⟨-, h⟩
    · exact nomatch h
    · exact h ▸ hpick.subset hsymm (.array hall) hproper hold
  | @table entries hnodup hall ih =>
    intro old hproper hold
    rcases overlayValue_cases old (table entries) with ⟨t, s, rfl, hs, h⟩ | ⟨-, h⟩
    · obtain rfl : entries = s := by injection hs
      rw [h, ValueTree.subset, subsetEntries_iff]
      intro e he
      rw [lookup_overlay hnodup, (IndexMap.lookup_eq_some_iff_mem hnodup).2
        (show (e.1, e.2) ∈ entries from he)]
      refine ⟨_, rfl, ih e he (proper_table_iff.1 hproper e he) fun o ho => ?_⟩
      exact (hold _ rfl).of_lookup ho
    · exact h ▸ hpick.subset hsymm (.table hnodup hall) hproper hold

/-- **An overlay contains its source**, when that is equal to itself. -/
theorem subset_overlay {s t : Entries α} (hs : (table s).WF) (ht : (table t).WF)
    (hproper : Proper eq (table s)) : subsetEntries eq s (overlay pick t s) = true := by
  have hold : ∀ o, some (table t) = some o → o.WF := fun o ho => Option.some.inj ho ▸ ht
  have h := subset_overlayValue hpick hsymm hs hproper hold
  rwa [overlayValue, ValueTree.subset] at h

end Fair

end Overlay

end ValueTree

/-- A table at the top of a file. -/
structure Document (α : Type) where
  entries : Entries α
  wf : (ValueTree.table entries).WF

/-- The document as a value. -/
def Document.tree {α : Type} (d : Document α) : ValueTree α := .table d.entries

end Mise.Lib
