/-
# Spans and their groups

A span `(a, b)` stands for the positions `a ≤ i < b`.  Spans that share a
position overlap; a group is all that a chain of overlaps links to one span.
Scanning spans in the order of their starts and widening the current one while
the next begins inside it lists the groups (`mem_groups_iff`), from left to
right (`pairwise_groups`), so that the list depends on the set of spans alone
(`groups_congr`).
-/

import Mathlib.Data.List.Sort
import Mathlib.Data.Set.Insert
import Mathlib.Logic.Relation
import Mathlib.Order.MinMax

namespace Mise.Lib

variable {α : Type} [LinearOrder α] {S A B : Set (α × α)} {s t g h : α × α} {i : α}

/-- The position lies in the span. -/
def Inside (i : α) (s : α × α) : Prop := s.1 ≤ i ∧ i < s.2

/-- The two spans share a position, when neither is empty. -/
def Overlap (s t : α × α) : Prop := s.1 < t.2 ∧ t.1 < s.2

/-- A chain of overlapping spans of `S` leads from one span to the other. -/
def Linked (S : Set (α × α)) : α × α → α × α → Prop :=
  Relation.ReflTransGen fun s t => s ∈ S ∧ t ∈ S ∧ Overlap s t

/-- **A maximal group of overlapping spans**: `g` holds the positions of all the
spans that are linked to one of `S`. -/
def IsGroup (S : Set (α × α)) (g : α × α) : Prop :=
  ∃ s ∈ S, ∀ i, Inside i g ↔ ∃ t, Linked S s t ∧ Inside i t

/-! ### Links -/

theorem Linked.symm (hst : Linked S s t) : Linked S t s := by
  induction hst with
  | refl => exact .refl
  | tail _ hlast ih => exact ih.head ⟨hlast.2.1, hlast.1, hlast.2.2.2, hlast.2.2.1⟩

theorem Linked.mem (hst : Linked S s t) (hs : s ∈ S) : t ∈ S := by
  cases hst with
  | refl => exact hs
  | tail _ hlast => exact hlast.2.1

theorem Linked.mono (hst : Linked S s t) (hsub : S ⊆ A) : Linked A s t :=
  Relation.ReflTransGen.mono (fun _ _ hab => ⟨hsub hab.1, hsub hab.2.1, hab.2.2⟩) _ _ hst

/-- Where no span of one set overlaps one of another, links stay in their set. -/
theorem linked_union_left (hsep : ∀ a ∈ A, ∀ b ∈ B, ¬Overlap a b) (hs : s ∈ A) :
    Linked (A ∪ B) s t ↔ Linked A s t := by
  constructor
  · intro hst
    induction hst with
    | refl => exact Relation.ReflTransGen.refl
    | tail _ hlast ih =>
      have hmid := ih.mem hs
      refine ih.tail ⟨hmid, ?_, hlast.2.2⟩
      exact hlast.2.1.resolve_right fun hB => hsep _ hmid _ hB hlast.2.2
  · exact fun hst => hst.mono Set.subset_union_left

theorem linked_union_right (hsep : ∀ a ∈ A, ∀ b ∈ B, ¬Overlap a b) (hs : s ∈ B) :
    Linked (A ∪ B) s t ↔ Linked B s t := by
  rw [Set.union_comm]
  exact linked_union_left (fun b hb a ha hab => hsep a ha b hb ⟨hab.2, hab.1⟩) hs

theorem isGroup_union (hsep : ∀ a ∈ A, ∀ b ∈ B, ¬Overlap a b) :
    IsGroup (A ∪ B) g ↔ IsGroup A g ∨ IsGroup B g := by
  constructor
  · rintro ⟨s, hs | hs, hg⟩
    · exact .inl ⟨s, hs, fun i => by simp only [hg, linked_union_left hsep hs]⟩
    · exact .inr ⟨s, hs, fun i => by simp only [hg, linked_union_right hsep hs]⟩
  · rintro (⟨s, hs, hg⟩ | ⟨s, hs, hg⟩)
    · exact ⟨s, .inl hs, fun i => by simp only [hg, linked_union_left hsep hs]⟩
    · exact ⟨s, .inr hs, fun i => by simp only [hg, linked_union_right hsep hs]⟩

/-- Spans with the same positions are the same, if there is a position. -/
theorem span_ext (hs : s.1 < s.2) (hst : ∀ i, Inside i s ↔ Inside i t) : s = t := by
  have hstart := (hst s.1).1 ⟨le_rfl, hs⟩
  have hback := (hst t.1).2 ⟨le_rfl, hstart.1.trans_lt hstart.2⟩
  have hfst : s.1 = t.1 := le_antisymm hback.1 hstart.1
  refine Prod.ext hfst (le_antisymm (le_of_not_gt fun hlt => ?_) (le_of_not_gt fun hlt => ?_))
  · have := (hst t.2).1 ⟨hfst.trans_le (hstart.1.trans hstart.2.le), hlt⟩
    exact lt_irrefl _ this.2
  · have := (hst s.2).2 ⟨hfst.symm.trans_le hs.le, hlt⟩
    exact lt_irrefl _ this.2

/-! ### A set that is one group -/

/-- All spans of the set are linked, and together they hold the positions of `g`. -/
structure Fills (S : Set (α × α)) (g : α × α) : Prop where
  nonempty : ∀ s ∈ S, s.1 < s.2
  linked : ∃ s ∈ S, ∀ t ∈ S, Linked S s t
  inside : ∀ i, Inside i g ↔ ∃ t ∈ S, Inside i t

theorem fills_singleton (hs : s.1 < s.2) : Fills {s} s where
  nonempty t ht := by rwa [Set.mem_singleton_iff.1 ht]
  linked := ⟨s, rfl, fun t ht => by rw [Set.mem_singleton_iff.1 ht]; exact .refl⟩
  inside i := by simp

/-- A span that begins inside the group widens it. -/
theorem Fills.insert (hfills : Fills S g) (ht : t.1 < t.2) (hstart : Inside t.1 g) :
    Fills (insert t S) (g.1, max g.2 t.2) where
  nonempty u hu := by
    rcases Set.mem_insert_iff.1 hu with rfl | hu
    · exact ht
    · exact hfills.nonempty u hu
  linked := by
    obtain ⟨s, hs, hall⟩ := hfills.linked
    obtain ⟨u, hu, hut⟩ := (hfills.inside t.1).1 hstart
    have hsub : S ⊆ Insert.insert t S := Set.subset_insert t S
    refine ⟨s, hsub hs, fun v hv => ?_⟩
    rcases Set.mem_insert_iff.1 hv with rfl | hv
    · refine ((hall u hu).mono hsub).tail ⟨hsub hu, Set.mem_insert _ _, ?_⟩
      exact ⟨hut.1.trans_lt ht, hut.2⟩
    · exact (hall v hv).mono hsub
  inside i := by
    have hwiden : Inside i (g.1, max g.2 t.2) ↔ Inside i t ∨ Inside i g := by
      simp only [Inside, lt_max_iff]
      constructor
      · rintro ⟨hlo, hhi | hhi⟩
        · exact .inr ⟨hlo, hhi⟩
        · rcases lt_or_ge i g.2 with hi | hi
          · exact .inr ⟨hlo, hi⟩
          · exact .inl ⟨hstart.2.le.trans hi, hhi⟩
      · rintro (hi | hi)
        · exact ⟨hstart.1.trans hi.1, .inr hi.2⟩
        · exact ⟨hi.1, .inl hi.2⟩
    rw [hwiden, hfills.inside]
    simp

theorem Fills.isGroup_iff (hfills : Fills S g) (hg : g.1 < g.2) : IsGroup S h ↔ h = g := by
  obtain ⟨s, hs, hall⟩ := hfills.linked
  have hclass : ∀ u ∈ S, ∀ i, (∃ t, Linked S u t ∧ Inside i t) ↔ Inside i g := by
    intro u hu i
    rw [hfills.inside]
    constructor
    · rintro ⟨t, hut, hi⟩
      exact ⟨t, hut.mem hu, hi⟩
    · rintro ⟨t, ht, hi⟩
      exact ⟨t, (hall u hu).symm.trans (hall t ht), hi⟩
  constructor
  · rintro ⟨u, hu, hh⟩
    refine (span_ext hg fun i => ?_).symm
    rw [hh, hclass u hu]
  · rintro rfl
    exact ⟨s, hs, fun i => (hclass s hs i).symm⟩

/-! ### Merging -/

/-- Merge spans in the order of their starts: the current group is widened by
each span that begins before its end, and closed by the first that does not. -/
def mergeFrom (cur : α × α) : List (α × α) → List (α × α)
  | [] => [cur]
  | t :: rest =>
    if t.1 < cur.2 then mergeFrom (cur.1, max cur.2 t.2) rest else cur :: mergeFrom t rest

/-- The groups of a list of spans that is sorted by starts. -/
def groups : List (α × α) → List (α × α)
  | [] => []
  | s :: rest => mergeFrom s rest

/-- What the scan relies on: no span is empty, and starts do not decrease. -/
structure Scannable (spans : List (α × α)) : Prop where
  nonempty : ∀ s ∈ spans, s.1 < s.2
  sorted : spans.Pairwise fun s t => s.1 ≤ t.1

theorem Scannable.tail {spans : List (α × α)} (hscan : Scannable (s :: spans)) :
    Scannable spans where
  nonempty t ht := hscan.nonempty t (List.mem_cons_of_mem s ht)
  sorted := (List.pairwise_cons.1 hscan.sorted).2

theorem Scannable.head_le {spans : List (α × α)} (hscan : Scannable (s :: spans)) :
    ∀ t ∈ spans, s.1 ≤ t.1 :=
  (List.pairwise_cons.1 hscan.sorted).1

/-- The wider group in place of the first two spans. -/
theorem Scannable.widen {spans : List (α × α)} (hscan : Scannable (s :: t :: spans)) :
    Scannable ((s.1, max s.2 t.2) :: spans) where
  nonempty u hu := by
    rcases List.mem_cons.1 hu with rfl | hu
    · exact lt_max_of_lt_left (hscan.nonempty s List.mem_cons_self)
    · exact hscan.tail.tail.nonempty u hu
  sorted := List.pairwise_cons.2
    ⟨fun u hu => hscan.head_le u (List.mem_cons_of_mem t hu), hscan.tail.tail.sorted⟩

/-- Of the spans `S` that are merged into the current one and those to come, the
scan lists the groups. -/
theorem mem_mergeFrom_iff {cur : α × α} {rest : List (α × α)} (hfills : Fills S cur)
    (hscan : Scannable (cur :: rest)) :
    g ∈ mergeFrom cur rest ↔ IsGroup (S ∪ {t | t ∈ rest}) g := by
  induction rest generalizing S cur with
  | nil =>
    have hcur := hscan.nonempty cur List.mem_cons_self
    simp only [mergeFrom, List.mem_singleton, List.not_mem_nil, Set.ofPred_false, Set.union_empty]
    exact (hfills.isGroup_iff hcur).symm
  | cons t rest ih =>
    have hcur := hscan.nonempty cur List.mem_cons_self
    have ht := hscan.nonempty t (List.mem_cons_of_mem _ List.mem_cons_self)
    have hle := hscan.head_le t List.mem_cons_self
    rw [mergeFrom]
    split
    · case isTrue hlt =>
      rw [ih (hfills.insert ht ⟨hle, hlt⟩) hscan.widen]
      have hset : insert t S ∪ {u | u ∈ rest} = S ∪ {u | u ∈ t :: rest} := by
        ext u
        simp only [Set.mem_union, Set.mem_insert_iff, Set.mem_ofPred_eq, List.mem_cons]
        tauto
      rw [hset]
    · case isFalse hge =>
      -- everything to come begins after the current group
      have hsep : ∀ a ∈ S, ∀ b ∈ {u | u ∈ t :: rest}, ¬Overlap a b := by
        intro a ha b hb hab
        have hafter : cur.2 ≤ b.1 := by
          rcases List.mem_cons.1 hb with rfl | hb
          · exact le_of_not_gt hge
          · exact (le_of_not_gt hge).trans (hscan.tail.head_le b hb)
        rcases lt_or_ge b.1 a.1 with hlt | hle'
        · have hba : Inside a.1 cur := (hfills.inside a.1).2 ⟨a, ha, le_rfl, hfills.nonempty a ha⟩
          exact absurd hba.2 (not_lt.2 (hafter.trans hlt.le))
        · have hbb : Inside b.1 cur := (hfills.inside b.1).2 ⟨a, ha, hle', hab.2⟩
          exact absurd hbb.2 (not_lt.2 hafter)
      have hset : {u | u ∈ t :: rest} = {t} ∪ {u | u ∈ rest} := by
        ext u
        simp
      rw [List.mem_cons, ih (fills_singleton ht) hscan.tail, isGroup_union hsep,
        hfills.isGroup_iff hcur, hset]

/-- **The scan lists the maximal groups.** -/
theorem mem_groups_iff {spans : List (α × α)} (hscan : Scannable spans) :
    g ∈ groups spans ↔ IsGroup {s | s ∈ spans} g := by
  cases spans with
  | nil =>
    simp only [groups, List.not_mem_nil, false_iff]
    rintro ⟨s, hs, _⟩
    exact hs
  | cons s rest =>
    have hs := hscan.nonempty s List.mem_cons_self
    have hset : {u | u ∈ s :: rest} = {s} ∪ {u | u ∈ rest} := by
      ext u
      simp
    rw [groups, mem_mergeFrom_iff (fills_singleton hs) hscan, hset]

theorem mergeFrom_start_le {cur : α × α} {rest : List (α × α)} (hscan : Scannable (cur :: rest)) :
    ∀ g ∈ mergeFrom cur rest, cur.1 ≤ g.1 ∧ g.1 < g.2 := by
  induction rest generalizing cur with
  | nil =>
    intro g hg
    obtain rfl := List.mem_singleton.1 hg
    exact ⟨le_rfl, hscan.nonempty g List.mem_cons_self⟩
  | cons t rest ih =>
    intro g hg
    rw [mergeFrom] at hg
    split at hg
    · exact ih hscan.widen g hg
    · rcases List.mem_cons.1 hg with rfl | hg
      · exact ⟨le_rfl, hscan.nonempty g List.mem_cons_self⟩
      · obtain ⟨hstart, hne⟩ := ih hscan.tail g hg
        exact ⟨(hscan.head_le t List.mem_cons_self).trans hstart, hne⟩

theorem pairwise_mergeFrom {cur : α × α} {rest : List (α × α)}
    (hscan : Scannable (cur :: rest)) :
    (mergeFrom cur rest).Pairwise fun g h => g.2 ≤ h.1 := by
  induction rest generalizing cur with
  | nil => exact List.pairwise_singleton _ _
  | cons t rest ih =>
    rw [mergeFrom]
    split
    · exact ih hscan.widen
    · case isFalse hge =>
      refine List.pairwise_cons.2 ⟨fun h hh => ?_, ih hscan.tail⟩
      exact (le_of_not_gt hge).trans (mergeFrom_start_le hscan.tail h hh).1

theorem groups_nonempty {spans : List (α × α)} (hscan : Scannable spans) :
    ∀ g ∈ groups spans, g.1 < g.2 := by
  cases spans with
  | nil => exact fun g hg => absurd hg List.not_mem_nil
  | cons s rest => exact fun g hg => (mergeFrom_start_le hscan g hg).2

/-- Groups follow each other from left to right; they may touch. -/
theorem pairwise_groups {spans : List (α × α)} (hscan : Scannable spans) :
    (groups spans).Pairwise fun g h => g.2 ≤ h.1 := by
  cases spans with
  | nil => exact List.Pairwise.nil
  | cons s rest => exact pairwise_mergeFrom hscan

/-- The ends of a group are ends of spans. -/
theorem mergeFrom_ends {P : α → Prop} {cur : α × α} {rest : List (α × α)}
    (hends : ∀ s ∈ cur :: rest, P s.1 ∧ P s.2) : ∀ g ∈ mergeFrom cur rest, P g.1 ∧ P g.2 := by
  induction rest generalizing cur with
  | nil => exact hends
  | cons t rest ih =>
    intro g hg
    have hcur := hends cur List.mem_cons_self
    have ht := hends t (List.mem_cons_of_mem _ List.mem_cons_self)
    have htail : ∀ s ∈ t :: rest, P s.1 ∧ P s.2 := fun s hs => hends s (List.mem_cons_of_mem _ hs)
    rw [mergeFrom] at hg
    split at hg
    · refine ih (fun s hs => ?_) g hg
      rcases List.mem_cons.1 hs with rfl | hs
      · refine ⟨hcur.1, ?_⟩
        show P (max cur.2 t.2)
        rcases max_choice cur.2 t.2 with hmax | hmax
        · rw [hmax]
          exact hcur.2
        · rw [hmax]
          exact ht.2
      · exact htail s (List.mem_cons_of_mem _ hs)
    · rcases List.mem_cons.1 hg with rfl | hg
      · exact hcur
      · exact ih htail g hg

theorem groups_ends {P : α → Prop} {spans : List (α × α)} (hends : ∀ s ∈ spans, P s.1 ∧ P s.2) :
    ∀ g ∈ groups spans, P g.1 ∧ P g.2 := by
  cases spans with
  | nil => exact hends
  | cons s rest => exact mergeFrom_ends hends

/-- **The groups depend on the set of spans alone**, not on how often or in which
order they are listed. -/
theorem groups_congr {spans spans' : List (α × α)} (hscan : Scannable spans)
    (hscan' : Scannable spans') (hmem : ∀ s, s ∈ spans ↔ s ∈ spans') :
    groups spans = groups spans' := by
  have hlt : ∀ {l : List (α × α)}, Scannable l → (groups l).Pairwise fun g h => g.1 < h.1 := by
    intro l hl
    refine (pairwise_groups hl).imp_of_mem fun {g h} hg _ hgh => ?_
    exact (groups_nonempty hl g hg).trans_le hgh
  have hnodup : ∀ {l : List (α × α)}, Scannable l → (groups l).Nodup := by
    intro l hl
    refine (hlt hl).imp fun {g h} hgh heq => ?_
    exact lt_irrefl _ (heq ▸ hgh)
  have hset : {s | s ∈ spans} = {s | s ∈ spans'} := Set.ext hmem
  refine List.Perm.eq_of_pairwise (fun g h _ _ hgh hhg => ?_) (hlt hscan) (hlt hscan') ?_
  · exact absurd hgh (lt_asymm hhg)
  · refine (List.perm_ext_iff_of_nodup (hnodup hscan) (hnodup hscan')).2 fun g => ?_
    rw [mem_groups_iff hscan, mem_groups_iff hscan', hset]

/-- A position is in a group exactly when it is in a span. -/
theorem inside_groups_iff {spans : List (α × α)} (hscan : Scannable spans) :
    (∃ g ∈ groups spans, Inside i g) ↔ ∃ s ∈ spans, Inside i s := by
  cases spans with
  | nil => rfl
  | cons s rest =>
    show (∃ g ∈ mergeFrom s rest, Inside i g) ↔ _
    induction rest generalizing s with
    | nil => rfl
    | cons t rest ih =>
      rw [mergeFrom]
      split
      · case isTrue hlt =>
        have hwiden : Inside i (s.1, max s.2 t.2) ↔ Inside i s ∨ Inside i t := by
          have hfills := (fills_singleton (hscan.nonempty s List.mem_cons_self)).insert
            (hscan.nonempty t (List.mem_cons_of_mem _ List.mem_cons_self))
            ⟨hscan.head_le t List.mem_cons_self, hlt⟩
          rw [hfills.inside]
          simp only [Set.mem_insert_iff, Set.mem_singleton_iff, exists_eq_or_imp, exists_eq_left]
          exact or_comm
        rw [ih _ hscan.widen]
        simp only [List.mem_cons, exists_eq_or_imp, hwiden, or_assoc]
      · have htail := ih t hscan.tail
        simp only [List.mem_cons, exists_eq_or_imp] at htail ⊢
        rw [htail]

end Mise.Lib
