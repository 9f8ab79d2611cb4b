/-
# The last of the greatest elements

`Iterator::max_by` returns, of several greatest elements, the last.
-/

import Mathlib.Data.List.Induction
import Mathlib.Order.Lattice

namespace Mise.Lib

variable {α β : Type} [LinearOrder β]

/-- The last element of a list whose image is greatest. -/
def lastMax (f : α → β) (l : List α) : Option α :=
  l.foldl (fun best x => best.elim (some x) fun m => if f m ≤ f x then some x else some m) none

/-- Nothing before the element is greater, and everything after it is less. -/
def IsLastMax (f : α → β) (l : List α) (x : α) : Prop :=
  ∃ before after, l = before ++ x :: after ∧ (∀ a ∈ before, f a ≤ f x) ∧ ∀ a ∈ after, f a < f x

variable {f : α → β} {l : List α} {x y : α}

theorem IsLastMax.mem (h : IsLastMax f l x) : x ∈ l := by
  obtain ⟨before, after, rfl, -, -⟩ := h
  exact List.mem_append_right _ List.mem_cons_self

theorem IsLastMax.le (h : IsLastMax f l x) (hy : y ∈ l) : f y ≤ f x := by
  obtain ⟨before, after, rfl, hbefore, hafter⟩ := h
  rcases List.mem_append.1 hy with hy | hy
  · exact hbefore y hy
  · rcases List.mem_cons.1 hy with rfl | hy
    · exact le_rfl
    · exact (hafter y hy).le

/-- There is one such element. -/
theorem IsLastMax.unique (hx : IsLastMax f l x) (hy : IsLastMax f l y) : x = y := by
  obtain ⟨before, after, rfl, hbefore, hafter⟩ := hx
  obtain ⟨before', after', heq, hbefore', hafter'⟩ := hy
  rcases List.append_eq_append_iff.1 heq with ⟨mid, rfl, hmid⟩ | ⟨mid, rfl, hmid⟩
  · cases mid with
    | nil => exact (List.cons.inj hmid).1
    | cons a mid =>
      obtain ⟨rfl, rfl⟩ := List.cons.inj hmid
      have hlt := hafter y (List.mem_append_right _ List.mem_cons_self)
      exact absurd (hbefore' x (List.mem_append_right _ List.mem_cons_self)) hlt.not_ge
  · cases mid with
    | nil => exact (List.cons.inj hmid).1.symm
    | cons a mid =>
      obtain ⟨rfl, rfl⟩ := List.cons.inj hmid
      have hlt := hafter' x (List.mem_append_right _ List.mem_cons_self)
      exact absurd (hbefore y (List.mem_append_right _ List.mem_cons_self)) hlt.not_ge

/-- It is in the last part of a list, or above all of that. -/
theorem IsLastMax.of_append {r : List α} (h : IsLastMax f (l ++ r) x) :
    x ∈ r ∨ x ∈ l ∧ ∀ a ∈ r, f a < f x := by
  obtain ⟨before, after, heq, -, hafter⟩ := h
  rcases List.append_eq_append_iff.1 heq with ⟨mid, rfl, rfl⟩ | ⟨mid, rfl, hmid⟩
  · exact .inl (List.mem_append_right mid List.mem_cons_self)
  · cases mid with
    | nil =>
      rw [List.nil_append] at hmid
      exact .inl (hmid ▸ List.mem_cons_self)
    | cons a mid =>
      obtain ⟨rfl, rfl⟩ := List.cons.inj hmid
      exact .inr ⟨List.mem_append_right before List.mem_cons_self,
        fun a ha => hafter a (List.mem_append_right mid ha)⟩

/-- It stays where elements are left out but it is not. -/
theorem IsLastMax.filter {p : α → Bool} (h : IsLastMax f l x) (hx : p x = true) :
    IsLastMax f (l.filter p) x := by
  obtain ⟨before, after, rfl, hbefore, hafter⟩ := h
  refine ⟨before.filter p, after.filter p, ?_, fun a ha => hbefore a ((List.mem_filter.1 ha).1),
    fun a ha => hafter a ((List.mem_filter.1 ha).1)⟩
  rw [List.filter_append, List.filter_cons_of_pos hx]

theorem lastMax_concat : lastMax f (l ++ [x]) =
    (lastMax f l).elim (some x) fun m => if f m ≤ f x then some x else some m := by
  rw [lastMax, List.foldl_append]
  rfl

theorem lastMax_eq_none_iff : lastMax f l = none ↔ l = [] := by
  refine ⟨fun h => ?_, fun h => h ▸ rfl⟩
  induction l using List.reverseRecOn with
  | nil => rfl
  | append_singleton l x =>
    rw [lastMax_concat] at h
    cases hl : lastMax f l with
    | none => rw [hl] at h; exact nomatch h
    | some m =>
      rw [hl, Option.elim_some] at h
      split_ifs at h

theorem isLastMax_of_lastMax (h : lastMax f l = some x) : IsLastMax f l x := by
  induction l using List.reverseRecOn generalizing x with
  | nil => exact nomatch h
  | append_singleton l y ih =>
    rw [lastMax_concat] at h
    cases hl : lastMax f l with
    | none =>
      rw [hl, Option.elim_none] at h
      obtain rfl := Option.some.inj h
      rw [lastMax_eq_none_iff.1 hl]
      exact ⟨[], [], rfl, by simp, by simp⟩
    | some m =>
      rw [hl, Option.elim_some] at h
      split_ifs at h with hle
      · obtain rfl := Option.some.inj h
        exact ⟨l, [], rfl, fun a ha => ((ih hl).le ha).trans hle, by simp⟩
      · obtain rfl := Option.some.inj h
        obtain ⟨before, after, rfl, hbefore, hafter⟩ := ih hl
        refine ⟨before, after ++ [y], by simp, hbefore, fun a ha => ?_⟩
        rcases List.mem_append.1 ha with ha | ha
        · exact hafter a ha
        · exact List.mem_singleton.1 ha ▸ not_le.1 hle

theorem lastMax_eq_some_iff : lastMax f l = some x ↔ IsLastMax f l x := by
  refine ⟨isLastMax_of_lastMax, fun h => ?_⟩
  cases hl : lastMax f l with
  | none =>
    rw [lastMax_eq_none_iff.1 hl] at h
    exact absurd h.mem List.not_mem_nil
  | some y => rw [(isLastMax_of_lastMax hl).unique h]

/-- **Leaving out other elements does not change the result.** -/
theorem lastMax_filter {p : α → Bool} (h : ∀ x, lastMax f l = some x → p x = true) :
    lastMax f (l.filter p) = lastMax f l := by
  cases hl : lastMax f l with
  | none =>
    rw [lastMax_eq_none_iff] at hl ⊢
    rw [hl, List.filter_nil]
  | some x => exact lastMax_eq_some_iff.2 ((isLastMax_of_lastMax hl).filter (h x hl))

end Mise.Lib
