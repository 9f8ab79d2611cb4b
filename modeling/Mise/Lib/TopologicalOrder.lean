/-
# Topological orders

An order of a finite set of vertices in which each comes behind those it has an
edge to.  Taking the vertices off one at a time, always one without edges left,
gives such an order, and there is no other exactly if there was never a choice:
with a single vertex to take, the orders of the set are those of the rest behind
it (`existsUnique_isOrder_of_sole`); with two, there are two orders
(`not_existsUnique_isOrder`).
-/

import Mathlib.Data.Finset.Card
import Mathlib.Data.Finset.Dedup
import Mathlib.Data.List.Chain
import Mise.Lib.Digraph

namespace Mise.Lib

open Relation

variable {α : Type} [DecidableEq α] {r : α → α → Prop} {S : Finset α} {a b : α} {l : List α}

/-- All vertices of the set once, each behind those it has an edge to. -/
structure IsOrder (r : α → α → Prop) (S : Finset α) (l : List α) : Prop where
  nodup : l.Nodup
  toFinset_eq : l.toFinset = S
  behind : l.Pairwise fun a b => ¬ r a b

/-- Only the edges within the set matter. -/
theorem IsOrder.congr {r' : α → α → Prop} (h : IsOrder r S l)
    (hr : ∀ a ∈ S, ∀ b ∈ S, r' a b → r a b) : IsOrder r' S l where
  nodup := h.nodup
  toFinset_eq := h.toFinset_eq
  behind := by
    refine h.behind.imp_of_mem fun {a b} ha hb hab hab' => hab ?_
    rw [← List.mem_toFinset, h.toFinset_eq] at ha hb
    exact hr a ha b hb hab'

theorem isOrder_congr {r' : α → α → Prop} (hr : ∀ a ∈ S, ∀ b ∈ S, (r a b ↔ r' a b)) :
    IsOrder r S l ↔ IsOrder r' S l :=
  ⟨fun h => h.congr fun a ha b hb => (hr a ha b hb).2,
    fun h => h.congr fun a ha b hb => (hr a ha b hb).1⟩

/-- A vertex of the set without an edge into it. -/
def IsLeaf (r : α → α → Prop) (S : Finset α) (a : α) : Prop := a ∈ S ∧ ∀ b ∈ S, ¬ r a b

theorem isOrder_empty_iff : IsOrder r ∅ l ↔ l = [] := by
  constructor
  · intro h
    exact List.toFinset_eq_empty_iff l |>.1 h.toFinset_eq
  · rintro rfl
    exact ⟨List.nodup_nil, rfl, .nil⟩

/-- The first vertex of an order is a leaf. -/
theorem IsOrder.isLeaf (hirrefl : ¬ r a a) (h : IsOrder r S (a :: l)) : IsLeaf r S a := by
  refine ⟨?_, fun b hb hab => ?_⟩
  · rw [← h.toFinset_eq]
    exact List.mem_toFinset.2 List.mem_cons_self
  · rw [← h.toFinset_eq, List.mem_toFinset] at hb
    obtain rfl | hb := List.mem_cons.1 hb
    · exact hirrefl hab
    · exact List.rel_of_pairwise_cons h.behind hb hab

theorem IsOrder.tail (h : IsOrder r S (a :: l)) : IsOrder r (S.erase a) l where
  nodup := h.nodup.of_cons
  toFinset_eq := by
    rw [← h.toFinset_eq, List.toFinset_cons, Finset.erase_insert]
    rw [List.mem_toFinset]
    exact (List.nodup_cons.1 h.nodup).1
  behind := h.behind.of_cons

/-- A leaf may come before any order of the rest. -/
theorem IsOrder.cons (ha : IsLeaf r S a) (h : IsOrder r (S.erase a) l) : IsOrder r S (a :: l) where
  nodup := by
    refine List.nodup_cons.2 ⟨fun hmem => ?_, h.nodup⟩
    rw [← List.mem_toFinset, h.toFinset_eq] at hmem
    exact Finset.notMem_erase a S hmem
  toFinset_eq := by rw [List.toFinset_cons, h.toFinset_eq, Finset.insert_erase ha.1]
  behind := by
    refine List.pairwise_cons.2 ⟨fun b hb => ?_, h.behind⟩
    rw [← List.mem_toFinset, h.toFinset_eq] at hb
    exact ha.2 b (Finset.mem_of_mem_erase hb)

omit [DecidableEq α] in
/-- What comes behind the head of a chain has one before it. -/
theorem exists_rel_of_isChain {R : α → α → Prop} (h : (a :: l).IsChain R) (hb : b ∈ l) :
    ∃ c ∈ a :: l, R c b := by
  induction l generalizing a with
  | nil => exact nomatch hb
  | cons c l ih =>
    obtain ⟨hac, hl⟩ := List.isChain_cons_cons.1 h
    obtain rfl | hb := List.mem_cons.1 hb
    · exact ⟨a, List.mem_cons_self, hac⟩
    · obtain ⟨d, hd, hdb⟩ := ih hl hb
      exact ⟨d, List.mem_cons_of_mem a hd, hdb⟩

section Acyclic

variable (hac : ∀ a, ¬ TransGen r a a)
include hac

omit [DecidableEq α] in
theorem exists_isLeaf (hne : S.Nonempty) : ∃ a, IsLeaf r S a :=
  exists_sink hne fun a _ => hac a

/-- **A finite set without a cycle has an order.** -/
theorem exists_isOrder (S : Finset α) : ∃ l, IsOrder r S l := by
  induction hcard : S.card generalizing S with
  | zero =>
    obtain rfl := Finset.card_eq_zero.1 hcard
    exact ⟨[], isOrder_empty_iff.2 rfl⟩
  | succ n ih =>
    have hne : S.Nonempty := Finset.card_pos.1 (by rw [hcard]; exact Nat.succ_pos n)
    obtain ⟨a, ha⟩ := exists_isLeaf hac hne
    obtain ⟨l, hl⟩ := ih (S.erase a) (by rw [Finset.card_erase_of_mem ha.1, hcard]; rfl)
    exact ⟨a :: l, hl.cons ha⟩

/-- **With a single leaf, the orders are those of the rest behind it.** -/
theorem existsUnique_isOrder_of_sole (ha : IsLeaf r S a) (hsole : ∀ b, IsLeaf r S b → b = a) :
    (∃! l, IsOrder r S l) ↔ ∃! l, IsOrder r (S.erase a) l := by
  have hcons : ∀ l, IsOrder r S l → ∃ l', l = a :: l' ∧ IsOrder r (S.erase a) l' := by
    intro l hl
    cases l with
    | nil =>
      have hempty := hl.toFinset_eq
      rw [List.toFinset_nil] at hempty
      rw [← hempty] at ha
      exact absurd ha.1 (Finset.notMem_empty a)
    | cons b l =>
      obtain rfl := hsole b (hl.isLeaf fun hbb => hac b (.single hbb))
      exact ⟨l, rfl, hl.tail⟩
  constructor
  · rintro ⟨l, hl, hunique⟩
    obtain ⟨l, rfl, hl'⟩ := hcons l hl
    refine ⟨l, hl', fun l' h' => ?_⟩
    exact (List.cons.inj (hunique _ (h'.cons ha))).2
  · rintro ⟨l, hl, hunique⟩
    refine ⟨a :: l, hl.cons ha, fun l' h' => ?_⟩
    obtain ⟨l', rfl, hrest⟩ := hcons l' h'
    rw [hunique l' hrest]

/-- **With two leaves there are two orders.** -/
theorem not_existsUnique_isOrder (ha : IsLeaf r S a) (hb : IsLeaf r S b) (hne : a ≠ b) :
    ¬ ∃! l, IsOrder r S l := by
  rintro ⟨l, -, hunique⟩
  obtain ⟨l₁, h₁⟩ := exists_isOrder hac (S.erase a)
  obtain ⟨l₂, h₂⟩ := exists_isOrder hac (S.erase b)
  have heq := (hunique _ (h₁.cons ha)).trans (hunique _ (h₂.cons hb)).symm
  exact hne (List.cons.inj heq).1

/-- **An order in which each vertex has an edge to the one before it is the only
one.** -/
theorem IsOrder.existsUnique (h : IsOrder r S l) (hchain : l.IsChain fun a b => r b a) :
    ∃! l, IsOrder r S l := by
  induction l generalizing S with
  | nil =>
    obtain rfl : ∅ = S := h.toFinset_eq
    exact ⟨[], h, fun l' h' => isOrder_empty_iff.1 h'⟩
  | cons a l ih =>
    have ha := h.isLeaf fun haa => hac a (.single haa)
    have hrest := ih h.tail hchain.of_cons
    refine (existsUnique_isOrder_of_sole hac ha fun b hb => ?_).2 hrest
    by_contra hne
    have hmem := hb.1
    rw [← h.toFinset_eq, List.mem_toFinset] at hmem
    obtain rfl | hmem := List.mem_cons.1 hmem
    · exact hne rfl
    · obtain ⟨c, hc, hcb⟩ := exists_rel_of_isChain hchain hmem
      refine hb.2 c ?_ hcb
      rwa [← h.toFinset_eq, List.mem_toFinset]

/-- At most one vertex has one order. -/
theorem existsUnique_isOrder_of_card_le_one (hS : S.card ≤ 1) : ∃! l, IsOrder r S l := by
  obtain ⟨l, hl⟩ := exists_isOrder hac S
  refine hl.existsUnique hac ?_
  have hlen : l.length ≤ 1 := by
    rwa [← List.toFinset_card_of_nodup hl.nodup, hl.toFinset_eq]
  match l, hlen with
  | [], _ => exact .nil
  | [a], _ => exact .singleton a

end Acyclic

end Mise.Lib
