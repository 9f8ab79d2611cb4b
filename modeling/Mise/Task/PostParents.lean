/-
# Which tasks wait for the parents of a post subtree

`Deps::new` hands the parents of a post task on to its dependencies, and to
theirs, through a worklist of pairs of a task and a parent. Whatever the
dependencies, cyclic ones included, every pair is pending at most once, the
worklist runs empty, and a task has a parent exactly if it is a direct post
dependency of it or is reached from one through post tasks other than it.
-/

import Mathlib.Data.Finset.Prod
import Mise.Lib.Digraph
import Mise.Task.DepsBuild

namespace Mise

open Lib DiGraph Relation

section PostParents

variable {direct depEdges : List (TaskKey × TaskKey)}

/-- A dependency that the parent `p` is handed on to. -/
def HandsOn (depEdges : List (TaskKey × TaskKey)) (p a b : TaskKey) : Prop :=
  (a, b) ∈ depEdges ∧ b.phase = .post ∧ b ≠ p

/-- What one pair of a task and a parent makes pending. -/
def handedOn (depEdges : List (TaskKey × TaskKey)) (pair : TaskKey × TaskKey) :
    List (TaskKey × TaskKey) :=
  depEdges.filterMap fun e =>
    if e.1 = pair.1 ∧ e.2.phase = .post ∧ e.2 ≠ pair.2 then some (e.2, pair.2) else none

/-- One round of the worklist, over the parents found and the pairs pending. -/
def propagateRound (depEdges : List (TaskKey × TaskKey)) :
    List (TaskKey × TaskKey) × List (TaskKey × TaskKey) →
      List (TaskKey × TaskKey) × List (TaskKey × TaskKey)
  | (parents, []) => (parents, [])
  | (parents, pair :: pending) =>
    (handedOn depEdges pair).foldl addPostParent (parents, pending)

theorem mem_handedOn_iff {a b p q : TaskKey} :
    (b, q) ∈ handedOn depEdges (a, p) ↔ HandsOn depEdges p a b ∧ q = p := by
  rw [handedOn, List.mem_filterMap]
  constructor
  · rintro ⟨⟨x, y⟩, hmem, heq⟩
    split_ifs at heq with hif
    obtain ⟨rfl, hphase, hne⟩ := hif
    obtain ⟨rfl, rfl⟩ := Prod.mk.inj (Option.some.inj heq)
    exact ⟨⟨hmem, hphase, hne⟩, rfl⟩
  · rintro ⟨⟨hmem, hphase, hne⟩, rfl⟩
    exact ⟨(a, b), hmem, if_pos ⟨rfl, hphase, hne⟩⟩

/-- Adding a parent is queueing a pair. -/
theorem addPostParent_eq_enqueue : addPostParent = enqueue := by
  funext s e
  by_cases he : e ∈ s.1
  · rw [addPostParent, enqueue, if_pos he, if_pos he]
  · rw [addPostParent, enqueue, if_neg he, if_neg he, List.insert_of_not_mem he,
      @List.insert_of_not_mem _ instBEqOfDecidableEq _ _ _ he]

/-- The rounds are turns of a queue. -/
theorem propagateRound_eq_sweep (s : List (TaskKey × TaskKey) × List (TaskKey × TaskKey)) :
    propagateRound depEdges s = sweep (handedOn depEdges) s := by
  obtain ⟨parents, _ | ⟨pair, pending⟩⟩ := s
  · rfl
  · rw [propagateRound, sweep, addPostParent_eq_enqueue]

/-- The recursion over the rounds. -/
theorem propagatePostParents_eq_iterate (fuel : ℕ)
    (s : List (TaskKey × TaskKey) × List (TaskKey × TaskKey)) :
    propagatePostParents depEdges fuel s.1 s.2 = ((propagateRound depEdges)^[fuel] s).1 := by
  induction fuel generalizing s with
  | zero => rfl
  | succ fuel ih =>
    rw [Function.iterate_succ_apply]
    obtain ⟨parents, _ | ⟨⟨postKey, parent⟩, pending⟩⟩ := s
    · -- an empty worklist stays empty
      have hrest := ih (parents, [])
      rw [propagateRound, ← hrest]
      cases fuel <;> rfl
    · exact ih _

/-- Along the pairs only the task changes, each time to one handed the parent. -/
theorem reflTransGen_handedOn_iff {a b p q : TaskKey} :
    ReflTransGen (fun x y => y ∈ handedOn depEdges x) (a, p) (b, q) ↔
      q = p ∧ ReflTransGen (HandsOn depEdges p) a b := by
  constructor
  · intro h
    generalize hy : (b, q) = y at h
    induction h generalizing b q with
    | refl =>
      obtain ⟨rfl, rfl⟩ := Prod.mk.inj hy
      exact ⟨rfl, .refl⟩
    | @tail x y _ hxy ih =>
      subst hy
      obtain ⟨c, r⟩ := x
      obtain ⟨rfl, hac⟩ := ih rfl
      obtain ⟨hstep, rfl⟩ := mem_handedOn_iff.1 hxy
      exact ⟨rfl, hac.tail hstep⟩
  · rintro ⟨rfl, h⟩
    induction h with
    | refl => exact .refl
    | tail _ hstep ih => exact ih.tail (mem_handedOn_iff.2 ⟨hstep, rfl⟩)

/-- The tasks that are a post task, a parent or a dependency. -/
def postKeys (direct depEdges : List (TaskKey × TaskKey)) : Finset TaskKey :=
  (direct.map Prod.fst ++ direct.map Prod.snd ++ depEdges.map Prod.snd).toFinset

theorem mem_postKeys_iff {k : TaskKey} : k ∈ postKeys direct depEdges ↔
    (∃ e ∈ direct, e.1 = k ∨ e.2 = k) ∨ ∃ e ∈ depEdges, e.2 = k := by
  rw [postKeys, List.mem_toFinset, List.mem_append, List.mem_append, List.mem_map, List.mem_map,
    List.mem_map]
  constructor
  · rintro ((⟨e, he, h⟩ | ⟨e, he, h⟩) | h)
    · exact .inl ⟨e, he, .inl h⟩
    · exact .inl ⟨e, he, .inr h⟩
    · exact .inr h
  · rintro (⟨e, he, h | h⟩ | h)
    · exact .inl (.inl ⟨e, he, h⟩)
    · exact .inl (.inr ⟨e, he, h⟩)
    · exact .inr h

/-- After as many rounds as there are pairs of keys nothing is pending, and the
parents of a task are those it was handed. -/
theorem iterate_propagateRound_spec {fuel : ℕ}
    (hfuel : (postKeys direct depEdges).card * (postKeys direct depEdges).card ≤ fuel) :
    ((propagateRound depEdges)^[fuel] (direct.foldl addPostParent ([], []))).2 = [] ∧
      ∀ k p, (k, p) ∈ ((propagateRound depEdges)^[fuel] (direct.foldl addPostParent ([], []))).1 ↔
        ∃ k₀, (k₀, p) ∈ direct ∧ ReflTransGen (HandsOn depEdges p) k₀ k := by
  have hround : propagateRound depEdges = sweep (handedOn depEdges) :=
    funext propagateRound_eq_sweep
  have hcard : (postKeys direct depEdges ×ˢ postKeys direct depEdges).card ≤ fuel := by
    rwa [Finset.card_product]
  have hstarts : ∀ e ∈ direct, e ∈ postKeys direct depEdges ×ˢ postKeys direct depEdges :=
    fun e he => Finset.mem_product.2
      ⟨mem_postKeys_iff.2 (.inl ⟨e, he, .inl rfl⟩), mem_postKeys_iff.2 (.inl ⟨e, he, .inr rfl⟩)⟩
  have hnext : ∀ a ∈ postKeys direct depEdges ×ˢ postKeys direct depEdges,
      ∀ b ∈ handedOn depEdges a, b ∈ postKeys direct depEdges ×ˢ postKeys direct depEdges := by
    rintro ⟨k, p⟩ ha ⟨k', p'⟩ hb
    obtain ⟨⟨hedge, -⟩, rfl⟩ := mem_handedOn_iff.1 hb
    exact Finset.mem_product.2 ⟨mem_postKeys_iff.2 (.inr ⟨_, hedge, rfl⟩),
      (Finset.mem_product.1 ha).2⟩
  obtain ⟨hempty, hseen⟩ := iterate_sweep_spec hstarts hnext hcard
  rw [hround, addPostParent_eq_enqueue]
  refine ⟨hempty, fun k p => ?_⟩
  rw [hseen]
  constructor
  · rintro ⟨⟨k₀, q⟩, hmem, hreach⟩
    obtain ⟨rfl, hreach⟩ := reflTransGen_handedOn_iff.1 hreach
    exact ⟨k₀, hmem, hreach⟩
  · rintro ⟨k₀, hmem, hreach⟩
    exact ⟨(k₀, p), hmem, reflTransGen_handedOn_iff.2 ⟨rfl, hreach⟩⟩

/-- `post_dep_parents`, for every number of rounds from the number of pairs on. -/
theorem mem_propagatePostParents_iff {fuel : ℕ}
    (hfuel : (postKeys direct depEdges).card * (postKeys direct depEdges).card ≤ fuel)
    (k p : TaskKey) :
    (k, p) ∈ propagatePostParents depEdges fuel (direct.foldl addPostParent ([], [])).1
        (direct.foldl addPostParent ([], [])).2 ↔
      (k, p) ∈ direct ∨ ∃ k₀, (k₀, p) ∈ direct ∧ TransGen (HandsOn depEdges p) k₀ k := by
  rw [propagatePostParents_eq_iterate, (iterate_propagateRound_spec hfuel).2]
  constructor
  · rintro ⟨k₀, hk₀, hreach⟩
    rcases reflTransGen_iff_eq_or_transGen.1 hreach with rfl | hreach
    · exact .inl hk₀
    · exact .inr ⟨k₀, hk₀, hreach⟩
  · rintro (hk | ⟨k₀, hk₀, hreach⟩)
    · exact ⟨k, hk, .refl⟩
    · exact ⟨k₀, hk₀, hreach.to_reflTransGen⟩

/-- The rounds that `Deps::new` is given are enough. -/
theorem mem_postDepParentsOf_iff {nodeCount : ℕ}
    (hcount : (postKeys direct depEdges).card ≤ nodeCount) (k p : TaskKey) :
    (k, p) ∈ postDepParentsOf nodeCount direct depEdges ↔
      (k, p) ∈ direct ∨ ∃ k₀, (k₀, p) ∈ direct ∧ TransGen (HandsOn depEdges p) k₀ k :=
  mem_propagatePostParents_iff (Nat.le_succ_of_le (Nat.mul_le_mul hcount hcount)) k p

/-- **The worklist runs empty, and a task has a parent exactly if it is a direct
post dependency of it, or is reached from one through post tasks other than the
parent.** The last part is for the number of rounds that `Deps::new` is given. -/
theorem postDepParents_spec (direct depEdges : List (TaskKey × TaskKey)) :
    ∃ rounds,
      ((propagateRound depEdges)^[rounds] (direct.foldl addPostParent ([], []))).2 = [] ∧
      (∀ fuel, rounds ≤ fuel → ∀ k p,
        (k, p) ∈ propagatePostParents depEdges fuel (direct.foldl addPostParent ([], [])).1
            (direct.foldl addPostParent ([], [])).2 ↔
          (k, p) ∈ direct ∨ ∃ k₀, (k₀, p) ∈ direct ∧ TransGen (HandsOn depEdges p) k₀ k) ∧
      ∀ nodeCount, (postKeys direct depEdges).card ≤ nodeCount → ∀ k p,
        (k, p) ∈ postDepParentsOf nodeCount direct depEdges ↔
          (k, p) ∈ direct ∨ ∃ k₀, (k₀, p) ∈ direct ∧ TransGen (HandsOn depEdges p) k₀ k :=
  ⟨_, (iterate_propagateRound_spec le_rfl).1, fun _ hfuel => mem_propagatePostParents_iff hfuel,
    fun _ hcount => mem_postDepParentsOf_iff hcount⟩

end PostParents

end Mise
