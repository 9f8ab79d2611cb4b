/-
# Kahn's algorithm

Every vertex counts what it still waits for, and those that wait for nothing stand in a
queue.  The front of the queue is put out and released from what waits for it, once for
each time that this names it; what then waits for nothing joins the queue.

`deps b` is what `b` waits for, `next a` what waits for `a`: lists, so that a vertex may be
named twice.  `Kahn.run_spec` says what is put out: the vertices that lead into no cycle,
each after all that it waits for.
-/

import Mise.Lib.Digraph
import Mathlib.Data.List.Nodup

namespace Mise.Lib

namespace Kahn

variable {α : Type} [DecidableEq α]

/-- The counts, the queue, and what has been put out. -/
structure State (α : Type) where
  incoming : α → ℕ
  ready : List α
  ordered : List α

/-- A vertex is released once. -/
def release (s : (α → ℕ) × List α) (b : α) : (α → ℕ) × List α :=
  let count := s.1 b - 1
  (Function.update s.1 b count, if count = 0 then s.2 ++ [b] else s.2)

/-- The front of the queue is put out. -/
def step (next : α → List α) (s : State α) : State α :=
  match s.ready with
  | [] => s
  | a :: rest =>
    let released := (next a).foldl release (s.incoming, rest)
    ⟨released.1, released.2, s.ordered ++ [a]⟩

/-- What the queue and the counts start from. -/
def start (deps : α → List α) (vertices : List α) : State α :=
  ⟨fun b => (deps b).length, vertices.filter fun b => (deps b).length = 0, []⟩

/-- All is put out that can be: at most every vertex once. -/
def run (deps next : α → List α) (vertices : List α) : State α :=
  (step next)^[vertices.length] (start deps vertices)

/-- What the releases of a list do, where none is released more often than it waits. -/
theorem foldl_release_spec (l : List α) (s : (α → ℕ) × List α) (h : ∀ b, l.count b ≤ s.1 b) :
    (∀ b, (l.foldl release s).1 b = s.1 b - l.count b) ∧
      ∃ fresh, (l.foldl release s).2 = s.2 ++ fresh ∧ fresh.Nodup ∧
        ∀ b, b ∈ fresh ↔ b ∈ l ∧ s.1 b = l.count b := by
  induction l generalizing s with
  | nil =>
    refine ⟨fun b => by simp, [], by simp, List.nodup_nil, fun b => ?_⟩
    simp
  | cons c l ih =>
    have hc : l.count c + 1 ≤ s.1 c := by
      have := h c
      rwa [List.count_cons_self] at this
    have hother : ∀ b, b ≠ c → (c :: l).count b = l.count b := fun b hb =>
      List.count_cons_of_ne (Ne.symm hb)
    have hold : ∀ b, (release s c).1 b = if b = c then s.1 c - 1 else s.1 b :=
      Function.update_apply s.1 c (s.1 c - 1)
    obtain ⟨hcounts, fresh, hqueue, hnodup, hfresh⟩ := ih (release s c) fun b => by
      rw [hold]
      by_cases hb : b = c
      · subst hb
        rw [if_pos rfl]
        omega
      · rw [if_neg hb, ← hother b hb]
        exact h b
    refine ⟨fun b => ?_, (if s.1 c - 1 = 0 then [c] else []) ++ fresh, ?_, ?_, fun b => ?_⟩
    · rw [List.foldl_cons, hcounts, hold]
      by_cases hb : b = c
      · subst hb
        rw [if_pos rfl, List.count_cons_self]
        omega
      · rw [if_neg hb, hother b hb]
    · rw [List.foldl_cons, hqueue, release]
      dsimp only
      split <;> simp
    · split
      · case isTrue hzero =>
        refine List.nodup_cons.2 ⟨fun hmem => ?_, hnodup⟩
        have hpos := List.count_pos_iff.2 ((hfresh c).1 hmem).1
        omega
      · exact hnodup
    · rw [List.mem_append, hfresh, hold, List.mem_cons]
      by_cases hb : b = c
      · subst hb
        rw [if_pos rfl, List.count_cons_self]
        have hpos : b ∈ l ↔ 0 < l.count b := List.count_pos_iff.symm
        constructor
        · rintro (hmem | ⟨hmem, heq⟩)
          · split at hmem
            · exact ⟨.inl rfl, by omega⟩
            · cases hmem
          · exact ⟨.inl rfl, by omega⟩
        · rintro ⟨-, heq⟩
          by_cases hmem : b ∈ l
          · exact .inr ⟨hmem, by omega⟩
          · rw [hpos] at hmem
            left
            rw [if_pos (by omega)]
            exact List.mem_singleton_self b
      · rw [if_neg hb, hother b hb]
        constructor
        · rintro (hmem | hmem)
          · split at hmem
            · exact absurd (List.mem_singleton.1 hmem) hb
            · cases hmem
          · exact ⟨.inr hmem.1, hmem.2⟩
        · rintro ⟨hmem, heq⟩
          exact .inr ⟨hmem.resolve_left hb, heq⟩

/-- Everything in a list comes after what it waits for. -/
def Before (deps : α → List α) (l : List α) : Prop :=
  ∀ l₁ b l₂, l = l₁ ++ b :: l₂ → ∀ a ∈ deps b, a ∈ l₁

omit [DecidableEq α] in
theorem before_nil (deps : α → List α) : Before deps [] := by
  intro l₁ b l₂ h
  simp at h

omit [DecidableEq α] in
theorem Before.concat {deps : α → List α} {l : List α} (h : Before deps l) {a : α}
    (ha : ∀ b ∈ deps a, b ∈ l) : Before deps (l ++ [a]) := by
  intro l₁ b l₂ heq
  rcases List.eq_nil_or_concat l₂ with rfl | ⟨l₂, c, rfl⟩
  · obtain ⟨rfl, hb⟩ := List.append_inj' heq rfl
    obtain rfl := List.singleton_inj.1 hb
    exact ha
  · rw [List.concat_eq_append, ← List.cons_append, ← List.append_assoc] at heq
    exact h l₁ b l₂ (List.append_inj' heq rfl).1

omit [DecidableEq α] in
theorem Before.of_append {deps : α → List α} {l l' : List α} (h : Before deps (l ++ l')) :
    Before deps l := by
  intro l₁ b l₂ heq
  refine h l₁ b (l₂ ++ l') ?_
  rw [heq, List.append_assoc, List.cons_append]

omit [DecidableEq α] in
/-- What comes after all that it waits for leads into no cycle. -/
theorem Before.not_reachesCycle {deps : α → List α} {l : List α} (h : Before deps l) :
    ∀ b ∈ l, ¬ ReachesCycle (fun b a => a ∈ deps b) b := by
  induction l using List.reverseRecOn with
  | nil => exact fun b hb => absurd hb List.not_mem_nil
  | append_singleton l a ih =>
    intro b hb hcycle
    rcases List.mem_append.1 hb with hb | hb
    · exact ih h.of_append b hb hcycle
    · obtain rfl := List.mem_singleton.1 hb
      obtain ⟨c, hc, hcycle⟩ := hcycle.exists_step
      exact ih h.of_append c (h l b [] rfl c hc) hcycle

section Run

variable {deps next : α → List α} {vertices : List α} {s : State α}

/-- What holds after each step. -/
structure Inv (deps : α → List α) (vertices : List α) (s : State α) : Prop where
  nodup : (s.ordered ++ s.ready).Nodup
  incoming : ∀ b ∈ vertices, s.incoming b = ((deps b).filter (· ∉ s.ordered)).length
  mem : ∀ b, b ∈ s.ordered ++ s.ready ↔ b ∈ vertices ∧ ∀ a ∈ deps b, a ∈ s.ordered
  before : Before deps s.ordered

theorem inv_start (hnodup : vertices.Nodup) : Inv deps vertices (start deps vertices) where
  nodup := by
    rw [start, List.nil_append]
    exact hnodup.filter _
  incoming b _ := by simp [start]
  mem b := by
    rw [start, List.nil_append, List.mem_filter]
    simp [List.eq_nil_iff_forall_not_mem]
  before := before_nil deps

/-- The counts after a vertex has been put out. -/
theorem length_filter_concat (l ordered : List α) {a : α} (ha : a ∉ ordered) :
    (l.filter (· ∉ ordered)).length =
      (l.filter (· ∉ ordered ++ [a])).length + l.count a := by
  induction l with
  | nil => simp
  | cons b l ih =>
    by_cases hb : b = a
    · subst hb
      simp only [List.filter_cons, List.count_cons_self]
      simp [ha] at ih ⊢
      omega
    · rw [List.count_cons_of_ne hb]
      by_cases hmem : b ∈ ordered
      · simpa [List.filter_cons, hmem] using ih
      · simp [hmem, hb] at ih ⊢
        omega

/-- A step puts out a ready vertex and lets go of those that waited for it alone. -/
theorem Inv.step (hnext : ∀ a b, b ∈ vertices → (next a).count b = (deps b).count a)
    (hmem : ∀ a, ∀ b ∈ next a, b ∈ vertices) (h : Inv deps vertices s) :
    Inv deps vertices (step next s) := by
  obtain ⟨incoming, ready, ordered⟩ := s
  cases ready with
  | nil => exact h
  | cons a rest =>
    have hincoming : ∀ b ∈ vertices, incoming b = ((deps b).filter (· ∉ ordered)).length :=
      h.incoming
    have ha : a ∉ ordered := fun hmem =>
      List.disjoint_of_nodup_append h.nodup hmem List.mem_cons_self
    have hwaits : ∀ b, b ∈ next a ↔ b ∈ vertices ∧ a ∈ deps b := fun b => by
      constructor
      · intro hb
        refine ⟨hmem a b hb, List.count_pos_iff.1 ?_⟩
        rw [← hnext a b (hmem a b hb)]
        exact List.count_pos_iff.2 hb
      · rintro ⟨hb, hab⟩
        refine List.count_pos_iff.1 ?_
        rw [hnext a b hb]
        exact List.count_pos_iff.2 hab
    have hcount : ∀ b, (next a).count b ≤ incoming b := fun b => by
      by_cases hb : b ∈ vertices
      · rw [hnext a b hb, hincoming b hb, length_filter_concat _ _ ha]
        exact Nat.le_add_left _ _
      · rw [List.count_eq_zero.2 fun hab => hb (hmem a b hab)]
        exact Nat.zero_le _
    obtain ⟨hcounts, fresh, hqueue, hfresh, hmemFresh⟩ :=
      foldl_release_spec (next a) (incoming, rest) hcount
    -- the fresh ones waited for `a` and for nothing else that is not put out
    have hfreshIff : ∀ b, b ∈ fresh ↔ b ∈ vertices ∧ a ∈ deps b ∧
        ∀ c ∈ deps b, c ∈ ordered ++ [a] := fun b => by
      rw [hmemFresh, hwaits, and_assoc]
      refine and_congr_right fun hb => and_congr_right fun hab => ?_
      rw [hnext a b hb]
      change incoming b = _ ↔ _
      rw [hincoming b hb, length_filter_concat _ _ ha, Nat.add_eq_right,
        List.length_eq_zero_iff, List.filter_eq_nil_iff]
      refine forall₂_congr fun c _ => ?_
      rw [decide_eq_true_eq, not_not]
    have hnotFresh : ∀ b ∈ ordered ++ a :: rest, b ∉ fresh := fun b hb hbfresh =>
      ha (((h.mem b).1 hb).2 a ((hfreshIff b).1 hbfresh).2.1)
    have hstep : step next ⟨incoming, a :: rest, ordered⟩ =
        ⟨((next a).foldl release (incoming, rest)).1, rest ++ fresh, ordered ++ [a]⟩ := by
      change State.mk _ ((next a).foldl release (incoming, rest)).2 _ = _
      rw [hqueue]
    have hsplit : (ordered ++ [a]) ++ (rest ++ fresh) = (ordered ++ a :: rest) ++ fresh := by
      simp
    rw [hstep]
    refine ⟨?_, fun b hb => ?_, fun b => ?_, ?_⟩
    · dsimp only
      rw [hsplit]
      exact h.nodup.append hfresh hnotFresh
    · dsimp only
      have := length_filter_concat (deps b) ordered ha
      rw [hcounts, hnext a b hb]
      change incoming b - _ = _
      rw [hincoming b hb]
      omega
    · dsimp only
      rw [hsplit, List.mem_append, h.mem b, hfreshIff]
      constructor
      · rintro (⟨hb, hdeps⟩ | ⟨hb, -, hdeps⟩)
        · exact ⟨hb, fun c hc => List.mem_append_left _ (hdeps c hc)⟩
        · exact ⟨hb, hdeps⟩
      · rintro ⟨hb, hdeps⟩
        by_cases hab : a ∈ deps b
        · exact .inr ⟨hb, hab, hdeps⟩
        · refine .inl ⟨hb, fun c hc => ?_⟩
          rcases List.mem_append.1 (hdeps c hc) with hc' | hc'
          · exact hc'
          · exact absurd (List.mem_singleton.1 hc' ▸ hc) hab
    · exact h.before.concat ((h.mem a).1 (by simp)).2

/-- After as many steps as there are vertices the queue is empty. -/
theorem iterate_step_spec (hnext : ∀ a b, b ∈ vertices → (next a).count b = (deps b).count a)
    (hmem : ∀ a, ∀ b ∈ next a, b ∈ vertices) (h : Inv deps vertices s) (n : ℕ) :
    Inv deps vertices ((Kahn.step next)^[n] s) ∧
      (((Kahn.step next)^[n] s).ready = [] ∨ n ≤ ((Kahn.step next)^[n] s).ordered.length) := by
  induction n with
  | zero => exact ⟨h, .inr (Nat.zero_le _)⟩
  | succ n ih =>
    obtain ⟨hinv, hdone⟩ := ih
    rw [Function.iterate_succ_apply']
    refine ⟨hinv.step hnext hmem, ?_⟩
    generalize (Kahn.step next)^[n] s = t at hinv hdone
    obtain ⟨incoming, ready, ordered⟩ := t
    cases ready with
    | nil => exact .inl rfl
    | cons a rest =>
      right
      have hlen : n ≤ ordered.length := hdone.resolve_left nofun
      simpa [Kahn.step] using hlen

/-- **What is put out**: the vertices that lead into no cycle, once each, every one after
all that it waits for; the others still wait. -/
theorem run_spec (hnodup : vertices.Nodup) (hdeps : ∀ b ∈ vertices, ∀ a ∈ deps b, a ∈ vertices)
    (hnext : ∀ a b, b ∈ vertices → (next a).count b = (deps b).count a)
    (hmem : ∀ a, ∀ b ∈ next a, b ∈ vertices) :
    (run deps next vertices).ordered.Nodup ∧
      Before deps (run deps next vertices).ordered ∧
      (∀ b, b ∈ (run deps next vertices).ordered ↔
        b ∈ vertices ∧ ¬ ReachesCycle (fun b a => a ∈ deps b) b) ∧
      ∀ b ∈ vertices, 0 < (run deps next vertices).incoming b ↔
        ReachesCycle (fun b a => a ∈ deps b) b := by
  have hstart : Inv deps vertices (start deps vertices) := inv_start hnodup
  obtain ⟨hinv, hdone⟩ := iterate_step_spec hnext hmem hstart vertices.length
  change Inv deps vertices (run deps next vertices) at hinv
  change (run deps next vertices).ready = [] ∨
    vertices.length ≤ (run deps next vertices).ordered.length at hdone
  generalize run deps next vertices = s at hinv hdone
  have hsub : s.ordered ++ s.ready ⊆ vertices := fun b hb => ((hinv.mem b).1 hb).1
  have hlen := (List.subperm_of_subset hinv.nodup hsub).length_le
  have hempty : s.ready = [] := by
    rcases hdone with hready | hfull
    · exact hready
    · rw [List.length_append] at hlen
      exact List.length_eq_zero_iff.1 (by omega)
  have hordered : ∀ b, b ∈ s.ordered ↔ b ∈ vertices ∧ ∀ a ∈ deps b, a ∈ s.ordered := by
    simpa [hempty] using hinv.mem
  have hgood : ∀ b ∈ vertices, b ∈ s.ordered ↔ ¬ ReachesCycle (fun b a => a ∈ deps b) b := by
    intro b hb
    refine mem_iff_not_reachesCycle (V := vertices.toFinset) (· ∈ s.ordered)
      (fun a ha c hc => ?_) (fun a _ ha => hinv.before.not_reachesCycle a ha)
      (fun a ha hall => ?_) (List.mem_toFinset.2 hb)
    · exact List.mem_toFinset.2 (hdeps a (List.mem_toFinset.1 ha) c hc)
    · exact (hordered a).2 ⟨List.mem_toFinset.1 ha, hall⟩
  have hnodupOrdered : s.ordered.Nodup := hinv.nodup.of_append_left
  refine ⟨hnodupOrdered, hinv.before, fun b => ?_, fun b hb => ?_⟩
  · constructor
    · intro h
      have hb := ((hordered b).1 h).1
      exact ⟨hb, (hgood b hb).1 h⟩
    · rintro ⟨hb, h⟩
      exact (hgood b hb).2 h
  · rw [hinv.incoming b hb, ← not_iff_not, ← hgood b hb, hordered, Nat.pos_iff_ne_zero, not_not,
      List.length_eq_zero_iff, List.filter_eq_nil_iff]
    simp [hb]

end Run

end Kahn

end Mise.Lib
