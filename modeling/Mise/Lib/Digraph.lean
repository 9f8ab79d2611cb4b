/-
# Finite directed graphs: cycles and worklists

Facts about a relation on a finite set of vertices that dependency graphs need:

* a vertex from which no cycle is reachable leads, within any finite set of
  such vertices, to one without a successor in the set (`exists_sink`);
* the vertices that a saturation process keeps adding, each once all its
  successors are there, are exactly those (`mem_iff_not_reachesCycle`);
* a depth-first worklist that pushes every vertex it has not seen finds
  exactly what is reachable by at least one step, if it is given one round for
  the start and one for every vertex (`mem_explore_iff`);
* a queue of vertices that queues every successor it has not seen runs empty
  and has then seen exactly what is reachable (`iterate_sweep_spec`).
-/

import Mathlib.Data.Finset.Card
import Mathlib.Data.Fintype.Sets
import Mathlib.Data.Fintype.EquivFin
import Mathlib.Logic.Relation
import Mathlib.Order.WellFounded

namespace Mise.Lib

open Relation

/-! ### Cycles -/

section Cycles

variable {α : Type} {r : α → α → Prop}

/-- Some cycle can be reached. -/
def ReachesCycle (r : α → α → Prop) (a : α) : Prop := ∃ c, ReflTransGen r a c ∧ TransGen r c c

theorem ReachesCycle.head {a b : α} (h : r a b) (hb : ReachesCycle r b) : ReachesCycle r a := by
  obtain ⟨c, hbc, hc⟩ := hb
  exact ⟨c, hbc.head h, hc⟩

/-- The first step towards a cycle. -/
theorem ReachesCycle.exists_step {a : α} (h : ReachesCycle r a) : ∃ b, r a b ∧ ReachesCycle r b := by
  obtain ⟨c, hac, hc⟩ := h
  rcases ReflTransGen.cases_head hac with rfl | ⟨b, hab, hbc⟩
  · obtain ⟨b, hab, hba⟩ := TransGen.head'_iff.1 hc
    exact ⟨b, hab, a, hba, hc⟩
  · exact ⟨b, hab, c, hbc, hc⟩

/-- A rank that rises along every edge leaves no cycle. -/
theorem not_transGen_self {β : Type} [Preorder β] (rank : α → β)
    (h : ∀ a b, r a b → rank a < rank b) (a : α) : ¬ TransGen r a a := by
  intro hcycle
  have hlt : TransGen (· < ·) (rank a) (rank a) := hcycle.lift rank h
  rw [transGen_eq_self] at hlt
  exact lt_irrefl _ hlt

/-- **A finite set that meets no cycle has a sink.** -/
theorem exists_sink {S : Finset α} (hne : S.Nonempty) (hac : ∀ a ∈ S, ¬ TransGen r a a) :
    ∃ a ∈ S, ∀ b ∈ S, ¬ r a b := by
  classical
  -- On the set itself, being strictly below is well founded: it is finite and has no cycle.
  let below : S → S → Prop := fun b a => TransGen r a.1 b.1
  have htrans : IsTrans S below := ⟨fun _ _ _ hab hbc => hbc.trans hab⟩
  have hirrefl : Std.Irrefl below := ⟨fun a h => hac a.1 a.2 h⟩
  have hwf : WellFounded below := Finite.wellFounded_of_trans_of_irrefl below
  obtain ⟨a₀, ha₀⟩ := hne
  obtain ⟨a, -, hmin⟩ := hwf.has_min Set.univ ⟨⟨a₀, ha₀⟩, trivial⟩
  exact ⟨a.1, a.2, fun b hb hab => hmin ⟨b, hb⟩ trivial (TransGen.single hab)⟩

/-- **Saturation finds the vertices that reach no cycle.**  Of a finite set of
vertices closed under `r`, let `good` hold some that lead only to good ones,
and every vertex whose successors are all good.  Then it holds exactly those
that reach no cycle. -/
theorem mem_iff_not_reachesCycle {V : Finset α} (good : α → Prop)
    (hV : ∀ a ∈ V, ∀ b, r a b → b ∈ V)
    (hsound : ∀ a ∈ V, good a → ¬ ReachesCycle r a)
    (hsat : ∀ a ∈ V, (∀ b, r a b → good b) → good a) {a : α} (ha : a ∈ V) :
    good a ↔ ¬ ReachesCycle r a := by
  classical
  refine ⟨hsound a ha, fun hreach => ?_⟩
  by_contra hbad
  -- A bad vertex has a bad successor, so the bad ones below `a` have no sink.
  let S := V.filter fun b => ¬ good b ∧ ¬ ReachesCycle r b
  have haS : a ∈ S := Finset.mem_filter.2 ⟨ha, hbad, hreach⟩
  have hac : ∀ b ∈ S, ¬ TransGen r b b := fun b hb hcyc =>
    (Finset.mem_filter.1 hb).2.2 ⟨b, ReflTransGen.refl, hcyc⟩
  obtain ⟨b, hb, hsink⟩ := exists_sink ⟨a, haS⟩ hac
  obtain ⟨hbV, hbbad, hbreach⟩ := Finset.mem_filter.1 hb
  refine hbbad (hsat b hbV fun c hbc => ?_)
  by_contra hc
  exact hsink c (Finset.mem_filter.2 ⟨hV b hbV c hbc, hc, fun h => hbreach (h.head hbc)⟩) hbc

end Cycles

/-! ### Iterating until nothing changes -/

section Saturate

variable {α : Type}

/-- Repeat a pass until it adds nothing, at most `fuel` times. -/
def saturate (pass : List α → List α) : ℕ → List α → List α
  | 0, s => s
  | fuel + 1, s => if (pass s).length = s.length then s else saturate pass fuel (pass s)

/-- **Enough rounds reach a fixed point**, for a pass that only adds, and adds
elements of a finite set without repetition. -/
theorem pass_saturate {pass : List α → List α} {V : Finset α} {P : List α → Prop}
    (hstep : ∀ s, P s → P (pass s) ∧ s <+: pass s)
    (hP : ∀ s, P s → s.Nodup ∧ ∀ a ∈ s, a ∈ V) (fuel : ℕ) {s : List α} (hs : P s)
    (hfuel : V.card < fuel + s.length) :
    P (saturate pass fuel s) ∧ pass (saturate pass fuel s) = saturate pass fuel s := by
  classical
  induction fuel generalizing s with
  | zero =>
      have hcard : s.length ≤ V.card := by
        rw [← List.toFinset_card_of_nodup (hP s hs).1]
        exact Finset.card_le_card fun a ha => (hP s hs).2 a (List.mem_toFinset.1 ha)
      omega
  | succ fuel ih =>
      obtain ⟨hs', hpre⟩ := hstep s hs
      rw [saturate]
      split_ifs with h
      · exact ⟨hs, (hpre.eq_of_length h.symm).symm⟩
      · have hlen := hpre.length_le
        exact ih hs' (by omega)

/-- What every pass preserves holds of the result. -/
theorem saturate_induction {pass : List α → List α} {P : List α → Prop}
    (hstep : ∀ s, P s → P (pass s)) (fuel : ℕ) {s : List α} (hs : P s) :
    P (saturate pass fuel s) := by
  induction fuel generalizing s with
  | zero => exact hs
  | succ fuel ih =>
      rw [saturate]
      split_ifs
      · exact hs
      · exact ih (hstep s hs)

/-- Behind a fixed point more rounds change nothing. -/
theorem saturate_eq_of_le {pass : List α → List α} {fuel fuel' : ℕ} {s : List α}
    (h : pass (saturate pass fuel s) = saturate pass fuel s) (hle : fuel ≤ fuel') :
    saturate pass fuel' s = saturate pass fuel s := by
  induction fuel generalizing fuel' s with
  | zero =>
    cases fuel' with
    | zero => rfl
    | succ fuel' => exact if_pos (congrArg List.length h)
  | succ fuel ih =>
    obtain ⟨fuel', rfl⟩ := Nat.exists_eq_add_of_le' hle
    rw [saturate] at h ⊢
    change saturate pass (fuel' + fuel + 1) s = _
    rw [saturate]
    split_ifs with hlen
    · rfl
    · rw [if_neg hlen] at h
      exact ih h (Nat.le_add_left fuel fuel')

end Saturate

/-! ### Edges -/

/-- Edges between indices are compared by their ends. -/
instance edgeLawfulBEq : LawfulBEq (ℕ × ℕ) := inferInstance

/-! ### A worklist -/

section Explore

variable {α : Type} [DecidableEq α]

/-- A vertex that was not seen is seen and pushed. -/
def visit (s : List α × List α) (x : α) : List α × List α :=
  if x ∈ s.1 then s else (s.1 ++ [x], x :: s.2)

/-- Pop a vertex and visit its successors until the stack is empty, at most
`fuel` times. -/
def explore (next : α → List α) : ℕ → List α → List α → List α
  | 0, seen, _ => seen
  | _ + 1, seen, [] => seen
  | fuel + 1, seen, x :: stack =>
      let s := (next x).foldl visit (seen, stack)
      explore next fuel s.1 s.2

/-- What visiting some vertices adds. -/
theorem foldl_visit_spec (l seen stack : List α) :
    ∃ new : List α, l.foldl visit (seen, stack) = (seen ++ new, new.reverse ++ stack) ∧
      new.Nodup ∧ (∀ y ∈ new, y ∈ l ∧ y ∉ seen) ∧ ∀ y ∈ l, y ∈ seen ++ new := by
  induction l generalizing seen stack with
  | nil => exact ⟨[], by simp⟩
  | cons x l ih =>
      rw [List.foldl_cons, visit]
      split_ifs with hx
      · obtain ⟨new, heq, hnd, hnew, hall⟩ := ih seen stack
        refine ⟨new, heq, hnd, fun y hy => ⟨List.mem_cons_of_mem _ (hnew y hy).1, (hnew y hy).2⟩,
          fun y hy => ?_⟩
        rcases List.mem_cons.1 hy with rfl | hy
        · exact List.mem_append_left _ hx
        · exact hall y hy
      · obtain ⟨new, heq, hnd, hnew, hall⟩ := ih (seen ++ [x]) (x :: stack)
        refine ⟨x :: new, by rw [heq]; simp, ?_, fun y hy => ?_, fun y hy => ?_⟩
        · refine List.nodup_cons.2 ⟨fun h => (hnew x h).2 ?_, hnd⟩
          exact List.mem_append_right _ (List.mem_singleton.2 rfl)
        · rcases List.mem_cons.1 hy with rfl | hy
          · exact ⟨List.mem_cons_self .., hx⟩
          · exact ⟨List.mem_cons_of_mem _ (hnew y hy).1,
              fun h => (hnew y hy).2 (List.mem_append_left _ h)⟩
        · rcases List.mem_cons.1 hy with rfl | hy
          · exact List.mem_append_right _ (List.mem_cons_self ..)
          · have := hall y hy
            rwa [List.append_assoc, List.singleton_append] at this

variable {next : α → List α} {start : α}

/-- What the worklist keeps true of the vertices seen and those on its stack. -/
structure Explored (next : α → List α) (start : α) (V : Finset α) (seen stack : List α) : Prop where
  nodup : seen.Nodup
  inside : ∀ y ∈ seen, y ∈ V
  reached : ∀ y ∈ seen, TransGen (fun a b => b ∈ next a) start y
  pending : ∀ x ∈ stack, x = start ∨ x ∈ seen
  closed : ∀ x, x = start ∨ x ∈ seen → x ∈ stack ∨ ∀ y ∈ next x, y ∈ seen

omit [DecidableEq α] in
/-- One round keeps it. -/
theorem Explored.step {V : Finset α} (hV : ∀ a, ∀ b ∈ next a, b ∈ V) {seen stack : List α} {x : α}
    (h : Explored next start V seen (x :: stack)) {new : List α} (hnd : new.Nodup)
    (hnew : ∀ y ∈ new, y ∈ next x ∧ y ∉ seen) (hall : ∀ y ∈ next x, y ∈ seen ++ new) :
    Explored next start V (seen ++ new) (new.reverse ++ stack) := by
  have hx := h.pending x (List.mem_cons_self ..)
  refine ⟨?_, fun y hy => ?_, fun y hy => ?_, fun y hy => ?_, fun y hy => ?_⟩
  · exact h.nodup.append hnd fun y hy hy' => (hnew y hy').2 hy
  · rcases List.mem_append.1 hy with hy | hy
    · exact h.inside y hy
    · exact hV x y (hnew y hy).1
  · rcases List.mem_append.1 hy with hy | hy
    · exact h.reached y hy
    · rcases hx with rfl | hx
      · exact TransGen.single (hnew y hy).1
      · exact (h.reached x hx).tail (hnew y hy).1
  · rcases List.mem_append.1 hy with hy | hy
    · exact Or.inr (List.mem_append_right _ (List.mem_reverse.1 hy))
    · rcases h.pending y (List.mem_cons_of_mem _ hy) with hy | hy
      · exact Or.inl hy
      · exact Or.inr (List.mem_append_left _ hy)
  · have hold : ∀ z, z = start ∨ z ∈ seen → z ∈ new.reverse ++ stack ∨ ∀ w ∈ next z, w ∈ seen ++ new := by
      intro z hz
      rcases h.closed z hz with hz | hz
      · rcases List.mem_cons.1 hz with rfl | hz
        · exact Or.inr hall
        · exact Or.inl (List.mem_append_right _ hz)
      · exact Or.inr fun w hw => List.mem_append_left _ (hz w hw)
    rcases hy with hy | hy
    · exact hold y (Or.inl hy)
    · rcases List.mem_append.1 hy with hy | hy
      · exact hold y (Or.inr hy)
      · exact Or.inl (List.mem_append_left _ (List.mem_reverse.2 hy))

/-- With enough rounds the stack runs empty. -/
theorem Explored.explore {V : Finset α} (hV : ∀ a, ∀ b ∈ next a, b ∈ V) (fuel : ℕ)
    {seen stack : List α} (h : Explored next start V seen stack)
    (hfuel : stack.length + V.card ≤ fuel + seen.length) :
    Explored next start V (explore next fuel seen stack) [] := by
  have hcard : ∀ {l : List α}, l.Nodup → (∀ y ∈ l, y ∈ V) → l.length ≤ V.card := by
    intro l hnd hl
    rw [← List.toFinset_card_of_nodup hnd]
    exact Finset.card_le_card fun a ha => hl a (List.mem_toFinset.1 ha)
  induction fuel generalizing seen stack with
  | zero =>
      have := hcard h.nodup h.inside
      obtain rfl : stack = [] := List.length_eq_zero_iff.1 (by omega)
      exact h
  | succ fuel ih =>
      cases stack with
      | nil => exact h
      | cons x stack =>
          obtain ⟨new, heq, hnd, hnew, hall⟩ := foldl_visit_spec (next x) seen stack
          rw [Lib.explore, heq]
          refine ih (h.step hV hnd hnew hall) ?_
          simp only [List.length_append, List.length_reverse, List.length_cons] at hfuel ⊢
          omega

/-- **The worklist finds exactly what can be reached in at least one step.** -/
theorem mem_explore_iff {V : Finset α} (hV : ∀ a, ∀ b ∈ next a, b ∈ V) {fuel : ℕ}
    (hfuel : V.card < fuel) {y : α} :
    y ∈ explore next fuel [] [start] ↔ TransGen (fun a b => b ∈ next a) start y := by
  have hinit : Explored next start V [] [start] :=
    ⟨List.nodup_nil, fun y hy => absurd hy List.not_mem_nil, fun y hy => absurd hy List.not_mem_nil,
      fun x hx => Or.inl (List.mem_singleton.1 hx),
      fun x hx => Or.inl (by simpa using hx)⟩
  have h := hinit.explore hV fuel (by simp only [List.length_singleton, List.length_nil]; omega)
  refine ⟨h.reached y, fun hy => ?_⟩
  induction hy with
  | single hy =>
      rcases h.closed start (Or.inl rfl) with hs | hs
      · exact absurd hs List.not_mem_nil
      · exact hs _ hy
  | tail _ hbc ih =>
      rcases h.closed _ (Or.inr ih) with hs | hs
      · exact absurd hs List.not_mem_nil
      · exact hs _ hbc

end Explore

/-! ### A queue -/

section Sweep

variable {α : Type} [DecidableEq α]

/-- A vertex that was not seen is seen and queued. -/
def enqueue (s : List α × List α) (x : α) : List α × List α :=
  if x ∈ s.1 then s else (s.1.insert x, s.2 ++ [x])

/-- One vertex is taken from the queue, and its successors are queued. -/
def sweep (next : α → List α) : List α × List α → List α × List α
  | (seen, []) => (seen, [])
  | (seen, x :: queue) => (next x).foldl enqueue (seen, queue)

variable {next : α → List α} {starts seen queue : List α}

/-- What the queue keeps true of the vertices seen and those in it. -/
structure Swept (next : α → List α) (starts seen queue : List α) : Prop where
  nodup : seen.Nodup
  reached : ∀ y ∈ seen, ∃ x ∈ starts, ReflTransGen (fun a b => b ∈ next a) x y
  queued : ∀ x ∈ queue, x ∈ seen
  closed : ∀ x ∈ seen, x ∈ queue ∨ ∀ y ∈ next x, y ∈ seen

/-- Queueing keeps what is seen, and adds as much to the one as to the other. -/
theorem foldl_enqueue_spec (l seen queue : List α) :
    (∀ y ∈ seen, y ∈ (l.foldl enqueue (seen, queue)).1) ∧
      (∀ y ∈ l, y ∈ (l.foldl enqueue (seen, queue)).1) ∧
      (∀ y ∈ queue, y ∈ (l.foldl enqueue (seen, queue)).2) ∧
      (∀ y ∈ (l.foldl enqueue (seen, queue)).1,
        y ∈ seen ∨ y ∈ l ∧ y ∈ (l.foldl enqueue (seen, queue)).2) ∧
      (∀ y ∈ (l.foldl enqueue (seen, queue)).2, y ∈ queue ∨
        y ∈ (l.foldl enqueue (seen, queue)).1) ∧
      (seen.Nodup → (l.foldl enqueue (seen, queue)).1.Nodup) ∧
      (l.foldl enqueue (seen, queue)).1.length + queue.length =
        (l.foldl enqueue (seen, queue)).2.length + seen.length := by
  induction l generalizing seen queue with
  | nil => exact ⟨fun _ h => h, nofun, fun _ h => h, fun _ h => .inl h, fun _ h => .inl h, id,
      Nat.add_comm _ _⟩
  | cons x l ih =>
    by_cases hx : x ∈ seen
    · have hstep : (x :: l).foldl enqueue (seen, queue) = l.foldl enqueue (seen, queue) := by
        rw [List.foldl_cons, enqueue, if_pos hx]
      rw [hstep]
      obtain ⟨hseen, hall, hqueue, hnew, hback, hnodup, hlength⟩ := ih seen queue
      refine ⟨hseen, List.forall_mem_cons.2 ⟨hseen x hx, hall⟩, hqueue, fun y hy => ?_, hback,
        hnodup, hlength⟩
      exact (hnew y hy).imp_right fun h => ⟨List.mem_cons_of_mem x h.1, h.2⟩
    · have hstep : (x :: l).foldl enqueue (seen, queue) =
          l.foldl enqueue (x :: seen, queue ++ [x]) := by
        rw [List.foldl_cons, enqueue, if_neg hx, List.insert_of_not_mem hx]
      rw [hstep]
      obtain ⟨hseen, hall, hqueue, hnew, hback, hnodup, hlength⟩ := ih (x :: seen) (queue ++ [x])
      have hxqueue := hqueue x (List.mem_append_right _ List.mem_cons_self)
      refine ⟨fun y hy => hseen y (List.mem_cons_of_mem x hy),
        List.forall_mem_cons.2 ⟨hseen x List.mem_cons_self, hall⟩,
        fun y hy => hqueue y (List.mem_append_left _ hy), fun y hy => ?_, fun y hy => ?_,
        fun h => hnodup (List.nodup_cons.2 ⟨hx, h⟩), ?_⟩
      · rcases hnew y hy with h | h
        · rcases List.mem_cons.1 h with rfl | h
          · exact .inr ⟨List.mem_cons_self, hxqueue⟩
          · exact .inl h
        · exact .inr ⟨List.mem_cons_of_mem x h.1, h.2⟩
      · rcases hback y hy with h | h
        · rcases List.mem_append.1 h with h | h
          · exact .inl h
          · exact .inr (List.mem_singleton.1 h ▸ hseen x List.mem_cons_self)
        · exact .inr h
      · rw [List.length_append, List.length_cons, List.length_cons, List.length_nil] at hlength
        omega

/-- The queue at the start. -/
theorem swept_start (next : α → List α) (starts : List α) :
    Swept next starts (starts.foldl enqueue ([], [])).1 (starts.foldl enqueue ([], [])).2 ∧
      ∀ x ∈ starts, x ∈ (starts.foldl enqueue ([], [])).1 := by
  obtain ⟨-, hall, -, hnew, hback, hnodup, -⟩ := foldl_enqueue_spec starts [] []
  refine ⟨⟨hnodup List.nodup_nil, fun y hy => ?_, fun x hx => ?_, fun x hx => ?_⟩, hall⟩
  · exact ⟨y, ((hnew y hy).resolve_left List.not_mem_nil).1, .refl⟩
  · exact (hback x hx).resolve_left List.not_mem_nil
  · exact .inl ((hnew x hx).resolve_left List.not_mem_nil).2

/-- One turn keeps it, sees no vertex less, and takes one more than it queues. -/
theorem Swept.sweep {x : α} (h : Swept next starts seen (x :: queue)) :
    Swept next starts (sweep next (seen, x :: queue)).1 (sweep next (seen, x :: queue)).2 ∧
      (∀ y ∈ seen, y ∈ (Lib.sweep next (seen, x :: queue)).1) ∧
      (Lib.sweep next (seen, x :: queue)).1.length + queue.length =
        (Lib.sweep next (seen, x :: queue)).2.length + seen.length := by
  obtain ⟨hseen, hall, hqueue, hnew, hback, hnodup, hlength⟩ :=
    foldl_enqueue_spec (next x) seen queue
  have hx := h.queued x List.mem_cons_self
  refine ⟨⟨hnodup h.nodup, fun y hy => ?_, fun y hy => ?_, fun y hy => ?_⟩, hseen, hlength⟩
  · rcases hnew y hy with hy | ⟨hy, -⟩
    · exact h.reached y hy
    · obtain ⟨s, hs, hsx⟩ := h.reached x hx
      exact ⟨s, hs, hsx.tail hy⟩
  · rcases hback y hy with hy | hy
    · exact hseen y (h.queued y (List.mem_cons_of_mem x hy))
    · exact hy
  · rcases hnew y hy with hy | ⟨-, hy⟩
    · rcases h.closed y hy with hy | hy
      · rcases List.mem_cons.1 hy with rfl | hy
        · exact .inr hall
        · exact .inl (hqueue y hy)
      · exact .inr fun z hz => hseen z (hy z hz)
    · exact .inl hy

/-- **With a turn for every vertex the queue runs empty, and what was seen is
exactly what can be reached.** -/
theorem iterate_sweep_spec {V : Finset α} (hstarts : ∀ x ∈ starts, x ∈ V)
    (hV : ∀ a ∈ V, ∀ b ∈ next a, b ∈ V) {fuel : ℕ} (hfuel : V.card ≤ fuel) :
    ((sweep next)^[fuel] (starts.foldl enqueue ([], []))).2 = [] ∧
      ∀ y, y ∈ ((sweep next)^[fuel] (starts.foldl enqueue ([], []))).1 ↔
        ∃ x ∈ starts, ReflTransGen (fun a b => b ∈ next a) x y := by
  have hreach : ∀ y, (∃ x ∈ starts, ReflTransGen (fun a b => b ∈ next a) x y) → y ∈ V := by
    rintro y ⟨x, hx, hxy⟩
    induction hxy with
    | refl => exact hstarts x hx
    | tail _ hbc ih => exact hV _ ih _ hbc
  -- after `n` turns the queue is empty, or `n` of the vertices seen were taken from it
  have hrun : ∀ n, ∃ seen queue,
      (sweep next)^[n] (starts.foldl enqueue ([], [])) = (seen, queue) ∧
        Swept next starts seen queue ∧ (∀ x ∈ starts, x ∈ seen) ∧
          (queue = [] ∨ seen.length = queue.length + n) := by
    intro n
    induction n with
    | zero =>
      obtain ⟨hswept, hall⟩ := swept_start next starts
      have hlength := (foldl_enqueue_spec starts [] []).2.2.2.2.2.2
      exact ⟨_, _, rfl, hswept, hall, .inr hlength⟩
    | succ n ih =>
      obtain ⟨seen, queue, heq, hswept, hall, hcount⟩ := ih
      rw [Function.iterate_succ_apply', heq]
      cases queue with
      | nil => exact ⟨seen, [], rfl, hswept, hall, .inl rfl⟩
      | cons x queue =>
        obtain ⟨hswept, hseen, hlength⟩ := hswept.sweep
        refine ⟨(sweep next (seen, x :: queue)).1, (sweep next (seen, x :: queue)).2, rfl, hswept,
          fun y hy => hseen y (hall y hy), .inr ?_⟩
        have hcount := hcount.resolve_left (List.cons_ne_nil x queue)
        rw [List.length_cons] at hcount
        omega
  obtain ⟨seen, queue, heq, hswept, hall, hcount⟩ := hrun fuel
  have hcard : seen.length ≤ V.card := by
    rw [← List.toFinset_card_of_nodup hswept.nodup]
    exact Finset.card_le_card fun y hy => hreach y (hswept.reached y (List.mem_toFinset.1 hy))
  obtain rfl : queue = [] := by
    rcases hcount with h | h
    · exact h
    · exact List.length_eq_zero_iff.1 (by omega)
  rw [heq]
  refine ⟨rfl, fun y => ⟨hswept.reached y, ?_⟩⟩
  rintro ⟨x, hx, hxy⟩
  induction hxy with
  | refl => exact hall x hx
  | tail _ hbc ih => exact (hswept.closed _ ih).resolve_left List.not_mem_nil _ hbc

end Sweep

end Mise.Lib
