/-
# Worklists

A loop takes the last item off a stack, fails on it or makes outputs and further
items of it, and puts these on the stack.  The items it comes to do not depend
on the order of the stack: they are those `Reached` from the first ones.  A loop
that returns has made the outputs of all of them and no others
(`expand_of_run`, `mem_of_run`), it returns when none of them fails
(`run_eq_ok`), and it ends when no item is replaced for ever by ones below it
(`run_terminates`).
-/

import Mathlib.Data.List.Basic

namespace Mise.Lib.Worklist

variable {ι β ε : Type} (expand : ι → Except ε (List ι × List β))

/-- The loop over a stack, with its top first.  `none` when `turns` are not
enough. -/
def run : ℕ → List ι → Option (Except ε (List β))
  | _, [] => some (.ok [])
  | 0, _ :: _ => none
  | turns + 1, item :: work =>
    match expand item with
    | .error e => some (.error e)
    | .ok (children, out) =>
      (run turns (children.reverse ++ work)).map fun rest => rest.map (out ++ ·)

/-- The items a loop comes to from the items `work`. -/
inductive Reached (work : List ι) : ι → Prop
  | start {i} : i ∈ work → Reached work i
  | child {i j children out} :
      Reached work i → expand i = .ok (children, out) → j ∈ children → Reached work j

variable {expand} {work : List ι} {i j : ι} {children : List ι} {out : List β}

/-- What is reached from the items of the next turn was reached before. -/
theorem Reached.of_next (hi : expand i = .ok (children, out))
    (h : Reached expand (children.reverse ++ work) j) : Reached expand (i :: work) j := by
  induction h with
  | start hmem =>
    rcases List.mem_append.1 hmem with hchild | hwork
    · exact .child (.start List.mem_cons_self) hi (List.mem_reverse.1 hchild)
    · exact .start (List.mem_cons_of_mem i hwork)
  | child _ hexp hj ih => exact .child ih hexp hj

/-- What was reached is the item of this turn or reached from those of the next. -/
theorem Reached.next (hi : expand i = .ok (children, out))
    (h : Reached expand (i :: work) j) :
    j = i ∨ Reached expand (children.reverse ++ work) j := by
  induction h with
  | start hmem =>
    rcases List.mem_cons.1 hmem with rfl | hwork
    · exact .inl rfl
    · exact .inr (.start (List.mem_append_right _ hwork))
  | child _ hexp hj ih =>
    rcases ih with rfl | hnext
    · obtain ⟨rfl, rfl⟩ := Prod.mk.inj (Except.ok.inj (hi.symm.trans hexp))
      exact .inr (.start (List.mem_append_left _ (List.mem_reverse.2 hj)))
    · exact .inr (.child hnext hexp hj)

theorem not_reached_nil : ¬Reached expand [] j := by
  intro h
  generalize hnil : ([] : List ι) = work at h
  induction h with
  | start hmem => exact List.not_mem_nil (hnil ▸ hmem)
  | child _ _ _ ih => exact ih

/-- A turn that returns leaves its outputs and those of the rest. -/
theorem run_cons_eq_ok {turns : ℕ} {outs : List β} (hexp : expand i = .ok (children, out))
    (h : run expand (turns + 1) (i :: work) = some (.ok outs)) :
    ∃ rest, run expand turns (children.reverse ++ work) = some (.ok rest) ∧ outs = out ++ rest := by
  rw [run, hexp] at h
  obtain ⟨r, hrun, hr⟩ := Option.map_eq_some_iff.1 h
  cases r with
  | error e => nomatch hr
  | ok rest => exact ⟨rest, hrun, (Except.ok.inj hr).symm⟩

/-- **A loop that returns has failed on nothing it came to**, and returns all
the outputs. -/
theorem expand_of_run {turns : ℕ} {outs : List β}
    (h : run expand turns work = some (.ok outs)) (hj : Reached expand work j) :
    ∃ children out, expand j = .ok (children, out) ∧ out ⊆ outs := by
  induction turns, work using run.induct expand generalizing outs with
  | case1 => exact absurd hj not_reached_nil
  | case2 => nomatch h
  | case3 turns i work e hexp =>
    rw [run, hexp] at h
    nomatch h
  | case4 turns i work children out hexp ih =>
    obtain ⟨rest, hrun, rfl⟩ := run_cons_eq_ok hexp h
    rcases hj.next hexp with rfl | hnext
    · exact ⟨children, out, hexp, List.subset_append_left out rest⟩
    · obtain ⟨children', out', hexp', hsub⟩ := ih hrun hnext
      exact ⟨children', out', hexp', fun b hb => List.mem_append_right out (hsub hb)⟩

/-- **A loop returns only outputs of items it came to.** -/
theorem mem_of_run {turns : ℕ} {outs : List β}
    (h : run expand turns work = some (.ok outs)) {b : β} (hb : b ∈ outs) :
    ∃ i children out, Reached expand work i ∧ expand i = .ok (children, out) ∧ b ∈ out := by
  induction turns, work using run.induct expand generalizing outs with
  | case1 =>
    rw [run] at h
    obtain rfl := Except.ok.inj (Option.some.inj h)
    nomatch hb
  | case2 => nomatch h
  | case3 turns i work e hexp =>
    rw [run, hexp] at h
    nomatch h
  | case4 turns i work children out hexp ih =>
    obtain ⟨rest, hrun, rfl⟩ := run_cons_eq_ok hexp h
    rcases List.mem_append.1 hb with hout | hrest
    · exact ⟨i, children, out, .start List.mem_cons_self, hexp, hout⟩
    · obtain ⟨i', children', out', hreached, hexp', hb'⟩ := ih hrun hrest
      exact ⟨i', children', out', hreached.of_next hexp, hexp', hb'⟩

/-- A loop that fails on nothing it comes to does not fail. -/
theorem run_eq_ok {turns : ℕ} {result : Except ε (List β)}
    (h : run expand turns work = some result)
    (hall : ∀ i, Reached expand work i → ∃ r, expand i = .ok r) : ∃ outs, result = .ok outs := by
  induction turns, work using run.induct expand generalizing result with
  | case1 =>
    rw [run] at h
    exact ⟨[], (Option.some.inj h).symm⟩
  | case2 => nomatch h
  | case3 turns i work e hexp =>
    obtain ⟨r, hr⟩ := hall i (.start List.mem_cons_self)
    exact nomatch hexp.symm.trans hr
  | case4 turns i work children out hexp ih =>
    rw [run, hexp] at h
    obtain ⟨r, hrun, rfl⟩ := Option.map_eq_some_iff.1 h
    obtain ⟨rest, rfl⟩ := ih hrun fun j hj => hall j (hj.of_next hexp)
    exact ⟨out ++ rest, rfl⟩

/-- More turns change nothing. -/
theorem run_mono {turns more : ℕ} {result : Except ε (List β)}
    (h : run expand turns work = some result) (hle : turns ≤ more) :
    run expand more work = some result := by
  induction turns, work using run.induct expand generalizing result more with
  | case1 =>
    rw [run] at h ⊢
    exact h
  | case2 => nomatch h
  | case3 turns i work e hexp =>
    obtain ⟨more, rfl⟩ := Nat.exists_eq_add_of_le' (Nat.lt_of_lt_of_le turns.succ_pos hle)
    rw [run, hexp] at h ⊢
    exact h
  | case4 turns i work children out hexp ih =>
    obtain ⟨more, rfl⟩ := Nat.exists_eq_add_of_le' (Nat.lt_of_lt_of_le turns.succ_pos hle)
    rw [run, hexp] at h ⊢
    obtain ⟨r, hrun, rfl⟩ := Option.map_eq_some_iff.1 h
    exact Option.map_eq_some_iff.2 ⟨r, ih hrun (Nat.le_of_succ_le_succ hle), rfl⟩

/-- An item is one that another is replaced by. -/
def Below (expand : ι → Except ε (List ι × List β)) (j i : ι) : Prop :=
  ∃ children out, expand i = .ok (children, out) ∧ j ∈ children

/-- **A loop ends** when no item is replaced for ever by ones below it. -/
theorem run_terminates (hacc : ∀ i ∈ work, Acc (Below expand) i) :
    ∃ turns result, run expand turns work = some result := by
  induction work with
  | nil => exact ⟨0, .ok [], by rw [run]⟩
  | cons i work ih =>
    have hrest := ih fun j hj => hacc j (List.mem_cons_of_mem i hj)
    -- an item may be put on any stack whose loop ends
    have hpush : ∀ i, Acc (Below expand) i → ∀ work,
        (∃ turns result, run expand turns work = some result) →
        ∃ turns result, run expand turns (i :: work) = some result := by
      intro i hi
      induction hi with
      | intro i _ ihacc =>
        intro work hwork
        cases hexp : expand i with
        | error e => exact ⟨1, .error e, by rw [run, hexp]⟩
        | ok r =>
          obtain ⟨children, out⟩ := r
          have hchildren : ∀ l : List ι, l ⊆ children →
              ∃ turns result, run expand turns (l ++ work) = some result := by
            intro l hl
            induction l with
            | nil => exact hwork
            | cons j l ihl =>
              have hj : j ∈ children := hl List.mem_cons_self
              exact ihacc j ⟨children, out, hexp, hj⟩ _
                (ihl fun k hk => hl (List.mem_cons_of_mem j hk))
          obtain ⟨turns, result, hrun⟩ :=
            hchildren children.reverse fun j hj => List.mem_reverse.1 hj
          refine ⟨turns + 1, result.map (out ++ ·), ?_⟩
          rw [run, hexp]
          exact Option.map_eq_some_iff.2 ⟨result, hrun, rfl⟩
    exact hpush i (hacc i List.mem_cons_self) work hrest

end Mise.Lib.Worklist
