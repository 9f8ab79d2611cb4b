/-
# Loops whose steps each belong to one name

A loop that may fail, over items each of which leaves what the state shows at the
names that are not its own.  At every name such a loop is a loop over the items of
that name (`turns_of_foldlM`), whatever stands between them; so what two loops show
at a name agrees where the items of the name do (`Turns.eq`).
-/

import Mise.Lib.Fallible

namespace Mise.Lib

variable {σ ι γ ε : Type}

/-! ### Where a loop returns -/

/-- A loop that returns has made the turn of every item. -/
theorem foldlM_split {step : σ → ι → Except ε σ} {front rest : List ι} {x : ι} {s t : σ}
    (h : (front ++ x :: rest).foldlM step s = .ok t) :
    ∃ s₁ s₂, front.foldlM step s = .ok s₁ ∧ step s₁ x = .ok s₂ := by
  rw [List.foldlM_append] at h
  obtain ⟨s₁, hfront, h⟩ := bind_eq_ok h
  rw [List.foldlM_cons] at h
  obtain ⟨s₂, hx, -⟩ := bind_eq_ok h
  exact ⟨s₁, s₂, hfront, hx⟩

/-- A loop returns where no item fails in the state that it is met in. -/
theorem foldlM_eq_ok {step : σ → ι → Except ε σ} {l : List ι} {s : σ}
    (h : ∀ front x rest s', l = front ++ x :: rest → front.foldlM step s = .ok s' →
      ∃ s'', step s' x = .ok s'') :
    ∃ t, l.foldlM step s = .ok t := by
  induction l generalizing s with
  | nil => exact ⟨s, rfl⟩
  | cons x l ih =>
    obtain ⟨s', hx⟩ := h [] x l s rfl rfl
    obtain ⟨t, ht⟩ := @ih s' fun front y rest s₁ hl hfront => h (x :: front) y rest s₁
      (hl ▸ rfl) (by rw [List.foldlM_cons, hx]; exact hfront)
    exact ⟨t, by rw [List.foldlM_cons, hx]; exact ht⟩

/-! ### Turns -/

/-- A sequence of turns, one for each item. -/
inductive Turns (turn : γ → ι → γ → Prop) : γ → List ι → γ → Prop where
  | nil (v : γ) : Turns turn v [] v
  | cons {v u w : γ} {x : ι} {l : List ι} (head : turn v x u) (tail : Turns turn u l w) :
      Turns turn v (x :: l) w

namespace Turns

variable {turn : γ → ι → γ → Prop} {v w : γ} {l : List ι}

/-- The last turn. -/
theorem of_concat {x : ι} (h : Turns turn v (l ++ [x]) w) : ∃ u, turn u x w := by
  induction l generalizing v with
  | nil =>
    cases h with
    | cons head tail =>
      cases tail
      exact ⟨v, head⟩
  | cons y l ih =>
    cases h with
    | cons head tail => exact ih tail

/-- Turns that say what they lead to lead to one result. -/
theorem eq {w' : γ} (hdet : ∀ x ∈ l, ∀ v u u', turn v x u → turn v x u' → u = u')
    (h : Turns turn v l w) (h' : Turns turn v l w') : w = w' := by
  induction h with
  | nil v =>
    cases h'
    rfl
  | cons head tail ih =>
    cases h' with
    | cons head' tail' =>
      obtain rfl := hdet _ List.mem_cons_self _ _ _ head head'
      exact ih (fun x hx => hdet x (List.mem_cons_of_mem _ hx)) tail'

end Turns

/-- **A loop is, at every name, a loop over the name's own items.** -/
theorem turns_of_foldlM {step : σ → ι → Except ε σ} {Inv : σ → Prop} {view : σ → γ}
    {own : ι → Bool} {turn : γ → ι → γ → Prop} {l : List ι} {s t : σ}
    (hinv : ∀ x ∈ l, ∀ s s', Inv s → step s x = .ok s' → Inv s')
    (hframe : ∀ x ∈ l, own x = false → ∀ s s', step s x = .ok s' → view s' = view s)
    (hturn : ∀ x ∈ l, own x = true → ∀ s s', Inv s → step s x = .ok s' →
      turn (view s) x (view s'))
    (hs : Inv s) (h : l.foldlM step s = .ok t) :
    Inv t ∧ Turns turn (view s) (l.filter own) (view t) := by
  induction l generalizing s with
  | nil =>
    obtain rfl := Except.ok.inj h
    exact ⟨hs, .nil _⟩
  | cons x l ih =>
    rw [List.foldlM_cons] at h
    obtain ⟨s', hx, h⟩ := bind_eq_ok h
    have hs' := hinv x List.mem_cons_self s s' hs hx
    obtain ⟨ht, hturns⟩ := ih (fun y hy => hinv y (List.mem_cons_of_mem x hy))
      (fun y hy => hframe y (List.mem_cons_of_mem x hy))
      (fun y hy => hturn y (List.mem_cons_of_mem x hy)) hs' h
    refine ⟨ht, ?_⟩
    cases hown : own x with
    | true =>
      rw [List.filter_cons_of_pos hown]
      exact .cons (hturn x List.mem_cons_self hown s s' hs hx) hturns
    | false =>
      rw [List.filter_cons_of_neg (Bool.eq_false_iff.1 hown),
        ← hframe x List.mem_cons_self hown s s' hx]
      exact hturns

end Mise.Lib
