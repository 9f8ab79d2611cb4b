/-
# Computations with fuel

A loop that may not end is given fuel, and stops in `spin` where that runs out.
`Steady` says that fuel is nothing but a bound: a result does not change with
more of it.  A computation is `Safe` if it ends and does not stop in `bad`,
whatever the fuel; `safe_andThen_iff` is the rule for sequences.
-/

import Mise.Lib.Fallible

namespace Mise.Lib

variable {ε α β : Type} {spin bad : ε} {run : ℕ → Except ε α} {rest : α → ℕ → Except ε β}

/-- More fuel does not change a result. -/
def Steady (spin : ε) (run : ℕ → Except ε α) : Prop :=
  ∀ fuel fuel', fuel ≤ fuel' → run fuel ≠ .error spin → run fuel' = run fuel

/-- The computation ends, and does not stop in `bad`. -/
def Safe (spin bad : ε) (run : ℕ → Except ε α) : Prop :=
  (∃ fuel, run fuel ≠ .error spin) ∧ ∀ fuel, run fuel ≠ .error bad

/-- One computation after another, with the same fuel. -/
def andThen (run : ℕ → Except ε α) (rest : α → ℕ → Except ε β) (fuel : ℕ) : Except ε β :=
  run fuel >>= fun a => rest a fuel

theorem andThen_of_ok {fuel : ℕ} {a : α} (h : run fuel = .ok a) :
    andThen run rest fuel = rest a fuel := by
  rw [andThen, h]
  rfl

theorem andThen_of_error {fuel : ℕ} {e : ε} (h : run fuel = .error e) :
    andThen run rest fuel = .error e := by
  rw [andThen, h]
  rfl

theorem steady_const (spin : ε) (r : Except ε α) : Steady spin fun _ => r :=
  fun _ _ _ _ => rfl

theorem safe_const_iff {r : Except ε α} :
    Safe spin bad (fun _ => r) ↔ r ≠ .error spin ∧ r ≠ .error bad :=
  ⟨fun h => ⟨h.1.choose_spec, h.2 0⟩, fun h => ⟨⟨0, h.1⟩, fun _ => h.2⟩⟩

theorem safe_ok (a : α) : Safe spin bad fun _ => .ok a :=
  safe_const_iff.2 ⟨fun h => (nomatch h), fun h => nomatch h⟩

/-- A result that was returned is returned with more fuel. -/
theorem Steady.ok_of_le (h : Steady spin run) {fuel fuel' : ℕ} {a : α}
    (hrun : run fuel = .ok a) (hle : fuel ≤ fuel') : run fuel' = .ok a := by
  have hne : run fuel ≠ .error spin := fun heq => by
    rw [hrun] at heq
    exact nomatch heq
  rw [h fuel fuel' hle hne, hrun]

theorem Steady.andThen (h : Steady spin run)
    (hrest : ∀ a fuel, run fuel = .ok a → Steady spin (rest a)) :
    Steady spin (andThen run rest) := by
  intro fuel fuel' hle hne
  cases hrun : run fuel with
  | error e =>
    rw [andThen_of_error hrun] at hne ⊢
    rw [andThen_of_error (h fuel fuel' hle (hrun ▸ fun heq => hne (by
      rw [Except.error.inj heq])) |>.trans hrun)]
  | ok a =>
    rw [andThen_of_ok hrun] at hne ⊢
    rw [andThen_of_ok (h.ok_of_le hrun hle)]
    exact hrest a fuel hrun fuel fuel' hle hne

/-- **A sequence is safe exactly where its first step is, and the rest is behind
every result of that.** -/
theorem safe_andThen_iff (hbad : bad ≠ spin) (h : Steady spin run)
    (hrest : ∀ a fuel, run fuel = .ok a → Steady spin (rest a)) :
    Safe spin bad (andThen run rest) ↔
      Safe spin bad run ∧ ∀ a fuel, run fuel = .ok a → Safe spin bad (rest a) := by
  constructor
  · rintro ⟨⟨fuel, hends⟩, hcalm⟩
    have hrun : run fuel ≠ .error spin := fun heq => hends (andThen_of_error heq)
    refine ⟨⟨⟨fuel, hrun⟩, fun n heq => hcalm n (andThen_of_error heq)⟩, fun a n hn => ?_⟩
    have hmax := h.ok_of_le hn (Nat.le_max_left n fuel)
    have hfuel : run fuel = .ok a := (h fuel _ (Nat.le_max_right n fuel) hrun).symm.trans hmax
    refine ⟨⟨fuel, fun heq => hends ((andThen_of_ok hfuel).trans heq)⟩, fun m heq => ?_⟩
    -- with enough fuel for both, the sequence stops where the rest does
    have hne : rest a m ≠ .error spin := fun hspin =>
      hbad (Except.error.inj (heq.symm.trans hspin))
    refine hcalm (max n m) ?_
    rw [andThen_of_ok (h.ok_of_le hn (Nat.le_max_left n m)),
      hrest a n hn m _ (Nat.le_max_right n m) hne, heq]
  · rintro ⟨⟨⟨fuel, hends⟩, hcalm⟩, hsafe⟩
    refine ⟨?_, fun n heq => ?_⟩
    · cases hrun : run fuel with
      | error e =>
        refine ⟨fuel, fun heq => hends ?_⟩
        rw [andThen_of_error hrun] at heq
        rw [hrun, Except.error.inj heq]
      | ok a =>
        obtain ⟨n, hn⟩ := (hsafe a fuel hrun).1
        refine ⟨max fuel n, fun heq => hn ?_⟩
        rw [andThen_of_ok (h.ok_of_le hrun (Nat.le_max_left fuel n))] at heq
        by_contra hne
        exact hne ((hrest a fuel hrun n _ (Nat.le_max_right fuel n) hne).symm.trans heq)
    · cases hrun : run n with
      | error e =>
        rw [andThen_of_error hrun] at heq
        exact hcalm n (by rw [hrun, Except.error.inj heq])
      | ok a =>
        rw [andThen_of_ok hrun] at heq
        exact (hsafe a n hrun).2 n heq

end Mise.Lib
