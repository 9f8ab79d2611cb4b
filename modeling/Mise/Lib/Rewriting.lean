/-
# Rewriting by one rule

The first occurrence of a needle is replaced by a value, then the first one of
what that gives, and so on until there is none.  This need not end, even if the
value does not hold the needle: `ab` to `bbaa`, from `aab`.
-/

import Mise.Lib.Memmem

namespace Mise.Lib

variable {α : Type*} [DecidableEq α] {needle value s s' : List α} {i : ℕ}

/-- `s` with the needle at `i` replaced. -/
def spliceAt (i : ℕ) (needle value s : List α) : List α :=
  s.take i ++ value ++ s.drop (i + needle.length)

/-- What rewriting from the front ends in. -/
inductive Rewrites (needle value : List α) : List α → List α → Prop
  | stop {s : List α} (h : memmem s needle = none) : Rewrites needle value s s
  | turn {s s' : List α} {i : ℕ} (h : memmem s needle = some i)
      (rest : Rewrites needle value (spliceAt i needle value s) s') : Rewrites needle value s s'

theorem Rewrites.unique {s₁ s₂ : List α} (h₁ : Rewrites needle value s s₁)
    (h₂ : Rewrites needle value s s₂) : s₁ = s₂ := by
  induction h₁ with
  | stop h =>
    cases h₂ with
    | stop _ => rfl
    | turn h' _ => exact nomatch h.symm.trans h'
  | turn h _ ih =>
    cases h₂ with
    | stop h' => exact nomatch h.symm.trans h'
    | turn h' rest =>
      obtain rfl := Option.some.inj (h.symm.trans h')
      exact ih rest

end Mise.Lib
