/-
# The first element that satisfies a predicate

A loop that looks for an entry and changes it in place is `findIdx?` followed by
`modify`; `findIdx?_split` shows the list around the entry found.
-/

import Mathlib.Data.List.Basic

namespace Mise.Lib

variable {α : Type} {p : α → Bool} {l : List α} {i : ℕ}

/-- What is found stands after elements that do not match, and `modify` changes
it alone. -/
theorem findIdx?_split (h : l.findIdx? p = some i) :
    ∃ l₁ a l₂, l = l₁ ++ a :: l₂ ∧ p a ∧ (∀ b ∈ l₁, ¬p b) ∧
      ∀ f : α → α, l.modify i f = l₁ ++ f a :: l₂ := by
  obtain ⟨hi, ha, hbefore⟩ := List.findIdx?_eq_some_iff_getElem.1 h
  refine ⟨l.take i, l[i], l.drop (i + 1), ?_, ha, fun b hb => ?_, fun f => ?_⟩
  · rw [List.getElem_cons_drop hi, List.take_append_drop]
  · obtain ⟨j, hj, rfl⟩ := List.mem_take_iff_getElem.1 hb
    exact hbefore j (by omega)
  · rw [List.modify_eq_take_cons_drop hi]

end Mise.Lib
