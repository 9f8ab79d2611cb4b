/-
# The first occurrence of one text in another

`memmem` is the first position of a text at which a needle stands.  What stands
behind does not move an occurrence that is there (`memmem_append_of_some`), and
a symbol that the needle does not have parts the text into two that are searched
apart (`memmem_append_cons`).  `replaceFirst` replaces one occurrence,
`replaceAll` one after the other, going on behind each.
-/

import Mathlib.Data.List.Infix

namespace Mise.Lib

variable {α : Type*} [DecidableEq α]

/-- The first position of `hay` at which `needle` stands. -/
def memmem (hay needle : List α) : Option ℕ :=
  match hay with
  | [] => none
  | b :: hay => if needle <+: b :: hay then some 0 else (memmem hay needle).map (· + 1)

variable {hay needle rest value : List α} {nul : α} {i : ℕ}

theorem memmem_cons_of_pos {b : α} (h : needle <+: b :: hay) :
    memmem (b :: hay) needle = some 0 := if_pos h

theorem memmem_cons_of_neg {b : α} (h : ¬ needle <+: b :: hay) :
    memmem (b :: hay) needle = (memmem hay needle).map (· + 1) := if_neg h

/-- The needle stands where it is found. -/
theorem exists_append_of_memmem (h : memmem hay needle = some i) :
    ∃ before behind, hay = before ++ (needle ++ behind) ∧ before.length = i := by
  induction hay generalizing i with
  | nil => exact nomatch h
  | cons b hay ih =>
    by_cases hfront : needle <+: b :: hay
    · rw [memmem_cons_of_pos hfront] at h
      obtain ⟨behind, hbehind⟩ := hfront
      exact ⟨[], behind, hbehind.symm, Option.some.inj h⟩
    · rw [memmem_cons_of_neg hfront] at h
      obtain ⟨j, hj, rfl⟩ := Option.map_eq_some_iff.1 h
      obtain ⟨before, behind, rfl, rfl⟩ := ih hj
      exact ⟨b :: before, behind, rfl, rfl⟩

theorem prefix_drop_of_memmem (h : memmem hay needle = some i) : needle <+: hay.drop i := by
  obtain ⟨before, behind, rfl, rfl⟩ := exists_append_of_memmem h
  exact ⟨behind, (@List.drop_left _ before _).symm⟩

theorem add_length_le_of_memmem (h : memmem hay needle = some i) :
    i + needle.length ≤ hay.length := by
  obtain ⟨before, behind, rfl, rfl⟩ := exists_append_of_memmem h
  rw [List.length_append, List.length_append]
  omega

/-- **Nothing is found exactly where the needle does not occur.** -/
theorem memmem_eq_none_iff (hne : needle ≠ []) :
    memmem hay needle = none ↔ ¬ needle <:+: hay := by
  induction hay with
  | nil => exact iff_of_true rfl fun h => hne (List.infix_nil.1 h)
  | cons b hay ih =>
    rw [List.infix_cons_iff, not_or]
    by_cases hfront : needle <+: b :: hay
    · rw [memmem_cons_of_pos hfront]
      exact iff_of_false (Option.some_ne_none _) fun h => h.1 hfront
    · rw [memmem_cons_of_neg hfront, Option.map_eq_none_iff, ih]
      exact (and_iff_right hfront).symm

/-- What stands behind does not move an occurrence. -/
theorem memmem_append_of_some (h : memmem hay needle = some i) (rest : List α) :
    memmem (hay ++ rest) needle = some i := by
  induction hay generalizing i with
  | nil => exact nomatch h
  | cons b hay ih =>
    by_cases hfront : needle <+: b :: hay
    · rw [memmem_cons_of_pos hfront] at h
      rw [← h]
      exact memmem_cons_of_pos (hfront.trans (List.prefix_append _ rest))
    · have hle := add_length_le_of_memmem h
      have hfront' : ¬ needle <+: b :: (hay ++ rest) := fun hp => by
        refine hfront (List.prefix_of_prefix_length_le hp
          (List.prefix_append (b :: hay) rest) ?_)
        omega
      rw [memmem_cons_of_neg hfront] at h
      obtain ⟨j, hj, rfl⟩ := Option.map_eq_some_iff.1 h
      rw [List.cons_append, memmem_cons_of_neg hfront', ih hj, Option.map_some]

omit [DecidableEq α] in
/-- A prefix that does not have a symbol ends in front of it. -/
theorem prefix_of_prefix_append_cons {p : List α} (hnul : nul ∉ p)
    (h : p <+: hay ++ nul :: rest) : p <+: hay := by
  refine List.prefix_of_prefix_length_le h (List.prefix_append hay _) ?_
  by_contra hlt
  have hget : p[hay.length]? = some nul := by
    obtain ⟨t, ht⟩ := h
    have := congrArg (·[hay.length]?) ht
    rw [List.getElem?_append_left (by omega)] at this
    rw [this, List.getElem?_append_right le_rfl, Nat.sub_self, List.getElem?_cons_zero]
  exact hnul (List.mem_of_getElem? hget)

/-- **A symbol that the needle does not have parts a text into two that are
searched apart.** -/
theorem memmem_append_cons (hne : needle ≠ []) (hnul : nul ∉ needle)
    (h : memmem hay needle = none) (rest : List α) :
    memmem (hay ++ nul :: rest) needle = (memmem rest needle).map (· + (hay.length + 1)) := by
  induction hay with
  | nil =>
    have hfront : ¬ needle <+: nul :: rest := fun hp =>
      hne (List.prefix_nil.1 (@prefix_of_prefix_append_cons α [] rest nul needle hnul hp))
    rw [List.nil_append, memmem_cons_of_neg hfront, List.length_nil]
  | cons b hay ih =>
    have hfront : ¬ needle <+: b :: hay := fun hp => by
      rw [memmem_cons_of_pos hp] at h
      exact nomatch h
    have hfront' : ¬ needle <+: b :: (hay ++ nul :: rest) := fun hp =>
      hfront (@prefix_of_prefix_append_cons α (b :: hay) rest nul needle hnul hp)
    rw [memmem_cons_of_neg hfront, Option.map_eq_none_iff] at h
    rw [List.cons_append, memmem_cons_of_neg hfront', ih h, Option.map_map]
    rfl

/-- Symbols that the needle does not have are passed over. -/
theorem memmem_replicate_append (hne : needle ≠ []) (hnul : nul ∉ needle) (n : ℕ)
    (rest : List α) :
    memmem (List.replicate n nul ++ rest) needle = (memmem rest needle).map (· + n) := by
  induction n with
  | zero => exact Option.map_id'.symm
  | succ n ih =>
    have h := memmem_append_cons hne hnul (rfl : memmem [] needle = none)
      (List.replicate n nul ++ rest)
    rw [List.nil_append] at h
    rw [List.replicate_succ, List.cons_append, h, ih, Option.map_map]
    rfl

/-! ### Replacing -/

/-- The text with the first occurrence of the needle replaced. -/
def replaceFirst (needle value hay : List α) : List α :=
  match memmem hay needle with
  | none => hay
  | some i => hay.take i ++ value ++ hay.drop (i + needle.length)

/-- The text with the occurrences of the needle replaced, from the front, each
looked for behind the one before. -/
def replaceAll (hne : needle ≠ []) (value hay : List α) : List α :=
  match _ : memmem hay needle with
  | none => hay
  | some i => hay.take i ++ value ++ replaceAll hne value (hay.drop (i + needle.length))
termination_by hay.length
decreasing_by
  have hle := add_length_le_of_memmem ‹_›
  have hpos := List.length_pos_iff.2 hne
  rw [List.length_drop]
  omega

theorem replaceFirst_of_none (h : memmem hay needle = none) :
    replaceFirst needle value hay = hay := by
  rw [replaceFirst, h]

theorem replaceFirst_of_some (h : memmem hay needle = some i) :
    replaceFirst needle value hay = hay.take i ++ value ++ hay.drop (i + needle.length) := by
  rw [replaceFirst, h]

@[simp] theorem replaceFirst_nil : replaceFirst needle value [] = [] := rfl

omit [DecidableEq α] in
/-- What stands before an occurrence, the value, and symbols of either. -/
theorem splice_subset {rest : List α} (h : rest ⊆ hay ++ value) :
    hay.take i ++ value ++ rest ⊆ hay ++ value := by
  intro b hb
  rcases List.mem_append.1 hb with hb | hb
  · rcases List.mem_append.1 hb with hb | hb
    · exact List.mem_append_left _ (List.mem_of_mem_take hb)
    · exact List.mem_append_right _ hb
  · exact h hb

/-- No symbol comes in but with the value. -/
theorem replaceFirst_subset : replaceFirst needle value hay ⊆ hay ++ value := by
  cases h : memmem hay needle with
  | none =>
    rw [replaceFirst_of_none h]
    exact List.subset_append_left _ _
  | some i =>
    rw [replaceFirst_of_some h]
    exact splice_subset fun b hb => List.mem_append_left _ (List.mem_of_mem_drop hb)

theorem replaceAll_subset {hne : needle ≠ []} : replaceAll hne value hay ⊆ hay ++ value := by
  fun_induction replaceAll hne value hay with
  | case1 hay h => exact List.subset_append_left _ _
  | case2 hay i h ih =>
    refine splice_subset fun b hb => ?_
    rcases List.mem_append.1 (ih hb) with hb | hb
    · exact List.mem_append_left _ (List.mem_of_mem_drop hb)
    · exact List.mem_append_right _ hb

end Mise.Lib
