/-
# Sorted maps and loops over them

`BTreeMap` is the standard library's sorted map with extensional equality.  The
lemmas below read its operations with equality of keys in place of comparison,
and `get_foldl` is the rule for a loop over a map whose turns each touch the
turn's own key.
-/

import Mathlib
import Mise.Lib.IndexMap

namespace Mise.Lib

open Std (TransOrd LawfulEqOrd ExtTreeMap)

/-- A map sorted by its keys. -/
abbrev BTreeMap (κ ν : Type) [Ord κ] := Std.ExtTreeMap κ ν compare

/-- A sorted set. -/
abbrev BTreeSet (κ : Type) [Ord κ] := Std.ExtTreeSet κ compare

namespace BTreeMap

variable {κ ν ν' σ γ : Type} [Ord κ] [TransOrd κ] [LawfulEqOrd κ] [DecidableEq κ]

theorem get_insert (m : BTreeMap κ ν) (a k : κ) (v : ν) :
    (m.insert a v)[k]? = if a = k then some v else m[k]? := by
  simp only [ExtTreeMap.getElem?_insert, Std.compare_eq_iff_eq]

theorem get_insertIfNew (m : BTreeMap κ ν) (a k : κ) (v : ν) :
    (m.insertIfNew a v)[k]? = m[k]?.or (if a = k then some v else none) := by
  simp only [ExtTreeMap.getElem?_insertIfNew, Std.compare_eq_iff_eq]
  by_cases ha : a = k
  · subst ha
    rw [if_pos rfl]
    cases hm : m[a]? with
    | none =>
      have hnew : a ∉ m := fun h => by
        have := ExtTreeMap.isSome_getElem?_iff_mem.2 h
        rw [hm] at this
        exact Bool.noConfusion this
      rw [if_pos ⟨rfl, hnew⟩, Option.none_or]
    | some w =>
      have hmem : a ∈ m := ExtTreeMap.isSome_getElem?_iff_mem.1 (hm ▸ rfl)
      rw [if_neg fun h => h.2 hmem, Option.some_or]
  · rw [if_neg fun h => ha h.1, if_neg ha, Option.or_none]

theorem get_alter (m : BTreeMap κ ν) (a k : κ) (f : Option ν → Option ν) :
    (m.alter a f)[k]? = if a = k then f m[k]? else m[k]? := by
  simp only [ExtTreeMap.getElem?_alter, Std.compare_eq_iff_eq]
  split
  · case isTrue h => rw [h]
  · rfl

omit [DecidableEq κ] [LawfulEqOrd κ] in
theorem nodup_map_fst_toList (m : BTreeMap κ ν) : (m.toList.map Prod.fst).Nodup := by
  rw [ExtTreeMap.map_fst_toList_eq_keys]
  exact ExtTreeMap.nodup_keys

omit [DecidableEq κ] in
theorem fst_mem_toList_iff (m : BTreeMap κ ν) (k : κ) :
    k ∈ m.toList.map Prod.fst ↔ m[k]?.isSome := by
  rw [ExtTreeMap.map_fst_toList_eq_keys, ExtTreeMap.mem_keys, ExtTreeMap.isSome_getElem?_iff_mem]

/-- **A loop over a map acts key by key**, when each turn reads and writes the
state at its own key alone. -/
theorem get_foldl (get : σ → κ → γ) (step : σ → κ → ν → σ) (f : κ → ν → γ → γ)
    (hstep : ∀ s a v k, get (step s a v) k = if a = k then f a v (get s k) else get s k)
    (m : BTreeMap κ ν) (s : σ) (k : κ) :
    get (m.foldl step s) k = m[k]?.elim (get s k) fun v => f k v (get s k) := by
  rw [ExtTreeMap.foldl_eq_foldl_toList]
  have hstep' : ∀ s (e : κ × ν) k,
      get (step s e.1 e.2) k = if e.1 = k then f e.1 e.2 (get s k) else get s k :=
    fun s e k => hstep s e.1 e.2 k
  cases hk : m[k]? with
  | some v =>
    have hmem := ExtTreeMap.mem_toList_iff_getElem?_eq_some.2 hk
    exact get_foldl_of_nodup get Prod.fst (fun s e => step s e.1 e.2) (fun e => f e.1 e.2) hstep'
      m.toList (nodup_map_fst_toList m) s hmem
  | none =>
    refine get_foldl_of_notMem get Prod.fst (fun s e => step s e.1 e.2) (fun e => f e.1 e.2) hstep'
      m.toList s k fun hmem => ?_
    rw [fst_mem_toList_iff, hk] at hmem
    exact Bool.noConfusion hmem

omit [DecidableEq κ] in
/-- A loop over a map keeps what each of its turns keeps. -/
theorem foldl_induction (P : σ → Prop) (step : σ → κ → ν → σ) {m : BTreeMap κ ν} {s : σ}
    (hs : P s) (hstep : ∀ s a v, m[a]? = some v → P s → P (step s a v)) : P (m.foldl step s) := by
  rw [ExtTreeMap.foldl_eq_foldl_toList]
  have hlist : ∀ (l : List (κ × ν)), (∀ e ∈ l, m[e.1]? = some e.2) → ∀ s, P s →
      P (l.foldl (fun s e => step s e.1 e.2) s) := by
    intro l
    induction l with
    | nil => exact fun _ s hs => hs
    | cons e l ih =>
      intro hl s hs
      refine ih (fun x hx => hl x (List.mem_cons_of_mem e hx)) _ ?_
      exact hstep s e.1 e.2 (hl e List.mem_cons_self) hs
  exact hlist m.toList (fun e he => ExtTreeMap.mem_toList_iff_getElem?_eq_some.1 he) s hs

/-- A map of pairs that agree where their keys do holds just these pairs. -/
theorem get_foldl_insert {l : List (κ × ν)}
    (hl : ∀ k v v', (k, v) ∈ l → (k, v') ∈ l → v = v') {k : κ} {v : ν} :
    (l.foldl (fun m e => m.insert e.1 e.2) (∅ : BTreeMap κ ν))[k]? = some v ↔ (k, v) ∈ l := by
  induction l using List.reverseRecOn generalizing v with
  | nil => simp
  | append_singleton l e ih =>
    rw [List.foldl_append, List.foldl_cons, List.foldl_nil, get_insert]
    have hl' : ∀ k v v', (k, v) ∈ l → (k, v') ∈ l → v = v' :=
      fun k v v' h h' => hl k v v' (List.mem_append_left _ h) (List.mem_append_left _ h')
    have hlast : e ∈ l ++ [e] := List.mem_append_right l List.mem_cons_self
    split
    · case isTrue heq =>
      subst heq
      constructor
      · intro h
        rwa [← Option.some.inj h]
      · exact fun h => congrArg some (hl e.1 e.2 v hlast h)
    · case isFalse hne =>
      rw [ih hl', List.mem_append, List.mem_singleton]
      refine ⟨.inl, fun h => h.resolve_right ?_⟩
      rintro rfl
      exact hne rfl

end BTreeMap

end Mise.Lib
