/-
# Traversals of ordered forests

`Laid children first roots l` says that `l` is the traversal of the forest over
`roots` in which the children of a node are `children`, in order, and a node comes
directly in front of everything below it where `first` holds, and directly behind
it elsewhere.  A traversal is made of blocks, one for a node and all below it, and
a node that gets other children only has another block (`Laid.block`).
-/

import Mathlib.Data.List.Nodup
import Mathlib.Logic.Relation

namespace Mise.Lib

open Relation

variable {α : Type} {children children' : α → List α} {first : α → Bool} {roots l : List α}

/-- A node and the traversal of all below it. -/
def block (first : α → Bool) (root : α) (below : List α) : List α :=
  if first root then root :: below else below ++ [root]

/-- The traversal of the forest over some roots. -/
inductive Laid (children : α → List α) (first : α → Bool) : List α → List α → Prop
  | nil : Laid children first [] []
  | cons {root : α} {roots below rest : List α} (hbelow : Laid children first (children root) below)
      (hrest : Laid children first roots rest) :
      Laid children first (root :: roots) (block first root below ++ rest)

theorem mem_block {root x : α} {below : List α} :
    x ∈ block first root below ↔ x = root ∨ x ∈ below := by
  rw [block]
  split
  · exact List.mem_cons
  · rw [List.mem_append, List.mem_singleton, or_comm]

theorem nodup_block {root : α} {below : List α} :
    (block first root below).Nodup ↔ root ∉ below ∧ below.Nodup := by
  rw [block]
  split
  · exact List.nodup_cons
  · exact (List.perm_append_singleton root below).nodup_iff.trans List.nodup_cons

/-- A leaf is its own traversal. -/
theorem block_nil (root : α) : block first root [] = [root] := by
  rw [block]
  split <;> rfl

/-- The traversals of two forests, one behind the other. -/
theorem Laid.append {roots' l' : List α} (h : Laid children first roots l)
    (h' : Laid children first roots' l') : Laid children first (roots ++ roots') (l ++ l') := by
  induction h with
  | nil => exact h'
  | cons hbelow _ _ ih =>
    rw [List.cons_append, List.append_assoc]
    exact .cons hbelow ih

/-- A forest without children is its own traversal. -/
theorem laid_of_children_eq_nil (h : ∀ x ∈ l, children x = []) : Laid children first l l := by
  induction l with
  | nil => exact .nil
  | cons x l ih =>
    have hleaf : Laid children first (children x) [] := by
      rw [h x List.mem_cons_self]
      exact .nil
    have hlaid := Laid.cons hleaf (ih fun y hy => h y (List.mem_cons_of_mem x hy))
    rw [block_nil] at hlaid
    exact hlaid

/-- The children of the nodes of a traversal make it. -/
theorem Laid.congr (h : Laid children first roots l) (heq : ∀ x ∈ l, children' x = children x) :
    Laid children' first roots l := by
  induction h with
  | nil => exact .nil
  | @cons root roots below rest _ _ ihbelow ihrest =>
    refine .cons ?_ (ihrest fun x hx => heq x (List.mem_append_right _ hx))
    rw [heq root (List.mem_append_left _ (mem_block.2 (.inl rfl)))]
    exact ihbelow fun x hx => heq x (List.mem_append_left _ (mem_block.2 (.inr hx)))

/-- **The nodes of a traversal** are those that are reached from its roots. -/
theorem Laid.mem_iff (h : Laid children first roots l) {y : α} :
    y ∈ l ↔ ∃ root ∈ roots, ReflTransGen (fun a b => b ∈ children a) root y := by
  induction h with
  | nil => exact ⟨fun h => (nomatch h), fun ⟨_, h, _⟩ => nomatch h⟩
  | @cons root roots below rest _ _ ihbelow ihrest =>
    have hroot : y ∈ block first root below ↔
        ReflTransGen (fun a b => b ∈ children a) root y := by
      rw [mem_block, ihbelow, ReflTransGen.cases_head_iff, eq_comm]
    rw [List.mem_append, hroot, ihrest]
    simp only [List.mem_cons, or_and_right, exists_or, exists_eq_left]

/-- What lies below a node. -/
theorem Laid.mem_iff_transGen {x y : α} (h : Laid children first (children x) l) :
    y ∈ l ↔ TransGen (fun a b => b ∈ children a) x y := by
  rw [h.mem_iff, TransGen.head'_iff]

/-- **A node that gets other children only has another block.** -/
theorem Laid.block (h : Laid children first roots l) (hl : l.Nodup) {x : α} (hx : x ∈ l) :
    ∃ before below after, l = before ++ block first x below ++ after ∧
      Laid children first (children x) below ∧
      ∀ children' : α → List α, (∀ y, y ≠ x → children' y = children y) →
        ∀ below', Laid children' first (children' x) below' →
          Laid children' first roots (before ++ Lib.block first x below' ++ after) := by
  induction h with
  | nil => exact nomatch hx
  | @cons root roots below rest hbelow hrest ihbelow ihrest =>
    obtain ⟨hblock, hnodup, hdisjoint⟩ := List.nodup_append'.1 hl
    obtain ⟨hroot, hnodupBelow⟩ := nodup_block.1 hblock
    by_cases hxrest : x ∈ rest
    · -- the node lies in the traversal of a later root
      obtain ⟨before, below', after, rfl, hlaid, hother⟩ := ihrest hnodup hxrest
      refine ⟨Lib.block first root below ++ before, below', after, by
        simp only [List.append_assoc], hlaid, fun children' heq below'' hlaid' => ?_⟩
      have hfar : ∀ y ∈ Lib.block first root below, children' y = children y := by
        intro y hy
        refine heq y fun h => ?_
        subst h
        exact hdisjoint hy hxrest
      have hroots := hother children' heq below'' hlaid'
      rw [List.append_assoc, List.append_assoc, ← List.append_assoc before]
      refine .cons ?_ hroots
      rw [hfar root (mem_block.2 (.inl rfl))]
      exact hbelow.congr fun y hy => hfar y (mem_block.2 (.inr hy))
    have hlater : ∀ children' : α → List α, (∀ y, y ≠ x → children' y = children y) →
        Laid children' first roots rest := fun children' heq =>
      hrest.congr fun y hy => heq y fun h => hxrest (h ▸ hy)
    rcases mem_block.1 ((List.mem_append.1 hx).resolve_right hxrest) with rfl | hxbelow
    · -- the node is the root
      refine ⟨[], below, rest, rfl, hbelow, fun children' heq below' hlaid => ?_⟩
      exact .cons hlaid (hlater children' heq)
    · -- the node lies below the root
      obtain ⟨before, below', after, rfl, hlaid, hother⟩ := ihbelow hnodupBelow hxbelow
      have hne : root ≠ x := fun h => hroot (h ▸ hxbelow)
      have hsplit : ∀ b : List α, Lib.block first root (before ++ b ++ after) =
          (if first root then root :: before else before) ++ b ++
            (if first root then after else after ++ [root]) := by
        intro b
        rw [Lib.block]
        split
        · simp only [List.cons_append]
        · simp only [List.append_assoc]
      refine ⟨if first root then root :: before else before, below',
        (if first root then after else after ++ [root]) ++ rest, ?_, hlaid,
        fun children' heq below'' hlaid' => ?_⟩
      · rw [hsplit, List.append_assoc _ _ rest]
      · rw [← List.append_assoc, ← hsplit]
        refine .cons ?_ (hlater children' heq)
        rw [heq root hne]
        exact hother children' heq below'' hlaid'

/-- **A leaf is added** behind the other children of a node. -/
theorem Laid.snoc {x leaf : α} {below : List α} (h : Laid children first (children x) below)
    (hx : x ∉ below) (hleaf : children leaf = []) (hne : leaf ≠ x)
    (heq : ∀ y, y ≠ x → children' y = children y) (hx' : children' x = children x ++ [leaf]) :
    Laid children' first (children' x) (below ++ [leaf]) := by
  rw [hx']
  refine (h.congr fun y hy => heq y fun hyx => hx (hyx ▸ hy)).append ?_
  refine laid_of_children_eq_nil fun y hy => ?_
  rw [List.mem_singleton.1 hy, heq leaf hne, hleaf]

end Mise.Lib
