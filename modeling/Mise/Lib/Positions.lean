/-
# Where a list has a property

The positions of the entries that have a property, counted from the front.  A
list with two marks, and no others, is told apart from its parts by these
positions alone.
-/

import Mathlib.Data.List.Basic

namespace Mise.Lib

variable {α β : Type} {p : α → Bool}

/-- The positions of the entries for which `p` holds, counted from `k`. -/
def positionsFrom (p : α → Bool) (k : ℕ) (l : List α) : List ℕ :=
  ((l.zipIdx k).filter fun x => p x.1).map Prod.snd

/-- The positions of the entries for which `p` holds. -/
def positions (p : α → Bool) (l : List α) : List ℕ := positionsFrom p 0 l

theorem positionsFrom_cons (p : α → Bool) (k : ℕ) (a : α) (l : List α) :
    positionsFrom p k (a :: l) =
      (if p a then [k] else []) ++ positionsFrom p (k + 1) l := by
  rw [positionsFrom, List.zipIdx_cons, List.filter_cons]
  cases p a <;> rfl

theorem positionsFrom_append (p : α → Bool) (k : ℕ) (a b : List α) :
    positionsFrom p k (a ++ b) = positionsFrom p k a ++ positionsFrom p (k + a.length) b := by
  rw [positionsFrom, List.zipIdx_append, List.filter_append, List.map_append]
  rfl

/-- No position without an entry. -/
theorem positionsFrom_eq_nil {k : ℕ} {l : List α} :
    positionsFrom p k l = [] ↔ ∀ a ∈ l, p a = false := by
  induction l generalizing k with
  | nil => exact ⟨fun _ a ha => (nomatch ha), fun _ => rfl⟩
  | cons a l ih =>
    rw [positionsFrom_cons, List.append_eq_nil_iff, ih, List.forall_mem_cons]
    refine and_congr_left fun _ => ?_
    cases p a <;> simp

theorem mem_positionsFrom {k i : ℕ} {l : List α} (hi : i ∈ positionsFrom p k l) :
    ∃ a b x, l = a ++ x :: b ∧ i = k + a.length ∧ p x = true := by
  induction l generalizing k with
  | nil => exact absurd hi List.not_mem_nil
  | cons y l ih =>
    rw [positionsFrom_cons, List.mem_append] at hi
    rcases hi with hi | hi
    · split at hi
      · case isTrue hy => exact ⟨[], l, y, rfl, List.mem_singleton.1 hi, hy⟩
      · exact absurd hi List.not_mem_nil
    · obtain ⟨a, b, x, rfl, rfl, hx⟩ := ih hi
      refine ⟨y :: a, b, x, rfl, ?_, hx⟩
      rw [List.length_cons]
      omega

/-- The positions of two entries, where the others do not have the property. -/
theorem positions_two {before content after : List α} {first last : α}
    (hbefore : ∀ a ∈ before, p a = false) (hcontent : ∀ a ∈ content, p a = false)
    (hafter : ∀ a ∈ after, p a = false) :
    positions p (before ++ first :: (content ++ last :: after)) =
      (if p first then [before.length] else []) ++
        (if p last then [before.length + 1 + content.length] else []) := by
  rw [positions, positionsFrom_append, positionsFrom_eq_nil.2 hbefore, List.nil_append,
    positionsFrom_cons, positionsFrom_append, positionsFrom_eq_nil.2 hcontent, List.nil_append,
    positionsFrom_cons, positionsFrom_eq_nil.2 hafter, List.append_nil, Nat.zero_add]

/-- Only one of two entries is at the only position. -/
theorem one_of_two {c d : Bool} {i j k : ℕ}
    (h : (if c then [i] else []) ++ (if d then [j] else []) = [k]) :
    c = true ∧ d = false ∧ i = k ∨ c = false ∧ d = true ∧ j = k := by
  cases c with
  | false =>
    cases d with
    | false => nomatch h
    | true => exact .inr ⟨rfl, rfl, (List.cons.inj h).1⟩
  | true =>
    cases d with
    | false => exact .inl ⟨rfl, rfl, (List.cons.inj h).1⟩
    | true => nomatch (List.cons.inj h).2

/-- The parts around the only position. -/
theorem positionsFrom_eq_singleton {k i : ℕ} {before after : List α} {a : α} (ha : p a = true)
    (h : positionsFrom p k (before ++ a :: after) = [i]) :
    (∀ x ∈ before, p x = false) ∧ ∀ x ∈ after, p x = false := by
  rw [positionsFrom_append, positionsFrom_cons, if_pos ha] at h
  have hlen := congrArg List.length h
  rw [List.length_append, List.length_append, List.length_singleton, List.length_singleton] at hlen
  have hbefore : (positionsFrom p k before).length = 0 := by omega
  have hafter : (positionsFrom p (k + before.length + 1) after).length = 0 := by omega
  exact ⟨positionsFrom_eq_nil.1 (List.length_eq_zero_iff.1 hbefore),
    positionsFrom_eq_nil.1 (List.length_eq_zero_iff.1 hafter)⟩

/-- **Two marks.**  Where one entry has the first property and a later one the second, and no
others do, the list is made of them and of three parts without either. -/
theorem exists_of_positions {q : α → Bool} {l : List α} {b e : ℕ} (hp : positions p l = [b])
    (hq : positions q l = [e]) (h : b < e) :
    ∃ before first content last after, l = before ++ first :: (content ++ last :: after) ∧
      b = before.length ∧ e = before.length + 1 + content.length ∧
      (p first = true ∧ q first = false) ∧ (q last = true ∧ p last = false) ∧
      (∀ a ∈ before, p a = false ∧ q a = false) ∧
      (∀ a ∈ content, p a = false ∧ q a = false) ∧
      ∀ a ∈ after, p a = false ∧ q a = false := by
  have hb : b ∈ positions p l := by
    rw [hp]
    exact List.mem_singleton_self b
  have he : e ∈ positions q l := by
    rw [hq]
    exact List.mem_singleton_self e
  obtain ⟨before, rest, first, rfl, hbefore, hfirst⟩ := mem_positionsFrom hb
  obtain ⟨front, after, last, hsplit, hfront, hlast⟩ := mem_positionsFrom he
  rw [Nat.zero_add] at hbefore hfront
  obtain ⟨content, rfl, rfl⟩ : ∃ content, front = before ++ first :: content ∧
      rest = content ++ last :: after := by
    rcases List.append_eq_append_iff.1 hsplit with ⟨middle, rfl, hrest⟩ | ⟨middle, rfl, hrest⟩
    · cases middle with
      | nil =>
        rw [List.append_nil] at hfront
        omega
      | cons x middle =>
        obtain ⟨rfl, rfl⟩ := List.cons.inj hrest
        exact ⟨middle, rfl, rfl⟩
    · rw [List.length_append] at hbefore
      omega
  have hq' : positions q ((before ++ first :: content) ++ last :: after) = [e] := by
    rwa [List.append_assoc]
  obtain ⟨hpbefore, hprest⟩ := positionsFrom_eq_singleton hfirst hp
  obtain ⟨hqfront, hqafter⟩ := positionsFrom_eq_singleton hlast hq'
  refine ⟨before, first, content, last, after, rfl, hbefore, ?_, ⟨hfirst, ?_⟩, ⟨hlast, ?_⟩,
    ?_, ?_, ?_⟩
  · rw [hfront, List.length_append, List.length_cons]
    omega
  · exact hqfront first (List.mem_append_right _ List.mem_cons_self)
  · exact hprest last (List.mem_append_right _ List.mem_cons_self)
  · exact fun a ha => ⟨hpbefore a ha, hqfront a (List.mem_append_left _ ha)⟩
  · exact fun a ha => ⟨hprest a (List.mem_append_left _ ha),
      hqfront a (List.mem_append_right _ (List.mem_cons_of_mem _ ha))⟩
  · exact fun a ha => ⟨hprest a (List.mem_append_right _ (List.mem_cons_of_mem _ ha)),
      hqafter a ha⟩

/-! ### The parts of a list with two marks -/

section Parts

variable (before content after : List α) (first last : α)

theorem drop_parts :
    (before ++ first :: (content ++ last :: after)).drop (before.length + 1 + content.length + 1) =
      after := by
  have hsplit : before ++ first :: (content ++ last :: after) =
      (before ++ first :: (content ++ [last])) ++ after := by simp
  rw [hsplit]
  refine List.drop_left' ?_
  rw [List.length_append, List.length_cons, List.length_append, List.length_singleton]
  omega

theorem drop_take_parts :
    ((before ++ first :: (content ++ last :: after)).take
      (before.length + 1 + content.length)).drop (before.length + 1) = content := by
  have hsplit : before ++ first :: (content ++ last :: after) =
      (before ++ [first] ++ content) ++ last :: after := by simp
  have hlen : (before ++ [first] ++ content).length = before.length + 1 + content.length := by
    rw [List.length_append, List.length_append, List.length_singleton]
  rw [hsplit, List.take_left' hlen]
  exact List.drop_left' (by rw [List.length_append, List.length_singleton])

end Parts

end Mise.Lib
