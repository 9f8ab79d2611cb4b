/-
# Directed graphs in arrays, with removal by swapping

A graph stored as an array of nodes and a set of index pairs.  Removing a node
moves the last node into its place, and with it the edges of that node, so that
indices are not stable.  Seen through a key that no two nodes share, removal is
what one expects: the node with that key leaves, with its edges, and nothing
else changes (`mem_removeNode_iff`, `hasEdge_removeNode_iff`).
-/

import Mise.Lib.Digraph

namespace Mise.Lib

open Relation

/-! ### Removal by swapping -/

section SwapRemove

variable {ν : Type} {l : List ν} {i j : ℕ}

/-- The last element takes the place of the one removed. -/
def swapRemove (l : List ν) (i : ℕ) : List ν :=
  match l.getLast? with
  | none => l
  | some last => (l.set i last).dropLast

/-- The index after the removal of `i` of the element that had index `j`. -/
def swapIndex (n i j : ℕ) : ℕ := if j = n - 1 then i else j

theorem swapRemove_eq (hi : i < l.length) :
    swapRemove l i = (l.set i (l.get ⟨l.length - 1, by omega⟩)).dropLast := by
  have hne : l ≠ [] := by rintro rfl; simp at hi
  rw [swapRemove, List.getLast?_eq_getLast_of_ne_nil hne]
  simp only [List.getLast_eq_getElem, List.get_eq_getElem]

theorem length_swapRemove (hi : i < l.length) : (swapRemove l i).length = l.length - 1 := by
  rw [swapRemove_eq hi, List.length_dropLast, List.length_set]

theorem swapIndex_lt (hi : i < l.length) (hj : j < l.length) (hij : j ≠ i) :
    swapIndex l.length i j < l.length - 1 := by
  unfold swapIndex
  split_ifs <;> omega

/-- **The elements that stay are found at their new index.** -/
theorem getElem?_swapRemove (hi : i < l.length) (hj : j < l.length) (hij : j ≠ i) :
    (swapRemove l i)[swapIndex l.length i j]? = l[j]? := by
  have hlt := swapIndex_lt hi hj hij
  rw [swapRemove_eq hi, List.getElem?_dropLast, List.length_set, if_pos hlt, List.getElem?_set]
  unfold swapIndex at hlt ⊢
  by_cases h : j = l.length - 1
  · subst h
    simp [hi]
  · rw [if_neg h, if_neg fun hji => hij hji.symm]

/-- Every element after the removal was at some other index before. -/
theorem exists_swapIndex (hi : i < l.length) (hj : j < l.length - 1) :
    ∃ k, k < l.length ∧ k ≠ i ∧ swapIndex l.length i k = j := by
  by_cases hji : j = i
  · subst hji
    exact ⟨l.length - 1, by omega, by omega, by simp [swapIndex]⟩
  · exact ⟨j, by omega, hji, by rw [swapIndex, if_neg (by omega)]⟩

theorem mem_swapRemove {x : ν} (hi : i < l.length) :
    x ∈ swapRemove l i ↔ ∃ j, j ≠ i ∧ l[j]? = some x := by
  constructor
  · intro hx
    obtain ⟨j, hj⟩ := List.mem_iff_getElem?.1 hx
    have hlt : j < l.length - 1 := by
      rw [← length_swapRemove hi]
      exact (List.getElem?_eq_some_iff.1 hj).1
    obtain ⟨k, hk, hki, rfl⟩ := exists_swapIndex hi hlt
    exact ⟨k, hki, by rw [← getElem?_swapRemove hi hk hki, hj]⟩
  · rintro ⟨j, hji, hj⟩
    have hlt : j < l.length := (List.getElem?_eq_some_iff.1 hj).1
    exact List.mem_iff_getElem?.2 ⟨_, by rw [getElem?_swapRemove hi hlt hji, hj]⟩

end SwapRemove

/-! ### Graphs -/

/-- A directed graph: node weights by index, and edges between indices. -/
structure DiGraph (ν : Type) where
  nodes : List ν
  edges : List (ℕ × ℕ)
  deriving DecidableEq

namespace DiGraph

variable {ν : Type}

def empty : DiGraph ν := ⟨[], []⟩

def addNode (g : DiGraph ν) (n : ν) : DiGraph ν := ⟨g.nodes ++ [n], g.edges⟩

def updateEdge (g : DiGraph ν) (a b : ℕ) : DiGraph ν :=
  if (a, b) ∈ g.edges then g else ⟨g.nodes, (a, b) :: g.edges⟩

/-- The nodes without an outgoing edge, in index order. -/
def externals (g : DiGraph ν) : List ν :=
  (List.range g.nodes.length).filterMap fun i =>
    if g.edges.any fun e => e.1 = i then none else g.nodes[i]?

def removeNode (g : DiGraph ν) (i : ℕ) : DiGraph ν :=
  ⟨swapRemove g.nodes i,
    (g.edges.filter fun e => e.1 ≠ i ∧ e.2 ≠ i).map fun e =>
      (swapIndex g.nodes.length i e.1, swapIndex g.nodes.length i e.2)⟩

/-- No index reaches itself along the edges. -/
def Acyclic (g : DiGraph ν) : Prop := ∀ i, ¬ TransGen (fun a b => (a, b) ∈ g.edges) i i

theorem mem_edges_updateEdge {g : DiGraph ν} {a b : ℕ} {e : ℕ × ℕ} :
    e ∈ (g.updateEdge a b).edges ↔ e = (a, b) ∨ e ∈ g.edges := by
  unfold updateEdge
  split_ifs with h
  · refine ⟨Or.inr, ?_⟩
    rintro (rfl | he)
    · exact h
    · exact he
  · exact List.mem_cons

@[simp] theorem nodes_updateEdge (g : DiGraph ν) (a b : ℕ) : (g.updateEdge a b).nodes = g.nodes := by
  unfold updateEdge
  split_ifs <;> rfl

/-- A graph whose edges only go to lower ranks has no cycle. -/
theorem acyclic_of_rank {g : DiGraph ν} (rank : ℕ → ℕ) (h : ∀ e ∈ g.edges, rank e.2 < rank e.1) :
    g.Acyclic :=
  not_transGen_self (OrderDual.toDual ∘ rank) fun a b hab => h (a, b) hab

/-- A graph whose edges only go to higher indices has no cycle. -/
theorem acyclic_of_lt {g : DiGraph ν} (h : ∀ e ∈ g.edges, e.1 < e.2) : g.Acyclic :=
  not_transGen_self id fun a b hab => h (a, b) hab

/-! ### Seen through keys -/

section Keys

variable {κ : Type} (key : ν → κ)

/-- There is an edge between the nodes with these keys. -/
def HasEdge (g : DiGraph ν) (a b : κ) : Prop :=
  ∃ i j n m, (i, j) ∈ g.edges ∧ g.nodes[i]? = some n ∧ g.nodes[j]? = some m ∧ key n = a ∧ key m = b

/-- The keys of the nodes are distinct and the edges join nodes. -/
structure Keyed (g : DiGraph ν) : Prop where
  nodup : (g.nodes.map key).Nodup
  inside : ∀ e ∈ g.edges, e.1 < g.nodes.length ∧ e.2 < g.nodes.length

variable {key} {g : DiGraph ν}

theorem keyed_empty : Keyed key (empty : DiGraph ν) :=
  ⟨List.nodup_nil, by rintro e ⟨⟩⟩

/-- Nodes with one key are one node. -/
theorem Keyed.index_unique (h : Keyed key g) {i j : ℕ} {n m : ν} (hi : g.nodes[i]? = some n)
    (hj : g.nodes[j]? = some m) (hnm : key n = key m) : i = j := by
  have hki : (g.nodes.map key)[i]? = some (key n) := by rw [List.getElem?_map, hi]; rfl
  have hkj : (g.nodes.map key)[j]? = some (key n) := by rw [List.getElem?_map, hj, hnm]; rfl
  have hlt : i < (g.nodes.map key).length := (List.getElem?_eq_some_iff.1 hki).1
  exact (List.getElem?_inj hlt h.nodup).1 (hki.trans hkj.symm)

theorem Keyed.eq_of_key (h : Keyed key g) {n m : ν} (hn : n ∈ g.nodes) (hm : m ∈ g.nodes)
    (hnm : key n = key m) : n = m := by
  obtain ⟨i, hi⟩ := List.mem_iff_getElem?.1 hn
  obtain ⟨j, hj⟩ := List.mem_iff_getElem?.1 hm
  obtain rfl := h.index_unique hi hj hnm
  exact Option.some.inj (hi.symm.trans hj)

theorem HasEdge.left_mem {a b : κ} (h : HasEdge key g a b) : a ∈ g.nodes.map key := by
  obtain ⟨i, j, n, m, -, hi, -, rfl, -⟩ := h
  exact List.mem_map_of_mem (List.mem_of_getElem? hi)

theorem HasEdge.right_mem {a b : κ} (h : HasEdge key g a b) : b ∈ g.nodes.map key := by
  obtain ⟨i, j, n, m, -, -, hj, -, rfl⟩ := h
  exact List.mem_map_of_mem (List.mem_of_getElem? hj)

section Remove

variable {i : ℕ} {x : ν} (h : Keyed key g) (hi : g.nodes[i]? = some x)
include h hi

/-- **The node at the index leaves, and no other.** -/
theorem Keyed.mem_removeNode_iff {n : ν} :
    n ∈ (g.removeNode i).nodes ↔ n ∈ g.nodes ∧ key n ≠ key x := by
  have hlt : i < g.nodes.length := (List.getElem?_eq_some_iff.1 hi).1
  rw [removeNode, mem_swapRemove hlt]
  constructor
  · rintro ⟨j, hji, hj⟩
    exact ⟨List.mem_of_getElem? hj, fun hkey => hji (h.index_unique hj hi hkey)⟩
  · rintro ⟨hn, hkey⟩
    obtain ⟨j, hj⟩ := List.mem_iff_getElem?.1 hn
    refine ⟨j, ?_, hj⟩
    rintro rfl
    exact hkey (by rw [Option.some.inj (hj.symm.trans hi)])

/-- **Its edges leave with it, and no others.** -/
theorem Keyed.hasEdge_removeNode_iff {a b : κ} :
    HasEdge key (g.removeNode i) a b ↔ HasEdge key g a b ∧ a ≠ key x ∧ b ≠ key x := by
  have hlt : i < g.nodes.length := (List.getElem?_eq_some_iff.1 hi).1
  constructor
  · rintro ⟨p', q', n, m, he, hp', hq', rfl, rfl⟩
    obtain ⟨⟨p, q⟩, hpq, heq⟩ := List.mem_map.1 he
    obtain ⟨hedge, hne⟩ := List.mem_filter.1 hpq
    obtain ⟨hpi, hqi⟩ : p ≠ i ∧ q ≠ i := by simpa using hne
    obtain ⟨hp, hq⟩ := h.inside _ hedge
    obtain ⟨rfl, rfl⟩ := Prod.mk.inj heq
    have hn : g.nodes[p]? = some n := (getElem?_swapRemove hlt hp hpi).symm.trans hp'
    have hm : g.nodes[q]? = some m := (getElem?_swapRemove hlt hq hqi).symm.trans hq'
    exact ⟨⟨p, q, n, m, hedge, hn, hm, rfl, rfl⟩, fun hkey => hpi (h.index_unique hn hi hkey),
      fun hkey => hqi (h.index_unique hm hi hkey)⟩
  · rintro ⟨⟨p, q, n, m, hedge, hn, hm, rfl, rfl⟩, hna, hmb⟩
    have hpi : p ≠ i := by rintro rfl; exact hna (by rw [Option.some.inj (hn.symm.trans hi)])
    have hqi : q ≠ i := by rintro rfl; exact hmb (by rw [Option.some.inj (hm.symm.trans hi)])
    obtain ⟨hp, hq⟩ := h.inside _ hedge
    refine ⟨swapIndex g.nodes.length i p, swapIndex g.nodes.length i q, n, m, ?_, ?_, ?_, rfl, rfl⟩
    · exact List.mem_map.2 ⟨(p, q), List.mem_filter.2 ⟨hedge, by simp [hpi, hqi]⟩, rfl⟩
    · exact (getElem?_swapRemove hlt hp hpi).trans hn
    · exact (getElem?_swapRemove hlt hq hqi).trans hm

theorem Keyed.removeNode : Keyed key (g.removeNode i) := by
  have hlt : i < g.nodes.length := (List.getElem?_eq_some_iff.1 hi).1
  refine ⟨?_, fun e he => ?_⟩
  · -- two indices of the smaller graph with one key come from one index of the larger
    rw [List.nodup_iff_getElem?_ne_getElem?]
    intro p q hpq hq hsame
    have hlength : ((g.removeNode i).nodes.map key).length = g.nodes.length - 1 := by
      rw [List.length_map, DiGraph.removeNode, length_swapRemove hlt]
    rw [hlength] at hq
    obtain ⟨p', hp', hpi, rfl⟩ := exists_swapIndex hlt (by omega : p < g.nodes.length - 1)
    obtain ⟨q', hq', hqi, rfl⟩ := exists_swapIndex hlt hq
    rw [List.getElem?_map, List.getElem?_map, DiGraph.removeNode, getElem?_swapRemove hlt hp' hpi,
      getElem?_swapRemove hlt hq' hqi, List.getElem?_eq_getElem hp', List.getElem?_eq_getElem hq',
      Option.map_some, Option.map_some] at hsame
    have := h.index_unique (List.getElem?_eq_getElem hp') (List.getElem?_eq_getElem hq')
      (Option.some.inj hsame)
    subst this
    exact Nat.lt_irrefl _ hpq
  · obtain ⟨⟨p, q⟩, hpq, rfl⟩ := List.mem_map.1 he
    obtain ⟨hedge, hne⟩ := List.mem_filter.1 hpq
    obtain ⟨hpi, hqi⟩ : p ≠ i ∧ q ≠ i := by simpa using hne
    obtain ⟨hp, hq⟩ := h.inside _ hedge
    rw [DiGraph.removeNode, length_swapRemove hlt]
    exact ⟨swapIndex_lt hlt hp hpi, swapIndex_lt hlt hq hqi⟩

end Remove

/-! ### Leaves -/

theorem mem_externals {n : ν} : n ∈ g.externals ↔
    ∃ i, g.nodes[i]? = some n ∧ ∀ j, (i, j) ∉ g.edges := by
  unfold externals
  rw [List.mem_filterMap]
  constructor
  · rintro ⟨i, -, hi⟩
    split_ifs at hi with hany
    refine ⟨i, hi, fun j hj => hany ?_⟩
    rw [List.any_eq_true]
    exact ⟨_, hj, by simp⟩
  · rintro ⟨i, hi, hout⟩
    refine ⟨i, List.mem_range.2 (List.getElem?_eq_some_iff.1 hi).1, ?_⟩
    rw [if_neg]
    · exact hi
    · rw [List.any_eq_true]
      rintro ⟨⟨a, b⟩, he, ha⟩
      obtain rfl : a = i := by simpa using ha
      exact hout b he

/-- A node is a leaf when its key has no edge. -/
theorem Keyed.mem_externals_iff (h : Keyed key g) {n : ν} :
    n ∈ g.externals ↔ n ∈ g.nodes ∧ ∀ b, ¬ HasEdge key g (key n) b := by
  rw [mem_externals]
  constructor
  · rintro ⟨i, hi, hout⟩
    refine ⟨List.mem_of_getElem? hi, ?_⟩
    rintro b ⟨p, q, n', m, he, hp, -, hkey, -⟩
    obtain rfl := h.index_unique hp hi hkey
    exact hout q he
  · rintro ⟨hn, hout⟩
    obtain ⟨i, hi⟩ := List.mem_iff_getElem?.1 hn
    refine ⟨i, hi, fun j hj => ?_⟩
    obtain ⟨m, hm⟩ : ∃ m, g.nodes[j]? = some m :=
      ⟨_, List.getElem?_eq_getElem (h.inside _ hj).2⟩
    exact hout (key m) ⟨i, j, n, m, hj, hi, hm, rfl, rfl⟩

theorem Keyed.nodup_externals (h : Keyed key g) : (g.externals.map key).Nodup := by
  unfold externals
  rw [List.map_filterMap]
  refine List.Nodup.filterMap ?_ List.nodup_range
  rintro i j k hi hj
  rw [Option.mem_def, Option.map_eq_some_iff] at hi hj
  obtain ⟨n, hn, rfl⟩ := hi
  obtain ⟨m, hm, hkey⟩ := hj
  split_ifs at hn hm
  exact h.index_unique hn hm hkey.symm

/-! ### Acyclic graphs -/

/-- A path of keys is a path of indices. -/
theorem Keyed.transGen_edges (h : Keyed key g) {a b : κ} (hab : TransGen (HasEdge key g) a b) :
    ∃ i j n m, g.nodes[i]? = some n ∧ g.nodes[j]? = some m ∧ key n = a ∧ key m = b ∧
      TransGen (fun a b => (a, b) ∈ g.edges) i j := by
  induction hab with
  | single hab =>
    obtain ⟨i, j, n, m, he, hi, hj, ha, hb⟩ := hab
    exact ⟨i, j, n, m, hi, hj, ha, hb, .single he⟩
  | tail _ hbc ih =>
    obtain ⟨i, j, n, m, hi, hj, ha, hb, hij⟩ := ih
    obtain ⟨p, q, n', m', he, hp, hq, hb', hc⟩ := hbc
    obtain rfl := h.index_unique hp hj (hb'.trans hb.symm)
    exact ⟨i, q, n, m', hi, hq, ha, hc, hij.tail he⟩

theorem Keyed.not_transGen_self (h : Keyed key g) (hg : g.Acyclic) (a : κ) :
    ¬ TransGen (HasEdge key g) a a := by
  intro haa
  obtain ⟨i, j, n, m, hi, hj, hn, hm, hij⟩ := h.transGen_edges haa
  obtain rfl := h.index_unique hi hj (hn.trans hm.symm)
  exact hg i hij

/-- **A graph that is not empty and has no cycle of keys has a leaf.** -/
theorem Keyed.externals_ne_nil (h : Keyed key g) (hac : ∀ a, ¬ TransGen (HasEdge key g) a a)
    (hne : g.nodes ≠ []) : g.externals ≠ [] := by
  classical
  obtain ⟨x, l, hx⟩ := List.exists_cons_of_ne_nil hne
  obtain ⟨a, ha, hsink⟩ := exists_sink (r := HasEdge key g) (S := (g.nodes.map key).toFinset)
    ⟨key x, by simp [hx]⟩ (fun a _ => hac a)
  rw [List.mem_toFinset] at ha
  obtain ⟨n, hn, rfl⟩ := List.mem_map.1 ha
  have hleaf : n ∈ g.externals := h.mem_externals_iff.2
    ⟨hn, fun b hb => hsink b (List.mem_toFinset.2 hb.right_mem) hb⟩
  exact List.ne_nil_of_mem hleaf

end Keys

end DiGraph

end Mise.Lib
