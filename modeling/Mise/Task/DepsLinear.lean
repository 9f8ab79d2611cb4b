/-
# Linear graphs

`Deps::is_linear` of `src/task/deps.rs` takes the tasks without dependencies off a
copy of the graph, and stops with `false` where there is more than one.  It looks
the task to take off up by `==`, which leaves the overlay environment out, among
the indices of the graph it started from.

The first equal task is never behind the one that is looked for, so the lookup
does not fail (`linearFrom_ne_none`).  Where it is another task, the wrong node is
taken off, and the answer may be wrong.  It is right for a graph in which every task
that is ever alone without dependencies stands before its equals, and these are the
graphs of which the loop takes off no other task (`isLinear_exact`).  Over tasks of
which no two are equal that is every graph, and over three tasks or more with two that
are equal there is a graph with a wrong answer.
-/

import Mise.Lib.TopologicalOrder
import Mise.Task.Deps

namespace Mise

open Lib Relation

namespace Deps

/-! ### The loop -/

/-- The search of `is_linear`: the first of these indices whose node equals the
leaf.  `none` is the panic of an index without a node, or of `unwrap`. -/
def findEqual (nodes : List Task) (leaf : Task) : List ℕ → Option ℕ
  | [] => none
  | idx :: rest =>
    match nodes[idx]? with
    | none => none
    | some n => if n.eq leaf then some idx else findEqual nodes leaf rest

/-- What a search finds has a node. -/
theorem lt_of_findEqual {nodes : List Task} {leaf : Task} {indices : List ℕ} {idx : ℕ}
    (h : findEqual nodes leaf indices = some idx) : idx < nodes.length := by
  induction indices with
  | nil => exact nomatch h
  | cons i rest ih =>
    rw [findEqual] at h
    split at h
    · exact nomatch h
    · case h_2 n hn =>
      split at h
      · obtain rfl := Option.some.inj h
        exact (List.getElem?_eq_some_iff.1 hn).1
      · exact ih h

/-- The loop of `is_linear`, for a graph that had `total` nodes. -/
def linearFrom (total : ℕ) (graph : DiGraph Task) : Option Bool :=
  match graph.externals with
  | [] => some true
  | [leaf] =>
    match _h : findEqual graph.nodes leaf (List.range total) with
    | none => none
    | some idx => linearFrom total (graph.removeNode idx)
  | _ :: _ :: _ => some false
termination_by graph.nodes.length
decreasing_by
  have hlt := lt_of_findEqual _h
  rw [DiGraph.removeNode, length_swapRemove hlt]
  omega

/-- `is_linear`. -/
def isLinear (d : Deps) : Option Bool := linearFrom d.graph.nodes.length d.graph

variable {total idx i : ℕ} {graph : DiGraph Task} {nodes : List Task} {leaf n m : Task}

theorem linearFrom_of_nil (h : graph.externals = []) : linearFrom total graph = some true := by
  rw [linearFrom, h]

theorem linearFrom_of_sole (h : graph.externals = [leaf])
    (hfind : findEqual graph.nodes leaf (List.range total) = some idx) :
    linearFrom total graph = linearFrom total (graph.removeNode idx) := by
  rw [linearFrom, h]
  dsimp only
  split
  · case h_1 h' => exact nomatch h'.symm.trans hfind
  · case h_2 h' => rw [Option.some.inj (h'.symm.trans hfind)]

theorem linearFrom_of_two (hn : n ∈ graph.externals) (hm : m ∈ graph.externals) (hne : n ≠ m) :
    linearFrom total graph = some false := by
  rw [linearFrom]
  match hleaves : graph.externals with
  | [] =>
    rw [hleaves] at hn
    exact nomatch hn
  | [leaf] =>
    rw [hleaves] at hn hm
    exact absurd ((List.mem_singleton.1 hn).trans (List.mem_singleton.1 hm).symm) hne
  | _ :: _ :: _ => rfl

/-- The search from an index on: it finds the first equal node, which is not behind
any other. -/
theorem findEqual_range' (start count : ℕ) (hi : nodes[i]? = some n) (heq : n.eq leaf = true)
    (hstart : start ≤ i) (hcount : i < start + count) :
    ∃ idx m, findEqual nodes leaf (List.range' start count) = some idx ∧ idx ≤ i ∧
      nodes[idx]? = some m ∧ m.eq leaf = true ∧
      ∀ j n', start ≤ j → j < idx → nodes[j]? = some n' → n'.eq leaf = false := by
  induction count generalizing start with
  | zero => omega
  | succ count ih =>
    have hlt := (List.getElem?_eq_some_iff.1 hi).1
    obtain ⟨m, hm⟩ : ∃ m, nodes[start]? = some m :=
      ⟨_, List.getElem?_eq_getElem (Nat.lt_of_le_of_lt hstart hlt)⟩
    rw [List.range'_succ, findEqual, hm]
    dsimp only
    cases hmeq : m.eq leaf with
    | true => exact ⟨start, m, rfl, hstart, hm, hmeq, fun j n' hj hj' => by omega⟩
    | false =>
      have hne : start ≠ i := by
        rintro rfl
        rw [Option.some.inj (hm.symm.trans hi), heq] at hmeq
        exact nomatch hmeq
      obtain ⟨idx, m', hfind, hle, hm', hmeq', hfirst⟩ := ih (start + 1) (by omega) (by omega)
      refine ⟨idx, m', hfind, hle, hm', hmeq', fun j n' hj hj' hn' => ?_⟩
      obtain rfl | hj := Nat.eq_or_lt_of_le hj
      · rwa [← Option.some.inj (hm.symm.trans hn')]
      · exact hfirst j n' hj hj' hn'

/-- **The search does not fail**, and what it finds is the first equal node. -/
theorem findEqual_range (hi : nodes[i]? = some n) (heq : n.eq leaf = true)
    (htotal : nodes.length ≤ total) :
    ∃ idx m, findEqual nodes leaf (List.range total) = some idx ∧ idx ≤ i ∧
      nodes[idx]? = some m ∧ m.eq leaf = true ∧
      ∀ j n', j < idx → nodes[j]? = some n' → n'.eq leaf = false := by
  have hlt := (List.getElem?_eq_some_iff.1 hi).1
  obtain ⟨idx, m, hfind, hle, hm, hmeq, hfirst⟩ :=
    findEqual_range' 0 total hi heq (Nat.zero_le i) (by omega)
  rw [List.range_eq_range']
  exact ⟨idx, m, hfind, hle, hm, hmeq, fun j n' => hfirst j n' (Nat.zero_le j)⟩

/-- **`is_linear` never panics**, whatever the graph. -/
theorem linearFrom_ne_none (htotal : graph.nodes.length ≤ total) :
    linearFrom total graph ≠ none := by
  induction hlen : graph.nodes.length using Nat.strongRecOn generalizing graph with
  | ind k ih =>
    match hleaves : graph.externals with
    | [] =>
      rw [linearFrom_of_nil hleaves]
      exact nofun
    | [leaf] =>
      obtain ⟨i, hi, -⟩ := DiGraph.mem_externals.1 (hleaves ▸ List.mem_singleton_self leaf)
      obtain ⟨idx, m, hfind, -, hm, -⟩ := findEqual_range hi leaf.eq_self htotal
      have hlt := (List.getElem?_eq_some_iff.1 hm).1
      have hlen' : (graph.removeNode idx).nodes.length = graph.nodes.length - 1 :=
        length_swapRemove hlt
      rw [linearFrom_of_sole hleaves hfind]
      exact ih _ (by omega) (by omega) rfl
    | n :: m :: rest =>
      rw [linearFrom, hleaves]
      exact nofun

/-! ### What it should say -/

/-- The graph has exactly one topological order: the keys of its tasks, each behind
those it waits for. -/
def OneOrder (graph : DiGraph Task) : Prop :=
  ∃! order, IsOrder (graph.HasEdge taskKey) (graph.nodes.map taskKey).toFinset order

/-- What is asked of `is_linear`: an answer, which tells whether the graph has
exactly one topological order. -/
def LinearExact (d : Deps) : Prop :=
  ∃ answer, d.isLinear = some answer ∧ (answer = true ↔ OneOrder d.graph)

/-- No path of keys leads back. -/
def NoCycle (graph : DiGraph Task) : Prop := ∀ k, ¬ TransGen (graph.HasEdge taskKey) k k

section Removal

variable (h : graph.Keyed taskKey) (hi : graph.nodes[i]? = some leaf)
include h hi

theorem noCycle_removeNode (hac : NoCycle graph) : NoCycle (graph.removeNode i) := by
  intro k hk
  refine hac k (TransGen.mono ?_ _ _ hk)
  exact fun a b hab => ((h.hasEdge_removeNode_iff hi).1 hab).1

theorem keys_removeNode : ((graph.removeNode i).nodes.map taskKey).toFinset =
    ((graph.nodes.map taskKey).toFinset).erase (taskKey leaf) := by
  ext k
  rw [Finset.mem_erase, List.mem_toFinset, List.mem_toFinset, List.mem_map, List.mem_map]
  constructor
  · rintro ⟨n, hn, rfl⟩
    obtain ⟨hn, hne⟩ := (h.mem_removeNode_iff hi).1 hn
    exact ⟨hne, n, hn, rfl⟩
  · rintro ⟨hne, n, hn, rfl⟩
    exact ⟨n, (h.mem_removeNode_iff hi).2 ⟨hn, hne⟩, rfl⟩

/-- The orders of the smaller graph are those of the keys that are left. -/
theorem oneOrder_removeNode : OneOrder (graph.removeNode i) ↔
    ∃! order, IsOrder (graph.HasEdge taskKey)
      (((graph.nodes.map taskKey).toFinset).erase (taskKey leaf)) order := by
  rw [OneOrder, keys_removeNode h hi]
  refine existsUnique_congr fun order => isOrder_congr fun a ha b hb => ?_
  rw [h.hasEdge_removeNode_iff hi]
  exact and_iff_left ⟨Finset.ne_of_mem_erase ha, Finset.ne_of_mem_erase hb⟩

end Removal

/-- The leaves are the keys without an edge. -/
theorem isLeaf_iff (h : graph.Keyed taskKey) (k : TaskKey) :
    IsLeaf (graph.HasEdge taskKey) (graph.nodes.map taskKey).toFinset k ↔
      ∃ n ∈ graph.externals, taskKey n = k := by
  constructor
  · rintro ⟨hk, hout⟩
    obtain ⟨n, hn, rfl⟩ := List.mem_map.1 (List.mem_toFinset.1 hk)
    refine ⟨n, h.mem_externals_iff.2 ⟨hn, fun b hb => ?_⟩, rfl⟩
    exact hout b (List.mem_toFinset.2 hb.right_mem) hb
  · rintro ⟨n, hn, rfl⟩
    obtain ⟨hn, hout⟩ := h.mem_externals_iff.1 hn
    exact ⟨List.mem_toFinset.2 (List.mem_map_of_mem hn), fun b _ => hout b⟩

/-- Without a leaf there is no task, and one order. -/
theorem oneOrder_of_nil (h : graph.Keyed taskKey) (hac : NoCycle graph)
    (hleaves : graph.externals = []) : OneOrder graph := by
  have hnil : graph.nodes = [] := by
    by_contra hne
    exact h.externals_ne_nil hac hne hleaves
  refine existsUnique_isOrder_of_card_le_one hac ?_
  rw [hnil]
  exact Nat.zero_le 1

/-- With a single leaf, the orders are those of the graph without it. -/
theorem oneOrder_of_sole (h : graph.Keyed taskKey) (hac : NoCycle graph)
    (hleaves : graph.externals = [leaf]) (hi : graph.nodes[i]? = some leaf) :
    OneOrder graph ↔ OneOrder (graph.removeNode i) := by
  rw [oneOrder_removeNode h hi]
  refine existsUnique_isOrder_of_sole hac ((isLeaf_iff h _).2 ⟨leaf, ?_, rfl⟩) fun k hk => ?_
  · rw [hleaves]
    exact List.mem_singleton_self leaf
  · obtain ⟨n, hn, rfl⟩ := (isLeaf_iff h k).1 hk
    rw [hleaves] at hn
    rw [List.mem_singleton.1 hn]

/-- With two leaves there are two orders. -/
theorem not_oneOrder_of_two (h : graph.Keyed taskKey) (hac : NoCycle graph)
    (hn : n ∈ graph.externals) (hm : m ∈ graph.externals) (hne : n ≠ m) :
    ¬ OneOrder graph := by
  refine not_existsUnique_isOrder hac ((isLeaf_iff h _).2 ⟨n, hn, rfl⟩)
    ((isLeaf_iff h _).2 ⟨m, hm, rfl⟩) fun hkey => hne ?_
  exact h.eq_of_key (h.mem_externals_iff.1 hn).1 (h.mem_externals_iff.1 hm).1 hkey

/-- With two leaves the answer is `false`, and right. -/
theorem linearFrom_of_cons_cons {rest : List Task} (h : graph.Keyed taskKey) (hac : NoCycle graph)
    (hleaves : graph.externals = n :: m :: rest) :
    ∃ answer, linearFrom total graph = some answer ∧ (answer = true ↔ OneOrder graph) := by
  have hn : n ∈ graph.externals := by
    rw [hleaves]
    exact List.mem_cons_self
  have hm : m ∈ graph.externals := by
    rw [hleaves]
    exact List.mem_cons_of_mem n List.mem_cons_self
  have hne : n ≠ m := by
    rintro rfl
    have hnodup := h.nodup_externals
    rw [hleaves] at hnodup
    exact (List.nodup_cons.1 hnodup).1 List.mem_cons_self
  exact ⟨false, linearFrom_of_two hn hm hne,
    iff_of_false Bool.false_ne_true (not_oneOrder_of_two h hac hn hm hne)⟩

/-! ### Where it is right -/

/-- One turn as it should be: the single leaf is taken off. -/
def Peel (graph graph' : DiGraph Task) : Prop :=
  ∃ leaf i, graph.externals = [leaf] ∧ graph.nodes[i]? = some leaf ∧ graph' = graph.removeNode i

/-- Every task that is ever the only one without dependencies left stands before
every other task that equals it. -/
def LeavesFirst (graph : DiGraph Task) : Prop :=
  ∀ graph', ReflTransGen Peel graph graph' → ∀ (leaf : Task) (i : ℕ),
    graph'.externals = [leaf] → graph'.nodes[i]? = some leaf → ∀ (j : ℕ) (n : Task), j < i →
      graph'.nodes[j]? = some n → n.eq leaf = false

theorem LeavesFirst.peel {graph' : DiGraph Task} (h : LeavesFirst graph)
    (hpeel : Peel graph graph') : LeavesFirst graph' :=
  fun graph'' hreach => h graph'' (.head hpeel hreach)

/-- **Where every single leaf comes first among those that equal it, the answer is
right.** -/
theorem linearFrom_exact (h : graph.Keyed taskKey) (hac : NoCycle graph)
    (hfirst : LeavesFirst graph) (htotal : graph.nodes.length ≤ total) :
    ∃ answer, linearFrom total graph = some answer ∧ (answer = true ↔ OneOrder graph) := by
  induction hlen : graph.nodes.length using Nat.strongRecOn generalizing graph with
  | ind k ih =>
    match hleaves : graph.externals with
    | [] =>
      exact ⟨true, linearFrom_of_nil hleaves, iff_of_true rfl (oneOrder_of_nil h hac hleaves)⟩
    | [leaf] =>
      obtain ⟨i, hi, -⟩ := DiGraph.mem_externals.1 (hleaves ▸ List.mem_singleton_self leaf)
      obtain ⟨idx, m, hfind, hle, hm, hmeq, -⟩ := findEqual_range hi leaf.eq_self htotal
      -- what the search finds is the leaf itself
      have hidx : idx = i := by
        by_contra hne
        have hlt : idx < i := Nat.lt_of_le_of_ne hle hne
        rw [hfirst graph .refl leaf i hleaves hi idx m hlt hm] at hmeq
        exact nomatch hmeq
      obtain rfl := hidx
      have hlt := (List.getElem?_eq_some_iff.1 hi).1
      have hlen' : (graph.removeNode idx).nodes.length = graph.nodes.length - 1 :=
        length_swapRemove hlt
      obtain ⟨answer, hanswer, hiff⟩ := ih _ (by omega) (h.removeNode hi)
        (noCycle_removeNode h hi hac) (hfirst.peel ⟨leaf, idx, hleaves, hi, rfl⟩) (by omega) rfl
      refine ⟨answer, ?_, hiff.trans (oneOrder_of_sole h hac hleaves hi).symm⟩
      rw [linearFrom_of_sole hleaves hfind]
      exact hanswer
    | n :: m :: rest => exact linearFrom_of_cons_cons h hac hleaves

/-- One turn as it is: the first task that equals the single leaf is taken off. -/
def Turn (total : ℕ) (graph graph' : DiGraph Task) : Prop :=
  ∃ leaf idx, graph.externals = [leaf] ∧
    findEqual graph.nodes leaf (List.range total) = some idx ∧ graph' = graph.removeNode idx

/-- No turn takes off another task than the leaf. -/
def TakesLeaves (total : ℕ) (graph : DiGraph Task) : Prop :=
  ∀ graph', ReflTransGen (Turn total) graph graph' → ∀ (leaf : Task) (idx : ℕ),
    graph'.externals = [leaf] → findEqual graph'.nodes leaf (List.range total) = some idx →
      graph'.nodes[idx]? = some leaf

theorem TakesLeaves.turn {graph' : DiGraph Task} (h : TakesLeaves total graph)
    (hturn : Turn total graph graph') : TakesLeaves total graph' :=
  fun graph'' hreach => h graph'' (.head hturn hreach)

/-- What is found is the leaf exactly where that comes first. -/
theorem findEqual_eq_leaf_iff (hi : graph.nodes[i]? = some leaf)
    (hfind : findEqual graph.nodes leaf (List.range total) = some idx)
    (htotal : graph.nodes.length ≤ total) :
    idx = i ↔ ∀ (j : ℕ) (n : Task), j < i → graph.nodes[j]? = some n → n.eq leaf = false := by
  obtain ⟨idx', m, hfind', hle, hm, hmeq, hfirst⟩ := findEqual_range hi leaf.eq_self htotal
  obtain rfl := Option.some.inj (hfind.symm.trans hfind')
  constructor
  · rintro rfl
    exact hfirst
  · intro hnone
    obtain heq | hlt := Nat.eq_or_lt_of_le hle
    · exact heq
    · rw [hnone idx m hlt hm] at hmeq
      exact nomatch hmeq

section Sole

variable (h : graph.Keyed taskKey) (hleaves : graph.externals = [leaf])
  (hi : graph.nodes[i]? = some leaf)
include h hleaves hi

/-- With a single leaf, the graph is one of these if the leaf comes first, and the graph
without it is one. -/
theorem leavesFirst_of_sole :
    LeavesFirst graph ↔
      (∀ (j : ℕ) (n : Task), j < i → graph.nodes[j]? = some n → n.eq leaf = false) ∧
        LeavesFirst (graph.removeNode i) := by
  constructor
  · intro hfirst
    exact ⟨hfirst graph .refl leaf i hleaves hi, hfirst.peel ⟨leaf, i, hleaves, hi, rfl⟩⟩
  · rintro ⟨hnone, hrest⟩ graph' hreach leaf' i' hleaves' hi'
    obtain rfl | ⟨_, ⟨leaf'', i'', hsole, hi'', rfl⟩, hreach⟩ := hreach.cases_head
    · obtain rfl := List.singleton_injective (hleaves.symm.trans hleaves')
      obtain rfl := h.index_unique hi hi' rfl
      exact hnone
    · obtain rfl := List.singleton_injective (hleaves.symm.trans hsole)
      obtain rfl := h.index_unique hi hi'' rfl
      exact hrest graph' hreach leaf' i' hleaves' hi'

/-- The same of the turns that are taken. -/
theorem takesLeaves_of_sole (hfind : findEqual graph.nodes leaf (List.range total) = some idx) :
    TakesLeaves total graph ↔ idx = i ∧ TakesLeaves total (graph.removeNode idx) := by
  constructor
  · intro htakes
    refine ⟨h.index_unique (htakes graph .refl leaf idx hleaves hfind) hi rfl, ?_⟩
    exact htakes.turn ⟨leaf, idx, hleaves, hfind, rfl⟩
  · rintro ⟨rfl, hrest⟩ graph' hreach leaf' idx' hleaves' hfind'
    obtain rfl | ⟨_, ⟨leaf'', idx'', hsole, hfind'', rfl⟩, hreach⟩ := hreach.cases_head
    · obtain rfl := List.singleton_injective (hleaves.symm.trans hleaves')
      obtain rfl := Option.some.inj (hfind.symm.trans hfind')
      exact hi
    · obtain rfl := List.singleton_injective (hleaves.symm.trans hsole)
      obtain rfl := Option.some.inj (hfind.symm.trans hfind'')
      exact hrest graph' hreach leaf' idx' hleaves' hfind'

end Sole

/-- Without a single leaf there is no turn. -/
theorem leavesFirst_of_ne (hne : ∀ leaf, graph.externals ≠ [leaf]) : LeavesFirst graph := by
  intro graph' hreach leaf i hleaves
  obtain rfl | ⟨_, ⟨leaf', _, hsole, -⟩, -⟩ := hreach.cases_head
  · exact absurd hleaves (hne leaf)
  · exact absurd hsole (hne leaf')

theorem takesLeaves_of_ne (hne : ∀ leaf, graph.externals ≠ [leaf]) : TakesLeaves total graph := by
  intro graph' hreach leaf idx hleaves
  obtain rfl | ⟨_, ⟨leaf', _, hsole, -⟩, -⟩ := hreach.cases_head
  · exact absurd hleaves (hne leaf)
  · exact absurd hsole (hne leaf')

/-- **The loop takes off nothing but leaves exactly where these come first.** -/
theorem leavesFirst_iff (h : graph.Keyed taskKey) (htotal : graph.nodes.length ≤ total) :
    LeavesFirst graph ↔ TakesLeaves total graph := by
  induction hlen : graph.nodes.length using Nat.strongRecOn generalizing graph with
  | ind k ih =>
    by_cases hne : ∀ leaf, graph.externals ≠ [leaf]
    · exact iff_of_true (leavesFirst_of_ne hne) (takesLeaves_of_ne hne)
    · obtain ⟨leaf, hleaves⟩ := not_forall_not.1 hne
      obtain ⟨i, hi, -⟩ := DiGraph.mem_externals.1 (hleaves ▸ List.mem_singleton_self leaf)
      obtain ⟨idx, m, hfind, -⟩ := findEqual_range hi leaf.eq_self htotal
      have hlt := (List.getElem?_eq_some_iff.1 hi).1
      have hlen' : (graph.removeNode i).nodes.length = graph.nodes.length - 1 :=
        length_swapRemove hlt
      rw [leavesFirst_of_sole h hleaves hi, takesLeaves_of_sole h hleaves hi hfind,
        ← findEqual_eq_leaf_iff hi hfind htotal]
      refine and_congr_right ?_
      rintro rfl
      exact ih _ (by omega) (h.removeNode hi) (by omega) rfl

/-- No two tasks at different indices are equal. -/
def NoTwins (graph : DiGraph Task) : Prop :=
  ∀ (i j : ℕ) (n m : Task), i ≠ j → graph.nodes[i]? = some n → graph.nodes[j]? = some m →
    n.eq m = false

theorem NoTwins.removeNode (h : NoTwins graph) (hi : i < graph.nodes.length) :
    NoTwins (graph.removeNode i) := by
  intro p q n m hpq hp hq
  have hlen : (graph.removeNode i).nodes.length = graph.nodes.length - 1 := length_swapRemove hi
  have hlt := (List.getElem?_eq_some_iff.1 hp).1
  have hlt' := (List.getElem?_eq_some_iff.1 hq).1
  obtain ⟨p', hp', hpi, rfl⟩ := exists_swapIndex hi (hlen ▸ hlt)
  obtain ⟨q', hq', hqi, rfl⟩ := exists_swapIndex hi (hlen ▸ hlt')
  refine h p' q' n m ?_ ((getElem?_swapRemove hi hp' hpi).symm.trans hp)
    ((getElem?_swapRemove hi hq' hqi).symm.trans hq)
  rintro rfl
  exact hpq rfl

theorem NoTwins.peels {graph' : DiGraph Task} (h : NoTwins graph)
    (hreach : ReflTransGen Peel graph graph') : NoTwins graph' := by
  induction hreach with
  | refl => exact h
  | tail _ hpeel ih =>
    obtain ⟨leaf, i, -, hi, rfl⟩ := hpeel
    exact ih.removeNode (List.getElem?_eq_some_iff.1 hi).1

theorem NoTwins.leavesFirst (h : NoTwins graph) : LeavesFirst graph :=
  fun _ hreach leaf i _ hi j n hj hn => h.peels hreach j i n leaf (Nat.ne_of_lt hj) hn hi

/-! ### Where it is wrong -/

/-- The edges of a chain: every task waits for the one before it. -/
def chainEdges (tasks order : List Task) : List (ℕ × ℕ) :=
  (order.tail.zip order).map fun e => (tasks.idxOf e.1, tasks.idxOf e.2)

/-- A chain of tasks, at the indices they have in a list. -/
def chain (tasks order : List Task) : DiGraph Task := ⟨tasks, chainEdges tasks order⟩

section Chain

variable {tasks order : List Task} (hkeys : (tasks.map taskKey).Nodup) (hperm : order.Perm tasks)
include hkeys hperm

omit hkeys in
theorem mem_of_mem_zip {e : Task × Task} (he : e ∈ order.tail.zip order) :
    e.1 ∈ tasks ∧ e.2 ∈ tasks := by
  obtain ⟨h₁, h₂⟩ := List.of_mem_zip (a := e.1) (b := e.2) he
  exact ⟨hperm.subset (List.mem_of_mem_tail h₁), hperm.subset h₂⟩

theorem keyed_chain : (chain tasks order).Keyed taskKey where
  nodup := hkeys
  inside := by
    intro e he
    obtain ⟨e', he', rfl⟩ := List.mem_map.1 he
    obtain ⟨h₁, h₂⟩ := mem_of_mem_zip hperm he'
    exact ⟨List.idxOf_lt_length_iff.2 h₁, List.idxOf_lt_length_iff.2 h₂⟩

omit hkeys in
/-- In a chain a task waits for the one before it, and for no other. -/
theorem hasEdge_chain_iff {a b : TaskKey} : (chain tasks order).HasEdge taskKey a b ↔
    ∃ e ∈ order.tail.zip order, taskKey e.1 = a ∧ taskKey e.2 = b := by
  constructor
  · rintro ⟨i, j, n, m, he, hn, hm, rfl, rfl⟩
    obtain ⟨e, hzip, heq⟩ := List.mem_map.1 he
    obtain ⟨rfl, rfl⟩ := Prod.mk.inj heq
    obtain ⟨h₁, h₂⟩ := mem_of_mem_zip hperm hzip
    have hn' : tasks[tasks.idxOf e.1]? = some n := hn
    have hm' : tasks[tasks.idxOf e.2]? = some m := hm
    rw [List.getElem?_idxOf h₁] at hn'
    rw [List.getElem?_idxOf h₂] at hm'
    exact ⟨e, hzip, congrArg taskKey (Option.some.inj hn'), congrArg taskKey (Option.some.inj hm')⟩
  · rintro ⟨e, he, rfl, rfl⟩
    obtain ⟨h₁, h₂⟩ := mem_of_mem_zip hperm he
    exact ⟨_, _, e.1, e.2, List.mem_map_of_mem he, List.getElem?_idxOf h₁,
      List.getElem?_idxOf h₂, rfl, rfl⟩

theorem nodup_order : (order.map taskKey).Nodup :=
  (hperm.map taskKey).nodup_iff.2 hkeys

end Chain

/-- In a list without repetition, no pair of neighbours is the other way round
somewhere else. -/
theorem pairwise_notMem_zip {α : Type} {l : List α} (hnodup : l.Nodup) :
    l.Pairwise fun a b => (a, b) ∉ l.tail.zip l := by
  induction l with
  | nil => exact .nil
  | cons y l ih =>
    obtain ⟨hy, hl⟩ := List.nodup_cons.1 hnodup
    cases l with
    | nil => exact List.pairwise_singleton _ _
    | cons x l =>
      refine List.pairwise_cons.2 ⟨fun b hb hmem => ?_, (ih hl).imp_of_mem ?_⟩
      · obtain heq | hmem := List.mem_cons.1 hmem
        · obtain ⟨rfl, -⟩ := Prod.mk.inj heq
          exact hy List.mem_cons_self
        · exact hy (List.mem_cons_of_mem x (List.of_mem_zip hmem).1)
      · intro a b ha hb hab hmem
        obtain heq | hmem := List.mem_cons.1 hmem
        · obtain ⟨-, rfl⟩ := Prod.mk.inj heq
          exact hy hb
        · exact hab hmem

/-- Neighbours are neighbours. -/
theorem isChain_mem_zip {α : Type} (l : List α) :
    l.IsChain fun a b => (b, a) ∈ l.tail.zip l := by
  induction l with
  | nil => exact .nil
  | cons y l ih =>
    cases l with
    | nil => exact .singleton y
    | cons x l =>
      refine List.isChain_cons_cons.2 ⟨List.mem_cons_self, ih.imp fun a b hab => ?_⟩
      exact List.mem_cons_of_mem _ hab

section Chain

variable {tasks order : List Task} (hkeys : (tasks.map taskKey).Nodup) (hperm : order.Perm tasks)
include hkeys hperm

/-- A chain has no cycle. -/
theorem acyclic_chain : (chain tasks order).Acyclic := by
  refine DiGraph.acyclic_of_rank (fun i => (tasks[i]?).elim 0 order.idxOf) fun e he => ?_
  obtain ⟨⟨x, y⟩, hzip, rfl⟩ := List.mem_map.1 he
  obtain ⟨hx, hy⟩ := mem_of_mem_zip hperm hzip
  obtain ⟨k, hk, hget⟩ := List.mem_iff_getElem.1 hzip
  rw [List.getElem_zip, Prod.mk.injEq] at hget
  dsimp only
  rw [List.getElem?_idxOf hx, List.getElem?_idxOf hy]
  have hnodup := (nodup_order hkeys hperm).of_map
  rw [List.length_zip, List.length_tail] at hk
  rw [Option.elim_some, Option.elim_some, ← hget.1, ← hget.2, List.getElem_tail,
    hnodup.idxOf_getElem, hnodup.idxOf_getElem]
  exact Nat.lt_succ_self k

/-- **A chain has one order.** -/
theorem oneOrder_chain : OneOrder (chain tasks order) := by
  have hac : NoCycle (chain tasks order) :=
    (keyed_chain hkeys hperm).not_transGen_self (acyclic_chain hkeys hperm)
  have hnodup := nodup_order hkeys hperm
  have horder : IsOrder ((chain tasks order).HasEdge taskKey)
      ((chain tasks order).nodes.map taskKey).toFinset (order.map taskKey) := by
    refine ⟨hnodup, List.toFinset_eq_of_perm _ _ (hperm.map taskKey), ?_⟩
    refine List.pairwise_map.2 ((pairwise_notMem_zip hnodup.of_map).imp_of_mem ?_)
    intro a b ha hb hab hedge
    obtain ⟨⟨x, y⟩, hzip, hxa, hyb⟩ := (hasEdge_chain_iff hperm).1 hedge
    obtain ⟨hx, hy⟩ := List.of_mem_zip hzip
    rw [List.inj_on_of_nodup_map hnodup (List.mem_of_mem_tail hx) ha hxa,
      List.inj_on_of_nodup_map hnodup hy hb hyb] at hzip
    exact hab hzip
  refine horder.existsUnique hac ?_
  refine List.isChain_map_of_isChain taskKey (fun a b hab => ?_) (isChain_mem_zip order)
  exact (hasEdge_chain_iff hperm).2 ⟨_, hab, rfl, rfl⟩

end Chain

/-- The first task of a chain waits for none. -/
theorem not_hasEdge_head {tasks rest : List Task} (hkeys : ((leaf :: rest).map taskKey).Nodup)
    (hperm : (leaf :: rest).Perm tasks) (b : TaskKey) :
    ¬ (chain tasks (leaf :: rest)).HasEdge taskKey (taskKey leaf) b := by
  intro hedge
  obtain ⟨⟨x, y⟩, hzip, hx, -⟩ := (hasEdge_chain_iff hperm).1 hedge
  have hmem : taskKey x ∈ rest.map taskKey := List.mem_map_of_mem (List.of_mem_zip hzip).1
  rw [hx] at hmem
  exact (List.nodup_cons.1 hkeys).1 hmem

/-- It is the only one. -/
theorem externals_chain {tasks rest : List Task} (hkeys : (tasks.map taskKey).Nodup)
    (hperm : (leaf :: rest).Perm tasks) : (chain tasks (leaf :: rest)).externals = [leaf] := by
  have hk := keyed_chain hkeys hperm
  have hleaf : leaf ∈ (chain tasks (leaf :: rest)).externals :=
    hk.mem_externals_iff.2 ⟨hperm.subset List.mem_cons_self,
      not_hasEdge_head (nodup_order hkeys hperm) hperm⟩
  have hsole : ∀ n ∈ (chain tasks (leaf :: rest)).externals, n = leaf := by
    intro n hn
    obtain ⟨hn, hout⟩ := hk.mem_externals_iff.1 hn
    obtain rfl | hn := List.mem_cons.1 (hperm.mem_iff.2 hn)
    · rfl
    · obtain ⟨c, -, hzip⟩ := exists_rel_of_isChain (isChain_mem_zip (leaf :: rest)) hn
      exact absurd ((hasEdge_chain_iff hperm).2 ⟨_, hzip, rfl, rfl⟩) (hout (taskKey c))
  have hnodup := hk.nodup_externals.of_map
  generalize (chain tasks (leaf :: rest)).externals = leaves at hleaf hsole hnodup
  match leaves, hleaf with
  | [n], _ => rw [hsole n List.mem_cons_self]
  | n :: n' :: _, _ =>
    rw [hsole n List.mem_cons_self,
      hsole n' (List.mem_cons_of_mem n List.mem_cons_self)] at hnodup
    exact absurd List.mem_cons_self (List.nodup_cons.1 hnodup).1

theorem eq_iff {n m : Task} : n.eq m = true ↔
    n.name = m.name ∧ n.args = m.args ∧ n.envKey = m.envKey ∧ n.runPhase = m.runPhase := by
  simp [Task.eq, and_assoc]

theorem eq_comm_of {n m : Task} (h : n.eq m = true) : m.eq n = true := by
  obtain ⟨hname, hargs, henv, hphase⟩ := eq_iff.1 h
  exact eq_iff.2 ⟨hname.symm, hargs.symm, henv.symm, hphase.symm⟩

/-- **Of three tasks, two of which are equal, the answer is wrong for a chain**: the
last is the second one of the two, and the first of all that equal it stands right
before it. -/
theorem exists_not_linearExact {tasks : List Task} (hkeys : (tasks.map taskKey).Nodup)
    (hlen : 3 ≤ tasks.length) {i j : ℕ} (hij : i < j) (hn : tasks[i]? = some n)
    (hleaf : tasks[j]? = some leaf) (heq : n.eq leaf = true) :
    ∃ d : Deps, d.graph.nodes = tasks ∧ d.graph.Keyed taskKey ∧ d.graph.Acyclic ∧
      ¬ d.LinearExact := by
  obtain ⟨idx, m, hfind, hle, hm, -, -⟩ := findEqual_range hn heq le_rfl
  have hnodup := hkeys.of_map
  have hlmem : leaf ∈ tasks := List.mem_of_getElem? hleaf
  have hmmem : m ∈ tasks := List.mem_of_getElem? hm
  have hne : m ≠ leaf := by
    rintro rfl
    have hlt := (List.getElem?_eq_some_iff.1 hm).1
    have := (List.getElem?_inj hlt hnodup).1 (hm.trans hleaf.symm)
    omega
  have hmrest : m ∈ tasks.erase leaf := (List.mem_erase_of_ne hne).2 hmmem
  -- a third task, which waits for the one that is taken for the leaf
  obtain ⟨c, rest, hrest⟩ : ∃ c rest, (tasks.erase leaf).erase m = c :: rest := by
    refine List.exists_cons_of_ne_nil (List.ne_nil_of_length_pos ?_)
    rw [List.length_erase_of_mem hmrest, List.length_erase_of_mem hlmem]
    omega
  have hperm : (leaf :: m :: c :: rest).Perm tasks := by
    rw [← hrest]
    exact ((List.perm_cons_erase hmrest).symm.cons leaf).trans (List.perm_cons_erase hlmem).symm
  have hk := keyed_chain hkeys hperm
  have hac := acyclic_chain hkeys hperm
  refine ⟨.ofGraph (chain tasks (leaf :: m :: c :: rest)) [], rfl, hk, hac, ?_⟩
  rintro ⟨answer, hanswer, hiff⟩
  have hkeys' := nodup_order hkeys hperm
  have hmk : (chain tasks (leaf :: m :: c :: rest)).nodes[idx]? = some m := hm
  obtain ⟨hlnot, hkeys''⟩ := List.nodup_cons.1 hkeys'
  obtain ⟨hmnot, hkeys''⟩ := List.nodup_cons.1 hkeys''
  obtain ⟨hcnot, -⟩ := List.nodup_cons.1 hkeys''
  rw [List.map_cons, List.map_cons, List.mem_cons, not_or] at hlnot
  rw [List.map_cons, List.mem_cons, not_or] at hmnot
  have hcmem : c ∈ tasks :=
    hperm.subset (List.mem_cons_of_mem leaf (List.mem_cons_of_mem m List.mem_cons_self))
  -- without that task both the leaf and the third one are left without dependencies
  have hk' := hk.removeNode hmk
  have hl' : leaf ∈ ((chain tasks (leaf :: m :: c :: rest)).removeNode idx).externals := by
    refine hk'.mem_externals_iff.2 ⟨(hk.mem_removeNode_iff hmk).2 ⟨hlmem, hlnot.1⟩, ?_⟩
    intro b hedge
    exact not_hasEdge_head hkeys' hperm b ((hk.hasEdge_removeNode_iff hmk).1 hedge).1
  have hc' : c ∈ ((chain tasks (leaf :: m :: c :: rest)).removeNode idx).externals := by
    refine hk'.mem_externals_iff.2 ⟨(hk.mem_removeNode_iff hmk).2 ⟨hcmem, Ne.symm hmnot.1⟩, ?_⟩
    intro b hedge
    obtain ⟨hedge, -, hb⟩ := (hk.hasEdge_removeNode_iff hmk).1 hedge
    obtain ⟨⟨x, y⟩, hzip, hx, hy⟩ := (hasEdge_chain_iff hperm).1 hedge
    dsimp only at hx hy
    obtain heq | hzip := List.mem_cons.1 hzip
    · obtain ⟨rfl, -⟩ := Prod.mk.inj heq
      exact hmnot.1 hx
    · obtain heq | hzip := List.mem_cons.1 hzip
      · obtain ⟨-, rfl⟩ := Prod.mk.inj heq
        exact hb hy.symm
      · have hmem : taskKey x ∈ rest.map taskKey := List.mem_map_of_mem (List.of_mem_zip hzip).1
        rw [hx] at hmem
        exact hcnot hmem
  have hlc : leaf ≠ c := by
    rintro rfl
    exact hlnot.2 List.mem_cons_self
  have hfalse := (linearFrom_of_sole (externals_chain hkeys hperm) hfind).trans
    (linearFrom_of_two hl' hc' hlc)
  have htrue := hiff.2 (oneOrder_chain hkeys hperm)
  rw [Option.some.inj (hanswer.symm.trans hfalse)] at htrue
  exact nomatch htrue

/-- A single task is linear. -/
theorem linearFrom_of_length_le_one (h : graph.Keyed taskKey) (hac : NoCycle graph)
    (hlen : graph.nodes.length ≤ 1) (htotal : graph.nodes.length ≤ total) :
    linearFrom total graph = some true ∧ OneOrder graph := by
  have horder : OneOrder graph := by
    refine existsUnique_isOrder_of_card_le_one hac ?_
    rw [List.toFinset_card_of_nodup h.nodup, List.length_map]
    exact hlen
  have htwins : NoTwins graph := by
    intro i j n m hij hn hm
    have hi := (List.getElem?_eq_some_iff.1 hn).1
    have hj := (List.getElem?_eq_some_iff.1 hm).1
    omega
  obtain ⟨answer, hanswer, hiff⟩ := linearFrom_exact h hac htwins.leavesFirst htotal
  rw [hiff.2 horder] at hanswer
  exact ⟨hanswer, horder⟩

/-- Of two tasks at most, the answer is right: whichever is taken off, the other is
left alone. -/
theorem linearFrom_of_length_le_two (h : graph.Keyed taskKey) (hac : NoCycle graph)
    (hlen : graph.nodes.length ≤ 2) (htotal : graph.nodes.length ≤ total) :
    ∃ answer, linearFrom total graph = some answer ∧ (answer = true ↔ OneOrder graph) := by
  match hleaves : graph.externals with
  | [] => exact ⟨true, linearFrom_of_nil hleaves, iff_of_true rfl (oneOrder_of_nil h hac hleaves)⟩
  | [leaf] =>
    obtain ⟨i, hi, -⟩ := DiGraph.mem_externals.1 (hleaves ▸ List.mem_singleton_self leaf)
    obtain ⟨idx, m, hfind, -, hm, -⟩ := findEqual_range hi leaf.eq_self htotal
    have hrest : ∀ {j : ℕ} {n : Task}, graph.nodes[j]? = some n →
        linearFrom total (graph.removeNode j) = some true ∧ OneOrder (graph.removeNode j) := by
      intro j n hn
      have hlen' : (graph.removeNode j).nodes.length = graph.nodes.length - 1 :=
        length_swapRemove (List.getElem?_eq_some_iff.1 hn).1
      exact linearFrom_of_length_le_one (h.removeNode hn) (noCycle_removeNode h hn hac)
        (by omega) (by omega)
    refine ⟨true, ?_, iff_of_true rfl ((oneOrder_of_sole h hac hleaves hi).2 (hrest hi).2)⟩
    rw [linearFrom_of_sole hleaves hfind]
    exact (hrest hm).1
  | n :: m :: rest => exact linearFrom_of_cons_cons h hac hleaves

/-- **Over some tasks, `is_linear` is right for every graph exactly if no two of them
are equal, or there are no three.** -/
theorem linearExact_tasks_iff (tasks : List Task) (hkeys : (tasks.map taskKey).Nodup) :
    (∀ d : Deps, d.graph.nodes = tasks → d.graph.Keyed taskKey → d.graph.Acyclic →
        d.LinearExact) ↔
      tasks.length ≤ 2 ∨ tasks.Pairwise fun n m => n.eq m = false := by
  constructor
  · intro hall
    by_contra hnot
    rw [not_or] at hnot
    obtain ⟨i, j, hi, hj, hij, heq⟩ : ∃ (i j : ℕ) (hi : i < tasks.length) (hj : j < tasks.length),
        i < j ∧ tasks[i].eq tasks[j] = true := by
      by_contra hnone
      refine hnot.2 (List.pairwise_iff_getElem.2 fun i j hi hj hij => ?_)
      by_contra heq
      exact hnone ⟨i, j, hi, hj, hij, eq_true_of_ne_false heq⟩
    obtain ⟨d, hnodes, hk, hac, hwrong⟩ := exists_not_linearExact hkeys (by omega) hij
      (List.getElem?_eq_getElem hi) (List.getElem?_eq_getElem hj) heq
    exact hwrong (hall d hnodes hk hac)
  · rintro (hlen | hpair) d rfl hk hac
    · exact linearFrom_of_length_le_two hk (hk.not_transGen_self hac) hlen le_rfl
    · refine linearFrom_exact hk (hk.not_transGen_self hac) (NoTwins.leavesFirst ?_) le_rfl
      intro i j n m hij hn hm
      obtain ⟨hi, rfl⟩ := List.getElem?_eq_some_iff.1 hn
      obtain ⟨hj, rfl⟩ := List.getElem?_eq_some_iff.1 hm
      obtain hlt | hlt := Nat.lt_or_gt_of_ne hij
      · exact List.pairwise_iff_getElem.1 hpair i j hi hj hlt
      · have hfalse := List.pairwise_iff_getElem.1 hpair j i hj hi hlt
        by_contra heq
        rw [eq_comm_of (eq_true_of_ne_false heq)] at hfalse
        exact nomatch hfalse

/-- **Whether `is_linear` is right for a graph.**  It never panics.  It is right where
every single leaf stands before its equals, that is where no turn takes off another
task than the leaf.  The tasks alone are enough for that only if no two of them are
equal, or there are no three. -/
theorem isLinear_exact (d : Deps) (hk : d.graph.Keyed taskKey) (hac : d.graph.Acyclic) :
    d.isLinear ≠ none ∧ (LeavesFirst d.graph → d.LinearExact) ∧
      (LeavesFirst d.graph ↔ TakesLeaves d.graph.nodes.length d.graph) ∧
      ((∀ d' : Deps, d'.graph.nodes = d.graph.nodes → d'.graph.Keyed taskKey →
          d'.graph.Acyclic → d'.LinearExact) ↔
        d.graph.nodes.length ≤ 2 ∨ d.graph.nodes.Pairwise fun n m => n.eq m = false) :=
  ⟨linearFrom_ne_none le_rfl,
    fun hfirst => linearFrom_exact hk (hk.not_transGen_self hac) hfirst le_rfl,
    leavesFirst_iff hk le_rfl, linearExact_tasks_iff _ hk.nodup⟩

/-! ### A remote task that runs twice after others -/

/-- A task whose node has no file. -/
def localTask (name : String) (phase : TaskRunPhase) : Task :=
  ⟨name, [], [], [], phase, none, ""⟩

/-- A remote task, with the environment that a dependency gives it. -/
def remoteStep (x : String) : Task :=
  ⟨"gen", [], [.val "X" x], [], .normal, some "https://example/gen", ""⟩

/-- The same once it is fetched, behind the task it follows. -/
def fetchedStep (x : String) : Task :=
  ⟨"gen", [], [], [.val "X" x], .post, some "/cache/gen", ""⟩

/-- `build` depends on `mid`, waits for `gen` with `X=2`, and is followed by `gen`
with `X=1`; `mid` is followed by `gen` with `X=2`, and by `done`, which waits for
`build`. -/
def stepsConfig : TaskConfig Unit where
  fetchTask t := .ok { t with
    env := [], overlayEnv := t.overlayEnv ++ t.env, file := some "/cache/gen" }
  renderRuntimeTemplates t := .ok t
  resolveDepends ts := .ok ts
  resolveTaskDepends t _ := .ok <|
    if t.name = "build" then
      ⟨[localTask "mid" .normal], [remoteStep "2"], [remoteStep "1"]⟩
    else if t.name = "mid" then
      ⟨[], [], [remoteStep "2", localTask "done" .normal]⟩
    else if t.name = "done" then ⟨[], [localTask "build" .normal], []⟩
    else ⟨[], [], []⟩
  findCycles _ := []

/-- The graph of these tasks. -/
def stepsGraph : DiGraph Task :=
  ⟨[localTask "build" .normal, localTask "mid" .normal, fetchedStep "1", fetchedStep "2",
      localTask "done" .post],
    [(4, 0), (0, 3), (4, 1), (3, 1), (2, 0), (0, 1)]⟩

def stepsDeps : Deps := .ofGraph stepsGraph
  [(taskKey (fetchedStep "1"), taskKey (localTask "build" .normal)),
    (taskKey (fetchedStep "2"), taskKey (localTask "mid" .normal)),
    (taskKey (localTask "done" .post), taskKey (localTask "mid" .normal))]

theorem new_stepsConfig :
    Deps.new stepsConfig [localTask "build" .normal] 10 = some (.ok stepsDeps) := rfl

theorem keyed_stepsGraph : stepsGraph.Keyed taskKey := ⟨by decide, by decide⟩

theorem acyclic_stepsGraph : stepsGraph.Acyclic :=
  DiGraph.acyclic_of_rank (fun i => [2, 0, 3, 1, 3].getD i 0) (by decide)

/-- The first `gen` is taken for the second, and its own turn does not come. -/
theorem linearFrom_stepsGraph : linearFrom 5 stepsGraph = some true := by
  rw [@linearFrom_of_sole 5 1 stepsGraph (localTask "mid" .normal) rfl rfl,
    @linearFrom_of_sole 5 2 _ (fetchedStep "2") rfl rfl,
    @linearFrom_of_sole 5 2 _ (fetchedStep "2") rfl rfl,
    @linearFrom_of_sole 5 0 _ (localTask "build" .normal) rfl rfl,
    @linearFrom_of_sole 5 0 _ (localTask "done" .post) rfl rfl]
  exact linearFrom_of_nil rfl

/-- Behind `build` there are two tasks to choose from. -/
theorem not_oneOrder_stepsGraph : ¬ OneOrder stepsGraph := by
  have hk := keyed_stepsGraph
  have hac : NoCycle stepsGraph := hk.not_transGen_self acyclic_stepsGraph
  have hmid : stepsGraph.nodes[1]? = some (localTask "mid" .normal) := rfl
  have hk₁ := hk.removeNode hmid
  have hac₁ := noCycle_removeNode hk hmid hac
  have hgen : (stepsGraph.removeNode 1).nodes[3]? = some (fetchedStep "2") := rfl
  have hk₂ := hk₁.removeNode hgen
  have hac₂ := noCycle_removeNode hk₁ hgen hac₁
  have hbuild : ((stepsGraph.removeNode 1).removeNode 3).nodes[0]? =
      some (localTask "build" .normal) := rfl
  rw [oneOrder_of_sole hk hac rfl hmid, oneOrder_of_sole hk₁ hac₁ rfl hgen,
    oneOrder_of_sole hk₂ hac₂ rfl hbuild]
  have hleaves : (((stepsGraph.removeNode 1).removeNode 3).removeNode 0).externals =
      [fetchedStep "1", localTask "done" .post] := rfl
  refine not_oneOrder_of_two (hk₂.removeNode hbuild) (noCycle_removeNode hk₂ hbuild hac₂)
    (hleaves ▸ List.mem_cons_self)
    (hleaves ▸ List.mem_cons_of_mem _ (List.mem_singleton_self _)) (by decide)

/-- **A graph that is not linear is taken for one.** -/
theorem not_isLinear_exact : ¬ ∀ (config : TaskConfig Unit) (tasks : List Task) (fuel : ℕ)
    (d : Deps), Deps.new config tasks fuel = some (.ok d) → d.graph.Acyclic →
    d.LinearExact := by
  intro hall
  obtain ⟨answer, hanswer, hiff⟩ := hall _ _ _ _ new_stepsConfig acyclic_stepsGraph
  have htrue : answer = true := Option.some.inj (hanswer.symm.trans linearFrom_stepsGraph)
  exact not_oneOrder_stepsGraph (hiff.1 htrue)

/-- A task beside two that are equal, and no edge. -/
def looseDeps : Deps :=
  .ofGraph ⟨[localTask "a" .normal, fetchedStep "1", fetchedStep "2"], []⟩ []

/-- There is no turn to take a wrong task off in. -/
theorem leavesFirst_looseDeps : LeavesFirst looseDeps.graph := by
  refine leavesFirst_of_ne fun leaf hleaves => ?_
  have hlength := congrArg List.length hleaves
  exact absurd hlength (show looseDeps.graph.externals.length ≠ 1 by decide)

theorem isLinear_exact_loose : LeavesFirst looseDeps.graph ∧ looseDeps.LinearExact ∧
    ¬looseDeps.graph.nodes.Pairwise fun n m => n.eq m = false :=
  ⟨leavesFirst_looseDeps,
    (isLinear_exact looseDeps ⟨by decide, by decide⟩
      (DiGraph.acyclic_of_rank (fun _ => 0) (by decide))).2.1 leavesFirst_looseDeps, by decide⟩

end Deps

end Mise
