/-
# What the construction of the task graph guarantees

`Deps::new` gives every key one node, joins only nodes that are there, and
draws an edge from each task of a post subtree to each of the parents recorded
for it.
-/

import Mise.Lib.Fallible
import Mise.Task.Deps

namespace Mise

open Lib DiGraph

/-! ### Folds that keep an invariant -/

section Folds

variable {α σ ε : Type} {P : σ → Prop}

theorem foldl_keeps {f : σ → α → σ} (hf : ∀ s a, P s → P (f s a)) (l : List α) {s : σ} (hs : P s) :
    P (l.foldl f s) := by
  induction l generalizing s with
  | nil => exact hs
  | cons a l ih => exact ih (hf s a hs)

theorem foldlM_keeps {f : σ → α → Except ε σ} (hf : ∀ s a s', P s → f s a = .ok s' → P s')
    {l : List α} {s s' : σ} (hs : P s) (h : l.foldlM f s = .ok s') : P s' := by
  induction l generalizing s with
  | nil =>
    obtain rfl := Except.ok.inj h
    exact hs
  | cons a l ih =>
    rw [List.foldlM_cons] at h
    cases ha : f s a with
    | error e => rw [ha] at h; cases h
    | ok t =>
      rw [ha] at h
      exact ih (hf s a t hs ha) h

end Folds

/-! ### Nodes by key -/

section Index

variable {graph : DiGraph Task} {key : TaskKey} {i : ℕ}

/-- There is a node with the key. -/
def HasKey (graph : DiGraph Task) (key : TaskKey) : Prop := key ∈ graph.nodes.map taskKey

theorem indexOf_eq_some (h : indexOf graph key = some i) :
    ∃ n, graph.nodes[i]? = some n ∧ taskKey n = key := by
  obtain ⟨hi, hkey, -⟩ := List.findIdx?_eq_some_iff_getElem.1 h
  exact ⟨_, List.getElem?_eq_getElem hi, by simpa using hkey⟩

theorem indexOf_eq_none (h : indexOf graph key = none) : ¬ HasKey graph key := by
  intro hkey
  obtain ⟨n, hn, rfl⟩ := List.mem_map.1 hkey
  have := List.findIdx?_eq_none_iff.1 h n hn
  simp at this

theorem exists_indexOf (h : HasKey graph key) : ∃ i, indexOf graph key = some i := by
  cases hi : indexOf graph key with
  | none => exact absurd h (indexOf_eq_none hi)
  | some i => exact ⟨i, rfl⟩

/-- **`add_idx` adds a node only for a key that has none.** -/
theorem addIdx_spec (task : Task) (h : Keyed taskKey graph) :
    Keyed taskKey (addIdx task graph).1 ∧
      (∃ n, (addIdx task graph).1.nodes[(addIdx task graph).2]? = some n ∧ taskKey n = taskKey task) ∧
      graph.nodes <+: (addIdx task graph).1.nodes ∧ (addIdx task graph).1.edges = graph.edges := by
  unfold addIdx
  cases hi : indexOf graph (taskKey task) with
  | some i => exact ⟨h, indexOf_eq_some hi, List.prefix_rfl, rfl⟩
  | none =>
    refine ⟨⟨?_, fun e he => ?_⟩, ⟨task, by simp [addNode], rfl⟩, List.prefix_append _ _, rfl⟩
    · have hnew := indexOf_eq_none hi
      simp only [addNode, List.map_append, List.map_cons, List.map_nil]
      rw [List.nodup_append]
      refine ⟨h.nodup, List.nodup_singleton _, ?_⟩
      rintro a ha b hb rfl
      exact hnew (List.mem_singleton.1 hb ▸ ha)
    · have := h.inside e he
      simp only [addNode, List.length_append, List.length_singleton]
      omega

theorem HasKey.mono {graph' : DiGraph Task} (h : HasKey graph key)
    (hpre : graph.nodes <+: graph'.nodes) : HasKey graph' key :=
  (hpre.map taskKey).subset h

theorem hasKey_of_getElem? {n : Task} (h : graph.nodes[i]? = some n) : HasKey graph (taskKey n) :=
  List.mem_map_of_mem (List.mem_of_getElem? h)

/-- An edge between nodes keeps the keys distinct. -/
theorem Keyed.updateEdge (h : Keyed taskKey graph) {a b : ℕ} (ha : a < graph.nodes.length)
    (hb : b < graph.nodes.length) : Keyed taskKey (graph.updateEdge a b) := by
  refine ⟨by rw [nodes_updateEdge]; exact h.nodup, fun e he => ?_⟩
  rw [nodes_updateEdge]
  rcases mem_edges_updateEdge.1 he with rfl | he
  · exact ⟨ha, hb⟩
  · exact h.inside e he

end Index

/-! ### The worklist -/

/-- What the worklist keeps: one node a key, and every recorded pair joins keys
that have nodes. -/
structure Build.Sound (b : Build) : Prop where
  keyed : Keyed taskKey b.graph
  post : ∀ e ∈ b.directPostParents, HasKey b.graph e.1 ∧ HasKey b.graph e.2
  deps : ∀ e ∈ b.depEdges, HasKey b.graph e.1 ∧ HasKey b.graph e.2

namespace Build

variable {ε : Type} {config : TaskConfig ε} {b b' : Build}

/-- Only the graph matters for the pairs that were there. -/
theorem Sound.mono (h : b.Sound) (graph : DiGraph Task)
    (hkeys : ∀ k, HasKey b.graph k → HasKey graph k) :
    (∀ e ∈ b.directPostParents, HasKey graph e.1 ∧ HasKey graph e.2) ∧
      ∀ e ∈ b.depEdges, HasKey graph e.1 ∧ HasKey graph e.2 :=
  ⟨fun e he => ⟨hkeys _ (h.post e he).1, hkeys _ (h.post e he).2⟩,
    fun e he => ⟨hkeys _ (h.deps e he).1, hkeys _ (h.deps e he).2⟩⟩

theorem Sound.addRoot (h : b.Sound) {task : Task} (hok : addRoot config b task = .ok b') :
    b'.Sound := by
  obtain ⟨t, -, rfl⟩ := map_eq_ok hok
  obtain ⟨hkeyed, -, hpre, -⟩ := addIdx_spec t h.keyed
  obtain ⟨hpost, hdeps⟩ := h.mono _ fun k hk => hk.mono hpre
  exact ⟨hkeyed, hpost, hdeps⟩

/-- The node of the task that is being expanded. -/
def At (b : Build) (a : Task) (aIdx : ℕ) : Prop :=
  ∃ n, b.graph.nodes[aIdx]? = some n ∧ taskKey n = taskKey a

theorem At.mono {a : Task} {aIdx : ℕ} (h : b.At a aIdx)
    (hpre : b.graph.nodes <+: b'.graph.nodes) : b'.At a aIdx := by
  obtain ⟨n, hn, hkey⟩ := h
  obtain ⟨l, hl⟩ := hpre
  rw [At, ← hl]
  exact ⟨n, by rw [List.getElem?_append_left (List.getElem?_eq_some_iff.1 hn).1, hn], hkey⟩

theorem At.hasKey {a : Task} {aIdx : ℕ} (h : b.At a aIdx) : HasKey b.graph (taskKey a) := by
  obtain ⟨n, hn, hkey⟩ := h
  exact hkey ▸ hasKey_of_getElem? hn

theorem Sound.addDepend {a : Task} {aIdx : ℕ} (h : b.Sound ∧ b.At a aIdx) {task : Task}
    (hok : addDepend config a aIdx b task = .ok b') : b'.Sound ∧ b'.At a aIdx := by
  obtain ⟨t, -, rfl⟩ := map_eq_ok hok
  obtain ⟨hs, hat⟩ := h
  obtain ⟨hkeyed, ⟨n, hn, hkey⟩, hpre, -⟩ := addIdx_spec t hs.keyed
  have hat' : Build.At { b with graph := (addIdx t b.graph).1 } a aIdx := hat.mono hpre
  have hedge : Keyed taskKey ((addIdx t b.graph).1.updateEdge aIdx (addIdx t b.graph).2) := by
    obtain ⟨m, hm, -⟩ := hat'
    exact Keyed.updateEdge hkeyed (List.getElem?_eq_some_iff.1 hm).1
      (List.getElem?_eq_some_iff.1 hn).1
  have hkeys : ∀ k, HasKey (addIdx t b.graph).1 k →
      HasKey ((addIdx t b.graph).1.updateEdge aIdx (addIdx t b.graph).2) k := by
    intro k hk
    rwa [HasKey, nodes_updateEdge]
  obtain ⟨hpost, hdeps⟩ := hs.mono _ fun k hk => hkeys k (hk.mono hpre)
  refine ⟨⟨hedge, hpost, fun e he => ?_⟩, ?_⟩
  · rcases List.mem_insert_iff.1 he with rfl | he
    · exact ⟨hkeys _ hat'.hasKey, hkeys _ (hkey ▸ hasKey_of_getElem? hn)⟩
    · exact hdeps e he
  · exact hat'.mono (by rw [nodes_updateEdge])

theorem Sound.addDependPost {a : Task} {aIdx : ℕ} (h : b.Sound ∧ b.At a aIdx) {task : Task}
    (hok : addDependPost config a b task = .ok b') : b'.Sound ∧ b'.At a aIdx := by
  obtain ⟨t, -, rfl⟩ := map_eq_ok hok
  obtain ⟨hs, hat⟩ := h
  obtain ⟨hkeyed, ⟨n, hn, hkey⟩, hpre, -⟩ := addIdx_spec t hs.keyed
  obtain ⟨hpost, hdeps⟩ := hs.mono _ fun k hk => hk.mono hpre
  refine ⟨⟨hkeyed, fun e he => ?_, hdeps⟩, hat.mono hpre⟩
  rcases List.mem_insert_iff.1 he with rfl | he
  · exact ⟨hkey ▸ hasKey_of_getElem? hn, hat.hasKey.mono hpre⟩
  · exact hpost e he

/-- The node is overwritten by a task with the same key. -/
theorem Sound.place (h : b.Sound) (a : Task) :
    (b.place a).Sound ∧ (b.place a).At a (addIdx a b.graph).2 := by
  obtain ⟨hkeyed, ⟨n, hn, hkey⟩, hpre, -⟩ := addIdx_spec a h.keyed
  have hlt : (addIdx a b.graph).2 < (addIdx a b.graph).1.nodes.length :=
    (List.getElem?_eq_some_iff.1 hn).1
  have hnodes : (b.place a).graph.nodes.map taskKey = (addIdx a b.graph).1.nodes.map taskKey := by
    change ((addIdx a b.graph).1.nodes.set (addIdx a b.graph).2 a).map taskKey = _
    apply List.ext_getElem?
    intro i
    rw [List.map_set, List.getElem?_set]
    split_ifs with hi hlen
    · rw [← hi, List.getElem?_map, hn, Option.map_some, hkey]
    · exact absurd (by rwa [List.length_map]) hlen
    · rfl
  have hkeyed' : Keyed taskKey (b.place a).graph := by
    refine ⟨by rw [hnodes]; exact hkeyed.nodup, fun e he => ?_⟩
    have := hkeyed.inside e he
    rwa [← List.length_map taskKey, ← hnodes, List.length_map] at this
  obtain ⟨hpost, hdeps⟩ := h.mono (b.place a).graph fun k hk => by
    rw [HasKey, hnodes]
    exact hk.mono hpre
  exact ⟨⟨hkeyed', hpost, hdeps⟩, a, List.getElem?_set_self hlt, rfl⟩

/-- **One round of the worklist.** -/
theorem Sound.expand (h : b.Sound) {allTasksToRun : List Task} {task : Task}
    (hok : expand config allTasksToRun b task = .ok b') : b'.Sound := by
  obtain ⟨a, -, hok⟩ := bind_eq_ok hok
  obtain ⟨resolved, -, hok⟩ := bind_eq_ok hok
  obtain ⟨c, hdepends, hpost⟩ := bind_eq_ok hok
  obtain ⟨hc, hat⟩ := foldlM_keeps (fun s t s' hs ht => Sound.addDepend hs ht) (h.place a) hdepends
  have hwait : (c.addWaitFor a resolved.waitFor).Sound ∧
      (c.addWaitFor a resolved.waitFor).At a (addIdx a b.graph).2 :=
    ⟨⟨hc.keyed, hc.post, hc.deps⟩, hat⟩
  exact (foldlM_keeps (fun s t s' hs ht => Sound.addDependPost hs ht) hwait hpost).1

/-- **The whole worklist.** -/
theorem Sound.loop {allTasksToRun : List Task} {fuel : ℕ} (h : b.Sound)
    (hok : b.loop config allTasksToRun fuel = some (.ok b')) : b'.Sound := by
  induction fuel generalizing b with
  | zero => cases hok
  | succ fuel ih =>
    rw [Build.loop] at hok
    split at hok
    · obtain rfl := Except.ok.inj (Option.some.inj hok)
      exact h
    · rename_i a stack _
      dsimp only at hok
      split_ifs at hok
      · have hpop : Build.Sound { b with stack } := ⟨h.keyed, h.post, h.deps⟩
        exact ih hpop hok
      · split at hok
        · rename_i c hc
          have hseen : Build.Sound { b with stack, seen := b.seen.insert (taskKey a) } :=
            ⟨h.keyed, h.post, h.deps⟩
          exact ih (hseen.expand hc) hok
        · cases Option.some.inj hok

end Build

/-! ### The barriers -/

section Barriers

variable {graph : DiGraph Task}

/-- The keys of a pair have nodes. -/
def Joins (graph : DiGraph Task) (e : TaskKey × TaskKey) : Prop :=
  HasKey graph e.1 ∧ HasKey graph e.2

theorem addPostParent_joins {s : List (TaskKey × TaskKey) × List (TaskKey × TaskKey)}
    {e : TaskKey × TaskKey} (he : Joins graph e)
    (hs : (∀ x ∈ s.1, Joins graph x) ∧ ∀ x ∈ s.2, Joins graph x) :
    (∀ x ∈ (addPostParent s e).1, Joins graph x) ∧ ∀ x ∈ (addPostParent s e).2, Joins graph x := by
  unfold addPostParent
  split_ifs with hmem
  · exact hs
  · refine ⟨fun x hx => ?_, fun x hx => ?_⟩
    · rcases List.mem_insert_iff.1 hx with rfl | hx
      · exact he
      · exact hs.1 x hx
    · rcases List.mem_append.1 hx with hx | hx
      · exact hs.2 x hx
      · exact List.mem_singleton.1 hx ▸ he

theorem foldl_addPostParent_joins {l : List (TaskKey × TaskKey)} (hl : ∀ e ∈ l, Joins graph e)
    {s : List (TaskKey × TaskKey) × List (TaskKey × TaskKey)}
    (hs : (∀ x ∈ s.1, Joins graph x) ∧ ∀ x ∈ s.2, Joins graph x) :
    (∀ x ∈ (l.foldl addPostParent s).1, Joins graph x) ∧
      ∀ x ∈ (l.foldl addPostParent s).2, Joins graph x := by
  induction l generalizing s with
  | nil => exact hs
  | cons e l ih =>
    exact ih (fun x hx => hl x (List.mem_cons_of_mem _ hx))
      (addPostParent_joins (hl e List.mem_cons_self) hs)

theorem propagatePostParents_joins {depEdges : List (TaskKey × TaskKey)}
    (hdeps : ∀ e ∈ depEdges, Joins graph e) (fuel : ℕ) {parents pending : List (TaskKey × TaskKey)}
    (hs : (∀ x ∈ parents, Joins graph x) ∧ ∀ x ∈ pending, Joins graph x) :
    ∀ x ∈ propagatePostParents depEdges fuel parents pending, Joins graph x := by
  induction fuel generalizing parents pending with
  | zero => exact hs.1
  | succ fuel ih =>
    rcases pending with _ | ⟨⟨postKey, parent⟩, pending⟩
    · exact hs.1
    · refine ih (foldl_addPostParent_joins (fun e he => ?_)
        ⟨hs.1, fun x hx => hs.2 x (List.mem_cons_of_mem _ hx)⟩)
      obtain ⟨edge, hedge, heq⟩ := List.mem_filterMap.1 he
      split_ifs at heq
      obtain rfl := Option.some.inj heq
      exact ⟨(hdeps edge hedge).2, (hs.2 _ List.mem_cons_self).2⟩

theorem hasEdge_of_mem {key : Task → TaskKey} {i j : ℕ} {n m : Task} (h : (i, j) ∈ graph.edges)
    (hi : graph.nodes[i]? = some n) (hj : graph.nodes[j]? = some m) :
    HasEdge key graph (key n) (key m) :=
  ⟨i, j, n, m, h, hi, hj, rfl, rfl⟩

/-- Between two graphs: the same nodes, and no edge less. -/
structure Extends (graph graph' : DiGraph Task) : Prop where
  nodes : graph'.nodes = graph.nodes
  edges : graph.edges ⊆ graph'.edges

theorem Extends.hasEdge {graph' : DiGraph Task} (h : Extends graph graph') {a b : TaskKey}
    (hab : HasEdge taskKey graph a b) : HasEdge taskKey graph' a b := by
  obtain ⟨i, j, n, m, he, hi, hj, ha, hb⟩ := hab
  exact ⟨i, j, n, m, h.edges he, by rw [h.nodes, hi], by rw [h.nodes, hj], ha, hb⟩

theorem extends_updateEdge (graph : DiGraph Task) (a b : ℕ) : Extends graph (graph.updateEdge a b) :=
  ⟨nodes_updateEdge _ _ _, fun _ he => mem_edges_updateEdge.2 (Or.inr he)⟩

theorem lt_of_indexOf {key : TaskKey} {i : ℕ} (h : indexOf graph key = some i) :
    i < graph.nodes.length := by
  obtain ⟨n, hn, -⟩ := indexOf_eq_some h
  exact (List.getElem?_eq_some_iff.1 hn).1

theorem lt_of_waitTarget {phase : TaskRunPhase} {target : Task} {i : ℕ}
    (h : waitTarget graph phase target = some i) : i < graph.nodes.length := by
  rcases Option.or_eq_some_iff.1 h with h | ⟨-, h⟩
  · exact (List.findIdx?_eq_some_iff_getElem.1 h).1
  · exact (List.findIdx?_eq_some_iff_getElem.1 h).1

theorem addBarrier_spec (h : Keyed taskKey graph) (e : TaskKey × TaskKey) :
    Keyed taskKey (addBarrier graph e) ∧ Extends graph (addBarrier graph e) := by
  unfold addBarrier
  split
  · rename_i i j hi hj
    exact ⟨Keyed.updateEdge h (lt_of_indexOf hi) (lt_of_indexOf hj), extends_updateEdge _ _ _⟩
  · exact ⟨h, rfl, fun _ he => he⟩

theorem addWaitEdge_spec (h : Keyed taskKey graph) (e : TaskKey × Task) :
    Keyed taskKey (addWaitEdge graph e) ∧ Extends graph (addWaitEdge graph e) := by
  unfold addWaitEdge
  split
  · rename_i i j hi hj
    exact ⟨Keyed.updateEdge h (lt_of_indexOf hi) (lt_of_waitTarget hj), extends_updateEdge _ _ _⟩
  · exact ⟨h, rfl, fun _ he => he⟩

/-- A fold whose steps extend the graph extends it. -/
theorem foldl_extends {α : Type} {f : DiGraph Task → α → DiGraph Task}
    (hf : ∀ g a, Keyed taskKey g → Keyed taskKey (f g a) ∧ Extends g (f g a)) (l : List α)
    (h : Keyed taskKey graph) : Keyed taskKey (l.foldl f graph) ∧ Extends graph (l.foldl f graph) := by
  induction l generalizing graph with
  | nil => exact ⟨h, rfl, fun _ he => he⟩
  | cons a l ih =>
    obtain ⟨hk, he⟩ := hf graph a h
    obtain ⟨hk', he'⟩ := ih hk
    exact ⟨hk', he'.nodes.trans he.nodes, List.Subset.trans he.edges he'.edges⟩

/-- **Every recorded pair gets its edge.** -/
theorem hasEdge_foldl_addBarrier {l : List (TaskKey × TaskKey)} (h : Keyed taskKey graph)
    (hl : ∀ e ∈ l, Joins graph e) {e : TaskKey × TaskKey} (he : e ∈ l) :
    HasEdge taskKey (l.foldl addBarrier graph) e.1 e.2 := by
  induction l generalizing graph with
  | nil => cases he
  | cons x l ih =>
    obtain ⟨hk, hx⟩ := addBarrier_spec h x
    rcases List.mem_cons.1 he with rfl | he
    · obtain ⟨-, hrest⟩ := foldl_extends (fun g a hg => addBarrier_spec hg a) l hk
      apply hrest.hasEdge
      obtain ⟨hpost, hparent⟩ := hl e List.mem_cons_self
      obtain ⟨i, hi⟩ := exists_indexOf hpost
      obtain ⟨j, hj⟩ := exists_indexOf hparent
      obtain ⟨n, hn, hkn⟩ := indexOf_eq_some hi
      obtain ⟨m, hm, hkm⟩ := indexOf_eq_some hj
      have heq : addBarrier graph e = graph.updateEdge i j := by rw [addBarrier, hi, hj]
      rw [heq, ← hkn, ← hkm]
      exact hasEdge_of_mem (mem_edges_updateEdge.2 (Or.inl rfl))
        (by rw [nodes_updateEdge, hn]) (by rw [nodes_updateEdge, hm])
    · refine ih hk (fun y hy => ?_) he
      have := hl y (List.mem_cons_of_mem _ hy)
      rw [Joins, HasKey, HasKey, hx.nodes]
      exact this

end Barriers

/-! ### The graph that is built -/

/-- What holds of a graph that `Deps::new` returns. -/
structure Deps.Built (d : Deps) : Prop where
  keyed : Keyed taskKey d.graph
  barrier : ∀ e ∈ d.postDepParents, HasEdge taskKey d.graph e.1 e.2
  fresh : d.sent = [] ∧ d.removed = [] ∧ d.executed = [] ∧ d.tx = ⟨false, [], []⟩

/-- What `Deps::new` finishes with is sound. -/
theorem Deps.exists_build_of_new {ε : Type} {config : TaskConfig ε} {tasks : List Task} {fuel : ℕ}
    {d : Deps} (h : Deps.new config tasks fuel = some (.ok d)) :
    ∃ b : Build, b.Sound ∧ Deps.finish config b = .ok d := by
  unfold Deps.new at h
  split at h
  · cases Option.some.inj h
  · rename_i b₀ hroots
    split at h
    · cases Option.some.inj h
    · split at h
      · cases h
      · cases Option.some.inj h
      · rename_i b hloop
        have hinit : Build.Sound ⟨.empty, [], [], [], [], []⟩ :=
          ⟨keyed_empty, by rintro e ⟨⟩, by rintro e ⟨⟩⟩
        have hb₀ : b₀.Sound := foldlM_keeps (fun s t s' hs ht => hs.addRoot ht) hinit hroots
        exact ⟨b, hb₀.loop hloop, Option.some.inj h⟩

/-- **`Deps::new` builds a keyed graph with all barriers.** -/
theorem Deps.built_of_new {ε : Type} {config : TaskConfig ε} {tasks : List Task} {fuel : ℕ} {d : Deps}
    (h : Deps.new config tasks fuel = some (.ok d)) : d.Built := by
  obtain ⟨b, hb, hfinish⟩ := Deps.exists_build_of_new h
  unfold Deps.finish at hfinish
  dsimp only at hfinish
  split_ifs at hfinish
  obtain rfl := Except.ok.inj hfinish
  have hparents : ∀ e ∈ postDepParentsOf b.graph.nodes.length b.directPostParents b.depEdges,
      Joins b.graph e :=
    propagatePostParents_joins hb.deps _
      (foldl_addPostParent_joins hb.post ⟨by rintro x ⟨⟩, by rintro x ⟨⟩⟩)
  obtain ⟨hk, -⟩ := foldl_extends (fun g a hg => addBarrier_spec hg a)
    (postDepParentsOf b.graph.nodes.length b.directPostParents b.depEdges) hb.keyed
  obtain ⟨hk', hext⟩ := foldl_extends (fun g a hg => addWaitEdge_spec hg a) b.waitEdges hk
  exact ⟨hk', fun e he => hext.hasEdge (hasEdge_foldl_addBarrier hb.keyed hparents he),
    rfl, rfl, rfl, rfl⟩

end Mise
