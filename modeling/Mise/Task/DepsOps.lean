/-
# What the operations of the task graph do

Against the graph as it was built: when the lookup of a removed task finds the
task's own node, removal takes that node and nothing else, and emission sends
exactly the leaves that were not sent before.
-/

import Mise.Task.DepsBuild

namespace Mise

open Lib DiGraph

namespace Deps

variable {d₀ d d' : Deps} {t : Task}

/-! ### Emission -/

/-- The leaves that have not been sent. -/
def newLeaves (d : Deps) : List Task :=
  d.graph.externals.filter fun t => decide (taskKey t ∉ d.sent)

/-- Nothing changes while nobody receives. -/
theorem emitLeaf_closed (h : d.tx.live = false) (t : Task) : d.emitLeaf t = d := by
  unfold emitLeaf
  dsimp only
  split_ifs with hsent
  · rfl
  · simp [Channel.send, h, List.insert_of_not_mem hsent]

theorem foldl_emitLeaf_closed (h : d.tx.live = false) (l : List Task) :
    l.foldl emitLeaf d = d := by
  induction l with
  | nil => rfl
  | cons t l ih => rw [List.foldl_cons, emitLeaf_closed h, ih]

/-- **The loop over the leaves** sends, in order, those that were not sent. -/
theorem foldl_emitLeaf_live (h : d.tx.live = true) {l : List Task} (hl : (l.map taskKey).Nodup) :
    l.foldl emitLeaf d = { d with
      sent := ((l.filter fun t => decide (taskKey t ∉ d.sent)).map taskKey).reverse ++ d.sent
      tx := ⟨true, d.tx.queue ++ (l.filter fun t => decide (taskKey t ∉ d.sent)).map some,
        d.tx.taken⟩ } := by
  induction l generalizing d with
  | nil =>
    obtain ⟨graph, sent, removed, executed, parents, ⟨live, queue, taken⟩⟩ := d
    obtain rfl : live = true := h
    simp
  | cons t l ih =>
    rw [List.map_cons, List.nodup_cons] at hl
    rw [List.foldl_cons]
    by_cases hsent : taskKey t ∈ d.sent
    · have hskip : d.emitLeaf t = d := if_pos hsent
      rw [hskip, ih h hl.2, List.filter_cons_of_neg (by simpa using hsent)]
    · have hsend : d.emitLeaf t = { d with
          sent := taskKey t :: d.sent, tx := ⟨true, d.tx.queue ++ [some t], d.tx.taken⟩ } := by
        simp [emitLeaf, hsent, Channel.send, h]
      -- the leaves after `t` have other keys, so that marking it does not hold them back
      have hrest : (l.filter fun u => decide (taskKey u ∉ taskKey t :: d.sent)) =
          l.filter fun u => decide (taskKey u ∉ d.sent) := by
        refine List.filter_congr fun u hu => ?_
        have hne : taskKey u ≠ taskKey t := fun heq => hl.1 (heq ▸ List.mem_map_of_mem hu)
        simp [hne]
      rw [hsend, ih rfl hl.2]
      dsimp only
      rw [hrest, List.filter_cons_of_pos (by simpa using hsent)]
      simp

/-- What `emit_leaves` does after its loop, when it does not panic. -/
theorem emitLeaves_eq_some {e : Deps} (he : d.graph.externals.foldl emitLeaf d = e)
    (hd : d.emitLeaves = some d') :
    d' = if e.isEmpty then { e with tx := (e.tx.send none).getD e.tx } else e := by
  unfold emitLeaves at hd
  dsimp only at hd
  rw [he] at hd
  split_ifs at hd ⊢
  · exact (Option.some.inj hd).symm
  · exact (Option.some.inj hd).symm

/-- `emit_leaves` to a receiver that is gone. -/
theorem emitLeaves_closed (h : d.tx.live = false) (hd : d.emitLeaves = some d') : d' = d := by
  rw [emitLeaves_eq_some (foldl_emitLeaf_closed h _) hd]
  simp [Channel.send, h]

/-- **`emit_leaves` to a live receiver** sends the new leaves, and then `None`
if the graph is empty. -/
theorem emitLeaves_live (hk : Keyed taskKey d.graph) (h : d.tx.live = true)
    (hd : d.emitLeaves = some d') : d' = { d with
      sent := (d.newLeaves.map taskKey).reverse ++ d.sent
      tx := ⟨true, d.tx.queue ++ (d.newLeaves.map some ++ if d.isEmpty then [none] else []),
        d.tx.taken⟩ } := by
  rw [emitLeaves_eq_some (foldl_emitLeaf_live h hk.nodup_externals) hd]
  cases hempty : d.isEmpty with
  | true =>
    rw [isEmpty] at hempty
    simp [Channel.send, newLeaves, isEmpty, hempty]
  | false =>
    rw [isEmpty] at hempty
    simp [newLeaves, isEmpty, hempty]

/-- Emission touches only the marks and the channel. -/
theorem emitLeaves_frame (hk : Keyed taskKey d.graph) (hd : d.emitLeaves = some d') :
    d'.graph = d.graph ∧ d'.removed = d.removed ∧ d'.executed = d.executed ∧
      d'.postDepParents = d.postDepParents ∧ d'.tx.live = d.tx.live ∧ d'.tx.taken = d.tx.taken := by
  cases hlive : d.tx.live with
  | false =>
    rw [emitLeaves_closed hlive hd]
    exact ⟨rfl, rfl, rfl, rfl, hlive, rfl⟩
  | true =>
    rw [emitLeaves_live hk hlive hd]
    exact ⟨rfl, rfl, rfl, rfl, rfl, rfl⟩

/-- **A graph without cycles never panics.** -/
theorem emitLeaves_isSome (hk : Keyed taskKey d.graph)
    (hac : ∀ a, ¬ Relation.TransGen (HasEdge taskKey d.graph) a a) : d.emitLeaves.isSome := by
  have hgraph : (d.graph.externals.foldl emitLeaf d).graph = d.graph := by
    cases hlive : d.tx.live with
    | false => rw [foldl_emitLeaf_closed hlive]
    | true => rw [foldl_emitLeaf_live hlive hk.nodup_externals]
  unfold emitLeaves
  dsimp only
  split_ifs with hempty hpanic
  · rfl
  · rw [isEmpty, hgraph, List.isEmpty_iff] at hempty
    rw [Bool.and_eq_true, List.isEmpty_iff] at hpanic
    exact absurd hpanic.1 (hk.externals_ne_nil hac hempty)
  · rfl

/-! ### Removal -/

/-- No node but its own stands in the way of a task's lookup: every node equal
to the task under another key comes after the task's own node. -/
def OwnFirst (d : Deps) (t : Task) : Prop :=
  ∀ (i : ℕ) (n : Task), d.graph.nodes[i]? = some n → n.eq t = true → taskKey n ≠ taskKey t →
    ∃ j < i, ∃ m, d.graph.nodes[j]? = some m ∧ taskKey m = taskKey t

/-- The same for each task of a batch, at its turn. -/
def OwnFirstAll : Deps → List Task → Prop
  | _, [] => True
  | d, t :: ts => d.OwnFirst t ∧ OwnFirstAll (d.removeNode t) ts

/-- The graph is the built one without the removed tasks. -/
structure Consistent (d₀ d : Deps) : Prop where
  keyed : Keyed taskKey d.graph
  nodes : ∀ n, n ∈ d.graph.nodes ↔ n ∈ d₀.graph.nodes ∧ taskKey n ∉ d.removed
  edges : ∀ a b, HasEdge taskKey d.graph a b ↔
    HasEdge taskKey d₀.graph a b ∧ a ∉ d.removed ∧ b ∉ d.removed
  parents : d.postDepParents = d₀.postDepParents

theorem Built.consistent (h : d₀.Built) : Consistent d₀ d₀ := by
  have hremoved := h.fresh.2.1
  refine ⟨h.keyed, fun n => ?_, fun a b => ?_, rfl⟩
  · simp [hremoved]
  · simp [hremoved]

/-- Only the graph and the removed tasks matter. -/
theorem Consistent.congr (h : Consistent d₀ d) (hgraph : d'.graph = d.graph)
    (hremoved : d'.removed = d.removed) (hparents : d'.postDepParents = d.postDepParents) :
    Consistent d₀ d' := by
  refine ⟨hgraph ▸ h.keyed, fun n => ?_, fun a b => ?_, hparents.trans h.parents⟩
  · rw [hgraph, hremoved]
    exact h.nodes n
  · rw [hgraph, hremoved]
    exact h.edges a b

theorem Consistent.emitLeaves (h : Consistent d₀ d) (hd : d.emitLeaves = some d') :
    Consistent d₀ d' := by
  obtain ⟨hgraph, hremoved, -, hparents, -, -⟩ := emitLeaves_frame h.keyed hd
  exact h.congr hgraph hremoved hparents

theorem Consistent.not_transGen_self (h : Consistent d₀ d) (h₀ : d₀.Built)
    (hac : d₀.graph.Acyclic) (a : TaskKey) :
    ¬ Relation.TransGen (HasEdge taskKey d.graph) a a := by
  intro haa
  refine h₀.keyed.not_transGen_self hac a ?_
  exact haa.lift id fun a b hab => ((h.edges a b).1 hab).1

section Removal

variable (h₀ : d₀.Built) (h : Consistent d₀ d) (ht : t ∈ d₀.graph.nodes) (hown : d.OwnFirst t)
include h₀ h ht hown

/-- **The lookup finds the task's own node.** -/
theorem getElem?_of_nodeIdx {i : ℕ} (hi : d.nodeIdx t = some i) : d.graph.nodes[i]? = some t := by
  obtain ⟨hlt, heq, hfirst⟩ := List.findIdx?_eq_some_iff_getElem.1 hi
  have hn : d.graph.nodes[i]? = some d.graph.nodes[i] := List.getElem?_eq_getElem hlt
  have hown_eq : ∀ {j : ℕ} {m : Task}, d.graph.nodes[j]? = some m → taskKey m = taskKey t → m = t :=
    fun hm hkey => h₀.keyed.eq_of_key ((h.nodes _).1 (List.mem_of_getElem? hm)).1 ht hkey
  by_cases hkey : taskKey d.graph.nodes[i] = taskKey t
  · rw [hn, hown_eq hn hkey]
  · -- an own node before it would have been found first
    obtain ⟨j, hji, m, hm, hkeym⟩ := hown i _ hn heq hkey
    obtain rfl := hown_eq hm hkeym
    obtain ⟨hj, hm'⟩ := List.getElem?_eq_some_iff.1 hm
    have := hfirst j hji
    rw [hm'] at this
    exact absurd (Task.eq_self m) this

omit h₀ hown in
/-- A task that is not found has left the graph. -/
theorem removed_of_nodeIdx (hi : d.nodeIdx t = none) : taskKey t ∈ d.removed := by
  by_contra hremoved
  have := List.findIdx?_eq_none_iff.1 hi t ((h.nodes t).2 ⟨ht, hremoved⟩)
  rw [Task.eq_self] at this
  cases this

/-- **Removal takes the task's own node and nothing else.** -/
theorem removeNode_spec : Consistent d₀ (d.removeNode t) ∧
    (∀ k, k ∈ (d.removeNode t).removed ↔ k = taskKey t ∨ k ∈ d.removed) ∧
    (∀ n, n ∈ (d.removeNode t).graph.nodes ↔ n ∈ d.graph.nodes ∧ taskKey n ≠ taskKey t) := by
  unfold removeNode
  cases hi : d.nodeIdx t with
  | none =>
    have hremoved := removed_of_nodeIdx h ht hi
    refine ⟨h, fun k => ⟨Or.inr, ?_⟩, fun n => ⟨fun hn => ⟨hn, ?_⟩, fun hn => hn.1⟩⟩
    · rintro (rfl | hk)
      · exact hremoved
      · exact hk
    · intro hkey
      exact ((h.nodes n).1 hn).2 (hkey ▸ hremoved)
  | some i =>
    have hidx := getElem?_of_nodeIdx h₀ h ht hown hi
    have hmem : ∀ k, k ∈ d.removed.insert (taskKey t) ↔ k = taskKey t ∨ k ∈ d.removed :=
      fun k => List.mem_insert_iff
    refine ⟨⟨h.keyed.removeNode hidx, fun n => ?_, fun a b => ?_, h.parents⟩, hmem,
      fun n => h.keyed.mem_removeNode_iff hidx⟩
    · dsimp only
      rw [h.keyed.mem_removeNode_iff hidx, h.nodes, hmem]
      tauto
    · dsimp only
      rw [h.keyed.hasEdge_removeNode_iff hidx, h.edges, hmem, hmem]
      tauto

end Removal

/-- Removal leaves the marks and the channel alone. -/
theorem removeNode_frame (d : Deps) (t : Task) : (d.removeNode t).sent = d.sent ∧
    (d.removeNode t).executed = d.executed ∧ (d.removeNode t).tx = d.tx ∧
    (d.removeNode t).postDepParents = d.postDepParents := by
  unfold removeNode
  split <;> exact ⟨rfl, rfl, rfl, rfl⟩

theorem foldl_removeNode_frame (d : Deps) (ts : List Task) :
    (ts.foldl removeNode d).sent = d.sent ∧ (ts.foldl removeNode d).executed = d.executed ∧
      (ts.foldl removeNode d).tx = d.tx ∧
      (ts.foldl removeNode d).postDepParents = d.postDepParents := by
  induction ts generalizing d with
  | nil => exact ⟨rfl, rfl, rfl, rfl⟩
  | cons t ts ih =>
    obtain ⟨h₁, h₂, h₃, h₄⟩ := ih (d.removeNode t)
    obtain ⟨h₁', h₂', h₃', h₄'⟩ := removeNode_frame d t
    exact ⟨h₁.trans h₁', h₂.trans h₂', h₃.trans h₃', h₄.trans h₄'⟩

/-- **A batch takes the nodes of its tasks and nothing else.** -/
theorem foldl_removeNode_spec (h₀ : d₀.Built) (h : Consistent d₀ d) {ts : List Task}
    (hts : ∀ t ∈ ts, t ∈ d₀.graph.nodes) (hown : d.OwnFirstAll ts) :
    Consistent d₀ (ts.foldl removeNode d) ∧
    (∀ k, k ∈ (ts.foldl removeNode d).removed ↔ k ∈ ts.map taskKey ∨ k ∈ d.removed) ∧
    (∀ n, n ∈ (ts.foldl removeNode d).graph.nodes ↔
      n ∈ d.graph.nodes ∧ taskKey n ∉ ts.map taskKey) := by
  induction ts generalizing d with
  | nil => exact ⟨h, by simp, by simp⟩
  | cons t ts ih =>
    obtain ⟨hc, hremoved, hnodes⟩ := removeNode_spec h₀ h (hts t List.mem_cons_self) hown.1
    obtain ⟨hc', hremoved', hnodes'⟩ :=
      ih hc (fun u hu => hts u (List.mem_cons_of_mem _ hu)) hown.2
    refine ⟨hc', fun k => ?_, fun n => ?_⟩
    · rw [List.foldl_cons, hremoved', hremoved, List.map_cons, List.mem_cons]
      tauto
    · rw [List.foldl_cons, hnodes', hnodes, List.map_cons, List.mem_cons, not_or]
      tauto

end Deps

end Mise
