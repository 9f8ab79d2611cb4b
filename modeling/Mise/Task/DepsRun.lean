/-
# Runs of the task graph

Any sequence of subscribing, receiving, dropping the receiver and removing
tasks, over a graph that `Deps::new` built and that has no cycle.

The graph, `sent` and `removed` go by key, but `node_idx` by `==`, which leaves
the overlay environment out.  Two remote tasks that were fetched with different
dependency environments are two nodes and equal, so that removing the one takes
the node of the other.  As long as no equal node stands before a task's own
when it is removed, the schedule is what the graph says: each key is sent once
and not lost, after everything it waits for was removed.
-/

import Mise.Task.DepsOps

namespace Mise

open Lib DiGraph Relation

/-! ### Calls -/

/-- The receiver takes a message. -/
def Channel.receive {α : Type} (c : Channel α) : Channel α :=
  match c.queue with
  | [] => c
  | a :: queue => ⟨c.live, queue, c.taken ++ [a]⟩

theorem Channel.messages_receive {α : Type} (c : Channel α) : c.receive.messages = c.messages := by
  obtain ⟨live, _ | ⟨a, queue⟩, taken⟩ := c
  · rfl
  · simp [Channel.receive, Channel.messages]

/-- A task graph with what earlier receivers took. -/
structure DepsWorld where
  deps : Deps
  past : List (Option Task)

/-- A call on the task graph, or an action of its receiver. -/
inductive DepsCall where
  | subscribe
  | receive
  | dropReceiver
  | remove (task : Task)
  | removeBatch (tasks : List Task)

/-- The keys a call removes. -/
def DepsCall.keys : DepsCall → List TaskKey
  | .remove task => [taskKey task]
  | .removeBatch tasks => tasks.map taskKey
  | _ => []

namespace DepsWorld

/-- The tasks sent to a receiver that was there. -/
def emitted (w : DepsWorld) : List Task := (w.past ++ w.deps.tx.messages).filterMap id

/-- What a call does; `none` when it panics. -/
def step (w : DepsWorld) : DepsCall → Option DepsWorld
  | .subscribe => w.deps.subscribe.map fun d => ⟨d, w.past ++ w.deps.tx.taken⟩
  | .receive => some ⟨{ w.deps with tx := w.deps.tx.receive }, w.past⟩
  | .dropReceiver => some ⟨{ w.deps with tx := ⟨false, [], w.deps.tx.taken⟩ }, w.past⟩
  | .remove task => (w.deps.remove task).map fun d => ⟨d, w.past⟩
  | .removeBatch tasks => (w.deps.removeBatch tasks).map fun d => ⟨d, w.past⟩

/-- The calls that are made: a task is removed once it was sent, a batch holds
tasks of the graph, and a receiver is dropped or replaced once it is drained. -/
def Allowed (d₀ : Deps) (w : DepsWorld) : DepsCall → Prop
  | .subscribe => w.deps.tx.queue = []
  | .receive => True
  | .dropReceiver => w.deps.tx.queue = []
  | .remove task => task ∈ w.emitted
  | .removeBatch tasks => ∀ t ∈ tasks, t ∈ d₀.graph.nodes

/-- No equal node stands before the node of a task that is removed. -/
def FindsOwn (w : DepsWorld) : DepsCall → Prop
  | .remove task => w.deps.OwnFirst task
  | .removeBatch tasks => w.deps.OwnFirstAll tasks
  | _ => True

end DepsWorld

/-- The runs from a new graph whose calls all satisfy `P`. -/
def DepsReach (P : DepsWorld → DepsCall → Prop) (d₀ : Deps) : DepsWorld → Prop :=
  ReflTransGen (fun w w' => ∃ c, P w c ∧ w.step c = some w') ⟨d₀, []⟩

/-- The schedule that the graph stands for, in a state from which the calls
that satisfy `P` can be made. -/
structure DepsScheduled (P : DepsWorld → DepsCall → Prop) (d₀ : Deps) (w : DepsWorld) : Prop where
  /-- A key is sent at most once. -/
  once : (w.emitted.map taskKey).Nodup
  /-- What counts as sent was sent to a receiver that was there. -/
  kept : ∀ k, k ∈ w.deps.sent ↔ k ∈ w.emitted.map taskKey
  /-- A live receiver was sent, or an earlier one took, every leaf there is. -/
  offered : w.deps.tx.live = true → ∀ t ∈ w.deps.graph.externals, t ∈ w.emitted
  /-- A task is sent when all it has an edge to was removed. -/
  ready : ∀ t ∈ w.emitted, ∀ b, HasEdge taskKey d₀.graph (taskKey t) b → b ∈ w.deps.removed
  /-- The graph holds the tasks it was built with, less the removed ones. -/
  exact : ∀ n, n ∈ w.deps.graph.nodes ↔ n ∈ d₀.graph.nodes ∧ taskKey n ∉ w.deps.removed
  /-- A call takes the nodes with the keys it removes, and no others. -/
  removes : ∀ c w', P w c → w.step c = some w' →
    ∀ n, n ∈ w'.deps.graph.nodes ↔ n ∈ w.deps.graph.nodes ∧ taskKey n ∉ c.keys
  /-- No call panics. -/
  total : ∀ c, P w c → (w.step c).isSome
  /-- An empty graph was announced to the receiver. -/
  closed : w.deps.tx.live = true → w.deps.graph.nodes = [] → none ∈ w.deps.tx.messages

/-! ### The invariant -/

namespace DepsWorld

variable {d₀ : Deps} {w w' : DepsWorld}

/-- What holds before the leaves are sent. -/
structure Core (d₀ : Deps) (w : DepsWorld) : Prop where
  consistent : Deps.Consistent d₀ w.deps
  once : (w.emitted.map taskKey).Nodup
  kept : ∀ k, k ∈ w.deps.sent ↔ k ∈ w.emitted.map taskKey
  ready : ∀ t ∈ w.emitted, t ∈ d₀.graph.nodes ∧
    ∀ b, HasEdge taskKey d₀.graph (taskKey t) b → b ∈ w.deps.removed

/-- What holds after a call. -/
structure Inv (d₀ : Deps) (w : DepsWorld) : Prop extends Core d₀ w where
  offered : w.deps.tx.live = true → ∀ t ∈ w.deps.graph.externals, t ∈ w.emitted
  closed : w.deps.tx.live = true → w.deps.graph.nodes = [] → none ∈ w.deps.tx.messages

/-- A leaf of what is left waits only for removed tasks. -/
theorem removed_of_leaf (h : Deps.Consistent d₀ w.deps) {t : Task}
    (ht : t ∈ w.deps.graph.externals) :
    t ∈ d₀.graph.nodes ∧ ∀ b, HasEdge taskKey d₀.graph (taskKey t) b → b ∈ w.deps.removed := by
  obtain ⟨hnode, hleaf⟩ := h.keyed.mem_externals_iff.1 ht
  obtain ⟨hnode₀, hnot⟩ := (h.nodes t).1 hnode
  refine ⟨hnode₀, fun b hb => ?_⟩
  by_contra hbr
  exact hleaf b ((h.edges _ _).2 ⟨hb, hnot, hbr⟩)

/-- **Sending the leaves** establishes the invariant. -/
theorem Core.emitLeaves (h₀ : d₀.Built) (h : Core d₀ w) {d' : Deps}
    (hd : w.deps.emitLeaves = some d') : Inv d₀ ⟨d', w.past⟩ := by
  obtain ⟨hgraph, hremoved, -, -, hlive, -⟩ := Deps.emitLeaves_frame h.consistent.keyed hd
  have hconsistent := h.consistent.emitLeaves hd
  cases hl : w.deps.tx.live with
  | false =>
    -- nobody receives: nothing changes, and nothing is promised
    obtain rfl := Deps.emitLeaves_closed hl hd
    refine ⟨⟨hconsistent, h.once, h.kept, h.ready⟩, ?_, ?_⟩
    · intro hlive'
      rw [hl] at hlive'
      cases hlive'
    · intro hlive'
      rw [hl] at hlive'
      cases hlive'
  | true =>
    have heq := Deps.emitLeaves_live h.consistent.keyed hl hd
    have hemitted : DepsWorld.emitted ⟨d', w.past⟩ = w.emitted ++ w.deps.newLeaves := by
      rw [heq, emitted, emitted, Channel.messages, Channel.messages]
      simp only [List.filterMap_append, List.append_assoc]
      cases w.deps.isEmpty <;> simp [List.filterMap_map]
    have hsent : d'.sent = (w.deps.newLeaves.map taskKey).reverse ++ w.deps.sent := by rw [heq]
    have hnew : ∀ t ∈ w.deps.newLeaves, t ∈ w.deps.graph.externals ∧ taskKey t ∉ w.deps.sent := by
      intro t ht
      obtain ⟨hleaf, hns⟩ := List.mem_filter.1 ht
      exact ⟨hleaf, by simpa using hns⟩
    refine ⟨⟨hconsistent, ?_, fun k => ?_, fun t ht => ?_⟩, fun _ t ht => ?_, fun _ hempty => ?_⟩
    · rw [hemitted, List.map_append, List.nodup_append]
      refine ⟨h.once, h.consistent.keyed.nodup_externals.sublist (List.filter_sublist.map taskKey), ?_⟩
      rintro a ha b hb rfl
      obtain ⟨t, ht, rfl⟩ := List.mem_map.1 hb
      exact (hnew t ht).2 ((h.kept _).2 ha)
    · rw [hemitted, hsent, List.map_append, List.mem_append, List.mem_append, List.mem_reverse, h.kept]
      exact or_comm
    · dsimp only
      rw [hremoved]
      rw [hemitted, List.mem_append] at ht
      rcases ht with ht | ht
      · exact h.ready t ht
      · exact removed_of_leaf h.consistent (hnew t ht).1
    · dsimp only at ht
      rw [hgraph] at ht
      rw [hemitted, List.mem_append]
      by_cases hs : taskKey t ∈ w.deps.sent
      · -- it was sent before, and the node of a key is one task
        obtain ⟨u, hu, hkey⟩ := List.mem_map.1 ((h.kept _).1 hs)
        have : u = t := h₀.keyed.eq_of_key (h.ready u hu).1 (removed_of_leaf h.consistent ht).1 hkey
        exact Or.inl (this ▸ hu)
      · exact Or.inr (List.mem_filter.2 ⟨ht, by simpa using hs⟩)
    · dsimp only at hempty
      rw [hgraph] at hempty
      have : w.deps.isEmpty = true := by rw [Deps.isEmpty, hempty]; rfl
      dsimp only
      rw [heq, Channel.messages]
      simp [this]

/-- Removing nodes keeps what holds before the leaves are sent. -/
theorem Core.removed (h : Core d₀ w) {d : Deps} (hconsistent : Deps.Consistent d₀ d)
    (hsent : d.sent = w.deps.sent) (htx : d.tx = w.deps.tx)
    (hmono : ∀ k ∈ w.deps.removed, k ∈ d.removed) : Core d₀ ⟨d, w.past⟩ := by
  have hemitted : DepsWorld.emitted ⟨d, w.past⟩ = w.emitted := by rw [emitted, emitted, htx]
  refine ⟨hconsistent, by rw [hemitted]; exact h.once, fun k => ?_, fun t ht => ?_⟩
  · rw [hemitted, hsent]
    exact h.kept k
  · rw [hemitted] at ht
    exact ⟨(h.ready t ht).1, fun b hb => hmono b ((h.ready t ht).2 b hb)⟩

/-- What a call removes, before the leaves are sent. -/
theorem Core.of_call (h₀ : d₀.Built) (h : Core d₀ w) (ts : List Task)
    (hts : ∀ t ∈ ts, t ∈ d₀.graph.nodes) (hown : w.deps.OwnFirstAll ts) :
    Core d₀ ⟨ts.foldl Deps.removeNode w.deps, w.past⟩ ∧
      ∀ n, n ∈ (ts.foldl Deps.removeNode w.deps).graph.nodes ↔
        n ∈ w.deps.graph.nodes ∧ taskKey n ∉ ts.map taskKey := by
  obtain ⟨hconsistent, hremoved, hnodes⟩ :=
    Deps.foldl_removeNode_spec h₀ h.consistent hts hown
  obtain ⟨hsent, -, htx, -⟩ := Deps.foldl_removeNode_frame w.deps ts
  exact ⟨h.removed hconsistent hsent htx fun k hk => (hremoved k).2 (Or.inr hk), hnodes⟩

/-- The condition for the theorem's runs. -/
def Meets (d₀ : Deps) (w : DepsWorld) (c : DepsCall) : Prop := w.Allowed d₀ c ∧ w.FindsOwn c

theorem remove_eq (d : Deps) (t : Task) :
    d.remove t = if d.nodeIdx t = none then some d else ([t].foldl Deps.removeNode d).emitLeaves := by
  unfold Deps.remove
  cases d.nodeIdx t with
  | none => rfl
  | some i => rfl

/-- **One call keeps the invariant** and takes exactly the nodes it names. -/
theorem Inv.step (h₀ : d₀.Built) (h : Inv d₀ w) {c : DepsCall} (hc : w.Meets d₀ c)
    (hw : w.step c = some w') : Inv d₀ w' ∧
      ∀ n, n ∈ w'.deps.graph.nodes ↔ n ∈ w.deps.graph.nodes ∧ taskKey n ∉ c.keys := by
  obtain ⟨hallowed, hown⟩ := hc
  cases c with
  | subscribe =>
    obtain ⟨d, hd, rfl⟩ := Option.map_eq_some_iff.1 hw
    have hqueue : w.deps.tx.queue = [] := hallowed
    have hcore : Core d₀ ⟨{ w.deps with tx := Channel.unbounded }, w.past ++ w.deps.tx.taken⟩ := by
      have hemitted : DepsWorld.emitted
          ⟨{ w.deps with tx := Channel.unbounded }, w.past ++ w.deps.tx.taken⟩ = w.emitted := by
        simp [emitted, Channel.messages, Channel.unbounded, hqueue]
      refine ⟨h.consistent.congr rfl rfl rfl, by rw [hemitted]; exact h.once, fun k => ?_, fun t ht => ?_⟩
      · rw [hemitted]
        exact h.kept k
      · rw [hemitted] at ht
        exact h.ready t ht
    obtain ⟨hgraph, -⟩ := Deps.emitLeaves_frame hcore.consistent.keyed hd
    refine ⟨hcore.emitLeaves h₀ hd, fun n => ?_⟩
    dsimp only [DepsCall.keys]
    rw [hgraph]
    simp
  | receive =>
    obtain rfl := Option.some.inj hw
    have hemitted : DepsWorld.emitted ⟨{ w.deps with tx := w.deps.tx.receive }, w.past⟩ = w.emitted := by
      simp [emitted, Channel.messages_receive]
    have hlive : w.deps.tx.receive.live = w.deps.tx.live := by
      unfold Channel.receive
      split <;> rfl
    refine ⟨⟨⟨h.consistent.congr rfl rfl rfl, by rw [hemitted]; exact h.once, fun k => ?_,
      fun t ht => ?_⟩, fun hl t ht => ?_, fun hl hempty => ?_⟩, by simp [DepsCall.keys]⟩
    · rw [hemitted]
      exact h.kept k
    · rw [hemitted] at ht
      exact h.ready t ht
    · rw [hemitted]
      exact h.offered (hlive ▸ hl) t ht
    · dsimp only
      rw [Channel.messages_receive]
      exact h.closed (hlive ▸ hl) hempty
  | dropReceiver =>
    obtain rfl := Option.some.inj hw
    have hqueue : w.deps.tx.queue = [] := hallowed
    have hemitted : DepsWorld.emitted
        ⟨{ w.deps with tx := ⟨false, [], w.deps.tx.taken⟩ }, w.past⟩ = w.emitted := by
      simp [emitted, Channel.messages, hqueue]
    refine ⟨⟨⟨h.consistent.congr rfl rfl rfl, by rw [hemitted]; exact h.once, fun k => ?_,
      fun t ht => ?_⟩, fun hl => (by cases hl), fun hl => (by cases hl)⟩, by simp [DepsCall.keys]⟩
    · rw [hemitted]
      exact h.kept k
    · rw [hemitted] at ht
      exact h.ready t ht
  | remove t =>
    obtain ⟨d, hd, rfl⟩ := Option.map_eq_some_iff.1 hw
    have ht : t ∈ d₀.graph.nodes := (h.ready t hallowed).1
    rw [remove_eq] at hd
    split_ifs at hd with hnone
    · obtain rfl := Option.some.inj hd
      have hremoved := Deps.removed_of_nodeIdx h.consistent ht hnone
      refine ⟨h, fun n => ⟨fun hn => ⟨hn, ?_⟩, fun hn => hn.1⟩⟩
      rw [DepsCall.keys, List.mem_singleton]
      intro hkey
      exact ((h.consistent.nodes n).1 hn).2 (hkey ▸ hremoved)
    · obtain ⟨hcore, hnodes⟩ := h.toCore.of_call h₀ [t] (by simpa using ht) ⟨hown, trivial⟩
      obtain ⟨hgraph, -⟩ := Deps.emitLeaves_frame hcore.consistent.keyed hd
      refine ⟨hcore.emitLeaves h₀ hd, fun n => ?_⟩
      dsimp only
      rw [hgraph]
      exact hnodes n
  | removeBatch ts =>
    obtain ⟨d, hd, rfl⟩ := Option.map_eq_some_iff.1 hw
    obtain ⟨hcore, hnodes⟩ := h.toCore.of_call h₀ _ hallowed hown
    obtain ⟨hgraph, -⟩ := Deps.emitLeaves_frame hcore.consistent.keyed hd
    refine ⟨hcore.emitLeaves h₀ hd, fun n => ?_⟩
    dsimp only
    rw [hgraph]
    exact hnodes n

/-- **No call panics** on a graph without cycles. -/
theorem Inv.total (h₀ : d₀.Built) (hac : d₀.graph.Acyclic) (h : Inv d₀ w) {c : DepsCall}
    (hc : w.Meets d₀ c) : (w.step c).isSome := by
  have hemit : ∀ {d : Deps}, Deps.Consistent d₀ d → d.emitLeaves.isSome := fun hd =>
    Deps.emitLeaves_isSome hd.keyed (hd.not_transGen_self h₀ hac)
  obtain ⟨hallowed, hown⟩ := hc
  cases c with
  | subscribe =>
    rw [DepsWorld.step, Option.isSome_map]
    exact hemit (h.consistent.congr rfl rfl rfl)
  | receive => rfl
  | dropReceiver => rfl
  | remove t =>
    rw [DepsWorld.step, Option.isSome_map, remove_eq]
    split_ifs
    · rfl
    · have ht : t ∈ d₀.graph.nodes := (h.ready t hallowed).1
      exact hemit (h.toCore.of_call h₀ [t] (by simpa using ht) ⟨hown, trivial⟩).1.consistent
  | removeBatch ts =>
    rw [DepsWorld.step, Option.isSome_map]
    exact hemit (h.toCore.of_call h₀ _ hallowed hown).1.consistent

/-- A new graph satisfies the invariant. -/
theorem inv_start (h₀ : d₀.Built) : Inv d₀ ⟨d₀, []⟩ := by
  obtain ⟨hsent, -, -, htx⟩ := h₀.fresh
  have hemitted : DepsWorld.emitted ⟨d₀, []⟩ = [] := by simp [emitted, htx, Channel.messages]
  refine ⟨⟨h₀.consistent, ?_, fun k => ?_, fun t ht => ?_⟩, fun hl => ?_, fun hl => ?_⟩
  · rw [hemitted]
    exact List.nodup_nil
  · rw [hemitted, hsent]
    exact Iff.rfl
  · rw [hemitted] at ht
    cases ht
  · dsimp only at hl
    rw [htx] at hl
    cases hl
  · dsimp only at hl
    rw [htx] at hl
    cases hl

/-- **A whole run keeps the invariant.** -/
theorem inv_of_reach (h₀ : d₀.Built) (h : DepsReach (Meets d₀) d₀ w) : Inv d₀ w := by
  induction h with
  | refl => exact inv_start h₀
  | tail _ hstep ih =>
    obtain ⟨c, hc, hw⟩ := hstep
    exact (ih.step h₀ hc hw).1

end DepsWorld

/-- **The task graph schedules as it should while lookups find their own node.**
In every run over a graph that `Deps::new` built and that has no cycle, in
which no equal node stands before the node of a task that is removed, every
state reached is scheduled. -/
theorem deps_scheduled {ε : Type} {config : TaskConfig ε} {tasks : List Task} {fuel : ℕ} {d₀ : Deps}
    (hnew : Deps.new config tasks fuel = some (.ok d₀)) (hac : d₀.graph.Acyclic) {w : DepsWorld}
    (hrun : DepsReach (DepsWorld.Meets d₀) d₀ w) : DepsScheduled (DepsWorld.Meets d₀) d₀ w := by
  have h₀ := Deps.built_of_new hnew
  have h := DepsWorld.inv_of_reach h₀ hrun
  exact {
    once := h.once
    kept := h.kept
    offered := h.offered
    ready := fun t ht => (h.ready t ht).2
    exact := h.consistent.nodes
    removes := fun c w' hc hw => (h.step h₀ hc hw).2
    total := fun c hc => h.total h₀ hac hc
    closed := h.closed }

/-! ### A remote task with two environments -/

/-- A remote task that a dependency gives the environment `X=x`. -/
def remoteGen (x : String) : Task :=
  ⟨"gen", [], [.val "X" x], [], .normal, some "https://example/gen", ""⟩

/-- The same once it is fetched: its environment is in the overlay. -/
def fetchedGen (x : String) : Task :=
  ⟨"gen", [], [], [.val "X" x], .normal, some "/cache/gen", ""⟩

def buildTask : Task := ⟨"build", [], [], [], .normal, none, ""⟩

/-- `build` depends on the remote task twice, with `X=1` and with `X=2`. -/
def twinConfig : TaskConfig Unit where
  fetchTask t := .ok { t with
    env := [], overlayEnv := t.overlayEnv ++ t.env, file := some "/cache/gen" }
  renderRuntimeTemplates t := .ok t
  resolveDepends ts := .ok ts
  resolveTaskDepends t _ :=
    .ok ⟨if t.name = "build" then [remoteGen "1", remoteGen "2"] else [], [], []⟩
  findCycles _ := []

def twinDeps : Deps :=
  .ofGraph ⟨[buildTask, fetchedGen "1", fetchedGen "2"], [(0, 2), (0, 1)]⟩ []

theorem new_twinConfig : Deps.new twinConfig [buildTask] 4 = some (.ok twinDeps) := rfl

theorem acyclic_twinDeps : twinDeps.graph.Acyclic :=
  acyclic_of_lt (by decide)

/-- Both occurrences are sent to the first receiver. -/
def twinSubscribed : DepsWorld := ⟨{ twinDeps with
  sent := [taskKey (fetchedGen "2"), taskKey (fetchedGen "1")]
  tx := ⟨true, [some (fetchedGen "1"), some (fetchedGen "2")], []⟩ }, []⟩

theorem step_twinDeps : DepsWorld.step ⟨twinDeps, []⟩ .subscribe = some twinSubscribed := rfl

/-- The first occurrence is removed: its own node is the first that is equal. -/
def twinRemoved : DepsWorld := ⟨{ twinSubscribed.deps with
  graph := ⟨[buildTask, fetchedGen "2"], [(0, 1)]⟩
  removed := [taskKey (fetchedGen "1")] }, []⟩

theorem ownFirst_twinSubscribed : twinSubscribed.deps.OwnFirst (fetchedGen "1") := by
  intro i n hi heq hkey
  have hother : ∀ j, j ≤ 1 → i ≠ j := by
    intro j hj hij
    obtain rfl | rfl : j = 0 ∨ j = 1 := by omega
    · obtain rfl := hij
      obtain rfl := Option.some.inj hi
      revert heq
      decide
    · obtain rfl := hij
      obtain rfl := Option.some.inj hi
      exact hkey rfl
  have h0 := hother 0 (by omega)
  have h1 := hother 1 (by omega)
  exact ⟨1, by omega, fetchedGen "1", rfl, rfl⟩

/-- The theorem's hypotheses can be met, with a removal among two equal nodes. -/
theorem deps_scheduled_sample : DepsReach (DepsWorld.Meets twinDeps) twinDeps twinRemoved ∧
    DepsScheduled (DepsWorld.Meets twinDeps) twinDeps twinRemoved := by
  have hrun : DepsReach (DepsWorld.Meets twinDeps) twinDeps twinRemoved := by
    refine (ReflTransGen.single ⟨.subscribe, ⟨rfl, trivial⟩, step_twinDeps⟩).tail
      ⟨.remove (fetchedGen "1"), ⟨?_, ownFirst_twinSubscribed⟩, rfl⟩
    exact List.mem_cons_self
  exact ⟨hrun, deps_scheduled new_twinConfig acyclic_twinDeps hrun⟩

/-- **Removing the second occurrence takes the node of the first**, which is
equal to it and stands before it: the first is gone without having run, and the
second stays in the graph although it counts as removed. -/
theorem deps_removes_other_node : ¬ ∀ (config : TaskConfig Unit) (tasks : List Task) (fuel : ℕ)
    (d₀ : Deps), Deps.new config tasks fuel = some (.ok d₀) → d₀.graph.Acyclic →
    ∀ w, DepsReach (DepsWorld.Allowed d₀) d₀ w → DepsScheduled (DepsWorld.Allowed d₀) d₀ w := by
  intro hall
  have hrun : DepsReach (DepsWorld.Allowed twinDeps) twinDeps ⟨{ twinSubscribed.deps with
      graph := ⟨[buildTask, fetchedGen "2"], [(0, 1)]⟩
      removed := [taskKey (fetchedGen "2")] }, []⟩ := by
    refine (ReflTransGen.single ⟨.subscribe, rfl, step_twinDeps⟩).tail
      ⟨.remove (fetchedGen "2"), ?_, rfl⟩
    exact List.mem_cons_of_mem _ List.mem_cons_self
  have hexact := (hall twinConfig [buildTask] 4 twinDeps new_twinConfig acyclic_twinDeps
    _ hrun).exact (fetchedGen "2")
  have hmem : fetchedGen "2" ∈ [buildTask, fetchedGen "2"] :=
    List.mem_cons_of_mem _ List.mem_cons_self
  exact (hexact.1 hmem).2 List.mem_cons_self

end Mise
