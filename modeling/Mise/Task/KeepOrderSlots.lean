/-
# The slots of injected tasks

`insert_injected_tasks` of `src/task/task_output_handler.rs`, over every sequence
of its calls.  A task that is injected for the first time gets a slot next to its
parent's.  However the calls interleave, the slots are the traversal of the forest
of injections (`slots_follow_injections`): a parent that prints comes directly in
front of all that was injected below it, any other parent directly behind.

The position behind a printing parent's group is found by asking of every later
slot whether it descends from the parent, and that is reachability along the
parents on record, whatever the record holds (`descendsFrom_iff`).
-/

import Mathlib.Data.List.InsertIdx
import Mise.Lib.Traversal
import Mise.Task.KeepOrder

namespace Mise.KeepOrderState

open Lib Relation

variable {τ : Type} [DecidableEq τ]

/-! ### Descent -/

/-- A task and one of its parents on record. -/
def InjectedBy (injectedBy : IndexMap τ (List τ)) (task parent : τ) : Prop :=
  ∃ parents, injectedBy.get task = some parents ∧ parent ∈ parents

/-- A walk that succeeds has come from one of the tasks it started with. -/
theorem reaches_of_descends {injectedBy : IndexMap τ (List τ)} {ancestor : τ} {seen stack : List τ}
    (h : descends injectedBy ancestor seen stack = true) :
    ∃ task ∈ stack, TransGen (InjectedBy injectedBy) task ancestor := by
  fun_induction descends injectedBy ancestor seen stack with
  | case1 seen => exact nomatch h
  | case2 seen current stack hseen ih =>
    obtain ⟨task, hmem, hreach⟩ := ih h
    exact ⟨task, List.mem_cons_of_mem current hmem, hreach⟩
  | case3 seen current stack hseen hget ih =>
    obtain ⟨task, hmem, hreach⟩ := ih h
    exact ⟨task, List.mem_cons_of_mem current hmem, hreach⟩
  | case4 seen current stack hseen parents hget hancestor =>
    exact ⟨current, List.mem_cons_self, .single ⟨parents, hget, hancestor⟩⟩
  | case5 seen current stack hseen parents hget hancestor ih =>
    obtain ⟨task, hmem, hreach⟩ := ih h
    rcases List.mem_append.1 hmem with hmem | hmem
    · exact ⟨current, List.mem_cons_self, .head ⟨parents, hget, List.mem_reverse.1 hmem⟩ hreach⟩
    · exact ⟨task, List.mem_cons_of_mem current hmem, hreach⟩

/-- A walk that fails has seen tasks none of which has the ancestor for a parent,
and all of whose parents are among them. -/
theorem closed_of_descends {injectedBy : IndexMap τ (List τ)} {ancestor : τ} {seen stack : List τ}
    (h : descends injectedBy ancestor seen stack = false)
    (hseen : ∀ task ∈ seen, ∀ parent, InjectedBy injectedBy task parent →
      parent ≠ ancestor ∧ (parent ∈ seen ∨ parent ∈ stack)) :
    ∃ all : List τ, (∀ task ∈ seen ++ stack, task ∈ all) ∧
      ∀ task ∈ all, ∀ parent, InjectedBy injectedBy task parent →
        parent ≠ ancestor ∧ parent ∈ all := by
  fun_induction descends injectedBy ancestor seen stack with
  | case1 seen =>
    refine ⟨seen, fun task hmem => by simpa using hmem, fun task hmem parent hparent => ?_⟩
    obtain ⟨hne, hin⟩ := hseen task hmem parent hparent
    exact ⟨hne, hin.resolve_right List.not_mem_nil⟩
  | case2 seen current stack hcurrent ih =>
    obtain ⟨all, hall, hclosed⟩ := ih h fun task hmem parent hparent => by
      obtain ⟨hne, hin⟩ := hseen task hmem parent hparent
      refine ⟨hne, hin.elim .inl fun hin => ?_⟩
      rcases List.mem_cons.1 hin with rfl | hin
      · exact .inl hcurrent
      · exact .inr hin
    refine ⟨all, fun task hmem => hall task ?_, hclosed⟩
    rcases List.mem_append.1 hmem with hmem | hmem
    · exact List.mem_append_left _ hmem
    · rcases List.mem_cons.1 hmem with rfl | hmem
      · exact List.mem_append_left _ hcurrent
      · exact List.mem_append_right _ hmem
  | case3 seen current stack hcurrent hget ih =>
    obtain ⟨all, hall, hclosed⟩ := ih h fun task hmem parent hparent => by
      rcases List.mem_cons.1 hmem with rfl | hmem
      · obtain ⟨parents, hparents, -⟩ := hparent
        exact nomatch hget.symm.trans hparents
      · obtain ⟨hne, hin⟩ := hseen task hmem parent hparent
        refine ⟨hne, hin.elim (fun hin => .inl (List.mem_cons_of_mem current hin)) fun hin => ?_⟩
        rcases List.mem_cons.1 hin with rfl | hin
        · exact .inl List.mem_cons_self
        · exact .inr hin
    refine ⟨all, fun task hmem => hall task ?_, hclosed⟩
    simp only [List.mem_append, List.mem_cons] at hmem ⊢
    tauto
  | case4 seen current stack hcurrent parents hget hancestor => exact nomatch h
  | case5 seen current stack hcurrent parents hget hancestor ih =>
    obtain ⟨all, hall, hclosed⟩ := ih h fun task hmem parent hparent => by
      rcases List.mem_cons.1 hmem with rfl | hmem
      · obtain ⟨parents', hparents, hin⟩ := hparent
        obtain rfl := Option.some.inj (hget.symm.trans hparents)
        exact ⟨fun heq => hancestor (heq ▸ hin),
          .inr (List.mem_append_left _ (List.mem_reverse.2 hin))⟩
      · obtain ⟨hne, hin⟩ := hseen task hmem parent hparent
        refine ⟨hne, hin.elim (fun hin => .inl (List.mem_cons_of_mem current hin)) fun hin => ?_⟩
        rcases List.mem_cons.1 hin with rfl | hin
        · exact .inl List.mem_cons_self
        · exact .inr (List.mem_append_right _ hin)
    refine ⟨all, fun task hmem => hall task ?_, hclosed⟩
    simp only [List.mem_append, List.mem_cons] at hmem ⊢
    tauto

/-- **Descent is reachability along the parents on record.** -/
theorem descendsFrom_iff (s : KeepOrderState τ) (task ancestor : τ) :
    s.descendsFrom task ancestor = true ↔ TransGen (InjectedBy s.injectedBy) task ancestor := by
  constructor
  · intro h
    obtain ⟨task', hmem, hreach⟩ := reaches_of_descends h
    exact List.mem_singleton.1 hmem ▸ hreach
  · intro hreach
    by_contra hfail
    obtain ⟨all, hall, hclosed⟩ := closed_of_descends (Bool.eq_false_iff.2 hfail)
      fun _ hmem => absurd hmem List.not_mem_nil
    have hmem : ∀ x, TransGen (InjectedBy s.injectedBy) task x → x ≠ ancestor ∧ x ∈ all := by
      intro x hx
      induction hx with
      | single hstep => exact hclosed task (hall task (List.mem_singleton.2 rfl)) _ hstep
      | tail _ hstep ih => exact hclosed _ ih.2 _ hstep
    exact (hmem ancestor hreach).1 rfl

/-! ### Positions -/

theorem insertIdx_append {α : Type} (before after : List α) (x : α) :
    (before ++ after).insertIdx before.length x = before ++ x :: after := by
  induction before with
  | nil => rfl
  | cons y before ih =>
    rw [List.cons_append, List.length_cons, List.insertIdx_succ_cons, ih]
    rfl

theorem indexOf_eq_some {ν : Type} {m : IndexMap τ ν} {k : τ} {before after : List τ}
    (h : m.keys = before ++ k :: after) (hk : k ∉ before) : m.indexOf k = some before.length := by
  have hbefore : before.findIdx? (fun x => decide (x = k)) = none :=
    List.findIdx?_eq_none_iff.2 fun x hx => decide_eq_false (ne_of_mem_of_not_mem hx hk)
  have hfind : m.keys.findIdx? (fun x => decide (x = k)) = some before.length := by
    rw [h, List.findIdx?_append, hbefore, List.findIdx?_cons, if_pos (decide_eq_true rfl)]
    rw [Option.none_or, Option.map_some, Nat.zero_add]
  rw [IndexMap.keys, List.findIdx?_map] at hfind
  exact hfind

theorem get_eq_none {ν : Type} {m : IndexMap τ ν} {k : τ} (h : k ∉ m.keys) : m.get k = none :=
  Option.eq_none_iff_forall_not_mem.2 fun v hv => h (m.mem_keys.2 ⟨v, hv⟩)

theorem indexOf_eq_none_of_notMem {ν : Type} {m : IndexMap τ ν} {k : τ} (h : k ∉ m.keys) :
    m.indexOf k = none :=
  List.findIdx?_eq_none_iff.2 fun e he =>
    decide_eq_false fun hek => h (List.mem_map.2 ⟨e, he, hek⟩)

theorem keys_shiftInsert {ν : Type} {m : IndexMap τ ν} {k : τ} (h : k ∉ m.keys) (idx : ℕ) (v : ν) :
    (m.shiftInsert idx k v).keys = m.keys.insertIdx idx k := by
  show ((m.shiftRemove k).entries.insertIdx idx (k, v)).map Prod.fst = _
  rw [IndexMap.shiftRemove_of_get_eq_none (get_eq_none h), List.map_insertIdx]
  rfl

/-- The last position at which a test holds is kept, and what precedes it does not matter. -/
theorem foldl_last_of_forall {q : ℕ → Bool} (m start : ℕ)
    (h : ∀ i, start ≤ i → i < start + m → q i = true) :
    (List.range' start m).foldl (fun stop i => if q i then i + 1 else stop) start = start + m := by
  induction m generalizing start with
  | zero => rfl
  | succ m ih =>
    rw [List.range'_succ, List.foldl_cons, if_pos (h start (Nat.le_refl _) (by omega)),
      ih (start + 1) fun i hi hlt => h i (by omega) (by omega)]
    omega

theorem foldl_last_of_forall_not {q : ℕ → Bool} (l : List ℕ) (stop : ℕ)
    (h : ∀ i ∈ l, q i = false) :
    l.foldl (fun stop i => if q i then i + 1 else stop) stop = stop := by
  induction l with
  | nil => rfl
  | cons i l ih =>
    rw [List.foldl_cons, if_neg (by rw [h i List.mem_cons_self]; exact Bool.false_ne_true)]
    exact ih fun j hj => h j (List.mem_cons_of_mem i hj)

/-- **A group ends behind the parent's descendants** where these follow it. -/
theorem groupEnd_eq {s : KeepOrderState τ} {parent : τ} {before below after : List τ}
    (hkeys : s.buffers.keys = before ++ parent :: (below ++ after))
    (hbelow : ∀ task ∈ below, s.descendsFrom task parent = true)
    (hafter : ∀ task ∈ after, s.descendsFrom task parent = false) :
    s.groupEnd parent before.length = before.length + 1 + below.length := by
  have hslot : ∀ i : ℕ, (s.buffers.entries[i]?.any fun slot => s.descendsFrom slot.1 parent) =
      (s.buffers.keys[i]?.any fun task => s.descendsFrom task parent) := by
    intro i
    rw [IndexMap.keys, List.getElem?_map, Option.any_map]
  have hget : ∀ j : ℕ, s.buffers.keys[before.length + 1 + j]? = (below ++ after)[j]? := by
    intro j
    have hj : before.length + 1 + j - before.length = j + 1 := by omega
    rw [hkeys, List.getElem?_append_right (by omega), hj, List.getElem?_cons_succ]
  have hlength : s.buffers.entries.length - (before.length + 1) = below.length + after.length := by
    have := congrArg List.length hkeys
    rw [IndexMap.keys, List.length_map, List.length_append, List.length_cons,
      List.length_append] at this
    omega
  rw [groupEnd, hlength, ← List.range'_append_1, List.foldl_append]
  simp only [hslot]
  rw [foldl_last_of_forall, foldl_last_of_forall_not]
  · intro i hi
    obtain ⟨hle, hlt⟩ := List.mem_range'_1.1 hi
    obtain ⟨j, rfl⟩ := Nat.exists_eq_add_of_le hle
    rw [Nat.add_assoc, hget, List.getElem?_append_right (by omega), Nat.add_sub_cancel_left,
      List.getElem?_eq_getElem (by omega), Option.any_some]
    exact hafter _ (List.getElem_mem _)
  · intro i hle hlt
    obtain ⟨j, rfl⟩ := Nat.exists_eq_add_of_le hle
    rw [hget, List.getElem?_append_left (by omega), List.getElem?_eq_getElem (by omega),
      Option.any_some]
    exact hbelow _ (List.getElem_mem _)

/-! ### Injections -/

/-- The children of the tasks when one gets more. -/
def extend (children : τ → List τ) (parent : τ) (tasks : List τ) (x : τ) : List τ :=
  if x = parent then children x ++ tasks else children x

theorem extend_extend (children : τ → List τ) (parent : τ) (a b : List τ) :
    extend (extend children parent a) parent b = extend children parent (a ++ b) := by
  funext x
  rw [extend, extend, extend]
  split
  · rw [List.append_assoc]
  · rfl

/-- The tasks injected by a parent, in the order of the calls. -/
def childrenOf (calls : List (τ × List τ)) (x : τ) : List τ :=
  calls.flatMap fun call => if call.1 = x then call.2 else []

variable (printing : τ → Bool)

/-- Calls of `insert_injected_tasks`; `printing` is `task_needs_permit`. -/
def injectAll (s : KeepOrderState τ) (calls : List (τ × List τ)) : KeepOrderState τ :=
  calls.foldl (fun s call => s.insertInjectedTasks call.1 (printing call.1) call.2) s

/-- Every parent holds a slot when its call comes, and every task it injects is new. -/
def Fresh (s : KeepOrderState τ) : List (τ × List τ) → Prop
  | [] => True
  | call :: calls =>
    call.1 ∈ s.buffers.keys ∧ call.2.Nodup ∧ (∀ task ∈ call.2, task ∉ s.buffers.keys) ∧
      Fresh (s.insertInjectedTasks call.1 (printing call.1) call.2) calls

/-- The slots are the traversal of a forest that is on record. -/
structure Slotted (roots : List τ) (children : τ → List τ) (s : KeepOrderState τ) : Prop where
  laid : Laid children printing roots s.buffers.keys
  recorded : ∀ task parent, InjectedBy s.injectedBy task parent ↔ task ∈ children parent
  held : ∀ parent, ∀ task ∈ children parent, parent ∈ s.buffers.keys ∧ task ∈ s.buffers.keys

variable {printing} {roots : List τ} {children : τ → List τ} {s : KeepOrderState τ}

/-- A new task gets the slot behind the other children of its parent. -/
theorem insertInjectedTask_of_notMem {parent task : τ} {after : Bool} {idx : ℕ}
    (h : task ∉ s.buffers.keys) :
    insertInjectedTask parent after (s, idx) task =
      ({ s with
        buffers := s.buffers.shiftInsert idx task []
        injectedBy := s.injectedBy.insert task [parent] }, idx + 1) := by
  rw [insertInjectedTask, indexOf_eq_none_of_notMem h]

/-- Where the next child of a parent goes: behind those it has. -/
def nextSlot (printing : τ → Bool) (parent : τ) (before below : List τ) : ℕ :=
  before.length + (if printing parent then 1 else 0) + below.length

omit [DecidableEq τ] in
theorem insertIdx_nextSlot (parent task : τ) (before below after : List τ) :
    (before ++ block printing parent below ++ after).insertIdx
        (nextSlot printing parent before below) task =
      before ++ block printing parent (below ++ [task]) ++ after := by
  rw [nextSlot, block, block]
  split
  · have hlength : before.length + 1 + below.length = (before ++ parent :: below).length := by
      rw [List.length_append, List.length_cons]
      omega
    rw [hlength, insertIdx_append]
    simp only [List.append_assoc, List.cons_append, List.nil_append]
  · have hlength : before.length + 0 + below.length = (before ++ below).length := by
      rw [List.length_append]
      omega
    rw [hlength, List.append_assoc before, List.append_assoc below, ← List.append_assoc before,
      insertIdx_append]
    simp only [List.append_assoc, List.cons_append, List.nil_append]

/-- **The loop over the new tasks of one call** puts them behind the other children of
their parent. -/
theorem slotted_loop {parent : τ} {before below after : List τ} {tasks : List τ}
    (hkeys : s.buffers.keys = before ++ block printing parent below ++ after)
    (hlaid : Laid children printing (children parent) below)
    (hrecorded : ∀ task p, InjectedBy s.injectedBy task p ↔ task ∈ children p)
    (hheld : ∀ p, ∀ task ∈ children p, p ∈ s.buffers.keys ∧ task ∈ s.buffers.keys)
    (htasks : tasks.Nodup) (hnew : ∀ task ∈ tasks, task ∉ s.buffers.keys) :
    let s' := (tasks.foldl (insertInjectedTask parent (printing parent))
      (s, nextSlot printing parent before below)).1
    let children' := extend children parent tasks
    ∃ below', s'.buffers.keys = before ++ block printing parent below' ++ after ∧
      Laid children' printing (children' parent) below' ∧
      (∀ task p, InjectedBy s'.injectedBy task p ↔ task ∈ children' p) ∧
      ∀ p, ∀ task ∈ children' p, p ∈ s'.buffers.keys ∧ task ∈ s'.buffers.keys := by
  induction tasks generalizing s below children with
  | nil =>
    have hextend : extend children parent [] = children := by
      funext x
      rw [extend, List.append_nil]
      exact ite_self _
    dsimp only
    rw [hextend]
    exact ⟨below, hkeys, hlaid, hrecorded, hheld⟩
  | cons task tasks ih =>
    obtain ⟨hnotin, htasks⟩ := List.nodup_cons.1 htasks
    have htask := hnew task List.mem_cons_self
    have hparent : parent ∈ s.buffers.keys := by
      rw [hkeys]
      exact List.mem_append_left _ (List.mem_append_right _ (mem_block.2 (.inl rfl)))
    have hne : task ≠ parent := fun h => htask (h ▸ hparent)
    have hbelow : parent ∉ below := by
      have hnodup : s.buffers.keys.Nodup := s.buffers.nodup
      rw [hkeys] at hnodup
      exact (nodup_block.1 (List.nodup_append.1 (List.nodup_append.1 hnodup).1).2.1).1
    have hleaf : children task = [] :=
      List.eq_nil_iff_forall_not_mem.2 fun x hx => htask (hheld task x hx).1
    have hkeys' : (s.buffers.shiftInsert (nextSlot printing parent before below) task []).keys =
        before ++ block printing parent (below ++ [task]) ++ after := by
      rw [keys_shiftInsert htask, hkeys, insertIdx_nextSlot]
    have hmem : ∀ x, x ∈ (s.buffers.shiftInsert (nextSlot printing parent before below) task
        []).keys ↔ x = task ∨ x ∈ s.buffers.keys := by
      intro x
      rw [hkeys', hkeys]
      simp only [List.mem_append, mem_block, List.mem_singleton]
      tauto
    have hext : ∀ x, x ≠ parent → extend children parent [task] x = children x :=
      fun x hx => if_neg hx
    have hextParent : extend children parent [task] parent = children parent ++ [task] := if_pos rfl
    have hrecorded' : ∀ x p, InjectedBy (s.injectedBy.insert task [parent]) x p ↔
        x ∈ extend children parent [task] p := by
      intro x p
      rw [InjectedBy, IndexMap.get_insert]
      by_cases hx : x = task
      · have hnone : task ∉ children p := fun h => htask (hheld p task h).2
        subst hx
        rw [if_pos rfl]
        by_cases hp : p = parent
        · subst hp
          exact ⟨fun _ => hextParent ▸ List.mem_append_right _ (List.mem_singleton.2 rfl),
            fun _ => ⟨[p], rfl, List.mem_singleton.2 rfl⟩⟩
        · rw [hext p hp]
          refine ⟨fun ⟨parents, hparents, hmem⟩ => ?_, fun h => absurd h hnone⟩
          rw [← Option.some.inj hparents] at hmem
          exact absurd (List.mem_singleton.1 hmem) hp
      · rw [if_neg hx]
        refine (hrecorded x p).trans ?_
        by_cases hp : p = parent
        · rw [hp, hextParent, List.mem_append, List.mem_singleton]
          exact ⟨.inl, fun h => h.resolve_right hx⟩
        · rw [hext p hp]
    have hheld' : ∀ p, ∀ x ∈ extend children parent [task] p,
        p ∈ (s.buffers.shiftInsert (nextSlot printing parent before below) task []).keys ∧
          x ∈ (s.buffers.shiftInsert (nextSlot printing parent before below) task []).keys := by
      intro p x hx
      rw [hmem, hmem]
      rw [extend] at hx
      split at hx
      · case isTrue hp =>
        rw [hp]
        refine ⟨.inr hparent, ?_⟩
        rcases List.mem_append.1 hx with hx | hx
        · exact .inr (hheld p x hx).2
        · exact .inl (List.mem_singleton.1 hx)
      · exact (hheld p x hx).imp .inr .inr
    have hnew' : ∀ x ∈ tasks,
        x ∉ (s.buffers.shiftInsert (nextSlot printing parent before below) task []).keys := by
      intro x hx hin
      rcases (hmem x).1 hin with rfl | hin
      · exact hnotin hx
      · exact hnew x (List.mem_cons_of_mem task hx) hin
    have hloop := ih (s := { s with
        buffers := s.buffers.shiftInsert (nextSlot printing parent before below) task []
        injectedBy := s.injectedBy.insert task [parent] }) hkeys'
      (hlaid.snoc hbelow hleaf hne hext hextParent) hrecorded' hheld' htasks hnew'
    have hnext : nextSlot printing parent before (below ++ [task]) =
        nextSlot printing parent before below + 1 := by
      rw [nextSlot, nextSlot, List.length_append, List.length_singleton]
      omega
    rw [hnext, extend_extend, List.singleton_append] at hloop
    rw [List.foldl_cons, insertInjectedTask_of_notMem htask]
    exact hloop

/-- What descends from a task lies below it in the forest. -/
theorem Slotted.descendsFrom_iff_mem (h : Slotted printing roots children s) {parent : τ}
    {below : List τ} (hlaid : Laid children printing (children parent) below) (task : τ) :
    s.descendsFrom task parent = true ↔ task ∈ below := by
  have hswap : InjectedBy s.injectedBy = Function.swap fun a b => b ∈ children a :=
    funext fun a => funext fun b => propext (h.recorded a b)
  rw [descendsFrom_iff, hswap, transGen_swap, hlaid.mem_iff_transGen]

/-- **A call** puts the new tasks behind the children that their parent has. -/
theorem Slotted.insertInjectedTasks (h : Slotted printing roots children s) {parent : τ}
    (hparent : parent ∈ s.buffers.keys) {tasks : List τ} (htasks : tasks.Nodup)
    (hnew : ∀ task ∈ tasks, task ∉ s.buffers.keys) :
    Slotted printing roots (extend children parent tasks)
      (s.insertInjectedTasks parent (printing parent) tasks) := by
  have hnodup : s.buffers.keys.Nodup := s.buffers.nodup
  obtain ⟨before, below, after, hkeys, hlaid, hother⟩ := h.laid.block hnodup hparent
  have hstart : s.insertInjectedTasks parent (printing parent) tasks =
      (tasks.foldl (insertInjectedTask parent (printing parent))
        (s, nextSlot printing parent before below)).1 := by
    rw [KeepOrderState.insertInjectedTasks, nextSlot]
    rw [hkeys] at hnodup
    cases hprinting : printing parent with
    | true =>
      have hkeys' : s.buffers.keys = before ++ parent :: (below ++ after) := by
        rw [hkeys, Lib.block, if_pos hprinting, List.append_assoc, List.cons_append]
      rw [← hkeys, hkeys'] at hnodup
      obtain ⟨-, hgroup, hbefore⟩ := List.nodup_append.1 hnodup
      have hparent : parent ∉ before := fun hin => hbefore parent hin parent List.mem_cons_self rfl
      have hend := groupEnd_eq hkeys' (fun task hin => (h.descendsFrom_iff_mem hlaid task).2 hin)
        fun task hin => Bool.eq_false_iff.2 fun hdescends =>
          (List.nodup_append.1 (List.nodup_cons.1 hgroup).2).2.2 task
            ((h.descendsFrom_iff_mem hlaid task).1 hdescends) task hin rfl
      rw [indexOf_eq_some hkeys' hparent]
      simp only [if_true, hend]
    | false =>
      have hkeys' : s.buffers.keys = (before ++ below) ++ parent :: after := by
        rw [hkeys, Lib.block, if_neg (by rw [hprinting]; exact Bool.false_ne_true)]
        simp only [List.append_assoc, List.cons_append, List.nil_append]
      rw [← hkeys, hkeys'] at hnodup
      have hparent : parent ∉ before ++ below := fun hin =>
        (List.nodup_append.1 hnodup).2.2 parent hin parent List.mem_cons_self rfl
      rw [indexOf_eq_some hkeys' hparent, List.length_append]
      simp only [Bool.false_eq_true, if_false, Nat.add_zero]
  rw [hstart]
  obtain ⟨below', hkeys', hlaid', hrecorded, hheld⟩ :=
    slotted_loop hkeys hlaid h.recorded h.held htasks hnew
  refine ⟨?_, hrecorded, hheld⟩
  rw [hkeys']
  exact hother _ (fun x hx => if_neg hx) below' hlaid'

/-- **A sequence of calls.** -/
theorem Slotted.injectAll {calls : List (τ × List τ)} (h : Slotted printing roots children s)
    (hfresh : Fresh printing s calls) :
    Slotted printing roots (fun x => children x ++ childrenOf calls x)
      (s.injectAll printing calls) := by
  induction calls generalizing s children with
  | nil =>
    have hchildren : (fun x => children x ++ childrenOf [] x) = children :=
      funext fun x => List.append_nil _
    rw [hchildren]
    exact h
  | cons call calls ih =>
    obtain ⟨hparent, htasks, hnew, hrest⟩ := hfresh
    have hchildren : (fun x => children x ++ childrenOf (call :: calls) x) =
        fun x => extend children call.1 call.2 x ++ childrenOf calls x := by
      funext x
      rw [childrenOf, List.flatMap_cons, extend]
      by_cases hx : x = call.1
      · rw [if_pos hx, if_pos hx.symm, List.append_assoc]
        rfl
      · rw [if_neg hx, if_neg (Ne.symm hx)]
        rfl
    rw [hchildren]
    exact ih (h.insertInjectedTasks hparent htasks hnew) hrest

/-! ### Registration -/

theorem keys_initTask (s : KeepOrderState τ) (task : τ) :
    (s.initTask task).buffers.keys =
      if task ∈ s.buffers.keys then s.buffers.keys else s.buffers.keys ++ [task] := by
  have hkeys : ∀ (lines : List KeepOrderLine) (entries : List (τ × List KeepOrderLine)),
      (IndexMap.insertEntry task lines entries).map Prod.fst =
        if task ∈ entries.map Prod.fst then entries.map Prod.fst
        else entries.map Prod.fst ++ [task] := by
    intro lines entries
    induction entries with
    | nil => rfl
    | cons e entries ih =>
      rw [IndexMap.insertEntry, List.map_cons]
      by_cases he : e.1 = task
      · rw [if_pos he, if_pos (he ▸ List.mem_cons_self), List.map_cons, he]
      · rw [if_neg he, List.map_cons, ih]
        by_cases hin : task ∈ entries.map Prod.fst
        · rw [if_pos hin, if_pos (List.mem_cons_of_mem _ hin)]
        · rw [if_neg hin, if_neg fun h => (List.mem_cons.1 h).elim (Ne.symm he) hin]
          rfl
  exact hkeys _ s.buffers.entries

/-- Tasks hold slots in the order they are first registered in. -/
theorem keys_foldl_initTask (tasks : List τ) (s : KeepOrderState τ) :
    (tasks.foldl initTask s).buffers.keys =
      s.buffers.keys ++ (tasks.filter (· ∉ s.buffers.keys)).eraseDups := by
  induction tasks generalizing s with
  | nil => exact (List.append_nil _).symm
  | cons task tasks ih =>
    rw [List.foldl_cons, ih, keys_initTask, List.filter_cons]
    by_cases hin : task ∈ s.buffers.keys
    · rw [if_pos hin, if_neg (by simpa using hin)]
    · rw [if_neg hin, if_pos (by simpa using hin), List.eraseDups_cons, List.append_assoc,
        List.singleton_append, List.filter_filter]
      refine congrArg (fun l => s.buffers.keys ++ task :: List.eraseDups l) (List.filter_congr ?_)
      intro x _
      rw [Bool.eq_iff_iff]
      simp only [decide_eq_true_eq, List.mem_append, List.mem_singleton, not_or, Bool.and_eq_true,
        Bool.not_eq_true', beq_eq_false_iff_ne, and_comm]

theorem injectedBy_foldl_initTask (tasks : List τ) (s : KeepOrderState τ) :
    (tasks.foldl initTask s).injectedBy = s.injectedBy := by
  induction tasks generalizing s with
  | nil => rfl
  | cons task tasks ih => exact ih _

/-- Before anything is injected, every slot is a root. -/
theorem slotted_initTask (printing : τ → Bool) (tasks : List τ) :
    Slotted printing tasks.eraseDups (fun _ => []) (tasks.foldl initTask new) := by
  have hkeys : (tasks.foldl initTask new).buffers.keys = tasks.eraseDups := by
    have hnone : tasks.filter (· ∉ (new : KeepOrderState τ).buffers.keys) = tasks :=
      List.filter_eq_self.2 fun _ _ => rfl
    rw [keys_foldl_initTask, hnone]
    rfl
  refine ⟨?_, fun task parent => ?_, fun _ _ h => nomatch h⟩
  · rw [hkeys]
    exact laid_of_children_eq_nil fun _ _ => rfl
  · rw [injectedBy_foldl_initTask]
    exact ⟨fun ⟨_, h, _⟩ => (nomatch h), fun h => nomatch h⟩

/-- **The slots follow the injections.**  After any calls that inject new tasks, the
slots are the traversal of the forest over the registered tasks in which the
children of a task are those it injected; and descent is reachability along the
parents on record, in every state. -/
theorem slots_follow_injections (printing : τ → Bool) (tasks : List τ)
    (calls : List (τ × List τ)) (hfresh : Fresh printing (tasks.foldl initTask new) calls) :
    Laid (childrenOf calls) printing tasks.eraseDups
        ((tasks.foldl initTask new).injectAll printing calls).buffers.keys ∧
      ∀ (s : KeepOrderState τ) (task ancestor : τ), s.descendsFrom task ancestor = true ↔
        TransGen (InjectedBy s.injectedBy) task ancestor :=
  ⟨((slotted_initTask printing tasks).injectAll hfresh).laid, descendsFrom_iff⟩

/-- A parent that prints, and one below it that does not. -/
theorem slots_follow_injections_three :
    Laid (childrenOf [(0, [1, 2]), (1, [3])]) (· == 0) [0]
        (injectAll (· == 0) ([0].foldl initTask new) [(0, [1, 2]), (1, [3])]).buffers.keys :=
  (slots_follow_injections (fun task : ℕ => task == 0) [0] [(0, [1, 2]), (1, [3])]
    ⟨by decide, by decide, by decide, by decide, by decide, by decide, trivial⟩).1

end Mise.KeepOrderState
