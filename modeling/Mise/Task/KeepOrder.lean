/-
# Keep-order output

`KeepOrderState` of `src/task/task_output_handler.rs`.  One task at a time
streams its lines; every other task has a slot that buffers them.  When the live
task ends, the slots of finished tasks are flushed from the front, and the task
that comes first then may stream.

A task is its identity, what `==` on tasks compares.  What a state prints is a
field of it: the calls of `print_stdout` and `print_stderr`, in order.
`finished` is drained into a hash set and read back in no fixed order; only
whether it holds a task is ever read.
-/

import Mise.Lib.IndexMap

namespace Mise

open Lib

/-- `KeepOrderLine`: a line and its prefix, tagged by stream. -/
inductive KeepOrderLine where
  | stdout (lead line : String)
  | stderr (lead line : String)
  deriving DecidableEq

/-- `KeepOrderState`, and what it has printed. -/
structure KeepOrderState (τ : Type) [DecidableEq τ] where
  active : Option τ := none
  buffers : IndexMap τ (List KeepOrderLine) := .empty
  finished : List τ := []
  injectedBy : IndexMap τ (List τ) := .empty
  done : Bool := false
  printed : List KeepOrderLine := []

namespace KeepOrderState

variable {τ : Type} [DecidableEq τ]

/-- `new`. -/
def new : KeepOrderState τ := {}

/-- `print_lines`. -/
def printLines (s : KeepOrderState τ) (lines : List KeepOrderLine) : KeepOrderState τ :=
  { s with printed := s.printed ++ lines }

/-- The lines in a task's slot. -/
def buffered (s : KeepOrderState τ) (task : τ) : List KeepOrderLine :=
  (s.buffers.get task).getD []

/-- `init_task`. -/
def initTask (s : KeepOrderState τ) (task : τ) : KeepOrderState τ :=
  { s with buffers := s.buffers.insert task (s.buffered task) }

/-! ### Slots of injected tasks -/

/-- The tasks with parents on record that the walk has not seen. -/
def unseen (injectedBy : IndexMap τ (List τ)) (seen : List τ) : List τ :=
  injectedBy.keys.filter (· ∉ seen)

theorem length_unseen_le (injectedBy : IndexMap τ (List τ)) (seen : List τ)
    (current : τ) :
    (unseen injectedBy (current :: seen)).length ≤ (unseen injectedBy seen).length := by
  refine (List.monotone_filter_right _ fun k hk => ?_).length_le
  rw [decide_eq_true_eq, List.mem_cons, not_or] at hk
  exact decide_eq_true hk.2

theorem length_unseen_lt {injectedBy : IndexMap τ (List τ)} {seen : List τ} {current : τ}
    {parents : List τ} (hget : injectedBy.get current = some parents) (hseen : current ∉ seen) :
    (unseen injectedBy (current :: seen)).length < (unseen injectedBy seen).length := by
  have hkey : current ∈ unseen injectedBy seen :=
    List.mem_filter.2 ⟨injectedBy.mem_keys.2 ⟨parents, hget⟩, decide_eq_true hseen⟩
  have hnot : current ∉ unseen injectedBy (current :: seen) := fun h =>
    of_decide_eq_true (List.mem_filter.1 h).2 (List.mem_cons_self ..)
  have hsub : (unseen injectedBy (current :: seen)).Sublist (unseen injectedBy seen) := by
    refine List.monotone_filter_right _ fun k hk => ?_
    rw [decide_eq_true_eq, List.mem_cons, not_or] at hk
    exact decide_eq_true hk.2
  refine Nat.lt_of_le_of_ne hsub.length_le fun h => ?_
  rw [hsub.eq_of_length h] at hnot
  exact hnot hkey

/-- The walk of `descends_from`, with the tasks seen so far and the stack of those
to look at. -/
def descends (injectedBy : IndexMap τ (List τ)) (ancestor : τ) (seen : List τ) :
    List τ → Bool
  | [] => false
  | current :: stack =>
    if _hseen : current ∈ seen then descends injectedBy ancestor seen stack
    else
      match _hget : injectedBy.get current with
      | none => descends injectedBy ancestor (current :: seen) stack
      | some parents =>
        if ancestor ∈ parents then true
        else descends injectedBy ancestor (current :: seen) (parents.reverse ++ stack)
  termination_by stack => ((unseen injectedBy seen).length, stack.length)
  decreasing_by
    · exact Prod.Lex.right _ (by simp)
    · exact Prod.Lex.right' _ (length_unseen_le injectedBy seen current) (by simp)
    · exact Prod.Lex.left _ _ (length_unseen_lt _hget _hseen)

/-- `descends_from`. -/
def descendsFrom (s : KeepOrderState τ) (task ancestor : τ) : Bool :=
  descends s.injectedBy ancestor [] [task]

/-- `group_end`. -/
def groupEnd (s : KeepOrderState τ) (parent : τ) (parentIdx : ℕ) : ℕ :=
  (List.range' (parentIdx + 1) (s.buffers.entries.length - (parentIdx + 1))).foldl
    (fun stop idx =>
      if s.buffers.entries[idx]?.any fun slot => s.descendsFrom slot.1 parent then idx + 1
      else stop)
    (parentIdx + 1)

/-- The body of the loop of `insert_injected_tasks`: where `after` holds, slots go
behind the parent's group. -/
def insertInjectedTask (parent : τ) (after : Bool) (st : KeepOrderState τ × ℕ) (task : τ) :
    KeepOrderState τ × ℕ :=
  match st.1.buffers.indexOf task with
  | some existing =>
    let parents := (st.1.injectedBy.get task).getD []
    (if st.1.descendsFrom parent task then st.1
      else { st.1 with
        injectedBy :=
          st.1.injectedBy.insert task (if parent ∈ parents then parents else parents ++ [parent]) },
      if after && st.2 ≤ existing then existing + 1 else st.2)
  | none =>
    ({ st.1 with
      buffers := st.1.buffers.shiftInsert st.2 task []
      injectedBy := st.1.injectedBy.insert task [parent] }, st.2 + 1)

/-- `insert_injected_tasks`; `needsPermit` is what `task_needs_permit` says of the
parent. -/
def insertInjectedTasks (s : KeepOrderState τ) (parent : τ) (needsPermit : Bool)
    (tasks : List τ) : KeepOrderState τ :=
  match s.buffers.indexOf parent with
  | none => tasks.foldl initTask s
  | some parentIdx =>
    let idx := if needsPermit then s.groupEnd parent parentIdx else parentIdx
    (tasks.foldl (insertInjectedTask parent needsPermit) (s, idx)).1

/-! ### Lines and ends of tasks -/

/-- `is_active`. -/
def isActive (s : KeepOrderState τ) (task : τ) : Bool :=
  match s.active with
  | some active => active = task
  | none => s.buffers.first.map Prod.fst = some task

/-- `activate`. -/
def activate (s : KeepOrderState τ) (task : τ) : KeepOrderState τ :=
  match s.buffers.get task with
  | some lines =>
    { s with active := some task, buffers := s.buffers.insert task [] }.printLines lines
  | none => { s with active := some task }

/-- The body that `on_stdout` and `on_stderr` share. -/
def onLine (s : KeepOrderState τ) (task : τ) (line : KeepOrderLine) : KeepOrderState τ :=
  if s.done || s.isActive task then (s.activate task).printLines [line]
  else { s with buffers := s.buffers.insert task (s.buffered task ++ [line]) }

/-- `on_stdout`. -/
def onStdout (s : KeepOrderState τ) (task : τ) (lead line : String) : KeepOrderState τ :=
  s.onLine task (.stdout lead line)

/-- `on_stderr`. -/
def onStderr (s : KeepOrderState τ) (task : τ) (lead line : String) : KeepOrderState τ :=
  s.onLine task (.stderr lead line)

/-- The loop of `flush_finished`: how many slots from the front it flushes, and
the tasks it leaves in the set. -/
def flushLoop : List (τ × List KeepOrderLine) → List τ → ℕ × List τ
  | [], finished => (0, finished)
  | (task, _) :: slots, finished =>
    if task ∈ finished then
      let rest := flushLoop slots (finished.erase task)
      (rest.1 + 1, rest.2)
    else (0, finished)

/-- The slots behind the first `n`. -/
def dropSlots (buffers : IndexMap τ (List KeepOrderLine)) (n : ℕ) :
    IndexMap τ (List KeepOrderLine) :=
  ⟨buffers.entries.drop n, buffers.nodup.sublist ((List.drop_sublist n _).map _)⟩

/-- `flush_finished`. -/
def flushFinished (s : KeepOrderState τ) : KeepOrderState τ :=
  let flushed := flushLoop s.buffers.entries s.finished.dedup
  { s with
    buffers := dropSlots s.buffers flushed.1
    finished := flushed.2 }.printLines ((s.buffers.entries.take flushed.1).flatMap Prod.snd)

/-- `promote_next`. -/
def promoteNext (s : KeepOrderState τ) : KeepOrderState τ :=
  match s.buffers.first with
  | some (task, lines) => if lines = [] then s else s.activate task
  | none => s

/-- `on_task_finished`. -/
def onTaskFinished (s : KeepOrderState τ) (task : τ) : KeepOrderState τ :=
  if !s.buffers.containsKey task then s
  else if s.isActive task then
    ({ s with active := none, buffers := s.buffers.shiftRemove task }.printLines
      (s.buffered task)).flushFinished.promoteNext
  else { s with finished := s.finished ++ [task] }

/-- `retire_unused_slot`. -/
def retireUnusedSlot (s : KeepOrderState τ) (task : τ) : KeepOrderState τ :=
  if s.active = some task then s
  else if s.buffers.get task = some [] then s.onTaskFinished task
  else s

/-- `flush_all`. -/
def flushAll (s : KeepOrderState τ) : KeepOrderState τ :=
  let s := { s with active := none }.flushFinished
  { s with buffers := .empty, done := true }.printLines (s.buffers.entries.flatMap Prod.snd)

end KeepOrderState

/-! ### Events -/

/-- A call on a `KeepOrderState`. -/
inductive KeepOrderEvent (τ : Type) where
  | initTask (task : τ)
  | insertInjectedTasks (parent : τ) (needsPermit : Bool) (tasks : List τ)
  | stdout (task : τ) (lead line : String)
  | stderr (task : τ) (lead line : String)
  | retireUnusedSlot (task : τ)
  | taskFinished (task : τ)
  | flushAll

namespace KeepOrderState

variable {τ : Type} [DecidableEq τ]

/-- One event. -/
def step (s : KeepOrderState τ) : KeepOrderEvent τ → KeepOrderState τ
  | .initTask task => s.initTask task
  | .insertInjectedTasks parent needsPermit tasks => s.insertInjectedTasks parent needsPermit tasks
  | .stdout task lead line => s.onStdout task lead line
  | .stderr task lead line => s.onStderr task lead line
  | .retireUnusedSlot task => s.retireUnusedSlot task
  | .taskFinished task => s.onTaskFinished task
  | .flushAll => s.flushAll

/-- A sequence of events. -/
def run (s : KeepOrderState τ) (events : List (KeepOrderEvent τ)) : KeepOrderState τ :=
  events.foldl step s

end KeepOrderState

end Mise
