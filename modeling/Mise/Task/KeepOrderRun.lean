/-
# What keep-order output prints

Two results about runs of `KeepOrderState`.  Whatever the events, and in
whatever order, nothing is lost (`run_prints_every_line`): the account of every
task balances at each moment, in that the lines it has produced are those
printed for it followed by those in its slot (`Balanced`), and the last
`flush_all` empties the slots.

When every task is registered first, prints its lines and ends once, the order
of the events does not matter (`run_prints_in_turn`): the slots are those of the
tasks from some place on, only the first can be live, and what has been printed
is the whole output of the tasks before it and what the live one has produced so
far (`InTurn`).
-/

import Mise.Lib.Lanes
import Mise.Task.KeepOrder
import Mathlib.Data.List.Dedup

namespace Mise

open Lib

namespace KeepOrderState

variable {τ : Type} [DecidableEq τ] {s : KeepOrderState τ} {produced : τ → List KeepOrderLine}

/-! ### The account of every task -/

/-- **Nothing is lost**: with the printed lines tagged by their tasks, what each
task has produced is what was printed for it and what its slot holds. -/
def Balanced (produced : τ → List KeepOrderLine) (s : KeepOrderState τ) : Prop :=
  ∃ tagged : List (τ × KeepOrderLine), s.printed = tagged.map Prod.snd ∧
    ∀ t, lane t tagged ++ s.buffered t = produced t

/-- Only what is printed and what is buffered counts. -/
theorem Balanced.congr {s' : KeepOrderState τ} (h : Balanced produced s)
    (hprinted : s'.printed = s.printed) (hbuffered : ∀ t, s'.buffered t = s.buffered t) :
    Balanced produced s' := by
  obtain ⟨tagged, htagged, hlane⟩ := h
  exact ⟨tagged, hprinted.trans htagged, fun t => (hbuffered t).symm ▸ hlane t⟩

/-- Lines of one task that leave its slot for the terminal, perhaps with new ones
behind them. -/
theorem Balanced.release {s' : KeepOrderState τ} (h : Balanced produced s) (task : τ)
    (new : List KeepOrderLine) (hprinted : s'.printed = s.printed ++ (s.buffered task ++ new))
    (hbuffered : ∀ t, s'.buffered t = if t = task then [] else s.buffered t) :
    Balanced (Function.update produced task (produced task ++ new)) s' := by
  obtain ⟨tagged, htagged, hlane⟩ := h
  refine ⟨tagged ++ (s.buffered task ++ new).map (task, ·), ?_, fun t => ?_⟩
  · rw [hprinted, htagged, List.map_append, List.map_map]
    exact congrArg _ (List.map_id _).symm
  · rw [lane_append, lane_map_pair, hbuffered]
    by_cases ht : t = task
    · rw [if_pos ht.symm, if_pos ht, List.append_nil, ht, Function.update_self, ← hlane task,
        List.append_assoc]
    · rw [if_neg (Ne.symm ht), if_neg ht, List.append_nil, Function.update_of_ne ht, hlane]

/-- The first slots, printed whole. -/
theorem Balanced.flush {s' : KeepOrderState τ} (h : Balanced produced s) (n : ℕ)
    (hprinted : s'.printed = s.printed ++ (s.buffers.entries.take n).flatMap Prod.snd)
    (hentries : s'.buffers.entries = s.buffers.entries.drop n) : Balanced produced s' := by
  obtain ⟨tagged, htagged, hlane⟩ := h
  refine ⟨tagged ++ tagSlots (s.buffers.entries.take n), ?_, fun t => ?_⟩
  · rw [hprinted, htagged, List.map_append, map_snd_tagSlots]
  · have hleft : s'.buffered t = lane t (tagSlots (s.buffers.entries.drop n)) := by
      rw [lane_tagSlots (s.buffers.nodup.sublist ((List.drop_sublist n _).map _)), ← hentries]
      rfl
    have hall : lane t (tagSlots s.buffers.entries) = s.buffered t :=
      lane_tagSlots s.buffers.nodup t
    rw [lane_append, hleft, List.append_assoc, ← lane_append, ← tagSlots_append,
      List.take_append_drop, hall, hlane]

/-! ### What each call does to the account -/

@[simp] theorem printLines_nil : s.printLines [] = s :=
  congrArg (fun lines => { s with printed := lines }) (List.append_nil s.printed)

/-- A task that becomes live prints its slot. -/
theorem printed_activate (task : τ) :
    (s.activate task).printed = s.printed ++ s.buffered task := by
  unfold activate buffered
  cases s.buffers.get task with
  | none => exact (List.append_nil _).symm
  | some lines => rfl

theorem buffered_activate (task t : τ) :
    (s.activate task).buffered t = if t = task then [] else s.buffered t := by
  unfold activate
  cases hget : s.buffers.get task with
  | none =>
    by_cases ht : t = task
    · rw [if_pos ht, ht]
      exact congrArg (Option.getD · []) hget
    · exact (if_neg ht).symm
  | some lines =>
    show (((s.buffers.insert task []).get t).getD []) = _
    rw [IndexMap.get_insert]
    split <;> rfl

theorem balanced_activate (h : Balanced produced s) (task : τ) :
    Balanced produced (s.activate task) := by
  have hrelease := h.release task [] (by rw [List.append_nil, printed_activate])
    (buffered_activate task)
  rwa [List.append_nil, Function.update_eq_self] at hrelease

/-- **A line counts once**, whether it is printed or put into the slot. -/
theorem balanced_onLine (h : Balanced produced s) (task : τ) (line : KeepOrderLine) :
    Balanced (Function.update produced task (produced task ++ [line])) (s.onLine task line) := by
  unfold onLine
  split
  · refine h.release task [line] ?_ (buffered_activate task)
    rw [← List.append_assoc, ← printed_activate]
    rfl
  · obtain ⟨tagged, htagged, hlane⟩ := h
    refine ⟨tagged, htagged, fun t => ?_⟩
    show lane t tagged ++ ((s.buffers.insert task (s.buffered task ++ [line])).get t).getD [] = _
    rw [IndexMap.get_insert]
    by_cases ht : t = task
    · rw [if_pos ht, ht, Function.update_self, ← hlane task, List.append_assoc]
      rfl
    · rw [if_neg ht, Function.update_of_ne ht]
      exact hlane t

theorem balanced_flushFinished (h : Balanced produced s) : Balanced produced s.flushFinished :=
  h.flush (flushLoop s.buffers.entries s.finished.dedup).1 rfl rfl

theorem balanced_promoteNext (h : Balanced produced s) : Balanced produced s.promoteNext := by
  unfold promoteNext
  split
  · split
    · exact h
    · exact balanced_activate h _
  · exact h

theorem balanced_onTaskFinished (h : Balanced produced s) (task : τ) :
    Balanced produced (s.onTaskFinished task) := by
  unfold onTaskFinished
  split
  · exact h
  · split
    · refine balanced_promoteNext (balanced_flushFinished ?_)
      have hrelease : Balanced (Function.update produced task (produced task ++ []))
          ({ s with active := none, buffers := s.buffers.shiftRemove task }.printLines
            (s.buffered task)) := by
        refine h.release task [] (by rw [List.append_nil]; rfl) fun t => ?_
        show ((s.buffers.shiftRemove task).get t).getD [] = _
        rw [IndexMap.get_shiftRemove]
        split <;> rfl
      rwa [List.append_nil, Function.update_eq_self] at hrelease
    · exact h.congr rfl fun _ => rfl

theorem balanced_initTask (h : Balanced produced s) (task : τ) :
    Balanced produced (s.initTask task) := by
  refine h.congr rfl fun t => ?_
  show ((s.buffers.insert task (s.buffered task)).get t).getD [] = _
  rw [IndexMap.get_insert]
  by_cases ht : t = task
  · rw [if_pos ht, ht]
    rfl
  · rw [if_neg ht]
    rfl

/-! ### Slots of injected tasks -/

/-- The group of a parent ends within the slots. -/
theorem groupEnd_le {parent : τ} {parentIdx : ℕ} (h : parentIdx < s.buffers.entries.length) :
    s.groupEnd parent parentIdx ≤ s.buffers.entries.length := by
  have hloop : ∀ (idxs : List ℕ) (stop : ℕ), stop ≤ s.buffers.entries.length →
      idxs.foldl (fun stop idx =>
        if s.buffers.entries[idx]?.any fun slot => s.descendsFrom slot.1 parent then idx + 1
        else stop) stop ≤ s.buffers.entries.length := by
    intro idxs
    induction idxs with
    | nil => exact fun _ hstop => hstop
    | cons idx idxs ih =>
      intro stop hstop
      rw [List.foldl_cons]
      split
      · case isTrue hany =>
        have hidx : idx < s.buffers.entries.length := by
          by_contra hge
          rw [List.getElem?_eq_none (Nat.le_of_not_lt hge)] at hany
          exact Bool.false_ne_true hany
        exact ih _ hidx
      · exact ih _ hstop
  exact hloop _ _ (by omega)

/-- One injected task gets a slot where it had none, within the slots there are. -/
theorem balanced_insertInjectedTask {parent : τ} {after : Bool} {idx : ℕ} (task : τ)
    (h : Balanced produced s) (hidx : idx ≤ s.buffers.entries.length) :
    Balanced produced (insertInjectedTask parent after (s, idx) task).1 ∧
      (insertInjectedTask parent after (s, idx) task).2 ≤
        (insertInjectedTask parent after (s, idx) task).1.buffers.entries.length := by
  unfold insertInjectedTask
  cases hindex : s.buffers.indexOf task with
  | some existing =>
    have hexisting := IndexMap.lt_of_indexOf hindex
    constructor
    · show Balanced produced (if _ then _ else _)
      split
      · exact h
      · exact h.congr rfl fun _ => rfl
    · have hlength : (if s.descendsFrom parent task then s else { s with
          injectedBy := s.injectedBy.insert task (if parent ∈ (s.injectedBy.get task).getD [] then
            (s.injectedBy.get task).getD [] else (s.injectedBy.get task).getD [] ++ [parent]) }
          ).buffers = s.buffers := by split <;> rfl
      show (if _ then _ else _) ≤ _
      rw [hlength]
      split
      · exact hexisting
      · exact hidx
  | none =>
    have hnone := IndexMap.indexOf_eq_none hindex
    have hentries := IndexMap.shiftRemove_of_get_eq_none hnone
    have hidx' : idx ≤ (s.buffers.shiftRemove task).entries.length := by rw [hentries]; exact hidx
    constructor
    · refine h.congr rfl fun t => ?_
      show ((s.buffers.shiftInsert idx task []).get t).getD [] = (s.buffers.get t).getD []
      rw [IndexMap.get_shiftInsert _ _ _ _ hidx']
      split
      · case isTrue ht => rw [ht, hnone]; rfl
      · rfl
    · show idx + 1 ≤ ((s.buffers.shiftRemove task).entries.insertIdx idx (task, [])).length
      rw [List.length_insertIdx_of_le_length hidx', hentries]
      omega

/-- Injecting tasks loses no line. -/
theorem balanced_insertInjectedTasks (h : Balanced produced s) (parent : τ) (needsPermit : Bool)
    (tasks : List τ) : Balanced produced (s.insertInjectedTasks parent needsPermit tasks) := by
  unfold insertInjectedTasks
  cases hindex : s.buffers.indexOf parent with
  | none =>
    show Balanced produced (tasks.foldl initTask s)
    clear hindex
    induction tasks generalizing s with
    | nil => exact h
    | cons task tasks ih => exact ih (balanced_initTask h task)
  | some parentIdx =>
    have hparent := IndexMap.lt_of_indexOf hindex
    have hloop : ∀ (tasks : List τ) (st : KeepOrderState τ × ℕ), Balanced produced st.1 →
        st.2 ≤ st.1.buffers.entries.length →
        Balanced produced (tasks.foldl (insertInjectedTask parent needsPermit) st).1 := by
      intro tasks
      induction tasks with
      | nil => exact fun _ hst _ => hst
      | cons task tasks ih =>
        intro st hst hidx
        obtain ⟨hst', hidx'⟩ := balanced_insertInjectedTask task hst hidx
        exact ih _ hst' hidx'
    refine hloop tasks _ h ?_
    show (if _ then _ else _) ≤ _
    split
    · exact groupEnd_le hparent
    · exact Nat.le_of_lt hparent

/-! ### Runs -/

end KeepOrderState

/-- The lines an event produces for a task. -/
def KeepOrderEvent.lines {τ : Type} [DecidableEq τ] (task : τ) :
    KeepOrderEvent τ → List KeepOrderLine
  | stdout t lead line => if t = task then [.stdout lead line] else []
  | stderr t lead line => if t = task then [.stderr lead line] else []
  | _ => []

namespace KeepOrderState

variable {τ : Type} [DecidableEq τ] {s : KeepOrderState τ} {produced : τ → List KeepOrderLine}

/-- Any event keeps the account. -/
theorem balanced_step (h : Balanced produced s) (event : KeepOrderEvent τ) :
    Balanced (fun t => produced t ++ event.lines t) (s.step event) := by
  have hsame : (fun t => produced t ++ []) = produced := funext fun t => List.append_nil _
  have hline : ∀ (task : τ) (line : KeepOrderLine),
      Function.update produced task (produced task ++ [line]) =
        fun t => produced t ++ if task = t then [line] else [] := by
    intro task line
    funext t
    by_cases ht : t = task
    · rw [ht, Function.update_self, if_pos rfl]
    · rw [Function.update_of_ne ht, if_neg (Ne.symm ht), List.append_nil]
  cases event with
  | initTask task => exact hsame.symm ▸ balanced_initTask h task
  | insertInjectedTasks parent needsPermit tasks =>
    exact hsame.symm ▸ balanced_insertInjectedTasks h parent needsPermit tasks
  | stdout task lead line => exact hline task (.stdout lead line) ▸ balanced_onLine h task _
  | stderr task lead line => exact hline task (.stderr lead line) ▸ balanced_onLine h task _
  | retireUnusedSlot task =>
    refine hsame.symm ▸ ?_
    show Balanced produced (s.retireUnusedSlot task)
    unfold retireUnusedSlot
    split
    · exact h
    · split
      · exact balanced_onTaskFinished h task
      · exact h
  | taskFinished task => exact hsame.symm ▸ balanced_onTaskFinished h task
  | flushAll =>
    refine hsame.symm ▸ ?_
    have hflush : Balanced produced ({ s with active := none } : KeepOrderState τ).flushFinished :=
      balanced_flushFinished (h.congr rfl fun _ => rfl)
    refine hflush.flush
      ({ s with active := none } : KeepOrderState τ).flushFinished.buffers.entries.length ?_ ?_
    · rw [List.take_length]
      rfl
    · rw [List.drop_length]
      rfl

theorem balanced_run (h : Balanced produced s) (events : List (KeepOrderEvent τ)) :
    Balanced (fun t => produced t ++ events.flatMap (·.lines t)) (s.run events) := by
  induction events generalizing s produced with
  | nil =>
    have hsame : (fun t => produced t ++ []) = produced := funext fun t => List.append_nil _
    exact hsame.symm ▸ h
  | cons event events ih =>
    have hrest := ih (balanced_step h event)
    have hassoc : (fun t => produced t ++ event.lines t ++ events.flatMap (·.lines t)) =
        fun t => produced t ++ (event :: events).flatMap (·.lines t) :=
      funext fun t => by rw [List.flatMap_cons, List.append_assoc]
    exact hassoc ▸ hrest

/-- **No output is lost.**  After any events, the last of them a `flush_all`, what
has been printed is an interleaving of what the tasks have produced: with each
printed line tagged by a task, the lines of every task are exactly those it
produced, in order. -/
theorem run_prints_every_line (events : List (KeepOrderEvent τ)) :
    ∃ tagged : List (τ × KeepOrderLine),
      (new.run (events ++ [.flushAll])).printed = tagged.map Prod.snd ∧
        ∀ task, lane task tagged = events.flatMap (·.lines task) := by
  have hnew : Balanced (fun _ => []) (new : KeepOrderState τ) := ⟨[], rfl, fun _ => rfl⟩
  obtain ⟨tagged, hprinted, hlane⟩ := balanced_run hnew (events ++ [.flushAll])
  refine ⟨tagged, hprinted, fun task => ?_⟩
  have hempty : (new.run (events ++ [.flushAll])).buffered task = [] := by
    rw [run, List.foldl_append]
    rfl
  have htask := hlane task
  rw [hempty, List.append_nil] at htask
  have hlast : (events ++ [KeepOrderEvent.flushAll]).flatMap (KeepOrderEvent.lines task) =
      events.flatMap (KeepOrderEvent.lines task) := by
    rw [List.flatMap_append]
    exact List.append_nil _
  rw [htask, ← hlast]
  exact List.nil_append _

/-! ### Tasks in turn -/

/-- **The output so far is that of the tasks in their order**, and `rest` are the
tasks that still have slots: only the first of them may be live, it has not ended,
and every other slot holds all its task has produced. -/
structure InTurn (flushed rest : List τ) (produced : τ → List KeepOrderLine) (ended : τ → Prop)
    (s : KeepOrderState τ) : Prop where
  done : s.done = false
  slots : s.buffers.entries = rest.map fun t => (t, if s.active = some t then [] else produced t)
  live : ∀ t, s.active = some t → rest.head? = some t ∧ produced t ≠ []
  printed : s.printed = (flushed ++ s.active.toList).flatMap produced
  finished : ∀ t ∈ rest, t ∈ s.finished ↔ ended t
  past : ∀ t ∈ flushed, ended t
  front : ∀ t, rest.head? = some t → ¬ended t

/-- The values of slots that are listed by key. -/
theorem lookup_map_pair {ν : Type} (f : τ → ν) (keys : List τ) (t : τ) :
    (keys.map fun k => (k, f k)).lookup t = if t ∈ keys then some (f t) else none := by
  induction keys with
  | nil => rfl
  | cons k keys ih =>
    rw [List.map_cons, IndexMap.lookup_cons_ite, ih]
    by_cases ht : t = k
    · rw [if_pos ht, if_pos (ht ▸ List.mem_cons_self ..), ht]
    · rw [if_neg ht]
      simp only [List.mem_cons, ht, false_or]

/-- A new value at a key that is listed. -/
theorem insertEntry_map_pair {ν : Type} (f : τ → ν) (keys : List τ) (hkeys : keys.Nodup) (t : τ)
    (ht : t ∈ keys) (v : ν) :
    IndexMap.insertEntry t v (keys.map fun k => (k, f k)) =
      keys.map fun k => (k, Function.update f t v k) := by
  induction keys with
  | nil => exact absurd ht List.not_mem_nil
  | cons k keys ih =>
    rw [List.nodup_cons] at hkeys
    rw [List.map_cons, List.map_cons, IndexMap.insertEntry]
    by_cases hk : k = t
    · have hrest : (keys.map fun k => (k, Function.update f t v k)) = keys.map fun k => (k, f k) :=
        List.map_congr_left fun k' hk' => by
          have hne : k' ≠ t := fun h => hkeys.1 (hk.trans h.symm ▸ hk')
          rw [Function.update_of_ne hne]
      rw [if_pos hk, hrest, hk, Function.update_self]
    · rw [if_neg hk, ih hkeys.2 ((List.mem_cons.1 ht).resolve_left (Ne.symm hk)),
        Function.update_of_ne hk]

variable {flushed rest : List τ} {ended : τ → Prop}

/-- What a slot holds. -/
theorem InTurn.get (h : InTurn flushed rest produced ended s) {t : τ} (ht : t ∈ rest) :
    s.buffers.get t = some (if s.active = some t then [] else produced t) := by
  rw [IndexMap.get, h.slots, lookup_map_pair fun t => if s.active = some t then [] else produced t]
  exact if_pos ht

theorem InTurn.nodup (h : InTurn flushed rest produced ended s) : rest.Nodup := by
  have hkeys := s.buffers.nodup
  rw [h.slots, List.map_map] at hkeys
  exact (List.map_id rest) ▸ hkeys

/-- The task that may stream is the first one. -/
theorem InTurn.isActive_iff (h : InTurn flushed rest produced ended s) {t : τ} :
    s.isActive t = true ↔ s.active = some t ∨ s.active = none ∧ rest.head? = some t := by
  unfold isActive
  cases hactive : s.active with
  | some active => simp
  | none =>
    simp only [IndexMap.first, h.slots, List.head?_map, Option.map_map, reduceCtorEq, false_or,
      true_and, decide_eq_true_eq]
    exact (congrFun Option.map_id rest.head?) ▸ Iff.rfl

/-- The output of other tasks does not change with what one has produced. -/
theorem flatMap_update {tasks : List τ} {t : τ} (ht : t ∉ tasks) (lines : List KeepOrderLine) :
    tasks.flatMap (Function.update produced t lines) = tasks.flatMap produced :=
  List.flatMap_congr fun t' ht' => by
    have hne : t' ≠ t := fun he => ht (he ▸ ht')
    rw [Function.update_of_ne hne]

/-- **The first task takes the stream**, and perhaps prints more. -/
theorem InTurn.activate (h : InTurn flushed rest produced ended s) {t : τ}
    (hhead : rest.head? = some t) (hflushed : t ∉ flushed) (new : List KeepOrderLine)
    (hproduced : produced t ++ new ≠ []) :
    InTurn flushed rest (Function.update produced t (produced t ++ new)) ended
      ((s.activate t).printLines new) := by
  have ht : t ∈ rest := List.mem_of_mem_head? hhead
  have hactive : ∀ t', s.active = some t' → t' = t := fun t' ht' =>
    Option.some.inj ((h.live t' ht').1.symm.trans hhead)
  have hstate : s.activate t = { s with active := some t, buffers := s.buffers.insert t [] }.printLines
      (if s.active = some t then [] else produced t) := by
    unfold KeepOrderState.activate
    rw [h.get ht]
  rw [hstate]
  constructor
  · exact h.done
  · show IndexMap.insertEntry t [] s.buffers.entries = _
    rw [h.slots, insertEntry_map_pair (fun t => if s.active = some t then [] else produced t) rest
      h.nodup t ht]
    refine List.map_congr_left fun t' _ => Prod.ext rfl ?_
    show _ = if some t = some t' then [] else _
    by_cases ht' : t' = t
    · rw [ht', Function.update_self, if_pos rfl]
    · have hnot : s.active ≠ some t' := fun hs => ht' (hactive t' hs)
      have hsome : some t ≠ some t' := fun hs => ht' (Option.some.inj hs).symm
      rw [Function.update_of_ne ht', Function.update_of_ne ht', if_neg hnot, if_neg hsome]
  · intro t' ht'
    obtain rfl := Option.some.inj ht'
    rw [Function.update_self]
    exact ⟨hhead, hproduced⟩
  · show s.printed ++ _ ++ new = (flushed ++ [t]).flatMap _
    rw [h.printed, List.flatMap_append, List.flatMap_append, flatMap_update hflushed,
      List.flatMap_singleton, Function.update_self]
    cases hs : s.active with
    | none => simp
    | some t' =>
      obtain rfl := hactive t' hs
      simp
  · exact h.finished
  · exact h.past
  · exact h.front

/-- **A line of a task that has a slot.** -/
theorem InTurn.onLine (h : InTurn flushed rest produced ended s) {t : τ} (ht : t ∈ rest)
    (hflushed : t ∉ flushed) (line : KeepOrderLine) :
    InTurn flushed rest (Function.update produced t (produced t ++ [line])) ended
      (s.onLine t line) := by
  unfold KeepOrderState.onLine
  rw [h.done, Bool.false_or]
  split
  · case isTrue hactive =>
    have hhead : rest.head? = some t :=
      (h.isActive_iff.1 hactive).elim (fun ha => (h.live t ha).1) And.right
    exact h.activate hhead hflushed [line] (List.concat_ne_nil line _)
  · case isFalse hactive =>
    have hnot : s.active ≠ some t := fun ha => hactive (h.isActive_iff.2 (.inl ha))
    have hbuffered : s.buffered t = produced t := by
      rw [buffered, h.get ht, if_neg hnot]
      rfl
    have hlive : t ∉ s.active.toList := fun ha => hnot (Option.mem_toList.1 ha)
    constructor
    · rfl
    · show IndexMap.insertEntry t _ s.buffers.entries = _
      rw [h.slots, insertEntry_map_pair (fun t => if s.active = some t then [] else produced t) rest
        h.nodup t ht, hbuffered]
      refine List.map_congr_left fun t' _ => Prod.ext rfl ?_
      show _ = if s.active = some t' then [] else _
      by_cases he : t' = t
      · rw [he, Function.update_self, Function.update_self, if_neg hnot]
      · rw [Function.update_of_ne he, Function.update_of_ne he]
    · intro t' ht'
      have hne : t' ≠ t := fun he => hnot (he ▸ ht')
      rw [Function.update_of_ne hne]
      exact h.live t' ht'
    · show s.printed = _
      rw [h.printed, List.flatMap_append, List.flatMap_append, flatMap_update hflushed,
        flatMap_update hlive]
    · exact h.finished
    · exact h.past
    · exact h.front

/-- What the loop of `flush_finished` flushes: the slots in front of the first task
that is not in the set. -/
theorem flushLoop_spec {slots : List (τ × List KeepOrderLine)}
    (hslots : (slots.map Prod.fst).Nodup) (finished : List τ) :
    (∀ t ∈ (slots.take (flushLoop slots finished).1).map Prod.fst, t ∈ finished) ∧
      (∀ t, ((slots.drop (flushLoop slots finished).1).map Prod.fst).head? = some t →
        t ∉ finished) ∧
      ∀ t ∈ (slots.drop (flushLoop slots finished).1).map Prod.fst,
        t ∈ (flushLoop slots finished).2 ↔ t ∈ finished := by
  induction slots generalizing finished with
  | nil => exact ⟨nofun, nofun, nofun⟩
  | cons slot slots ih =>
    obtain ⟨task, lines⟩ := slot
    rw [List.map_cons, List.nodup_cons] at hslots
    by_cases htask : task ∈ finished
    · obtain ⟨htaken, hhead, hleft⟩ := ih hslots.2 (finished.erase task)
      have hne : ∀ t ∈ (slots.drop (flushLoop slots (finished.erase task)).1).map Prod.fst,
          t ≠ task := fun t ht he =>
        hslots.1 (he ▸ ((List.drop_sublist _ slots).map Prod.fst).subset ht)
      have hloop : flushLoop ((task, lines) :: slots) finished =
          ((flushLoop slots (finished.erase task)).1 + 1,
            (flushLoop slots (finished.erase task)).2) := by
        rw [flushLoop, if_pos htask]
      rw [hloop]
      refine ⟨fun t ht => ?_, fun t ht => ?_, fun t ht => ?_⟩
      · rcases List.mem_cons.1 ht with rfl | ht
        · exact htask
        · exact List.mem_of_mem_erase (htaken t ht)
      · have hmem := List.mem_of_mem_head? ht
        exact fun hf => hhead t ht ((List.mem_erase_of_ne (hne t hmem)).2 hf)
      · exact (hleft t ht).trans (List.mem_erase_of_ne (hne t ht))
    · rw [flushLoop, if_neg htask]
      refine ⟨nofun, fun t ht => ?_, fun t _ => Iff.rfl⟩
      obtain rfl := Option.some.inj ht
      exact htask

/-- Between two live tasks: the slots hold all that was produced, and the finished
tasks at the front have not been flushed yet. -/
structure Between (flushed rest : List τ) (produced : τ → List KeepOrderLine) (ended : τ → Prop)
    (s : KeepOrderState τ) : Prop where
  done : s.done = false
  active : s.active = none
  slots : s.buffers.entries = rest.map fun t => (t, produced t)
  printed : s.printed = flushed.flatMap produced
  finished : ∀ t ∈ rest, t ∈ s.finished ↔ ended t
  past : ∀ t ∈ flushed, ended t

/-- Flushing prints the finished tasks at the front. -/
theorem Between.flushFinished (h : Between flushed rest produced ended s) :
    ∃ gone left, gone ++ left = rest ∧ InTurn (flushed ++ gone) left produced ended
      s.flushFinished := by
  have hfst : s.buffers.entries.map Prod.fst = rest := by
    rw [h.slots, List.map_map]
    exact List.map_id rest
  obtain ⟨htaken, hhead, hleft⟩ :=
    flushLoop_spec (s.buffers.nodup) s.finished.dedup
  generalize hn : (flushLoop s.buffers.entries s.finished.dedup).1 = n at htaken hhead hleft
  rw [List.map_take, hfst] at htaken
  rw [List.map_drop, hfst] at hhead hleft
  refine ⟨rest.take n, rest.drop n, List.take_append_drop n rest, ?_⟩
  have hended : ∀ t ∈ rest, t ∈ s.finished.dedup ↔ ended t := fun t ht =>
    List.mem_dedup.trans (h.finished t ht)
  constructor
  · exact h.done
  · show s.buffers.entries.drop _ = _
    rw [hn, h.slots, List.map_drop]
    refine congrArg _ (List.map_congr_left fun t _ => Prod.ext rfl ?_)
    show _ = if s.active = some t then [] else _
    rw [h.active, if_neg (Option.some_ne_none t).symm]
  · intro t ht
    have hnone : s.active = some t := ht
    rw [h.active] at hnone
    exact absurd hnone.symm (Option.some_ne_none t)
  · show s.printed ++ (s.buffers.entries.take _).flatMap Prod.snd =
      (flushed ++ rest.take n ++ s.active.toList).flatMap produced
    rw [hn, h.printed, h.slots, h.active, ← List.map_take, List.flatMap_map, Option.toList_none,
      List.append_nil, List.flatMap_append]
  · intro t ht
    exact (hleft t ht).trans (hended t (List.mem_of_mem_drop ht))
  · intro t ht
    rcases List.mem_append.1 ht with ht | ht
    · exact h.past t ht
    · exact (hended t (List.mem_of_mem_take ht)).1 (htaken t ht)
  · intro t ht ht'
    exact hhead t ht ((hended t (List.mem_of_mem_drop (List.mem_of_mem_head? ht))).2 ht')

/-- The next task with lines in its slot becomes live. -/
theorem InTurn.promoteNext (h : InTurn flushed rest produced ended s) (hactive : s.active = none)
    (hdisjoint : ∀ t ∈ rest, t ∉ flushed) :
    InTurn flushed rest produced ended s.promoteNext := by
  unfold KeepOrderState.promoteNext
  split
  · case h_1 task lines hfirst =>
    rw [IndexMap.first, h.slots, List.head?_map, Option.map_eq_some_iff] at hfirst
    obtain ⟨t, hhead, heq⟩ := hfirst
    obtain ⟨rfl, rfl⟩ := Prod.mk.inj heq
    rw [hactive, if_neg (Option.some_ne_none _).symm]
    split
    · exact h
    · case isFalse hlines =>
      have hnew := h.activate hhead (hdisjoint t (List.mem_of_mem_head? hhead)) []
        (by rwa [List.append_nil])
      rwa [List.append_nil, Function.update_eq_self, printLines_nil] at hnew
  · exact h

/-- **The end of a task that has a slot.** -/
theorem InTurn.onTaskFinished (h : InTurn flushed rest produced ended s)
    (hnodup : (flushed ++ rest).Nodup) {t : τ} (ht : t ∈ rest) :
    ∃ flushed' rest', flushed' ++ rest' = flushed ++ rest ∧
      InTurn flushed' rest' produced (fun t' => ended t' ∨ t' = t) (s.onTaskFinished t) := by
  have hdisjoint : ∀ t' ∈ rest, t' ∉ flushed := fun t' h₁ h₂ =>
    List.disjoint_of_nodup_append hnodup h₂ h₁
  have hcontains : s.buffers.containsKey t = true := by
    rw [IndexMap.containsKey, h.get ht]
    rfl
  unfold KeepOrderState.onTaskFinished
  rw [hcontains, Bool.not_true, if_neg Bool.false_ne_true]
  split
  · case isTrue hactive =>
    have hhead : rest.head? = some t :=
      (h.isActive_iff.1 hactive).elim (fun ha => (h.live t ha).1) And.right
    obtain ⟨rest, rfl⟩ : ∃ rest', rest = t :: rest' := List.head?_eq_some_iff.1 hhead
    have hrest : t ∉ rest := (List.nodup_cons.1 h.nodup).1
    have hlive : ∀ t', s.active = some t' → t' = t := fun t' ha =>
      Option.some.inj ((h.live t' ha).1.symm.trans hhead)
    have hbetween : Between (flushed ++ [t]) rest produced (fun t' => ended t' ∨ t' = t)
        ({ s with active := none, buffers := s.buffers.shiftRemove t }.printLines
          (s.buffered t)) := by
      constructor
      · exact h.done
      · rfl
      · show s.buffers.entries.filter _ = _
        rw [h.slots, List.map_cons, List.filter_cons, if_neg (by simp)]
        rw [List.filter_eq_self.2 (by simpa using fun t' h₁ (h₂ : t' = t) => hrest (h₂ ▸ h₁))]
        refine List.map_congr_left fun t' ht' => Prod.ext rfl ?_
        exact if_neg fun ha => hrest (hlive t' ha ▸ ht')
      · show s.printed ++ s.buffered t = (flushed ++ [t]).flatMap produced
        rw [h.printed, buffered, h.get ht]
        cases hs : s.active with
        | none => simp
        | some t' =>
          obtain rfl := hlive t' hs
          simp
      · intro t' ht'
        have hne : t' ≠ t := fun he => hrest (he ▸ ht')
        exact (h.finished t' (List.mem_cons_of_mem _ ht')).trans
          (or_iff_left hne).symm
      · intro t' ht'
        rcases List.mem_append.1 ht' with ht' | ht'
        · exact .inl (h.past t' ht')
        · exact .inr (List.mem_singleton.1 ht')
    obtain ⟨gone, left, hsplit, hturn⟩ := hbetween.flushFinished
    refine ⟨flushed ++ [t] ++ gone, left, ?_, hturn.promoteNext rfl ?_⟩
    · rw [List.append_assoc, List.append_assoc, hsplit, List.singleton_append]
    · rw [← hsplit, ← List.singleton_append, ← List.append_assoc, ← List.append_assoc] at hnodup
      exact fun t' h₁ h₂ => List.disjoint_of_nodup_append hnodup h₂ h₁
  · case isFalse hactive =>
    have hfront : rest.head? ≠ some t := fun hhead => hactive <| h.isActive_iff.2 <| by
      cases hs : s.active with
      | none => exact .inr ⟨rfl, hhead⟩
      | some t' => exact .inl ((h.live t' hs).1.symm.trans hhead)
    refine ⟨flushed, rest, rfl, h.done, h.slots, h.live, h.printed, fun t' ht' => ?_,
      fun t' ht' => .inl (h.past t' ht'), fun t' ht' => ?_⟩
    · show t' ∈ s.finished ++ [t] ↔ _
      rw [List.mem_append, List.mem_singleton, h.finished t' ht']
    · exact not_or.2 ⟨h.front t' ht', fun he => hfront (he ▸ ht')⟩

/-- The slot of a task without output is retired as if the task had ended. -/
theorem InTurn.retireUnusedSlot (h : InTurn flushed rest produced ended s) {t : τ} (ht : t ∈ rest)
    (hproduced : produced t = []) : s.retireUnusedSlot t = s.onTaskFinished t := by
  have hnot : s.active ≠ some t := fun ha => (h.live t ha).2 hproduced
  unfold KeepOrderState.retireUnusedSlot
  rw [if_neg hnot, if_pos]
  rw [h.get ht, if_neg hnot, hproduced]

end KeepOrderState

/-! ### Every order of the events -/

namespace KeepOrderEvent

variable {τ : Type} [DecidableEq τ]

/-- The task an event of a running task is about. -/
def subject : KeepOrderEvent τ → Option τ
  | stdout task _ _ => some task
  | stderr task _ _ => some task
  | retireUnusedSlot task => some task
  | taskFinished task => some task
  | _ => none

/-- The event of a line. -/
def ofLine (task : τ) : KeepOrderLine → KeepOrderEvent τ
  | .stdout lead line => stdout task lead line
  | .stderr lead line => stderr task lead line

/-- The events that can end a task with these lines: one without any may be
abandoned before it starts. -/
def Ends (task : τ) (lines : List KeepOrderLine) (event : KeepOrderEvent τ) : Prop :=
  event = taskFinished task ∨ lines = [] ∧ event = retireUnusedSlot task

end KeepOrderEvent

namespace KeepOrderState

variable {τ : Type} [DecidableEq τ] {s : KeepOrderState τ} {produced : τ → List KeepOrderLine}
  {flushed rest : List τ} {ended : τ → Prop}

/-- What is left to come of a task: nothing once it has ended, else its remaining
lines and its end. -/
def Remains (lines : List KeepOrderLine) (produced : List KeepOrderLine) (ended : Prop) (task : τ)
    (events : List (KeepOrderEvent τ)) : Prop :=
  (ended ∧ produced = lines ∧ events.filter (·.subject = some task) = []) ∨
    ¬ended ∧ ∃ left closing, produced ++ left = lines ∧ closing.Ends task lines ∧
      events.filter (·.subject = some task) = left.map (.ofLine task) ++ [closing]

/-- An event of another task changes nothing for a task. -/
theorem Remains.of_cons {lines out : List KeepOrderLine} {ended : Prop} {task t : τ}
    {event : KeepOrderEvent τ} {events : List (KeepOrderEvent τ)}
    (h : Remains lines out ended t (event :: events)) (hsubject : event.subject = some task)
    (hne : t ≠ task) : Remains lines out ended t events := by
  have hskip : (event :: events).filter (·.subject = some t) =
      events.filter (·.subject = some t) :=
    List.filter_cons_of_neg fun he =>
      hne (Option.some.inj ((of_decide_eq_true he).symm.trans hsubject))
  rw [Remains, hskip] at h
  exact h

/-- **One event of a run.**  The tasks stay in turn, and what remains of each of
them remains. -/
theorem InTurn.step (h : InTurn flushed rest produced ended s) (hnodup : (flushed ++ rest).Nodup)
    (lines : τ → List KeepOrderLine) {event : KeepOrderEvent τ}
    {events : List (KeepOrderEvent τ)} {task : τ} (hsubject : event.subject = some task)
    (htask : task ∈ flushed ++ rest)
    (hremains : ∀ t ∈ flushed ++ rest,
      Remains (lines t) (produced t) (ended t) t (event :: events)) :
    ∃ flushed' rest' produced' ended', flushed' ++ rest' = flushed ++ rest ∧
      InTurn flushed' rest' produced' ended' (s.step event) ∧
      ∀ t ∈ flushed ++ rest, Remains (lines t) (produced' t) (ended' t) t events := by
  have hown : (event :: events).filter (·.subject = some task) =
      event :: events.filter (·.subject = some task) :=
    List.filter_cons_of_pos (decide_eq_true hsubject)
  obtain ⟨hnot, left, closing, hlines, hclosing, hevents⟩ :
      ¬ended task ∧ ∃ left closing, produced task ++ left = lines task ∧
        closing.Ends task (lines task) ∧
        event :: events.filter (·.subject = some task) = left.map (.ofLine task) ++ [closing] := by
    rcases hremains task htask with ⟨_, _, hnil⟩ | hopen
    · rw [hown] at hnil
      exact absurd hnil (List.cons_ne_nil _ _)
    · rwa [hown] at hopen
  have hflushed : task ∉ flushed := fun hmem => hnot (h.past task hmem)
  have hrest : task ∈ rest := (List.mem_append.1 htask).resolve_left hflushed
  cases left with
  | nil =>
    -- the event ends the task
    obtain ⟨rfl, hnone⟩ := List.cons.inj hevents
    rw [List.append_nil] at hlines
    obtain ⟨flushed', rest', hsplit, hturn⟩ := h.onTaskFinished hnodup hrest
    have hstep : s.step event = s.onTaskFinished task := by
      rcases hclosing with rfl | ⟨hempty, rfl⟩
      · rfl
      · exact h.retireUnusedSlot hrest (hlines.trans hempty)
    refine ⟨flushed', rest', produced, _, hsplit, hstep ▸ hturn, fun t ht => ?_⟩
    by_cases he : t = task
    · rw [he]
      exact .inl ⟨.inr rfl, hlines, hnone⟩
    · have hor : (ended t ∨ t = task) = ended t := propext (or_iff_left he)
      rw [hor]
      exact (hremains t ht).of_cons hsubject he
  | cons line left =>
    obtain ⟨hevent, htail⟩ := List.cons.inj hevents
    have hstep : s.step event = s.onLine task line := by
      rw [hevent]
      cases line <;> rfl
    refine ⟨flushed, rest, _, ended, rfl, hstep ▸ h.onLine hrest hflushed line, fun t ht => ?_⟩
    by_cases he : t = task
    · rw [he, Function.update_self]
      exact .inr ⟨hnot, left, closing, by rw [List.append_assoc]; exact hlines, hclosing, htail⟩
    · rw [Function.update_of_ne he]
      exact (hremains t ht).of_cons hsubject he

/-- A run in which nothing remains leaves every task's output, in the order of the
tasks, and no slot. -/
theorem InTurn.run (h : InTurn flushed rest produced ended s) (hnodup : (flushed ++ rest).Nodup)
    (lines : τ → List KeepOrderLine) (events : List (KeepOrderEvent τ))
    (hsubject : ∀ event ∈ events, ∃ t ∈ flushed ++ rest, event.subject = some t)
    (hremains : ∀ t ∈ flushed ++ rest, Remains (lines t) (produced t) (ended t) t events) :
    (s.run events).printed = (flushed ++ rest).flatMap lines ∧
      (s.run events).buffers.entries = [] := by
  induction events generalizing s flushed rest produced ended with
  | nil =>
    have hall : ∀ t ∈ flushed ++ rest, ended t ∧ produced t = lines t := by
      intro t ht
      rcases hremains t ht with hclosed | ⟨_, left, closing, _, _, hnil⟩
      · exact ⟨hclosed.1, hclosed.2.1⟩
      · exact absurd hnil.symm (List.append_ne_nil_of_right_ne_nil _ (List.cons_ne_nil _ _))
    have hrest : rest = [] := by
      cases rest with
      | nil => rfl
      | cons t rest =>
        exact absurd (hall t (List.mem_append_right _ (List.mem_cons_self ..))).1 (h.front t rfl)
    subst hrest
    have hactive : s.active = none := by
      cases hs : s.active with
      | none => rfl
      | some t => exact absurd (h.live t hs).1.symm (Option.some_ne_none t)
    constructor
    · show s.printed = _
      rw [h.printed, hactive]
      exact List.flatMap_congr fun t ht => (hall t ht).2
    · exact h.slots
  | cons event events ih =>
    obtain ⟨task, htask, hevent⟩ := hsubject event (List.mem_cons_self ..)
    obtain ⟨flushed', rest', produced', ended', hsplit, hturn, hleft⟩ :=
      h.step hnodup lines hevent htask hremains
    rw [← hsplit] at hnodup hleft hsubject ⊢
    exact ih hturn hnodup (fun e he => hsubject e (List.mem_cons_of_mem _ he)) hleft

/-- The slots that registering some tasks leaves. -/
theorem inTurn_init {tasks : List τ} (htasks : tasks.Nodup) :
    InTurn [] tasks (fun _ => []) (fun _ => False) (new.run (tasks.map .initTask)) := by
  -- the slots so far, and the tasks to come
  have hinit : ∀ (todo seen : List τ) (s : KeepOrderState τ), (seen ++ todo).Nodup →
      InTurn [] seen (fun _ => []) (fun _ => False) s → s.active = none → s.finished = [] →
      InTurn [] (seen ++ todo) (fun _ => []) (fun _ => False) (s.run (todo.map .initTask)) := by
    intro todo
    induction todo with
    | nil =>
      intro seen s _ hs _ _
      rw [List.append_nil]
      exact hs
    | cons t todo ih =>
      intro seen s hnodup hs hactive hfinished
      have hslots : s.buffers.entries = seen.map (·, []) := by
        rw [hs.slots]
        exact List.map_congr_left fun t' _ => Prod.ext rfl (ite_self [])
      have hnew : t ∉ s.buffers.entries.map Prod.fst := by
        rw [hslots, List.map_map]
        intro hmem
        obtain ⟨t', ht', heq⟩ := List.mem_map.1 hmem
        exact List.disjoint_of_nodup_append hnodup (heq ▸ ht') (List.mem_cons_self ..)
      have hbuffered : s.buffered t = [] := by
        rw [buffered]
        cases hget : s.buffers.get t with
        | none => rfl
        | some lines => exact absurd (s.buffers.mem_keys.2 ⟨lines, hget⟩) hnew
      rw [List.append_cons] at hnodup ⊢
      refine ih (seen ++ [t]) (s.initTask t) hnodup ?_ hactive hfinished
      constructor
      · exact hs.done
      · show IndexMap.insertEntry t (s.buffered t) s.buffers.entries = _
        rw [IndexMap.insertEntry_of_notMem hnew, hbuffered, hslots, List.map_append]
        refine congr (congrArg _ ?_) ?_
        · exact List.map_congr_left fun t' _ => Prod.ext rfl (ite_self []).symm
        · exact congrArg (fun lines => [(t, lines)]) (ite_self []).symm
      · intro t' ht'
        exact absurd (ht'.symm.trans hactive) (Option.some_ne_none t')
      · show s.printed = _
        rw [hs.printed]
        rfl
      · intro t' _
        show t' ∈ s.finished ↔ False
        rw [hfinished]
        exact iff_false_intro List.not_mem_nil
      · exact nofun
      · exact fun _ _ => id
  refine hinit tasks [] new htasks ?_ rfl rfl
  exact ⟨rfl, rfl, nofun, rfl, nofun, nofun, nofun⟩

/-- **Keep-order output does not depend on scheduling.**  Tasks are registered in
an order; then, in any interleaving, each prints its lines in order and ends.  What
is printed is the output of the first task, then of the second, and so on, and no
slot is left. -/
theorem run_prints_in_turn {tasks : List τ} (htasks : tasks.Nodup) (lines : τ → List KeepOrderLine)
    {events : List (KeepOrderEvent τ)}
    (hsubject : ∀ event ∈ events, ∃ t ∈ tasks, event.subject = some t)
    (hevents : ∀ t ∈ tasks, ∃ closing : KeepOrderEvent τ, closing.Ends t (lines t) ∧
      events.filter (·.subject = some t) = (lines t).map (.ofLine t) ++ [closing]) :
    (new.run (tasks.map .initTask ++ events)).printed = tasks.flatMap lines ∧
      (new.run (tasks.map .initTask ++ events)).buffers.entries = [] := by
  rw [run, List.foldl_append]
  refine (inTurn_init htasks).run htasks lines events hsubject fun t ht => ?_
  obtain ⟨closing, hclosing, hfilter⟩ := hevents t ht
  exact .inr ⟨id, lines t, closing, rfl, hclosing, hfilter⟩

/-- Three tasks, the last of which prints first and the second of which is abandoned. -/
theorem run_prints_in_turn_three :
    (new.run ([0, 1, 2].map .initTask ++ [.stdout 2 "c" "1", .retireUnusedSlot 1,
      .stderr 0 "a" "1", .stderr 2 "c" "2", .taskFinished 2, .stdout 0 "a" "2",
      .taskFinished 0])).printed =
      [KeepOrderLine.stderr "a" "1", .stdout "a" "2", .stdout "c" "1", .stderr "c" "2"] ∧
      (new.run ([0, 1, 2].map .initTask ++ [.stdout 2 "c" "1", .retireUnusedSlot 1,
        .stderr 0 "a" "1", .stderr 2 "c" "2", .taskFinished 2, .stdout 0 "a" "2",
        .taskFinished 0])).buffers.entries = [] := by
  refine run_prints_in_turn (by decide) (fun t : ℕ => if t = 0 then
    [.stderr "a" "1", .stdout "a" "2"] else if t = 1 then [] else
    [.stdout "c" "1", .stderr "c" "2"]) (by decide) fun t ht => ?_
  simp only [List.mem_cons, List.not_mem_nil, or_false] at ht
  rcases ht with rfl | rfl | rfl
  · exact ⟨.taskFinished 0, .inl rfl, rfl⟩
  · exact ⟨.retireUnusedSlot 1, .inr ⟨rfl, rfl⟩, rfl⟩
  · exact ⟨.taskFinished 2, .inl rfl, rfl⟩

end KeepOrderState

end Mise
