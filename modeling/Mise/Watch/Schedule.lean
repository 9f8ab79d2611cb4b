/-
# The autosave schedule

`crates/mise-system/src/history/watch/schedule.rs`: every path that changed is saved
once it was quiet for its settle time, or once its interval passed since the first of
the changes that are not saved.  Churn stretches the interval, quiet resets it.

Every operation acts path by path (`get_step`), so what holds of a schedule is read off
what holds of one path.  A `Duration` is a number of nanoseconds, an `Instant` an integer.
-/

import Mise.Lib.BTreeMap

namespace Mise.Watch

open Lib

/-- `Duration::from_secs`. -/
def fromSecs (secs : ℕ) : ℕ := secs * 1000000000

/-- `Duration::as_secs`. -/
def asSecs (duration : ℕ) : ℕ := duration / 1000000000

/-- `Instant::saturating_duration_since`. -/
def durationSince (now earlier : ℤ) : ℕ := (now - earlier).toNat

/-- `CHURN_CHANGES`. -/
def churnChanges : ℕ := 2

/-- `RESET_FACTOR`. -/
def resetFactor : ℕ := 4

/-- `RESET_MIN`. -/
def resetMin : ℕ := fromSecs (5 * 60)

/-- `SETTLE_DIVISOR`. -/
def settleDivisor : ℕ := 8

/-- `SETTLE_MAX`. -/
def settleMax : ℕ := fromSecs (5 * 60)

/-- `Limits`. -/
structure Limits where
  base : ℕ
  max : ℕ
  deriving DecidableEq

/-- The longest interval under the limits. -/
def Limits.top (limits : Limits) : ℕ := Max.max limits.max limits.base

/-- `Limits::clamp`. -/
def Limits.clamp (limits : Limits) (interval : ℕ) : ℕ :=
  min (Max.max interval limits.base) limits.top

/-- `PathSchedule`. -/
structure PathSchedule where
  interval : ℕ
  lastChange : Option ℤ := none
  lastSeen : Option ℤ := none
  pendingSince : Option ℤ := none
  changes : ℕ := 0
  lastSaved : Option ℤ := none
  deriving DecidableEq

namespace PathSchedule

/-- `PathSchedule::pending`. -/
def pending (p : PathSchedule) : Bool := p.lastChange.isSome

/-- `PathSchedule::settle`. -/
def settle (p : PathSchedule) (limits : Limits) : ℕ :=
  min (Max.max (p.interval / settleDivisor) limits.base) (Max.max settleMax limits.base)

/-- `PathSchedule::due`. -/
def due (p : PathSchedule) (limits : Limits) : Option ℤ :=
  p.lastChange.map fun (last : ℤ) =>
    let quiet := last + p.settle limits
    let periodic := p.pendingSince.getD last + p.interval
    min quiet periodic

/-- `PathSchedule::reset_after`. -/
def resetAfter (p : PathSchedule) : ℕ := Max.max (p.interval * resetFactor) resetMin

/-- A change was seen: the part of `note` for one path. -/
def note (p : PathSchedule) (limits : Limits) (now : ℤ) : PathSchedule :=
  let quiet := p.lastChange.isNone &&
    p.lastSaved.any fun saved => p.resetAfter ≤ durationSince now saved
  { p with
    interval := if quiet then limits.base else p.interval
    pendingSince := some (p.pendingSince.getD now)
    lastChange := some now
    lastSeen := some now
    changes := (p.changes + 1) % 2 ^ 32 }

/-- A change may have happened: the part of `mark_pending` for one path. -/
def markPending (p : PathSchedule) (now : ℤ) : PathSchedule :=
  { p with pendingSince := some (p.pendingSince.getD now), lastChange := some now }

/-- What is pending is saved. -/
def settled (p : PathSchedule) (now : ℤ) : PathSchedule :=
  { p with lastSaved := some now, lastChange := none, pendingSince := none, changes := 0 }

/-- The save follows another one closely, with several changes in between. -/
def churn (p : PathSchedule) (limits : Limits) : Bool :=
  match p.lastSaved, p.pendingSince with
  | some previous, some since =>
    durationSince since previous ≤ p.settle limits && churnChanges ≤ p.changes
  | _, _ => false

/-- The save comes after a quiet period. -/
def reset (p : PathSchedule) (limits : Limits) (now : ℤ) : Bool :=
  (p.lastSaved.any fun previous => p.resetAfter ≤ durationSince now previous) &&
    limits.base < p.interval

/-- The interval of the path from a save on: the part of `saved` for one path. -/
def adapt (p : PathSchedule) (limits : Limits) (now : ℤ) : ℕ :=
  if p.churn limits ∧ p.interval < limits.max then limits.clamp (p.interval * 2)
  else if p.reset limits now then limits.base
  else p.interval

/-- The condition of `prune`. -/
def isKept (p : PathSchedule) (now : ℤ) : Bool :=
  p.pending || p.lastSaved.any fun saved => durationSince now saved < p.resetAfter

end PathSchedule

/-- `PersistedPath`. -/
structure PersistedPath where
  intervalSecs : ℕ := 0
  savedEpochSecs : Option ℕ := none
  pendingChanges : ℕ := 0
  pendingSinceEpochSecs : Option ℕ := none
  lastChangeEpochSecs : Option ℕ := none
  lastSeenEpochSecs : Option ℕ := none
  deriving DecidableEq

/-- `PersistedSchedule`. -/
abbrev PersistedSchedule := BTreeMap String PersistedPath

/-- `Schedule`; a path is its text. -/
structure Schedule where
  limits : Limits
  paths : BTreeMap String PathSchedule := ∅

/-- The instant of a wall clock second, `ago` of `restore`. -/
def ago (now : ℤ) (nowEpoch epoch : ℕ) : ℤ := now - fromSecs (nowEpoch - epoch)

/-- The second of an instant on the wall clock, `epoch` of `persist`. -/
def epochOf (now : ℤ) (nowEpoch : ℕ) (instant : ℤ) : ℕ :=
  nowEpoch - asSecs (durationSince now instant)

/-- The record was saved longer ago than the reset period of the interval. -/
def PersistedPath.isQuiet (record : PersistedPath) (interval : ℕ) (nowEpoch : ℕ) : Bool :=
  record.savedEpochSecs.any fun saved =>
    ({ interval } : PathSchedule).resetAfter ≤ fromSecs (nowEpoch - saved)

/-- The record has a change that is not saved. -/
def PersistedPath.pending (record : PersistedPath) : Bool :=
  decide (0 < record.pendingChanges) || record.lastChangeEpochSecs.isSome

/-- The body of the loop of `restore`. -/
def PersistedPath.restore (record : PersistedPath) (limits : Limits) (now : ℤ)
    (nowEpoch : ℕ) : Option PathSchedule :=
  let interval := limits.clamp (fromSecs record.intervalSecs)
  if interval ≤ limits.base then none
  else if record.isQuiet interval nowEpoch then none
  else
    let schedule : PathSchedule :=
      { interval
        lastSaved := record.savedEpochSecs.map (ago now nowEpoch)
        lastSeen := (record.lastSeenEpochSecs.or record.lastChangeEpochSecs).map (ago now nowEpoch) }
    some <|
      if record.pending then
        { schedule with
          changes := record.pendingChanges
          pendingSince := some ((record.pendingSinceEpochSecs.map (ago now nowEpoch)).getD now)
          lastChange := some ((record.lastChangeEpochSecs.map (ago now nowEpoch)).getD now) }
      else schedule

/-- What is written down of a path. -/
def PathSchedule.record (p : PathSchedule) (now : ℤ) (nowEpoch : ℕ) : PersistedPath where
  intervalSecs := asSecs p.interval
  savedEpochSecs := p.lastSaved.map (epochOf now nowEpoch)
  pendingChanges := p.changes
  pendingSinceEpochSecs := p.pendingSince.map (epochOf now nowEpoch)
  lastChangeEpochSecs := p.lastChange.map (epochOf now nowEpoch)
  lastSeenEpochSecs := p.lastSeen.map (epochOf now nowEpoch)

namespace Schedule

/-- `Schedule::new`. -/
def new (limits : Limits) : Schedule := { limits }

/-- `entry(path).or_insert_with(PathSchedule::new)`. -/
def entry (s : Schedule) (path : String) : PathSchedule :=
  s.paths[path]?.getD { interval := s.limits.base }

/-- `note`. -/
def note (s : Schedule) (path : String) (now : ℤ) : Schedule :=
  { s with paths := s.paths.insert path ((s.entry path).note s.limits now) }

/-- `mark_pending`. -/
def markPending (s : Schedule) (path : String) (now : ℤ) : Schedule :=
  { s with paths := s.paths.insert path ((s.entry path).markPending now) }

/-- `saved`, without the adjustment it reports. -/
def saved (s : Schedule) (path : String) (now : ℤ) : Schedule :=
  match s.paths[path]? with
  | none => s
  | some p =>
    { s with paths := s.paths.insert path { p.settled now with interval := p.adapt s.limits now } }

/-- `clear_pending`. -/
def clearPending (s : Schedule) (now : ℤ) : Schedule :=
  { s with paths := s.paths.map fun _ p => if p.pending then p.settled now else p }

/-- `prune`. -/
def prune (s : Schedule) (now : ℤ) : Schedule :=
  { s with paths := s.paths.filter fun _ p => p.isKept now }

/-- `retain`. -/
def retain (s : Schedule) (keep : String → Bool) : Schedule :=
  { s with paths := s.paths.filter fun path _ => keep path }

/-- `set_limits`. -/
def setLimits (s : Schedule) (limits : Limits) : Schedule where
  limits := limits
  paths := s.paths.map fun _ p => { p with interval := limits.clamp p.interval }

/-- `restore`. -/
def restore (s : Schedule) (persisted : PersistedSchedule) (now : ℤ) (nowEpoch : ℕ) :
    Schedule :=
  { s with
    paths := persisted.foldl
      (fun paths path record =>
        match record.restore s.limits now nowEpoch with
        | none => paths
        | some p => paths.insert path p)
      s.paths }

/-- `deadline`. -/
def deadline (s : Schedule) : Option ℤ :=
  (s.paths.toList.filterMap fun e => e.2.due s.limits).min?

/-- `due_paths`. -/
def duePaths (s : Schedule) (now : ℤ) : List String :=
  (s.paths.toList.filter fun e => (e.2.due s.limits).any (· ≤ now)).map Prod.fst

/-- `held_paths`. -/
def heldPaths (s : Schedule) (now : ℤ) : List String :=
  (s.paths.toList.filter fun e => (e.2.due s.limits).any (now < ·)).map Prod.fst

/-- The path has a change that is not saved. -/
def pending (s : Schedule) (path : String) : Bool := s.paths[path]?.any PathSchedule.pending

end Schedule

/-! ### Operations -/

/-- An operation on a schedule. -/
inductive Op where
  | note (path : String) (now : ℤ)
  | markPending (path : String) (now : ℤ)
  | saved (path : String) (now : ℤ)
  | clearPending (now : ℤ)
  | prune (now : ℤ)
  | retain (keep : String → Bool)
  | setLimits (limits : Limits)
  | restore (persisted : PersistedSchedule) (now : ℤ) (nowEpoch : ℕ)

/-- One operation. -/
def Schedule.step (s : Schedule) : Op → Schedule
  | .note path now => s.note path now
  | .markPending path now => s.markPending path now
  | .saved path now => s.saved path now
  | .clearPending now => s.clearPending now
  | .prune now => s.prune now
  | .retain keep => s.retain keep
  | .setLimits limits => s.setLimits limits
  | .restore persisted now nowEpoch => s.restore persisted now nowEpoch

/-- A run from a new schedule. -/
def Schedule.run (limits : Limits) (ops : List Op) : Schedule :=
  ops.foldl Schedule.step (.new limits)

/-- What an operation does at one path. -/
def Op.onPath (limits : Limits) (path : String) (old : Option PathSchedule) :
    Op → Option PathSchedule
  | .note path' now =>
    if path' = path then some ((old.getD { interval := limits.base }).note limits now) else old
  | .markPending path' now =>
    if path' = path then some ((old.getD { interval := limits.base }).markPending now) else old
  | .saved path' now =>
    if path' = path then
      old.map fun p => { p.settled now with interval := p.adapt limits now }
    else old
  | .clearPending now => old.map fun p => if p.pending then p.settled now else p
  | .prune now => old.filter (·.isKept now)
  | .retain keep => old.filter fun _ => keep path
  | .setLimits limits => old.map fun p => { p with interval := limits.clamp p.interval }
  | .restore persisted now nowEpoch =>
    (persisted[path]?.bind fun record => record.restore limits now nowEpoch).or old

/-- The limits after an operation. -/
def Op.limits (limits : Limits) : Op → Limits
  | .setLimits limits => limits
  | _ => limits

theorem limits_step (s : Schedule) (op : Op) : (s.step op).limits = op.limits s.limits := by
  cases op with
  | saved path now =>
    rw [Schedule.step, Schedule.saved]
    split <;> rfl
  | _ => rfl

/-- **Every operation acts path by path.** -/
theorem get_step (s : Schedule) (op : Op) (path : String) :
    (s.step op).paths[path]? = op.onPath s.limits path s.paths[path]? := by
  cases op with
  | note path' now =>
    rw [Schedule.step, Schedule.note, BTreeMap.get_insert, Schedule.entry, Op.onPath]
    split
    · case isTrue h => rw [h]
    · rfl
  | markPending path' now =>
    rw [Schedule.step, Schedule.markPending, BTreeMap.get_insert, Schedule.entry, Op.onPath]
    split
    · case isTrue h => rw [h]
    · rfl
  | saved path' now =>
    rw [Schedule.step, Schedule.saved, Op.onPath]
    by_cases h : path' = path
    · subst h
      cases hp : s.paths[path']? with
      | none => simp [hp]
      | some p => simp
    · rw [if_neg h]
      cases hp : s.paths[path']? with
      | none => rfl
      | some p => exact (BTreeMap.get_insert ..).trans (if_neg h)
  | clearPending now => exact Std.ExtTreeMap.getElem?_map
  | prune now => exact Std.ExtTreeMap.getElem?_filter'
  | retain keep =>
    rw [Schedule.step, Schedule.retain, Op.onPath]
    exact Std.ExtTreeMap.getElem?_filter'
  | setLimits limits => exact Std.ExtTreeMap.getElem?_map
  | restore persisted now nowEpoch =>
    rw [Schedule.step, Schedule.restore, Op.onPath]
    rw [BTreeMap.get_foldl (fun (paths : BTreeMap String PathSchedule) path => paths[path]?) _
      (fun _ (record : PersistedPath) old => (record.restore s.limits now nowEpoch).or old)
      (fun paths a record k => ?_) persisted s.paths path]
    · cases persisted[path]? with
      | none => rw [Option.elim_none, Option.bind_none, Option.none_or]
      | some record => rw [Option.elim_some, Option.bind_some]
    · generalize record.restore s.limits now nowEpoch = restored
      cases restored with
      | none => simp
      | some p => exact BTreeMap.get_insert ..

/-! ### One path -/

/-- What holds of every path of a schedule. -/
structure PathSchedule.Valid (limits : Limits) (p : PathSchedule) : Prop where
  base_le : limits.base ≤ p.interval
  le_top : p.interval ≤ limits.top
  /-- A batch has a beginning exactly while it is pending. -/
  batch : p.pendingSince.isSome = p.pending
  /-- Changes are counted only while they are pending. -/
  count : p.pending = false → p.changes = 0

theorem Limits.base_le_clamp (limits : Limits) (interval : ℕ) :
    limits.base ≤ limits.clamp interval := by
  rw [clamp, top]
  omega

theorem Limits.clamp_le_top (limits : Limits) (interval : ℕ) :
    limits.clamp interval ≤ limits.top := min_le_right _ _

theorem Limits.base_le_top (limits : Limits) : limits.base ≤ limits.top := le_max_right _ _

theorem PathSchedule.valid_new (limits : Limits) :
    ({ interval := limits.base } : PathSchedule).Valid limits :=
  ⟨le_rfl, limits.base_le_top, rfl, fun _ => rfl⟩

theorem PathSchedule.Valid.note {limits : Limits} {p : PathSchedule} (h : p.Valid limits)
    (now : ℤ) : (p.note limits now).Valid limits := by
  refine ⟨?_, ?_, rfl, fun hpending => nomatch hpending⟩
  · rw [PathSchedule.note]
    dsimp only
    split
    · exact le_rfl
    · exact h.base_le
  · rw [PathSchedule.note]
    dsimp only
    split
    · exact limits.base_le_top
    · exact h.le_top

theorem PathSchedule.Valid.markPending {limits : Limits} {p : PathSchedule} (h : p.Valid limits)
    (now : ℤ) : (p.markPending now).Valid limits :=
  ⟨h.base_le, h.le_top, rfl, fun hpending => (nomatch hpending)⟩

theorem PathSchedule.Valid.settled {limits : Limits} {p : PathSchedule} (h : p.Valid limits)
    (now : ℤ) : (p.settled now).Valid limits :=
  ⟨h.base_le, h.le_top, rfl, fun _ => rfl⟩

theorem PathSchedule.Valid.adapt {limits : Limits} {p : PathSchedule} (h : p.Valid limits)
    (now : ℤ) : limits.base ≤ p.adapt limits now ∧ p.adapt limits now ≤ limits.top := by
  rw [PathSchedule.adapt]
  split
  · exact ⟨limits.base_le_clamp _, limits.clamp_le_top _⟩
  · split
    · exact ⟨le_rfl, limits.base_le_top⟩
    · exact ⟨h.base_le, h.le_top⟩

theorem PersistedPath.valid_restore {record : PersistedPath} {limits : Limits} {now : ℤ}
    {nowEpoch : ℕ} {p : PathSchedule} (h : record.restore limits now nowEpoch = some p) :
    p.Valid limits ∧ p.pending = record.pending := by
  rw [PersistedPath.restore] at h
  dsimp only at h
  split at h
  · exact nomatch h
  split at h
  · exact nomatch h
  · obtain rfl := Option.some.inj h
    have hbase := limits.base_le_clamp (fromSecs record.intervalSecs)
    have htop := limits.clamp_le_top (fromSecs record.intervalSecs)
    split
    · case isTrue hpending =>
      rw [hpending]
      exact ⟨⟨hbase, htop, rfl, fun hnone => (nomatch hnone)⟩, rfl⟩
    · case isFalse hpending =>
      rw [Bool.not_eq_true] at hpending
      rw [hpending]
      exact ⟨⟨hbase, htop, rfl, fun _ => rfl⟩, rfl⟩

/-- **Every operation keeps a path valid.** -/
theorem PathSchedule.Valid.onPath {limits : Limits} {path : String} {old : Option PathSchedule}
    (hold : ∀ p, old = some p → p.Valid limits) (op : Op) {p : PathSchedule}
    (h : op.onPath limits path old = some p) : p.Valid (op.limits limits) := by
  have hentry : (old.getD { interval := limits.base }).Valid limits := by
    cases old with
    | none => exact valid_new limits
    | some p => exact hold p rfl
  cases op with
  | note path' now =>
    rw [Op.onPath] at h
    split at h
    · obtain rfl := Option.some.inj h
      exact hentry.note now
    · exact hold p h
  | markPending path' now =>
    rw [Op.onPath] at h
    split at h
    · obtain rfl := Option.some.inj h
      exact hentry.markPending now
    · exact hold p h
  | saved path' now =>
    rw [Op.onPath] at h
    split at h
    · obtain ⟨q, hq, rfl⟩ := Option.map_eq_some_iff.1 h
      have hvalid := hold q hq
      have hinterval := hvalid.adapt now
      exact ⟨hinterval.1, hinterval.2, (hvalid.settled now).batch, (hvalid.settled now).count⟩
    · exact hold p h
  | clearPending now =>
    obtain ⟨q, hq, rfl⟩ := Option.map_eq_some_iff.1 h
    split
    · exact (hold q hq).settled now
    · exact hold q hq
  | prune now => exact hold p (Option.filter_eq_some_iff.1 h).1
  | retain keep => exact hold p (Option.filter_eq_some_iff.1 h).1
  | setLimits limits' =>
    obtain ⟨q, hq, rfl⟩ := Option.map_eq_some_iff.1 h
    exact ⟨limits'.base_le_clamp _, limits'.clamp_le_top _, (hold q hq).batch, (hold q hq).count⟩
  | restore persisted now nowEpoch =>
    rcases Option.or_eq_some_iff.1 h with hnew | ⟨-, hsame⟩
    · obtain ⟨record, -, hrestore⟩ := Option.bind_eq_some_iff.1 hnew
      exact (PersistedPath.valid_restore hrestore).1
    · exact hold p hsame

/-- What holds of every schedule. -/
def Schedule.Valid (s : Schedule) : Prop :=
  ∀ (path : String) (p : PathSchedule), s.paths[path]? = some p → p.Valid s.limits

theorem Schedule.Valid.step {s : Schedule} (h : s.Valid) (op : Op) : (s.step op).Valid := by
  intro path p hp
  rw [get_step] at hp
  rw [limits_step]
  exact PathSchedule.Valid.onPath (h path) op hp

theorem Schedule.valid_run (limits : Limits) (ops : List Op) : (Schedule.run limits ops).Valid := by
  have hfrom : ∀ (s : Schedule), s.Valid → (ops.foldl Schedule.step s).Valid := by
    induction ops with
    | nil => exact fun s h => h
    | cons op ops ih => exact fun s h => ih (s.step op) (h.step op)
  refine hfrom (.new limits) fun path p hp => ?_
  rw [Schedule.new, Std.ExtTreeMap.getElem?_empty] at hp
  exact nomatch hp

/-! ### What is due -/

theorem PathSchedule.Valid.due {limits : Limits} {p : PathSchedule} (h : p.Valid limits)
    (hpending : p.pending = true) : ∃ last since, p.lastChange = some last ∧
      p.pendingSince = some since ∧
        p.due limits = some (min (last + p.settle limits) (since + p.interval)) := by
  obtain ⟨last, hlast⟩ := Option.isSome_iff_exists.1 hpending
  obtain ⟨since, hsince⟩ := Option.isSome_iff_exists.1 (h.batch.trans hpending)
  refine ⟨last, since, hlast, hsince, ?_⟩
  rw [PathSchedule.due, hlast, hsince]
  rfl

theorem isSome_due (p : PathSchedule) (limits : Limits) :
    (p.due limits).isSome = p.pending := Option.isSome_map

/-- A path is in a list of pending paths by what it is due. -/
theorem mem_filter_due {s : Schedule} {path : String} {f : ℤ → Bool} :
    path ∈ (s.paths.toList.filter fun e => (e.2.due s.limits).any f).map Prod.fst ↔
      ∃ p due, s.paths[path]? = some p ∧ p.due s.limits = some due ∧ f due = true := by
  constructor
  · intro h
    obtain ⟨⟨path', p⟩, hmem, rfl⟩ := List.mem_map.1 h
    obtain ⟨hmem, hdue⟩ := List.mem_filter.1 hmem
    obtain ⟨due, hdue, hf⟩ := Option.any_eq_true _ _ |>.1 hdue
    exact ⟨p, due, Std.ExtTreeMap.mem_toList_iff_getElem?_eq_some.1 hmem, hdue, hf⟩
  · rintro ⟨p, due, hp, hdue, hf⟩
    refine List.mem_map.2 ⟨(path, p), List.mem_filter.2 ⟨?_, ?_⟩, rfl⟩
    · exact Std.ExtTreeMap.mem_toList_iff_getElem?_eq_some.2 hp
    · rw [hdue]
      exact hf

theorem pending_iff {s : Schedule} {path : String} : s.pending path = true ↔
    ∃ p due, s.paths[path]? = some p ∧ p.due s.limits = some due := by
  rw [Schedule.pending, Option.any_eq_true]
  constructor
  · rintro ⟨p, hp, hpending⟩
    rw [← isSome_due p s.limits] at hpending
    obtain ⟨due, hdue⟩ := Option.isSome_iff_exists.1 hpending
    exact ⟨p, due, hp, hdue⟩
  · rintro ⟨p, due, hp, hdue⟩
    exact ⟨p, hp, by rw [← isSome_due p s.limits, hdue]; rfl⟩

theorem deadline_le_iff {s : Schedule} {now : ℤ} :
    (∃ due, s.deadline = some due ∧ due ≤ now) ↔ s.duePaths now ≠ [] := by
  have hmem : ∀ due, due ∈ (s.paths.toList.filterMap fun e => e.2.due s.limits) ↔
      ∃ (path : String) (p : PathSchedule), s.paths[path]? = some p ∧ p.due s.limits = some due := by
    intro due
    simp only [List.mem_filterMap, Prod.exists, Std.ExtTreeMap.mem_toList_iff_getElem?_eq_some]
  constructor
  · rintro ⟨due, hmin, hle⟩
    obtain ⟨path, p, hp, hdue⟩ := (hmem due).1 (List.min?_eq_some_iff.1 hmin).1
    exact List.ne_nil_of_mem (mem_filter_due.2 ⟨p, due, hp, hdue, decide_eq_true hle⟩)
  · intro hne
    obtain ⟨path, hpath⟩ := List.exists_mem_of_ne_nil _ hne
    obtain ⟨p, due, hp, hdue, hle⟩ := mem_filter_due.1 hpath
    have hin := (hmem due).2 ⟨path, p, hp, hdue⟩
    cases hmin : s.deadline with
    | none =>
      rw [Schedule.deadline, List.min?_eq_none_iff] at hmin
      rw [hmin] at hin
      exact absurd hin List.not_mem_nil
    | some first =>
      refine ⟨first, rfl, ?_⟩
      exact ((List.min?_eq_some_iff.1 hmin).2 due hin).trans (of_decide_eq_true hle)

/-! ### Runs -/

/-- **What holds of a schedule at every instant.** -/
structure Schedule.Sound (s : Schedule) : Prop where
  bounded : ∀ (path : String) (p : PathSchedule), s.paths[path]? = some p →
    s.limits.base ≤ p.interval ∧ p.interval ≤ Max.max s.limits.base s.limits.max
  cover : ∀ now path, s.pending path = true ↔ path ∈ s.duePaths now ∨ path ∈ s.heldPaths now
  disjoint : ∀ now path, ¬(path ∈ s.duePaths now ∧ path ∈ s.heldPaths now)
  prompt : ∀ (path : String) (p : PathSchedule), s.paths[path]? = some p → p.pending = true →
    ∃ due last since, p.due s.limits = some due ∧ p.lastChange = some last ∧
      p.pendingSince = some since ∧ due ≤ last + p.settle s.limits ∧ due ≤ since + p.interval
  deadline : ∀ now, (∃ due, s.deadline = some due ∧ due ≤ now) ↔ s.duePaths now ≠ []

theorem Schedule.Valid.sound {s : Schedule} (h : s.Valid) : s.Sound where
  bounded path p hp := ⟨(h path p hp).base_le, max_comm s.limits.max _ ▸ (h path p hp).le_top⟩
  cover now path := by
    rw [pending_iff, duePaths, heldPaths, mem_filter_due, mem_filter_due]
    constructor
    · rintro ⟨p, due, hp, hdue⟩
      rcases le_or_gt due now with hle | hlt
      · exact .inl ⟨p, due, hp, hdue, decide_eq_true hle⟩
      · exact .inr ⟨p, due, hp, hdue, decide_eq_true hlt⟩
    · rintro (⟨p, due, hp, hdue, -⟩ | ⟨p, due, hp, hdue, -⟩)
      · exact ⟨p, due, hp, hdue⟩
      · exact ⟨p, due, hp, hdue⟩
  disjoint now path := by
    rw [duePaths, heldPaths, mem_filter_due, mem_filter_due]
    rintro ⟨⟨p, due, hp, hdue, hle⟩, p', due', hp', hdue', hlt⟩
    obtain rfl := Option.some.inj (hp.symm.trans hp')
    obtain rfl := Option.some.inj (hdue.symm.trans hdue')
    exact absurd (of_decide_eq_true hlt) (not_lt.2 (of_decide_eq_true hle))
  prompt path p hp hpending := by
    obtain ⟨last, since, hlast, hsince, hdue⟩ := (h path p hp).due hpending
    exact ⟨_, last, since, hdue, hlast, hsince, min_le_left _ _, min_le_right _ _⟩
  deadline now := deadline_le_iff

/-- When the batch of a path began. -/
def Schedule.since (s : Schedule) (path : String) : Option ℤ := s.paths[path]?.bind (·.pendingSince)

/-- When a path last changed. -/
def Schedule.last (s : Schedule) (path : String) : Option ℤ := s.paths[path]?.bind (·.lastChange)

/-- What may end a pending change. -/
def Op.Saves (limits : Limits) (path : String) : Op → Prop
  | .saved path' _ => path' = path
  | .clearPending _ => True
  | .retain keep => keep path = false
  | .restore persisted now nowEpoch => ∃ record p, persisted[path]? = some record ∧
      record.restore limits now nowEpoch = some p ∧ record.pending = false
  | _ => False

/-- A change of the path at an instant. -/
def Op.Marks (path : String) (instant : ℤ) : Op → Prop
  | .note path' now => path' = path ∧ now = instant
  | .markPending path' now => path' = path ∧ now = instant
  | _ => False

/-- A restore that has the path. -/
def Op.Restores (path : String) : Op → Prop
  | .restore persisted _ _ => persisted[path]?.isSome
  | _ => False

/-- **A pending change stays pending**, unless the operation saves it. -/
theorem saves_of_step {s : Schedule} {op : Op} {path : String} (hpending : s.pending path = true)
    (hstep : (s.step op).pending path = false) : op.Saves s.limits path := by
  obtain ⟨p, hp, hpath⟩ := Option.any_eq_true _ _ |>.1 hpending
  rw [Schedule.pending, get_step, hp] at hstep
  have hkept : ¬(some p).any PathSchedule.pending = false := by
    rw [Option.any_some, hpath]
    exact Bool.noConfusion
  cases op with
  | note path' now =>
    rw [Op.onPath] at hstep
    split at hstep
    · exact nomatch hstep
    · exact absurd hstep hkept
  | markPending path' now =>
    rw [Op.onPath] at hstep
    split at hstep
    · exact nomatch hstep
    · exact absurd hstep hkept
  | saved path' now =>
    rw [Op.onPath] at hstep
    split at hstep
    · assumption
    · exact absurd hstep hkept
  | clearPending now => trivial
  | prune now =>
    rw [Op.onPath, Option.filter_some, if_pos (by rw [PathSchedule.isKept, hpath]; rfl)] at hstep
    exact absurd hstep hkept
  | retain keep =>
    rw [Op.onPath, Option.filter_some] at hstep
    split at hstep
    · exact absurd hstep hkept
    · case isFalse h => exact Bool.eq_false_iff.2 h
  | setLimits limits =>
    rw [Op.onPath, Option.map_some, Option.any_some] at hstep
    exact absurd (hpath.symm.trans hstep) Bool.noConfusion
  | restore persisted now nowEpoch =>
    rw [Op.onPath] at hstep
    cases hrecord : persisted[path]? with
    | none =>
      rw [hrecord, Option.bind_none, Option.none_or] at hstep
      exact absurd hstep hkept
    | some record =>
      rw [hrecord, Option.bind_some] at hstep
      cases hrestore : record.restore s.limits now nowEpoch with
      | none =>
        rw [hrestore, Option.none_or] at hstep
        exact absurd hstep hkept
      | some q =>
        rw [hrestore, Option.some_or, Option.any_some] at hstep
        exact ⟨record, q, hrecord, hrestore,
          (PersistedPath.valid_restore hrestore).2.symm.trans hstep⟩

/-- An instant of a path that a save clears and limits do not touch is set by a change of the path,
or by a restore. -/
theorem field_step {s : Schedule} {field : PathSchedule → Option ℤ}
    (hinterval : ∀ (p : PathSchedule) interval, field { p with interval } = field p)
    (hsettled : ∀ (p : PathSchedule) now, field (p.settled now) = none) {op : Op} {path : String} {t : ℤ}
    (h : (s.step op).paths[path]?.bind field = some t) :
    s.paths[path]?.bind field = some t ∨
      (∃ now, op.Marks path now ∧ (field ((s.entry path).note s.limits now) = some t ∨
        field ((s.entry path).markPending now) = some t)) ∨ op.Restores path := by
  rw [get_step] at h
  cases op with
  | note path' now =>
    rw [Op.onPath] at h
    split at h
    · case isTrue hpath => exact .inr (.inl ⟨now, ⟨hpath, rfl⟩, .inl h⟩)
    · exact .inl h
  | markPending path' now =>
    rw [Op.onPath] at h
    split at h
    · case isTrue hpath => exact .inr (.inl ⟨now, ⟨hpath, rfl⟩, .inr h⟩)
    · exact .inl h
  | saved path' now =>
    rw [Op.onPath] at h
    split at h
    · obtain ⟨p, hp, hsome⟩ := Option.bind_eq_some_iff.1 h
      obtain ⟨q, -, rfl⟩ := Option.map_eq_some_iff.1 hp
      rw [hinterval, hsettled] at hsome
      exact nomatch hsome
    · exact .inl h
  | clearPending now =>
    obtain ⟨p, hp, hsome⟩ := Option.bind_eq_some_iff.1 h
    obtain ⟨q, hq, rfl⟩ := Option.map_eq_some_iff.1 hp
    split at hsome
    · rw [hsettled] at hsome
      exact nomatch hsome
    · exact .inl (Option.bind_eq_some_iff.2 ⟨q, hq, hsome⟩)
  | prune now =>
    obtain ⟨p, hp, hsome⟩ := Option.bind_eq_some_iff.1 h
    exact .inl (Option.bind_eq_some_iff.2 ⟨p, (Option.filter_eq_some_iff.1 hp).1, hsome⟩)
  | retain keep =>
    obtain ⟨p, hp, hsome⟩ := Option.bind_eq_some_iff.1 h
    exact .inl (Option.bind_eq_some_iff.2 ⟨p, (Option.filter_eq_some_iff.1 hp).1, hsome⟩)
  | setLimits limits =>
    obtain ⟨p, hp, hsome⟩ := Option.bind_eq_some_iff.1 h
    obtain ⟨q, hq, rfl⟩ := Option.map_eq_some_iff.1 hp
    exact .inl (Option.bind_eq_some_iff.2 ⟨q, hq, (hinterval q _).symm.trans hsome⟩)
  | restore persisted now nowEpoch =>
    cases hrecord : persisted[path]? with
    | none =>
      rw [Op.onPath, hrecord, Option.bind_none, Option.none_or] at h
      exact .inl h
    | some record => exact .inr (.inr (by rw [Op.Restores, hrecord]; rfl))

/-- A batch begins with the first change after a save. -/
theorem since_step {s : Schedule} (h : s.Valid) {op : Op} {path : String} {t : ℤ}
    (hsince : (s.step op).since path = some t) : s.since path = some t ∨
      s.pending path = false ∧ op.Marks path t ∨ op.Restores path := by
  rcases field_step (fun _ _ => rfl) (fun _ _ => rfl) hsince with
    hsame | ⟨now, hmarks, hbegin⟩ | hrestores
  · exact .inl hsame
  · have hnow : (s.entry path).pendingSince.getD now = t :=
      hbegin.elim Option.some.inj Option.some.inj
    rw [Schedule.entry] at hnow
    rw [Schedule.since, Schedule.pending]
    cases hp : s.paths[path]? with
    | none =>
      rw [hp] at hnow
      exact .inr (.inl ⟨rfl, (show now = t from hnow) ▸ hmarks⟩)
    | some p =>
      rw [hp, Option.getD_some] at hnow
      rw [Option.bind_some, Option.any_some, ← (h path p hp).batch]
      cases hbatch : p.pendingSince with
      | none =>
        rw [hbatch] at hnow
        exact .inr (.inl ⟨rfl, (show now = t from hnow) ▸ hmarks⟩)
      | some since =>
        rw [hbatch] at hnow
        exact .inl (congrArg some hnow)
  · exact .inr (.inr hrestores)

/-- The last change of a path is the last one there was. -/
theorem last_step {s : Schedule} {op : Op} {path : String} {t : ℤ}
    (hlast : (s.step op).last path = some t) :
    s.last path = some t ∨ op.Marks path t ∨ op.Restores path := by
  rcases field_step (fun _ _ => rfl) (fun _ _ => rfl) hlast with
    hsame | ⟨now, hmarks, hchange⟩ | hrestores
  · exact .inl hsame
  · have hnow : now = t := hchange.elim Option.some.inj Option.some.inj
    exact .inr (.inl (hnow ▸ hmarks))
  · exact .inr (.inr hrestores)

/-- **The schedule in every run**: it is sound, a pending change ends only by what saves it, and
the batch and the last change of a path are where the changes were. -/
theorem schedule_sound (limits : Limits) (ops : List Op) :
    (Schedule.run limits ops).Sound ∧ ∀ op path,
      ((Schedule.run limits ops).pending path = true →
        ((Schedule.run limits ops).step op).pending path = false →
          op.Saves (Schedule.run limits ops).limits path) ∧
      (∀ t, ((Schedule.run limits ops).step op).since path = some t →
        (Schedule.run limits ops).since path = some t ∨
          (Schedule.run limits ops).pending path = false ∧ op.Marks path t ∨ op.Restores path) ∧
      ∀ t, ((Schedule.run limits ops).step op).last path = some t →
        (Schedule.run limits ops).last path = some t ∨ op.Marks path t ∨ op.Restores path := by
  have hvalid := Schedule.valid_run limits ops
  exact ⟨hvalid.sound, fun op path => ⟨saves_of_step, fun t => since_step hvalid,
    fun t => last_step⟩⟩

/-- A record of a stretched path without a pending change. -/
def idleRecord : PersistedSchedule :=
  (∅ : PersistedSchedule).insert "a" { intervalSecs := 16, savedEpochSecs := some 100 }

/-- A restore over a path forgets its pending change. -/
theorem restore_forgets :
    (Schedule.run ⟨fromSecs 2, fromSecs 3600⟩ [.note "a" 0]).pending "a" = true ∧
      ((Schedule.run ⟨fromSecs 2, fromSecs 3600⟩ [.note "a" 0]).step
        (.restore idleRecord 0 100)).pending "a" = false := by
  decide +kernel

end Mise.Watch
