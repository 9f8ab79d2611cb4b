/-
# The autosave schedule over a restart

`persist` writes the schedule down in whole seconds of the wall clock, `restore` places
it on the clock of the next run.  A stretched path with a pending change comes back
where its interval is a whole number of seconds and its last save is more recent than
the reset period; the rounding moves its due time by less than two seconds.
-/

import Mise.Watch.Schedule

namespace Mise.Watch

open Lib

/-- The second of the wall clock at an instant. -/
def epochAt (wall now : ℤ) : ℕ := ((wall + now) / 1000000000).toNat

/-- The instant of an operation. -/
def Op.instant : Op → Option ℤ
  | .note _ now => some now
  | .markPending _ now => some now
  | .saved _ now => some now
  | .clearPending now => some now
  | .prune now => some now
  | .retain _ => none
  | .setLimits _ => none
  | .restore _ now _ => some now

/-- The operation is not later than `now`, and its wall clock is the run's. -/
structure Op.Before (wall now : ℤ) (op : Op) : Prop where
  le : ∀ t ∈ op.instant, t ≤ now ∧ 0 ≤ wall + t
  clock : ∀ persisted t nowEpoch, op = .restore persisted t nowEpoch → nowEpoch = epochAt wall t

/-- The whole seconds from an instant to a restart. -/
def quietSecs (wall now later instant : ℤ) : ℕ :=
  epochAt wall later - epochOf now (epochAt wall now) instant

/-- The interval cut to whole seconds. -/
def PathSchedule.wholeInterval (p : PathSchedule) : ℕ := fromSecs (asSecs p.interval)

/-- The path was saved less than the reset period of an interval before the restart. -/
def PathSchedule.SavedWithin (p : PathSchedule) (wall now later : ℤ) (interval : ℕ) : Prop :=
  ∀ saved ∈ p.lastSaved,
    fromSecs (quietSecs wall now later saved) < ({ interval } : PathSchedule).resetAfter

/-- The reset period of the path has passed. -/
def PathSchedule.ResetAt (p : PathSchedule) (later : ℤ) : Prop :=
  ∃ saved, p.lastSaved = some saved ∧ p.resetAfter ≤ durationSince later saved

/-- An instant that is on record is not in the future, nor before the wall clock's origin. -/
def Past (wall now : ℤ) (instant : Option ℤ) : Prop := ∀ t ∈ instant, t ≤ now ∧ 0 ≤ wall + t

/-- The instants of a path are on record. -/
structure PathSchedule.Past (wall now : ℤ) (p : PathSchedule) : Prop where
  lastChange : Watch.Past wall now p.lastChange
  pendingSince : Watch.Past wall now p.pendingSince
  lastSaved : Watch.Past wall now p.lastSaved

theorem past_some {wall now t : ℤ} (h : t ≤ now ∧ 0 ≤ wall + t) : Past wall now (some t) := by
  rintro _ ⟨⟩
  exact h

theorem past_none {wall now : ℤ} : Past wall now none := nofun

/-- What is restored lies in the past. -/
theorem past_ago {wall now t : ℤ} (h : t ≤ now ∧ 0 ≤ wall + t) (epoch : ℕ) :
    ago t (epochAt wall t) epoch ≤ now ∧ 0 ≤ wall + ago t (epochAt wall t) epoch := by
  simp only [ago, epochAt, fromSecs]
  omega

theorem PathSchedule.Past.entry {wall now : ℤ} {old : Option PathSchedule}
    (hold : ∀ p, old = some p → p.Past wall now) (base : ℕ) :
    (old.getD { interval := base }).Past wall now := by
  cases old with
  | none => exact ⟨past_none, past_none, past_none⟩
  | some p => exact hold p rfl

theorem PathSchedule.past_settled {wall now t : ℤ} (p : PathSchedule)
    (ht : t ≤ now ∧ 0 ≤ wall + t) : (p.settled t).Past wall now :=
  ⟨past_none, past_none, past_some ht⟩

theorem past_getD {wall now t : ℤ} {instant : Option ℤ} (h : Past wall now instant)
    (ht : t ≤ now ∧ 0 ≤ wall + t) : Past wall now (some (instant.getD t)) := by
  cases instant with
  | none => exact past_some ht
  | some since => exact h

theorem past_map_ago {wall now t : ℤ} (h : t ≤ now ∧ 0 ≤ wall + t) (epoch : Option ℕ) :
    Past wall now (epoch.map (ago t (epochAt wall t))) := by
  cases epoch with
  | none => exact past_none
  | some epoch => exact past_some (past_ago h epoch)

theorem PersistedPath.past_restore {wall now t : ℤ} (h : t ≤ now ∧ 0 ≤ wall + t) {limits : Limits}
    {record : PersistedPath} {p : PathSchedule}
    (hp : record.restore limits t (epochAt wall t) = some p) : p.Past wall now := by
  rw [PersistedPath.restore] at hp
  dsimp only at hp
  split at hp
  · cases hp
  split at hp
  · cases hp
  · obtain rfl := Option.some.inj hp
    split
    · exact ⟨past_getD (past_map_ago h _) h, past_getD (past_map_ago h _) h, past_map_ago h _⟩
    · exact ⟨past_none, past_none, past_map_ago h _⟩

/-- An operation keeps a path in the past. -/
theorem PathSchedule.Past.onPath {wall now : ℤ} {limits : Limits} {path : String}
    {old : Option PathSchedule} (hold : ∀ p, old = some p → p.Past wall now) {op : Op}
    (hop : op.Before wall now) {p : PathSchedule} (h : op.onPath limits path old = some p) :
    p.Past wall now := by
  cases op with
  | note path' t | markPending path' t =>
    have ht := hop.le t rfl
    have hentry := PathSchedule.Past.entry hold limits.base
    rw [Op.onPath] at h
    split at h
    · obtain rfl := Option.some.inj h
      exact ⟨past_some ht, past_getD hentry.pendingSince ht, hentry.lastSaved⟩
    · exact hold p h
  | saved path' t =>
    rw [Op.onPath] at h
    split at h
    · obtain ⟨q, hq, rfl⟩ := Option.map_eq_some_iff.1 h
      have hsettled := q.past_settled (hop.le t rfl)
      exact ⟨hsettled.lastChange, hsettled.pendingSince, hsettled.lastSaved⟩
    · exact hold p h
  | clearPending t =>
    obtain ⟨q, hq, rfl⟩ := Option.map_eq_some_iff.1 h
    split
    · exact q.past_settled (hop.le t rfl)
    · exact hold q hq
  | prune t => exact hold p (Option.filter_eq_some_iff.1 h).1
  | retain keep => exact hold p (Option.filter_eq_some_iff.1 h).1
  | setLimits limits' =>
    obtain ⟨q, hq, rfl⟩ := Option.map_eq_some_iff.1 h
    exact ⟨(hold q hq).lastChange, (hold q hq).pendingSince, (hold q hq).lastSaved⟩
  | restore persisted t nowEpoch =>
    obtain rfl := hop.clock persisted t nowEpoch rfl
    rcases Option.or_eq_some_iff.1 h with hnew | ⟨-, hsame⟩
    · obtain ⟨record, -, hrestore⟩ := Option.bind_eq_some_iff.1 hnew
      exact PersistedPath.past_restore (hop.le t rfl) hrestore
    · exact hold p hsame

/-- All of the schedule lies in the past. -/
def Schedule.Past (wall now : ℤ) (s : Schedule) : Prop :=
  ∀ (path : String) (p : PathSchedule), s.paths[path]? = some p → p.Past wall now

section Path

variable {s : Schedule} {path : String} {p : PathSchedule} {wall now later : ℤ}

end Path

/-- What a schedule has to satisfy to survive a restart: every stretched path with a pending change
has an interval of whole seconds, and was not saved longer ago than its reset period; every other
stretched path would come back, or is past its reset period. -/
structure Schedule.Ready (s : Schedule) (wall now later : ℤ) : Prop where
  pending : ∀ (path : String) (p : PathSchedule), s.paths[path]? = some p →
    s.limits.base < p.interval → p.pending = true →
      p.wholeInterval = p.interval ∧ p.SavedWithin wall now later p.interval
  idle : ∀ (path : String) (p : PathSchedule), s.paths[path]? = some p →
    s.limits.base < p.interval → p.pending = false →
      s.limits.base < p.wholeInterval ∧ p.SavedWithin wall now later p.wholeInterval ∨
        p.ResetAt later

end Mise.Watch
