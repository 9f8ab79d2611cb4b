/-
# A path from one synchronization to the next

One path over a whole run of `crates/mise-system/src/history/sync/reconcile.rs`: the
file is saved here, upstream changes, `reconcile` plans and publishes, and what it
planned to write here is written at once or later.  Whether a merge still waits to be
written is not on record; `reconcile` reads it off `reconciled` and `applied` being
different versions.
-/

import Mise.Sync.Reconcile

namespace Mise.Sync

open Lib

/-- One path: the version saved here, the one upstream, the record, and the applications that
were planned and not performed. -/
structure Site where
  saved : Option Object
  remote : Option Object
  record : SyncRecord := {}
  waiting : List (Option Object) := []
  deriving DecidableEq

/-- The files of a side that has at most this one. -/
def only (path : String) (version : Option Object) : BTreeMap String Object :=
  version.elim ∅ ((∅ : BTreeMap String Object).insert path ·)

/-- `reconcile`, for one path. -/
def Site.plans (repo : HistoryRepo) (path : String) (unsaved : Bool) (commit : Option String)
    (site : Site) : Except String (List PathPlan) :=
  reconcile repo (only path site.saved) { commit, files := only path site.remote }
    ((∅ : SyncState).insert path site.record)
    (if unsaved then (∅ : BTreeSet String).insert path else ∅)

/-- The publication of a plan: upstream has what was published, the record is the next one, and
what is to be written here waits. -/
def Site.follow (site : Site) (plan : PathPlan) : Site :=
  { site with
    remote := plan.publish.getD site.remote
    record := plan.next
    waiting := site.waiting ++ plan.apply.toList }

/-- The application of a version. -/
def Site.apply (site : Site) (version : Option Object) : Site :=
  { site with
    saved := version
    record := { site.record with acknowledged := version, applied := version }
    waiting := site.waiting.erase version }

/-- Everything a plan asks. -/
def Site.perform (site : Site) (plan : PathPlan) : Site :=
  plan.apply.elim (site.follow plan) (site.follow plan).apply

/-- What can happen to a path. -/
inductive Event where
  | save (version : Option Object)
  | upstream (version : Option Object)
  | reconcile (unsaved : Bool) (commit : Option String)
  | apply (version : Option Object)

/-- One event; none of them puts a nested repository at the path. -/
def Site.step (repo : HistoryRepo) (path : String) (site : Site) : Event → Option Site
  | .save version => if isGitlink version then none else some { site with saved := version }
  | .upstream version => if isGitlink version then none else some { site with remote := version }
  | .reconcile unsaved commit =>
    match site.plans repo path unsaved commit with
    | .ok plans => some (plans.foldl Site.follow site)
    | .error _ => none
  | .apply version => if version ∈ site.waiting then some (site.apply version) else none

/-- A run of events. -/
def Site.run (repo : HistoryRepo) (path : String) (site : Site) (events : List Event) :
    Option Site :=
  events.foldlM (Site.step repo path) site

/-! ### The table for one path -/

/-- The path is the marker's, which is not reconciled. -/
def isMarker (path : String) : Bool :=
  decide (path = markerPath) || startsWith path ".mise-history/"

theorem getElem_only (path : String) (version : Option Object) :
    (only path version)[path]? = version := by
  cases version with
  | none => simp [only]
  | some o => simp [only]

theorem keys_only {path k : String} {version : Option Object}
    (h : k ∈ (only path version).keys) : k = path := by
  rw [Std.ExtTreeMap.mem_keys] at h
  cases version with
  | none => exact absurd h Std.ExtTreeMap.not_mem_empty
  | some o =>
    rcases Std.ExtTreeMap.mem_insert.1 h with heq | hmem
    · exact (compare_eq_iff_eq.1 heq).symm
    · exact absurd hmem Std.ExtTreeMap.not_mem_empty

theorem mem_foldl_insert {ks : List String} {set : BTreeSet String} {k : String} :
    k ∈ ks.foldl (·.insert ·) set ↔ k ∈ set ∨ k ∈ ks := by
  induction ks generalizing set with
  | nil => simp
  | cons x xs ih =>
    rw [List.foldl_cons, ih, Std.ExtTreeSet.mem_insert, compare_eq_iff_eq, List.mem_cons, eq_comm]
    tauto

theorem eq_singleton_of_nodup {α : Type} {l : List α} {a : α} (hnodup : l.Nodup) (ha : a ∈ l)
    (h : ∀ b ∈ l, b = a) : l = [a] := by
  have hcount : l = List.replicate l.length a := List.eq_replicate_iff.2 ⟨rfl, h⟩
  have hlength : l.length ≤ 1 := by
    rw [hcount] at hnodup
    exact List.nodup_replicate.1 hnodup
  have hpos : 0 < l.length := List.length_pos_of_mem ha
  rw [hcount, show l.length = 1 by omega]
  rfl

/-- The plan of the path, before it is asked whether it says anything. -/
def Site.plan (repo : HistoryRepo) (path : String) (unsaved : Bool) (commit : Option String)
    (site : Site) : Except String (Option PathPlan) :=
  planPath repo (only path site.saved) { commit, files := only path site.remote }
    ((∅ : SyncState).insert path site.record)
    (if unsaved then (∅ : BTreeSet String).insert path else ∅) path

/-- Only the path itself is planned. -/
theorem plans_eq (repo : HistoryRepo) (path : String) (unsaved : Bool) (commit : Option String)
    (site : Site) : site.plans repo path unsaved commit =
      (site.plan repo path unsaved commit).map fun plan =>
        skipPointerApplications plan.toList (only path site.saved) := by
  have hkeys : (((only path site.saved).keys ++ (only path site.remote).keys ++
      ((∅ : SyncState).insert path site.record).keys).foldl (·.insert ·)
        (∅ : BTreeSet String)).toList = [path] := by
    refine eq_singleton_of_nodup ?_ ?_ fun k hk => ?_
    · exact Std.ExtTreeSet.distinct_toList.imp fun h => mt compare_eq_iff_eq.2 h
    · rw [Std.ExtTreeSet.mem_toList, mem_foldl_insert, List.mem_append, Std.ExtTreeMap.mem_keys]
      exact .inr (.inr Std.ExtTreeMap.mem_insert_self)
    · rw [Std.ExtTreeSet.mem_toList, mem_foldl_insert, List.mem_append, List.mem_append] at hk
      rcases hk with hk | (hk | hk) | hk
      · exact absurd hk Std.ExtTreeSet.not_mem_empty
      · exact keys_only hk
      · exact keys_only hk
      · rcases Std.ExtTreeMap.mem_insert.1 (Std.ExtTreeMap.mem_keys.1 hk) with heq | hmem
        · exact (compare_eq_iff_eq.1 heq).symm
        · exact absurd hmem Std.ExtTreeMap.not_mem_empty
  rw [Site.plans, reconcile]
  dsimp only
  rw [hkeys, planPaths, planPaths, ← Site.plan]
  cases site.plan repo path unsaved commit with
  | error e => rfl
  | ok plan => cases plan <;> rfl

section Table

variable {repo : HistoryRepo} {record : SyncRecord} {s t : Option Object} {unsaved : Bool}

/-- **The rows of the table**, for a saved version `s` and an upstream version `t` that are no
nested repositories. -/
inductive Row (repo : HistoryRepo) (record : SyncRecord) (s t : Option Object) (unsaved : Bool) :
    PathPlan → Prop
  /-- Both sides have the same version. -/
  | same {plan : PathPlan} (heq : s = t) (hpublish : plan.publish = none)
      (happly : plan.apply = none) (hconflict : plan.conflict = none)
      (hnext : plan.next = plan.next.settle s) : Row repo record s t unsaved plan
  /-- The saved version is published. -/
  | publish {plan : PathPlan} (hne : s ≠ t) (hlocal : s ≠ record.acknowledged)
      (hremote : t = record.reconciled ∧ record.reconciled = record.applied ∨
        merge repo record.acknowledged s t = .ok (.clean s))
      (hpublish : plan.publish = some s) (happly : plan.apply = none)
      (hconflict : plan.conflict = none) (hnext : plan.next = plan.next.settle s) :
      Row repo record s t unsaved plan
  /-- The upstream version is written here. -/
  | apply {plan : PathPlan} (hne : s ≠ t) (hlocal : s = record.acknowledged)
      (hremote : t ≠ record.reconciled ∨ record.reconciled ≠ record.applied)
      (hsaved : unsaved = true → t ≠ record.applied) (hpublish : plan.publish = none)
      (happly : plan.apply = some t) (hconflict : plan.conflict = none)
      (hacknowledged : plan.next.acknowledged = s) (hreconciled : plan.next.reconciled = t)
      (happlied : plan.next.applied = record.applied) : Row repo record s t unsaved plan
  /-- The merge is published and written here. -/
  | merged {plan : PathPlan} {x : Option Object} (hne : s ≠ t) (hlocal : s ≠ record.acknowledged)
      (hremote : t ≠ record.reconciled ∨ record.reconciled ≠ record.applied)
      (hmerge : merge repo record.acknowledged s t = .ok (.clean x)) (hx : x ≠ s)
      (hsaved : unsaved = false) (hpublish : plan.publish.getD t = x)
      (happly : plan.apply = some x) (hconflict : plan.conflict = none)
      (hacknowledged : plan.next.acknowledged = s) (hreconciled : plan.next.reconciled = x)
      (happlied : plan.next.applied = record.applied) : Row repo record s t unsaved plan
  /-- Something has to be decided. -/
  | conflict {plan : PathPlan} (hne : s ≠ t)
      (hremote : t ≠ record.reconciled ∨ record.reconciled ≠ record.applied)
      (hwhy : unsaved = true ∨ s ≠ record.acknowledged ∧
        ∃ kind, merge repo record.acknowledged s t = .ok (.conflict kind))
      (hpublish : plan.publish = none) (happly : plan.apply = none)
      (hconflict : plan.conflict.isSome) (hnext : plan.next.acknowledged = record.acknowledged ∧
        plan.next.reconciled = record.reconciled ∧ plan.next.applied = record.applied) :
      Row repo record s t unsaved plan
  /-- The two versions differ, and both are on record. -/
  | silent {plan : PathPlan} (hne : s ≠ t) (hlocal : s = record.acknowledged)
      (hremote : t = record.reconciled) (happlied : record.reconciled = record.applied)
      (hpublish : plan.publish = none) (happly : plan.apply = none)
      (hconflict : plan.conflict = none) (hnext : plan.next.acknowledged = record.acknowledged ∧
        plan.next.reconciled = record.reconciled ∧ plan.next.applied = record.applied) :
      Row repo record s t unsaved plan

/-- Two files without a common base are decided. -/
theorem merge_none {o o' : Object} (hne : o ≠ o') :
    ∃ kind, merge repo none (some o) (some o') = .ok (.conflict kind) := by
  have hdiff : ¬(o.2 = o'.2 ∧ o.1 = o'.1) := fun h => hne (Prod.ext h.2 h.1)
  simp only [merge, if_neg hdiff]
  split
  · exact ⟨_, rfl⟩
  · split
    · exact ⟨_, rfl⟩
    · exact ⟨_, rfl⟩

theorem row_planNew {plan : PathPlan} (h : Blank record plan) (hnew : record.isNew = true)
    (hne : s ≠ t) : Row repo record s t unsaved (planNew plan s t) := by
  have hfields : record.acknowledged = none ∧ record.reconciled = none ∧ record.applied = none := by
    simpa [SyncRecord.isNew, and_assoc] using hnew
  obtain ⟨ha, hu, hl⟩ := hfields
  match s, t with
  | some o, none =>
    exact .publish hne (by simp [ha]) (.inl ⟨hu.symm, hu.trans hl.symm⟩) rfl h.apply h.conflict rfl
  | none, some o =>
    exact .apply hne ha.symm (.inl (by simp [hu])) (fun _ => by simp [hl]) h.publish rfl h.conflict
      (h.acknowledged.trans ha) rfl h.applied
  | some o, some o' =>
    rw [planNew, if_neg hne]
    have hdiff : o ≠ o' := fun heq => hne (congrArg some heq)
    exact .conflict hne (.inl (by simp [hu])) (.inr ⟨by simp [ha], ha ▸ merge_none hdiff⟩)
      h.publish h.apply rfl ⟨h.acknowledged, h.reconciled, h.applied⟩
  | none, none => exact absurd rfl hne

/-- Every plan for a known path is one row of the table. -/
theorem row_planKnown {plan result : PathPlan} (h : Blank record plan) (hne : s ≠ t)
    (hok : planKnown repo record unsaved plan s t = .ok result) :
    Row repo record s t unsaved result := by
  have hnext := And.intro h.acknowledged (And.intro h.reconciled h.applied)
  unfold planKnown at hok
  simp only at hok
  split at hok
  · case h_1 hlocal hremote =>
    obtain rfl := Except.ok.inj hok
    have hs : s = record.acknowledged := by simpa using hlocal
    have hquiet := of_decide_eq_false hremote
    have ht : t = record.reconciled := not_not.1 fun ht => hquiet (.inl ht)
    have hu : record.reconciled = record.applied := not_not.1 fun hu =>
      hquiet (.inr ⟨hu, hne.symm⟩)
    rw [if_neg fun hpending => hpending.2 hu]
    exact .silent hne hs ht hu h.publish h.apply h.conflict hnext
  · case h_2 hlocal hremote =>
    obtain rfl := Except.ok.inj hok
    have hquiet := of_decide_eq_false hremote
    have ht : t = record.reconciled := not_not.1 fun ht => hquiet (.inl ht)
    have hu : record.reconciled = record.applied := not_not.1 fun hu =>
      hquiet (.inr ⟨hu, hne.symm⟩)
    exact .publish hne (of_decide_eq_true hlocal) (.inl ⟨ht, hu⟩) rfl h.apply h.conflict rfl
  · case h_3 hlocal hremote =>
    obtain rfl := Except.ok.inj hok
    have hs : s = record.acknowledged := by simpa using hlocal
    have hincoming := (of_decide_eq_true hremote).imp_right And.left
    cases unsaved with
    | true => exact .conflict hne hincoming (.inl rfl) h.publish h.apply rfl hnext
    | false =>
      exact .apply hne hs hincoming (fun h => nomatch h) h.publish rfl h.conflict
        (h.acknowledged.trans hs.symm) rfl h.applied
  · case h_4 hlocal hremote =>
    have hs := of_decide_eq_true hlocal
    have hincoming := (of_decide_eq_true hremote).imp_right And.left
    obtain ⟨merged, hmerge, hok⟩ := bind_eq_ok hok
    cases merged with
    | conflict kind =>
      obtain rfl := Except.ok.inj hok
      exact .conflict hne hincoming (.inr ⟨hs, kind, hmerge⟩) h.publish h.apply rfl hnext
    | clean x =>
      simp only at hok
      generalize hplan : (if x ≠ t then { plan with publish := some x } else plan) = plan' at hok
      have hfields : plan'.apply = none ∧ plan'.conflict = none ∧ plan'.next = plan.next ∧
          plan'.publish.getD t = x ∧ (x ≠ t → plan'.publish = some x) := by
        subst hplan
        by_cases hx : x = t
        · rw [if_neg (not_not.2 hx)]
          exact ⟨h.apply, h.conflict, rfl, by rw [h.publish, hx]; rfl, fun hne => absurd hx hne⟩
        · rw [if_pos hx]
          exact ⟨h.apply, h.conflict, rfl, rfl, fun _ => rfl⟩
      obtain ⟨happly', hconflict', hnext', hpublish', hpublished⟩ := hfields
      cases unsaved with
      | true =>
        obtain rfl := Except.ok.inj hok
        refine .conflict hne hincoming (.inl rfl) rfl happly' rfl ?_
        show plan'.next.acknowledged = _ ∧ plan'.next.reconciled = _ ∧ plan'.next.applied = _
        rw [hnext']
        exact hnext
      | false =>
        rw [if_neg Bool.false_ne_true] at hok
        split at hok
        · case isTrue hx =>
          subst hx
          obtain rfl := Except.ok.inj hok
          exact .publish hne hs (.inr hmerge) (hpublished hne) happly' hconflict' rfl
        · case isFalse hx =>
          obtain rfl := Except.ok.inj hok
          exact .merged hne hs hincoming hmerge hx rfl hpublish' rfl hconflict' rfl rfl
            (show plan'.next.applied = _ by rw [hnext', h.applied])

/-- A merge of files is a file. -/
theorem isGitlink_of_merge {base x : Option Object} (hs : isGitlink s = false)
    (ht : isGitlink t = false) (h : merge repo base s t = .ok (.clean x)) :
    isGitlink x = false := by
  rcases merge_eq_clean h with ⟨-, -, rfl⟩ | ⟨mode, oid, rfl, hmode | hmode⟩
  · rfl
  · obtain ⟨o, rfl, rfl⟩ := Option.map_eq_some_iff.1 hmode
    exact hs
  · obtain ⟨o, rfl, rfl⟩ := Option.map_eq_some_iff.1 hmode
    exact ht

end Table

/-! ### What a run keeps -/

/-- No nested repository is at the path, or will be. -/
structure Site.Plain (site : Site) : Prop where
  saved : isGitlink site.saved = false
  remote : isGitlink site.remote = false
  waiting : ∀ version ∈ site.waiting, isGitlink version = false

/-- Where the reconciled version is the applied one, it is the acknowledged one. -/
def Site.Coherent (site : Site) : Prop :=
  site.record.reconciled = site.record.applied → site.record.acknowledged = site.record.reconciled

/-- A path that nothing was reconciled for. -/
structure Site.Fresh (site : Site) : Prop extends site.Plain where
  record : site.record = {}
  idle : site.waiting = []

/-- Both versions are on record, and they differ. -/
structure Site.Silent (site : Site) : Prop where
  differ : site.saved ≠ site.remote
  acknowledged : site.saved = site.record.acknowledged
  reconciled : site.remote = site.record.reconciled
  applied : site.record.reconciled = site.record.applied

/-- What reconciliation would bring here is the version that was applied last, and the file has
another since: upstream's version, or its merge with the saved one. -/
def Site.Restores (repo : HistoryRepo) (site : Site) : Prop :=
  site.saved ≠ site.remote ∧
    (site.saved = site.record.acknowledged ∧ site.remote = site.record.applied ∨
      site.saved ≠ site.record.acknowledged ∧ site.saved ≠ site.record.applied ∧
        (site.remote ≠ site.record.reconciled ∨ site.record.reconciled ≠ site.record.applied) ∧
        merge repo site.record.acknowledged site.saved site.remote =
          .ok (.clean site.record.applied))

section Sites

variable {repo : HistoryRepo} {path : String} {unsaved : Bool} {commit : Option String}
  {site : Site}

/-- What one plan says is what the list of plans says. -/
def IsPlan (plans : List PathPlan) (record : SyncRecord) (plan : PathPlan) : Prop :=
  plans = [plan] ∨ plans = [] ∧ plan.isNoop = true ∧ plan.next = record

theorem isPlan_keep (record : SyncRecord) (plan : PathPlan) :
    IsPlan (plan.keep record).toList record plan := by
  rw [PathPlan.keep]
  split
  · exact .inl rfl
  · case isFalse h =>
    rw [not_or, Bool.not_eq_true', Bool.not_eq_false, not_not] at h
    exact .inr ⟨rfl, h⟩

theorem Row.apply_plain {plan : PathPlan} (hsite : site.Plain)
    (h : Row repo site.record site.saved site.remote unsaved plan) :
    plan.apply.any isGitlink = false ∧ isGitlink (plan.publish.getD site.remote) = false := by
  cases h with
  | same heq hpublish happly hconflict hnext =>
    exact ⟨by rw [happly]; rfl, by rw [hpublish]; exact hsite.remote⟩
  | publish hne hlocal hremote hpublish happly hconflict hnext =>
    exact ⟨by rw [happly]; rfl, by rw [hpublish]; exact hsite.saved⟩
  | apply hne hlocal hremote hsaved hpublish happly =>
    exact ⟨by rw [happly]; exact hsite.remote, by rw [hpublish]; exact hsite.remote⟩
  | merged hne hlocal hremote hmerge hx hsaved hpublish happly =>
    have hplain := isGitlink_of_merge hsite.saved hsite.remote hmerge
    exact ⟨by rw [happly]; exact hplain, by rw [hpublish]; exact hplain⟩
  | conflict hne hremote hwhy hpublish happly hconflict hnext =>
    exact ⟨by rw [happly]; rfl, by rw [hpublish]; exact hsite.remote⟩
  | silent hne hlocal hremote happlied hpublish happly =>
    exact ⟨by rw [happly]; rfl, by rw [hpublish]; exact hsite.remote⟩

/-- The plan of the path that nothing has been put into. -/
def blankPlan (path : String) (commit : Option String) (site : Site) : PathPlan :=
  { branchPath := path, next := { site.record with upstreamCommit := commit } }

theorem blank_blankPlan (path : String) (commit : Option String) (site : Site) :
    Blank site.record (blankPlan path commit site) := ⟨rfl, rfl, rfl, rfl, rfl, rfl⟩

/-- What is planned depends on whether the path is new. -/
theorem plan_eq (hpath : isMarker path = false)
    (hpair : gitlinkPair site.saved site.remote = false) :
    site.plan repo path unsaved commit =
      if site.saved = site.remote then
        .ok (some { blankPlan path commit site with
          next := (blankPlan path commit site).next.settle site.saved })
      else if site.record.isNew then
        .ok ((planNew (blankPlan path commit site) site.saved site.remote).keep site.record)
      else
        (planKnown repo site.record unsaved (blankPlan path commit site) site.saved
          site.remote).map (PathPlan.keep site.record) := by
  have hmarker : ¬(path = markerPath ∨ startsWith path ".mise-history/" = true) := by
    simpa [isMarker] using hpath
  have hrecord : ((∅ : SyncState).insert path site.record)[path]?.getD {} = site.record := by
    rw [Std.ExtTreeMap.getElem?_insert_self]
    rfl
  have hunsaved : (if unsaved then (∅ : BTreeSet String).insert path else ∅).contains path =
      unsaved := by
    cases unsaved with
    | true => exact Std.ExtTreeSet.contains_insert_self
    | false => exact Std.ExtTreeSet.contains_empty
  rw [Site.plan, planPath, if_neg hmarker]
  dsimp only
  rw [getElem_only, getElem_only, hrecord, hunsaved, hpair]
  rfl

/-- **`reconcile` is the table**, at a path without nested repositories. -/
theorem row_plans (hpath : isMarker path = false) (hsite : site.Plain) {plans : List PathPlan}
    (hok : site.plans repo path unsaved commit = .ok plans) :
    ∃ plan, Row repo site.record site.saved site.remote unsaved plan ∧
      IsPlan plans site.record plan := by
  rw [plans_eq] at hok
  obtain ⟨result, hresult, rfl⟩ := map_eq_ok hok
  obtain ⟨plan, hrow, hplan⟩ : ∃ plan, Row repo site.record site.saved site.remote unsaved plan ∧
      IsPlan result.toList site.record plan := by
    have hpair : gitlinkPair site.saved site.remote = false := by
      rw [gitlinkPair, hsite.saved, hsite.remote]
      rfl
    rw [plan_eq hpath hpair] at hresult
    by_cases heq : site.saved = site.remote
    · rw [if_pos heq] at hresult
      obtain rfl := Except.ok.inj hresult
      exact ⟨_, .same heq rfl rfl rfl rfl, .inl rfl⟩
    · rw [if_neg heq] at hresult
      have hblank := blank_blankPlan path commit site
      split at hresult
      · case isTrue hnew =>
        obtain rfl := Except.ok.inj hresult
        exact ⟨_, row_planNew hblank hnew heq, isPlan_keep _ _⟩
      · obtain ⟨plan, hplan, rfl⟩ := map_eq_ok hresult
        exact ⟨plan, row_planKnown hblank heq hplan, isPlan_keep _ _⟩
  refine ⟨plan, hrow, ?_⟩
  rcases hplan with hplan | ⟨hplan, hnoop⟩
  · rw [hplan]
    refine .inl (congrArg (fun p => [p]) ?_)
    rw [skipPointerApplication, (hrow.apply_plain hsite).1]
    exact if_neg fun h => Bool.false_ne_true h.2
  · rw [hplan]
    exact .inr ⟨rfl, hnoop⟩

/-- A site is reconciled where no merge is needed, or the merge does not fail. -/
theorem exists_plans (hpath : isMarker path = false) (hsite : site.Plain)
    (h : site.saved = site.remote ∨ site.saved = site.record.acknowledged ∨
      ∃ merged, merge repo site.record.acknowledged site.saved site.remote = .ok merged) :
    ∃ plans, site.plans repo path unsaved commit = .ok plans := by
  have hpair : gitlinkPair site.saved site.remote = false := by
    rw [gitlinkPair, hsite.saved, hsite.remote]
    rfl
  obtain ⟨plan, hplan⟩ : ∃ plan, site.plan repo path unsaved commit = .ok plan := by
    rw [plan_eq hpath hpair]
    split
    · exact ⟨_, rfl⟩
    case isFalse hne =>
    split
    · exact ⟨_, rfl⟩
    obtain ⟨plan, hplan⟩ : ∃ plan, planKnown repo site.record unsaved (blankPlan path commit site)
        site.saved site.remote = .ok plan := by
      unfold planKnown
      simp only
      split
      · exact ⟨_, rfl⟩
      · exact ⟨_, rfl⟩
      · exact ⟨_, rfl⟩
      · case h_4 hlocal hremote =>
        rcases h with heq | hs | ⟨merged, hmerge⟩
        · exact absurd heq hne
        · exact absurd hs (of_decide_eq_true hlocal)
        · rw [hmerge]
          cases merged with
          | conflict kind => exact ⟨_, rfl⟩
          | clean x =>
            simp only [pure, Except.pure, bind, Except.bind]
            split
            · exact ⟨_, rfl⟩
            · split
              · exact ⟨_, rfl⟩
              · exact ⟨_, rfl⟩
    rw [hplan]
    exact ⟨_, rfl⟩
  rw [plans_eq, hplan]
  exact ⟨_, rfl⟩

theorem isNoop_iff {plan : PathPlan} :
    plan.isNoop = true ↔ plan.publish = none ∧ plan.apply = none ∧ plan.conflict = none := by
  simp [PathPlan.isNoop, and_assoc]

/-- A plan that says nothing is not followed. -/
theorem IsPlan.foldl_follow {plans : List PathPlan} {plan : PathPlan}
    (h : IsPlan plans site.record plan) : plans.foldl Site.follow site = site.follow plan := by
  rcases h with rfl | ⟨rfl, hnoop, hnext⟩
  · rfl
  · obtain ⟨hpublish, happly, -⟩ := isNoop_iff.1 hnoop
    rw [Site.follow, hpublish, happly, hnext]
    simp

theorem IsPlan.foldl_perform {plans : List PathPlan} {plan : PathPlan}
    (h : IsPlan plans site.record plan) : plans.foldl Site.perform site = site.perform plan := by
  rcases h with rfl | ⟨rfl, hnoop, hnext⟩
  · rfl
  · obtain ⟨hpublish, happly, -⟩ := isNoop_iff.1 hnoop
    rw [Site.perform, Site.follow, hpublish, happly, hnext]
    simp

theorem Row.plain {plan : PathPlan} (hsite : site.Plain)
    (h : Row repo site.record site.saved site.remote unsaved plan) : (site.follow plan).Plain where
  saved := hsite.saved
  remote := (h.apply_plain hsite).2
  waiting version hversion := by
    rcases List.mem_append.1 hversion with hwaiting | happly
    · exact hsite.waiting version hwaiting
    · have hplain := (h.apply_plain hsite).1
      rw [Option.mem_toList.1 happly] at hplain
      exact hplain

/-- **Reconciliation keeps the record coherent**, unless it restores. -/
theorem Row.coherent {plan : PathPlan} (hsite : site.Coherent)
    (h : Row repo site.record site.saved site.remote unsaved plan)
    (hrestores : unsaved = false → ¬site.Restores repo) : (site.follow plan).Coherent := by
  show plan.next.reconciled = plan.next.applied → plan.next.acknowledged = plan.next.reconciled
  cases h with
  | same heq hpublish happly hconflict hnext => rw [hnext]; exact fun _ => rfl
  | publish hne hlocal hremote hpublish happly hconflict hnext => rw [hnext]; exact fun _ => rfl
  | apply hne hlocal hremote hsaved hpublish happly hconflict hacknowledged hreconciled happlied =>
    rw [hreconciled, happlied]
    intro heq
    cases unsaved with
    | true => exact absurd heq (hsaved rfl)
    | false => exact absurd ⟨hne, .inl ⟨hlocal, heq⟩⟩ (hrestores rfl)
  | merged hne hlocal hremote hmerge hx hsaved hpublish happly hconflict hacknowledged hreconciled
      happlied =>
    rw [hreconciled, happlied]
    rintro rfl
    exact absurd ⟨hne, .inr ⟨hlocal, hx.symm, hremote, hmerge⟩⟩ (hrestores hsaved)
  | conflict hne hremote hwhy hpublish happly hconflict hnext =>
    rw [hnext.1, hnext.2.1, hnext.2.2]
    exact hsite
  | silent hne hlocal hremote happlied hpublish happly hconflict hnext =>
    rw [hnext.1, hnext.2.1, hnext.2.2]
    exact hsite

/-- A plan for two versions that differ says something, unless both are on record. -/
theorem Row.isNoop {plan : PathPlan} (hne : site.saved ≠ site.remote) (hsite : site.Coherent)
    (h : Row repo site.record site.saved site.remote unsaved plan) : plan.isNoop = false := by
  rw [Bool.eq_false_iff, ne_eq, isNoop_iff]
  rintro ⟨hpublish', happly', hconflict'⟩
  cases h with
  | same heq => exact hne heq
  | publish hne hlocal hremote hpublish => exact nomatch hpublish.symm.trans hpublish'
  | apply hne hlocal hremote hsaved hpublish happly => exact nomatch happly.symm.trans happly'
  | merged hne hlocal hremote hmerge hx hsaved hpublish happly =>
    exact nomatch happly.symm.trans happly'
  | conflict hne hremote hwhy hpublish happly hconflict =>
    rw [hconflict'] at hconflict
    exact nomatch hconflict
  | silent hne hlocal hremote happlied =>
    exact hne (hlocal.trans ((hsite happlied).trans hremote.symm))

/-- Where nothing differs, nothing is planned. -/
theorem Row.isNoop_of_silent {plan : PathPlan} (hsite : site.saved = site.remote ∨ site.Silent)
    (h : Row repo site.record site.saved site.remote unsaved plan) : plan.isNoop = true := by
  have hquiet : site.Silent →
      ¬(site.remote ≠ site.record.reconciled ∨ site.record.reconciled ≠ site.record.applied) :=
    fun hsilent => not_or.2 ⟨not_not.2 hsilent.reconciled, not_not.2 hsilent.applied⟩
  rw [isNoop_iff]
  cases h with
  | same heq hpublish happly hconflict => exact ⟨hpublish, happly, hconflict⟩
  | publish hne hlocal =>
    rcases hsite with heq | hsilent
    · exact absurd heq hne
    · exact absurd hsilent.acknowledged hlocal
  | apply hne hlocal hremote =>
    rcases hsite with heq | hsilent
    · exact absurd heq hne
    · exact absurd hremote (hquiet hsilent)
  | merged hne hlocal =>
    rcases hsite with heq | hsilent
    · exact absurd heq hne
    · exact absurd hsilent.acknowledged hlocal
  | conflict hne hremote =>
    rcases hsite with heq | hsilent
    · exact absurd heq hne
    · exact absurd hremote (hquiet hsilent)
  | silent hne hlocal hremote happlied hpublish happly hconflict =>
    exact ⟨hpublish, happly, hconflict⟩

theorem remote_follow (site : Site) {plan : PathPlan} (h : plan.publish = none) :
    (site.follow plan).remote = site.remote := by
  rw [Site.follow, h]
  rfl

/-- A plan that publishes nothing and keeps the record leaves a silent site silent. -/
theorem Site.Silent.follow {plan : PathPlan} (h : site.Silent) (hpublish : plan.publish = none)
    (hnext : plan.next.acknowledged = site.record.acknowledged ∧
      plan.next.reconciled = site.record.reconciled ∧
        plan.next.applied = site.record.applied) : (site.follow plan).Silent where
  differ heq := h.differ (heq.trans (remote_follow site hpublish))
  acknowledged := h.acknowledged.trans hnext.1.symm
  reconciled := (remote_follow site hpublish).trans (h.reconciled.trans hnext.2.1.symm)
  applied := hnext.2.1.trans (h.applied.trans hnext.2.2.symm)

/-- What a plan asks for, once done, leaves the two sides the same, or silent as before. -/
theorem Row.perform {plan : PathPlan} (hconflict' : plan.conflict = none)
    (h : Row repo site.record site.saved site.remote unsaved plan) :
    (site.perform plan).saved = (site.perform plan).remote ∨ (site.perform plan).Silent := by
  have hfollow : plan.apply = none → site.perform plan = site.follow plan := fun h => by
    rw [Site.perform, h]
    rfl
  have happly : ∀ x, plan.apply = some x → site.perform plan = (site.follow plan).apply x :=
    fun x h => by
      rw [Site.perform, h]
      rfl
  cases h with
  | same heq hpublish hnone =>
    rw [hfollow hnone]
    refine .inl (heq.trans ?_)
    rw [Site.follow, hpublish]
    rfl
  | publish hne hlocal hremote hpublish hnone =>
    rw [hfollow hnone]
    refine .inl ?_
    rw [Site.follow, hpublish]
    rfl
  | apply hne hlocal hremote hsaved hpublish hsome =>
    rw [happly _ hsome]
    refine .inl ?_
    rw [Site.apply, Site.follow, hpublish]
    rfl
  | merged hne hlocal hremote hmerge hx hsaved hpublish hsome =>
    rw [happly _ hsome]
    exact .inl hpublish.symm
  | conflict hne hremote hwhy hpublish hnone hconflict =>
    rw [hconflict'] at hconflict
    exact nomatch hconflict
  | silent hne hlocal hremote happlied hpublish hnone hconflict hnext =>
    rw [hfollow hnone]
    exact .inr (Site.Silent.follow ⟨hne, hlocal, hremote, happlied⟩ hpublish hnext)

/-- What reconciliation restores is lost sight of at once. -/
theorem Row.silent_of_restores {plan : PathPlan} (hrestores : site.Restores repo)
    (h : Row repo site.record site.saved site.remote false plan) : (site.follow plan).Silent := by
  obtain ⟨hne, hwhat⟩ := hrestores
  cases h with
  | same heq => exact absurd heq hne
  | publish hne' hlocal hremote =>
    rcases hwhat with ⟨hs, -⟩ | ⟨-, hs, hincoming, hmerge⟩
    · exact absurd hs hlocal
    · rcases hremote with ⟨ht, hu⟩ | hmerge'
      · exact absurd ht (hincoming.resolve_right (not_not.2 hu))
      · rw [hmerge] at hmerge'
        exact absurd (Merged.clean.inj (Except.ok.inj hmerge')).symm hs
  | apply hne' hlocal hremote hsaved hpublish happly hconflict hacknowledged hreconciled happlied =>
    have ht : site.remote = site.record.applied := hwhat.elim And.right fun h => absurd hlocal h.1
    have hsame := remote_follow site hpublish
    exact ⟨fun heq => hne (heq.trans hsame), hacknowledged.symm, hsame.trans hreconciled.symm,
      hreconciled.trans (ht.trans happlied.symm)⟩
  | merged hne' hlocal hremote hmerge hx hsaved hpublish happly hconflict hacknowledged hreconciled
      happlied =>
    obtain ⟨-, hs, -, hmerge'⟩ := hwhat.resolve_left fun h => hlocal h.1
    rw [hmerge] at hmerge'
    have hxl := Merged.clean.inj (Except.ok.inj hmerge')
    exact ⟨fun heq => hx (hpublish.symm.trans heq.symm), hacknowledged.symm,
      hpublish.trans hreconciled.symm, hreconciled.trans (hxl.trans happlied.symm)⟩
  | conflict hne' hremote hwhy =>
    obtain ⟨hs, kind, hmerge⟩ := hwhy.resolve_left Bool.false_ne_true
    obtain ⟨-, -, -, hmerge'⟩ := hwhat.resolve_left fun h => hs h.1
    rw [hmerge] at hmerge'
    exact nomatch Except.ok.inj hmerge'
  | silent hne' hlocal hremote happlied hpublish happly hconflict hnext =>
    exact Site.Silent.follow ⟨hne, hlocal, hremote, happlied⟩ hpublish hnext

/-! ### Runs -/

/-- What reconciliation says of a site, as long as nothing restores: two versions that differ are
not passed over, and what a plan asks, once done, leaves nothing to ask. -/
structure Site.InSync (repo : HistoryRepo) (path : String) (site : Site) : Prop where
  visible : site.saved ≠ site.remote → ∀ unsaved commit plans,
    site.plans repo path unsaved commit = .ok plans → ∃ plan ∈ plans, plan.isNoop = false
  settles : ∀ unsaved commit plans, site.plans repo path unsaved commit = .ok plans →
    (∀ plan ∈ plans, plan.conflict = none) → ∀ unsaved' commit', ∃ plans',
      (plans.foldl Site.perform site).plans repo path unsaved' commit' = .ok plans' ∧
        ∀ plan ∈ plans', plan.isNoop = true

theorem Site.Plain.apply (hsite : site.Plain) {version : Option Object}
    (h : isGitlink version = false) : (site.apply version).Plain where
  saved := h
  remote := hsite.remote
  waiting _ hmem := hsite.waiting _ (List.mem_of_mem_erase hmem)

theorem Row.plain_perform {plan : PathPlan} (hsite : site.Plain)
    (h : Row repo site.record site.saved site.remote unsaved plan) : (site.perform plan).Plain := by
  have hplain := (h.apply_plain hsite).1
  rw [Site.perform]
  cases happly : plan.apply with
  | none => exact h.plain hsite
  | some version =>
    rw [happly] at hplain
    exact (h.plain hsite).apply hplain

/-- The plans of a site that is settled or silent say nothing. -/
theorem isNoop_of_silent (hpath : isMarker path = false) (hsite : site.Plain)
    (h : site.saved = site.remote ∨ site.Silent) (unsaved : Bool) (commit : Option String) :
    ∃ plans, site.plans repo path unsaved commit = .ok plans ∧
      ∀ plan ∈ plans, plan.isNoop = true := by
  obtain ⟨plans, hplans⟩ : ∃ plans, site.plans repo path unsaved commit = .ok plans :=
    exists_plans hpath hsite (h.imp_right fun hsilent => .inl hsilent.acknowledged)
  obtain ⟨plan, hrow, hplan⟩ := row_plans hpath hsite hplans
  refine ⟨plans, hplans, fun plan' hmem => ?_⟩
  rcases hplan with rfl | ⟨rfl, -⟩
  · rw [List.mem_singleton.1 hmem]
    exact hrow.isNoop_of_silent h
  · exact absurd hmem List.not_mem_nil

/-- A coherent site is in sync. -/
theorem Site.Coherent.inSync (hpath : isMarker path = false) (hsite : site.Plain)
    (h : site.Coherent) : site.InSync repo path := by
  constructor
  · intro hne unsaved commit plans hplans
    obtain ⟨plan, hrow, hplan⟩ := row_plans hpath hsite hplans
    have hnoop := hrow.isNoop hne h
    rcases hplan with rfl | ⟨-, hquiet, -⟩
    · exact ⟨plan, List.mem_singleton_self plan, hnoop⟩
    · exact absurd hquiet (by rw [hnoop]; exact Bool.false_ne_true)
  · intro unsaved commit plans hplans hconflict unsaved' commit'
    obtain ⟨plan, hrow, hplan⟩ := row_plans hpath hsite hplans
    have hdecided : plan.conflict = none := by
      rcases hplan with rfl | ⟨-, hquiet, -⟩
      · exact hconflict plan (List.mem_singleton_self plan)
      · exact (isNoop_iff.1 hquiet).2.2
    rw [hplan.foldl_perform]
    exact isNoop_of_silent hpath (hrow.plain_perform hsite) (hrow.perform hdecided) unsaved' commit'

/-- A silent site is not. -/
theorem Site.Silent.not_inSync (hpath : isMarker path = false) (hsite : site.Plain)
    (h : site.Silent) : ¬site.InSync repo path := by
  intro hsync
  obtain ⟨plans, hplans, hnoop⟩ : ∃ plans, site.plans repo path false none = .ok plans ∧
      ∀ plan ∈ plans, plan.isNoop = true := isNoop_of_silent hpath hsite (.inr h) false none
  obtain ⟨plan, hmem, hplan⟩ := hsync.visible h.differ false none plans hplans
  rw [hnoop plan hmem] at hplan
  exact Bool.noConfusion hplan

/-- What one event keeps. -/
theorem Site.Plain.step (hpath : isMarker path = false) (hsite : site.Plain) {event : Event}
    {next : Site} (hstep : site.step repo path event = some next) : next.Plain := by
  cases event with
  | save version =>
    rw [Site.step] at hstep
    split at hstep
    · exact nomatch hstep
    · case isFalse hversion =>
      obtain rfl := Option.some.inj hstep
      exact ⟨Bool.eq_false_iff.2 hversion, hsite.remote, hsite.waiting⟩
  | upstream version =>
    rw [Site.step] at hstep
    split at hstep
    · exact nomatch hstep
    · case isFalse hversion =>
      obtain rfl := Option.some.inj hstep
      exact ⟨hsite.saved, Bool.eq_false_iff.2 hversion, hsite.waiting⟩
  | reconcile unsaved commit =>
    rw [Site.step] at hstep
    split at hstep
    · case h_1 plans hplans =>
      obtain rfl := Option.some.inj hstep
      obtain ⟨plan, hrow, hplan⟩ := row_plans hpath hsite hplans
      rw [hplan.foldl_follow]
      exact hrow.plain hsite
    · exact nomatch hstep
  | apply version =>
    rw [Site.step] at hstep
    split at hstep
    · case isTrue hmem =>
      obtain rfl := Option.some.inj hstep
      exact hsite.apply (hsite.waiting version hmem)
    · exact nomatch hstep

/-- **An event keeps the record coherent**, unless it is a reconciliation that restores. -/
theorem Site.Coherent.step (hpath : isMarker path = false) (hplain : site.Plain)
    (hsite : site.Coherent) {event : Event} {next : Site}
    (hstep : site.step repo path event = some next)
    (hrestores : ∀ commit, event = .reconcile false commit → ¬site.Restores repo) :
    next.Coherent := by
  cases event with
  | save version =>
    rw [Site.step] at hstep
    split at hstep
    · exact nomatch hstep
    · obtain rfl := Option.some.inj hstep
      exact hsite
  | upstream version =>
    rw [Site.step] at hstep
    split at hstep
    · exact nomatch hstep
    · obtain rfl := Option.some.inj hstep
      exact hsite
  | reconcile unsaved commit =>
    rw [Site.step] at hstep
    split at hstep
    · case h_1 plans hplans =>
      obtain rfl := Option.some.inj hstep
      obtain ⟨plan, hrow, hplan⟩ := row_plans hpath hplain hplans
      rw [hplan.foldl_follow]
      exact hrow.coherent hsite fun hunsaved => hrestores commit (by rw [hunsaved])
    · exact nomatch hstep
  | apply version =>
    rw [Site.step] at hstep
    split at hstep
    · obtain rfl := Option.some.inj hstep
      exact fun heq => heq.symm
    · exact nomatch hstep

theorem Site.Plain.run (hpath : isMarker path = false) (hsite : site.Plain) {events : List Event}
    {last : Site} (hrun : site.run repo path events = some last) : last.Plain := by
  induction events generalizing site with
  | nil =>
    obtain rfl := Option.some.inj hrun
    exact hsite
  | cons event events ih =>
    obtain ⟨next, hstep, hrun⟩ := Option.bind_eq_some_iff.1 hrun
    exact ih (hsite.step hpath hstep) hrun

/-- A run without a reconciliation that restores keeps the record coherent. -/
theorem Site.Coherent.run (hpath : isMarker path = false) (hplain : site.Plain)
    (hsite : site.Coherent) {events : List Event} {last : Site}
    (hrun : site.run repo path events = some last)
    (hrestores : ∀ before commit mid, before ++ [.reconcile false commit] <+: events →
      site.run repo path before = some mid → ¬mid.Restores repo) : last.Coherent := by
  induction events generalizing site with
  | nil =>
    obtain rfl := Option.some.inj hrun
    exact hsite
  | cons event events ih =>
    obtain ⟨next, hstep, hrun⟩ := Option.bind_eq_some_iff.1 hrun
    have hnext := hsite.step hpath hplain hstep fun commit hevent =>
      hrestores [] commit site ⟨events, by rw [hevent]; rfl⟩ rfl
    refine ih (hplain.step hpath hstep) hnext hrun fun before commit mid hbefore hmid => ?_
    refine hrestores (event :: before) commit mid ?_ (Option.bind_eq_some_iff.2 ⟨next, hstep, hmid⟩)
    obtain ⟨rest, hrest⟩ := hbefore
    exact ⟨rest, by rw [← hrest]; rfl⟩

/-- **Divergence is silent exactly where a reconciliation restores.**  In a run from a path that
nothing was reconciled for, every site reached is in sync if and only if no reconciliation
without unsaved edits would bring back what was applied last. -/
theorem inSync_iff (hpath : isMarker path = false) (hfresh : site.Fresh) (events : List Event) :
    (∀ before last, before <+: events → site.run repo path before = some last →
        last.InSync repo path) ↔
      ∀ before commit mid, before ++ [.reconcile false commit] <+: events →
        site.run repo path before = some mid → ¬mid.Restores repo := by
  constructor
  · intro h before commit mid hbefore hmid hrestores
    have hplain := hfresh.toPlain.run hpath hmid
    obtain ⟨plans, hplans⟩ : ∃ plans, mid.plans repo path false commit = .ok plans := by
      refine exists_plans hpath hplain (.inr ?_)
      exact hrestores.2.imp And.left fun hmerge => ⟨_, hmerge.2.2.2⟩
    obtain ⟨plan, hrow, hplan⟩ := row_plans hpath hplain hplans
    have hrun : site.run repo path (before ++ [.reconcile false commit]) =
        some (mid.follow plan) := by
      rw [Site.run, List.foldlM_append]
      refine Option.bind_eq_some_iff.2 ⟨mid, hmid, ?_⟩
      refine Option.bind_eq_some_iff.2 ⟨mid.follow plan, ?_, rfl⟩
      rw [Site.step, hplans]
      exact congrArg some hplan.foldl_follow
    exact (hrow.silent_of_restores hrestores).not_inSync hpath (hrow.plain hplain)
      (h _ _ hbefore hrun)
  · intro h before last hbefore hlast
    have hcoherent : site.Coherent := by
      intro _
      rw [hfresh.record]
    refine (hcoherent.run hpath hfresh.toPlain hlast fun before' commit mid hstart hmid =>
      h before' commit mid (hstart.trans hbefore) hmid).inSync hpath
        (hfresh.toPlain.run hpath hlast)

end Sites

/-! ### A silent divergence -/

/-- The bytes of a text in ASCII. -/
def ascii (text : String) : List UInt8 := text.toList.map fun c => UInt8.ofNat c.toNat

/-- A repository of a file, a change at its end, a change in front of it, and their merge. -/
def fourVersions : HistoryRepo where
  catObject
    | "base" => .ok (ascii "a\nb\n")
    | "end" => .ok (ascii "a\nb\nlocal\n")
    | "front" => .ok (ascii "remote\na\nb\n")
    | oid => .error oid
  merge3 base ours theirs :=
    if base = ascii "a\nb\n" ∧ ours = ascii "a\nb\nlocal\n" ∧ theirs = ascii "remote\na\nb\n" then
      .ok (some (ascii "remote\na\nb\nlocal\n"))
    else .ok none
  transientBlobId _ := .ok "merged"

/-- A file of `fourVersions`. -/
def plainFile (oid : String) : Option Object := some ("100644", oid)

/-- Both sides change the file; before the merge is written here, upstream takes its change
back. -/
def takenBack : List Event :=
  [.reconcile false none, .save (plainFile "end"), .upstream (plainFile "front"),
    .reconcile false none, .upstream (plainFile "base"), .reconcile false none]

/-- The condition at the file of `fourVersions`. -/
theorem inSync_iff_takenBack :
    (∀ before last, before <+: takenBack →
        Site.run fourVersions "home/.zshrc" ⟨plainFile "base", plainFile "base", {}, []⟩ before =
          some last → last.InSync fourVersions "home/.zshrc") ↔
      ∀ before commit mid, before ++ [.reconcile false commit] <+: takenBack →
        Site.run fourVersions "home/.zshrc" ⟨plainFile "base", plainFile "base", {}, []⟩ before =
          some mid → ¬mid.Restores fourVersions :=
  inSync_iff (by decide) ⟨⟨by decide, by decide, by decide⟩, rfl, rfl⟩ takenBack

/-- Reconciliation says nothing of a file that is one here and another upstream. -/
theorem silent_takenBack :
    ∃ last, Site.run fourVersions "home/.zshrc" ⟨plainFile "base", plainFile "base", {}, []⟩
        takenBack = some last ∧
      last.saved ≠ last.remote ∧
        last.plans fourVersions "home/.zshrc" false none = .ok [] := by
  refine ⟨⟨plainFile "end", plainFile "base",
    ⟨plainFile "end", plainFile "base", plainFile "base", none⟩,
    [plainFile "merged", plainFile "base"]⟩, ?_, by decide, ?_⟩
  · decide +kernel
  · decide +kernel

end Mise.Sync
