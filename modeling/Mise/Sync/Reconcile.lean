/-
# Reconciling saved files with upstream

`crates/mise-system/src/history/sync/reconcile.rs`, with `SyncRecord` of
`state.rs`.  For every path there is the version saved here, the version upstream
has, and a record of the versions that were acknowledged, reconciled and applied
before.  A plan says what to publish, what to write here, and what has to be
decided first.

What Git does is a parameter: reading an object, merging three texts, and naming
a blob.  The object database only grows, so each of these is a function.
-/

import Mise.Lib.BTreeMap
import Mise.Lib.Fallible
import Mise.Text

namespace Mise.Sync

open Lib

/-- `Object`: a mode and an object id. -/
abbrev Object := String × String

/-- `SyncRecord`. -/
structure SyncRecord where
  acknowledged : Option Object := none
  reconciled : Option Object := none
  applied : Option Object := none
  upstreamCommit : Option String := none
  deriving DecidableEq

/-- `is_new`: the path was never reconciled. -/
def SyncRecord.isNew (r : SyncRecord) : Bool :=
  r.acknowledged.isNone && r.reconciled.isNone && r.applied.isNone

/-- `SyncState`. -/
abbrev SyncState := BTreeMap String SyncRecord

/-- `Upstream`. -/
structure Upstream where
  commit : Option String := none
  files : BTreeMap String Object := ∅

/-- What reconciliation asks of a `HistoryRepo`. -/
structure HistoryRepo where
  /-- `cat_object`. -/
  catObject : String → Except String (List UInt8)
  /-- `merge3` of a base, this side and the other; `none` where both changed the same. -/
  merge3 : List UInt8 → List UInt8 → List UInt8 → Except String (Option (List UInt8))
  /-- `transient_blob_id`. -/
  transientBlobId : List UInt8 → Except String String

/-- `ConflictKind`. -/
inductive ConflictKind where
  | repository
  | sameHunk
  | deleteModify
  | modifyDelete
  | typeChange
  | linkTarget
  | needsAdoption
  | binary
  | unsavedEdits
  | invalidIncoming
  | stagedEdits
  | unusableLive
  deriving DecidableEq

/-- `Conflict`. -/
structure Conflict where
  branchPath : String
  kind : ConflictKind
  localVersion : Option Object := none
  remote : Option Object := none
  base : Option Object := none
  deriving DecidableEq

/-- `NESTED_NOT_SHARED`. -/
def nestedNotShared : String :=
  "a separate Git repository; a pointer from an older mise, skipped — track it directly to " ++
    "capture its working files"

/-- `PathPlan`; `some none` publishes or applies a deletion. -/
structure PathPlan where
  branchPath : String
  publish : Option (Option Object) := none
  apply : Option (Option Object) := none
  conflict : Option Conflict := none
  skipped : Option String := none
  next : SyncRecord := {}
  deriving DecidableEq

/-- `is_noop`. -/
def PathPlan.isNoop (plan : PathPlan) : Bool :=
  plan.publish.isNone && plan.apply.isNone && plan.conflict.isNone

/-! ### Kinds of objects -/

/-- `kind`. -/
def kind (object : Option Object) : Option String :=
  object.map fun o =>
    if o.1 = "120000" then "link" else if o.1 = "160000" then "repository" else "file"

/-- `is_gitlink`. -/
def isGitlink (object : Option Object) : Bool := object.any fun o => o.1 = "160000"

/-- `pointer_or_absent`. -/
def pointerOrAbsent (object : Option Object) : Bool := object.isNone || isGitlink object

/-- The two sides are nested repositories, or one is and the other is absent. -/
def gitlinkPair (s t : Option Object) : Bool :=
  (isGitlink s || isGitlink t) && pointerOrAbsent s && pointerOrAbsent t

/-! ### Merging -/

/-- `Merged`. -/
inductive Merged where
  | clean (object : Option Object)
  | conflict (kind : ConflictKind)
  deriving DecidableEq

/-- `merge`. -/
def merge (repo : HistoryRepo) (base ours theirs : Option Object) : Except String Merged :=
  match ours, theirs with
  | none, none => .ok (.clean none)
  | some _, none => .ok (.conflict .deleteModify)
  | none, some _ => .ok (.conflict .modifyDelete)
  | some o, some t =>
    if o.2 = t.2 ∧ o.1 = t.1 then .ok (.clean (some o))
    else if kind ours ≠ kind theirs then .ok (.conflict .typeChange)
    else if o.1 = "120000" then .ok (.conflict .linkTarget)
    else
      match base with
      | none => .ok (.conflict .needsAdoption)
      | some base => do
        let baseBytes ← repo.catObject base.2
        let oursBytes ← repo.catObject o.2
        let theirsBytes ← repo.catObject t.2
        match ← repo.merge3 baseBytes oursBytes theirsBytes with
        | some merged =>
          let oid ← repo.transientBlobId merged
          return .clean (some (if o.1 = base.1 then t.1 else o.1, oid))
        | none =>
          if [baseBytes, oursBytes, theirsBytes].any (·.contains 0) then return .conflict .binary
          else return .conflict .sameHunk

/-! ### The plan of one path -/

/-- All of the record is set to one version. -/
def SyncRecord.settle (r : SyncRecord) (version : Option Object) : SyncRecord :=
  { r with acknowledged := version, reconciled := version, applied := version }

/-- The plan that waits for a decision. -/
def PathPlan.stop (plan : PathPlan) (kind : ConflictKind) (s t base : Option Object) : PathPlan :=
  { plan with
    conflict := some { branchPath := plan.branchPath, kind, localVersion := s, remote := t, base } }

/-- The arm of `reconcile` for a path that was never reconciled. -/
def planNew (plan : PathPlan) (s t : Option Object) : PathPlan :=
  match s, t with
  | some _, none => { plan with publish := some s, next := plan.next.settle s }
  | none, some _ => { plan with apply := some t, next := { plan.next with reconciled := t } }
  | some _, some _ =>
    if s = t then { plan with next := plan.next.settle s } else plan.stop .needsAdoption s t none
  | none, none => plan

/-- The arm of `reconcile` for a path with a record; `unsaved` says that the live
file has edits that are not saved. -/
def planKnown (repo : HistoryRepo) (record : SyncRecord) (unsaved : Bool) (plan : PathPlan)
    (s t : Option Object) : Except String PathPlan :=
  let a := record.acknowledged
  let u := record.reconciled
  let pending := record.reconciled ≠ record.applied ∧ t ≠ s
  match decide (s ≠ a), decide (t ≠ u ∨ pending) with
  | false, false =>
    .ok <|
      if t.isSome ∧ record.reconciled ≠ record.applied then
        if unsaved then plan.stop .unsavedEdits s t a else { plan with apply := some t }
      else plan
  | true, false => .ok { plan with publish := some s, next := plan.next.settle s }
  | false, true =>
    .ok <|
      if unsaved then plan.stop .unsavedEdits s t a
      else { plan with apply := some t, next := { plan.next with reconciled := t } }
  | true, true => do
    match ← merge repo a s t with
    | .clean object =>
      let plan := if object ≠ t then { plan with publish := some object } else plan
      if unsaved then return { plan.stop .unsavedEdits s t a with publish := none }
      else if object = s then return { plan with next := plan.next.settle s }
      else
        return { plan with
          apply := some object
          next := { plan.next with acknowledged := s, reconciled := object } }
    | .conflict kind => return plan.stop kind s t a

/-- A plan that says something, or changes the record. -/
def PathPlan.keep (record : SyncRecord) (plan : PathPlan) : Option PathPlan :=
  if !plan.isNoop ∨ plan.next ≠ record then some plan else none

/-- `MARKER_PATH`. -/
def markerPath : String := ".mise-history/format.toml"

/-- The body of the loop of `reconcile`. -/
def planPath (repo : HistoryRepo) (shared : BTreeMap String Object) (upstream : Upstream)
    (state : SyncState) (unsaved : BTreeSet String) (branchPath : String) :
    Except String (Option PathPlan) :=
  if branchPath = markerPath ∨ startsWith branchPath ".mise-history/" then .ok none
  else
    let s := shared[branchPath]?
    let t := upstream.files[branchPath]?
    let record := state[branchPath]?.getD {}
    let plan : PathPlan :=
      { branchPath, next := { record with upstreamCommit := upstream.commit } }
    if s = t then .ok (some { plan with next := plan.next.settle s })
    else if gitlinkPair s t then
      .ok (some { plan with skipped := some nestedNotShared, next := plan.next.settle s })
    else if record.isNew then .ok ((planNew plan s t).keep record)
    else
      (planKnown repo record (unsaved.contains branchPath) plan s t).map (PathPlan.keep record)

/-- The body of the loop of `skip_pointer_applications`. -/
def skipPointerApplication (shared : BTreeMap String Object) (plan : PathPlan) : PathPlan :=
  if plan.conflict.isNone ∧ plan.apply.any isGitlink then
    { plan with
      apply := none
      skipped := some nestedNotShared
      next := plan.next.settle shared[plan.branchPath]? }
  else plan

/-- `skip_pointer_applications`. -/
def skipPointerApplications (plans : List PathPlan) (shared : BTreeMap String Object) :
    List PathPlan :=
  plans.map (skipPointerApplication shared)

/-- The loop of `reconcile`. -/
def planPaths (repo : HistoryRepo) (shared : BTreeMap String Object) (upstream : Upstream)
    (state : SyncState) (unsaved : BTreeSet String) : List String → Except String (List PathPlan)
  | [] => .ok []
  | branchPath :: paths => do
    let plan ← planPath repo shared upstream state unsaved branchPath
    let plans ← planPaths repo shared upstream state unsaved paths
    return plan.toList ++ plans

/-- `reconcile`. -/
def reconcile (repo : HistoryRepo) (shared : BTreeMap String Object) (upstream : Upstream)
    (state : SyncState) (unsaved : BTreeSet String) : Except String (List PathPlan) := do
  let paths : BTreeSet String :=
    (shared.keys ++ upstream.files.keys ++ state.keys).foldl (·.insert ·) ∅
  let plans ← planPaths repo shared upstream state unsaved paths.toList
  return skipPointerApplications plans shared

/-! ### What a plan may do -/

/-- **A plan overwrites nothing silently**, at a path with the record `record`, the
saved version `s` and the upstream version `t`. -/
structure Safe (repo : HistoryRepo) (record : SyncRecord) (s t : Option Object)
    (plan : PathPlan) : Prop where
  /-- A conflict leaves everything as it is. -/
  conflict : plan.conflict.isSome → plan.publish = none ∧ plan.apply = none ∧
    plan.next.acknowledged = record.acknowledged ∧ plan.next.reconciled = record.reconciled ∧
    plan.next.applied = record.applied
  /-- What is written here replaces a version that was acknowledged, or merges with it. -/
  apply_known : record.isNew = false → gitlinkPair s t = false → ∀ x, plan.apply = some x →
    s = record.acknowledged ∧ x = t ∨ merge repo record.acknowledged s t = .ok (.clean x)
  /-- What is published replaces a version that was reconciled, or merges with it. -/
  publish_known : record.isNew = false → gitlinkPair s t = false → ∀ x, plan.publish = some x →
    t = record.reconciled ∧ (record.reconciled = record.applied ∨ t = s) ∧ x = s ∨
      merge repo record.acknowledged s t = .ok (.clean x)
  /-- A path that was never reconciled goes only where there is nothing. -/
  apply_new : record.isNew = true → ∀ x, plan.apply = some x → s = none
  publish_new : record.isNew = true → ∀ x, plan.publish = some x → t = none
  /-- No deletion removes a nested repository, here or upstream. -/
  apply_deletion : plan.apply = some none → isGitlink s = false
  publish_deletion : plan.publish = some none → isGitlink t = false

/-- A plan that does nothing. -/
theorem Safe.of_idle {repo : HistoryRepo} {record : SyncRecord} {s t : Option Object}
    {plan : PathPlan} (hpublish : plan.publish = none) (happly : plan.apply = none)
    (hconflict : plan.conflict.isSome → plan.next.acknowledged = record.acknowledged ∧
      plan.next.reconciled = record.reconciled ∧ plan.next.applied = record.applied) :
    Safe repo record s t plan where
  conflict h := ⟨hpublish, happly, hconflict h⟩
  apply_known _ _ x hx := absurd (hx.symm.trans happly) (Option.some_ne_none x)
  publish_known _ _ x hx := absurd (hx.symm.trans hpublish) (Option.some_ne_none x)
  apply_new _ x hx := absurd (hx.symm.trans happly) (Option.some_ne_none x)
  publish_new _ x hx := absurd (hx.symm.trans hpublish) (Option.some_ne_none x)
  apply_deletion hx := absurd (hx.symm.trans happly) (Option.some_ne_none _)
  publish_deletion hx := absurd (hx.symm.trans hpublish) (Option.some_ne_none _)

/-- A clean merge deletes what both sides deleted, or has the mode of one of them. -/
theorem merge_eq_clean {repo : HistoryRepo} {base ours theirs x : Option Object}
    (h : merge repo base ours theirs = .ok (.clean x)) :
    ours = none ∧ theirs = none ∧ x = none ∨
      ∃ mode oid, x = some (mode, oid) ∧
        (ours.map Prod.fst = some mode ∨ theirs.map Prod.fst = some mode) := by
  cases ours with
  | none =>
    cases theirs with
    | none => exact .inl ⟨rfl, rfl, (Merged.clean.inj (Except.ok.inj h)).symm⟩
    | some t => cases h
  | some o =>
    cases theirs with
    | none => cases h
    | some t =>
      right
      simp only [merge] at h
      split at h
      · exact ⟨o.1, o.2, (Merged.clean.inj (Except.ok.inj h)).symm, .inl rfl⟩
      split at h
      · cases h
      split at h
      · cases h
      cases base with
      | none => cases h
      | some base =>
        obtain ⟨baseBytes, -, h⟩ := bind_eq_ok h
        obtain ⟨oursBytes, -, h⟩ := bind_eq_ok h
        obtain ⟨theirsBytes, -, h⟩ := bind_eq_ok h
        obtain ⟨merged, -, h⟩ := bind_eq_ok h
        cases merged with
        | some merged =>
          obtain ⟨oid, -, h⟩ := bind_eq_ok h
          refine ⟨_, oid, (Merged.clean.inj (Except.ok.inj h)).symm, ?_⟩
          by_cases hmode : o.1 = base.1
          · rw [if_pos hmode]
            exact .inr rfl
          · rw [if_neg hmode]
            exact .inl rfl
        | none =>
          simp only at h
          split at h <;> cases h

/-- The merge deletes only what both sides deleted. -/
theorem eq_none_of_merge {repo : HistoryRepo} {base ours theirs : Option Object}
    (h : merge repo base ours theirs = .ok (.clean none)) : ours = none ∧ theirs = none := by
  rcases merge_eq_clean h with ⟨hours, htheirs, -⟩ | ⟨mode, oid, hx, -⟩
  · exact ⟨hours, htheirs⟩
  · cases hx

section Plans

variable {repo : HistoryRepo} {record : SyncRecord} {plan : PathPlan} {s t : Option Object}

/-- A plan that nothing has been put into: the versions of its record are those on
record. -/
structure Blank (record : SyncRecord) (plan : PathPlan) : Prop where
  publish : plan.publish = none
  apply : plan.apply = none
  conflict : plan.conflict = none
  acknowledged : plan.next.acknowledged = record.acknowledged
  reconciled : plan.next.reconciled = record.reconciled
  applied : plan.next.applied = record.applied

theorem Blank.safe_stop (h : Blank record plan) (kind : ConflictKind) (base : Option Object) :
    Safe repo record s t (plan.stop kind s t base) :=
  .of_idle h.publish h.apply fun _ => ⟨h.acknowledged, h.reconciled, h.applied⟩

theorem Blank.safe (h : Blank record plan) : Safe repo record s t plan :=
  .of_idle h.publish h.apply fun _ => ⟨h.acknowledged, h.reconciled, h.applied⟩

/-- A path that was never reconciled is taken from the side that has it. -/
theorem safe_planNew (h : Blank record plan) (hnew : record.isNew = true)
    (hpair : gitlinkPair s t = false) : Safe repo record s t (planNew plan s t) := by
  have hknown : ¬record.isNew = false := by rw [hnew]; exact Bool.noConfusion
  have hconflict : plan.conflict.isSome → False := by rw [h.conflict]; exact Bool.noConfusion
  unfold planNew
  split
  · case h_1 o =>
    refine ⟨fun hc => absurd hc hconflict, fun hk => absurd hk hknown, fun hk => absurd hk hknown,
      fun _ x hx => ?_, fun _ _ _ => rfl, fun hx => ?_, fun _ => rfl⟩
    · exact absurd (hx.symm.trans h.apply) (Option.some_ne_none x)
    · exact absurd (hx.symm.trans h.apply) (Option.some_ne_none _)
  · case h_2 o =>
    refine ⟨fun hc => absurd hc hconflict, fun hk => absurd hk hknown, fun hk => absurd hk hknown,
      fun _ _ _ => rfl, fun _ x hx => ?_, fun _ => rfl, fun hx => ?_⟩
    · exact absurd (hx.symm.trans h.publish) (Option.some_ne_none x)
    · exact absurd (hx.symm.trans h.publish) (Option.some_ne_none _)
  · split
    · exact .of_idle h.publish h.apply fun hc => absurd hc hconflict
    · exact h.safe_stop _ _
  · exact h.safe

/-- A path with a record. -/
theorem safe_planKnown (h : Blank record plan) (hnew : record.isNew = false)
    (hpair : gitlinkPair s t = false) (hne : s ≠ t) {unsaved : Bool} {result : PathPlan}
    (hok : planKnown repo record unsaved plan s t = .ok result) : Safe repo record s t result := by
  have hknown : ¬record.isNew = true := by rw [hnew]; exact Bool.noConfusion
  have hconflict : ¬plan.conflict.isSome := by rw [h.conflict]; exact Bool.noConfusion
  have happly : ∀ x, plan.apply ≠ some x := fun x hx =>
    Option.some_ne_none x (hx.symm.trans h.apply)
  have hpublish : ∀ x, plan.publish ≠ some x := fun x hx =>
    Option.some_ne_none x (hx.symm.trans h.publish)
  -- a deletion beside a nested repository would be a pair
  have hside : ∀ {s t : Option Object}, gitlinkPair s t = false → t = none → isGitlink s = false := by
    rintro s _ hs rfl
    cases hlink : isGitlink s with
    | false => rfl
    | true => simp [gitlinkPair, pointerOrAbsent, hlink] at hs
  have hpair' : gitlinkPair t s = false := by
    rw [gitlinkPair, Bool.or_comm, Bool.and_assoc, Bool.and_comm (pointerOrAbsent t),
      ← Bool.and_assoc]
    exact hpair
  unfold planKnown at hok
  simp only at hok
  split at hok
  · case h_1 hlocal hremote =>
    obtain rfl := Except.ok.inj hok
    have hs : s = record.acknowledged := by simpa using hlocal
    split
    · split
      · exact h.safe_stop _ _
      · exact ⟨fun hc => absurd hc hconflict, fun _ _ x hx => .inl ⟨hs, (Option.some.inj hx).symm⟩,
          fun _ _ x hx => absurd hx (hpublish x), fun hk => absurd hk hknown,
          fun hk => absurd hk hknown, fun hx => hside hpair (Option.some.inj hx),
          fun hx => absurd hx (hpublish none)⟩
    · exact h.safe
  · case h_2 hlocal hremote =>
    obtain rfl := Except.ok.inj hok
    have hquiet : ¬(t ≠ record.reconciled ∨ record.reconciled ≠ record.applied ∧ t ≠ s) :=
      of_decide_eq_false hremote
    have ht : t = record.reconciled := not_not.1 fun ht => hquiet (.inl ht)
    have hu : record.reconciled = record.applied := not_not.1 fun hu =>
      hquiet (.inr ⟨hu, Ne.symm hne⟩)
    exact ⟨fun hc => absurd hc hconflict, fun _ _ x hx => absurd hx (happly x),
      fun _ _ x hx => .inl ⟨ht, .inl hu, (Option.some.inj hx).symm⟩, fun hk => absurd hk hknown,
      fun hk => absurd hk hknown, fun hx => absurd hx (happly none),
      fun hx => hside hpair' (Option.some.inj hx)⟩
  · case h_3 hlocal hremote =>
    obtain rfl := Except.ok.inj hok
    have hs : s = record.acknowledged := by simpa using hlocal
    split
    · exact h.safe_stop _ _
    · exact ⟨fun hc => absurd hc hconflict, fun _ _ x hx => .inl ⟨hs, (Option.some.inj hx).symm⟩,
        fun _ _ x hx => absurd hx (hpublish x), fun hk => absurd hk hknown,
        fun hk => absurd hk hknown, fun hx => hside hpair (Option.some.inj hx),
        fun hx => absurd hx (hpublish none)⟩
  · obtain ⟨merged, hmerge, hok⟩ := bind_eq_ok hok
    cases merged with
    | conflict kind =>
      obtain rfl := Except.ok.inj hok
      exact h.safe_stop _ _
    | clean object =>
      have hdeleted : object = none → s = none ∧ t = none := fun ho =>
        eq_none_of_merge (ho ▸ hmerge)
      simp only at hok
      generalize hplan : (if object ≠ t then { plan with publish := some object } else plan) = plan'
        at hok
      have hfields : plan'.apply = none ∧ plan'.conflict = none ∧ plan'.next = plan.next ∧
          ∀ x, plan'.publish = some x → x = object := by
        subst hplan
        split
        · exact ⟨h.apply, h.conflict, rfl, fun x hx => (Option.some.inj hx).symm⟩
        · exact ⟨h.apply, h.conflict, rfl, fun x hx => absurd hx (hpublish x)⟩
      obtain ⟨happly', hconflict', hnext', hpublish'⟩ := hfields
      have hquiet : ¬plan'.conflict.isSome := by rw [hconflict']; exact Bool.noConfusion
      have hmerged : ∀ x, plan'.publish = some x →
          merge repo record.acknowledged s t = .ok (.clean x) := fun x hx => hpublish' x hx ▸ hmerge
      split at hok
      · obtain rfl := Except.ok.inj hok
        refine .of_idle rfl happly' fun _ => ?_
        show plan'.next.acknowledged = _ ∧ plan'.next.reconciled = _ ∧ plan'.next.applied = _
        rw [hnext']
        exact ⟨h.acknowledged, h.reconciled, h.applied⟩
      · split at hok
        · obtain rfl := Except.ok.inj hok
          exact ⟨fun hc => absurd hc hquiet,
            fun _ _ x hx => absurd (hx.symm.trans happly') (Option.some_ne_none x),
            fun _ _ x hx => .inr (hmerged x hx), fun hk => absurd hk hknown,
            fun hk => absurd hk hknown,
            fun hx => absurd (hx.symm.trans happly') (Option.some_ne_none none),
            fun hx => (hdeleted (hpublish' none hx).symm).2 ▸ rfl⟩
        · obtain rfl := Except.ok.inj hok
          exact ⟨fun hc => absurd hc hquiet,
            fun _ _ x hx => .inr (Option.some.inj hx ▸ hmerge),
            fun _ _ x hx => .inr (hmerged x hx), fun hk => absurd hk hknown,
            fun hk => absurd hk hknown, fun hx => (hdeleted (Option.some.inj hx)).1 ▸ rfl,
            fun hx => (hdeleted (hpublish' none hx).symm).2 ▸ rfl⟩

theorem branchPath_planNew : (planNew plan s t).branchPath = plan.branchPath := by
  unfold planNew
  split
  · rfl
  · rfl
  · split <;> rfl
  · rfl

/-- A plan is about one path of the branch. -/
theorem branchPath_planKnown {unsaved : Bool} {result : PathPlan}
    (hok : planKnown repo record unsaved plan s t = .ok result) :
    result.branchPath = plan.branchPath := by
  unfold planKnown at hok
  simp only at hok
  split at hok
  · obtain rfl := Except.ok.inj hok
    split
    · split <;> rfl
    · rfl
  · obtain rfl := Except.ok.inj hok
    rfl
  · obtain rfl := Except.ok.inj hok
    split <;> rfl
  · obtain ⟨merged, -, hok⟩ := bind_eq_ok hok
    cases merged with
    | conflict kind =>
      obtain rfl := Except.ok.inj hok
      rfl
    | clean object =>
      have hpath : (if object ≠ t then { plan with publish := some object } else plan).branchPath =
          plan.branchPath := by split <;> rfl
      simp only at hok
      split at hok
      · obtain rfl := Except.ok.inj hok
        exact hpath
      · split at hok
        · obtain rfl := Except.ok.inj hok
          exact hpath
        · obtain rfl := Except.ok.inj hok
          exact hpath

theorem eq_of_keep {result : PathPlan} (h : plan.keep record = some result) : result = plan := by
  unfold PathPlan.keep at h
  split at h
  · exact (Option.some.inj h).symm
  · nomatch h

end Plans

section Paths

variable {repo : HistoryRepo} {shared : BTreeMap String Object} {upstream : Upstream}
  {state : SyncState} {unsaved : BTreeSet String}

/-- The plan of a path overwrites nothing there. -/
theorem safe_planPath {branchPath : String} {result : PathPlan}
    (hok : planPath repo shared upstream state unsaved branchPath = .ok (some result)) :
    Safe repo (state[result.branchPath]?.getD {}) shared[result.branchPath]?
      upstream.files[result.branchPath]? result := by
  unfold planPath at hok
  split at hok
  · nomatch Except.ok.inj hok
  simp only at hok
  have hblank : Blank (state[branchPath]?.getD {}) { branchPath, next :=
      { state[branchPath]?.getD {} with upstreamCommit := upstream.commit } } :=
    ⟨rfl, rfl, rfl, rfl, rfl, rfl⟩
  split at hok
  · obtain rfl := Option.some.inj (Except.ok.inj hok)
    exact .of_idle rfl rfl nofun
  case isFalse hne =>
  split at hok
  · obtain rfl := Option.some.inj (Except.ok.inj hok)
    exact .of_idle rfl rfl nofun
  case isFalse hpair =>
  rw [Bool.not_eq_true] at hpair
  split at hok
  · case isTrue hnew =>
    obtain rfl := eq_of_keep (Except.ok.inj hok)
    rw [branchPath_planNew]
    exact safe_planNew hblank hnew hpair
  · case isFalse hnew =>
    obtain ⟨plan, hplan, hkeep⟩ := map_eq_ok hok
    obtain rfl := eq_of_keep hkeep
    rw [branchPath_planKnown hplan]
    exact safe_planKnown hblank (Bool.not_eq_true _ ▸ hnew) hpair hne hplan

/-- Every plan of the loop is the plan of a path. -/
theorem mem_planPaths {paths : List String} {plans : List PathPlan}
    (hok : planPaths repo shared upstream state unsaved paths = .ok plans) {plan : PathPlan}
    (hplan : plan ∈ plans) :
    ∃ branchPath, planPath repo shared upstream state unsaved branchPath = .ok (some plan) := by
  induction paths generalizing plans with
  | nil =>
    obtain rfl := Except.ok.inj hok
    exact absurd hplan List.not_mem_nil
  | cons branchPath paths ih =>
    obtain ⟨first, hfirst, hok⟩ := bind_eq_ok hok
    obtain ⟨rest, hrest, hok⟩ := bind_eq_ok hok
    obtain rfl := Except.ok.inj hok
    rcases List.mem_append.1 hplan with hmem | hmem
    · exact ⟨branchPath, hfirst.trans (congrArg _ (Option.mem_toList.1 hmem))⟩
    · exact ih hrest hmem

/-- Skipping an application keeps a plan safe, and leaves no pointer to apply. -/
theorem safe_skipPointerApplication {record : SyncRecord} {s t : Option Object} {plan : PathPlan}
    (h : Safe repo record s t plan) :
    Safe repo record s t (skipPointerApplication shared plan) ∧
      ∀ g, (skipPointerApplication shared plan).apply = some g → isGitlink g = false := by
  unfold skipPointerApplication
  split
  · case isTrue hskip =>
    have hquiet : ¬plan.conflict.isSome := by
      rw [Option.isNone_iff_eq_none.1 hskip.1]
      exact Bool.noConfusion
    exact ⟨⟨fun hc => absurd hc hquiet, fun _ _ x hx => (nomatch hx), h.publish_known,
      fun _ x hx => (nomatch hx), h.publish_new, fun hx => (nomatch hx), h.publish_deletion⟩,
      fun g hg => (nomatch hg)⟩
  · case isFalse hskip =>
    refine ⟨h, fun g hg => ?_⟩
    cases hlink : isGitlink g with
    | false => rfl
    | true =>
      have hnone : plan.conflict.isNone = true := by
        cases hc : plan.conflict with
        | none => rfl
        | some c =>
          have happly := (h.conflict (by rw [hc]; rfl)).2.1
          rw [happly] at hg
          nomatch hg
      exact absurd ⟨hnone, by rw [hg]; exact hlink⟩ hskip

/-- **Synchronization overwrites nothing silently**: every plan that reconciliation
returns is safe at its path, and none of them applies a nested repository. -/
theorem reconcile_safe {plans : List PathPlan}
    (hok : reconcile repo shared upstream state unsaved = .ok plans) {plan : PathPlan}
    (hplan : plan ∈ plans) :
    Safe repo (state[plan.branchPath]?.getD {}) shared[plan.branchPath]?
        upstream.files[plan.branchPath]? plan ∧
      ∀ g, plan.apply = some g → isGitlink g = false := by
  obtain ⟨planned, hplanned, hok⟩ := bind_eq_ok hok
  obtain rfl := Except.ok.inj hok
  obtain ⟨before, hbefore, rfl⟩ := List.mem_map.1 hplan
  obtain ⟨branchPath, hpath⟩ := mem_planPaths hplanned hbefore
  have hsame : (skipPointerApplication shared before).branchPath = before.branchPath := by
    unfold skipPointerApplication
    split <;> rfl
  rw [hsame]
  exact safe_skipPointerApplication (safe_planPath hpath)

end Paths

/-- An incoming change of a file that nobody touched here. -/
theorem reconcile_safe_incoming :
    Safe ⟨fun _ => .ok [], fun _ _ theirs => .ok (some theirs), fun _ => .ok "e69de29"⟩
        (({} : SyncRecord).settle (some ("100644", "1")))
        (some ("100644", "1")) (some ("100644", "2"))
        { branchPath := "home/a"
          apply := some (some ("100644", "2"))
          next := { ({} : SyncRecord).settle (some ("100644", "1")) with
            reconciled := some ("100644", "2") } } ∧
      ∀ g, some (some ("100644", "2")) = some g → isGitlink g = false := by
  have h := @reconcile_safe
    ⟨fun _ => .ok [], fun _ _ theirs => .ok (some theirs), fun _ => .ok "e69de29"⟩
    ((∅ : BTreeMap String Object).insert "home/a" ("100644", "1"))
    { files := (∅ : BTreeMap String Object).insert "home/a" ("100644", "2") }
    ((∅ : SyncState).insert "home/a" (({} : SyncRecord).settle (some ("100644", "1")))) ∅
    [{ branchPath := "home/a"
       apply := some (some ("100644", "2"))
       next := { ({} : SyncRecord).settle (some ("100644", "1")) with
         reconciled := some ("100644", "2") } }]
    (by decide +kernel) _ (List.mem_singleton.2 rfl)
  simpa using h

end Mise.Sync
