/-
# Provenance baselines

An upgrade whose provenance is not verified yet is compared with a prior entry
that has provenance, its baseline: `find_provenance_regression_baseline` in
`src/lockfile.rs`, the highest prior version of the same backend.  Once the
upgrade has provenance of its own, `prune_verified_provenance_baselines` drops
the baseline, pass after pass, unless a request resolves to it or another entry
still waits on it.

An entry is dropped by its version and options, and with it every entry that
shares them, whatever its backend.  `Prunable` says of a list which entries the loop
comes to, without running it.  Where none of them shares its version and options with
another entry, all that is dropped are baselines; the sharing is harmless only with an
entry of another `github:` backend that is a baseline of its own at that pass.

Parsing a version is a parameter (`nodejs_semver::Version::parse`).
-/

import Mise.Lib.LastMax
import Mise.Lockfile.Basic
import Mathlib.Logic.Relation

namespace Mise

open Lib

variable {V : Type} [LinearOrder V] (parse : String → Option V)
  (requested : BTreeSet String) (platformKey : String)

/-! ### Baselines -/

/-- `strip_leading_v`. -/
def stripLeadingV (version : String) : String :=
  match version.toList with
  | v :: d :: rest => if (v = 'v' ∨ v = 'V') ∧ d.isDigit then String.ofList (d :: rest) else version
  | _ => version

/-- `parse_provenance_version`. -/
def parseProvenanceVersion (version : String) : Option V := parse (stripLeadingV version)

/-- Whether an entry has provenance on the platform, `verified_here`. -/
def verifiedHere (tool : LockfileTool) : Bool :=
  tool.platforms[platformKey]?.any fun info => info.provenance.isSome

/-- The prior versions `find_provenance_regression_baseline` goes through. -/
def priorVersions (tools : List LockfileTool) (version backend : String) :
    List (V × LockfileTool) :=
  (((tools.filter (·.version ≠ version)).filter (·.backend = some backend)).filter
    (verifiedHere platformKey)).filterMap fun t =>
      (parseProvenanceVersion parse t.version).map (·, t)

/-- `find_provenance_regression_baseline`. -/
def findProvenanceRegressionBaseline (existingTools : Option (List LockfileTool))
    (version backend : String) (newProvenance : Option ProvenanceType) : Option LockfileTool :=
  if newProvenance.isSome ∨ ¬ backend.startsWith "github:" then none
  else do
    let tools ← existingTools
    let newVersion ← parseProvenanceVersion parse version
    let prior ← lastMax Prod.fst (priorVersions parse platformKey tools version backend)
    -- only upgrades are flagged
    if newVersion ≤ prior.1 then none else some prior.2

/-- `baseline_of`. -/
def baselineOf (tools : List LockfileTool) (tool : LockfileTool) : Option LockfileTool :=
  findProvenanceRegressionBaseline parse platformKey (some tools) tool.version
    (tool.backend.getD "") none

/-! ### Pruning -/

/-- `stale`, in one pass of `prune_verified_provenance_baselines`. -/
def staleBaseline (tools : List LockfileTool) : Option LockfileToolKey :=
  let requestedTools := tools.filter (requested.contains ·.version)
  let keyOf := fun tool => (baselineOf parse platformKey tools tool).map LockfileTool.key
  let stillNeeded := (requestedTools.filter (¬ verifiedHere platformKey ·)).filterMap keyOf
  ((requestedTools.filter (verifiedHere platformKey)).filterMap keyOf).find? fun key =>
    ¬ requested.contains key.1 ∧ key ∉ stillNeeded

/-- What `retain` leaves. -/
def retainOthers (key : LockfileToolKey) (tools : List LockfileTool) : List LockfileTool :=
  tools.filter fun tool => tool.version ≠ key.1 ∨ tool.options ≠ key.2

section Basics

variable {parse requested platformKey} {tools : List LockfileTool} {key : LockfileToolKey}

theorem mem_retainOthers {E : LockfileTool} :
    E ∈ retainOthers key tools ↔ E ∈ tools ∧ E.key ≠ key := by
  rw [retainOthers, List.mem_filter, decide_eq_true_eq, ← not_and_or]
  exact and_congr_right fun _ => not_congr (@Prod.ext_iff _ _ E.key key).symm

/-- What makes an entry a baseline: it is a prior version, last among the
highest, and lower than the version it is compared with. -/
theorem baselineOf_eq_some_iff {U B : LockfileTool} :
    baselineOf parse platformKey tools U = some B ↔
      (U.backend.getD "").startsWith "github:" = true ∧
      ∃ new prior, parseProvenanceVersion parse U.version = some new ∧
        lastMax Prod.fst (priorVersions parse platformKey tools U.version (U.backend.getD "")) =
          some (prior, B) ∧ prior < new := by
  rw [baselineOf, findProvenanceRegressionBaseline, Option.isSome_none]
  by_cases hgithub : (U.backend.getD "").startsWith "github:" = true
  · rw [if_neg (not_or.2 ⟨Bool.false_ne_true, not_not.2 hgithub⟩)]
    simp only [Option.bind_eq_bind, Option.bind_some, Option.bind_eq_some_iff, hgithub, true_and,
      Prod.exists]
    constructor
    · rintro ⟨new, hnew, prior, prior', hlast, hif⟩
      split_ifs at hif with hle
      obtain rfl := Option.some.inj hif
      exact ⟨new, prior, hnew, hlast, not_le.1 hle⟩
    · rintro ⟨new, prior, hnew, hlast, hlt⟩
      exact ⟨new, hnew, prior, B, hlast, if_neg (not_le.2 hlt)⟩
  · rw [if_pos (.inr hgithub)]
    exact iff_of_false nofun fun h => hgithub h.1

omit [LinearOrder V] in
theorem mem_priorVersions {version backend : String} {v : V} {t : LockfileTool} :
    (v, t) ∈ priorVersions parse platformKey tools version backend ↔
      t ∈ tools ∧ t.version ≠ version ∧ t.backend = some backend ∧
        verifiedHere platformKey t = true ∧ parseProvenanceVersion parse t.version = some v := by
  simp only [priorVersions, List.mem_filterMap, List.mem_filter, decide_eq_true_eq,
    Option.map_eq_some_iff, Prod.mk.injEq]
  constructor
  · rintro ⟨t, ⟨⟨⟨ht, hversion⟩, hbackend⟩, hhere⟩, v, hv, rfl, rfl⟩
    exact ⟨ht, hversion, hbackend, hhere, hv⟩
  · rintro ⟨ht, hversion, hbackend, hhere, hv⟩
    exact ⟨t, ⟨⟨⟨ht, hversion⟩, hbackend⟩, hhere⟩, v, hv, rfl, rfl⟩

omit [LinearOrder V] in
theorem priorVersions_retainOthers {version backend : String} :
    priorVersions parse platformKey (retainOthers key tools) version backend =
      (priorVersions parse platformKey tools version backend).filter fun e => e.2.key ≠ key := by
  have hkeep : ∀ t : LockfileTool, decide (t.version ≠ key.1 ∨ t.options ≠ key.2) =
      decide (t.key ≠ key) := fun t =>
    decide_eq_decide.2 (not_and_or.symm.trans (not_congr (@Prod.ext_iff _ _ t.key key).symm))
  have hcomm : ∀ (p : LockfileTool → Bool) (l : List LockfileTool),
      (l.filter fun t => t.key ≠ key).filter p = (l.filter p).filter fun t => t.key ≠ key :=
    fun p l => by rw [List.filter_filter, List.filter_filter]; simp only [Bool.and_comm]
  simp only [priorVersions, retainOthers, hkeep]
  rw [hcomm, hcomm, hcomm, List.filterMap_filter, List.filter_filterMap]
  refine List.filterMap_congr fun t _ => ?_
  cases parseProvenanceVersion parse t.version with
  | none => simp
  | some v => simp [Option.filter]

/-- **What a stale key is the key of.** -/
theorem staleBaseline_spec (h : staleBaseline parse requested platformKey tools = some key) :
    requested.contains key.1 = false ∧
      (∃ T ∈ tools, requested.contains T.version = true ∧ verifiedHere platformKey T = true ∧
        ∃ B, baselineOf parse platformKey tools T = some B ∧ B.key = key) ∧
      ∀ U ∈ tools, requested.contains U.version = true → verifiedHere platformKey U = false →
        ∀ B, baselineOf parse platformKey tools U = some B → B.key ≠ key := by
  have hmem := List.mem_of_find?_eq_some h
  have hfound := List.find?_some h
  simp only [decide_eq_true_eq] at hfound
  refine ⟨Bool.eq_false_iff.2 hfound.1, ?_, fun U hU hrequested hhere B hB hkey => ?_⟩
  · obtain ⟨T, hT, hkey⟩ := List.mem_filterMap.1 hmem
    obtain ⟨hT, hhere⟩ := List.mem_filter.1 hT
    obtain ⟨hT, hrequested⟩ := List.mem_filter.1 hT
    obtain ⟨B, hB, hBkey⟩ := Option.map_eq_some_iff.1 hkey
    exact ⟨T, hT, hrequested, hhere, B, hB, hBkey⟩
  · refine hfound.2 (List.mem_filterMap.2 ⟨U, List.mem_filter.2 ⟨List.mem_filter.2
      ⟨hU, hrequested⟩, ?_⟩, Option.map_eq_some_iff.2 ⟨B, hB, hkey⟩⟩)
    rw [hhere]
    rfl

theorem mem_of_baselineOf {U B : LockfileTool}
    (h : baselineOf parse platformKey tools U = some B) : B ∈ tools := by
  obtain ⟨-, new, prior, -, hlast, -⟩ := baselineOf_eq_some_iff.1 h
  exact (mem_priorVersions.1 (isLastMax_of_lastMax hlast).mem).1

/-- A pass leaves fewer entries. -/
theorem length_retainOthers_lt (h : staleBaseline parse requested platformKey tools = some key) :
    (retainOthers key tools).length < tools.length := by
  obtain ⟨-, ⟨T, -, -, -, B, hB, rfl⟩, -⟩ := staleBaseline_spec h
  refine lt_of_le_of_ne (List.length_filter_le _ _) fun hlen => ?_
  have hall := List.length_filter_eq_length_iff.1 hlen B (mem_of_baselineOf hB)
  have hmem : B ∈ retainOthers B.key tools := List.mem_filter.2 ⟨mem_of_baselineOf hB, hall⟩
  exact (mem_retainOthers.1 hmem).2 rfl

end Basics

/-- `prune_verified_provenance_baselines`: the versions pruned, and the entries
left. -/
def pruneVerifiedProvenanceBaselines (tools : List LockfileTool) :
    List String × List LockfileTool :=
  match _h : staleBaseline parse requested platformKey tools with
  | none => ([], tools)
  | some key =>
    let rest := pruneVerifiedProvenanceBaselines (retainOthers key tools)
    (key.1 :: rest.1, rest.2)
termination_by tools.length
decreasing_by exact length_retainOthers_lt ‹_›

/-! ### Passes -/

/-- One pass that drops something. -/
def Pass (tools tools' : List LockfileTool) : Prop :=
  ∃ key, staleBaseline parse requested platformKey tools = some key ∧
    tools' = retainOthers key tools

/-- The entries left by some passes. -/
abbrev Passes : List LockfileTool → List LockfileTool → Prop :=
  Relation.ReflTransGen (Pass parse requested platformKey)

/-- An entry is the baseline of a requested entry that has provenance. -/
def IsVerifiedBaseline (tools : List LockfileTool) (E : LockfileTool) : Prop :=
  ∃ T ∈ tools, requested.contains T.version = true ∧ verifiedHere platformKey T = true ∧
    baselineOf parse platformKey tools T = some E

/-- What pruning may do. -/
structure PrunedSafely (tools : List LockfileTool) : Prop where
  /-- The loop ends, after passes that each drop something. -/
  ends : Passes parse requested platformKey tools
      (pruneVerifiedProvenanceBaselines parse requested platformKey tools).2 ∧
    staleBaseline parse requested platformKey
      (pruneVerifiedProvenanceBaselines parse requested platformKey tools).2 = none
  /-- Entries are only left out, and none whose version is requested. -/
  unrequested : (pruneVerifiedProvenanceBaselines parse requested platformKey tools).2.Sublist
      tools ∧
    ∀ E ∈ tools, requested.contains E.version = true →
      E ∈ (pruneVerifiedProvenanceBaselines parse requested platformKey tools).2
  /-- What a pass drops was the baseline of a requested entry with provenance. -/
  dropped : ∀ s s', Passes parse requested platformKey tools s →
    Pass parse requested platformKey s s' → ∀ E ∈ s, E ∉ s' →
      IsVerifiedBaseline parse requested platformKey s E
  /-- A requested entry without provenance keeps its baseline, and gets none. -/
  waiting : ∀ U ∈ tools, requested.contains U.version = true → verifiedHere platformKey U = false →
    baselineOf parse platformKey
        (pruneVerifiedProvenanceBaselines parse requested platformKey tools).2 U =
      baselineOf parse platformKey tools U

section Run

variable {parse requested platformKey} {tools s s' : List LockfileTool} {U : LockfileTool}

/-- The loop is a run of passes to where none is left. -/
theorem passes_prune (tools : List LockfileTool) :
    Passes parse requested platformKey tools
        (pruneVerifiedProvenanceBaselines parse requested platformKey tools).2 ∧
      staleBaseline parse requested platformKey
        (pruneVerifiedProvenanceBaselines parse requested platformKey tools).2 = none := by
  fun_induction pruneVerifiedProvenanceBaselines parse requested platformKey tools with
  | case1 tools hnone => exact ⟨.refl, hnone⟩
  | case2 tools key hkey rest ih => exact ⟨.head ⟨key, hkey, rfl⟩ ih.1, ih.2⟩

theorem sublist_of_passes (h : Passes parse requested platformKey tools s) : s.Sublist tools := by
  induction h with
  | refl => exact List.Sublist.refl _
  | tail _ hpass ih =>
    obtain ⟨key, -, rfl⟩ := hpass
    exact List.filter_sublist.trans ih

theorem mem_of_passes (h : Passes parse requested platformKey tools s) {E : LockfileTool}
    (hE : E ∈ tools) (hrequested : requested.contains E.version = true) : E ∈ s := by
  induction h with
  | refl => exact hE
  | tail _ hpass ih =>
    obtain ⟨key, hstale, rfl⟩ := hpass
    refine mem_retainOthers.2 ⟨ih, ?_⟩
    rintro rfl
    exact nomatch hrequested.symm.trans (staleBaseline_spec hstale).1

/-- A baseline that stays is still found. -/
theorem baselineOf_retainOthers {key : LockfileToolKey}
    (h : ∀ v B, lastMax Prod.fst (priorVersions parse platformKey tools U.version
      (U.backend.getD "")) = some (v, B) → B.key ≠ key) :
    baselineOf parse platformKey (retainOthers key tools) U =
      baselineOf parse platformKey tools U := by
  have hlast : lastMax Prod.fst (priorVersions parse platformKey (retainOthers key tools)
      U.version (U.backend.getD "")) =
      lastMax Prod.fst (priorVersions parse platformKey tools U.version (U.backend.getD "")) := by
    rw [priorVersions_retainOthers]
    exact lastMax_filter fun e he => decide_eq_true (h e.1 e.2 he)
  simp only [baselineOf, findProvenanceRegressionBaseline, Option.bind_eq_bind, Option.bind_some,
    hlast]

/-- An entry that waits on a baseline still finds it after a pass. -/
theorem baselineOf_pass_of_some (hpass : Pass parse requested platformKey s s') (hU : U ∈ s)
    (hrequested : requested.contains U.version = true) (hhere : verifiedHere platformKey U = false)
    {B : LockfileTool} (hB : baselineOf parse platformKey s U = some B) :
    baselineOf parse platformKey s' U = some B := by
  obtain ⟨key, hstale, rfl⟩ := hpass
  rw [← hB]
  refine baselineOf_retainOthers fun v B' hlast => ?_
  obtain ⟨-, new, prior, -, hlast', -⟩ := baselineOf_eq_some_iff.1 hB
  obtain ⟨rfl, rfl⟩ := Prod.mk.inj (Option.some.inj (hlast'.symm.trans hlast))
  exact (staleBaseline_spec hstale).2.2 U hU hrequested hhere B hB

/-- **An entry that waits on none finds none after a pass that drops baselines
alone.**  What was dropped below a requested version left that version in place. -/
theorem baselineOf_pass_of_baselines (hpass : Pass parse requested platformKey s s')
    (hdropped : ∀ E ∈ s, E ∉ s' → IsVerifiedBaseline parse requested platformKey s E)
    (hU : U ∈ s) (hrequested : requested.contains U.version = true)
    (hhere : verifiedHere platformKey U = false) :
    baselineOf parse platformKey s' U = baselineOf parse platformKey s U := by
  obtain ⟨key, hstale, rfl⟩ := hpass
  refine baselineOf_retainOthers fun v B hlast hkey => ?_
  have hgreatest := isLastMax_of_lastMax hlast
  obtain ⟨hB, hversion, hbackend, -, hv⟩ := mem_priorVersions.1 hgreatest.mem
  -- it was dropped as the baseline of an entry of the same backend
  obtain ⟨T, hT, hTrequested, hThere, hTB⟩ :=
    hdropped B hB fun hmem => (mem_retainOthers.1 hmem).2 hkey
  obtain ⟨hgithub, new, prior, hnew, hTlast, hlt⟩ := baselineOf_eq_some_iff.1 hTB
  obtain ⟨-, -, hTbackend, -, hprior⟩ := mem_priorVersions.1 (isLastMax_of_lastMax hTlast).mem
  obtain rfl := Option.some.inj (hv.symm.trans hprior)
  have hsame : T.backend.getD "" = U.backend.getD "" :=
    Option.some.inj (hTbackend.symm.trans hbackend)
  by_cases hTU : T.version = U.version
  · -- the two wait on the same baseline, which is not stale then
    have hUB : baselineOf parse platformKey s U = some B := by
      rw [baselineOf, ← hTU, ← hsame]
      exact hTB
    exact (staleBaseline_spec hstale).2.2 U hU hrequested hhere B hUB hkey
  · -- the verified version is above what was thought to be the highest
    have hTprior : (new, T) ∈ priorVersions parse platformKey s U.version (U.backend.getD "") := by
      refine mem_priorVersions.2 ⟨hT, hTU, ?_, hThere, hnew⟩
      cases hTback : T.backend with
      | none => rw [hTback] at hgithub; exact absurd hgithub (by decide)
      | some b => rw [← hsame, hTback]; rfl
    exact (hgreatest.le hTprior).not_gt hlt

/-- Over passes that drop baselines alone, all that is waited on stays the same. -/
theorem baselineOf_passes
    (hdropped : ∀ s s', Passes parse requested platformKey tools s →
      Pass parse requested platformKey s s' → ∀ E ∈ s, E ∉ s' →
        IsVerifiedBaseline parse requested platformKey s E)
    (h : Passes parse requested platformKey tools s) (hU : U ∈ tools)
    (hrequested : requested.contains U.version = true)
    (hhere : verifiedHere platformKey U = false) :
    baselineOf parse platformKey s U = baselineOf parse platformKey tools U := by
  induction h with
  | refl => rfl
  | tail hbefore hpass ih =>
    rw [← ih]
    exact baselineOf_pass_of_baselines hpass (hdropped _ _ hbefore hpass)
      (mem_of_passes hbefore hU hrequested) hrequested hhere

/-- Over any passes, what an entry waits on stays. -/
theorem baselineOf_passes_of_some (h : Passes parse requested platformKey tools s)
    (hU : U ∈ tools) (hrequested : requested.contains U.version = true)
    (hhere : verifiedHere platformKey U = false) {B : LockfileTool}
    (hB : baselineOf parse platformKey tools U = some B) :
    baselineOf parse platformKey s U = some B := by
  induction h with
  | refl => exact hB
  | tail hbefore hpass ih =>
    exact baselineOf_pass_of_some hpass (mem_of_passes hbefore hU hrequested) hrequested hhere ih

/-- Pruning is safe if it drops baselines alone. -/
theorem prunedSafely_of_dropped
    (hdropped : ∀ s s', Passes parse requested platformKey tools s →
      Pass parse requested platformKey s s' → ∀ E ∈ s, E ∉ s' →
        IsVerifiedBaseline parse requested platformKey s E) :
    PrunedSafely parse requested platformKey tools := by
  have hpasses := @passes_prune _ _ parse requested platformKey tools
  exact ⟨hpasses, ⟨sublist_of_passes hpasses.1, fun E => mem_of_passes hpasses.1⟩, hdropped,
    fun U hU => baselineOf_passes hdropped hpasses.1 hU⟩

end Run

/-! ### What the loop comes to -/

/-- A key that no request resolves to, and on which no requested entry without
provenance waits. -/
def UnneededKey (tools : List LockfileTool) (key : LockfileToolKey) : Prop :=
  requested.contains key.1 = false ∧
    ∀ U ∈ tools, requested.contains U.version = true → verifiedHere platformKey U = false →
      ∀ B, baselineOf parse platformKey tools U = some B → B.key ≠ key

/-- A requested entry with provenance of the entry's own backend is above it. -/
def Guarded (tools : List LockfileTool) (E : LockfileTool) : Prop :=
  ∃ T ∈ tools, requested.contains T.version = true ∧ verifiedHere platformKey T = true ∧
    (T.backend.getD "").startsWith "github:" = true ∧ T.backend = E.backend ∧
    ∃ t v, parseProvenanceVersion parse T.version = some t ∧
      parseProvenanceVersion parse E.version = some v ∧ v < t

/-- An unneeded entry that comes up as the baseline of a requested entry with
provenance: what ranks before it, by version and then by place, is unneeded and below
the requested entry too. -/
def Prunable (tools : List LockfileTool) (B : LockfileTool) : Prop :=
  UnneededKey parse requested platformKey tools B.key ∧
    ∃ T ∈ tools, requested.contains T.version = true ∧ verifiedHere platformKey T = true ∧
      (T.backend.getD "").startsWith "github:" = true ∧
      ∃ t v before after, parseProvenanceVersion parse T.version = some t ∧ v < t ∧
        priorVersions parse platformKey tools T.version (T.backend.getD "") =
          before ++ (v, B) :: after ∧
        (∀ e ∈ before, v < e.1 →
          e.1 < t ∧ UnneededKey parse requested platformKey tools e.2.key) ∧
        ∀ e ∈ after, v ≤ e.1 →
          e.1 < t ∧ UnneededKey parse requested platformKey tools e.2.key

/-- No entry that the loop comes to shares its version and options with another. -/
def Unshared (tools : List LockfileTool) : Prop :=
  ∀ B ∈ tools, Prunable parse requested platformKey tools B → ∀ E ∈ tools, E.key = B.key → E = B

/-- The entries that are left when the keys have been found. -/
structure LeftOf (tools s : List LockfileTool) (keys : List LockfileToolKey) : Prop where
  mem : ∀ E, E ∈ s ↔ E ∈ tools ∧ E.key ∉ keys
  prior : ∀ version backend, priorVersions parse platformKey s version backend =
    (priorVersions parse platformKey tools version backend).filter fun e => e.2.key ∉ keys

/-- Only what is guarded and unneeded has gone. -/
def OnlyUnneeded (tools : List LockfileTool) (keys : List LockfileToolKey) : Prop :=
  ∀ E ∈ tools, E.key ∈ keys → UnneededKey parse requested platformKey tools E.key ∧
    Guarded parse requested platformKey tools E

section Reached

variable {parse requested platformKey} {tools s s' : List LockfileTool} {B E T U : LockfileTool}
  {key : LockfileToolKey} {keys : List LockfileToolKey}

theorem backend_of_github (h : (T.backend.getD "").startsWith "github:" = true) :
    T.backend = some (T.backend.getD "") := by
  cases hT : T.backend with
  | none =>
    rw [hT] at h
    exact absurd h (by decide)
  | some b => rfl

omit [LinearOrder V] in
theorem leftOf_refl : LeftOf parse platformKey tools tools [] where
  mem E := by simp
  prior version backend := by simp

omit [LinearOrder V] in
theorem LeftOf.retainOthers (h : LeftOf parse platformKey tools s keys)
    (key : LockfileToolKey) :
    LeftOf parse platformKey tools (retainOthers key s)
      (key :: keys) where
  mem E := by
    rw [mem_retainOthers, h.mem, List.mem_cons, not_or]
    exact ⟨fun h => ⟨h.1.1, h.2, h.1.2⟩, fun h => ⟨⟨h.1, h.2.2⟩, h.2.1⟩⟩
  prior version backend := by
    rw [priorVersions_retainOthers, h.prior, List.filter_filter]
    simp only [List.mem_cons, not_or, Bool.decide_and, decide_not]

/-- Passes leave what is without the keys they found. -/
theorem exists_leftOf (h : Passes parse requested platformKey tools s) :
    ∃ keys, LeftOf parse platformKey tools s keys := by
  induction h with
  | refl => exact ⟨[], leftOf_refl⟩
  | tail _ hpass ih =>
    obtain ⟨keys, hleft⟩ := ih
    obtain ⟨key, -, rfl⟩ := hpass
    exact ⟨key :: keys, hleft.retainOthers key⟩

/-- A key that is stale after some passes was unneeded all along. -/
theorem unneededKey_of_stale (hpasses : Passes parse requested platformKey tools s)
    (hstale : staleBaseline parse requested platformKey s = some key) :
    UnneededKey parse requested platformKey tools key := by
  obtain ⟨hrequested, -, hwaiting⟩ := staleBaseline_spec hstale
  refine ⟨hrequested, fun U hU hUrequested hhere B hB => ?_⟩
  exact hwaiting U (mem_of_passes hpasses hU hUrequested) hUrequested hhere B
    (baselineOf_passes_of_some hpasses hU hUrequested hhere hB)

/-- A baseline of a requested entry with provenance is guarded by that entry. -/
theorem Guarded.of_isVerifiedBaseline (hpasses : Passes parse requested platformKey tools s)
    (h : IsVerifiedBaseline parse requested platformKey s B) :
    Guarded parse requested platformKey tools B := by
  obtain ⟨T, hT, hrequested, hhere, hB⟩ := h
  obtain ⟨hgithub, t, v, ht, hlast, hlt⟩ := baselineOf_eq_some_iff.1 hB
  obtain ⟨-, -, hbackend, -, hv⟩ := mem_priorVersions.1 (isLastMax_of_lastMax hlast).mem
  exact ⟨T, (sublist_of_passes hpasses).subset hT, hrequested, hhere, hgithub,
    (backend_of_github hgithub).trans hbackend.symm, t, v, ht, hv, hlt⟩

/-- What ranks before a baseline has gone, below the entry it is the baseline of. -/
theorem below_of_gone (hpasses : Passes parse requested platformKey tools s)
    (honly : OnlyUnneeded parse requested platformKey tools keys) {t v : V} {e : V × LockfileTool}
    (ht : parseProvenanceVersion parse T.version = some t)
    (hlast : IsLastMax Prod.fst
      (priorVersions parse platformKey s T.version (T.backend.getD "")) (v, B)) (hlt : v < t)
    (he : e ∈ priorVersions parse platformKey tools T.version (T.backend.getD ""))
    (hgone : e.2.key ∈ keys) :
    e.1 < t ∧ UnneededKey parse requested platformKey tools e.2.key := by
  obtain ⟨hE, -, hbackend, -, hversion⟩ := mem_priorVersions.1 he
  obtain ⟨hunneeded, T', hT', hrequested, hhere, -, hback, t', v', ht', hv', hlt'⟩ :=
    honly e.2 hE hgone
  obtain rfl := Option.some.inj (hv'.symm.trans hversion)
  refine ⟨not_le.1 fun hle => ?_, hunneeded⟩
  -- its guard would be above `T`, and the baseline of `T` above the guard
  have hne : T'.version ≠ T.version := by
    intro heq
    rw [heq, ht] at ht'
    obtain rfl := Option.some.inj ht'
    exact (hle.trans_lt hlt').false
  have hguard : (t', T') ∈ priorVersions parse platformKey s T.version (T.backend.getD "") :=
    mem_priorVersions.2 ⟨mem_of_passes hpasses hT' hrequested, hne, hback.trans hbackend, hhere,
      ht'⟩
  have hle' : t' ≤ v := hlast.le hguard
  exact (hle.trans_lt (hlt'.trans_le hle')).not_gt hlt

/-- **The baseline a pass finds is prunable.** -/
theorem exists_prunable (hpasses : Passes parse requested platformKey tools s)
    (hleft : LeftOf parse platformKey tools s keys)
    (honly : OnlyUnneeded parse requested platformKey tools keys) (hstale : staleBaseline parse requested platformKey s = some key) :
    ∃ B, IsVerifiedBaseline parse requested platformKey s B ∧ B.key = key ∧
      Prunable parse requested platformKey tools B := by
  obtain ⟨-, ⟨T, hT, hrequested, hhere, B, hB, rfl⟩, -⟩ := staleBaseline_spec hstale
  refine ⟨B, ⟨T, hT, hrequested, hhere, hB⟩, rfl, unneededKey_of_stale hpasses hstale, T,
    (sublist_of_passes hpasses).subset hT, hrequested, hhere, ?_⟩
  obtain ⟨hgithub, t, v, ht, hlast, hlt⟩ := baselineOf_eq_some_iff.1 hB
  have hgreatest := isLastMax_of_lastMax hlast
  obtain ⟨before', after', heq, hbefore, hafter⟩ := hgreatest
  rw [hleft.prior] at heq
  obtain ⟨before, rest, hsplit, rfl, hrest⟩ := List.filter_eq_append_iff.1 heq
  obtain ⟨skipped, after, rfl, hskipped, -, rfl⟩ := List.filter_eq_cons_iff.1 hrest
  have hgone : ∀ e ∈ priorVersions parse platformKey tools T.version (T.backend.getD ""),
      e.2.key ∈ keys → e.1 < t ∧ UnneededKey parse requested platformKey tools e.2.key :=
    fun e => below_of_gone hpasses honly ht (isLastMax_of_lastMax hlast) hlt
  refine ⟨hgithub, t, v, before ++ skipped, after, ht, hlt, by rw [hsplit, List.append_assoc],
    fun e he hve => hgone e ?_ ?_, fun e he hve => hgone e ?_ ?_⟩
  · rw [hsplit, ← List.append_assoc]
    exact List.mem_append_left _ he
  · -- what is left before the baseline is not above it
    by_contra hkept
    rcases List.mem_append.1 he with he | he
    · exact (hbefore e (List.mem_filter.2 ⟨he, decide_eq_true hkept⟩)).not_gt hve
    · exact hskipped e he (decide_eq_true hkept)
  · rw [hsplit]
    exact List.mem_append_right _ (List.mem_append_right _ (List.mem_cons_of_mem _ he))
  · -- what is left behind it is below it
    by_contra hkept
    exact (hafter e (List.mem_filter.2 ⟨he, decide_eq_true hkept⟩)).not_ge hve

/-- Where nothing prunable shares its key, passes drop only what is unneeded. -/
theorem exists_onlyUnneeded (hunshared : Unshared parse requested platformKey tools)
    (h : Passes parse requested platformKey tools s) :
    ∃ keys, LeftOf parse platformKey tools s keys ∧
      OnlyUnneeded parse requested platformKey tools keys := by
  induction h with
  | refl => exact ⟨[], leftOf_refl, fun E _ hE => absurd hE List.not_mem_nil⟩
  | tail hpasses hpass ih =>
    obtain ⟨keys, hleft, honly⟩ := ih
    obtain ⟨key, hstale, rfl⟩ := hpass
    obtain ⟨B, hB, rfl, hprunable⟩ := exists_prunable hpasses hleft honly hstale
    have hBmem : B ∈ tools := by
      obtain ⟨T, -, -, -, hTB⟩ := hB
      exact (sublist_of_passes hpasses).subset (mem_of_baselineOf hTB)
    refine ⟨B.key :: keys, hleft.retainOthers B.key, fun E hE hkey => ?_⟩
    rcases List.mem_cons.1 hkey with hkey | hkey
    · rw [hunshared B hBmem hprunable E hE hkey]
      exact ⟨hprunable.1, .of_isVerifiedBaseline hpasses hB⟩
    · exact honly E hE hkey

/-- **Pruning is safe where nothing prunable shares its key.** -/
theorem prunedSafely_of_unshared (hunshared : Unshared parse requested platformKey tools) :
    PrunedSafely parse requested platformKey tools := by
  refine prunedSafely_of_dropped fun s s' hpasses hpass E hE hE' => ?_
  obtain ⟨keys, hleft, honly⟩ := exists_onlyUnneeded hunshared hpasses
  obtain ⟨key, hstale, rfl⟩ := hpass
  obtain ⟨B, hB, rfl, hprunable⟩ := exists_prunable hpasses hleft honly hstale
  have hsub := sublist_of_passes hpasses
  have hkey : E.key = B.key := by
    by_contra hne
    exact hE' (mem_retainOthers.2 ⟨hE, hne⟩)
  have hBmem : B ∈ tools := by
    obtain ⟨T, -, -, -, hTB⟩ := hB
    exact hsub.subset (mem_of_baselineOf hTB)
  rwa [hunshared B hBmem hprunable E (hsub.subset hE) hkey]

/-! ### Where something prunable shares its key -/

/-- A stale baseline is what the passes end without. -/
theorem staleBaseline_ne_none (hT : T ∈ s) (hrequested : requested.contains T.version = true)
    (hhere : verifiedHere platformKey T = true) (hB : baselineOf parse platformKey s T = some B)
    (hunneeded : UnneededKey parse requested platformKey s B.key) :
    staleBaseline parse requested platformKey s ≠ none := by
  intro hnone
  rw [staleBaseline, List.find?_eq_none] at hnone
  have hmem : B.key ∈ ((s.filter (requested.contains ·.version)).filter
      (verifiedHere platformKey)).filterMap fun tool =>
        (baselineOf parse platformKey s tool).map LockfileTool.key :=
    List.mem_filterMap.2 ⟨T, List.mem_filter.2 ⟨List.mem_filter.2 ⟨hT, hrequested⟩, hhere⟩,
      Option.map_eq_some_iff.2 ⟨B, hB, rfl⟩⟩
  refine hnone B.key hmem (decide_eq_true ⟨?_, fun hneeded => ?_⟩)
  · rw [hunneeded.1]
    exact Bool.false_ne_true
  · obtain ⟨U, hU, hkey⟩ := List.mem_filterMap.1 hneeded
    obtain ⟨hU, hUhere⟩ := List.mem_filter.1 hU
    obtain ⟨hU, hUrequested⟩ := List.mem_filter.1 hU
    obtain ⟨C, hC, hCkey⟩ := Option.map_eq_some_iff.1 hkey
    refine hunneeded.2 U hU hUrequested ?_ C hC hCkey
    simpa using hUhere

/-- What passes that drop baselines alone leave unneeded was unneeded before. -/
theorem UnneededKey.of_passes (hsafe : PrunedSafely parse requested platformKey tools)
    (hpasses : Passes parse requested platformKey tools s)
    (h : UnneededKey parse requested platformKey tools key) :
    UnneededKey parse requested platformKey s key := by
  refine ⟨h.1, fun U hU hrequested hhere B hB => ?_⟩
  have hUtools := (sublist_of_passes hpasses).subset hU
  rw [baselineOf_passes hsafe.dropped hpasses hUtools hrequested hhere] at hB
  exact h.2 U hUtools hrequested hhere B hB

/-- **The loop does come to what is prunable.** -/
theorem gone_of_prunable (hsafe : PrunedSafely parse requested platformKey tools)
    (hprunable : Prunable parse requested platformKey tools B) :
    B ∉ (pruneVerifiedProvenanceBaselines parse requested platformKey tools).2 := by
  obtain ⟨hpasses, hends⟩ := hsafe.ends
  obtain ⟨keys, hleft⟩ := exists_leftOf hpasses
  intro hmem
  obtain ⟨hunneeded, T, hT, hrequested, hhere, hgithub, t, v, before, after, ht, hlt, hsplit,
    hbefore, hafter⟩ := hprunable
  have hTleft := mem_of_passes hpasses hT hrequested
  have hkept : B.key ∉ keys := ((hleft.mem B).1 hmem).2
  have hprior : priorVersions parse platformKey
      (pruneVerifiedProvenanceBaselines parse requested platformKey tools).2 T.version
        (T.backend.getD "") = before.filter (fun e => e.2.key ∉ keys) ++
          (v, B) :: after.filter fun e => e.2.key ∉ keys := by
    rw [hleft.prior, hsplit, List.filter_append, List.filter_cons_of_pos]
    exact decide_eq_true hkept
  obtain ⟨C, hC⟩ : ∃ C, lastMax Prod.fst (priorVersions parse platformKey
      (pruneVerifiedProvenanceBaselines parse requested platformKey tools).2 T.version
        (T.backend.getD "")) = some C := by
    refine Option.ne_none_iff_exists'.1 fun hnone => ?_
    rw [lastMax_eq_none_iff, hprior] at hnone
    exact nomatch (List.append_eq_nil_iff.1 hnone).2
  have hgreatest := isLastMax_of_lastMax hC
  have hle : v ≤ C.1 := hgreatest.le (y := (v, B)) (by rw [hprior]; simp)
  -- whatever is the greatest now is below `T` and unneeded
  have hfound : C.1 < t ∧ UnneededKey parse requested platformKey tools C.2.key := by
    rw [hprior] at hgreatest
    rcases hgreatest.of_append with hin | ⟨hin, habove⟩
    · rcases List.mem_cons.1 hin with rfl | hin
      · exact ⟨hlt, hunneeded⟩
      · exact hafter C (List.mem_filter.1 hin).1 hle
    · exact hbefore C (List.mem_filter.1 hin).1 (habove (v, B) List.mem_cons_self)
  have hbaseline : baselineOf parse platformKey
      (pruneVerifiedProvenanceBaselines parse requested platformKey tools).2 T = some C.2 :=
    baselineOf_eq_some_iff.2 ⟨hgithub, t, C.1, ht, hC, hfound.1⟩
  exact staleBaseline_ne_none hTleft hrequested hhere hbaseline
    (hfound.2.of_passes hsafe hpasses) hends

/-- What is gone was dropped by a pass. -/
theorem exists_pass_of_gone (hpasses : Passes parse requested platformKey tools s')
    (hB : B ∈ tools) (hgone : B ∉ s') :
    ∃ s, Passes parse requested platformKey tools s ∧
      staleBaseline parse requested platformKey s = some B.key ∧
      ∀ E ∈ tools, E.key = B.key → E ∈ s := by
  induction hpasses with
  | refl => exact absurd hB hgone
  | tail hbefore hpass ih =>
    rename_i s s'
    by_cases hmem : B ∈ s
    · obtain ⟨key, hstale, rfl⟩ := hpass
      have hkey : B.key = key := by
        by_contra hne
        exact hgone (mem_retainOthers.2 ⟨hmem, hne⟩)
      obtain ⟨keys, hleft⟩ := exists_leftOf hbefore
      refine ⟨s, hbefore, hkey ▸ hstale, fun E hE hEkey => (hleft.mem E).2 ⟨hE, ?_⟩⟩
      rw [hEkey]
      exact ((hleft.mem B).1 hmem).2
    · exact ih hmem

/-- Two baselines of one backend and one version are the same entry. -/
theorem eq_of_isVerifiedBaseline (hB : IsVerifiedBaseline parse requested platformKey s B)
    (hE : IsVerifiedBaseline parse requested platformKey s E) (hkey : E.key = B.key)
    (hbackend : E.backend = B.backend) : E = B := by
  obtain ⟨T, hT, -, hhere, hTB⟩ := hB
  obtain ⟨T', hT', -, hhere', hTE⟩ := hE
  obtain ⟨hgithub, t, v, ht, hlast, hlt⟩ := baselineOf_eq_some_iff.1 hTB
  obtain ⟨hgithub', t', v', ht', hlast', hlt'⟩ := baselineOf_eq_some_iff.1 hTE
  obtain ⟨-, -, hback, -, hv⟩ := mem_priorVersions.1 (isLastMax_of_lastMax hlast).mem
  obtain ⟨-, -, hback', -, hv'⟩ := mem_priorVersions.1 (isLastMax_of_lastMax hlast').mem
  have hsame : T.backend.getD "" = T'.backend.getD "" :=
    Option.some.inj (hback.symm.trans (hbackend.symm.trans hback'))
  have hversion : E.version = B.version := congrArg Prod.fst hkey
  rw [hversion] at hv'
  obtain rfl := Option.some.inj (hv.symm.trans hv')
  by_cases heq : T.version = T'.version
  · rw [heq, hsame] at hlast
    exact (Prod.mk.inj (Option.some.inj (hlast'.symm.trans hlast))).2
  · -- each of the two would be above the baseline of the other
    have hmem : (t, T) ∈ priorVersions parse platformKey s T'.version (T'.backend.getD "") :=
      mem_priorVersions.2 ⟨hT, heq, hsame ▸ backend_of_github hgithub, hhere, ht⟩
    exact absurd hlt ((isLastMax_of_lastMax hlast').le hmem).not_gt

/-- **Where pruning is safe, only entries of other backends share a prunable key.** -/
theorem eq_or_backend_ne_of_prunedSafely (hsafe : PrunedSafely parse requested platformKey tools)
    (hB : B ∈ tools) (hprunable : Prunable parse requested platformKey tools B) (hE : E ∈ tools)
    (hkey : E.key = B.key) :
    E = B ∨ E.backend ≠ B.backend ∧ Guarded parse requested platformKey tools E := by
  obtain ⟨s, hpasses, hstale, hmem⟩ :=
    exists_pass_of_gone hsafe.ends.1 hB (gone_of_prunable hsafe hprunable)
  -- the pass that drops the one drops the other
  have hdropped : ∀ C ∈ tools, C.key = B.key → IsVerifiedBaseline parse requested platformKey s C :=
    fun C hC hCkey => hsafe.dropped s _ hpasses ⟨B.key, hstale, rfl⟩ C (hmem C hC hCkey)
      fun hkept => (mem_retainOthers.1 hkept).2 hCkey
  by_cases hbackend : E.backend = B.backend
  · exact .inl (eq_of_isVerifiedBaseline (hdropped B hB rfl) (hdropped E hE hkey) hkey hbackend)
  · exact .inr ⟨hbackend, .of_isVerifiedBaseline hpasses (hdropped E hE hkey)⟩

theorem unshared_of_nodup (h : (tools.map LockfileTool.key).Nodup) :
    Unshared parse requested platformKey tools :=
  fun _ hB _ _ hE hkey => List.inj_on_of_nodup_map h hE hB hkey

end Reached

/-! ### The pruned lists -/

/-- **Pruning ends, keeps what is requested and what is waited on; and it drops
baselines alone where nothing prunable shares its version and options.**  Two such
entries of one backend are never dropped together safely. -/
theorem baselines_pruned_safely (tools : List LockfileTool) :
    ((Passes parse requested platformKey tools
        (pruneVerifiedProvenanceBaselines parse requested platformKey tools).2 ∧
      staleBaseline parse requested platformKey
        (pruneVerifiedProvenanceBaselines parse requested platformKey tools).2 = none) ∧
      (∀ E ∈ tools, requested.contains E.version = true →
        E ∈ (pruneVerifiedProvenanceBaselines parse requested platformKey tools).2) ∧
      ∀ U ∈ tools, requested.contains U.version = true → verifiedHere platformKey U = false →
        ∀ B, baselineOf parse platformKey tools U = some B →
          baselineOf parse platformKey
            (pruneVerifiedProvenanceBaselines parse requested platformKey tools).2 U = some B) ∧
    (Unshared parse requested platformKey tools → PrunedSafely parse requested platformKey tools) ∧
    ((tools.map LockfileTool.key).Nodup → Unshared parse requested platformKey tools) ∧
    (PrunedSafely parse requested platformKey tools →
      ∀ B ∈ tools, Prunable parse requested platformKey tools B → ∀ E ∈ tools, E.key = B.key →
        E = B ∨ E.backend ≠ B.backend ∧ Guarded parse requested platformKey tools E) := by
  have hpasses := @passes_prune _ _ parse requested platformKey tools
  refine ⟨⟨hpasses, fun E => mem_of_passes hpasses.1, fun U hU hrequested hhere B =>
    baselineOf_passes_of_some hpasses.1 hU hrequested hhere⟩, prunedSafely_of_unshared,
    unshared_of_nodup, ?_⟩
  intro hsafe B hB hprunable E hE hkey
  exact eq_or_backend_ne_of_prunedSafely hsafe hB hprunable hE hkey


/-- An entry with provenance on Linux. -/
def attested (version backend : String) : LockfileTool where
  version := version
  backend := some backend
  platforms := (∅ : BTreeMap String PlatformInfo).insert "linux-x64"
    { provenance := some .githubAttestations }

/-- The versions 1.0.0 and 2.0.0. -/
def twoVersions (version : String) : Option ℕ :=
  if version = "1.0.0" then some 1 else if version = "2.0.0" then some 2 else none

/-- The baseline of an upgrade alone is pruned safely. -/
theorem baselines_pruned_safely_upgrade :
    PrunedSafely twoVersions (Std.ExtTreeSet.empty.insert "2.0.0") "linux-x64"
      [attested "2.0.0" "github:o/r", attested "1.0.0" "github:o/r"] := by
  have h := baselines_pruned_safely twoVersions (Std.ExtTreeSet.empty.insert "2.0.0") "linux-x64"
    [attested "2.0.0" "github:o/r", attested "1.0.0" "github:o/r"]
  exact h.2.1 (h.2.2.1 (by decide +kernel))

/-- The baseline of the upgrade takes the entry of another backend with it. -/
theorem not_prunedSafely_aqua :
    ¬ PrunedSafely twoVersions (Std.ExtTreeSet.empty.insert "2.0.0") "linux-x64"
      [attested "2.0.0" "github:o/r", attested "1.0.0" "github:o/r",
        attested "1.0.0" "aqua:o/r"] := by
  intro h
  have hstale : staleBaseline twoVersions (Std.ExtTreeSet.empty.insert "2.0.0") "linux-x64"
      [attested "2.0.0" "github:o/r", attested "1.0.0" "github:o/r",
        attested "1.0.0" "aqua:o/r"] = some ("1.0.0", ∅) := by
    decide +kernel
  obtain ⟨T, -, -, -, hT⟩ := h.dropped _ _ .refl ⟨_, hstale, rfl⟩ (attested "1.0.0" "aqua:o/r")
    (by simp) fun hmem => (mem_retainOthers.1 hmem).2 rfl
  obtain ⟨hgithub, _, _, _, hlast, _⟩ := baselineOf_eq_some_iff.1 hT
  obtain ⟨-, -, hbackend, -, -⟩ := mem_priorVersions.1 (isLastMax_of_lastMax hlast).mem
  rw [← Option.some.inj hbackend] at hgithub
  exact absurd hgithub (by decide +kernel)

end Mise
