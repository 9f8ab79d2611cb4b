/-
# The `PATH` deactivation writes

`compute_deactivated_path` and `clear_old_env_patches` in `src/hook_env.rs`.

Deactivation keeps of every directory as many copies as the shell's `PATH` has
beyond the recorded ones, but at least as many as the pristine `PATH` has.  The
counts are right; which copies are kept is decided from the left, so a
directory that mise put in front and the pristine `PATH` has further back moves
to the front, where `get_pristine_env` takes the first copy off.  And when mise
recorded no directory the pristine `PATH` is written as it is, without the
directories the user put on since.

`deactivate_restores_iff` says exactly when the pristine `PATH` comes back with
the user's directories in it.
-/

import Mise.HookEnv.PathOperations

namespace Mise

open Lib

/-- `target_counts`: the copies of a directory to keep, of those on the current
or the pristine `PATH`.  A shim directory is kept as often as it was there
before activation. -/
def targetCount (host : Host) (current misePaths pristine : List PathBuf) (p : PathBuf) : ℕ :=
  let fromCurrent :=
    if current.contains p then
      if host.isMiseShimsDir p then pristine.count p
      else max (current.count p - misePaths.count p) (pristine.count p)
    else 0
  if pristine.contains p then max fromCurrent (pristine.count p) else fromCurrent

/-- One entry of the last loop: copies that are still missing are put at the
end. -/
def topUp (target : PathBuf → ℕ) (finalPaths : List PathBuf) (p : PathBuf) : List PathBuf :=
  finalPaths ++ List.replicate (target p - finalPaths.count p) p

/-- The entries deactivation leaves. -/
def deactivatedPaths (host : Host) (current misePaths pristine : List PathBuf) : List PathBuf :=
  let target := targetCount host current misePaths pristine
  pristine.foldl (topUp target) (keepFirst target current)

/-- The `PATH` before activation: the shell's snapshot or else the pristine
environment's.  `none` stands for a panic of the latter. -/
def preActivationPath (blake3 : String → String) (s : Shell) : Option String :=
  match s.env[origPathKey]? with
  | some orig => some orig
  | none => (getPristineEnv blake3 s.diff s.env).map fun env => (env[pathKey]?).getD ""

/-- `compute_deactivated_path`. -/
def computeDeactivatedPath (blake3 : String → String) (host : Host) (s : Shell) : Option String :=
  (preActivationPath blake3 s).map fun pristinePath =>
    let currentPath := (s.env[pathKey]?).getD ""
    if currentPath.isEmpty || s.diff.path.isEmpty then pristinePath
    else
      let finalPaths := deactivatedPaths host (splitPaths currentPath) s.diff.path
        (splitPaths pristinePath)
      (joinPaths finalPaths).getD pristinePath

/-- `clear_old_env_patches`: fish drops a `PATH` operation of the reversed diff
before the computed one. -/
def clearOldEnvPatches (blake3 : String → String) (host : Host) (fish : Bool) (s : Shell) :
    Option (List EnvDiffOperation) :=
  let patches := s.diff.reverse.toPatches
  let patches := if fish then patches.filter fun op => op.key ≠ pathKey else patches
  (computeDeactivatedPath blake3 host s).map fun newPath =>
    patches ++ [.change pathKey newPath]

/-! ### Restoring `PATH` -/

/-- Whether a directory is one the user put on `PATH`: neither of mise nor on
the pristine `PATH`. -/
def isUserDir (misePaths pristine : List PathBuf) (p : PathBuf) : Bool :=
  !(misePaths ++ pristine).contains p

/-- Deactivation leaves the pristine `PATH` with the user's directories put in,
in their order. -/
def DeactivateRestores (blake3 : String → String) (host : Host) (s : Shell)
    (current misePaths pristine : List PathBuf) : Prop :=
  ∃ r, computeDeactivatedPath blake3 host s = some r ∧
    ((splitPaths r).filter fun p => !isUserDir misePaths pristine p) = pristine ∧
    (splitPaths r).filter (isUserDir misePaths pristine) =
      current.filter (isUserDir misePaths pristine)

/-- Moving to the front of the pristine `PATH` the last copies of the
directories it shares with mise's changes nothing, no shim directory was put
on, and nothing at all when mise recorded no directory. -/
structure Deactivatable (host : Host) (current misePaths pristine : List PathBuf) : Prop where
  order : misePaths.bagInter pristine ++ dropLasts (misePaths.bagInter pristine) pristine = pristine
  shims : ∀ p ∈ current, isUserDir misePaths pristine p = true → host.isMiseShimsDir p = false
  recorded : misePaths = [] → current = pristine

theorem order_nil (pristine : List PathBuf) :
    [].bagInter pristine ++ dropLasts ([].bagInter pristine) pristine = pristine := by
  have hnil : [].bagInter pristine = [] := by cases pristine <;> rfl
  rw [hnil, dropLasts_nil, List.nil_append]

theorem respects_isUserDir (misePaths pristine : List PathBuf) :
    Respects (isUserDir misePaths pristine) := fun a b h => by
  simp only [isUserDir, List.contains_congr h]

section

variable {host : Host} {current misePaths pristine : List PathBuf}

/-- Of a directory of mise or of the pristine `PATH` the pristine copies are
kept. -/
theorem targetCount_of_not_isUserDir
    (hcur : (current.filter fun p => !isUserDir misePaths pristine p) = misePaths ++ pristine)
    {p : PathBuf} (hp : p ∈ misePaths ++ pristine) :
    targetCount host current misePaths pristine p = pristine.count p := by
  have hresp : Respects fun p => !isUserDir misePaths pristine p := fun a b h => by
    simp only [respects_isUserDir misePaths pristine a b h]
  have hp' : isUserDir misePaths pristine p = false := by
    rw [isUserDir, contains_of_mem hp]; rfl
  have hcount : current.count p = misePaths.count p + pristine.count p := by
    rw [← List.count_append, ← hcur, count_filter_respects hresp, hp']
    simp
  have hin : current.contains p = true := by
    rw [contains_iff_count_pos, hcount, ← List.count_append]
    exact count_pos_of_mem hp
  rw [targetCount, hin, hcount]
  simp only [if_true]
  split_ifs with hpr <;> omega

/-- Of a directory of the user's every copy is kept, unless it holds shims. -/
theorem targetCount_of_isUserDir {p : PathBuf} (hp : p ∈ current)
    (hu : isUserDir misePaths pristine p = true) :
    targetCount host current misePaths pristine p =
      if host.isMiseShimsDir p then 0 else current.count p := by
  rw [isUserDir, List.contains_append, Bool.not_or, Bool.and_eq_true, Bool.not_eq_true',
    Bool.not_eq_true'] at hu
  have hm := count_eq_zero_iff.2 hu.1
  have hpr := count_eq_zero_iff.2 hu.2
  rw [targetCount, contains_of_mem hp, hu.2, hm, hpr]
  simp only [if_true, Bool.false_eq_true, if_false]
  split_ifs <;> omega

/-- Nothing is put at the end while every pristine copy is there. -/
theorem foldl_topUp_eq_self {target : PathBuf → ℕ} {out l : List PathBuf}
    (h : ∀ p ∈ l, target p ≤ out.count p) : l.foldl (topUp target) out = out := by
  induction l with
  | nil => rfl
  | cons p l ih =>
      have hp : topUp target out p = out := by
        rw [topUp, Nat.sub_eq_zero_of_le (h p (List.mem_cons_self ..)), List.replicate_zero,
          List.append_nil]
      rw [List.foldl_cons, hp, ih fun q hq => h q (List.mem_cons_of_mem _ hq)]

/-- **What deactivation keeps of the directories that are not the user's.** -/
theorem filter_keepFirst_targetCount
    (hcur : (current.filter fun p => !isUserDir misePaths pristine p) = misePaths ++ pristine) :
    ((keepFirst (targetCount host current misePaths pristine) current).filter fun p =>
        !isUserDir misePaths pristine p) =
      misePaths.bagInter pristine ++ dropLasts (misePaths.bagInter pristine) pristine := by
  have hresp : Respects fun p => !isUserDir misePaths pristine p := fun a b h => by
    simp only [respects_isUserDir misePaths pristine a b h]
  rw [filter_keepFirst hresp, hcur, ← keepFirst_append_self]
  exact keepFirst_congr_of_mem fun p hp => targetCount_of_not_isUserDir hcur hp

/-- Every pristine copy is on the current `PATH`, so the last loop is idle. -/
theorem deactivatedPaths_eq
    (hcur : (current.filter fun p => !isUserDir misePaths pristine p) = misePaths ++ pristine) :
    deactivatedPaths host current misePaths pristine =
      keepFirst (targetCount host current misePaths pristine) current := by
  refine foldl_topUp_eq_self fun p hp => ?_
  have hresp : Respects fun p => !isUserDir misePaths pristine p := fun a b h => by
    simp only [respects_isUserDir misePaths pristine a b h]
  have hp' : p ∈ misePaths ++ pristine := List.mem_append_right _ hp
  have hu : isUserDir misePaths pristine p = false := by
    rw [isUserDir, contains_of_mem hp']; rfl
  have hcount := count_filter_respects hresp
    (keepFirst (targetCount host current misePaths pristine) current) p
  rw [filter_keepFirst_targetCount hcur, ← keepFirst_append_self,
    count_keepFirst (count_respects pristine), List.count_append, hu] at hcount
  rw [targetCount_of_not_isUserDir hcur hp']
  simp only [Bool.not_false, if_true] at hcount
  omega

/-- What deactivation keeps of the user's directories. -/
theorem filter_isUserDir_keepFirst_iff :
    (keepFirst (targetCount host current misePaths pristine) current).filter
        (isUserDir misePaths pristine) = current.filter (isUserDir misePaths pristine) ↔
      ∀ p ∈ current, isUserDir misePaths pristine p = true → host.isMiseShimsDir p = false := by
  have hresp := respects_isUserDir misePaths pristine
  rw [filter_keepFirst hresp]
  constructor
  · intro h p hp hu
    have hpos := quota_pos_of_keepFirst_eq_self h p (List.mem_filter.2 ⟨hp, hu⟩)
    rw [targetCount_of_isUserDir hp hu] at hpos
    by_contra hs
    rw [Bool.not_eq_false] at hs
    rw [if_pos hs] at hpos
    exact absurd hpos (Nat.lt_irrefl 0)
  · intro h
    refine keepFirst_eq_self fun p hp => ?_
    obtain ⟨hp, hu⟩ := List.mem_filter.1 hp
    apply Nat.le_of_eq
    rw [targetCount_of_isUserDir hp hu, if_neg (by rw [h p hp hu]; decide),
      count_filter_respects hresp, if_pos hu]

end

/-- **When deactivation restores `PATH`.**  For a current `PATH` that is the
recorded directories and the pristine `PATH` with directories of the user's put
in anywhere.  The pristine `PATH` is the snapshot, or the pristine environment's. -/
theorem deactivate_restores_iff (blake3 : String → String) (host : Host) (s : Shell)
    {current pristine : String} {misePaths : List PathBuf} (hpath : s.env[pathKey]? = some current)
    (horig : preActivationPath blake3 s = some pristine) (hrec : s.diff.path = misePaths)
    (hcur : ((splitPaths current).filter fun p => !isUserDir misePaths (splitPaths pristine) p) =
      misePaths ++ splitPaths pristine) :
    DeactivateRestores blake3 host s (splitPaths current) misePaths (splitPaths pristine) ↔
      Deactivatable host (splitPaths current) misePaths (splitPaths pristine) := by
  have hcompute : computeDeactivatedPath blake3 host s =
      some (if current.isEmpty || misePaths.isEmpty then pristine
        else (joinPaths (deactivatedPaths host (splitPaths current) misePaths
          (splitPaths pristine))).getD pristine) := by
    rw [computeDeactivatedPath, horig, Option.map_some, hpath, Option.getD_some, hrec]
  by_cases hnil : misePaths = []
  · -- The early return: the pristine `PATH`, whatever the user put on.
    subst hnil
    rw [List.isEmpty_nil, Bool.or_true, if_pos rfl] at hcompute
    have hpristine : ∀ p ∈ splitPaths pristine, isUserDir [] (splitPaths pristine) p = false :=
      fun p hp => by rw [isUserDir, List.nil_append, contains_of_mem hp]; rfl
    constructor
    · rintro ⟨r, hr, -, huser⟩
      obtain rfl : pristine = r := Option.some.inj (hcompute.symm.trans hr)
      have hnone : (splitPaths current).filter (isUserDir [] (splitPaths pristine)) = [] := by
        rw [← huser, List.filter_eq_nil_iff]
        exact fun p hp => by simp [hpristine p hp]
      rw [List.filter_eq_nil_iff] at hnone
      rw [List.filter_eq_self.2 fun p hp => by simpa using hnone p hp] at hcur
      exact ⟨order_nil (splitPaths pristine), fun p hp hu => absurd hu (hnone p hp), fun _ => hcur⟩
    · intro h
      refine ⟨pristine, hcompute, ?_, ?_⟩
      · exact List.filter_eq_self.2 fun p hp => by simp [hpristine p hp]
      · rw [h.recorded rfl]
  · have hempty : current.isEmpty = false := by
      rw [Bool.eq_false_iff]
      intro h
      have hlen := List.length_filter_le (fun p =>
        !isUserDir misePaths (splitPaths pristine) p) (splitPaths current)
      have hpos := List.length_pos_iff.2 hnil
      have hpos' := List.length_pos_iff.2 (splitPaths_ne_nil pristine)
      rw [hcur, String.isEmpty_iff.1 h, List.length_append] at hlen
      have : (splitPaths "").length = 1 := by decide
      omega
    have hmise := @filter_keepFirst_targetCount host _ _ _ hcur
    have huser := @filter_isUserDir_keepFirst_iff host (splitPaths current) misePaths
      (splitPaths pristine)
    set kept := keepFirst (targetCount host (splitPaths current) misePaths (splitPaths pristine))
      (splitPaths current) with hkept
    have hsub : kept.Sublist (pathEntries (some current)) := keepFirst_sublist _ _
    obtain ⟨r, hjoin⟩ := joinPaths_of_sublist hsub
    rw [hempty, List.isEmpty_eq_false_iff.2 hnil, Bool.or_self, if_neg Bool.false_ne_true,
      deactivatedPaths_eq hcur, hjoin, Option.getD_some] at hcompute
    have hne : kept ≠ [] := by
      intro h
      obtain ⟨p, hp⟩ := List.exists_mem_of_ne_nil _ (splitPaths_ne_nil pristine)
      have hpos := count_pos_of_mem hp
      have hcount := count_keepFirst (count_respects (splitPaths pristine))
        (misePaths ++ splitPaths pristine) p
      rw [keepFirst_append_self, ← hmise, h, List.count_append] at hcount
      simp only [List.filter_nil, List.count_nil] at hcount
      omega
    have hsplit : splitPaths r = kept := splitPaths_of_joinPaths hjoin hne
    constructor
    · rintro ⟨r', hr', hrest, hus⟩
      obtain rfl : r = r' := Option.some.inj (hcompute.symm.trans hr')
      rw [hsplit] at hrest hus
      exact ⟨hmise.symm.trans hrest, huser.1 hus, fun h => absurd h hnil⟩
    · intro h
      refine ⟨r, hcompute, ?_, ?_⟩
      · rw [hsplit, hmise, h.order]
      · rw [hsplit, huser.2 h.shims]

/-! ### A directory of mise's that is also behind another -/

theorem deactivate_restores_sample : DeactivateRestores sampleDigest sampleSetup.host
    (sampleShell "/opt/x/bin:/home/me/bin:/usr/bin" "/usr/bin" [⟨"/opt/x/bin"⟩])
    [⟨"/opt/x/bin"⟩, ⟨"/home/me/bin"⟩, ⟨"/usr/bin"⟩] [⟨"/opt/x/bin"⟩] [⟨"/usr/bin"⟩] := by
  have hsplit : splitPaths "/opt/x/bin:/home/me/bin:/usr/bin" =
      [⟨"/opt/x/bin"⟩, ⟨"/home/me/bin"⟩, ⟨"/usr/bin"⟩] := by decide
  have hsplit' : splitPaths "/usr/bin" = [⟨"/usr/bin"⟩] := by decide
  rw [← hsplit, ← hsplit']
  exact (deactivate_restores_iff sampleDigest sampleSetup.host _ (by decide) (by decide) rfl
    (by decide)).2 ⟨by decide, fun _ _ _ => rfl, by decide⟩

/-- From `/opt/x/bin:/usr/bin:/opt/x/bin`, with the first entry recorded,
deactivation leaves `/opt/x/bin:/usr/bin` for `/usr/bin:/opt/x/bin`. -/
theorem deactivate_reorders_sample : ¬ DeactivateRestores sampleDigest sampleSetup.host
    (sampleShell sampleTwice "/usr/bin:/opt/x/bin" [⟨"/opt/x/bin"⟩])
    [⟨"/opt/x/bin"⟩, ⟨"/usr/bin"⟩, ⟨"/opt/x/bin"⟩] [⟨"/opt/x/bin"⟩]
    [⟨"/usr/bin"⟩, ⟨"/opt/x/bin"⟩] := by
  rintro ⟨r, hr, hrest, -⟩
  have hcompute : computeDeactivatedPath sampleDigest sampleSetup.host
      (sampleShell sampleTwice "/usr/bin:/opt/x/bin" [⟨"/opt/x/bin"⟩])
      = some "/opt/x/bin:/usr/bin" := by decide
  obtain rfl : "/opt/x/bin:/usr/bin" = r := Option.some.inj (hcompute.symm.trans hr)
  exact absurd hrest (by decide)

end Mise
