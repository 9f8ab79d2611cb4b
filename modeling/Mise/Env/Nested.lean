/-
# What a nested mise sees

`mise exec` and `mise run` record `EnvDiff::from_final_env` in the `__MISE_DIFF`
of the command they start, so that a mise started by that command can take the
outer one's changes back (`get_env_diff`, `get_pristine_env`).

`nested_sees_pristine_iff` says exactly when that gives the outer mise's
pristine environment back.  The record holds only variables the final
environment still has, so one that mise removed is lost: hook-env records those
(`diff.old.insert` in `HookEnv::run`) and `from_final_env` does not.  On `PATH`
the record is a set of directories the pristine `PATH` lacks, each taken off
once.
-/

import Mise.Env.Pristine

namespace Mise

open Lib

/-- `get_env_diff`: a missing or unreadable `__MISE_DIFF` is an empty diff. -/
def getEnvDiff (codec : Codec) (env : EnvMap) : EnvDiff :=
  match env["__MISE_DIFF"]? with
  | some raw => (EnvDiff.deserialize codec raw).getD EnvDiff.default
  | none => EnvDiff.default

/-- The environment of a command started with `finalEnv` by a mise whose own
process environment is `parentEnv`. -/
def childEnv (codec : Codec) (blake3 : String → String) (parentEnv pristine finalEnv : EnvMap) :
    EnvMap :=
  finalEnv.insert "__MISE_DIFF"
    ((EnvDiff.fromFinalEnv pristine finalEnv).serializeExcluding codec blake3
      (inheritedSecretKeysOf parentEnv))

/-- The variables a nested mise is to find as they were: all but `__MISE_DIFF`
and the secrets either process inherited. -/
def Observed (parentEnv child : EnvMap) (k : String) : Prop :=
  k ≠ "__MISE_DIFF" ∧ isInheritedSecretKey k (inheritedSecretKeysOf parentEnv) = false ∧
    isInheritedSecretKey k (inheritedSecretKeysOf child) = false

/-- A mise started in the child environment finds the pristine environment. -/
def NestedSeesPristine (codec : Codec) (blake3 : String → String)
    (parentEnv pristine finalEnv : EnvMap) : Prop :=
  let child := childEnv codec blake3 parentEnv pristine finalEnv
  ∃ env, getPristineEnv blake3 (getEnvDiff codec child) child = some env ∧
    ∀ k, Observed parentEnv child k → env[k]? = pristine[k]?

/-- The final environment is one whose changes the record can undo: no variable
is removed, and `PATH` is the pristine one with other directories put in, each
once and none of them on the `PATH` before activation. -/
structure Undoable (parentEnv child pristine finalEnv : EnvMap) : Prop where
  kept : ∀ k, Observed parentEnv child k → k ≠ pathKey → (pristine[k]?).isSome →
    (finalEnv[k]?).isSome
  namesOnly : pristine[miseTaskNamesOnlyEnv]? = none
  path : ∃ p, pristine[pathKey]? = some p ∧
    joinPaths ((pathEntries finalEnv[pathKey]?).filter fun d => (splitPaths p).contains d)
      = some p ∧
    ∀ d ∈ pathEntries finalEnv[pathKey]?, (splitPaths p).contains d = false →
      (pathEntries finalEnv[pathKey]?).count d = 1 ∧
        (pathEntries finalEnv[origPathKey]?).contains d = false

/-! ### What the record holds -/

/-- The additions `from_final_env` passes to `EnvDiff::new`. -/
def finalAdditions (finalEnv : EnvMap) : List (String × String) :=
  finalEnv.toList.filter fun e => e.1 ≠ pathKey ∧ e.1 ≠ "__MISE_DIFF"

theorem nodup_finalAdditions (finalEnv : EnvMap) : ((finalAdditions finalEnv).map Prod.fst).Nodup := by
  have h : (finalEnv.toList.map Prod.fst).Nodup := by
    rw [List.nodup_iff_pairwise_ne, List.pairwise_map]
    exact Std.TreeMap.distinct_keys_toList.imp fun h e => h (by simp [e])
  exact h.sublist (List.filter_sublist.map _)

theorem lookup_finalAdditions (finalEnv : EnvMap) {k : String} (hp : k ≠ pathKey)
    (hd : k ≠ "__MISE_DIFF") : (finalAdditions finalEnv).lookup k = finalEnv[k]? := by
  ext v
  rw [IndexMap.lookup_eq_some_iff_mem (nodup_finalAdditions finalEnv), finalAdditions,
    List.mem_filter, Std.TreeMap.mem_toList_iff_getElem?_eq_some]
  simp [hp, hd]

theorem lookup_finalAdditions_pathKey (finalEnv : EnvMap) :
    (finalAdditions finalEnv).lookup pathKey = none := by
  rw [Option.eq_none_iff_forall_ne_some]
  intro v h
  rw [IndexMap.lookup_eq_some_iff_mem (nodup_finalAdditions finalEnv), finalAdditions,
    List.mem_filter] at h
  simp at h

theorem path_newDiff (original : EnvMap) (additions : List (String × String)) :
    (EnvDiff.newDiff original additions).path = [] := by
  have h : ∀ d : EnvDiff, (additions.foldl (EnvDiff.record original) d).path = d.path := by
    induction additions with
    | nil => exact fun _ => rfl
    | cons a rest ih =>
        intro d
        rw [List.foldl_cons, ih, EnvDiff.record]
        split
        · split_ifs <;> rfl
        · rfl
  exact h _

/-- The record is that of the additions, with the new directories of `PATH`. -/
theorem fromFinalEnv_eq (pristine finalEnv : EnvMap) :
    EnvDiff.fromFinalEnv pristine finalEnv =
      { EnvDiff.newDiff pristine (finalAdditions finalEnv) with
        path := (pathEntries finalEnv[pathKey]?).filter fun p =>
          !(pathEntries pristine[pathKey]?).contains p } := by
  unfold EnvDiff.fromFinalEnv
  cases h : finalEnv[pathKey]? with
  | some p => rfl
  | none =>
      have hnil : (EnvDiff.newDiff pristine (finalAdditions finalEnv)).path = [] :=
        path_newDiff pristine (finalAdditions finalEnv)
      calc EnvDiff.newDiff pristine (finalAdditions finalEnv)
          = { EnvDiff.newDiff pristine (finalAdditions finalEnv) with
              path := (EnvDiff.newDiff pristine (finalAdditions finalEnv)).path } := rfl
        _ = _ := by rw [hnil]; rfl

section

variable {codec : Codec} {blake3 : String → String} {parentEnv pristine finalEnv : EnvMap}

/-- The record the nested mise reads. -/
theorem getEnvDiff_childEnv (hcodec : codec.LosslessOn ((EnvDiff.fromFinalEnv pristine finalEnv).wire
      blake3 (inheritedSecretKeysOf parentEnv))) :
    getEnvDiff codec (childEnv codec blake3 parentEnv pristine finalEnv) =
      ((EnvDiff.fromFinalEnv pristine finalEnv).wire blake3
        (inheritedSecretKeysOf parentEnv)).toEnvDiff := by
  rw [getEnvDiff, childEnv, EnvMap.getElem?_insert_ite, if_pos rfl]
  simp only [EnvDiff.deserialize_serializeExcluding hcodec, Option.getD_some]

/-- What the nested mise's reversal leaves at a variable other than `PATH`. -/
theorem getElem?_reverse_child (hinj : Function.Injective blake3) {k : String}
    (hk : Observed parentEnv (childEnv codec blake3 parentEnv pristine finalEnv) k)
    (hp : k ≠ pathKey) :
    (reverseDiffPreservingOverrides blake3
        ((EnvDiff.fromFinalEnv pristine finalEnv).wire blake3
          (inheritedSecretKeysOf parentEnv)).toEnvDiff
        (childEnv codec blake3 parentEnv pristine finalEnv))[k]? =
      if (finalEnv[k]?).isSome then pristine[k]? else none := by
  obtain ⟨hd, hs, -⟩ := hk
  have hx : k ∉ inheritedSecretKeysOf parentEnv := by
    intro h
    rw [isInheritedSecretKey, Bool.or_eq_false_iff, List.any_eq_false] at hs
    exact hs.1 k h (beq_self_eq_true k)
  have hchild : (childEnv codec blake3 parentEnv pristine finalEnv)[k]? = finalEnv[k]? := by
    rw [childEnv, EnvMap.getElem?_insert_ite, if_neg (Ne.symm hd)]
  have h := getElem?_reverse_wire_newDiff hinj pristine (nodup_finalAdditions finalEnv)
    (inheritedSecretKeysOf parentEnv) (childEnv codec blake3 parentEnv pristine finalEnv) k
  rw [lookup_finalAdditions finalEnv hp hd, hchild] at h
  rw [fromFinalEnv_eq]
  refine Eq.trans h ?_
  cases hf : finalEnv[k]? with
  | none => simp
  | some v => by_cases ho : pristine[k]? = some v <;> simp [ho, hx]

/-- The reversal does not touch `PATH`. -/
theorem getElem?_reverse_child_pathKey (hinj : Function.Injective blake3) :
    (reverseDiffPreservingOverrides blake3
        ((EnvDiff.fromFinalEnv pristine finalEnv).wire blake3
          (inheritedSecretKeysOf parentEnv)).toEnvDiff
        (childEnv codec blake3 parentEnv pristine finalEnv))[pathKey]? =
      (childEnv codec blake3 parentEnv pristine finalEnv)[pathKey]? := by
  have h := getElem?_reverse_wire_newDiff hinj pristine (nodup_finalAdditions finalEnv)
    (inheritedSecretKeysOf parentEnv) (childEnv codec blake3 parentEnv pristine finalEnv) pathKey
  rw [lookup_finalAdditions_pathKey] at h
  rw [fromFinalEnv_eq]
  exact h

end

/-! ### The directories on `PATH` -/

/-- The set the record keeps of a `PATH` marks exactly the entries the pristine
one lacks. -/
theorem contains_newEntries (P F : List PathBuf) {d : PathBuf} (hd : d ∈ F) :
    (F.filter fun p => !P.contains p).contains d = !P.contains d := by
  have hp : Respects fun p : PathBuf => !P.contains p := fun a b h => by
    simp only [List.contains_congr h]
  rw [Bool.eq_iff_iff, contains_iff_count_pos, count_filter_respects hp]
  have := count_pos_of_mem hd
  by_cases h : P.contains d <;> simp [h, this]

/-- **When `PATH` comes back.**  Taking the entries `P` lacks off `F` once each
joins to `p` exactly when `F` is `P` with entries put in that occur once and
were not on the `PATH` before activation. -/
theorem joinPaths_pristinePath_iff (orig F : List PathBuf) (p : String) :
    joinPaths (pristinePath orig (F.filter fun d => !(splitPaths p).contains d) F) = some p ↔
      joinPaths (F.filter fun d => (splitPaths p).contains d) = some p ∧
        ∀ d ∈ F, (splitPaths p).contains d = false → F.count d = 1 ∧ orig.contains d = false := by
  set P := splitPaths p with hP
  set keep := fun d : PathBuf => orig.contains d && F.count d == 1 with hkeep
  have hresp : Respects keep := respects_keepOrig orig F
  -- Under the condition every marked entry occurs once, so the loop is a filter.
  have hfilter : (∀ d ∈ F, P.contains d = false → F.count d = 1 ∧ orig.contains d = false) →
      pristinePath orig (F.filter fun d => !P.contains d) F = F.filter fun d => P.contains d := by
    intro h
    rw [pristinePath, dropMarked_eq_filter]
    · exact List.filter_congr fun d hd => by rw [contains_newEntries P F hd, Bool.not_not]
    · intro d hd hm
      rw [contains_newEntries P F hd, Bool.not_eq_true'] at hm
      obtain ⟨h₁, h₂⟩ := h d hd hm
      exact ⟨by simp only [h₂, Bool.false_and], h₁⟩
  constructor
  · intro hjoin
    have hall : ∀ d ∈ F, P.contains d = false → F.count d = 1 ∧ orig.contains d = false := by
      intro d hd hdP
      -- No entry outside `P` can be left, by splitting the joined text again.
      have hzero : (pristinePath orig (F.filter fun d => !P.contains d) F).count d = 0 := by
        by_cases hnil : pristinePath orig (F.filter fun d => !P.contains d) F = []
        · rw [hnil]; rfl
        · rw [← splitPaths_of_joinPaths hjoin hnil, ← hP]
          exact count_eq_zero_iff.2 hdP
      rw [pristinePath, count_dropMarked hresp, contains_newEntries P F hd, hdP] at hzero
      have hpos := count_pos_of_mem hd
      by_cases hk : keep d = true
      · simp only [hk] at hzero
        simp at hzero
        omega
      · rw [Bool.not_eq_true] at hk
        simp only [hk] at hzero
        have hone : F.count d = 1 := by simp at hzero; omega
        refine ⟨hone, ?_⟩
        rw [hkeep] at hk
        simpa [hone] using hk
    exact ⟨by rw [← hfilter hall]; exact hjoin, hall⟩
  · rintro ⟨hjoin, hall⟩
    rw [hfilter hall]
    exact hjoin

section

variable {codec : Codec} {blake3 : String → String}

/-- The environment the nested mise computes, variable by variable. -/
theorem getElem?_nested (hinj : Function.Injective blake3) (parentEnv pristine finalEnv : EnvMap)
    (hcodec : codec.LosslessOn ((EnvDiff.fromFinalEnv pristine finalEnv).wire blake3
      (inheritedSecretKeysOf parentEnv))) :
    ∃ joined env,
      joinPaths (pristinePath (pathEntries finalEnv[origPathKey]?)
          ((pathEntries finalEnv[pathKey]?).filter fun d =>
            !(pathEntries pristine[pathKey]?).contains d) (pathEntries finalEnv[pathKey]?))
          = some joined ∧
        getPristineEnv blake3
          (getEnvDiff codec (childEnv codec blake3 parentEnv pristine finalEnv))
          (childEnv codec blake3 parentEnv pristine finalEnv) = some env ∧
        env[pathKey]? = some joined ∧
        ∀ k, Observed parentEnv (childEnv codec blake3 parentEnv pristine finalEnv) k →
          k ≠ pathKey → env[k]? =
            if k = miseTaskNamesOnlyEnv then none
            else if (finalEnv[k]?).isSome then pristine[k]? else none := by
  set child := childEnv codec blake3 parentEnv pristine finalEnv with hchild
  have hother : ∀ k, k ≠ "__MISE_DIFF" → child[k]? = finalEnv[k]? := fun k hk => by
    rw [hchild, childEnv, EnvMap.getElem?_insert_ite, if_neg (Ne.symm hk)]
  obtain ⟨joined, env, hjoined, henv, hpath, helse⟩ := getElem?_getPristineEnv blake3
    (getEnvDiff codec child) child (by
      rw [hchild, getEnvDiff_childEnv hcodec]; exact getElem?_reverse_child_pathKey hinj)
  rw [hother origPathKey (by decide), hother pathKey (by decide), hchild,
    getEnvDiff_childEnv hcodec, EnvDiff.wire_path, fromFinalEnv_eq] at hjoined
  refine ⟨joined, env, hjoined, henv, hpath, fun k hk hp => ?_⟩
  rw [helse k hp hk.2.2, hchild, getEnvDiff_childEnv hcodec, getElem?_reverse_child hinj hk hp]

/-- **A nested mise sees the pristine environment exactly when the final one is
undoable.** -/
theorem nested_sees_pristine_iff (hinj : Function.Injective blake3)
    (parentEnv pristine finalEnv : EnvMap)
    (hcodec : codec.LosslessOn ((EnvDiff.fromFinalEnv pristine finalEnv).wire blake3
      (inheritedSecretKeysOf parentEnv))) :
    NestedSeesPristine codec blake3 parentEnv pristine finalEnv ↔
      Undoable parentEnv (childEnv codec blake3 parentEnv pristine finalEnv) pristine finalEnv := by
  obtain ⟨joined, env, hjoined, henv, hpath, hval⟩ :=
    getElem?_nested hinj parentEnv pristine finalEnv hcodec
  set child := childEnv codec blake3 parentEnv pristine finalEnv with hchild
  have hpathObs : Observed parentEnv child pathKey :=
    ⟨by decide, isInheritedSecretKey_pathKey parentEnv, isInheritedSecretKey_pathKey child⟩
  have hnames : Observed parentEnv child miseTaskNamesOnlyEnv :=
    ⟨by decide, isInheritedSecretKey_namesOnly parentEnv, isInheritedSecretKey_namesOnly child⟩
  constructor
  · rintro ⟨env', henv', hsame⟩
    obtain rfl : env = env' := Option.some.inj (henv.symm.trans henv')
    refine ⟨fun k hk hp hs => ?_, ?_, joined, ?_, ?_⟩
    · by_contra hf
      have hnone := hval k hk hp
      rw [if_neg hf, ite_self, hsame k hk] at hnone
      rw [hnone] at hs
      exact absurd hs (by decide)
    · rw [← hsame _ hnames, hval _ hnames (by decide), if_pos rfl]
    · rw [← hsame _ hpathObs, hpath]
    · have hp : pristine[pathKey]? = some joined := by rw [← hsame _ hpathObs, hpath]
      rw [hp] at hjoined
      exact (joinPaths_pristinePath_iff _ _ joined).1 hjoined
  · rintro ⟨hkept, hnone, p, hp, hback⟩
    refine ⟨env, henv, fun k hk => ?_⟩
    by_cases hkp : k = pathKey
    · have hjoin := (joinPaths_pristinePath_iff
        (pathEntries finalEnv[origPathKey]?) _ p).2 hback
      rw [hp] at hjoined
      rw [hkp, hpath, hp]
      exact hjoined.symm.trans hjoin
    · rw [hval k hk hkp]
      by_cases hkn : k = miseTaskNamesOnlyEnv
      · rw [if_pos hkn, hkn, hnone]
      · rw [if_neg hkn]
        cases hpr : pristine[k]? with
        | none => rw [ite_self]
        | some v => rw [if_pos (hkept k hk hkp (by rw [hpr]; rfl))]

end

/-! ### A directory added, and a variable removed -/

/-- `A=1` and `PATH=/bin` before mise. -/
def samplePristine : EnvMap := .ofList [("A", "1"), (pathKey, "/bin")]

/-- A tool directory put on `PATH`. -/
def sampleKept : EnvMap := .ofList [("A", "1"), (pathKey, "/opt/tool/bin:/bin")]

/-- The same, with `A = false` in the `[env]` of the configuration. -/
def sampleRemoved : EnvMap := .ofList [(pathKey, "/opt/tool/bin:/bin")]

/-- The codec at the one record both leave: no variable, one directory. -/
def samplePathCodec (finalEnv : EnvMap) : Codec where
  encode _ := "eAFrWVjGtDg/J6VhcV5qecOSgsSSjIlr9fMLSvRL8vNz9JMy8wANuw7T"
  decode _ := some ((EnvDiff.fromFinalEnv samplePristine finalEnv).wire sampleDigest
    (inheritedSecretKeysOf samplePristine)).toEnvDiff

theorem nested_sees_pristine_kept :
    NestedSeesPristine (samplePathCodec sampleKept) sampleDigest samplePristine samplePristine
      sampleKept := by
  have hcodec : (samplePathCodec sampleKept).LosslessOn ((EnvDiff.fromFinalEnv samplePristine
      sampleKept).wire sampleDigest (inheritedSecretKeysOf samplePristine)) := rfl
  refine (nested_sees_pristine_iff sampleDigest_injective samplePristine samplePristine sampleKept
    hcodec).2 ⟨fun k _ hp hs => ?_, by decide, "/bin", by decide, by decide, by decide⟩
  by_cases hA : k = "A"
  · subst hA
    decide
  · have hnone : samplePristine[k]? = none := by
      rw [samplePristine]
      simp [Std.TreeMap.ofList_cons, Ne.symm hA, Ne.symm hp]
    rw [hnone] at hs
    exact absurd hs (by decide)

/-- The variable mise removed stays removed for the nested mise. -/
theorem nested_loses_removed_variable :
    ¬ NestedSeesPristine (samplePathCodec sampleRemoved) sampleDigest samplePristine
      samplePristine sampleRemoved := by
  rintro ⟨env', henv', hsame⟩
  obtain ⟨-, env, -, henv, -, hval⟩ := getElem?_nested sampleDigest_injective samplePristine
    samplePristine sampleRemoved (show (samplePathCodec sampleRemoved).LosslessOn _ from rfl)
  obtain rfl : env = env' := Option.some.inj (henv.symm.trans henv')
  have hA : Observed samplePristine (childEnv (samplePathCodec sampleRemoved) sampleDigest
      samplePristine samplePristine sampleRemoved) "A" := ⟨by decide, by decide, by decide⟩
  have hlost := hval "A" hA (by decide)
  rw [hsame "A" hA] at hlost
  exact absurd hlost (by decide)

end Mise
