/-
# Undoing a diff without undoing the user

`reverse_diff_preserving_overrides` in `crates/mise-util/src/env.rs`: a nested
mise takes back what an outer one did to the environment, but only where the
environment is still as the outer mise left it.

`getElem?_reverseDiff` says what the two loops of the function do to one
variable; everything else is read off it.  The second half follows a diff
through `__MISE_DIFF`: digests in place of the values mise set, and no previous
values for secrets.
-/

import Mise.Env.EnvDiff

namespace Mise

open Lib

section

variable (blake3 : String → String)

/-- One entry of the first loop of `reverse_diff_preserving_overrides`: a
previous value is put back while the variable is as mise left it. -/
def restoreOld (d : EnvDiff) (env : EnvMap) (entry : String × String) : EnvMap :=
  match d.new.get entry.1 with
  | some newValue =>
      if env[entry.1]?.any (envValueMatches blake3 d.v newValue) then env.insert entry.1 entry.2
      else env
  | none => if env[entry.1]?.isNone then env.insert entry.1 entry.2 else env

/-- One entry of the second loop: a variable mise added is removed while it is
as mise left it. -/
def removeNew (d : EnvDiff) (env : EnvMap) (entry : String × String) : EnvMap :=
  if (d.old.get entry.1).isNone && env[entry.1]?.any (envValueMatches blake3 d.v entry.2) then
    env.erase entry.1
  else env

/-- `reverse_diff_preserving_overrides`. -/
def reverseDiffPreservingOverrides (d : EnvDiff) (env : EnvMap) : EnvMap :=
  d.new.entries.foldl (removeNew blake3 d) (d.old.entries.foldl (restoreOld blake3 d) env)

/-- What the function makes of the current value of one variable. -/
def reverseAt (d : EnvDiff) (k : String) (cur : Option String) : Option String :=
  match d.old.get k, d.new.get k with
  | some o, some n => if cur.any (envValueMatches blake3 d.v n) then some o else cur
  | some o, none => if cur.isNone then some o else cur
  | none, some n => if cur.any (envValueMatches blake3 d.v n) then none else cur
  | none, none => cur

theorem getElem?_restoreOld (d : EnvDiff) (env : EnvMap) (e : String × String) (k : String) :
    (restoreOld blake3 d env e)[k]? =
      if e.1 = k then
        (match d.new.get e.1 with
          | some n => if env[k]?.any (envValueMatches blake3 d.v n) then some e.2 else env[k]?
          | none => if env[k]?.isNone then some e.2 else env[k]?)
      else env[k]? := by
  unfold restoreOld
  by_cases hk : e.1 = k
  · subst hk
    cases d.new.get e.1 with
    | some n => simp only [if_true]; split_ifs <;> simp
    | none => simp only [if_true]; split_ifs <;> simp
  · cases d.new.get e.1 with
    | some n => simp only [hk, if_false]; split_ifs <;> simp [EnvMap.getElem?_insert_ite, hk]
    | none => simp only [hk, if_false]; split_ifs <;> simp [EnvMap.getElem?_insert_ite, hk]

theorem getElem?_removeNew (d : EnvDiff) (env : EnvMap) (e : String × String) (k : String) :
    (removeNew blake3 d env e)[k]? =
      if e.1 = k then
        (if (d.old.get e.1).isNone && env[k]?.any (envValueMatches blake3 d.v e.2) then none
          else env[k]?)
      else env[k]? := by
  unfold removeNew
  by_cases hk : e.1 = k
  · subst hk
    simp only [if_true]; split_ifs <;> simp
  · simp only [hk, if_false]; split_ifs <;> simp [EnvMap.getElem?_erase_ite, hk]

/-- A loop over the entries of a map, at a variable the map holds. -/
theorem getElem?_foldl_entries {m : IndexMap String String}
    {step : EnvMap → String × String → EnvMap} {f : String × String → Option String → Option String}
    (hstep : ∀ (s : EnvMap) e k, (step s e)[k]? = if e.1 = k then f e s[k]? else s[k]?)
    (env : EnvMap) (k : String) :
    (m.entries.foldl step env)[k]? =
      match m.get k with
      | some v => f (k, v) env[k]?
      | none => env[k]? := by
  cases hk : m.get k with
  | some v =>
      exact get_foldl_of_nodup (fun (s : EnvMap) k => s[k]?) Prod.fst step f hstep m.entries
        m.nodup env (m.mem_entries.2 hk)
  | none =>
      refine get_foldl_of_notMem (fun (s : EnvMap) k => s[k]?) Prod.fst step f hstep m.entries
        env k fun hm => ?_
      obtain ⟨v, hv⟩ := m.mem_keys.1 hm
      rw [hk] at hv
      cases hv

/-- **The reversal, variable by variable.** -/
theorem getElem?_reverseDiff (d : EnvDiff) (env : EnvMap) (k : String) :
    (reverseDiffPreservingOverrides blake3 d env)[k]? = reverseAt blake3 d k env[k]? := by
  have hnew := getElem?_foldl_entries (m := d.new)
    (f := fun e cur =>
      if (d.old.get e.1).isNone && cur.any (envValueMatches blake3 d.v e.2) then none else cur)
    (getElem?_removeNew blake3 d) (d.old.entries.foldl (restoreOld blake3 d) env) k
  have hold := getElem?_foldl_entries (m := d.old)
    (f := fun e cur =>
      match d.new.get e.1 with
      | some n => if cur.any (envValueMatches blake3 d.v n) then some e.2 else cur
      | none => if cur.isNone then some e.2 else cur)
    (getElem?_restoreOld blake3 d) env k
  rw [reverseDiffPreservingOverrides, hnew, hold, reverseAt]
  cases ho : d.old.get k <;> cases hn : d.new.get k <;> simp [ho, hn]

end

/-! ### A diff that went through `__MISE_DIFF` -/

/-- The value an environment has at a variable after additions. -/
def overridden (original : EnvMap) (additions : List (String × String)) (k : String) :
    Option String :=
  (additions.lookup k).or original[k]?

/-- Applying the patches of a fresh diff overrides the original. -/
theorem getElem?_applyPatches_newDiff (original : EnvMap) {additions : List (String × String)}
    (hnd : (additions.map Prod.fst).Nodup) (k : String) :
    (applyPatches (EnvDiff.newDiff original additions).toPatches original)[k]? =
      overridden original additions k := by
  have hs := EnvDiff.sides_newDiff original hnd k
  have ho := congrArg Prod.fst hs
  have hn := congrArg Prod.snd hs
  simp only [EnvDiff.sides] at ho hn
  rw [EnvDiff.getElem?_applyPatches_toPatches, ho, hn, overridden]
  cases additions.lookup k with
  | none => simp
  | some v => by_cases h : original[k]? = some v <;> simp [h]

/-- A digest matches exactly the value it was taken of. -/
theorem envValueMatches_hash {blake3 : String → String} (hinj : Function.Injective blake3)
    (stored actual : String) :
    envValueMatches blake3 envStateVersion (hashEnvValue blake3 stored) actual
      = decide (stored = actual) := by
  have h : hashEnvValue blake3 stored = hashEnvValue blake3 actual ↔ stored = actual :=
    ⟨fun e => hinj ((String.append_right_inj _).1 e), fun e => e ▸ rfl⟩
  simp [envValueMatches, envStateVersion, h, beq_eq_decide]

/-- **Reversing a recorded diff, variable by variable.**  A variable mise did
not change, or that is no longer as mise left it, keeps its current value; one
that still has the value mise gave it goes back to its original value, or is
unset when that value was withheld from the record. -/
theorem getElem?_reverse_wire_newDiff {blake3 : String → String}
    (hinj : Function.Injective blake3) (original : EnvMap) {additions : List (String × String)}
    (hnd : (additions.map Prod.fst).Nodup) (exclude : List String) (env : EnvMap) (k : String) :
    (reverseDiffPreservingOverrides blake3
        ((EnvDiff.newDiff original additions).wire blake3 exclude).toEnvDiff env)[k]? =
      match additions.lookup k with
      | none => env[k]?
      | some v =>
          if original[k]? = some v ∨ env[k]? ≠ some v then env[k]?
          else if k ∈ exclude then none
          else original[k]? := by
  have hs := EnvDiff.sides_wire blake3 exclude (EnvDiff.newDiff original additions) k
  have hs' := EnvDiff.sides_newDiff original hnd k
  simp only [EnvDiff.sides, Prod.mk.injEq] at hs
  have ho := congrArg Prod.fst hs'
  have hn := congrArg Prod.snd hs'
  simp only [EnvDiff.sides] at ho hn
  have hv : ((EnvDiff.newDiff original additions).wire blake3 exclude).toEnvDiff.v
    = envStateVersion := rfl
  rw [getElem?_reverseDiff, reverseAt, hs.1, hs.2, hv, ho, hn]
  cases additions.lookup k with
  | none => by_cases hx : k ∈ exclude <;> simp [hx]
  | some v =>
      by_cases h : original[k]? = some v
      · by_cases hx : k ∈ exclude <;> simp [h, hx]
      · have hany : env[k]?.any (envValueMatches blake3 envStateVersion (hashEnvValue blake3 v))
            = decide (env[k]? = some v) := by
          cases env[k]? with
          | none => simp
          | some c => simp [envValueMatches_hash hinj, eq_comm]
        by_cases hc : env[k]? = some v
        · cases horig : original[k]? with
          | none => by_cases hx : k ∈ exclude <;> simp [hx, hc, envValueMatches_hash hinj]
          | some o =>
              rw [horig] at h
              by_cases hx : k ∈ exclude <;> simp [hx, hc, h, envValueMatches_hash hinj]
        · cases horig : original[k]? with
          | none => by_cases hx : k ∈ exclude <;> simp [hx, hany, hc]
          | some o =>
              rw [horig] at h
              by_cases hx : k ∈ exclude <;> simp [hx, hany, hc, h]

/-- **Applying a diff and taking it back.**  The patches of a fresh diff
override the original environment.  Reversing the recorded diff there gives the
original back on every variable that is not excluded, and unsets an excluded
one that mise had changed.  Whatever the user changed or removed in between is
left exactly as the user left it, while every other variable is restored. -/
theorem reverse_recorded_diff_restores (codec : Codec) {blake3 : String → String}
    (hinj : Function.Injective blake3) (original : EnvMap) (additions : List (String × String))
    (hnd : (additions.map Prod.fst).Nodup) (exclude : List String)
    (hcodec : codec.LosslessOn ((EnvDiff.newDiff original additions).wire blake3 exclude)) :
    let diff := EnvDiff.newDiff original additions
    let applied := applyPatches diff.toPatches original
    (∀ k, applied[k]? = overridden original additions k) ∧
      ∃ recorded, EnvDiff.deserialize codec (diff.serializeExcluding codec blake3 exclude)
          = some recorded ∧
        (∀ k, k ∉ exclude →
          (reverseDiffPreservingOverrides blake3 recorded applied)[k]? = original[k]?) ∧
        (∀ k ∈ exclude, ∀ o v, original[k]? = some o → additions.lookup k = some v → o ≠ v →
          (reverseDiffPreservingOverrides blake3 recorded applied)[k]? = none) ∧
        ∀ current : EnvMap,
          (∀ k : String, current[k]? ≠ applied[k]? →
            (reverseDiffPreservingOverrides blake3 recorded current)[k]? = current[k]?) ∧
          (∀ k : String, k ∉ exclude → current[k]? = applied[k]? →
            (reverseDiffPreservingOverrides blake3 recorded current)[k]? = original[k]?) := by
  intro diff applied
  have happ : ∀ k, applied[k]? = overridden original additions k :=
    getElem?_applyPatches_newDiff original hnd
  have hrev := getElem?_reverse_wire_newDiff hinj original hnd exclude
  have huntouched : ∀ (current : EnvMap) (k : String), current[k]? ≠ applied[k]? →
      (reverseDiffPreservingOverrides blake3 (diff.wire blake3 exclude).toEnvDiff current)[k]?
        = current[k]? := by
    intro current k hk
    rw [hrev]
    rw [happ, overridden] at hk
    cases hl : additions.lookup k with
    | none => rfl
    | some v =>
        rw [hl, Option.some_or] at hk
        exact if_pos (Or.inr hk)
  have hrestored : ∀ (current : EnvMap) (k : String), k ∉ exclude → current[k]? = applied[k]? →
      (reverseDiffPreservingOverrides blake3 (diff.wire blake3 exclude).toEnvDiff current)[k]?
        = original[k]? := by
    intro current k hx hk
    rw [hrev]
    rw [happ, overridden] at hk
    cases hl : additions.lookup k with
    | none => simpa [hl] using hk
    | some v =>
        rw [hl, Option.some_or] at hk
        by_cases ho : original[k]? = some v
        · simp [ho, hk]
        · simp [ho, hk, hx]
  refine ⟨happ, _, EnvDiff.deserialize_serializeExcluding hcodec,
    fun k hx => hrestored applied k hx rfl, ?_, fun current =>
      ⟨huntouched current, hrestored current⟩⟩
  intro k hx o v ho hl hov
  have hcur : applied[k]? = some v := by rw [happ, overridden, hl, Option.some_or]
  have hne : original[k]? ≠ some v := by rw [ho]; simpa using hov
  rw [hrev]
  simp [hl, hcur, hne, hx]

/-! ### One variable changed and one added -/

/-- A digest that is BLAKE3's on the two values below, and injective. -/
def sampleDigest (s : String) : String :=
  if s = "2" then "813e9b729141e7f385afa0a2d0df3e6c3789e427ffe4aeef566a565bc8f2fe3d"
  else if s = "new" then "b20ab0a020a48d349e0c64d109c441f87c9bc43d49fc701c4a5f6f1b16aa4e32"
  else "z" ++ s

theorem sampleDigest_injective : Function.Injective sampleDigest := by
  have hz : ∀ s t : String, t.toList.head? ≠ some 'z' → "z" ++ s ≠ t := by
    intro s t ht h
    refine ht ?_
    rw [← h, String.toList_append]
    rfl
  intro a b h
  unfold sampleDigest at h
  split_ifs at h with h₁ h₂ h₃ h₄ h₅ h₆ h₇ h₈
  all_goals first
    | exact h₁.trans h₂.symm
    | exact h₄.trans h₆.symm
    | exact absurd h (by decide)
    | exact absurd h (hz _ _ (by decide))
    | exact absurd h.symm (hz _ _ (by decide))
    | exact (String.append_right_inj _).1 h

/-- `A=1` before, `A=2` and `B=new` from mise. -/
def sampleOriginal : EnvMap := .ofList [("A", "1")]

def sampleAdditions : List (String × String) := [("A", "2"), ("B", "new")]

/-- The codec at the one record written here, with its text in `__MISE_DIFF`. -/
def sampleCodec : Codec where
  encode _ :=
    "eAE9zLsNAjEMAFCJiezY+dEdDXM4ji0kTkCBoObEAKwQHUuxDVRUr3vPcdus57k/xjRwPdl9GdNn32Y5Gm0LktWWQ0VGy04li" ++
      "gtI6NCdLCnlUo1DdjcWM48pSUyxafHgRn3s/lULIA0EfnDpxNVAE3eEqszoJWttytS5umZAZYmeHBsmETYK74tcD68v7rc3zQ"
  decode _ := some ((EnvDiff.newDiff sampleOriginal sampleAdditions).wire sampleDigest []).toEnvDiff

theorem reverse_recorded_diff_restores_sample :
    ∃ recorded, EnvDiff.deserialize sampleCodec
        ((EnvDiff.newDiff sampleOriginal sampleAdditions).serializeExcluding sampleCodec
          sampleDigest []) = some recorded ∧
      (reverseDiffPreservingOverrides sampleDigest recorded
        (applyPatches (EnvDiff.newDiff sampleOriginal sampleAdditions).toPatches
          sampleOriginal))["A"]? = some "1" := by
  obtain ⟨-, recorded, hrec, hback, -⟩ := reverse_recorded_diff_restores sampleCodec
    sampleDigest_injective sampleOriginal sampleAdditions (by decide) [] rfl
  exact ⟨recorded, hrec, (hback "A" (by simp)).trans (by decide)⟩

end Mise
