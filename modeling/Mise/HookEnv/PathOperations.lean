/-
# The `PATH` a prompt writes

`HookEnv::build_path_operations` in `src/cli/hook_env.rs` and the part of
`src/direnv.rs` it calls.

Every prompt computes the pristine `PATH` (`get_pristine_env`), cuts it into
the entries before, of and after `__MISE_ORIG_PATH`, and writes

  pre, user paths, tool paths, shims, original entries, appended entries

where a tool path already on the original `PATH` is left out and a user path is
not.  All user and tool paths are recorded in `__MISE_DIFF`, the ones left out
too, and the next prompt takes each recorded directory off once.

`hook_env_path_stable_iff` says exactly when the pristine `PATH` comes back and
later prompts write the same `PATH`: when every recorded directory was put on
`PATH` once, or was left out and stands on the original `PATH` once.
-/

import Mathlib.Logic.Relation
import Mise.Env.Pristine

namespace Mise

open Lib

/-! ### `DIRENV_DIFF` -/

/-- `DirenvDiff`. -/
structure DirenvDiff where
  old : EnvMap
  new : EnvMap

/-- The base64, zlib and JSON encoding of `DIRENV_DIFF`. -/
structure DirenvCodec where
  decode : String → Option DirenvDiff
  encode : DirenvDiff → Option String

namespace DirenvDiff

/-- `DirenvDiff::parse`. -/
def parse (codec : DirenvCodec) (input : String) : Option DirenvDiff :=
  if input = "" then some ⟨∅, ∅⟩ else codec.decode input

/-- `new_path`. -/
def newPath (d : DirenvDiff) : List PathBuf := pathEntries d.new[pathKey]?

/-- `old_path`. -/
def oldPath (d : DirenvDiff) : List PathBuf := pathEntries d.old[pathKey]?

/-- A change made to both `PATH`s. -/
def updatePaths (d : DirenvDiff) (f : List PathBuf → List PathBuf) : Option DirenvDiff := do
  let old ← joinPaths (f d.oldPath)
  let new ← joinPaths (f d.newPath)
  return ⟨d.old.insert pathKey old, d.new.insert pathKey new⟩

/-- `add_path_to_old_and_new`. -/
def addPathToOldAndNew (d : DirenvDiff) (path : PathBuf) : Option DirenvDiff :=
  d.updatePaths fun ps => path :: ps

/-- `remove_path_from_old_and_new`: only once. -/
def removePathFromOldAndNew (d : DirenvDiff) (path : PathBuf) : Option DirenvDiff :=
  d.updatePaths fun ps => ps.erase path

end DirenvDiff

/-- `HookEnv::update_direnv_diff`; the outer `none` is an error. -/
def updateDirenvDiff (codec : DirenvCodec) (input : String) (installs toRemove : List PathBuf) :
    Option (Option EnvDiffOperation) := do
  let diff ← DirenvDiff.parse codec input
  if diff.newPath.isEmpty then return none
  let diff ← toRemove.foldlM DirenvDiff.removePathFromOldAndNew diff
  let diff ← installs.foldlM DirenvDiff.addPathToOldAndNew diff
  let text ← codec.encode diff
  return some (.change "DIRENV_DIFF" text)

/-- The operation on `DIRENV_DIFF`, if it is set and can be updated. -/
def direnvOperations (codec : DirenvCodec) (direnvDiff : Option String)
    (installs toRemove : List PathBuf) : List EnvDiffOperation :=
  match direnvDiff with
  | some input =>
      match updateDirenvDiff codec input installs toRemove with
      | some (some op) => [op]
      | _ => []
  | none => []

theorem key_updateDirenvDiff {codec : DirenvCodec} {input : String}
    {installs toRemove : List PathBuf} {op : EnvDiffOperation}
    (h : updateDirenvDiff codec input installs toRemove = some (some op)) :
    op.key = "DIRENV_DIFF" := by
  unfold updateDirenvDiff at h
  simp only [bind_pure_comp, Option.bind_eq_bind, Option.bind_eq_some_iff] at h
  obtain ⟨d, -, h⟩ := h
  split_ifs at h
  · cases h
  · simp only [Option.bind_eq_some_iff, Option.map_eq_map, Option.map_eq_some_iff] at h
    obtain ⟨-, -, -, -, text, -, h⟩ := h
    obtain rfl := Option.some.inj h
    rfl

/-- `DIRENV_DIFF` is the only variable they write. -/
theorem key_of_mem_direnvOperations {codec : DirenvCodec} {direnvDiff : Option String}
    {installs toRemove : List PathBuf} {op : EnvDiffOperation}
    (h : op ∈ direnvOperations codec direnvDiff installs toRemove) : op.key = "DIRENV_DIFF" := by
  unfold direnvOperations at h
  split at h
  · split at h
    · rename_i hop
      rw [List.mem_singleton] at h
      exact h ▸ key_updateDirenvDiff hop
    · exact absurd h List.not_mem_nil
  · exact absurd h List.not_mem_nil

/-! ### The operations -/

/-- What `build_path_operations` asks of the machine and the settings. -/
structure Host where
  activateAggressive : Bool
  isMiseShimsDir : PathBuf → Bool
  isMiseInstallPath : PathBuf → Bool
  canonicalizeCached : PathBuf → Option PathBuf
  shimFarmDirs : List PathBuf
  direnv : DirenvCodec

/-- The environment variables it reads: `PATH` of the pristine environment,
`__MISE_ORIG_PATH` and `DIRENV_DIFF`. -/
structure PathVars where
  path : List PathBuf
  origPath : Option String
  direnvDiff : Option String

/-- The variables of its loop over the current `PATH`. -/
structure Partition where
  pre : List PathBuf
  postUser : List PathBuf
  origReordered : List PathBuf
  seenOrig : Bool
  seenInCurrent : List PathBuf

namespace Partition

/-- The loop before its first round. -/
def start : Partition := ⟨[], [], [], false, []⟩

/-- One round: a shim directory is skipped, an original entry kept in its
current place, a directory of mise skipped, and any other is the user's, before
or after the original entries. -/
def place (host : Host) (origPaths toRemove : List PathBuf) (s : Partition) (path : PathBuf) :
    Partition :=
  if host.isMiseShimsDir path then s
  else if origPaths.contains path then
    { s with
      seenOrig := true
      origReordered := s.origReordered ++ [path]
      seenInCurrent := s.seenInCurrent ++ [path] }
  else if toRemove.contains path then s
  else if host.isMiseInstallPath path then s
  else if s.seenOrig then { s with postUser := s.postUser ++ [path] }
  else { s with pre := s.pre ++ [path] }

end Partition

/-- The current `PATH` as entries before the original ones, the original ones
in their current order with missing ones put back, and entries after. -/
def partitionPath (host : Host) (origPath : Option String) (toRemove current : List PathBuf) :
    List PathBuf × List PathBuf × List PathBuf :=
  match origPath with
  | some orig =>
      if host.activateAggressive then ([], current.filter fun p => !host.isMiseShimsDir p, [])
      else
        let origPaths := splitPaths orig
        let s := current.foldl (Partition.place host origPaths toRemove) Partition.start
        let lost := origPaths.filter fun p => !host.isMiseShimsDir p && !s.seenInCurrent.contains p
        (s.pre, s.origReordered ++ lost, s.postUser)
  | none => ([], current.filter fun p => !host.isMiseShimsDir p, [])

/-- Whether a path is one of `set`, by its spelling or resolved. -/
def Host.lists (host : Host) (set : List PathBuf) (p : PathBuf) : Bool :=
  set.contains p ||
    (host.canonicalizeCached p).any fun c => (set.filterMap host.canonicalizeCached).contains c

/-- `build_path_operations`; `none` is a failed `join_paths`. -/
def buildPathOperations (host : Host) (vars : PathVars) (userPaths toolPaths toRemove : List PathBuf)
    (retainShims : Bool) : Option (List EnvDiffOperation) := do
  let full ← joinPaths vars.path
  let (pre, post, postUser) := partitionPath host vars.origPath toRemove (splitPaths full)
  let toolPathsFiltered := toolPaths.filter fun p =>
    !host.lists post p && !host.lists (pre ++ postUser) p
  let userPathsFiltered := userPaths.filter fun p => !host.lists (pre ++ postUser) p
  let shimDirs := if retainShims then host.shimFarmDirs else []
  let newPath ← joinPaths
    (pre ++ userPathsFiltered ++ toolPathsFiltered ++ shimDirs ++ post ++ postUser)
  let allInstalls := userPathsFiltered ++ toolPathsFiltered
  return .add pathKey newPath :: direnvOperations host.direnv vars.direnvDiff allInstalls toRemove

/-- The diff `HookEnv::run` records: the variables of `miseEnv` other than
`PATH`, the previous values of removed ones, and all user and tool paths. -/
def hookEnvDiff (pristine miseEnv : EnvMap) (envRemove : List String)
    (userPaths toolPaths : List PathBuf) : EnvDiff :=
  let diff := EnvDiff.newDiff pristine (miseEnv.erase pathKey).toList
  let keep := fun (old : IndexMap String String) key =>
    match pristine[key]? with
    | some value => old.insert key value
    | none => old
  { diff with old := envRemove.foldl keep diff.old, path := userPaths ++ toolPaths }

/-! ### Prompts -/

/-- A shell between two prompts: its environment and the diff its
`__MISE_DIFF` stands for. -/
structure Shell where
  env : EnvMap
  diff : EnvDiff

/-- What does not change from prompt to prompt. -/
structure Setup where
  blake3 : String → String
  host : Host
  userPaths : List PathBuf
  toolPaths : List PathBuf

namespace Setup

variable (setup : Setup)

/-- The `PATH` a prompt without shims writes. -/
def writtenPath (s : Shell) : Option String := do
  let pristine ← getPristineEnv setup.blake3 s.diff s.env
  let ops ← buildPathOperations setup.host
    ⟨pathEntries pristine[pathKey]?, s.env[origPathKey]?, s.env["DIRENV_DIFF"]?⟩
    setup.userPaths setup.toolPaths s.diff.path false
  (applyPatches ops s.env)[pathKey]?

/-- A prompt: it writes `PATH`, leaves `__MISE_ORIG_PATH` alone and records all
user and tool paths, and no value of `PATH`, in `__MISE_DIFF`.  Any other
variable may change, by this prompt or by the user. -/
structure Prompt (s s' : Shell) : Prop where
  written : (setup.writtenPath s).isSome
  path : s'.env[pathKey]? = setup.writtenPath s
  orig : s'.env[origPathKey]? = s.env[origPathKey]?
  recorded : s'.diff.path = setup.userPaths ++ setup.toolPaths
  value : s'.diff.new.get pathKey = none

/-- What `HookEnv::run` writes is a prompt, whatever variables it sets and
removes and whatever secrets it withholds from the record. -/
theorem prompt_of_hookEnvDiff {s : Shell} {written : String} (h : setup.writtenPath s = some written)
    (pristine miseEnv : EnvMap) (envRemove exclude : List String) {env : EnvMap}
    (hpath : env[pathKey]? = some written) (horig : env[origPathKey]? = s.env[origPathKey]?) :
    setup.Prompt s ⟨env, ((hookEnvDiff pristine miseEnv envRemove setup.userPaths
      setup.toolPaths).wire setup.blake3 exclude).toEnvDiff⟩ := by
  have hkeys : (((miseEnv.erase pathKey).toList).map Prod.fst).Nodup := by
    rw [List.nodup_iff_pairwise_ne, List.pairwise_map]
    exact Std.TreeMap.distinct_keys_toList.imp fun h e => h (by simp [e])
  have hlookup : ((miseEnv.erase pathKey).toList).lookup pathKey = none := by
    rw [Option.eq_none_iff_forall_ne_some]
    intro v hv
    rw [IndexMap.lookup_eq_some_iff_mem hkeys, Std.TreeMap.mem_toList_iff_getElem?_eq_some,
      EnvMap.getElem?_erase_ite, if_pos rfl] at hv
    cases hv
  have hnew : (EnvDiff.newDiff pristine (miseEnv.erase pathKey).toList).new.get pathKey = none := by
    have := EnvDiff.sides_newDiff pristine hkeys pathKey
    rw [hlookup] at this
    exact congrArg Prod.snd this
  refine ⟨by rw [h]; rfl, hpath.trans h.symm, horig, EnvDiff.wire_path _ _ _, ?_⟩
  have : (((hookEnvDiff pristine miseEnv envRemove setup.userPaths setup.toolPaths).wire
      setup.blake3 exclude).toEnvDiff).new.get pathKey = ((EnvDiff.newDiff pristine
      (miseEnv.erase pathKey).toList).new.get pathKey).map (hashEnvValue setup.blake3) :=
    IndexMap.get_mapValues _ _ _
  rw [this, hnew, Option.map_none]

/-- After a prompt the original `PATH` can be had back, and every later prompt
writes what this one wrote. -/
structure Stable (orig : String) (s : Shell) : Prop where
  restored : ∃ pristine, getPristineEnv setup.blake3 s.diff s.env = some pristine ∧
    pristine[pathKey]? = some orig
  repeated : ∀ s', Relation.ReflTransGen setup.Prompt s s' →
    setup.writtenPath s' = s.env[pathKey]?

/-- Every recorded directory that is not on the original `PATH` is recorded
once; one that is there is a user path once, or a tool path only and there
once. -/
def RecordedOnce (orig : List PathBuf) : Prop :=
  ∀ p ∈ setup.userPaths ++ setup.toolPaths,
    if orig.contains p then
      setup.userPaths.count p = 1 ∨ (setup.userPaths.count p = 0 ∧ orig.count p = 1)
    else (setup.userPaths ++ setup.toolPaths).count p = 1

instance (orig : List PathBuf) : Decidable (setup.RecordedOnce orig) :=
  inferInstanceAs (Decidable (∀ p ∈ setup.userPaths ++ setup.toolPaths, if orig.contains p then
    setup.userPaths.count p = 1 ∨ (setup.userPaths.count p = 0 ∧ orig.count p = 1)
    else (setup.userPaths ++ setup.toolPaths).count p = 1))

/-- The directories put before the original `PATH`. -/
def front (orig : List PathBuf) : List PathBuf :=
  setup.userPaths ++ setup.toolPaths.filter fun p => !orig.contains p

end Setup

/-! ### What is written from the original `PATH` -/

/-- Entries that all are original ones keep their order. -/
theorem foldl_place_of_orig {host : Host} {origPaths current : List PathBuf}
    (hshims : ∀ p ∈ current, host.isMiseShimsDir p = false)
    (horig : ∀ p ∈ current, origPaths.contains p = true) (toRemove : List PathBuf)
    (s : Partition) :
    (current.foldl (Partition.place host origPaths toRemove) s).pre = s.pre ∧
      (current.foldl (Partition.place host origPaths toRemove) s).postUser = s.postUser ∧
      (current.foldl (Partition.place host origPaths toRemove) s).origReordered
        = s.origReordered ++ current ∧
      (current.foldl (Partition.place host origPaths toRemove) s).seenInCurrent
        = s.seenInCurrent ++ current := by
  induction current generalizing s with
  | nil => simp
  | cons p current ih =>
      have hp : Partition.place host origPaths toRemove s p =
          { s with
            seenOrig := true
            origReordered := s.origReordered ++ [p]
            seenInCurrent := s.seenInCurrent ++ [p] } := by
        rw [Partition.place, if_neg (by simp [hshims p]), if_pos (horig p (List.mem_cons_self ..))]
      obtain ⟨h₁, h₂, h₃, h₄⟩ := ih (fun q hq => hshims q (List.mem_cons_of_mem _ hq))
        (fun q hq => horig q (List.mem_cons_of_mem _ hq)) (Partition.place host origPaths toRemove s p)
      rw [List.foldl_cons, h₁, h₂, h₃, h₄, hp]
      simp

/-- The original `PATH` has nothing before or after the original entries. -/
theorem partitionPath_orig {host : Host} (haggr : host.activateAggressive = false) {orig : String}
    (hshims : ∀ p ∈ splitPaths orig, host.isMiseShimsDir p = false) (toRemove : List PathBuf) :
    partitionPath host (some orig) toRemove (splitPaths orig) = ([], splitPaths orig, []) := by
  obtain ⟨h₁, h₂, h₃, h₄⟩ := foldl_place_of_orig hshims
    (fun p hp => contains_of_mem hp) toRemove Partition.start
  have hlost : ((splitPaths orig).filter fun p => !host.isMiseShimsDir p &&
      !(Partition.start.seenInCurrent ++ splitPaths orig).contains p) = [] := by
    rw [List.filter_eq_nil_iff]
    intro p hp
    have : (splitPaths orig).contains p = true := contains_of_mem hp
    simp [Partition.start, this]
  simp only [partitionPath, haggr, Bool.false_eq_true, if_false, h₁, h₂, h₃, h₄, hlost]
  simp [Partition.start]

theorem lists_of_canonicalize_some {host : Host} (hcanon : host.canonicalizeCached = some)
    (set : List PathBuf) (p : PathBuf) : host.lists set p = set.contains p := by
  simp [Host.lists, hcanon]

section

variable {setup : Setup} {s : Shell} {orig : String}

/-- **What a prompt writes from the original `PATH`.** -/
theorem writtenPath_of_restored (haggr : setup.host.activateAggressive = false)
    (hcanon : setup.host.canonicalizeCached = some)
    (hshims : ∀ p ∈ splitPaths orig, setup.host.isMiseShimsDir p = false)
    (horig : s.env[origPathKey]? = some orig)
    (hpristine : ∃ pristine, getPristineEnv setup.blake3 s.diff s.env = some pristine ∧
      pristine[pathKey]? = some orig) :
    setup.writtenPath s = joinPaths (setup.front (splitPaths orig) ++ splitPaths orig) := by
  obtain ⟨pristine, hp, hpath⟩ := hpristine
  have hentries : pathEntries (some orig) = splitPaths orig := rfl
  have htool : (setup.toolPaths.filter fun p =>
      !setup.host.lists (splitPaths orig) p && !setup.host.lists [] p)
        = setup.toolPaths.filter fun p => !(splitPaths orig).contains p :=
    List.filter_congr fun p _ => by simp [lists_of_canonicalize_some hcanon]
  have huser : (setup.userPaths.filter fun p => !setup.host.lists [] p) = setup.userPaths :=
    List.filter_eq_self.2 fun p _ => by simp [lists_of_canonicalize_some hcanon]
  rw [Setup.writtenPath, hp]
  simp only [Option.bind_eq_bind, Option.bind_some, buildPathOperations, hpath, hentries,
    joinPaths_splitPaths, horig, partitionPath_orig haggr hshims, List.nil_append,
    List.append_nil, htool, huser, Setup.front, Bool.false_eq_true, if_false, Option.pure_def]
  cases hj : joinPaths (setup.userPaths ++ (setup.toolPaths.filter fun p =>
      !(splitPaths orig).contains p) ++ splitPaths orig) with
  | none => rfl
  | some new =>
      rw [Option.bind_some, Option.bind_some, applyPatches, List.foldl_cons, ← applyPatches,
        getElem?_applyPatches_of_ne fun op hop => by
          rw [key_of_mem_direnvOperations hop]; decide]
      exact (EnvMap.getElem?_insert_ite _ _ _ _).trans (if_pos rfl)

/-! ### What is left of it -/

/-- A directory of the original `PATH` is never taken off altogether. -/
theorem pristinePath_ne_nil {origPath managed path : List PathBuf} {p : PathBuf}
    (ho : p ∈ origPath) (hp : p ∈ path) : pristinePath origPath managed path ≠ [] := by
  have hcount : 0 < (pristinePath origPath managed path).count p := by
    have hpos := count_pos_of_mem hp
    rw [pristinePath, count_dropMarked (respects_keepOrig origPath path), contains_of_mem ho]
    split_ifs with h
    · have : path.count p ≠ 1 := by simpa using h.1
      omega
    · exact hpos
  intro h
  rw [h] at hcount
  exact absurd hcount (by simp)

theorem count_front (orig : List PathBuf) (p : PathBuf) :
    (setup.front orig).count p =
      setup.userPaths.count p + if orig.contains p then 0 else setup.toolPaths.count p := by
  have hresp : Respects fun p : PathBuf => !orig.contains p := fun a b h => by
    simp only [contains_respects orig a b h]
  rw [Setup.front, List.count_append, count_filter_respects hresp]
  by_cases h : orig.contains p <;> simp [h]

/-- **When the recorded directories come off again.** -/
theorem pristinePath_front_iff (orig : List PathBuf) :
    pristinePath orig (setup.userPaths ++ setup.toolPaths) (setup.front orig ++ orig) = orig ↔
      setup.RecordedOnce orig := by
  set marked := setup.userPaths ++ setup.toolPaths with hmarked
  have hin : ∀ p ∈ setup.front orig, p ∈ marked := by
    intro p hp
    rcases List.mem_append.1 hp with hp | hp
    · exact List.mem_append_left _ hp
    · exact List.mem_append_right _ (List.mem_of_mem_filter hp)
  constructor
  · intro h p hp
    have hcount : (pristinePath orig marked (setup.front orig ++ orig)).count p = orig.count p := by
      rw [h]
    have hpos : 0 < setup.userPaths.count p + setup.toolPaths.count p := by
      rw [← List.count_append]
      exact count_pos_of_mem hp
    rw [pristinePath, count_dropMarked (respects_keepOrig orig _), contains_of_mem hp,
      List.count_append, count_front] at hcount
    split_ifs with ho
    · have := contains_iff_count_pos.1 ho
      simp only [ho, if_true, Nat.add_zero, Bool.true_and, and_true, beq_eq_false_iff_ne] at hcount
      split_ifs at hcount <;> omega
    · rw [Bool.not_eq_true] at ho
      have := count_eq_zero_iff.2 ho
      rw [List.count_append]
      simp only [ho, Bool.false_and, and_self, if_true, Bool.false_eq_true, if_false] at hcount
      omega
  · intro h
    refine dropMarked_append_eq_right (fun p hp => ⟨?_, contains_of_mem (hin p hp)⟩)
      (fun p hp => ?_) fun p hp => ?_
    · have := count_pos_of_mem hp
      by_cases ho : orig.contains p = true
      · have := contains_iff_count_pos.1 ho
        simp only [ho, List.count_append, Bool.true_and, beq_eq_false_iff_ne]
        omega
      · simp only [ho, Bool.false_and]
    · have hpos := count_pos_of_mem hp
      have hrec := h p (hin p hp)
      rw [count_front] at hpos ⊢
      split_ifs at hrec hpos ⊢ with ho
      · omega
      · rw [List.count_append] at hrec
        omega
    · by_cases hm : marked.contains p = true
      · obtain ⟨q, hq, hpq⟩ := List.contains_iff_exists_mem_beq.1 hm
        have hrec := h q hq
        have ho : orig.contains q = true :=
          (contains_respects orig p q hpq).symm.trans (contains_of_mem hp)
        have hcount : ∀ l : List PathBuf, l.count p = l.count q := fun l =>
          count_respects l p q hpq
        rw [if_pos ho] at hrec
        rcases hrec with hone | ⟨hzero, hone⟩
        · refine Or.inr (Or.inr (contains_iff_count_pos.2 ?_))
          rw [hcount, count_front, hone]
          omega
        · refine Or.inl ?_
          simp only [contains_of_mem hp, List.count_append, hcount, count_front, ho, hzero, hone]
          rfl
      · exact Or.inr (Or.inl (by simpa using hm))

/-- The reversal leaves `PATH` alone when the record has no new value of it. -/
theorem reverseDiff_pathKey {d : EnvDiff} (hd : d.new.get pathKey = none) {env : EnvMap} {p : String}
    (hp : env[pathKey]? = some p) (blake3 : String → String) :
    (reverseDiffPreservingOverrides blake3 d env)[pathKey]? = env[pathKey]? := by
  rw [getElem?_reverseDiff, reverseAt, hd, hp]
  cases d.old.get pathKey <;> rfl

/-- **The `PATH` got back after a prompt**, for a prompt that wrote `written`. -/
theorem restored_iff (horig : s.env[origPathKey]? = some orig) {written : String}
    (hjoin : joinPaths (setup.front (splitPaths orig) ++ splitPaths orig) = some written)
    (hpath : s.env[pathKey]? = some written)
    (hrec : s.diff.path = setup.userPaths ++ setup.toolPaths)
    (hval : s.diff.new.get pathKey = none) :
    (∃ pristine, getPristineEnv setup.blake3 s.diff s.env = some pristine ∧
      pristine[pathKey]? = some orig) ↔ setup.RecordedOnce (splitPaths orig) := by
  obtain ⟨joined, env, hjoined, henv, hpathEnv, -⟩ := getElem?_getPristineEnv setup.blake3 s.diff
    s.env (reverseDiff_pathKey hval hpath setup.blake3)
  have hne : setup.front (splitPaths orig) ++ splitPaths orig ≠ [] :=
    List.append_ne_nil_of_right_ne_nil _ (splitPaths_ne_nil orig)
  have hsplit : pathEntries s.env[pathKey]? = setup.front (splitPaths orig) ++ splitPaths orig := by
    rw [hpath]
    exact splitPaths_of_joinPaths hjoin hne
  have hentries : pathEntries s.env[origPathKey]? = splitPaths orig := by rw [horig]; rfl
  rw [hsplit, hentries, hrec] at hjoined
  rw [← pristinePath_front_iff]
  constructor
  · rintro ⟨env', henv', hback⟩
    obtain rfl : env = env' := Option.some.inj (henv.symm.trans henv')
    obtain rfl : joined = orig := Option.some.inj (hpathEnv.symm.trans hback)
    obtain ⟨p, hp⟩ := List.exists_mem_of_ne_nil _ (splitPaths_ne_nil joined)
    exact (splitPaths_of_joinPaths hjoined
      (pristinePath_ne_nil hp (List.mem_append_right _ hp))).symm
  · intro h
    rw [h, joinPaths_splitPaths] at hjoined
    exact ⟨env, henv, hpathEnv.trans hjoined.symm⟩

end

/-- **When `PATH` is stable under prompts.**  A prompt from the original `PATH`
can be undone, and is repeated by every later one, exactly when each directory
it recorded is one it put on `PATH` once or one the original `PATH` has once. -/
theorem hook_env_path_stable_iff (setup : Setup)
    (haggr : setup.host.activateAggressive = false)
    (hcanon : setup.host.canonicalizeCached = some) (orig : String)
    (hshims : ∀ p ∈ splitPaths orig, setup.host.isMiseShimsDir p = false) (s₀ s : Shell)
    (horig : s₀.env[origPathKey]? = some orig)
    (hpristine : ∃ pristine, getPristineEnv setup.blake3 s₀.diff s₀.env = some pristine ∧
      pristine[pathKey]? = some orig)
    (hprompt : setup.Prompt s₀ s) :
    setup.Stable orig s ↔ setup.RecordedOnce (splitPaths orig) := by
  have hfirst := writtenPath_of_restored haggr hcanon hshims horig hpristine
  obtain ⟨written, hwritten⟩ := Option.isSome_iff_exists.1 hprompt.written
  have hjoin := hfirst.symm.trans hwritten
  -- Every state in which the original `PATH` and the record are as this prompt left them.
  have hstep : ∀ t : Shell, t.env[origPathKey]? = some orig → t.env[pathKey]? = some written →
      t.diff.path = setup.userPaths ++ setup.toolPaths → t.diff.new.get pathKey = none →
      setup.RecordedOnce (splitPaths orig) → setup.writtenPath t = some written := by
    intro t ho hp hr hv hrec
    rw [writtenPath_of_restored haggr hcanon hshims ho ((restored_iff ho hjoin hp hr hv).2 hrec)]
    exact hjoin
  have ho : s.env[origPathKey]? = some orig := hprompt.orig.trans horig
  have hp : s.env[pathKey]? = some written := hprompt.path.trans hwritten
  constructor
  · intro h
    exact (restored_iff ho hjoin hp hprompt.recorded hprompt.value).1 h.restored
  · intro hrec
    refine ⟨(restored_iff ho hjoin hp hprompt.recorded hprompt.value).2 hrec, fun s' hrun => ?_⟩
    have hinv : s'.env[origPathKey]? = some orig ∧ s'.env[pathKey]? = some written ∧
        s'.diff.path = setup.userPaths ++ setup.toolPaths ∧ s'.diff.new.get pathKey = none := by
      induction hrun with
      | refl => exact ⟨ho, hp, hprompt.recorded, hprompt.value⟩
      | tail _ hnext ih =>
          obtain ⟨ho', hp', hr', hv'⟩ := ih
          exact ⟨hnext.orig.trans ho', hnext.path.trans (hstep _ ho' hp' hr' hv' hrec),
            hnext.recorded, hnext.value⟩
    obtain ⟨ho', hp', hr', hv'⟩ := hinv
    rw [hp]
    exact hstep s' ho' hp' hr' hv' hrec

/-! ### A tool directory that the original `PATH` lacks, and one it has twice -/

/-- A shell before its first prompt can be undone. -/
theorem restored_of_fresh (blake3 : String → String) {s : Shell} {orig : String}
    (hpath : s.env[pathKey]? = some orig) (hrec : s.diff.path = [])
    (hval : s.diff.new.get pathKey = none) :
    ∃ pristine, getPristineEnv blake3 s.diff s.env = some pristine ∧
      pristine[pathKey]? = some orig := by
  obtain ⟨joined, env, hjoined, henv, hpathEnv, -⟩ := getElem?_getPristineEnv blake3 s.diff s.env
    (reverseDiff_pathKey hval hpath blake3)
  refine ⟨env, henv, ?_⟩
  rw [pristinePath, dropMarked_eq_self fun p _ => Or.inr (by rw [hrec]; rfl), hpath] at hjoined
  exact hpathEnv.trans (hjoined.symm.trans (joinPaths_splitPaths orig))

/-- One tool directory, on a machine without shims or symbolic links. -/
def sampleSetup : Setup where
  blake3 := sampleDigest
  host := ⟨false, fun _ => false, fun _ => false, some, [], ⟨fun _ => none, fun _ => none⟩⟩
  userPaths := []
  toolPaths := [⟨"/opt/x/bin"⟩]

/-- A shell with the given `PATH`s and record. -/
def sampleShell (path orig : String) (recorded : List PathBuf) : Shell :=
  ⟨((∅ : EnvMap).insert origPathKey orig).insert pathKey path, ⟨envStateVersion, .empty, .empty, recorded⟩⟩

/-- The first prompt of such a shell writes the tool directory before `PATH`
unless it is there. -/
theorem writtenPath_sampleShell (orig : String) :
    sampleSetup.writtenPath (sampleShell orig orig []) =
      joinPaths (sampleSetup.front (splitPaths orig) ++ splitPaths orig) := by
  have hpath : (sampleShell orig orig []).env[pathKey]? = some orig := by
    rw [sampleShell, EnvMap.getElem?_insert_ite, if_pos rfl]
  have horig : (sampleShell orig orig []).env[origPathKey]? = some orig := by
    rw [sampleShell, EnvMap.getElem?_insert_ite, if_neg (by decide), EnvMap.getElem?_insert_ite,
      if_pos rfl]
  exact writtenPath_of_restored rfl rfl (fun _ _ => rfl) horig
    (restored_of_fresh sampleSetup.blake3 hpath rfl rfl)

theorem hook_env_path_stable_sample : sampleSetup.Stable "/usr/bin"
    (sampleShell "/opt/x/bin:/usr/bin" "/usr/bin" [⟨"/opt/x/bin"⟩]) := by
  have hfresh : ∃ pristine, getPristineEnv sampleDigest (sampleShell "/usr/bin" "/usr/bin" []).diff
      (sampleShell "/usr/bin" "/usr/bin" []).env = some pristine ∧
      pristine[pathKey]? = some "/usr/bin" :=
    restored_of_fresh sampleDigest (by decide) rfl rfl
  refine (hook_env_path_stable_iff sampleSetup rfl rfl "/usr/bin" (fun _ _ => rfl)
    (sampleShell "/usr/bin" "/usr/bin" []) _ (by decide) hfresh
    ⟨?_, ?_, by decide, rfl, rfl⟩).2 (by decide)
  · rw [writtenPath_sampleShell]; decide
  · rw [writtenPath_sampleShell]; decide

/-- A `PATH` that has the tool directory twice. -/
def sampleTwice : String := "/opt/x/bin:/usr/bin:/opt/x/bin"

/-- The directory is left out, being on the original `PATH`, and is taken off
its front all the same. -/
theorem hook_env_path_unstable_sample :
    sampleSetup.Prompt (sampleShell sampleTwice sampleTwice [])
        (sampleShell sampleTwice sampleTwice [⟨"/opt/x/bin"⟩]) ∧
      ¬ sampleSetup.Stable sampleTwice
        (sampleShell sampleTwice sampleTwice [⟨"/opt/x/bin"⟩]) := by
  have hwritten : sampleSetup.writtenPath (sampleShell sampleTwice sampleTwice [])
      = some sampleTwice := by
    rw [writtenPath_sampleShell]; decide
  refine ⟨⟨by rw [hwritten]; rfl, by rw [hwritten]; decide, by decide, rfl, rfl⟩, fun h => ?_⟩
  have hjoin : joinPaths (sampleSetup.front (splitPaths sampleTwice) ++ splitPaths sampleTwice)
      = some sampleTwice := by decide
  have honce := (restored_iff (by decide) hjoin (by decide) rfl rfl).1 h.restored
  exact absurd honce (by decide)

end Mise
