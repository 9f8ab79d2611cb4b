/-
# The session, and the prompt that does nothing

`build_session`, `get_watch_files`, `config_search_dir_mtimes` and
`check_exit_early_fast` in `src/hook_env.rs`.

A full hook-env run records what it read in `__MISE_SESSION`: the loaded config
files, files read by templates, watched files, and the latest modification time
among them.  The next prompt is to find, without loading any configuration,
that nothing changed.

Both sides look at the same files but not in the same way.  The session takes
the times of the files that exist; the prompt falls back to a full run on any
recorded file that does not.  And the files whose times enter the session are
the watched ones, not the config files as such.  `full_run_stabilises_iff` says
exactly when the prompt exits early.
-/

import Mathlib.Data.Int.Notation
import Mise.Env.Pristine

namespace Mise

open Lib

/-- The file system at one moment: the modification time of every path that
exists, in nanoseconds since the epoch.  Paths that compare equal name one
file. -/
structure Snapshot where
  modified : PathBuf → Option ℤ
  congr : Respects modified

/-- `mtime_to_millis`: times before the epoch count as the epoch. -/
def mtimeToMillis (mtime : ℤ) : ℕ := (mtime / 1000000).toNat

/-- `WatchFilePattern`: globs under a root, or literal paths. -/
structure WatchFilePattern where
  root : Option PathBuf
  patterns : List String
  deriving DecidableEq

/-- What a prompt reads besides its session: the files, the directories of
mise, the settings and the `glob` crate. -/
structure Machine where
  fs : Snapshot
  cwd : Option PathBuf
  dataDir : PathBuf
  trustedConfigs : PathBuf
  ignoredConfigs : PathBuf
  /-- `file::all_dirs` up to `MISE_CEILING_PATHS`; `none` is its error. -/
  allDirs : PathBuf → Option (List PathBuf)
  /-- The distinct parents of `DEFAULT_CONFIG_FILENAMES`. -/
  configSubdirs : List String
  /-- The paths `glob::glob` finds for a pattern under an escaped directory. -/
  globIn : PathBuf → String → List PathBuf
  /-- `watch_files::glob`; `none` is its error. -/
  watchGlob : PathBuf → List String → Option (List PathBuf)
  chpwdOnly : Bool
  /-- `hook_env.cache_ttl` in milliseconds, 0 when unset or invalid. -/
  cacheTtlMs : ℕ
  /-- `hash_to_str`. -/
  hashToStr : List (String × String) → String

/-- The parts of a loaded `Config` the session is built from: the config files
with the paths each includes, and the files its templates read. -/
structure LoadedConfig where
  configFiles : List (PathBuf × List PathBuf)
  teraFiles : List PathBuf

/-- `HookEnvSession`. -/
structure HookEnvSession where
  v : ℕ
  loadedTools : List String
  loadedConfigs : List PathBuf
  configPaths : List PathBuf
  env : List (String × String)
  aliases : IndexMap String String
  teraFiles : List PathBuf
  watchFiles : List PathBuf
  dir : Option PathBuf
  envVarHash : String
  latestUpdate : ℕ
  hookEnvShortcutsUnset : Bool

/-! ### Building the session -/

/-- Insertion into a set of paths. -/
def insertPath (set : List PathBuf) (p : PathBuf) : List PathBuf :=
  if set.contains p then set else set ++ [p]

namespace Machine

variable (m : Machine)

/-- `Path::exists`. -/
def pathExists (p : PathBuf) : Bool := (m.fs.modified p).isSome

/-- One run of patterns with a common root. -/
def expandChunk (root : Option PathBuf) (patterns : List String) : Option (List PathBuf) :=
  match root with
  | some root => m.watchGlob root patterns
  | none => some (patterns.map fun p => ⟨p⟩)

/-- The patterns with the consecutive ones of one root joined
(`chunk_by(|wfp| wfp.root.clone())`). -/
def chunkByRoot : List WatchFilePattern → List (Option PathBuf × List String)
  | [] => []
  | wfp :: rest =>
      match chunkByRoot rest with
      | (root, patterns) :: chunks =>
          if wfp.root == root then (wfp.root, wfp.patterns ++ patterns) :: chunks
          else (wfp.root, wfp.patterns) :: (root, patterns) :: chunks
      | [] => [(wfp.root, wfp.patterns)]

/-- The paths the patterns stand for. -/
def watchedPaths (watchFiles : List WatchFilePattern) : Option (List PathBuf) :=
  (List.mapM (fun c => m.expandChunk c.1 c.2) (chunkByRoot watchFiles)).map List.flatten

/-- The directories of mise's own state, as far as they exist. -/
def stateDirs : List PathBuf :=
  [m.dataDir, m.trustedConfigs, m.ignoredConfigs].filter m.pathExists

/-- `get_watch_files`. -/
def getWatchFiles (watchFiles : List WatchFilePattern) : Option (List PathBuf) :=
  (m.watchedPaths watchFiles).map fun paths => (m.stateDirs ++ paths).foldl insertPath []

/-- The directories a config file may be added to, for one ancestor of the
current directory. -/
def checkDirs (dir : PathBuf) (subdir : String) : List PathBuf :=
  if subdir.toList.any fun c => c == '*' || c == '?' || c == '[' then m.globIn dir subdir
  else if subdir.isEmpty then [dir]
  else [⟨dir.raw ++ "/" ++ subdir⟩]

/-- `config_search_dir_mtimes`. -/
def configSearchDirMtimes : List ℤ :=
  match m.cwd.bind m.allDirs with
  | some ancestorDirs =>
      (ancestorDirs.flatMap fun dir => m.configSubdirs.flatMap (m.checkDirs dir)).filterMap
        m.fs.modified
  | none => []

/-- The `MISE_` variables of a pristine environment, sorted. -/
def miseEnvVars (pristine : EnvMap) : List (String × String) :=
  pristine.toList.filter fun e => startsWith e.1 "MISE_"

/-- `get_mise_env_vars_hashed`. -/
def getMiseEnvVarsHashed (pristine : EnvMap) : String := m.hashToStr (miseEnvVars pristine)

/-- The modification times `build_session` takes the latest of. -/
def sessionMtimes (config : LoadedConfig) (watchFiles : List PathBuf) : List ℤ :=
  watchFiles.filterMap m.fs.modified ++ config.teraFiles.filterMap m.fs.modified ++
    [m.dataDir].filterMap m.fs.modified ++ m.configSearchDirMtimes ++
    (config.configFiles.flatMap Prod.snd).filterMap m.fs.modified

/-- `build_session`; `none` is an error of `get_watch_files`. -/
def buildSession (blake3 : String → String) (pristine : EnvMap) (config : LoadedConfig)
    (env : EnvMap) (aliases : IndexMap String String) (loadedTools : List String)
    (watchFiles : List WatchFilePattern) (configPaths : List PathBuf) : Option HookEnvSession := do
  let resolvedWatchFiles ← m.getWatchFiles watchFiles
  let maxModtime := (m.sessionMtimes config resolvedWatchFiles).foldl max 0
  let includedPaths := config.configFiles.flatMap Prod.snd
  return {
    v := envStateVersion
    loadedTools
    loadedConfigs := (config.configFiles.map Prod.fst ++ includedPaths).foldl insertPath []
    configPaths
    env := env.toList.map fun e => (e.1, hashEnvValue blake3 e.2)
    aliases
    teraFiles := config.teraFiles
    watchFiles := resolvedWatchFiles
    dir := m.cwd
    envVarHash := m.getMiseEnvVarsHashed pristine
    latestUpdate := mtimeToMillis maxModtime
    hookEnvShortcutsUnset := !m.chpwdOnly && m.cacheTtlMs == 0 }

end Machine

/-! ### The prompt -/

/-- One call of `mise hook-env`: its arguments, its pristine environment, and
what it finds outside the files of the session. -/
structure Call where
  args : List String
  pristine : EnvMap
  untrustedWarningMarker : Bool
  promptCheckDue : Bool
  zshPrecmdRun : Bool
  now : ℕ
  lastFullCheck : ℕ

/-- What the check decides: exit early, writing the time of this check or not;
run in full; or run in full and not exit early later either
(`FAST_PATH_FORCED_FULL_RUN`). -/
inductive FastCheck where
  | exitEarly (lastFullCheck : Option ℕ)
  | fullRun
  | forceFullRun
  deriving DecidableEq

/-- Whether `check_exit_early_fast` returns true. -/
def FastCheck.exits : FastCheck → Bool
  | exitEarly _ => true
  | fullRun | forceFullRun => false

/-- `has_preclap_logging_flag`. -/
def hasPreclapLoggingFlag (args : List String) : Bool :=
  args.any fun arg =>
    arg == "-q" || arg == "--quiet" || arg == "--silent" || arg == "--log-level" ||
      startsWith arg "--log-level="

/-- Whether the call names `precmd` as its reason, in one argument or two. -/
def Call.isPrecmd (call : Call) : Bool :=
  (call.args.any fun a => a == "--reason=precmd") ||
    (call.args.zip call.args.tail).any fun w => w.1 == "--reason" && w.2 == "precmd"

namespace Machine

variable (m : Machine)

/-- Whether a recorded file is later than the session or gone. -/
def changedSince (latestUpdate : ℕ) (p : PathBuf) : Bool :=
  match m.fs.modified p with
  | some t => decide (latestUpdate < mtimeToMillis t)
  | none => true

/-- `have_trust_state_dirs_been_modified`. -/
def haveTrustStateDirsBeenModified (session : HookEnvSession) : Bool :=
  [m.trustedConfigs, m.ignoredConfigs].any fun path =>
    !session.watchFiles.contains path &&
      (m.fs.modified path).any fun t => decide (session.latestUpdate < mtimeToMillis t)

/-- `dir_change`, as to whether there is one. -/
def dirChange (session : HookEnvSession) : Bool :=
  match session.dir, m.cwd with
  | some old, some new => !(old == new)
  | none, some _ => true
  | _, none => false

/-- The staleness checks of `check_exit_early_fast` on the file system. -/
def filesChanged (session : HookEnvSession) : Bool :=
  session.loadedConfigs.any (m.changedSince session.latestUpdate) ||
    session.teraFiles.any (m.changedSince session.latestUpdate) ||
    session.watchFiles.any (m.changedSince session.latestUpdate) ||
    m.haveTrustStateDirsBeenModified session ||
    m.changedSince session.latestUpdate m.dataDir ||
    m.configSearchDirMtimes.any fun t => decide (session.latestUpdate < mtimeToMillis t)

/-- `check_exit_early_fast`. -/
def checkExitEarlyFast (call : Call) (session : HookEnvSession) : FastCheck :=
  if call.args.length < 2 || call.args[1]? != some "hook-env" then .fullRun
  else if hasPreclapLoggingFlag call.args then .fullRun
  else if session.dir.isNone then .fullRun
  else if call.args.any fun a => a == "--force" || a == "-f" then .fullRun
  else if call.untrustedWarningMarker then .fullRun
  else if call.promptCheckDue then .fullRun
  else if call.isPrecmd && !call.zshPrecmdRun then .fullRun
  else
    let (chpwdOnly, cacheTtlMs) :=
      if session.hookEnvShortcutsUnset then (false, 0) else (m.chpwdOnly, m.cacheTtlMs)
    let withinTtlWindow := 0 < cacheTtlMs && call.now - call.lastFullCheck < cacheTtlMs
    if m.dirChange session then .fullRun
    else if m.getMiseEnvVarsHashed call.pristine != session.envVarHash then .fullRun
    else if chpwdOnly && call.isPrecmd then .exitEarly none
    else if withinTtlWindow then .exitEarly none
    else if m.filesChanged session then .forceFullRun
    else .exitEarly (if 0 < cacheTtlMs then some call.now else none)

end Machine

/-! ### Times and sets -/

theorem mtimeToMillis_mono {s t : ℤ} (h : s ≤ t) : mtimeToMillis s ≤ mtimeToMillis t := by
  unfold mtimeToMillis
  omega

/-- The latest of a list of times is at least every one of them, and is one of
them or the epoch. -/
theorem foldl_max_spec (ts : List ℤ) (t₀ : ℤ) :
    t₀ ≤ ts.foldl max t₀ ∧ (∀ t ∈ ts, t ≤ ts.foldl max t₀) ∧
      (ts.foldl max t₀ = t₀ ∨ ts.foldl max t₀ ∈ ts) := by
  induction ts generalizing t₀ with
  | nil => simp
  | cons a ts ih =>
      obtain ⟨h₀, hall, hone⟩ := ih (max t₀ a)
      rw [List.foldl_cons]
      refine ⟨by omega, fun t ht => ?_, ?_⟩
      · rcases List.mem_cons.1 ht with rfl | ht
        · omega
        · exact hall t ht
      · rcases hone with hone | hone
        · rw [hone]
          rcases Int.le_total t₀ a with h | h
          · exact Or.inr (by simp [Int.max_eq_right h])
          · exact Or.inl (Int.max_eq_left h)
        · exact Or.inr (List.mem_cons_of_mem _ hone)

/-- **Which times the latest one covers.** -/
theorem mtimeToMillis_le_latest_iff (ts : List ℤ) (t : ℤ) :
    mtimeToMillis t ≤ mtimeToMillis (ts.foldl max 0) ↔
      mtimeToMillis t = 0 ∨ ∃ u ∈ ts, mtimeToMillis t ≤ mtimeToMillis u := by
  obtain ⟨-, hall, hone⟩ := foldl_max_spec ts 0
  constructor
  · intro h
    rcases hone with hone | hone
    · rw [hone] at h
      exact Or.inl (Nat.le_zero.1 h)
    · exact Or.inr ⟨_, hone, h⟩
  · rintro (h | ⟨u, hu, h⟩)
    · omega
    · exact Nat.le_trans h (mtimeToMillis_mono (hall u hu))

/-- A set of paths holds what was put in, as one of its spellings. -/
theorem foldl_insertPath_spec (l set : List PathBuf) :
    (∀ p ∈ l.foldl insertPath set, p ∈ set ∨ p ∈ l) ∧
      (∀ p ∈ set, p ∈ l.foldl insertPath set) ∧ ∀ p ∈ l, (l.foldl insertPath set).contains p := by
  induction l generalizing set with
  | nil => simp
  | cons a l ih =>
      obtain ⟨hsub, hkeep, hin⟩ := ih (insertPath set a)
      have hset : ∀ p ∈ set, p ∈ insertPath set a := by
        intro p hp
        unfold insertPath
        split_ifs
        · exact hp
        · exact List.mem_append_left _ hp
      have ha : ∃ b ∈ insertPath set a, a == b := by
        unfold insertPath
        split_ifs with h
        · exact List.contains_iff_exists_mem_beq.1 h
        · exact ⟨a, by simp, ReflBEq.rfl⟩
      rw [List.foldl_cons]
      refine ⟨fun p hp => ?_, fun p hp => hkeep p (hset p hp), fun p hp => ?_⟩
      · rcases hsub p hp with hp | hp
        · unfold insertPath at hp
          split_ifs at hp
          · exact Or.inl hp
          · rcases List.mem_append.1 hp with hp | hp
            · exact Or.inl hp
            · exact Or.inr (List.mem_singleton.1 hp ▸ List.mem_cons_self ..)
        · exact Or.inr (List.mem_cons_of_mem _ hp)
      · rcases List.mem_cons.1 hp with rfl | hp
        · obtain ⟨b, hb, hpb⟩ := ha
          exact List.contains_iff_exists_mem_beq.2 ⟨b, hkeep b hb, hpb⟩
        · exact hin p hp

/-- A property of files holds of a set of paths when it holds of the paths put
in. -/
theorem forall_mem_foldl_insertPath {f : PathBuf → Prop} (hf : ∀ a b, a == b → (f a ↔ f b))
    (l : List PathBuf) : (∀ p ∈ l.foldl insertPath [], f p) ↔ ∀ p ∈ l, f p := by
  obtain ⟨hsub, -, hin⟩ := foldl_insertPath_spec l []
  constructor
  · intro h p hp
    obtain ⟨q, hq, hpq⟩ := List.contains_iff_exists_mem_beq.1 (hin p hp)
    exact (hf p q hpq).2 (h q hq)
  · intro h p hp
    rcases hsub p hp with hp | hp
    · exact absurd hp List.not_mem_nil
    · exact h p hp

/-! ### When the prompt exits early -/

namespace Machine

variable {m : Machine}

theorem changedSince_eq_false_iff {latest : ℕ} {p : PathBuf} :
    m.changedSince latest p = false ↔
      ∃ t, m.fs.modified p = some t ∧ mtimeToMillis t ≤ latest := by
  unfold changedSince
  cases m.fs.modified p with
  | none => simp
  | some t => simp

theorem changedSince_congr {latest : ℕ} {a b : PathBuf} (h : a == b) :
    m.changedSince latest a = m.changedSince latest b := by
  unfold changedSince
  rw [m.fs.congr a b h]

/-- What a session needs for the next prompt to find nothing changed: every path
it names exists, and no config file is later than all the files it takes the
time of. -/
structure Settled (m : Machine) (config : LoadedConfig) (watched : List PathBuf) : Prop where
  named : ∀ p ∈ config.configFiles.map Prod.fst ++ config.configFiles.flatMap Prod.snd ++
    config.teraFiles ++ watched, m.pathExists p = true
  covered : ∀ p ∈ config.configFiles.map Prod.fst, ∀ t, m.fs.modified p = some t →
    mtimeToMillis t = 0 ∨
      ∃ u ∈ m.sessionMtimes config (m.stateDirs ++ watched), mtimeToMillis t ≤ mtimeToMillis u

/-- The watch set has the times of the paths put in. -/
theorem mem_filterMap_foldl_insertPath (l : List PathBuf) (t : ℤ) :
    t ∈ (l.foldl insertPath []).filterMap m.fs.modified ↔ t ∈ l.filterMap m.fs.modified := by
  have h := forall_mem_foldl_insertPath (f := fun p => m.fs.modified p ≠ some t)
    (fun a b hab => by rw [m.fs.congr a b hab]) l
  rw [List.mem_filterMap, List.mem_filterMap, ← not_iff_not]
  simpa only [not_exists, not_and] using h

theorem mem_sessionMtimes_foldl_insertPath (config : LoadedConfig) (l : List PathBuf) (t : ℤ) :
    t ∈ m.sessionMtimes config (l.foldl insertPath []) ↔ t ∈ m.sessionMtimes config l := by
  simp only [sessionMtimes, List.mem_append, mem_filterMap_foldl_insertPath]

/-- A path whose time enters the session is unchanged while it exists. -/
theorem changedSince_latest_iff {ts : List ℤ} {p : PathBuf}
    (h : ∀ t, m.fs.modified p = some t → t ∈ ts) :
    m.changedSince (mtimeToMillis (ts.foldl max 0)) p = false ↔ m.pathExists p = true := by
  rw [changedSince_eq_false_iff, pathExists, Option.isSome_iff_exists]
  constructor
  · rintro ⟨t, ht, -⟩
    exact ⟨t, ht⟩
  · rintro ⟨t, ht⟩
    exact ⟨t, ht, mtimeToMillis_mono ((foldl_max_spec ts 0).2.1 t (h t ht))⟩

/-- A trust directory is watched or does not exist. -/
theorem haveTrustStateDirsBeenModified_eq_false {session : HookEnvSession} {watched : List PathBuf}
    (hwatch : session.watchFiles = (m.stateDirs ++ watched).foldl insertPath []) :
    m.haveTrustStateDirsBeenModified session = false := by
  rw [haveTrustStateDirsBeenModified, List.any_eq_false]
  intro p hp
  cases hm : m.fs.modified p with
  | none => simp
  | some t =>
      have hin : p ∈ m.stateDirs ++ watched := by
        refine List.mem_append_left _ (List.mem_filter.2 ⟨List.mem_cons_of_mem _ hp, ?_⟩)
        rw [pathExists, hm]; rfl
      have := (foldl_insertPath_spec (m.stateDirs ++ watched) []).2.2 p hin
      rw [hwatch, this]
      simp

/-- **When the files look unchanged** to the prompt after a full run. -/
theorem filesChanged_eq_false_iff {config : LoadedConfig} {watched : List PathBuf}
    {session : HookEnvSession} (hdata : m.pathExists m.dataDir = true)
    (hwatch : session.watchFiles = (m.stateDirs ++ watched).foldl insertPath [])
    (htera : session.teraFiles = config.teraFiles)
    (hconfigs : session.loadedConfigs = (config.configFiles.map Prod.fst ++
      config.configFiles.flatMap Prod.snd).foldl insertPath [])
    (hlatest : session.latestUpdate =
      mtimeToMillis ((m.sessionMtimes config session.watchFiles).foldl max 0)) :
    m.filesChanged session = false ↔ m.Settled config watched := by
  set ts := m.sessionMtimes config session.watchFiles with hts
  have hmem : ∀ t, t ∈ ts ↔ t ∈ m.sessionMtimes config (m.stateDirs ++ watched) := fun t => by
    rw [hts, hwatch, mem_sessionMtimes_foldl_insertPath]
  have hparts : ∀ t, t ∈ ts ↔
      (t ∈ (m.stateDirs ++ watched).filterMap m.fs.modified ∨
        t ∈ config.teraFiles.filterMap m.fs.modified ∨ t ∈ [m.dataDir].filterMap m.fs.modified ∨
        t ∈ m.configSearchDirMtimes ∨
        t ∈ (config.configFiles.flatMap Prod.snd).filterMap m.fs.modified) := fun t => by
    rw [hmem]
    simp only [sessionMtimes, List.mem_append, or_assoc]
  have htimed : ∀ {l : List PathBuf}, (∀ t, t ∈ l.filterMap m.fs.modified → t ∈ ts) →
      ((∀ p ∈ l, m.changedSince session.latestUpdate p = false) ↔ ∀ p ∈ l, m.pathExists p = true) := by
    intro l hl
    refine forall₂_congr fun p hp => ?_
    rw [hlatest]
    exact changedSince_latest_iff fun t ht => hl t (List.mem_filterMap.2 ⟨p, hp, ht⟩)
  have hwatched := htimed fun t ht => (hparts t).2 (Or.inl ht)
  have htera' := htimed fun t ht => (hparts t).2 (Or.inr (Or.inl ht))
  have hdata' := htimed fun t ht => (hparts t).2 (Or.inr (Or.inr (Or.inl ht)))
  have hincluded := htimed fun t ht => (hparts t).2 (Or.inr (Or.inr (Or.inr (Or.inr ht))))
  have hset : ∀ l : List PathBuf,
      ((l.foldl insertPath []).any (m.changedSince session.latestUpdate) = false ↔
        ∀ p ∈ l, m.changedSince session.latestUpdate p = false) := by
    intro l
    rw [List.any_eq_false]
    simp only [Bool.not_eq_true]
    exact forall_mem_foldl_insertPath (fun a b h => by rw [changedSince_congr h]) l
  have hsearch : (m.configSearchDirMtimes.any fun t =>
      decide (session.latestUpdate < mtimeToMillis t)) = false := by
    rw [List.any_eq_false]
    intro t ht
    have := (foldl_max_spec ts 0).2.1 t ((hparts t).2 (Or.inr (Or.inr (Or.inr (Or.inl ht)))))
    have := mtimeToMillis_mono this
    rw [hlatest]
    simpa using this
  have hdirs : ∀ p ∈ m.stateDirs, m.pathExists p = true := fun p hp => (List.mem_filter.1 hp).2
  have htera'' : config.teraFiles.any (m.changedSince session.latestUpdate) = false ↔
      ∀ p ∈ config.teraFiles, m.pathExists p = true := by
    rw [← htera', List.any_eq_false]
    simp only [Bool.not_eq_true]
  have hkey : ∀ p, m.changedSince session.latestUpdate p = false ↔ m.pathExists p = true ∧
      ∀ t, m.fs.modified p = some t → mtimeToMillis t = 0 ∨
        ∃ u ∈ m.sessionMtimes config (m.stateDirs ++ watched),
          mtimeToMillis t ≤ mtimeToMillis u := by
    intro p
    rw [changedSince_eq_false_iff, pathExists, Option.isSome_iff_exists, hlatest]
    simp only [mtimeToMillis_le_latest_iff, hmem]
    constructor
    · rintro ⟨t, ht, h⟩
      refine ⟨⟨t, ht⟩, fun t' ht' => ?_⟩
      obtain rfl : t = t' := Option.some.inj (ht.symm.trans ht')
      exact h
    · rintro ⟨⟨t, ht⟩, h⟩
      exact ⟨t, ht, h t ht⟩
  have hdatadir := hdata'.2 (by simpa using hdata) m.dataDir (List.mem_singleton.2 rfl)
  rw [filesChanged, hconfigs, htera, haveTrustStateDirsBeenModified_eq_false hwatch, hwatch,
    hdatadir, hsearch]
  simp only [Bool.or_false, Bool.or_eq_false_iff]
  rw [hset, htera'', (hset _).trans hwatched, List.forall_mem_append, List.forall_mem_append,
    hincluded]
  constructor
  · rintro ⟨⟨⟨hkeys, hinc⟩, htf⟩, -, hw⟩
    refine ⟨?_, fun p hp => ((hkey p).1 (hkeys p hp)).2⟩
    simp only [List.forall_mem_append]
    exact ⟨⟨⟨fun p hp => ((hkey p).1 (hkeys p hp)).1, hinc⟩, htf⟩, hw⟩
  · rintro ⟨hnamed, hcovered⟩
    simp only [List.forall_mem_append] at hnamed
    obtain ⟨⟨⟨hkeys, hinc⟩, htf⟩, hw⟩ := hnamed
    exact ⟨⟨⟨fun p hp => (hkey p).2 ⟨hkeys p hp, hcovered p hp⟩, hinc⟩, htf⟩, hdirs, hw⟩

/-- Whether a setting lets the prompt skip the file checks: `chpwd_only` before a
prompt, or `cache_ttl` since the last check. -/
def shortcut (m : Machine) (call : Call) : Bool :=
  (m.chpwdOnly && call.isPrecmd) ||
    (0 < m.cacheTtlMs && call.now - call.lastFullCheck < m.cacheTtlMs)

end Machine

/-- A `mise hook-env` without `--force` or a logging flag, with no warning or
update check pending, that is not the first of its shell before a prompt. -/
structure Call.Plain (call : Call) : Prop where
  command : call.args[1]? = some "hook-env"
  logging : hasPreclapLoggingFlag call.args = false
  force : (call.args.any fun a => a == "--force" || a == "-f") = false
  marker : call.untrustedWarningMarker = false
  due : call.promptCheckDue = false
  precmd : (call.isPrecmd && !call.zshPrecmdRun) = false

/-- **When a full run settles the prompt.**  On the same files, in the same
directory and with the same `MISE_` variables, the prompt after a full run
exits early exactly when a setting lets it skip the files, or every path the
session names exists and no config file is later than the files it times. -/
theorem full_run_stabilises_iff (m : Machine) (blake3 : String → String) (pristine : EnvMap)
    (config : LoadedConfig) (env : EnvMap) (aliases : IndexMap String String)
    (loadedTools : List String) (watchFiles : List WatchFilePattern) (configPaths : List PathBuf)
    {session : HookEnvSession}
    (hbuild : m.buildSession blake3 pristine config env aliases loadedTools watchFiles configPaths
      = some session)
    {dir : PathBuf} (hcwd : m.cwd = some dir) (hdata : m.pathExists m.dataDir = true)
    (call : Call) (hcall : call.Plain)
    (hvars : Machine.miseEnvVars call.pristine = Machine.miseEnvVars pristine) :
    (m.checkExitEarlyFast call session).exits = true ↔
      m.shortcut call = true ∨ m.Settled config ((m.watchedPaths watchFiles).getD []) := by
  simp only [Machine.buildSession, Machine.getWatchFiles, Option.bind_eq_bind,
    Option.bind_eq_some_iff, Option.map_eq_some_iff, Option.pure_def, Option.some.injEq] at hbuild
  obtain ⟨resolved, ⟨watched, hwatched, rfl⟩, hsession⟩ := hbuild
  have hdir : session.dir = some dir := by rw [← hsession]; exact hcwd
  have hhash : (m.getMiseEnvVarsHashed call.pristine != session.envVarHash) = false := by
    rw [← hsession, Machine.getMiseEnvVarsHashed, hvars]
    simp [Machine.getMiseEnvVarsHashed]
  have hunset : session.hookEnvShortcutsUnset = (!m.chpwdOnly && m.cacheTtlMs == 0) := by
    rw [← hsession]
  have hfiles : m.filesChanged session = false ↔ m.Settled config watched :=
    Machine.filesChanged_eq_false_iff hdata (by rw [← hsession]) (by rw [← hsession])
      (by rw [← hsession]) (by rw [← hsession])
  have hguard : (decide (call.args.length < 2) || call.args[1]? != some "hook-env") = false := by
    have hlen := (List.getElem?_eq_some_iff.1 hcall.command).1
    have hlen' : ¬ call.args.length < 2 := by omega
    simp [hcall.command, hlen']
  -- With the settings unchanged it does not matter whether they are read or remembered.
  have hsettings : (if session.hookEnvShortcutsUnset then (false, 0)
      else (m.chpwdOnly, m.cacheTtlMs)) = (m.chpwdOnly, m.cacheTtlMs) := by
    rw [hunset]
    split_ifs with h
    · rw [Bool.and_eq_true, Bool.not_eq_true', beq_iff_eq] at h
      rw [h.1, h.2]
    · rfl
  have hchange : m.dirChange session = false := by
    simp [Machine.dirChange, hdir, hcwd]
  rw [hwatched, Option.getD_some, ← hfiles, Machine.checkExitEarlyFast, hguard, hcall.logging,
    hdir, hcall.force, hcall.marker, hcall.due, hcall.precmd, hsettings, hchange, hhash,
    Machine.shortcut, Bool.or_eq_true]
  simp only [Bool.false_eq_true, if_false, Option.isNone_some]
  by_cases h₁ : (m.chpwdOnly && call.isPrecmd) = true
  · rw [if_pos h₁]
    exact ⟨fun _ => Or.inl (Or.inl h₁), fun _ => rfl⟩
  · rw [if_neg h₁]
    by_cases h₂ : (decide (0 < m.cacheTtlMs) &&
        decide (call.now - call.lastFullCheck < m.cacheTtlMs)) = true
    · rw [if_pos h₂]
      exact ⟨fun _ => Or.inl (Or.inr h₂), fun _ => rfl⟩
    · rw [if_neg h₂]
      by_cases h₃ : m.filesChanged session = true
      · rw [if_pos h₃]
        simp only [FastCheck.exits, h₁, h₂, h₃]
        decide
      · rw [if_neg h₃, Bool.not_eq_true] at *
        exact ⟨fun _ => Or.inr h₃, fun _ => rfl⟩

/-! ### A project with one config file -/

/-- `/proj/mise.toml` and the data directory exist, and nothing else. -/
def sampleSnapshot : Snapshot where
  modified p :=
    if p == ⟨"/proj/mise.toml"⟩ then some 9000000
    else if p == ⟨"/data"⟩ then some 5000000
    else none
  congr a b h := by simp only [BEq.congr_left h]

def sampleMachine : Machine where
  fs := sampleSnapshot
  cwd := some ⟨"/proj"⟩
  dataDir := ⟨"/data"⟩
  trustedConfigs := ⟨"/state/trusted-configs"⟩
  ignoredConfigs := ⟨"/state/ignored-configs"⟩
  allDirs _ := some [⟨"/proj"⟩, ⟨"/"⟩]
  configSubdirs := ["", ".mise"]
  globIn _ _ := []
  watchGlob _ _ := some []
  chpwdOnly := false
  cacheTtlMs := 0
  hashToStr _ := "b5dd1e"

def sampleConfig : LoadedConfig := ⟨[(⟨"/proj/mise.toml"⟩, [])], []⟩

/-- `mise hook-env -s bash`. -/
def sampleCall : Call := ⟨["mise", "hook-env", "-s", "bash"], ∅, false, false, true, 0, 0⟩

theorem sampleCall_plain : sampleCall.Plain :=
  ⟨by decide, by decide, by decide, rfl, rfl, by decide⟩

/-- The session of a run that watches the given literal paths. -/
def sampleSession (watched : List String) : Option HookEnvSession :=
  sampleMachine.buildSession id ∅ sampleConfig ∅ .empty [] [⟨none, watched⟩] []

theorem full_run_stabilises_sample : ∃ session,
    sampleSession ["/proj/mise.toml"] = some session ∧
      (sampleMachine.checkExitEarlyFast sampleCall session).exits = true := by
  refine ⟨_, rfl, (full_run_stabilises_iff sampleMachine id ∅ sampleConfig ∅ .empty []
    [⟨none, ["/proj/mise.toml"]⟩] [] rfl rfl (by decide) sampleCall sampleCall_plain rfl).2 ?_⟩
  exact Or.inr ⟨by decide, by decide⟩

/-- An environment plugin asks to watch a file that is not there: every prompt
runs in full. -/
theorem full_run_missing_watch_file :
    sampleCall.Plain ∧ sampleMachine.pathExists sampleMachine.dataDir = true ∧
      ∃ session, sampleSession ["/proj/mise.toml", "/proj/secrets.json"] = some session ∧
        (sampleMachine.checkExitEarlyFast sampleCall session).exits = false :=
  ⟨sampleCall_plain, by decide, _, rfl, by decide⟩

end Mise
