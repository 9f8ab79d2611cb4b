/-
# Task locks

`src/task/task_lock.rs`, with the names that `crates/mise-config/src/task/lock.rs`
accepts and the part of `src/task/task_executor.rs` that takes a task's locks.  A lock is
a file held by the task that locked it; a task takes its locks one at a time in sorted
order, and tells the tasks it starts in `MISE_TASK_LOCKS` what is held above them.

Any number of tasks run at once, each started by another one or standing alone.
-/

import Mathlib.Data.Finset.Max
import Mathlib.Data.Finset.Sort
import Mathlib.Data.Prod.Lex
import Mathlib.Data.String.Basic
import Mathlib.Logic.Relation
import Mise.Path
import Mise.Text

namespace Mise.Lock

/-- `hash_sha256_to_str`: hexadecimal digits. -/
structure Hash where
  digest : String → String
  hex : ∀ text, ∀ c ∈ (digest text).toList, c.isDigit || ('a' ≤ c && c ≤ 'f')

/-- The first sixteen digits of a hash. -/
def Hash.short (hash : Hash) (text : String) : String :=
  String.ofList ((hash.digest text).toList.take 16)

/-- `TaskLock::validate_name`. -/
def validateName (name : String) : Bool :=
  trim name ≠ "" && !name.toList.contains ',' && !name.toList.any isControl

/-- A name that the configuration accepts. -/
structure LockName where
  text : String
  valid : validateName text = true

/-- `TaskLock`. -/
inductive TaskLock where
  | off
  | task
  | names (names : List LockName)

/-- A name that is read. -/
def LockName.read (name : String) : Option LockName :=
  if h : validateName name = true then some ⟨name, h⟩ else none

/-- `visit_bool`. -/
def TaskLock.visitBool (v : Bool) : TaskLock := if v then .task else .off

/-- `visit_str`. -/
def TaskLock.visitStr (v : String) : Option TaskLock :=
  (LockName.read v).map fun name => .names [name]

/-- `visit_seq`. -/
def TaskLock.visitSeq (seq : List String) : Option TaskLock :=
  (seq.mapM LockName.read).map fun names =>
    if names.isEmpty then .off else .names names

/-- What the locks of a task depend on: its name, `repository_of` its directory, its `lock`, and
whether it has a command of its own to run. -/
structure Declared where
  name : String
  repo : String
  lock : Option TaskLock
  runs : Bool

/-- `LockKey`. -/
structure LockKey where
  id : String
  display : String
  deriving DecidableEq

/-- `LockKey::named`. -/
def LockKey.named (name : String) : LockKey := ⟨name, name⟩

/-- `LockKey::this_task`. -/
def LockKey.thisTask (hash : Hash) (task : Declared) : LockKey where
  id := "task:" ++ hash.short (task.repo ++ "\x00" ++ task.name)
  display := task.name ++ " (this repository)"

/-- `LockKey::path`, of the lock file. -/
def LockKey.path (hash : Hash) (key : LockKey) : String := hash.short key.id ++ ".lock"

/-- The order of keys, by id and then by display. -/
def LockKey.le (a b : LockKey) : Bool :=
  decide (a.id < b.id ∨ a.id = b.id ∧ a.display ≤ b.display)

/-- `Vec::dedup`. -/
def dedup : List LockKey → List LockKey
  | a :: b :: l => if a = b then dedup (b :: l) else a :: dedup (b :: l)
  | l => l

/-- `requested`. -/
def requested (hash : Hash) (task : Declared) : List LockKey :=
  let keys := match task.lock with
    | none => []
    | some .off => []
    | some .task => [LockKey.thisTask hash task]
    | some (.names names) => names.map fun (name : LockName) => LockKey.named name.text
  dedup (keys.mergeSort LockKey.le)

/-- `inherited`, of the value of `MISE_TASK_LOCKS`. -/
def inherited (env : Option String) : Finset String :=
  env.elim ∅ fun value =>
    (((value.toList.splitOn ',').map String.ofList).filter (· ≠ "")).toFinset

/-- `check_nested_order`. -/
def checkNestedOrder (task : Declared) (inherited : Finset String) (toTake : List LockKey) :
    Except String Unit :=
  match inherited.max, toTake with
  | some held, first :: _ =>
    if first.id < held then
      .error ("task " ++ task.name ++ ": cannot take lock " ++ first.display ++
        " while a parent task holds " ++ held ++ ": a nested task can only " ++
        "add locks that sort after the ones it inherits. Add " ++ first.display ++
        " to the parent task's \x60lock\x60")
    else .ok ()
  | _, _ => .ok ()

/-- The ids of keys. -/
def ids (keys : List LockKey) : Finset String := (keys.map LockKey.id).toFinset

/-- `exported`. -/
def exported (inherited : Finset String) (keys : List LockKey) : String :=
  String.ofList ([','].intercalate (((inherited ∪ ids keys).sort (· ≤ ·)).map String.toList))

/-! ### Tasks at run -/

/-- How far a task is: `taking` has the locks still to take and those taken. -/
inductive Phase where
  | starting
  | taking (pending held : List LockKey)
  | running (held : List LockKey)
  | ended

/-- A task at run: what started it, and the `MISE_TASK_LOCKS` it was started with. -/
structure Proc where
  task : Declared
  parent : Option ℕ
  env : Option String
  phase : Phase

namespace Proc

/-- The locks it took. -/
def held (p : Proc) : List LockKey :=
  match p.phase with
  | .taking _ held => held
  | .running held => held
  | _ => []

/-- It takes locks: it asks for some and has a command to run under them. -/
def locks (hash : Hash) (p : Proc) : Bool := requested hash p.task ≠ [] && p.task.runs

/-- The locks it asks for and does not inherit. -/
def toTake (hash : Hash) (p : Proc) : List LockKey :=
  (requested hash p.task).filter fun key => key.id ∉ inherited p.env

/-- The `MISE_TASK_LOCKS` of what it starts. -/
def childEnv (hash : Hash) (p : Proc) : Option String :=
  if p.locks hash then some (exported (inherited p.env) (requested hash p.task)) else p.env

/-- The locks that are held for it: those above it, and its own. -/
def all (p : Proc) : Finset String := inherited p.env ∪ ids p.held

end Proc

/-- `try_lock` succeeds: nobody holds the lock file of the key. -/
def Free (hash : Hash) (procs : List Proc) (key : LockKey) : Prop :=
  ∀ q ∈ procs, ∀ other ∈ q.held, other.path hash ≠ key.path hash

/-- One step of one task. -/
inductive Step (hash : Hash) (procs : List Proc) : List Proc → Prop
  /-- A task is started by hand. -/
  | start (task : Declared) (env : Option String) :
      Step hash procs (procs ++ [⟨task, none, env, .starting⟩])
  /-- A running task starts another. -/
  | child {i : ℕ} {p : Proc} {held : List LockKey} (task : Declared) (hp : procs[i]? = some p)
      (hphase : p.phase = .running held) :
      Step hash procs (procs ++ [⟨task, some i, p.childEnv hash, .starting⟩])
  /-- It takes no locks. -/
  | unlocked {i : ℕ} {p : Proc} (hp : procs[i]? = some p) (hphase : p.phase = .starting)
      (hlocks : p.locks hash = false) : Step hash procs (procs.set i { p with phase := .running [] })
  /-- `check_nested_order` fails. -/
  | refused {i : ℕ} {p : Proc} {message : String} (hp : procs[i]? = some p)
      (hphase : p.phase = .starting) (hlocks : p.locks hash = true)
      (hcheck : checkNestedOrder p.task (inherited p.env) (p.toTake hash) = .error message) :
      Step hash procs (procs.set i { p with phase := .ended })
  /-- `check_nested_order` passes. -/
  | ordered {i : ℕ} {p : Proc} (hp : procs[i]? = some p)
      (hphase : p.phase = .starting) (hlocks : p.locks hash = true)
      (hcheck : checkNestedOrder p.task (inherited p.env) (p.toTake hash) = .ok ()) :
      Step hash procs (procs.set i { p with phase := .taking (p.toTake hash) [] })
  /-- `try_take` takes the next lock. -/
  | take {i : ℕ} {p : Proc} {key : LockKey} {pending held : List LockKey}
      (hp : procs[i]? = some p) (hphase : p.phase = .taking (key :: pending) held)
      (hfree : Free hash procs key) :
      Step hash procs (procs.set i { p with phase := .taking pending (held ++ [key]) })
  /-- Every lock is taken, and the commands start. -/
  | run {i : ℕ} {p : Proc} {held : List LockKey} (hp : procs[i]? = some p)
      (hphase : p.phase = .taking [] held) :
      Step hash procs (procs.set i { p with phase := .running held })
  /-- Every lock is taken and no permit is free: the locks are given back and taken again. -/
  | giveBack {i : ℕ} {p : Proc} {held : List LockKey} (hp : procs[i]? = some p)
      (hphase : p.phase = .taking [] held) :
      Step hash procs (procs.set i { p with phase := .taking (p.toTake hash) [] })
  /-- The wait times out or is interrupted. -/
  | interrupted {i : ℕ} {p : Proc} {pending held : List LockKey} (hp : procs[i]? = some p)
      (hphase : p.phase = .taking pending held) :
      Step hash procs (procs.set i { p with phase := .ended })
  /-- The commands have ended, and all that they started. -/
  | finish {i : ℕ} {p : Proc} {held : List LockKey} (hp : procs[i]? = some p)
      (hphase : p.phase = .running held)
      (hchildren : ∀ q ∈ procs, q.parent = some i → q.phase = .ended) :
      Step hash procs (procs.set i { p with phase := .ended })

/-- A state of some interleaving. -/
def Reachable (hash : Hash) (procs : List Proc) : Prop :=
  Relation.ReflTransGen (Step hash) [] procs

/-- A task waits for another: the other holds the lock file it wants next, or is a task it started
that has not ended. -/
def Waits (hash : Hash) (procs : List Proc) (i j : ℕ) : Prop :=
  ∃ p q, procs[i]? = some p ∧ procs[j]? = some q ∧
    ((∃ key pending held, p.phase = .taking (key :: pending) held ∧
        ∃ other ∈ q.held, other.path hash = key.path hash) ∨
      q.parent = some i ∧ q.phase ≠ .ended)

/-! ### What is exported is inherited -/

/-- An id that `MISE_TASK_LOCKS` can carry. -/
def Carried (id : String) : Prop := id ≠ "" ∧ ',' ∉ id.toList

theorem carried_of_mem_inherited {env : Option String} {id : String} (h : id ∈ inherited env) :
    Carried id := by
  cases env with
  | none => exact absurd h (Finset.notMem_empty id)
  | some value =>
    rw [inherited, Option.elim_some, List.mem_toFinset, List.mem_filter] at h
    obtain ⟨hmem, hne⟩ := h
    obtain ⟨piece, hpiece, rfl⟩ := List.mem_map.1 hmem
    refine ⟨of_decide_eq_true hne, ?_⟩
    rw [String.toList_ofList]
    exact notMem_of_mem_splitOn hpiece

theorem mem_dedup {key : LockKey} {keys : List LockKey} : key ∈ dedup keys ↔ key ∈ keys := by
  induction keys using dedup.induct with
  | case1 a l ih =>
    rw [dedup, if_pos rfl, ih]
    simp
  | case2 a b l hne ih => rw [dedup, if_neg hne, List.mem_cons, ih, ← List.mem_cons]
  | case3 l h => rw [dedup.eq_def]; split <;> simp_all

theorem Hash.comma_notMem_short (hash : Hash) (text : String) :
    ',' ∉ (hash.short text).toList := by
  intro hmem
  rw [Hash.short, String.toList_ofList] at hmem
  exact absurd (hash.hex text ',' (List.mem_of_mem_take hmem)) (by decide)

/-- The ids that a task asks for can be carried. -/
theorem carried_of_mem_requested {hash : Hash} {task : Declared} {key : LockKey}
    (h : key ∈ requested hash task) : Carried key.id := by
  rw [requested, mem_dedup, List.mem_mergeSort] at h
  split at h
  · exact absurd h List.not_mem_nil
  · exact absurd h List.not_mem_nil
  · obtain rfl := List.mem_singleton.1 h
    have hid : (LockKey.thisTask hash task).id.toList = "task:".toList ++
        (hash.short (task.repo ++ "\x00" ++ task.name)).toList := String.toList_append
    refine ⟨fun hnil => ?_, fun hmem => ?_⟩
    · rw [hnil] at hid
      exact absurd hid (by simp)
    · rw [hid] at hmem
      rcases List.mem_append.1 hmem with hprefix | hhash
      · exact absurd hprefix (by decide)
      · exact hash.comma_notMem_short _ hhash
  · obtain ⟨name, -, rfl⟩ := List.mem_map.1 h
    have hvalid := name.valid
    simp only [validateName, Bool.and_eq_true, decide_eq_true_eq, Bool.not_eq_true'] at hvalid
    refine ⟨fun hnil => hvalid.1.1 ?_, fun hmem => ?_⟩
    · rw [show name.text = "" from hnil]
      decide
    · have hcomma : name.text.toList.contains ',' = true := List.contains_iff_mem.2 hmem
      exact absurd hcomma (by rw [hvalid.1.2]; exact Bool.false_ne_true)

/-- **What is exported is inherited.** -/
theorem inherited_exported {held : Finset String} (hheld : ∀ id ∈ held, Carried id)
    {keys : List LockKey} (hkeys : ∀ key ∈ keys, Carried key.id) :
    inherited (some (exported held keys)) = held ∪ ids keys := by
  have hall : ∀ id ∈ held ∪ ids keys, Carried id := by
    intro id hid
    rcases Finset.mem_union.1 hid with hid | hid
    · exact hheld id hid
    · obtain ⟨key, hkey, rfl⟩ := List.mem_map.1 (List.mem_toFinset.1 hid)
      exact hkeys key hkey
  generalize hset : held ∪ ids keys = set at hall
  have hsort : ∀ id, id ∈ set.sort (· ≤ ·) ↔ id ∈ set := fun id => Finset.mem_sort _
  have hpieces : ∀ piece ∈ (set.sort (· ≤ ·)).map String.toList, ',' ∉ piece := by
    intro piece hpiece
    obtain ⟨id, hid, rfl⟩ := List.mem_map.1 hpiece
    exact (hall id ((hsort id).1 hid)).2
  rw [inherited, Option.elim_some, exported, hset, String.toList_ofList]
  by_cases hempty : set.sort (· ≤ ·) = []
  · have hnone : set = ∅ := Finset.eq_empty_of_forall_notMem fun id hid => by
      have hmem := (hsort id).2 hid
      rw [hempty] at hmem
      exact absurd hmem List.not_mem_nil
    rw [hempty, hnone]
    rfl
  · rw [List.splitOn_intercalate ',' hpieces (by simpa using hempty), List.map_map]
    have hback : ∀ l : List String, l.map (String.ofList ∘ String.toList) = l := fun l => by
      simp [Function.comp_def]
    rw [hback]
    ext id
    rw [List.mem_toFinset, List.mem_filter, hsort, and_iff_left_iff_imp]
    exact fun hid => decide_eq_true (hall id hid).1

/-! ### The order of locks -/

theorem LockKey.trans_le {a b c : LockKey} (hab : a.le b = true) (hbc : b.le c = true) :
    a.le c = true := by
  simp only [LockKey.le, decide_eq_true_eq] at *
  rcases hab with hab | ⟨hab, hab'⟩
  · rcases hbc with hbc | ⟨hbc, -⟩
    · exact .inl (hab.trans hbc)
    · exact .inl (hbc ▸ hab)
  · rcases hbc with hbc | ⟨hbc, hbc'⟩
    · exact .inl (hab ▸ hbc)
    · exact .inr ⟨hab.trans hbc, hab'.trans hbc'⟩

theorem LockKey.total_le (a b : LockKey) : (a.le b || b.le a) = true := by
  simp only [LockKey.le, Bool.or_eq_true, decide_eq_true_eq]
  rcases lt_trichotomy a.id b.id with h | h | h
  · exact .inl (.inl h)
  · exact (le_total a.display b.display).imp (fun hle => .inr ⟨h, hle⟩)
      fun hle => .inr ⟨h.symm, hle⟩
  · exact .inr (.inl h)

theorem LockKey.antisymm_le {a b : LockKey} (hab : a.le b = true) (hba : b.le a = true) :
    a = b := by
  simp only [LockKey.le, decide_eq_true_eq] at *
  rcases hab with hab | ⟨hid, hab'⟩
  · rcases hba with hba | ⟨hid, -⟩
    · exact absurd hba hab.asymm
    · exact absurd hab (hid ▸ lt_irrefl _)
  · rcases hba with hba | ⟨-, hba'⟩
    · exact absurd hba (hid ▸ lt_irrefl _)
    · cases a
      cases b
      exact congr (congrArg LockKey.mk hid) (le_antisymm hab' hba')

/-- A sorted list without its repetitions is strictly sorted. -/
theorem pairwise_dedup {keys : List LockKey} (h : keys.Pairwise fun a b => a.le b = true) :
    (dedup keys).Pairwise fun a b => a.le b = true ∧ a ≠ b := by
  induction keys using dedup.induct with
  | case1 a l ih =>
    rw [dedup, if_pos rfl]
    exact ih (List.pairwise_cons.1 h).2
  | case2 a b l hne ih =>
    obtain ⟨hfirst, hrest⟩ := List.pairwise_cons.1 h
    rw [dedup, if_neg hne]
    refine List.pairwise_cons.2 ⟨fun x hx => ?_, ih hrest⟩
    have hx' := mem_dedup.1 hx
    refine ⟨hfirst x hx', ?_⟩
    rintro rfl
    have hba : b.le a = true := by
      rcases List.mem_cons.1 hx' with heq | hmem
      · exact absurd heq hne
      · exact (List.pairwise_cons.1 hrest).1 a hmem
    exact hne (LockKey.antisymm_le (hfirst b List.mem_cons_self) hba)
  | case3 l hl =>
    match l, hl with
    | [], _ => exact List.Pairwise.nil
    | [a], _ => exact List.pairwise_singleton _ _
    | a :: b :: l, hl => exact absurd rfl (hl a b l)

/-- **What a task asks for is strictly sorted.** -/
theorem pairwise_requested (hash : Hash) (task : Declared) :
    (requested hash task).Pairwise fun a b => a.id < b.id := by
  have hsorted : ∀ keys : List LockKey,
      (dedup (keys.mergeSort LockKey.le)).Pairwise fun a b => a.le b = true ∧ a ≠ b :=
    fun keys => pairwise_dedup <|
      @List.pairwise_mergeSort LockKey LockKey.le (fun _ _ _ => LockKey.trans_le)
        LockKey.total_le keys
  rw [requested]
  split
  · rw [List.mergeSort_nil]
    exact List.Pairwise.nil
  · rw [List.mergeSort_nil]
    exact List.Pairwise.nil
  · rw [List.mergeSort_singleton]
    exact List.pairwise_singleton _ _
  · case h_4 names _ =>
    refine (hsorted _).imp_of_mem fun {a b} ha hb hab => ?_
    rw [mem_dedup, List.mem_mergeSort] at ha hb
    obtain ⟨x, -, rfl⟩ := List.mem_map.1 ha
    obtain ⟨y, -, rfl⟩ := List.mem_map.1 hb
    have hle := hab.1
    simp only [LockKey.le, decide_eq_true_eq] at hle
    rcases hle with hlt | ⟨heq, -⟩
    · exact hlt
    · exact absurd (congrArg LockKey.named heq) hab.2

/-- **What passes the check sorts after everything inherited.** -/
theorem lt_of_checkNestedOrder {hash : Hash} {p : Proc}
    (h : checkNestedOrder p.task (inherited p.env) (p.toTake hash) = .ok ()) {key : LockKey}
    (hkey : key ∈ p.toTake hash) {id : String} (hid : id ∈ inherited p.env) : id < key.id := by
  obtain ⟨held, hheld⟩ := Finset.max_of_mem hid
  have hsorted : (p.toTake hash).Pairwise fun a b => a.id < b.id :=
    (pairwise_requested hash p.task).sublist List.filter_sublist
  obtain ⟨first, rest, hrest⟩ := List.exists_cons_of_ne_nil (List.ne_nil_of_mem hkey)
  have hfirst : first ∈ p.toTake hash := by rw [hrest]; exact List.mem_cons_self
  have hnew : first.id ∉ inherited p.env := of_decide_eq_true (List.mem_filter.1 hfirst).2
  have hle : held ≤ first.id := by
    unfold checkNestedOrder at h
    rw [hheld, hrest] at h
    dsimp only at h
    split at h
    · exact nomatch h
    · case isFalse hlt => exact not_lt.1 hlt
  have hlt : held < first.id :=
    lt_of_le_of_ne hle fun heq => hnew (heq ▸ Finset.mem_of_max hheld)
  refine (Finset.le_max_of_eq hid hheld).trans_lt (hlt.trans_le ?_)
  rw [hrest] at hkey hsorted
  rcases List.mem_cons.1 hkey with rfl | hmem
  · exact le_rfl
  · exact ((List.pairwise_cons.1 hsorted).1 key hmem).le

/-! ### What every interleaving keeps -/

/-- What holds of one task: it takes the locks it asks for, in order, and they sort after all that
it inherits. -/
def Proc.Ok (hash : Hash) (p : Proc) : Prop :=
  match p.phase with
  | .taking pending held =>
    p.locks hash = true ∧ (held ++ pending).Pairwise (fun a b => a.id < b.id) ∧
      (∀ key ∈ held ++ pending, key ∈ p.toTake hash) ∧
        ∀ key ∈ p.toTake hash, ∀ id ∈ inherited p.env, id < key.id
  | .running held => ∀ key ∈ held, p.locks hash = true ∧ key ∈ requested hash p.task
  | _ => True

/-- **What holds of all tasks**: a task that has not ended was started by one that runs, and
inherited all that is held for that one. -/
structure Sound (hash : Hash) (procs : List Proc) : Prop where
  ok : ∀ (i : ℕ) (p : Proc), procs[i]? = some p → p.Ok hash
  tree : ∀ (j : ℕ) (q : Proc) (i : ℕ), procs[j]? = some q → q.parent = some i →
    q.phase ≠ .ended → i < j ∧ ∃ (p : Proc) (held : List LockKey), procs[i]? = some p ∧
      p.phase = .running held ∧ p.all ⊆ inherited q.env

section Steps

variable {hash : Hash} {procs : List Proc} {i : ℕ} {p : Proc}

theorem Proc.held_of_running {held : List LockKey} (h : p.phase = .running held) :
    p.held = held := by
  rw [Proc.held, h]

theorem Proc.held_of_taking {pending held : List LockKey} (h : p.phase = .taking pending held) :
    p.held = held := by
  rw [Proc.held, h]

/-- A child inherits all that is held for its parent. -/
theorem Proc.all_subset_childEnv {held : List LockKey} (hok : p.Ok hash)
    (hphase : p.phase = .running held) : p.all ⊆ inherited (p.childEnv hash) := by
  rw [Proc.Ok, hphase] at hok
  rw [Proc.all, Proc.held_of_running hphase, Proc.childEnv]
  split
  · rw [inherited_exported (fun id => carried_of_mem_inherited)
      (fun key => carried_of_mem_requested)]
    refine Finset.union_subset_union_right fun id hid => ?_
    obtain ⟨key, hkey, rfl⟩ := List.mem_map.1 (List.mem_toFinset.1 hid)
    exact List.mem_toFinset.2 (List.mem_map.2 ⟨key, (hok key hkey).2, rfl⟩)
  · case isFalse hlocks =>
    refine Finset.union_subset le_rfl fun id hid => ?_
    obtain ⟨key, hkey, rfl⟩ := List.mem_map.1 (List.mem_toFinset.1 hid)
    exact absurd (hok key hkey).1 hlocks

/-- **A task waits only for locks that sort after all that is held for it.** -/
theorem Proc.lt_of_taking {key : LockKey} {pending held : List LockKey} (hok : p.Ok hash)
    (hphase : p.phase = .taking (key :: pending) held) : ∀ id ∈ p.all, id < key.id := by
  rw [Proc.Ok, hphase] at hok
  obtain ⟨-, hsorted, htake, hinherited⟩ := hok
  intro id hid
  rw [Proc.all, Proc.held_of_taking hphase] at hid
  rcases Finset.mem_union.1 hid with hid | hid
  · exact hinherited key (htake key (List.mem_append_right _ List.mem_cons_self)) id hid
  · obtain ⟨other, hother, rfl⟩ := List.mem_map.1 (List.mem_toFinset.1 hid)
    exact (List.pairwise_append.1 hsorted).2.2 other hother key List.mem_cons_self

/-- A task that does not run has nothing running below it. -/
theorem Sound.ended_of_not_running (h : Sound hash procs) (hp : procs[i]? = some p)
    (hphase : ∀ held, p.phase ≠ .running held) : ∀ q ∈ procs, q.parent = some i →
      q.phase = .ended := by
  intro q hq hparent
  by_contra hlive
  obtain ⟨j, hj⟩ := List.mem_iff_getElem?.1 hq
  obtain ⟨-, p', held, hp', hrunning, -⟩ := h.tree j q i hj hparent hlive
  obtain rfl := Option.some.inj (hp.symm.trans hp')
  exact hphase held hrunning

/-- A task goes on, with nothing running below it. -/
theorem Sound.set (h : Sound hash procs) (hp : procs[i]? = some p) (hlive : p.phase ≠ .ended)
    (hidle : ∀ q ∈ procs, q.parent = some i → q.phase = .ended) (phase : Phase)
    (hok : Proc.Ok hash { p with phase }) : Sound hash (procs.set i { p with phase }) := by
  have hlt := (List.getElem?_eq_some_iff.1 hp).1
  have hget : ∀ j, (procs.set i { p with phase })[j]? =
      if i = j then some { p with phase } else procs[j]? := by
    intro j
    rw [List.getElem?_set, if_pos hlt]
  constructor
  · intro j q hq
    rw [hget] at hq
    split at hq
    · obtain rfl := Option.some.inj hq
      exact hok
    · exact h.ok j q hq
  · intro j q k hq hparent hphase
    rw [hget] at hq
    -- what started `q` is not `i`, which has nothing running below it
    have hstarted : ∃ p' : Proc, procs[j]? = some p' ∧ p'.parent = some k ∧ p'.phase ≠ .ended ∧
        p'.env = q.env := by
      split at hq
      · case isTrue hij =>
        obtain rfl := Option.some.inj hq
        exact ⟨p, hij ▸ hp, hparent, hlive, rfl⟩
      · exact ⟨q, hq, hparent, hphase, rfl⟩
    obtain ⟨p', hp', hparent', hlive', henv⟩ := hstarted
    obtain ⟨hkj, started, held, hk, hrunning, hsubset⟩ := h.tree j p' k hp' hparent' hlive'
    have hne : i ≠ k := by
      rintro rfl
      exact hlive' (hidle p' (List.mem_of_getElem? hp') hparent')
    refine ⟨hkj, started, held, ?_, hrunning, henv ▸ hsubset⟩
    rw [hget, if_neg hne]
    exact hk

/-- A task is started. -/
theorem Sound.append (h : Sound hash procs) {q : Proc} (hphase : q.phase = .starting)
    (htree : ∀ i, q.parent = some i → ∃ (p : Proc) (held : List LockKey), procs[i]? = some p ∧
      p.phase = .running held ∧ p.all ⊆ inherited q.env) : Sound hash (procs ++ [q]) := by
  have hget : ∀ {j : ℕ} {r : Proc}, procs[j]? = some r → (procs ++ [q])[j]? = some r := fun hr =>
    (List.getElem?_append_left (List.getElem?_eq_some_iff.1 hr).1).trans hr
  have hcases : ∀ {j : ℕ} {r : Proc}, (procs ++ [q])[j]? = some r →
      procs[j]? = some r ∨ j = procs.length ∧ r = q := by
    intro j r hr
    rw [List.getElem?_append] at hr
    split at hr
    · exact .inl hr
    · obtain ⟨hj, rfl⟩ := List.getElem?_eq_some_iff.1 hr
      rw [List.length_singleton] at hj
      exact .inr ⟨by omega, by simp⟩
  constructor
  · intro j r hr
    rcases hcases hr with hr | ⟨-, rfl⟩
    · exact h.ok j r hr
    · rw [Proc.Ok, hphase]
      trivial
  · intro j r i hr hparent hlive
    rcases hcases hr with hr | ⟨rfl, rfl⟩
    · obtain ⟨hij, p, held, hp, hrunning, hsubset⟩ := h.tree j r i hr hparent hlive
      exact ⟨hij, p, held, hget hp, hrunning, hsubset⟩
    · obtain ⟨p, held, hp, hrunning, hsubset⟩ := htree i hparent
      exact ⟨(List.getElem?_eq_some_iff.1 hp).1, p, held, hget hp, hrunning, hsubset⟩

theorem Proc.ok_toTake (hlocks : p.locks hash = true)
    (hsort : ∀ key ∈ p.toTake hash, ∀ id ∈ inherited p.env, id < key.id) :
    Proc.Ok hash { p with phase := .taking (p.toTake hash) [] } :=
  ⟨hlocks, (pairwise_requested hash p.task).sublist List.filter_sublist,
    fun _ hkey => hkey, hsort⟩

/-- **Every step keeps the tasks sound.** -/
theorem Sound.step (h : Sound hash procs) {next : List Proc} (hstep : Step hash procs next) :
    Sound hash next := by
  cases hstep with
  | start task env => exact h.append rfl fun i hparent => nomatch hparent
  | @child i p held task hp hphase =>
    refine h.append rfl fun j hparent => ?_
    obtain rfl := Option.some.inj hparent
    exact ⟨p, held, hp, hphase, Proc.all_subset_childEnv (h.ok i p hp) hphase⟩
  | @unlocked i p hp hphase hlocks =>
    refine h.set hp (by rw [hphase]; nofun) (h.ended_of_not_running hp (by rw [hphase]; nofun)) _ ?_
    exact fun key hkey => absurd hkey List.not_mem_nil
  | @refused i p message hp hphase hlocks hcheck =>
    exact h.set hp (by rw [hphase]; nofun) (h.ended_of_not_running hp (by rw [hphase]; nofun)) _
      trivial
  | @ordered i p hp hphase hlocks hcheck =>
    exact h.set hp (by rw [hphase]; nofun) (h.ended_of_not_running hp (by rw [hphase]; nofun)) _
      (Proc.ok_toTake hlocks fun key hkey id hid => lt_of_checkNestedOrder hcheck hkey hid)
  | @take i p key pending held hp hphase hfree =>
    have hok := h.ok i p hp
    rw [Proc.Ok, hphase] at hok
    have hmoved : held ++ key :: pending = (held ++ [key]) ++ pending := by simp
    dsimp only at hok
    rw [hmoved] at hok
    exact h.set hp (by rw [hphase]; nofun) (h.ended_of_not_running hp (by rw [hphase]; nofun)) _
      hok
  | @run i p held hp hphase =>
    have hok := h.ok i p hp
    rw [Proc.Ok, hphase] at hok
    obtain ⟨hlocks, -, htake, -⟩ := hok
    refine h.set hp (by rw [hphase]; nofun) (h.ended_of_not_running hp (by rw [hphase]; nofun)) _ ?_
    exact fun key hkey =>
      ⟨hlocks, List.mem_of_mem_filter (htake key (List.mem_append_left _ hkey))⟩
  | @giveBack i p held hp hphase =>
    have hok := h.ok i p hp
    rw [Proc.Ok, hphase] at hok
    exact h.set hp (by rw [hphase]; nofun) (h.ended_of_not_running hp (by rw [hphase]; nofun)) _
      (Proc.ok_toTake hok.1 hok.2.2.2)
  | @interrupted i p pending held hp hphase =>
    exact h.set hp (by rw [hphase]; nofun) (h.ended_of_not_running hp (by rw [hphase]; nofun)) _
      trivial
  | @finish i p held hp hphase hchildren =>
    exact h.set hp (by rw [hphase]; nofun) hchildren _ trivial

theorem Reachable.sound (h : Reachable hash procs) : Sound hash procs := by
  induction h with
  | refl => exact ⟨fun i p hp => absurd hp (by simp), fun j q i hq => absurd hq (by simp)⟩
  | tail _ hstep ih => exact ih.step hstep

/-- No two locks that the tasks ask for share a lock file. -/
def DistinctFiles (hash : Hash) (procs : List Proc) : Prop :=
  ∀ p ∈ procs, ∀ q ∈ procs, ∀ key ∈ requested hash p.task, ∀ other ∈ requested hash q.task,
    other.path hash = key.path hash → other.id = key.id

/-- The last lock held for a task, and the number of the task. -/
def rank (procs : List Proc) (i : ℕ) : WithBot String ×ₗ ℕ :=
  toLex ((procs[i]?.elim ∅ Proc.all).max, i)

theorem Proc.mem_requested_of_mem_held (hok : p.Ok hash) {key : LockKey} (hkey : key ∈ p.held) :
    key ∈ requested hash p.task := by
  rw [Proc.Ok] at hok
  rw [Proc.held] at hkey
  split at hkey
  · case h_1 pending held hphase =>
    rw [hphase] at hok
    exact List.mem_of_mem_filter (hok.2.2.1 key (List.mem_append_left _ hkey))
  · case h_2 held hphase =>
    rw [hphase] at hok
    exact (hok key hkey).2
  · exact absurd hkey List.not_mem_nil

/-- **Whatever a task waits for ranks above it.** -/
theorem Sound.rank_lt (h : Sound hash procs) (hfiles : DistinctFiles hash procs) {j : ℕ}
    (hwaits : Waits hash procs i j) : rank procs i < rank procs j := by
  obtain ⟨p, q, hp, hq, hwaits⟩ := hwaits
  rw [rank, rank, hp, hq, Option.elim_some, Option.elim_some, Prod.Lex.toLex_lt_toLex]
  rcases hwaits with ⟨key, pending, held, hphase, other, hother, hpath⟩ | ⟨hparent, hlive⟩
  · have hok := h.ok i p hp
    have hbelow := Proc.lt_of_taking hok hphase
    rw [Proc.Ok, hphase] at hok
    have hkey : key ∈ requested hash p.task :=
      List.mem_of_mem_filter (hok.2.2.1 key (List.mem_append_right _ List.mem_cons_self))
    have hid : other.id = key.id :=
      hfiles p (List.mem_of_getElem? hp) q (List.mem_of_getElem? hq) key hkey other
        (Proc.mem_requested_of_mem_held (h.ok j q hq) hother) hpath
    have habove : key.id ∈ q.all := Finset.mem_union_right _
      (List.mem_toFinset.2 (List.mem_map.2 ⟨other, hother, hid⟩))
    refine .inl (lt_of_lt_of_le ?_ (Finset.le_max habove))
    rw [Finset.max_eq_sup_withBot]
    exact (Finset.sup_lt_iff (WithBot.bot_lt_coe _)).2 fun id hmem =>
      WithBot.coe_lt_coe.2 (hbelow id hmem)
  · obtain ⟨hij, p', held, hp', hrunning, hsubset⟩ := h.tree j q i hq hparent hlive
    obtain rfl := Option.some.inj (hp.symm.trans hp')
    have hle : p.all.max ≤ q.all.max :=
      Finset.max_mono (hsubset.trans Finset.subset_union_left)
    rcases hle.lt_or_eq with hlt | heq
    · exact .inl hlt
    · exact .inr ⟨heq, hij⟩

/-- **Task locks cannot deadlock**, and what a task exports is what it inherited and the locks it
names. -/
theorem task_locks (hreach : Reachable hash procs) (hfiles : DistinctFiles hash procs) :
    (∀ i, ¬Relation.TransGen (Waits hash procs) i i) ∧
      ∀ (env : Option String) (task : Declared) (keys : List LockKey),
        (∀ key ∈ keys, key ∈ requested hash task) →
          inherited (some (exported (inherited env) keys)) = inherited env ∪ ids keys := by
  refine ⟨fun i hcycle => ?_, fun env task keys hkeys => ?_⟩
  · have hclimbs : ∀ a b, Waits hash procs a b → rank procs a < rank procs b :=
      fun _ _ hwaits => hreach.sound.rank_lt hfiles hwaits
    have hlt : Relation.TransGen (· < ·) (rank procs i) (rank procs i) := hcycle.lift _ hclimbs
    rw [Relation.transGen_eq_self] at hlt
    exact lt_irrefl _ hlt
  · exact inherited_exported (fun id => carried_of_mem_inherited)
      fun key hkey => carried_of_mem_requested (hkeys key hkey)

end Steps

/-- A task that locks `db`. -/
def dbTask : Declared where
  name := "migrate"
  repo := "/repo/.git"
  lock := some (.names [⟨"db", by decide⟩])
  runs := true

/-- The SHA-256 of `db`. -/
def dbHash : Hash where
  digest _ := "7bdc25d1694ef984782a16f6f1710c1c6bc83ba7a131b515baf532bea021d011"
  hex _ := List.all_eq_true.1 (by decide)

theorem requested_dbTask : requested dbHash dbTask = [LockKey.named "db"] := by
  rw [requested]
  exact congrArg dedup (List.mergeSort_singleton _)

/-- The first of two tasks that lock `db` holds it, and the second waits for it. -/
def dbProcs : List Proc :=
  [⟨dbTask, none, none, .running [LockKey.named "db"]⟩,
    ⟨dbTask, none, none, .taking [LockKey.named "db"] []⟩]

/-- The second task comes to wait for the lock of the first. -/
theorem reachable_dbProcs : Reachable dbHash dbProcs := by
  have hlocks : ∀ parent env phase, Proc.locks dbHash ⟨dbTask, parent, env, phase⟩ = true := by
    intro parent env phase
    rw [Proc.locks, requested_dbTask]
    rfl
  have htake : ∀ phase, Proc.toTake dbHash ⟨dbTask, none, none, phase⟩ = [LockKey.named "db"] := by
    intro phase
    rw [Proc.toTake, requested_dbTask]
    rfl
  -- a task that was started by hand comes to its locks
  have hordered : ∀ {procs : List Proc} {i : ℕ}, procs[i]? = some ⟨dbTask, none, none, .starting⟩ →
      Step dbHash procs (procs.set i ⟨dbTask, none, none, .taking [LockKey.named "db"] []⟩) := by
    intro procs i hp
    have hstep := Step.ordered hp rfl (hlocks none none _) rfl
    rw [htake] at hstep
    exact hstep
  have hstart : ∀ procs, Step dbHash procs (procs ++ [⟨dbTask, none, none, .starting⟩]) :=
    fun _ => .start dbTask none
  have hfree : Free dbHash [⟨dbTask, none, none, .taking [LockKey.named "db"] []⟩]
      (LockKey.named "db") := by
    intro q hq other hother
    rw [List.mem_singleton.1 hq] at hother
    exact absurd hother List.not_mem_nil
  have hfirst : Step dbHash [⟨dbTask, none, none, .taking [LockKey.named "db"] []⟩]
      [⟨dbTask, none, none, .taking [] [LockKey.named "db"]⟩] :=
    .take (i := 0) (p := ⟨dbTask, none, none, .taking [LockKey.named "db"] []⟩) rfl rfl hfree
  have hrun : Step dbHash [⟨dbTask, none, none, .taking [] [LockKey.named "db"]⟩]
      [⟨dbTask, none, none, .running [LockKey.named "db"]⟩] :=
    .run (i := 0) (p := ⟨dbTask, none, none, .taking [] [LockKey.named "db"]⟩) rfl rfl
  exact (((((Relation.ReflTransGen.single (hstart [])).tail (hordered (i := 0) rfl)).tail
    hfirst).tail hrun).tail (hstart _)).tail (hordered (i := 1) rfl)

/-- The two tasks do not deadlock. -/
theorem task_locks_dbProcs : (∀ i, ¬Relation.TransGen (Waits dbHash dbProcs) i i) ∧
    ∀ (env : Option String) (task : Declared) (keys : List LockKey),
      (∀ key ∈ keys, key ∈ requested dbHash task) →
        inherited (some (exported (inherited env) keys)) = inherited env ∪ ids keys := by
  refine task_locks reachable_dbProcs fun p hp q hq key hkey other hother _ => ?_
  have htask : ∀ r ∈ dbProcs, r.task = dbTask := by
    intro r hr
    simp only [dbProcs, List.mem_cons, List.not_mem_nil, or_false] at hr
    rcases hr with rfl | rfl <;> rfl
  rw [htask p hp, requested_dbTask, List.mem_singleton] at hkey
  rw [htask q hq, requested_dbTask, List.mem_singleton] at hother
  rw [hkey, hother]

end Mise.Lock
