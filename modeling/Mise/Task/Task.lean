/-
# Tasks and what identifies them

`src/task/mod.rs` (`Task`, `env_key`, `impl PartialEq for Task`) and
`task_key`, `same_task_without_phase` of `src/task/deps.rs`.

A task is identified in two ways.  The graph keys an occurrence by name,
arguments, environment and phase, where the environment counts both the task's
own directives and the overlay that fetching a remote file moves them to.
`==` on tasks leaves the overlay out.  What else a task holds is kept as one
text, which only the functions outside this model read.
-/

import Mathlib.Data.List.Sort

namespace Mise

/-- `TaskRunPhase`. -/
inductive TaskRunPhase where
  | normal
  | post
  deriving DecidableEq, Repr

/-- `EnvDirective`: a plain value, or any other directive. -/
inductive EnvDirective where
  | val (key value : String)
  | other (text : String)
  deriving DecidableEq, Repr

/-- `Task`. -/
structure Task where
  name : String
  args : List String
  env : List EnvDirective
  overlayEnv : List EnvDirective
  runPhase : TaskRunPhase
  file : Option String
  definition : String
  deriving DecidableEq, Repr

/-- The pairs of the plain values, in order. -/
def EnvDirective.pairs (env : List EnvDirective) : List (String × String) :=
  env.filterMap fun
    | .val k v => some (k, v)
    | .other _ => none

/-- The order of pairs of texts, by key and then by value. -/
def pairLe (a b : String × String) : Prop := a.1 < b.1 ∨ a.1 = b.1 ∧ ¬ b.2 < a.2

instance : DecidableRel pairLe := fun a b =>
  inferInstanceAs (Decidable (a.1 < b.1 ∨ a.1 = b.1 ∧ ¬ b.2 < a.2))

namespace Task

/-- `with_run_phase`. -/
def withRunPhase (t : Task) (phase : TaskRunPhase) : Task := { t with runPhase := phase }

/-- `env_key` of `src/task/mod.rs`: the task's own environment. -/
def envKey (t : Task) : List (String × String) :=
  (EnvDirective.pairs t.env).insertionSort pairLe

/-- `PartialEq::eq`. -/
def eq (a b : Task) : Bool :=
  a.name == b.name && a.args == b.args && a.envKey == b.envKey && a.runPhase == b.runPhase

end Task

/-- `TaskKey`. -/
structure TaskKey where
  name : String
  args : List String
  env : List (String × String)
  phase : TaskRunPhase
  deriving DecidableEq, Repr

/-- The entries of `post_dep_parents` are compared as pairs of keys. -/
instance TaskKey.lawfulBEqPair : LawfulBEq (TaskKey × TaskKey) := inferInstance

/-- `env_key` of `src/task/deps.rs`: the overlay counts too. -/
def depsEnvKey (t : Task) : List (String × String) :=
  (EnvDirective.pairs (t.env ++ t.overlayEnv)).insertionSort pairLe

/-- `task_key`. -/
def taskKey (t : Task) : TaskKey := ⟨t.name, t.args, depsEnvKey t, t.runPhase⟩

/-- `same_task_without_phase`. -/
def sameTaskWithoutPhase (a b : Task) : Bool :=
  a.name == b.name && a.args == b.args && depsEnvKey a == depsEnvKey b

/-- A task equals itself. -/
theorem Task.eq_self (t : Task) : t.eq t = true := by
  simp [Task.eq]

end Mise
