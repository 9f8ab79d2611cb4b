/-
# Resolving variables

`EnvResults::resolve_with_toolset` of `src/config/env_directive/mod.rs`, with the
options that `Task::resolve_task_vars` gives it (`vars`, `NonToolsOnly`), and `saved`
and `answer` of `prompt.rs`.

The directives that run are gone through in order, each value rendered against the
variables bound before it.  A directive with a name reads and writes the variable of
that name alone, but for what its value refers to; what it does to the variable is a
function of its own (`View.step`), and the loop's turn is that function at the name
(`map_view_step`) and nothing elsewhere (`view_step_of_ne`).
-/

import Mathlib.Data.Finset.Erase
import Mathlib.Data.Finset.Insert
import Mathlib.Logic.Function.Basic
import Mise.Lib.NamedSteps
import Mise.Task.VarDirectives

namespace Mise.Vars

open Lib

/-- The contents of a map of variables. -/
abbrev EnvMap := String → Option (List Char)

/-! ### The state of the loop -/

/-- `EnvResults`, as far as variables change it. -/
structure EnvResults where
  vars : String → Option (List Char × String)
  envRemove : Finset String
  redactions : List String
  redactionExclusions : Finset String
  callerEnvKeys : Finset String
  renderedDefaults : Finset String
  hasUncacheable : Bool

/-- What the loop carries: the results, the environment, the variables of the template
context and the saved answers; and the directive that bound each variable last, which
the source does not record. -/
structure State extends EnvResults where
  env : EnvMap
  contextVars : EnvMap
  answers : EnvMap
  wins : String → Option Sourced

/-- What the resolution is given: the settings, the environment and the templates'
context it starts with, the answers on disk, and the functions that it calls. -/
structure Resolver where
  safe : Bool
  isGlobalConfig : String → Bool
  env : EnvMap
  contextVars : EnvMap
  pristineEnv : EnvMap
  answers : EnvMap
  answersPath : String
  /-- What is typed at a prompt, if this run may ask. -/
  ask : String → String → Option (List Char) → Except String (Option (List Char))
  /-- `trust_check` and `render_config_str`, with the variables and the environment. -/
  renderConfigStr : String → EnvMap → EnvMap → List Char → Except String (List Char)
  envShellExpand : Bool
  shellExpandEnv : EnvMap → List Char → List Char
  decryptAge : EnvDirective → Except String (List Char)
  ageStrict : Bool
  toleratesMissing : Bool
  displayPath : String → String
  /-- The turn of a directive whose names are not known until it runs. -/
  unnamed : State → Sourced → Except String State

namespace State

/-- `track_redaction_override`. -/
def trackRedactionOverride (st : State) (key : String) : Option Bool → State
  | some false => { st with redactionExclusions := insert key st.redactionExclusions }
  | some true | none => { st with redactionExclusions := st.redactionExclusions.erase key }

/-- `redactions.push`, where the directive asks for it. -/
def redactIf (st : State) (redact : Bool) (key : String) : State :=
  if redact then { st with redactions := st.redactions ++ [key] } else st

/-- `vars.insert`. -/
def bind (st : State) (x : Sourced) (key : String) (value : List Char × String) : State :=
  { st with
    vars := Function.update st.vars key (some value)
    wins := Function.update st.wins key (some x) }

/-- `rendered_defaults.insert`. -/
def noteDefault (st : State) (key : String) : State :=
  { st with renderedDefaults := insert key st.renderedDefaults }

/-- `caller_env_keys.insert`. -/
def noteCallerKey (st : State) (key : String) : State :=
  { st with callerEnvKeys := insert key st.callerEnvKeys }

/-- `has_uncacheable = true`. -/
def markUncacheable (st : State) : State := { st with hasUncacheable := true }

/-- The answer of a name that is on disk now. -/
def saveAnswer (st : State) (key : String) (answer : Option (List Char)) : State :=
  { st with answers := Function.update st.answers key answer }

/-- The variables of the context with those bound so far. -/
def visible (st : State) : EnvMap := fun key =>
  ((st.vars key).map Prod.fst).or (st.contextVars key)

end State

/-! ### Prompts -/

/-- `prompt::saved`: an empty answer counts as none. -/
def savedAnswer (answer : Option (List Char)) : Option (List Char) := answer.filter (· ≠ [])

namespace Resolver

variable (e : Resolver)

/-- `prompt::answer`, with the answer that is saved afterwards. -/
def answer (saved : Option (List Char)) (key prompt : String) (default : Option (List Char)) :
    Except String (Option (List Char) × Option (List Char)) :=
  match savedAnswer saved with
  | some value => .ok (some value, saved)
  | none => do
    match ← e.ask key prompt default with
    | none => .ok (none, saved)
    | some typed =>
      let value := if typed = [] then default.getD [] else typed
      .ok (if value = [] then (none, saved) else (some value, some value))

/-! ### The loop -/

/-- `parse_template`. -/
def parseTemplate (source : String) (vars env : EnvMap) (input : List Char) :
    Except String (List Char) := do
  let output ← if containsTemplateSyntax input then e.renderConfigStr source vars env input
    else .ok input
  .ok (if '$' ∈ output && e.envShellExpand then e.shellExpandEnv env output else output)

/-- `dropped_in_safe_mode`, in safe mode. -/
def droppedInSafeMode (x : Sourced) : Bool :=
  e.safe && (!e.isGlobalConfig x.2 || x.1 matches .source ..)

/-- `last_python_venv`. -/
def lastPythonVenv (input : List Sourced) : Option EnvDirective :=
  input.reverse.findSome? fun x =>
    if (x.1 matches .pythonVenv ..) && !e.droppedInSafeMode x then some x.1 else none

/-- `filtered_input`. -/
def filteredInput (input : List Sourced) : List Sourced :=
  input.filter fun x =>
    !e.droppedInSafeMode x && !x.1.options.tools &&
      !((x.1 matches .pythonVenv ..) && (e.lastPythonVenv input).any (· ≠ x.1))

/-- The state before the loop: every saved answer is a variable, unless the process
environment sets its name. -/
def start : State where
  vars := fun key =>
    if (e.pristineEnv key).all (· = []) then
      (savedAnswer (e.answers key)).map fun value => (value, e.answersPath)
    else none
  envRemove := ∅
  redactions := []
  redactionExclusions := ∅
  callerEnvKeys := ∅
  renderedDefaults := ∅
  hasUncacheable := false
  env := e.env
  contextVars := e.contextVars
  answers := e.answers
  wins := fun _ => none

/-- The turn of a value. -/
def stepVal (st : State) (x : Sourced) (vars : EnvMap) (key : String) (value : List Char)
    (options : EnvDirectiveOptions) : Except String State := do
  let value ← e.parseTemplate x.2 vars st.env value
  .ok (((st.trackRedactionOverride key options.redact).redactIf
    (options.redact.getD false) key).bind x key (value, x.2))

/-- The turn of a default that is rendered. -/
def renderDefault (st : State) (x : Sourced) (vars : EnvMap) (key : String) (value : List Char)
    (options : EnvDirectiveOptions) : Except String State := do
  let value ← e.parseTemplate x.2 vars st.env value
  let noted := ((st.trackRedactionOverride key options.redact).noteDefault key).redactIf
    (options.redact.getD false) key
  match options.prompt with
  | none => .ok (noted.bind x key (value, x.2))
  | some prompt => do
    let (answer, saved) ← e.answer (st.answers key) key prompt (some value)
    match answer with
    | some answer => .ok ((noted.saveAnswer key saved).bind x key (answer, e.answersPath))
    | none => .ok ((noted.saveAnswer key saved).bind x key (value, x.2))

/-- The turn of a default. -/
def stepDefault (st : State) (x : Sourced) (vars : EnvMap) (key : String) (value : List Char)
    (options : EnvDirectiveOptions) : Except String State :=
  let redact := options.redact.getD false
  if (st.vars key).any (·.1 ≠ []) then .ok (st.redactIf redact key)
  else
    match (e.pristineEnv key).filter (· ≠ []) with
    | some value => .ok ((st.redactIf redact key).bind x key (value, x.2))
    | none =>
      match savedAnswer (st.answers key) with
      | some answer =>
        .ok (((st.redactIf redact key).trackRedactionOverride key options.redact).bind x key
          (answer, e.answersPath))
      | none => e.renderDefault st x vars key value options

/-- The turn of a removal, which is one of the environment. -/
def stepRm (st : State) (key : String) : State :=
  { st with
    env := Function.update st.env key none
    redactionExclusions := st.redactionExclusions.erase key
    callerEnvKeys := st.callerEnvKeys.erase key
    envRemove := insert key st.envRemove }

/-- What a required variable records. -/
def noteRequired (st : State) (key : String) (redact : Option Bool) : State :=
  let st := st.noteCallerKey key
  let st := if redact.isSome then st.trackRedactionOverride key redact else st
  st.redactIf (redact = some true) key

/-- The answer that a required variable takes, with the one saved afterwards. -/
def requiredAnswer (saved : Option (List Char)) (key : String) (options : EnvDirectiveOptions) :
    Except String (Option (List Char) × Option (List Char)) :=
  match options.prompt with
  | some prompt => e.answer saved key prompt none
  | none => .ok (savedAnswer saved, saved)

/-- The turn of a required variable. -/
def stepRequired (st : State) (x : Sourced) (vars : EnvMap) (key : String)
    (options : EnvDirectiveOptions) : Except String State :=
  let noted := noteRequired st key options.redact
  if (vars key).isSome then .ok noted
  else
    match e.pristineEnv key with
    | some value => .ok (noted.bind x key (value, x.2))
    | none =>
      if (st.vars key).isSome then .ok noted
      else do
        let (answer, saved) ← e.requiredAnswer (st.answers key) key options
        match answer with
        | some answer => .ok ((noted.saveAnswer key saved).bind x key (answer, e.answersPath))
        | none => .ok (noted.saveAnswer key saved)

/-- The turn of an encrypted value, which is redacted unless it is said not to be. -/
def stepAge (st : State) (x : Sourced) (vars : EnvMap) (key : String)
    (options : EnvDirectiveOptions) : Except String State :=
  match e.decryptAge x.1 with
  | .error _ =>
    if e.ageStrict then .error ("[experimental] Failed to decrypt " ++ key)
    else .ok (st.trackRedactionOverride key options.redact)
  | .ok decrypted => do
    let value ← e.parseTemplate x.2 vars st.env decrypted
    .ok (((st.trackRedactionOverride key options.redact).markUncacheable.redactIf
      (options.redact ≠ some false) key).bind x key (value, x.2))

/-- Whether a directive may carry a `prompt`. -/
def takesPrompt : EnvDirective → Bool
  | .default .. | .required .. => true
  | _ => false

/-- One turn of the loop. -/
def step (st : State) (x : Sourced) : Except String State :=
  let vars := st.visible
  let st := { st with contextVars := vars }
  if x.1.options.prompt.isSome && !takesPrompt x.1 then
    .error "`prompt` needs a `default` or `required` on the same var"
  else
    match x.1 with
    | .val key value options => e.stepVal st x vars key value options
    | .default key value options => e.stepDefault st x vars key value options
    | .rm key _ => .ok (stepRm st key)
    | .required key options => e.stepRequired st x vars key options
    | .age key _ _ options => e.stepAge st x vars key options
    | .file .. | .fileGroup .. | .path .. | .source .. | .pythonVenv .. | .envModule .. =>
      e.unnamed st x

/-- The loop of `resolve_with_toolset`. -/
def resolveLoop (input : List Sourced) : Except String State :=
  (e.filteredInput input).foldlM e.step e.start

/-! ### The check of required variables -/

/-- What a directive requires. -/
def requiredVar : Sourced → Option (String × String × RequiredValue)
  | (.val key _ options, source)
  | (.default key _ options, source) =>
    if options.required.isRequired then some (key, source, options.required) else none
  | (.required key options, source) => some (key, source, options.required)
  | _ => none

/-- Whether a required variable is not defined. -/
def isMissing (st : State) (key source : String) : Bool :=
  (e.pristineEnv key).isNone && !((st.vars key).any (·.2 ≠ source)) &&
    !((st.contextVars key).any (· ≠ []))

/-- The message about it. -/
def missingMessage (key source : String) (required : RequiredValue) : String :=
  let base := "Required variable '" ++ key ++ "' is not defined. It must be set before mise " ++
    "runs or in a later config file. (Required in: " ++ e.displayPath source ++ ")"
  match required.helpText with
  | some help => base ++ "\nHelp: " ++ help
  | none => base

/-- `validate_required_vars`. -/
def validateRequiredVars (input : List Sourced) (st : State) : Except String Unit :=
  (input.filterMap requiredVar).forM fun (key, source, required) =>
    if e.isMissing st key source && !e.toleratesMissing then
      .error (e.missingMessage key source required)
    else .ok ()

/-- `EnvResults::resolve`. -/
def resolve (input : List Sourced) : Except String EnvResults := do
  let st ← e.resolveLoop input
  e.validateRequiredVars (e.filteredInput input) st
  .ok { st.toEnvResults with
    hasUncacheable := if st.redactions = [] then st.hasUncacheable else true }

end Resolver

/-! ### What a directive does to its own variable -/

/-- What the state holds of one name. -/
structure View where
  value : Option (List Char × String)
  wins : Option Sourced
  answer : Option (List Char)

/-- The view of a name. -/
def view (key : String) (st : State) : View := ⟨st.vars key, st.wins key, st.answers key⟩

namespace View

variable (e : Resolver)

/-- The name's variable, bound by a directive. -/
def bind (v : View) (x : Sourced) (value : List Char × String) : View :=
  { v with value := some value, wins := some x }

/-- What a default that is rendered does. -/
def renderDefault (parse : List Char → Except String (List Char)) (v : View) (x : Sourced)
    (key : String) (value : List Char) (options : EnvDirectiveOptions) : Except String View := do
  let value ← parse value
  match options.prompt with
  | none => .ok (v.bind x (value, x.2))
  | some prompt => do
    let (answer, saved) ← e.answer v.answer key prompt (some value)
    match answer with
    | some answer => .ok (({ v with answer := saved }).bind x (answer, e.answersPath))
    | none => .ok (({ v with answer := saved }).bind x (value, x.2))

/-- What a default does. -/
def stepDefault (parse : List Char → Except String (List Char)) (v : View) (x : Sourced)
    (key : String) (value : List Char) (options : EnvDirectiveOptions) : Except String View :=
  if v.value.any (·.1 ≠ []) then .ok v
  else
    match (e.pristineEnv key).filter (· ≠ []) with
    | some value => .ok (v.bind x (value, x.2))
    | none =>
      match savedAnswer v.answer with
      | some answer => .ok (v.bind x (answer, e.answersPath))
      | none => renderDefault e parse v x key value options

/-- What a required variable does. -/
def stepRequired (v : View) (x : Sourced) (key : String) (options : EnvDirectiveOptions) :
    Except String View :=
  if v.value.isSome || (e.contextVars key).isSome then .ok v
  else
    match e.pristineEnv key with
    | some value => .ok (v.bind x (value, x.2))
    | none => do
      let (answer, saved) ← e.requiredAnswer v.answer key options
      match answer with
      | some answer => .ok (({ v with answer := saved }).bind x (answer, e.answersPath))
      | none => .ok { v with answer := saved }

/-- What an encrypted value does. -/
def stepAge (parse : List Char → Except String (List Char)) (v : View) (x : Sourced)
    (key : String) : Except String View :=
  match e.decryptAge x.1 with
  | .error _ =>
    if e.ageStrict then .error ("[experimental] Failed to decrypt " ++ key) else .ok v
  | .ok decrypted => do
    let value ← parse decrypted
    .ok (v.bind x (value, x.2))

/-- What a directive does to the variable of its name, its values being rendered by
the function given. -/
def step (parse : List Char → Except String (List Char)) (v : View) (x : Sourced) :
    Except String View :=
  if x.1.options.prompt.isSome && !Resolver.takesPrompt x.1 then
    .error "`prompt` needs a `default` or `required` on the same var"
  else
    match x.1 with
    | .val _ value _ => do
      let value ← parse value
      .ok (v.bind x (value, x.2))
    | .default key value options => stepDefault e parse v x key value options
    | .required key options => stepRequired e v x key options
    | .age key _ _ _ => stepAge e parse v x key
    | _ => .ok v

end View

section Views

variable {st : State} {key : String}

@[simp] theorem view_trackRedactionOverride (other : String) (redact : Option Bool) :
    view key (st.trackRedactionOverride other redact) = view key st := by
  match redact with
  | some false | some true | none => rfl

@[simp] theorem view_redactIf (redact : Bool) (other : String) :
    view key (st.redactIf redact other) = view key st := by
  cases redact <;> rfl

@[simp] theorem view_noteDefault (other : String) :
    view key (st.noteDefault other) = view key st := rfl

@[simp] theorem view_markUncacheable : view key st.markUncacheable = view key st := rfl

@[simp] theorem view_noteRequired (other : String) (redact : Option Bool) :
    view key (Resolver.noteRequired st other redact) = view key st := by
  rw [Resolver.noteRequired, view_redactIf]
  split
  · exact view_trackRedactionOverride ..
  · rfl

@[simp] theorem view_saveAnswer (answer : Option (List Char)) :
    view key (st.saveAnswer key answer) = { view key st with answer := answer } := by
  simp [view, State.saveAnswer]

@[simp] theorem view_bind (x : Sourced) (value : List Char × String) :
    view key (st.bind x key value) = (view key st).bind x value := by
  simp [view, State.bind, View.bind]

end Views

/-! ### The turn at its own name -/

section Own

variable (e : Resolver) {st : State} {x : Sourced} {key : String} {value : List Char}
  {options : EnvDirectiveOptions}

theorem map_view_stepVal (vars : EnvMap) :
    (e.stepVal st x vars key value options).map (view key) = (do
      let value ← e.parseTemplate x.2 vars st.env value
      .ok (View.bind (view key st) x (value, x.2))) := by
  unfold Resolver.stepVal
  cases e.parseTemplate x.2 vars st.env value with
  | error err => rfl
  | ok text => simp [Except.map]

theorem map_view_stepAge (vars : EnvMap) :
    (e.stepAge st x vars key options).map (view key) =
      View.stepAge e (e.parseTemplate x.2 vars st.env) (view key st) x key := by
  unfold Resolver.stepAge View.stepAge
  cases e.decryptAge x.1 with
  | error err => cases e.ageStrict <;> simp [Except.map]
  | ok decrypted =>
    simp only
    cases e.parseTemplate x.2 vars st.env decrypted with
    | error err => rfl
    | ok text => simp [Except.map]

theorem map_view_renderDefault (vars : EnvMap) :
    (e.renderDefault st x vars key value options).map (view key) =
      View.renderDefault e (e.parseTemplate x.2 vars st.env) (view key st) x key value options := by
  unfold Resolver.renderDefault View.renderDefault
  cases e.parseTemplate x.2 vars st.env value with
  | error err => rfl
  | ok text =>
    cases options.prompt with
    | none => simp [Except.map]
    | some prompt =>
      have hanswer : (view key st).answer = st.answers key := rfl
      simp only [ok_bind, hanswer]
      cases e.answer (st.answers key) key prompt (some text) with
      | error err => rfl
      | ok given =>
        obtain ⟨answer, saved⟩ := given
        cases answer <;> simp [Except.map]

theorem map_view_stepDefault (vars : EnvMap) :
    (e.stepDefault st x vars key value options).map (view key) =
      View.stepDefault e (e.parseTemplate x.2 vars st.env) (view key st) x key value options := by
  unfold Resolver.stepDefault View.stepDefault
  change Except.map (view key) (if (view key st).value.any (·.1 ≠ []) then _ else _) = _
  cases (view key st).value.any (·.1 ≠ []) with
  | true => simp [Except.map]
  | false =>
    simp only [Bool.false_eq_true, if_false]
    cases (e.pristineEnv key).filter (· ≠ []) with
    | some text => simp [Except.map]
    | none =>
      change Except.map (view key) (match savedAnswer (view key st).answer with
        | some answer => _
        | none => _) = _
      cases savedAnswer (view key st).answer with
      | some answer => simp [Except.map]
      | none => exact map_view_renderDefault e vars

theorem map_view_stepRequired (vars : EnvMap) (hvars : (vars key).isSome =
      ((st.vars key).isSome || (e.contextVars key).isSome)) :
    (e.stepRequired st x vars key options).map (view key) =
      View.stepRequired e (view key st) x key options := by
  unfold Resolver.stepRequired View.stepRequired
  rw [hvars]
  change Except.map (view key) (if ((view key st).value.isSome || _) = true then _ else _) = _
  cases hthere : (view key st).value.isSome || (e.contextVars key).isSome with
  | true => simp [Except.map]
  | false =>
    have hnot : (st.vars key).isSome = false := (Bool.or_eq_false_iff.1 hthere).1
    have hanswer : (view key st).answer = st.answers key := rfl
    simp only [Bool.false_eq_true, if_false]
    cases e.pristineEnv key with
    | some text => simp [Except.map]
    | none =>
      simp only [hnot, Bool.false_eq_true, if_false, hanswer]
      cases e.requiredAnswer (st.answers key) key options with
      | error err => rfl
      | ok given =>
        obtain ⟨answer, saved⟩ := given
        cases answer <;> simp [Except.map]

end Own

/-! ### The turn at the other names -/

/-- The second state differs from the first in one name, and keeps its variable. -/
structure Within (key : String) (st st' : State) : Prop where
  other : ∀ n, n ≠ key → view n st' = view n st
  bound : st'.vars key = none → st.vars key = none
  contextVars : st'.contextVars = st.contextVars
  env : st'.env = st.env

namespace Within

variable {key : String} {st st' st'' : State}

theorem refl (key : String) (st : State) : Within key st st :=
  ⟨fun _ _ => rfl, id, rfl, rfl⟩

theorem trans (h : Within key st st') (h' : Within key st' st'') : Within key st st'' where
  other n hn := (h'.other n hn).trans (h.other n hn)
  bound hnone := h.bound (h'.bound hnone)
  contextVars := h'.contextVars.trans h.contextVars
  env := h'.env.trans h.env

theorem trackRedactionOverride (st : State) (redact : Option Bool) :
    Within key st (st.trackRedactionOverride key redact) := by
  match redact with
  | some false | some true | none => exact ⟨fun _ _ => rfl, id, rfl, rfl⟩

theorem redactIf (st : State) (redact : Bool) : Within key st (st.redactIf redact key) := by
  cases redact with
  | true => exact ⟨fun _ _ => rfl, id, rfl, rfl⟩
  | false => exact refl key st

theorem noteDefault (st : State) : Within key st (st.noteDefault key) :=
  ⟨fun _ _ => rfl, id, rfl, rfl⟩

theorem markUncacheable (st : State) : Within key st st.markUncacheable :=
  ⟨fun _ _ => rfl, id, rfl, rfl⟩

theorem noteRequired (st : State) (redact : Option Bool) :
    Within key st (Resolver.noteRequired st key redact) := by
  refine .trans ?_ (redactIf _ _)
  have hnote : Within key st (st.noteCallerKey key) := ⟨fun _ _ => rfl, id, rfl, rfl⟩
  split
  · exact hnote.trans (trackRedactionOverride _ redact)
  · exact hnote

theorem saveAnswer (st : State) (answer : Option (List Char)) :
    Within key st (st.saveAnswer key answer) where
  other n hn := by simp [view, State.saveAnswer, hn]
  bound := id
  contextVars := rfl
  env := rfl

theorem bind (st : State) (x : Sourced) (value : List Char × String) :
    Within key st (st.bind x key value) where
  other n hn := by simp [view, State.bind, hn]
  bound h := by simp [State.bind] at h
  contextVars := rfl
  env := rfl

end Within

section Others

variable (e : Resolver) {st st' : State} {x : Sourced} {vars : EnvMap} {key : String}
  {value : List Char} {options : EnvDirectiveOptions}

theorem within_stepVal (h : e.stepVal st x vars key value options = .ok st') :
    Within key st st' := by
  obtain ⟨text, -, h⟩ := bind_eq_ok h
  obtain rfl := Except.ok.inj h
  exact ((Within.trackRedactionOverride st _).trans (.redactIf _ _)).trans (.bind _ x _)

theorem within_renderDefault (h : e.renderDefault st x vars key value options = .ok st') :
    Within key st st' := by
  obtain ⟨text, -, h⟩ := bind_eq_ok h
  have hnoted : Within key st (((st.trackRedactionOverride key options.redact).noteDefault
      key).redactIf (options.redact.getD false) key) :=
    ((Within.trackRedactionOverride st _).trans (.noteDefault _)).trans (.redactIf _ _)
  split at h
  · obtain rfl := Except.ok.inj h
    exact hnoted.trans (.bind _ x _)
  · obtain ⟨⟨answer, saved⟩, -, h⟩ := bind_eq_ok h
    cases answer with
    | some answer =>
      obtain rfl := Except.ok.inj h
      exact (hnoted.trans (.saveAnswer _ saved)).trans (.bind _ x _)
    | none =>
      obtain rfl := Except.ok.inj h
      exact (hnoted.trans (.saveAnswer _ saved)).trans (.bind _ x _)

theorem within_stepDefault (h : e.stepDefault st x vars key value options = .ok st') :
    Within key st st' := by
  unfold Resolver.stepDefault at h
  simp only at h
  split at h
  · obtain rfl := Except.ok.inj h
    exact .redactIf st _
  split at h
  · obtain rfl := Except.ok.inj h
    exact (Within.redactIf st _).trans (.bind _ x _)
  split at h
  · obtain rfl := Except.ok.inj h
    exact ((Within.redactIf st _).trans (.trackRedactionOverride _ _)).trans (.bind _ x _)
  · exact within_renderDefault e h

theorem within_stepRequired (h : e.stepRequired st x vars key options = .ok st') :
    Within key st st' := by
  have hnoted := @Within.noteRequired key st options.redact
  unfold Resolver.stepRequired at h
  simp only at h
  split at h
  · obtain rfl := Except.ok.inj h
    exact hnoted
  split at h
  · obtain rfl := Except.ok.inj h
    exact hnoted.trans (.bind _ x _)
  split at h
  · obtain rfl := Except.ok.inj h
    exact hnoted
  · obtain ⟨⟨answer, saved⟩, -, h⟩ := bind_eq_ok h
    cases answer with
    | some answer =>
      obtain rfl := Except.ok.inj h
      exact (hnoted.trans (.saveAnswer _ saved)).trans (.bind _ x _)
    | none =>
      obtain rfl := Except.ok.inj h
      exact hnoted.trans (.saveAnswer _ saved)

theorem within_stepAge (h : e.stepAge st x vars key options = .ok st') : Within key st st' := by
  unfold Resolver.stepAge at h
  split at h
  · split at h
    · exact nomatch h
    · obtain rfl := Except.ok.inj h
      exact .trackRedactionOverride st _
  · obtain ⟨text, -, h⟩ := bind_eq_ok h
    obtain rfl := Except.ok.inj h
    exact (((Within.trackRedactionOverride st _).trans (.markUncacheable _)).trans
      (.redactIf _ _)).trans (.bind _ x _)

end Others

/-! ### The turn -/

/-- Whether a list has a directive that removes a name from the environment. -/
def Removes (l : List Sourced) (n : String) : Prop :=
  ∃ options source, (EnvDirective.rm n options, source) ∈ l

/-- What the loop never changes: the context of names that are not bound, and the
environment but for the removals of the list. -/
structure Agrees (e : Resolver) (l : List Sourced) (st : State) : Prop where
  context : ∀ n, st.vars n = none → st.contextVars n = e.contextVars n
  env : ∀ n, ¬ Removes l n → st.env n = e.env n

theorem agrees_start (e : Resolver) (l : List Sourced) : Agrees e l e.start :=
  ⟨fun _ _ => rfl, fun _ _ => rfl⟩

section Turn

variable {e : Resolver} {l : List Sourced} {st st' : State} {x : Sourced} {key : String}

theorem visible_of_vars_eq_none (h : st.vars key = none) : st.visible key = st.contextVars key := by
  rw [State.visible, h]
  rfl

/-- What the templates see of a name is what is held of it. -/
theorem Agrees.visible_eq (h : Agrees e l st) (n : String) :
    st.visible n = ((view n st).value.map Prod.fst).or (e.contextVars n) := by
  change ((st.vars n).map Prod.fst).or _ = ((st.vars n).map Prod.fst).or _
  cases hn : st.vars n with
  | none => rw [h.context n hn]
  | some v => rfl

/-- **What the turn of a directive does to its own name.** -/
theorem map_view_step (h : Agrees e l st) (hkey : assignedName x.1 = some key) :
    (e.step st x).map (view key) =
      View.step e (e.parseTemplate x.2 st.visible st.env) (view key st) x := by
  obtain ⟨directive, source⟩ := x
  have hsome : (st.visible key).isSome =
      ((st.vars key).isSome || (e.contextVars key).isSome) := by
    rw [h.visible_eq key, Option.isSome_or, Option.isSome_map]
    rfl
  unfold Resolver.step View.step
  simp only
  split
  · rfl
  · cases directive with
    | val k value options =>
      obtain rfl := Option.some.inj hkey
      exact map_view_stepVal e _
    | default k value options =>
      obtain rfl := Option.some.inj hkey
      exact map_view_stepDefault e _
    | rm k options =>
      obtain rfl := Option.some.inj hkey
      rfl
    | required k options =>
      obtain rfl := Option.some.inj hkey
      exact map_view_stepRequired e _ hsome
    | age k value format options =>
      obtain rfl := Option.some.inj hkey
      exact map_view_stepAge e _
    | file | fileGroup | path | source | pythonVenv | envModule => exact nomatch hkey

/-- The turn of a directive leaves the other names alone, and the environment but for
what it removes. -/
theorem step_elsewhere (hkey : assignedName x.1 = some key) (h : e.step st x = .ok st') :
    (∀ n, n ≠ key → view n st' = view n st) ∧ (st'.vars key = none → st.vars key = none) ∧
      st'.contextVars = st.visible ∧
      ∀ n, (¬ ∃ options, x.1 = .rm n options) → st'.env n = st.env n := by
  obtain ⟨directive, source⟩ := x
  have hwithin : Within key { st with contextVars := st.visible } st' →
      (∀ n, n ≠ key → view n st' = view n st) ∧ (st'.vars key = none → st.vars key = none) ∧
        st'.contextVars = st.visible ∧
        ∀ n, (¬ ∃ options, directive = .rm n options) → st'.env n = st.env n :=
    fun hw => ⟨hw.other, hw.bound, hw.contextVars, fun n _ => congrFun hw.env n⟩
  unfold Resolver.step at h
  simp only at h
  split at h
  · exact nomatch h
  · cases directive with
    | val k value options =>
      obtain rfl := Option.some.inj hkey
      exact hwithin (within_stepVal e h)
    | default k value options =>
      obtain rfl := Option.some.inj hkey
      exact hwithin (within_stepDefault e h)
    | rm k options =>
      obtain rfl := Except.ok.inj h
      refine ⟨fun _ _ => rfl, id, rfl, fun n hn => ?_⟩
      have hne : n ≠ k := by
        rintro rfl
        exact hn ⟨options, rfl⟩
      exact Function.update_of_ne hne _ _
    | required k options =>
      obtain rfl := Option.some.inj hkey
      exact hwithin (within_stepRequired e h)
    | age k value format options =>
      obtain rfl := Option.some.inj hkey
      exact hwithin (within_stepAge e h)
    | file | fileGroup | path | source | pythonVenv | envModule => exact nomatch hkey

/-- **The turn of a directive of the list keeps what the loop never changes.** -/
theorem Agrees.step (hst : Agrees e l st) (hx : x ∈ l) (hkey : assignedName x.1 = some key)
    (h : e.step st x = .ok st') : Agrees e l st' := by
  obtain ⟨hother, hbound, hcontext, henv⟩ := step_elsewhere hkey h
  constructor
  · intro n hn
    have hnone : st.vars n = none := by
      by_cases hne : n = key
      · exact hne ▸ hbound (hne ▸ hn)
      · exact (congrArg View.value (hother n hne)).symm.trans hn
    rw [hcontext, visible_of_vars_eq_none hnone]
    exact hst.context n hnone
  · intro n hn
    rw [henv n fun ⟨options, heq⟩ => hn ⟨options, x.2, heq ▸ hx⟩]
    exact hst.env n hn

end Turn

end Mise.Vars
