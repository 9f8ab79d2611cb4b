/-
# Binding literals first keeps the meaning

`bind_literal_vars_first` of `src/task/mod.rs`, judged by what resolving the list makes
of it.  Two lists of which every name keeps its directives, or the last of its
literals, are resolved name by name (`turns_of_resolveLoop`).  Where the directives of
a name refer to no other variable, their turns say what they lead to
(`View.step_congr`), so the name ends with one value.  Which directive wins a name
does not depend on the values but for a `default`, which gives way to a value that is
not empty (`View.similar_step`).
-/

import Mise.Task.VarsResolve

namespace Mise.Vars

open Lib

/-! ### What directives refer to -/

/-- The text that a directive renders. -/
def valueText (e : Resolver) : EnvDirective → Option (List Char)
  | .val _ value _ => some value
  | .default _ value _ => some value
  | .age key value format options =>
    match e.decryptAge (.age key value format options) with
    | .ok decrypted => some decrypted
    | .error _ => none
  | _ => none

/-- Whether the value of a directive refers to no other variable: it is rendered alike
wherever its own name has one value, and the environment is the same but for what the
list removes from it. -/
def Standalone (e : Resolver) (l : List Sourced) (x : Sourced) : Prop :=
  ∀ text, valueText e x.1 = some text → ∀ (vars vars' env env' : EnvMap),
    (∀ n, assignedName x.1 = some n → vars n = vars' n) → (∀ n, ¬ Removes l n → env n = env' n) →
      e.parseTemplate x.2 vars env text = e.parseTemplate x.2 vars' env' text

/-- Whether a directive is a default. -/
def isDefault : EnvDirective → Bool
  | .default .. => true
  | _ => false

/-- Whether the directives of a name refer to no other variable. -/
def StandaloneName (e : Resolver) (l : List Sourced) (name : String) : Prop :=
  ∀ x ∈ l, assignedName x.1 = some name → Standalone e l x

/-- Whether no `default` of a name comes behind a directive of the name that refers to
other variables. -/
def DefaultsStandalone (e : Resolver) (l : List Sourced) (name : String) : Prop :=
  ∀ front d rest, l = front ++ d :: rest → isDefault d.1 = true →
    assignedName d.1 = some name → ∀ x ∈ front, assignedName x.1 = some name → Standalone e l x

/-- Whether a directive cannot fail by what it renders or is answered. -/
def NeverFails (e : Resolver) (x : Sourced) : Prop :=
  (∀ text, valueText e x.1 = some text → ∀ vars env, ∃ out,
    e.parseTemplate x.2 vars env text = .ok out) ∧
  (x.1.options.prompt.isSome → Resolver.takesPrompt x.1 = true →
    ∀ key prompt default, ∃ typed, e.ask key prompt default = .ok typed)

/-! ### What a turn at a name depends on -/

namespace View

variable {e : Resolver} {parse parse' : List Char → Except String (List Char)} {v v' w w' : View}
  {x : Sourced}

/-- A turn depends on how the directive's own text is rendered. -/
theorem step_congr (h : ∀ text, valueText e x.1 = some text → parse text = parse' text) :
    step e parse v x = step e parse' v x := by
  obtain ⟨directive, source⟩ := x
  unfold step
  split
  · rfl
  · cases directive with
    | val key value options => simp only [h value rfl]
    | default key value options =>
      simp only [stepDefault, renderDefault, h value rfl]
    | age key value format options =>
      simp only [stepAge]
      cases hdecrypt : e.decryptAge (.age key value format options) with
      | error err => rfl
      | ok decrypted =>
        have htext : valueText e (.age key value format options) = some decrypted := by
          simp only [valueText, hdecrypt]
        simp only [h decrypted htext]
    | rm | required | file | fileGroup | path | source | pythonVenv | envModule => rfl

/-- Two views of a name that the same directive won, whatever its value. -/
structure Similar (v v' : View) : Prop where
  wins : v.wins = v'.wins
  bound : v.value.isSome = v'.value.isSome
  answer : v.value = none → v.answer = v'.answer

theorem Similar.refl (v : View) : Similar v v := ⟨rfl, rfl, fun _ => rfl⟩

theorem similar_bind (v v' : View) (x : Sourced) (value value' : List Char × String) :
    Similar (v.bind x value) (v'.bind x value') := ⟨rfl, rfl, nofun⟩

/-- Views that two steps end with are similar where those they build are. -/
theorem similar_of_ok {u u' : View} (h : (.ok u : Except String View) = .ok w)
    (h' : (.ok u' : Except String View) = .ok w') (hsim : Similar u u') : Similar w w' := by
  obtain rfl := Except.ok.inj h
  obtain rfl := Except.ok.inj h'
  exact hsim

/-- A rendered default binds its name. -/
theorem exists_of_renderDefault {key : String} {value : List Char} {options : EnvDirectiveOptions}
    (h : renderDefault e parse v x key value options = .ok w) :
    ∃ u bound, w = View.bind u x bound := by
  obtain ⟨text, -, h⟩ := bind_eq_ok h
  split at h
  · exact ⟨_, _, (Except.ok.inj h).symm⟩
  · obtain ⟨⟨answer, saved⟩, -, h⟩ := bind_eq_ok h
    cases answer with
    | some answer => exact ⟨_, _, (Except.ok.inj h).symm⟩
    | none => exact ⟨_, _, (Except.ok.inj h).symm⟩

/-- **Which directive wins a name does not depend on the values**, but for a default,
which has to be met with the same one. -/
theorem similar_step (hsim : Similar v v')
    (hdefault : isDefault x.1 = true → v = v')
    (h : step e parse v x = .ok w) (h' : step e parse' v' x = .ok w') : Similar w w' := by
  obtain ⟨directive, source⟩ := x
  unfold step at h h'
  split at h
  · exact nomatch h
  · case isFalse hprompt =>
    rw [if_neg hprompt] at h'
    cases directive with
    | val key value options =>
      obtain ⟨text, -, h⟩ := bind_eq_ok h
      obtain ⟨text', -, h'⟩ := bind_eq_ok h'
      exact similar_of_ok h h' (similar_bind ..)
    | default key value options =>
      obtain rfl := hdefault rfl
      simp only [stepDefault] at h h'
      by_cases hthere : v.value.any (fun bound => decide (bound.1 ≠ [])) = true
      · rw [if_pos hthere] at h h'
        exact similar_of_ok h h' (.refl v)
      rw [if_neg hthere] at h h'
      cases hset : (e.pristineEnv key).filter (· ≠ []) with
      | some value =>
        rw [hset] at h h'
        exact similar_of_ok h h' (similar_bind ..)
      | none =>
        rw [hset] at h h'
        cases hsaved : savedAnswer v.answer with
        | some answer =>
          rw [hsaved] at h h'
          exact similar_of_ok h h' (similar_bind ..)
        | none =>
          rw [hsaved] at h h'
          obtain ⟨u, bound, rfl⟩ := exists_of_renderDefault h
          obtain ⟨u', bound', rfl⟩ := exists_of_renderDefault h'
          exact similar_bind ..
    | required key options =>
      simp only [stepRequired] at h h'
      rw [← hsim.bound] at h'
      by_cases hthere : (v.value.isSome || (e.contextVars key).isSome) = true
      · rw [if_pos hthere] at h h'
        exact similar_of_ok h h' hsim
      rw [if_neg hthere] at h h'
      cases hset : e.pristineEnv key with
      | some value =>
        rw [hset] at h h'
        exact similar_of_ok h h' (similar_bind ..)
      | none =>
        rw [hset] at h h'
        rw [Bool.not_eq_true, Bool.or_eq_false_iff, Option.isSome_eq_false_iff] at hthere
        rw [← hsim.answer (Option.isNone_iff_eq_none.1 hthere.1)] at h'
        obtain ⟨⟨answer, saved⟩, hanswer, h⟩ := bind_eq_ok h
        rw [hanswer] at h'
        cases answer with
        | some answer =>
          exact similar_of_ok h h' (similar_bind ..)
        | none =>
          exact similar_of_ok h h' ⟨hsim.wins, hsim.bound, fun _ => rfl⟩
    | age key value format options =>
      simp only [stepAge] at h h'
      cases hdecrypt : e.decryptAge (.age key value format options) with
      | error err =>
        rw [hdecrypt] at h h'
        by_cases hstrict : e.ageStrict = true
        · rw [if_pos hstrict] at h
          exact nomatch h
        · rw [if_neg hstrict] at h h'
          exact similar_of_ok h h' hsim
      | ok decrypted =>
        rw [hdecrypt] at h h'
        obtain ⟨text, -, h⟩ := bind_eq_ok h
        obtain ⟨text', -, h'⟩ := bind_eq_ok h'
        exact similar_of_ok h h' (similar_bind ..)
    | rm | file | fileGroup | path | source | pythonVenv | envModule =>
      exact similar_of_ok h h' hsim

/-- A prompt whose question does not fail has an answer. -/
theorem exists_answer {saved default : Option (List Char)} {key prompt : String}
    (hask : ∃ typed, e.ask key prompt default = .ok typed) :
    ∃ given, e.answer saved key prompt default = .ok given := by
  obtain ⟨typed, htyped⟩ := hask
  unfold Resolver.answer
  split
  · exact ⟨_, rfl⟩
  · rw [htyped]
    cases typed with
    | none => exact ⟨_, rfl⟩
    | some typed => exact ⟨_, rfl⟩

/-- A turn that once returned returns whatever it is given, where the directive cannot
fail by what it renders or is answered. -/
theorem exists_step (h : step e parse v x = .ok w)
    (hparse : ∀ text, valueText e x.1 = some text → ∃ out, parse' text = .ok out)
    (hask : x.1.options.prompt.isSome → Resolver.takesPrompt x.1 = true →
      ∀ key prompt default, ∃ typed, e.ask key prompt default = .ok typed) :
    ∃ w', step e parse' v' x = .ok w' := by
  obtain ⟨directive, source⟩ := x
  unfold step at h ⊢
  split at h
  · exact nomatch h
  · case isFalse hprompt =>
    rw [if_neg hprompt]
    cases directive with
    | val key value options =>
      obtain ⟨out, hout⟩ := hparse value rfl
      simp only [hout]
      exact ⟨_, rfl⟩
    | default key value options =>
      obtain ⟨out, hout⟩ := hparse value rfl
      simp only [stepDefault]
      split
      · exact ⟨_, rfl⟩
      split
      · exact ⟨_, rfl⟩
      split
      · exact ⟨_, rfl⟩
      simp only [renderDefault, hout, ok_bind]
      split
      · exact ⟨_, rfl⟩
      · case _ prompt heq =>
        obtain ⟨⟨answer, saved⟩, hgiven⟩ := @exists_answer e v'.answer (some out) key prompt
          (hask (by simp only [EnvDirective.options, heq, Option.isSome_some]) rfl _ _ _)
        rw [hgiven]
        cases answer with
        | some answer => exact ⟨_, rfl⟩
        | none => exact ⟨_, rfl⟩
    | required key options =>
      simp only [stepRequired]
      split
      · exact ⟨_, rfl⟩
      split
      · exact ⟨_, rfl⟩
      have hgiven : ∃ given, e.requiredAnswer v'.answer key options = .ok given := by
        unfold Resolver.requiredAnswer
        split
        · case _ prompt heq =>
          exact exists_answer (hask (by simp only [EnvDirective.options, heq, Option.isSome_some])
            rfl _ _ _)
        · exact ⟨_, rfl⟩
      obtain ⟨⟨answer, saved⟩, hgiven⟩ := hgiven
      rw [hgiven]
      cases answer with
      | some answer => exact ⟨_, rfl⟩
      | none => exact ⟨_, rfl⟩
    | age key value format options =>
      simp only [stepAge] at h ⊢
      cases hdecrypt : e.decryptAge (.age key value format options) with
      | error err =>
        rw [hdecrypt] at h
        by_cases hstrict : e.ageStrict = true
        · rw [if_pos hstrict] at h
          exact nomatch h
        · simp only [if_neg hstrict]
          exact ⟨_, rfl⟩
      | ok decrypted =>
        have htext : valueText e (.age key value format options) = some decrypted := by
          simp only [valueText, hdecrypt]
        obtain ⟨out, hout⟩ := hparse decrypted htext
        simp only [hout]
        exact ⟨_, rfl⟩
    | rm | file | fileGroup | path | source | pythonVenv | envModule => exact ⟨_, rfl⟩

end View

/-! ### The loop at a name -/

/-- A turn at a name, in some state that the loop of the list can be in. -/
def Turn (e : Resolver) (l : List Sourced) (name : String) (v : View) (x : Sourced) (w : View) :
    Prop :=
  ∃ st, Agrees e l st ∧ view name st = v ∧
    View.step e (e.parseTemplate x.2 st.visible st.env) v x = .ok w

/-- A list of directives of the first that all run and have a name. -/
structure Runnable (l m : List Sourced) : Prop where
  mem : ∀ x ∈ m, x ∈ l
  runs : ∀ x ∈ m, ∃ name, runsFor name x = true

section Loop

variable {e : Resolver} {l m m' : List Sourced} {st st' t t' : State} {x : Sourced}
  {name : String}

/-- **The loop is, at every name, a loop over the name's own directives.** -/
theorem turns_of_foldlM_step (hm : Runnable l m) (hst : Agrees e l st)
    (h : m.foldlM e.step st = .ok t) :
    Agrees e l t ∧
      Turns (Turn e l name) (view name st) (m.filter (runsFor name)) (view name t) := by
  refine turns_of_foldlM (fun x hx s s' hs hstep => ?_) (fun x hx hown s s' hstep => ?_)
    (fun x hx hown s s' hs hstep => ?_) hst h
  · obtain ⟨key, hruns⟩ := hm.runs x hx
    exact hs.step (hm.mem x hx) (runsFor_iff.1 hruns).2 hstep
  · obtain ⟨key, hruns⟩ := hm.runs x hx
    refine (step_elsewhere (runsFor_iff.1 hruns).2 hstep).1 name ?_
    rintro rfl
    exact Bool.false_ne_true (hown.symm.trans hruns)
  · refine ⟨s, hs, rfl, ?_⟩
    rw [← map_view_step hs (runsFor_iff.1 hown).2, hstep]
    rfl

/-- What a directive that refers to no other variable renders is said by its name. -/
theorem parseTemplate_eq (hst : Agrees e l st) (hst' : Agrees e l st')
    (hview : view name st = view name st') (hruns : runsFor name x = true)
    (hx : Standalone e l x) {text : List Char} (htext : valueText e x.1 = some text) :
    e.parseTemplate x.2 st.visible st.env text = e.parseTemplate x.2 st'.visible st'.env text := by
  refine hx text htext _ _ _ _ (fun n hn => ?_)
    fun n hn => (hst.env n hn).trans (hst'.env n hn).symm
  obtain rfl := Option.some.inj ((runsFor_iff.1 hruns).2.symm.trans hn)
  rw [hst.visible_eq, hst'.visible_eq, hview]

/-- A directive that refers to no other variable says what its turn leads to. -/
theorem Turn.eq {v u u' : View} (hruns : runsFor name x = true) (hx : Standalone e l x)
    (h : Turn e l name v x u) (h' : Turn e l name v x u') : u = u' := by
  obtain ⟨s, hs, hview, h⟩ := h
  obtain ⟨s', hs', hview', h'⟩ := h'
  rw [View.step_congr fun text htext =>
    parseTemplate_eq hs hs' (hview.trans hview'.symm) hruns hx htext] at h
  exact Except.ok.inj (h.symm.trans h')

/-! ### Plain literals -/

theorem exists_of_isPlainLiteral (h : isPlainLiteral x.1 = true) : ∃ key value options,
    x.1 = .val key value options ∧ containsTemplateSyntax value = false := by
  obtain ⟨directive, source⟩ := x
  cases directive with
  | val key value options =>
    rw [isPlainLiteral, Bool.and_eq_true, Bool.not_eq_true'] at h
    exact ⟨key, value, options, rfl, h.1⟩
  | default | rm | required | age | file | fileGroup | path | source | pythonVenv | envModule =>
    exact nomatch h

/-- A text without templates is rendered by the environment alone, and always is. -/
theorem parseTemplate_literal {text : List Char} (h : containsTemplateSyntax text = false)
    (source : String) (vars env : EnvMap) : e.parseTemplate source vars env text =
      .ok (if '$' ∈ text && e.envShellExpand then e.shellExpandEnv env text else text) := by
  unfold Resolver.parseTemplate
  rw [h]
  rfl

/-- The turn of a plain literal binds its text. -/
theorem Turn.of_isPlainLiteral {v w : View} (hx : isPlainLiteral x.1 = true)
    (h : Turn e l name v x w) : ∃ key value options s, x.1 = .val key value options ∧
      containsTemplateSyntax value = false ∧ Agrees e l s ∧
      w = View.bind v x ((if '$' ∈ value && e.envShellExpand then e.shellExpandEnv s.env value
        else value), x.2) := by
  obtain ⟨key, value, options, hval, htext⟩ := exists_of_isPlainLiteral hx
  obtain ⟨s, hs, -, h⟩ := h
  refine ⟨key, value, options, s, hval, htext, hs, ?_⟩
  obtain ⟨directive, source⟩ := x
  obtain rfl : directive = _ := hval
  unfold View.step at h
  split at h
  · exact nomatch h
  · simp only [parseTemplate_literal htext] at h
    exact (Except.ok.inj h).symm

/-- The turns of a plain literal bind one value, where the literal refers to no other
variable. -/
theorem Turn.bound_eq {v v' w w' : View} (hx : isPlainLiteral x.1 = true)
    (h : Turn e l name v x w) (h' : Turn e l name v' x w') :
    w.wins = w'.wins ∧ (Standalone e l x → w.value = w'.value) := by
  obtain ⟨key, value, options, s, hval, htext, hs, rfl⟩ := h.of_isPlainLiteral hx
  obtain ⟨key', value', options', s', hval', htext', hs', rfl⟩ := h'.of_isPlainLiteral hx
  obtain ⟨rfl, rfl, rfl⟩ := EnvDirective.val.inj (hval.symm.trans hval')
  refine ⟨rfl, fun hstandalone => ?_⟩
  have hsame := hstandalone value (by rw [hval]; rfl) s.visible s.visible s.env s'.env
    (fun _ _ => rfl) fun n hn => (hs.env n hn).trans (hs'.env n hn).symm
  rw [parseTemplate_literal htext, parseTemplate_literal htext] at hsame
  exact congrArg (fun text => some (text, x.2)) (Except.ok.inj hsame)

/-! ### What two loops leave at a name -/

/-- **A name whose directives refer to no other variable ends with one value.** -/
theorem vars_eq_of_rebinds (hm : Runnable l m) (hm' : Runnable l m') (hrebinds : Rebinds m m')
    (hst : Agrees e l st) (h : m.foldlM e.step st = .ok t) (h' : m'.foldlM e.step st = .ok t')
    (hname : StandaloneName e l name) : t'.vars name = t.vars name := by
  obtain ⟨-, hturns⟩ := @turns_of_foldlM_step e l m st t name hm hst h
  obtain ⟨-, hturns'⟩ := @turns_of_foldlM_step e l m' st t' name hm' hst h'
  have hstandalone : ∀ x ∈ m.filter (runsFor name), runsFor name x = true ∧ Standalone e l x := by
    intro x hx
    obtain ⟨hx, hruns⟩ := List.mem_filter.1 hx
    exact ⟨hruns, hname x (hm.mem x hx) (runsFor_iff.1 hruns).2⟩
  rcases hrebinds name with hsame | ⟨front, last, hall, hone, hplain⟩
  · rw [hsame] at hturns'
    have hdet : ∀ x ∈ m.filter (runsFor name), ∀ v u u', Turn e l name v x u →
        Turn e l name v x u' → u = u' := fun x hx v u u' hu hu' =>
      hu.eq (hstandalone x hx).1 (hstandalone x hx).2 hu'
    exact congrArg View.value (hturns'.eq hdet hturns)
  · have hlast : last ∈ front ++ [last] := List.mem_append_right _ (List.mem_singleton_self last)
    rw [hall] at hturns
    rw [hone] at hturns'
    obtain ⟨u, hu⟩ := hturns.of_concat
    obtain ⟨u', hu'⟩ := @Turns.of_concat _ _ _ _ _ [] last hturns'
    exact (hu'.bound_eq (hplain last hlast).1 hu).2 (hstandalone last (hall ▸ hlast)).2

/-- Turns over one list of directives of a name end with one winner, where no default
comes behind a directive that refers to other variables. -/
theorem similar_of_turns {v v' w w' : View} (hown : ∀ x ∈ m, runsFor name x = true)
    (hdefault : ∀ front d rest, m = front ++ d :: rest → isDefault d.1 = true →
      ∀ x ∈ front, Standalone e l x)
    (hv : v = v' ∨ View.Similar v v' ∧ ∀ x ∈ m, isDefault x.1 = false)
    (h : Turns (Turn e l name) v m w) (h' : Turns (Turn e l name) v' m w') :
    View.Similar w w' := by
  induction h generalizing v' with
  | nil v =>
    cases h'
    rcases hv with rfl | ⟨hsim, -⟩
    · exact .refl v
    · exact hsim
  | @cons v u w x m head tail ih =>
    cases h' with
    | @cons _ u' _ _ _ head' tail' =>
      have hdefault' : ∀ front d rest, m = front ++ d :: rest → isDefault d.1 = true →
          ∀ x ∈ front, Standalone e l x := fun front d rest hm hd y hy =>
        hdefault (x :: front) d rest (hm ▸ rfl) hd y (List.mem_cons_of_mem x hy)
      have hsim : (isDefault x.1 = true → v = v') → View.Similar v v' → View.Similar u u' := by
        intro heq hsim
        obtain ⟨s, -, -, hstep⟩ := head
        obtain ⟨s', -, -, hstep'⟩ := head'
        exact View.similar_step hsim heq hstep hstep'
      refine ih (fun y hy => hown y (List.mem_cons_of_mem x hy)) hdefault' ?_ tail'
      rcases hv with rfl | ⟨hv, hnone⟩
      · by_cases hx : Standalone e l x
        · exact .inl (head.eq (hown x List.mem_cons_self) hx head')
        · refine .inr ⟨hsim (fun _ => rfl) (.refl v), fun y hy => ?_⟩
          rw [← Bool.not_eq_true]
          intro hd
          obtain ⟨front, rest, rfl⟩ := List.append_of_mem hy
          exact hx (hdefault (x :: front) y rest rfl hd x List.mem_cons_self)
      · have hnot := hnone x List.mem_cons_self
        exact .inr ⟨hsim (fun hd => absurd (hnot.symm.trans hd) Bool.false_ne_true) hv,
          fun y hy => hnone y (List.mem_cons_of_mem x hy)⟩

/-- **One directive wins a name**, unless one of its defaults comes behind a directive
that refers to other variables. -/
theorem wins_eq_of_rebinds (hm : Runnable l m) (hm' : Runnable l m') (hrebinds : Rebinds m m')
    (hst : Agrees e l st) (h : m.foldlM e.step st = .ok t) (h' : m'.foldlM e.step st = .ok t')
    (hname : ∀ front d rest, m.filter (runsFor name) = front ++ d :: rest → isDefault d.1 = true →
      ∀ x ∈ front, Standalone e l x) : t'.wins name = t.wins name := by
  obtain ⟨-, hturns⟩ := @turns_of_foldlM_step e l m st t name hm hst h
  obtain ⟨-, hturns'⟩ := @turns_of_foldlM_step e l m' st t' name hm' hst h'
  rcases hrebinds name with hsame | ⟨front, last, hall, hone, hplain⟩
  · rw [hsame] at hturns'
    exact (similar_of_turns (fun x hx => (List.mem_filter.1 hx).2) hname (.inl rfl) hturns'
      hturns).wins
  · have hlast : last ∈ front ++ [last] := List.mem_append_right _ (List.mem_singleton_self last)
    rw [hall] at hturns
    rw [hone] at hturns'
    obtain ⟨u, hu⟩ := hturns.of_concat
    obtain ⟨u', hu'⟩ := @Turns.of_concat _ _ _ _ _ [] last hturns'
    exact (hu'.bound_eq (hplain last hlast).1 hu).1

end Loop

/-! ### Where the loop returns -/

section Returns

variable {e : Resolver} {l m m' : List Sourced} {st t : State} {x : Sourced} {name : String}

/-- The turn of a directive of a list whose loop returns. -/
theorem exists_view_step {s s' : State} (hs : Agrees e l s) (hruns : runsFor name x = true)
    (h : e.step s x = .ok s') : View.step e (e.parseTemplate x.2 s.visible s.env) (view name s) x =
      .ok (view name s') := by
  rw [← map_view_step hs (runsFor_iff.1 hruns).2, h]
  rfl

/-- The items of a name up to one of them, in the list that they are taken from. -/
theorem exists_split {own : Sourced → Bool} {front rest : List Sourced}
    (h : m.filter own = front ++ x :: rest) :
    ∃ before behind, m = before ++ x :: behind ∧ before.filter own = front := by
  obtain ⟨m₁, m₂, rfl, hfront, h⟩ := List.filter_eq_append_iff.1 h
  obtain ⟨between, behind, rfl, hnone, -, -⟩ := List.filter_eq_cons_iff.1 h
  refine ⟨m₁ ++ between, behind, by rw [List.append_assoc], ?_⟩
  rw [List.filter_append, hfront, List.filter_eq_nil_iff.2 hnone, List.append_nil]

/-- **The loop over the rebound list returns where the first does**, if no directive
that refers to other variables fails. -/
theorem exists_foldlM_of_rebinds (hm : Runnable l m) (hm' : Runnable l m')
    (hrebinds : Rebinds m m') (hst : Agrees e l st) (h : m.foldlM e.step st = .ok t)
    (hfails : ∀ x ∈ m, ∀ name, runsFor name x = true → StandaloneName e l name ∨ NeverFails e x) :
    ∃ t', m'.foldlM e.step st = .ok t' := by
  refine foldlM_eq_ok fun front x rest s hsplit hfront => ?_
  have hx : x ∈ m' := hsplit ▸ List.mem_append_right front List.mem_cons_self
  obtain ⟨name, hruns⟩ := hm'.runs x hx
  have hrunnable : Runnable l front := ⟨fun y hy => hm'.mem y (hsplit ▸ List.mem_append_left _ hy),
    fun y hy => hm'.runs y (hsplit ▸ List.mem_append_left _ hy)⟩
  obtain ⟨hs, hturns⟩ := @turns_of_foldlM_step e l front st s name hrunnable hst hfront
  suffices hstep : ∃ w, View.step e (e.parseTemplate x.2 s.visible s.env) (view name s) x =
      .ok w by
    obtain ⟨w, hw⟩ := hstep
    rw [← map_view_step hs (runsFor_iff.1 hruns).2] at hw
    obtain ⟨s', hs', -⟩ := map_eq_ok hw
    exact ⟨s', hs'⟩
  have hsplit' : m'.filter (runsFor name) =
      front.filter (runsFor name) ++ x :: rest.filter (runsFor name) := by
    rw [hsplit, List.filter_append, List.filter_cons_of_pos hruns]
  rcases hrebinds name with hsame | ⟨lits, last, hall, hone, hplain⟩
  · obtain ⟨before, behind, rfl, hbefore⟩ := exists_split (hsame.symm.trans hsplit')
    obtain ⟨s₁, s₂, hs₁, hstep⟩ := foldlM_split h
    have hrunnable₁ : Runnable l before := ⟨fun y hy => hm.mem y (List.mem_append_left _ hy),
      fun y hy => hm.runs y (List.mem_append_left _ hy)⟩
    obtain ⟨hagrees₁, hturns₁⟩ := @turns_of_foldlM_step e l before st s₁ name hrunnable₁ hst hs₁
    have hview := exists_view_step hagrees₁ hruns hstep
    rcases hfails x (List.mem_append_right _ List.mem_cons_self) name hruns with hname | hnever
    · have hdet : ∀ y ∈ front.filter (runsFor name), ∀ v u u', Turn e l name v y u →
          Turn e l name v y u' → u = u' := fun y hy v u u' hu hu' => by
        obtain ⟨hy, hown⟩ := List.mem_filter.1 hy
        exact hu.eq hown (hname y (hrunnable.mem y hy) (runsFor_iff.1 hown).2) hu'
      rw [hbefore] at hturns₁
      have heq : view name s = view name s₁ := hturns.eq hdet hturns₁
      have hx' : Standalone e l x := hname x (hm'.mem x hx) (runsFor_iff.1 hruns).2
      rw [View.step_congr fun text htext => parseTemplate_eq hs hagrees₁ heq hruns hx' htext, heq]
      exact ⟨_, hview⟩
    · exact View.exists_step hview (fun text htext => hnever.1 text htext _ _) hnever.2
  · have hxlast : x = last := by
      have hmem : x ∈ m'.filter (runsFor name) := List.mem_filter.2 ⟨hx, hruns⟩
      rwa [hone, List.mem_singleton] at hmem
    obtain ⟨key, value, options, hval, htext⟩ := exists_of_isPlainLiteral
      (hplain last (List.mem_append_right _ (List.mem_singleton_self last))).1
    obtain ⟨before, behind, rfl, -⟩ := exists_split hall
    obtain ⟨s₁, s₂, hs₁, hstep⟩ := foldlM_split h
    have hrunnable₁ : Runnable l before := ⟨fun y hy => hm.mem y (List.mem_append_left _ hy),
      fun y hy => hm.runs y (List.mem_append_left _ hy)⟩
    obtain ⟨hagrees₁, -⟩ := @turns_of_foldlM_step e l before st s₁ name hrunnable₁ hst hs₁
    rw [← hxlast] at hstep hval
    refine View.exists_step (exists_view_step hagrees₁ hruns hstep) (fun text ht => ?_)
      fun _ htakes => ?_
    · rw [hval] at ht
      obtain rfl := Option.some.inj ht
      exact ⟨_, parseTemplate_literal htext _ _ _⟩
    · rw [hval] at htakes
      exact nomatch htakes

end Returns

/-! ### The directives that run -/

section Filtered

variable {e : Resolver} {ds ds' : List Sourced}

/-- Whether a directive is kept by the file that it comes from, and runs. -/
def survives (e : Resolver) (x : Sourced) : Bool :=
  !e.droppedInSafeMode x && !neverRuns x.1

/-- Where every directive that runs has a name, the ones that are resolved are those that
survive. -/
theorem filteredInput_eq (h : ∀ x ∈ ds, neverRuns x.1 = false → (assignedName x.1).isSome) :
    e.filteredInput ds = ds.filter (survives e) := by
  refine List.filter_congr fun x hx => ?_
  rw [survives, neverRuns]
  cases htools : x.1.options.tools with
  | true => simp
  | false =>
    have hnamed := h x hx htools
    obtain ⟨directive, source⟩ := x
    cases directive with
    | pythonVenv => exact nomatch hnamed
    | val | default | rm | required | age | file | fileGroup | path | source | envModule => simp

/-- A directive that runs for a name survives by its file alone. -/
theorem survives_eq {x : Sourced} {name : String} (hx : runsFor name x = true) :
    survives e x = !(e.safe && !e.isGlobalConfig x.2) := by
  obtain ⟨hruns, hname⟩ := runsFor_iff.1 hx
  rw [survives, hruns, Bool.not_false, Bool.and_true, Resolver.droppedInSafeMode]
  obtain ⟨directive, source⟩ := x
  cases directive with
  | val | default | rm | required | age => simp
  | file | fileGroup | path | source | pythonVenv | envModule => exact nomatch hname

theorem filter_survives_filter (ds : List Sourced) (name : String) :
    (ds.filter (survives e)).filter (runsFor name) =
      (ds.filter (runsFor name)).filter (survives e) := by
  rw [List.filter_filter, List.filter_filter]
  exact List.filter_congr fun _ _ => Bool.and_comm ..

/-- Leaving out whole files leaves every name its directives, or the last of its
literals. -/
theorem Rebinds.filter_survives (h : Rebinds ds ds') :
    Rebinds (ds.filter (survives e)) (ds'.filter (survives e)) := by
  intro name
  rw [filter_survives_filter, filter_survives_filter]
  rcases h name with hsame | ⟨front, last, hall, hone, hplain⟩
  · exact .inl (congrArg _ hsame)
  · have hruns : ∀ x ∈ front ++ [last], runsFor name x = true := fun x hx =>
      (List.mem_filter.1 (hall ▸ hx)).2
    have hlast : last ∈ front ++ [last] := List.mem_append_right _ (List.mem_singleton_self last)
    have hfile : ∀ x ∈ front ++ [last], survives e x = survives e last := fun x hx => by
      rw [survives_eq (hruns x hx), survives_eq (hruns last hlast), (hplain x hx).2]
    have hone' : ∀ x ∈ [last], survives e x = survives e last := fun x hx =>
      congrArg _ (List.mem_singleton.1 hx)
    rw [hall, hone, List.filter_congr hfile, List.filter_congr hone']
    cases survives e last with
    | true => exact .inr ⟨front, last, List.filter_true _, List.filter_true _, hplain⟩
    | false => exact .inl ((List.filter_false _).trans (List.filter_false _).symm)

theorem mem_of_mem_bindLiteralVarsFirst {x : Sourced} (h : x ∈ bindLiteralVarsFirst ds) :
    x ∈ ds := by
  obtain ⟨kept, -, hkept, hresult, -⟩ := keptUnlessOverridden_bindLiteralVarsFirst ds
  rw [hresult] at h
  obtain ⟨y, hy, rfl⟩ := List.mem_map.1 h
  exact List.fst_mem_of_mem_zipIdx (hkept y hy)

/-- A list with a directive that assigns names that cannot be seen stays as it is. -/
theorem bindLiteralVarsFirst_eq_or (ds : List Sourced) : bindLiteralVarsFirst ds = ds ∨
    ∀ x ∈ ds, neverRuns x.1 = false → (assignedName x.1).isSome = true := by
  rw [bindLiteralVarsFirst]
  split
  · exact .inl rfl
  · case isFalse hany =>
    right
    intro x hx hruns
    rw [Bool.not_eq_true, List.any_eq_false] at hany
    have h := hany x hx
    rw [hruns, Bool.not_false, Bool.true_and, Option.isNone_iff_eq_none] at h
    exact Option.isSome_iff_ne_none.2 h

theorem runnable_filter (l : List Sourced) (hmem : ∀ x ∈ ds.filter (survives e), x ∈ l)
    (h : ∀ x ∈ ds, neverRuns x.1 = false → (assignedName x.1).isSome = true) :
    Runnable l (ds.filter (survives e)) := by
  refine ⟨hmem, fun x hx => ?_⟩
  obtain ⟨hx, hsurvives⟩ := List.mem_filter.1 hx
  rw [survives, Bool.and_eq_true, Bool.not_eq_true', Bool.not_eq_true'] at hsurvives
  obtain ⟨name, hname⟩ := Option.isSome_iff_exists.1 (h x hx hsurvives.2)
  exact ⟨name, runsFor_iff.2 ⟨hsurvives.2, hname⟩⟩

end Filtered

/-! ### What is kept -/

/-- The second list resolves to what the first does: it is gone through where the first
is, unless a name with a directive that refers to other variables has one that can fail
(a default that did not render before may have to now); the names that refer to no
other variable end with the same value; and the same directive wins a name, unless one
of the name's defaults comes behind a directive of it that refers to other variables. -/
structure MeaningKept (e : Resolver) (ds ds' : List Sourced) : Prop where
  returns : ∀ st, e.resolveLoop ds = .ok st →
    (∀ x ∈ e.filteredInput ds, ∀ name, assignedName x.1 = some name →
      StandaloneName e (e.filteredInput ds) name ∨ NeverFails e x) →
    ∃ st', e.resolveLoop ds' = .ok st'
  values : ∀ st st', e.resolveLoop ds = .ok st → e.resolveLoop ds' = .ok st' →
    ∀ name, StandaloneName e (e.filteredInput ds) name → st'.vars name = st.vars name
  wins : ∀ st st', e.resolveLoop ds = .ok st → e.resolveLoop ds' = .ok st' →
    ∀ name, DefaultsStandalone e (e.filteredInput ds) name → st'.wins name = st.wins name

theorem meaningKept_self (e : Resolver) (ds : List Sourced) : MeaningKept e ds ds where
  returns st h _ := ⟨st, h⟩
  values st st' h h' _ _ := by rw [Except.ok.inj (h.symm.trans h')]
  wins st st' h h' _ _ := by rw [Except.ok.inj (h.symm.trans h')]

/-- Binding the literals first keeps what can be kept of the meaning. -/
theorem meaningKept_bindLiteralVarsFirst (e : Resolver) (ds : List Sourced) :
    MeaningKept e ds (bindLiteralVarsFirst ds) := by
  rcases bindLiteralVarsFirst_eq_or ds with hself | hnamed
  · rw [hself]
    exact meaningKept_self e ds
  have hnamed' : ∀ x ∈ bindLiteralVarsFirst ds, neverRuns x.1 = false →
      (assignedName x.1).isSome = true := fun x hx =>
    hnamed x (mem_of_mem_bindLiteralVarsFirst hx)
  have hmem : ∀ x ∈ (bindLiteralVarsFirst ds).filter (survives e),
      x ∈ ds.filter (survives e) := fun x hx => by
    obtain ⟨hx, hsurvives⟩ := List.mem_filter.1 hx
    exact List.mem_filter.2 ⟨mem_of_mem_bindLiteralVarsFirst hx, hsurvives⟩
  have hm := @runnable_filter e ds (ds.filter (survives e)) (fun _ h => h) hnamed
  have hm' := @runnable_filter e _ (ds.filter (survives e)) hmem hnamed'
  have hrebinds := @Rebinds.filter_survives e _ _ (rebinds_bindLiteralVarsFirst ds)
  have hstart := agrees_start e (ds.filter (survives e))
  constructor
  · intro st h hfails
    rw [Resolver.resolveLoop, filteredInput_eq hnamed] at h
    rw [filteredInput_eq hnamed] at hfails
    rw [Resolver.resolveLoop, filteredInput_eq hnamed']
    exact exists_foldlM_of_rebinds hm hm' hrebinds hstart h fun x hx name hruns =>
      hfails x hx name (runsFor_iff.1 hruns).2
  · intro st st' h h' name hname
    rw [Resolver.resolveLoop, filteredInput_eq hnamed] at h
    rw [filteredInput_eq hnamed] at hname
    rw [Resolver.resolveLoop, filteredInput_eq hnamed'] at h'
    exact vars_eq_of_rebinds hm hm' hrebinds hstart h h' hname
  · intro st st' h h' name hname
    rw [Resolver.resolveLoop, filteredInput_eq hnamed] at h
    rw [filteredInput_eq hnamed] at hname
    rw [Resolver.resolveLoop, filteredInput_eq hnamed'] at h'
    refine wins_eq_of_rebinds hm hm' hrebinds hstart h h' fun front d rest hsplit hd x hx => ?_
    obtain ⟨before, behind, hds, rfl⟩ := exists_split hsplit
    have hdown : d ∈ (ds.filter (survives e)).filter (runsFor name) :=
      hsplit ▸ List.mem_append_right _ List.mem_cons_self
    obtain ⟨hx, hruns⟩ := List.mem_filter.1 hx
    exact hname before d behind hds hd (runsFor_iff.1 (List.mem_filter.1 hdown).2).2 x hx
      (runsFor_iff.1 hruns).2

/-- **Binding the literals first keeps the meaning of the list.** -/
theorem bindLiteralVarsFirst_preserves (ds : List Sourced) :
    KeptUnlessOverridden ds (bindLiteralVarsFirst ds) ∧
      ∀ e, MeaningKept e ds (bindLiteralVarsFirst ds) :=
  ⟨keptUnlessOverridden_bindLiteralVarsFirst ds, fun e => meaningKept_bindLiteralVarsFirst e ds⟩

/-- The variables that resolving the list returns. -/
theorem vars_resolve_bindLiteralVarsFirst {e : Resolver} {ds : List Sourced} {r r' : EnvResults}
    (h : e.resolve ds = .ok r) (h' : e.resolve (bindLiteralVarsFirst ds) = .ok r') {name : String}
    (hname : StandaloneName e (e.filteredInput ds) name) : r'.vars name = r.vars name := by
  obtain ⟨st, hst, h⟩ := bind_eq_ok h
  obtain ⟨st', hst', h'⟩ := bind_eq_ok h'
  obtain ⟨-, -, h⟩ := bind_eq_ok h
  obtain ⟨-, -, h'⟩ := bind_eq_ok h'
  obtain rfl := Except.ok.inj h
  obtain rfl := Except.ok.inj h'
  exact (meaningKept_bindLiteralVarsFirst e ds).values st st' hst hst' name hname

/-- A resolver outside safe mode, with nothing set or saved, whose templates read one
variable and default to the empty text. -/
def readsVariable (name : String) : Resolver where
  safe := false
  isGlobalConfig := fun _ => true
  env := fun _ => none
  contextVars := fun _ => none
  pristineEnv := fun _ => none
  answers := fun _ => none
  answersPath := "vars.toml"
  ask := fun _ _ _ => .ok none
  renderConfigStr := fun _ vars _ _ => .ok ((vars name).getD [])
  envShellExpand := true
  shellExpandEnv := fun _ text => text
  decryptAge := fun _ => .error "no identity"
  ageStrict := true
  toleratesMissing := false
  displayPath := id
  unnamed := fun st _ => .ok st

/-- A default gives way to a value that reads a literal behind it, once the literal is
bound first. -/
theorem not_wins_kept : ¬ ∀ (e : Resolver) (ds : List Sourced) (st st' : State),
    e.resolveLoop ds = .ok st → e.resolveLoop (bindLiteralVarsFirst ds) = .ok st' →
    ∀ name, st'.wins name = st.wins name := by
  intro hall
  let template : Sourced :=
    (.val "mode" "\x7b\x7b vars.x | default(value='') \x7d\x7d".toList .default, "mise.toml")
  let fallback : Sourced := (.default "mode" "fast".toList .default, "mise.toml")
  let literal : Sourced := (.val "x" "z".toList .default, "mise.toml")
  have hfirst : ((readsVariable "x").resolveLoop [template, fallback, literal]).map
      (·.wins "mode") = .ok (some fallback) := by rfl
  have hbound : ((readsVariable "x").resolveLoop
      (bindLiteralVarsFirst [template, fallback, literal])).map (·.wins "mode") =
      .ok (some template) := by rfl
  obtain ⟨st, hst, hwins⟩ := map_eq_ok hfirst
  obtain ⟨st', hst', hwins'⟩ := map_eq_ok hbound
  have h := hall _ _ st st' hst hst' "mode"
  rw [hwins, hwins'] at h
  exact absurd h (by decide)

end Mise.Vars
