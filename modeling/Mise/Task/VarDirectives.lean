/-
# Variable directives, and binding the literal ones first

`EnvDirective` of `crates/mise-config/src/env.rs` and `bind_literal_vars_first` of
`src/task/mod.rs`.

The variables of a task are a list of directives, each with the config file it comes
from.  A name is hoisted where every directive that assigns it and runs is a plain
literal of one file: the last of them moves to the front and the others go.  The loop
that looks for these names is read name by name (`Surveyed`), and from that every
name keeps its directives, or only the last of its literals (`rebinds_bindLiteralVarsFirst`),
and what goes has such a literal behind it (`keptUnlessOverridden_bindLiteralVarsFirst`).
-/

import Mathlib.Data.List.Induction
import Mathlib.Data.List.Infix
import Mathlib.Data.List.Nodup
import Mise.Lib.IndexMap

namespace Mise.Vars

open Lib

/-! ### Directives -/

/-- `AgeFormat`. -/
inductive AgeFormat where
  | zstd
  | raw
  deriving DecidableEq

/-- `RequiredValue`. -/
inductive RequiredValue where
  | no
  | yes
  | help (text : String)
  deriving DecidableEq

/-- `RequiredValue::is_required`. -/
def RequiredValue.isRequired : RequiredValue → Bool
  | .no => false
  | _ => true

/-- `RequiredValue::help_text`. -/
def RequiredValue.helpText : RequiredValue → Option String
  | .help text => some text
  | _ => none

/-- `EnvDirectiveOptions`, without those of paths and files. -/
structure EnvDirectiveOptions where
  tools : Bool
  redact : Option Bool
  required : RequiredValue
  prompt : Option String
  deriving DecidableEq

/-- `EnvDirectiveOptions::default`. -/
def EnvDirectiveOptions.default : EnvDirectiveOptions := ⟨false, none, .no, none⟩

/-- `EnvDirective`.  The value of an environment module is its text. -/
inductive EnvDirective where
  | val (key : String) (value : List Char) (options : EnvDirectiveOptions)
  | default (key : String) (value : List Char) (options : EnvDirectiveOptions)
  | rm (key : String) (options : EnvDirectiveOptions)
  | required (key : String) (options : EnvDirectiveOptions)
  | file (input : String) (options : EnvDirectiveOptions)
  | fileGroup (inputs : List String) (options : EnvDirectiveOptions)
  | path (input : String) (options : EnvDirectiveOptions)
  | source (input : String) (options : EnvDirectiveOptions)
  | age (key value : String) (format : Option AgeFormat) (options : EnvDirectiveOptions)
  | pythonVenv (path : String) (create : Bool) (python : Option String)
      (uvCreateArgs pythonCreateArgs : Option (List String)) (options : EnvDirectiveOptions)
  | envModule (name value : String) (options : EnvDirectiveOptions)
  deriving DecidableEq

/-- `EnvDirective::options`. -/
def EnvDirective.options : EnvDirective → EnvDirectiveOptions
  | val _ _ options
  | default _ _ options
  | rm _ options
  | required _ options
  | file _ options
  | fileGroup _ options
  | path _ options
  | source _ options
  | age _ _ _ options
  | pythonVenv _ _ _ _ _ options
  | envModule _ _ options => options

/-- `contains_template_syntax`. -/
def containsTemplateSyntax (input : List Char) : Bool :=
  ['{', '{'] <:+: input || ['{', '%'] <:+: input || ['{', '#'] <:+: input

/-- A directive and the config file it comes from. -/
abbrev Sourced := EnvDirective × String

/-! ### Binding the literals first -/

/-- `assigned_name`. -/
def assignedName : EnvDirective → Option String
  | .val k _ _
  | .default k _ _
  | .rm k _
  | .required k _
  | .age k _ _ _ => some k
  | .file .. | .fileGroup .. | .path .. | .source .. | .envModule .. | .pythonVenv .. => none

/-- `never_runs`. -/
def neverRuns (directive : EnvDirective) : Bool := directive.options.tools

/-- `is_plain_literal`. -/
def isPlainLiteral : EnvDirective → Bool
  | .val _ value options => !containsTemplateSyntax value && options.redact.isNone
  | _ => false

/-- The literal to hoist for a name and the file it comes from, or `none` once
anything disqualifies the name. -/
abbrev Winners := IndexMap String (Option (ℕ × String))

/-- One turn of the loop that looks for the winners. -/
def survey (winners : Winners) (x : Sourced × ℕ) : Winners :=
  if neverRuns x.1.1 then winners
  else
    match assignedName x.1.1 with
    | none => winners
    | some name =>
      winners.insert name <|
        match winners.get name with
        | none => if isPlainLiteral x.1.1 then some (x.2, x.1.2) else none
        | some none => none
        | some (some (_, firstSource)) =>
          if isPlainLiteral x.1.1 && firstSource = x.1.2 then some (x.2, x.1.2) else none

/-- The loop. -/
def winnersOf (directives : List Sourced) : Winners :=
  directives.zipIdx.foldl survey IndexMap.empty

/-- `hoisted.contains`. -/
def isHoisted (winners : Winners) (name : String) : Bool :=
  (winners.get name).any Option.isSome

/-- The literals that move to the front. -/
def prelude (directives : List Sourced) : List Sourced :=
  (winnersOf directives).entries.filterMap fun winner =>
    winner.2.bind fun w => directives[w.1]?

/-- What stays where it is. -/
def staysPut (winners : Winners) (x : Sourced) : Bool :=
  neverRuns x.1 || !(assignedName x.1).any (isHoisted winners)

/-- `bind_literal_vars_first`. -/
def bindLiteralVarsFirst (directives : List Sourced) : List Sourced :=
  if directives.any fun x => !neverRuns x.1 && (assignedName x.1).isNone then directives
  else if directives.all fun x => neverRuns x.1 || isPlainLiteral x.1 then directives
  else if (prelude directives).isEmpty then directives
  else prelude directives ++ directives.filter (staysPut (winnersOf directives))

/-- Whether a directive runs and assigns a name. -/
def runsFor (name : String) (x : Sourced) : Bool :=
  !neverRuns x.1 && assignedName x.1 = some name

/-! ### What the loop finds -/

theorem runsFor_iff {name : String} {x : Sourced} :
    runsFor name x = true ↔ neverRuns x.1 = false ∧ assignedName x.1 = some name := by
  rw [runsFor, Bool.and_eq_true, Bool.not_eq_true', decide_eq_true_iff]

/-- A directive runs for one name at most. -/
theorem runsFor_eq {name other : String} {x : Sourced} (h : runsFor name x = true) :
    runsFor other x = decide (name = other) := by
  obtain ⟨hruns, hname⟩ := runsFor_iff.1 h
  rw [runsFor, hruns, hname]
  simp

/-- What the loop found for a name, after the directives that it has seen: nothing
where none of them runs for it, and a literal where they are all literals of its file
and it is the last. -/
def Surveyed (seen : List (Sourced × ℕ)) (name : String) : Option (Option (ℕ × String)) → Prop
  | none => seen.filter (runsFor name ·.1) = []
  | some none => True
  | some (some (i, file)) => ∃ front directive,
      seen.filter (runsFor name ·.1) = front ++ [((directive, file), i)] ∧
        ∀ x ∈ front ++ [((directive, file), i)], isPlainLiteral x.1.1 = true ∧ x.1.2 = file

/-- One more directive is surveyed, and what was found for each name stays right. -/
theorem surveyed_survey {seen : List (Sourced × ℕ)} {winners : Winners}
    (h : ∀ name, Surveyed seen name (winners.get name)) (x : Sourced × ℕ) (name : String) :
    Surveyed (seen ++ [x]) name ((survey winners x).get name) := by
  obtain ⟨⟨directive, file⟩, i⟩ := x
  have hseen := h name
  by_cases hruns : runsFor name (directive, file) = true
  · obtain ⟨hnever, hname⟩ := runsFor_iff.1 hruns
    have hfilter : (seen ++ [((directive, file), i)]).filter (runsFor name ·.1) =
        seen.filter (runsFor name ·.1) ++ [((directive, file), i)] := by
      rw [List.filter_append, List.filter_singleton, hruns]
      rfl
    have hget : (survey winners ((directive, file), i)).get name =
        some (match winners.get name with
          | none => if isPlainLiteral directive then some (i, file) else none
          | some none => none
          | some (some (_, firstSource)) =>
            if isPlainLiteral directive && firstSource = file then some (i, file) else none) := by
      rw [survey, hnever, if_neg Bool.false_ne_true, hname]
      exact (IndexMap.get_insert ..).trans (if_pos rfl)
    rw [hget]
    match hw : winners.get name with
    | none =>
      rw [hw] at hseen
      by_cases hplain : isPlainLiteral directive = true
      · simp only [hplain, if_true]
        refine ⟨[], directive, ?_, ?_⟩
        · rw [hfilter, hseen]
        · intro y hy
          rw [List.nil_append, List.mem_singleton] at hy
          subst hy
          exact ⟨hplain, rfl⟩
      · simp only [hplain]
        trivial
    | some none => trivial
    | some (some (j, first)) =>
      rw [hw] at hseen
      obtain ⟨front, last, hlast, hall⟩ := hseen
      by_cases hplain : (isPlainLiteral directive && decide (first = file)) = true
      · simp only [hplain, if_true]
        rw [Bool.and_eq_true, decide_eq_true_iff] at hplain
        obtain ⟨hplain, rfl⟩ := hplain
        refine ⟨front ++ [((last, first), j)], directive, ?_, ?_⟩
        · rw [hfilter, hlast]
        · intro y hy
          rcases List.mem_append.1 hy with hy | hy
          · exact hall y hy
          · rw [List.mem_singleton] at hy
            subst hy
            exact ⟨hplain, rfl⟩
      · simp only [hplain]
        trivial
  · have hfilter : (seen ++ [((directive, file), i)]).filter (runsFor name ·.1) =
        seen.filter (runsFor name ·.1) := by
      rw [List.filter_append, List.filter_singleton, Bool.eq_false_iff.2 hruns]
      exact List.append_nil _
    have hget : (survey winners ((directive, file), i)).get name = winners.get name := by
      rw [survey]
      split
      · rfl
      · case isFalse hnever =>
        split
        · rfl
        · case _ other hother =>
          rw [IndexMap.get_insert, if_neg]
          rintro rfl
          exact hruns (runsFor_iff.2 ⟨Bool.eq_false_iff.2 hnever, hother⟩)
    rw [hget]
    match hw : winners.get name with
    | none =>
      rw [hw] at hseen
      exact hfilter.trans hseen
    | some none => trivial
    | some (some (j, first)) =>
      rw [hw] at hseen
      obtain ⟨front, last, hlast, hall⟩ := hseen
      exact ⟨front, last, hfilter.trans hlast, hall⟩

theorem surveyed_foldl (seen : List (Sourced × ℕ)) (name : String) :
    Surveyed seen name ((seen.foldl survey IndexMap.empty).get name) := by
  induction seen using List.reverseRecOn generalizing name with
  | nil => rfl
  | append_singleton seen x ih =>
    rw [List.foldl_concat]
    exact surveyed_survey ih x name

/-- **What the loop has found for a name.** -/
theorem surveyed_winnersOf (directives : List Sourced) (name : String) :
    Surveyed directives.zipIdx name ((winnersOf directives).get name) :=
  surveyed_foldl directives.zipIdx name

/-- The directives that run for a name, with their places and without. -/
theorem map_filter_zipIdx (directives : List Sourced) (p : Sourced → Bool) :
    (directives.zipIdx.filter (p ·.1)).map Prod.fst = directives.filter p := by
  conv_rhs => rw [← List.zipIdx_map_fst 0 directives]
  rw [List.filter_map]
  rfl

section Winner

variable {directives : List Sourced} {name : String}

theorem isHoisted_iff {winners : Winners} :
    isHoisted winners name = true ↔ ∃ i file, winners.get name = some (some (i, file)) := by
  rw [isHoisted, Option.any_eq_true]
  constructor
  · rintro ⟨w, hw, hsome⟩
    obtain ⟨⟨i, file⟩, rfl⟩ := Option.isSome_iff_exists.1 hsome
    exact ⟨i, file, hw⟩
  · rintro ⟨i, file, hw⟩
    exact ⟨_, hw, rfl⟩

/-- The winner of a name is there. -/
theorem getElem?_of_winner {i : ℕ} {file : String}
    (h : (winnersOf directives).get name = some (some (i, file))) :
    ∃ directive, directives[i]? = some (directive, file) ∧
      runsFor name (directive, file) = true := by
  have hsurveyed := surveyed_winnersOf directives name
  rw [h] at hsurveyed
  obtain ⟨front, directive, hfilter, -⟩ := hsurveyed
  have hmem : ((directive, file), i) ∈ directives.zipIdx.filter (runsFor name ·.1) := by
    rw [hfilter]
    exact List.mem_append_right _ (List.mem_singleton_self _)
  rw [List.mem_filter] at hmem
  exact ⟨directive, List.mem_zipIdx_iff_getElem?.1 hmem.1, hmem.2⟩

/-- The literal that moves to the front for an entry of the winners. -/
theorem exists_of_mem_prelude {e : String × Option (ℕ × String)} {x : Sourced}
    (he : e ∈ (winnersOf directives).entries)
    (hx : (e.2.bind fun w => directives[w.1]?) = some x) : runsFor e.1 x = true := by
  obtain ⟨w, hw, hx⟩ := Option.bind_eq_some_iff.1 hx
  obtain ⟨directive, hget, hruns⟩ := @getElem?_of_winner directives e.1 w.1 w.2
    (((winnersOf directives).mem_entries).1 (hw ▸ he))
  rw [hget] at hx
  exact Option.some.inj hx ▸ hruns

/-- What moves to the front for a name is the name's winner. -/
theorem filter_prelude (directives : List Sourced) (name : String) :
    (prelude directives).filter (runsFor name) =
      ((((winnersOf directives).get name).bind id).bind fun w => directives[w.1]?).toList := by
  have hentry : ∀ e ∈ (winnersOf directives).entries,
      (e.2.bind fun w => directives[w.1]?).filter (runsFor name) =
        if decide (e.1 = name) then e.2.bind fun w => directives[w.1]? else none := by
    intro e he
    cases hx : e.2.bind fun w => directives[w.1]? with
    | none => rw [Option.filter_none, ite_self]
    | some x =>
      rw [Option.filter_some, runsFor_eq (exists_of_mem_prelude he hx)]
  rw [prelude, List.filter_filterMap, List.filterMap_congr hentry, ← List.filterMap_filter,
    IndexMap.filter_entries]
  cases (winnersOf directives).get name with
  | none => rfl
  | some w =>
    cases w with
    | none => rfl
    | some w =>
      change [(name, some w)].filterMap _ = directives[w.1]?.toList
      rw [List.filterMap_cons]
      simp only [Option.bind_some]
      cases directives[w.1]? <;> rfl

end Winner

/-! ### Every name keeps its directives, or its last literal -/

/-- The second list has the directives of the first that run for each name, or of
literals that are all of one file only the last. -/
def Rebinds (l l' : List Sourced) : Prop :=
  ∀ name, l'.filter (runsFor name) = l.filter (runsFor name) ∨
    ∃ front last, l.filter (runsFor name) = front ++ [last] ∧
      l'.filter (runsFor name) = [last] ∧
      ∀ x ∈ front ++ [last], isPlainLiteral x.1 = true ∧ x.2 = last.2

theorem filter_filter_staysPut (winners : Winners) (name : String) (l : List Sourced) :
    (l.filter (staysPut winners)).filter (runsFor name) =
      if isHoisted winners name then [] else l.filter (runsFor name) := by
  have hboth : ∀ x, (runsFor name x && staysPut winners x) =
      (!isHoisted winners name && runsFor name x) := by
    intro x
    by_cases hruns : runsFor name x = true
    · obtain ⟨hnever, hname⟩ := runsFor_iff.1 hruns
      rw [hruns, staysPut, hnever, hname]
      simp
    · rw [Bool.eq_false_iff.2 hruns, Bool.false_and, Bool.and_false]
  rw [List.filter_filter, List.filter_congr fun x _ => hboth x]
  cases isHoisted winners name <;> simp

/-- **Every name keeps the directives that run for it, or the last of its literals.** -/
theorem rebinds_bindLiteralVarsFirst (directives : List Sourced) :
    Rebinds directives (bindLiteralVarsFirst directives) := by
  intro name
  rw [bindLiteralVarsFirst]
  split
  · exact .inl rfl
  split
  · exact .inl rfl
  split
  · exact .inl rfl
  rw [List.filter_append, filter_filter_staysPut, filter_prelude]
  have hsurveyed := surveyed_winnersOf directives name
  match hw : (winnersOf directives).get name with
  | none =>
    left
    rw [isHoisted, hw]
    rfl
  | some none =>
    left
    rw [isHoisted, hw]
    rfl
  | some (some (i, file)) =>
    right
    rw [hw] at hsurveyed
    obtain ⟨front, directive, hfilter, hall⟩ := hsurveyed
    refine ⟨front.map Prod.fst, (directive, file), ?_, ?_, ?_⟩
    · rw [← map_filter_zipIdx, hfilter, List.map_append]
      rfl
    · obtain ⟨directive', hget, -⟩ := getElem?_of_winner hw
      have hlast : ((directive, file), i) ∈ directives.zipIdx := by
        refine List.mem_of_mem_filter (p := (runsFor name ·.1)) ?_
        rw [hfilter]
        exact List.mem_append_right _ (List.mem_singleton_self _)
      rw [isHoisted, hw]
      change directives[i]?.toList ++ [] = _
      rw [List.mem_zipIdx_iff_getElem?.1 hlast]
      rfl
    · intro x hx
      have hx : x ∈ (front ++ [((directive, file), i)]).map Prod.fst := by
        rwa [List.map_append]
      obtain ⟨y, hy, rfl⟩ := List.mem_map.1 hx
      exact hall y hy

/-! ### What goes is overridden -/

/-- A plain literal that runs, of the same name and file. -/
def Overrides (y x : Sourced) : Prop :=
  neverRuns y.1 = false ∧ isPlainLiteral y.1 = true ∧
    (assignedName y.1).isSome ∧ assignedName y.1 = assignedName x.1 ∧ y.2 = x.2

/-- The result is made of directives of the list, each at most once, and a directive
that is left out has one behind it that overrides it. -/
def KeptUnlessOverridden (directives result : List Sourced) : Prop :=
  ∃ kept : List (Sourced × ℕ), kept.Nodup ∧ (∀ x ∈ kept, x ∈ directives.zipIdx) ∧
    result = kept.map Prod.fst ∧
    ∀ x ∈ directives.zipIdx, x ∉ kept → ∃ y ∈ directives.zipIdx, x.2 < y.2 ∧ Overrides y.1 x.1

theorem pairwise_zipIdx (l : List Sourced) : l.zipIdx.Pairwise fun x y => x.2 < y.2 := by
  have h : (l.zipIdx.map Prod.snd).Pairwise (· < ·) := by
    rw [List.zipIdx_map_snd]
    exact List.pairwise_lt_range'
  exact List.pairwise_map.1 h

theorem nodup_zipIdx (l : List Sourced) : l.zipIdx.Nodup :=
  (pairwise_zipIdx l).imp fun h heq => absurd (congrArg Prod.snd heq) (Nat.ne_of_lt h)

/-- A list that stays as it is. -/
theorem keptUnlessOverridden_self (directives : List Sourced) :
    KeptUnlessOverridden directives directives :=
  ⟨directives.zipIdx, nodup_zipIdx directives, fun _ h => h, (List.zipIdx_map_fst 0 _).symm,
    fun _ hx hnot => absurd hx hnot⟩

/-- The prelude with the places its literals come from. -/
def placedPrelude (directives : List Sourced) : List (Sourced × ℕ) :=
  (winnersOf directives).entries.filterMap fun winner =>
    winner.2.bind fun w => directives[w.1]?.map (·, w.1)

theorem map_placedPrelude (directives : List Sourced) :
    (placedPrelude directives).map Prod.fst = prelude directives := by
  rw [placedPrelude, prelude, List.map_filterMap]
  refine List.filterMap_congr fun winner _ => ?_
  cases winner.2 with
  | none => rfl
  | some w =>
    change (directives[w.1]?.map (·, w.1)).map Prod.fst = directives[w.1]?
    cases directives[w.1]? <;> rfl

theorem mem_placedPrelude {directives : List Sourced} {x : Sourced × ℕ} :
    x ∈ placedPrelude directives ↔ ∃ name,
      (winnersOf directives).get name = some (some (x.2, x.1.2)) ∧
        directives[x.2]? = some x.1 := by
  rw [placedPrelude, List.mem_filterMap]
  constructor
  · rintro ⟨⟨name, w⟩, he, hx⟩
    obtain ⟨w, rfl, hx⟩ := Option.bind_eq_some_iff.1 hx
    obtain ⟨y, hy, rfl⟩ := Option.map_eq_some_iff.1 hx
    have hget := (winnersOf directives).mem_entries.1 he
    obtain ⟨directive, hdirective, -⟩ := getElem?_of_winner hget
    obtain rfl := Option.some.inj (hy.symm.trans hdirective)
    exact ⟨name, hget, hy⟩
  · rintro ⟨name, hget, hx⟩
    refine ⟨(name, some (x.2, x.1.2)), (winnersOf directives).mem_entries.2 hget, ?_⟩
    change directives[x.2]?.map (·, x.2) = some x
    rw [hx]
    rfl

/-- What a list of partial images says of its sources, in order. -/
theorem map_filterMap_sublist {α β γ : Type} {f : α → Option β} {g : β → γ} {k : α → γ}
    {l : List α} (h : ∀ a ∈ l, ∀ b, f a = some b → g b = k a) :
    ((l.filterMap f).map g).Sublist (l.map k) := by
  induction l with
  | nil => exact .slnil
  | cons a l ih =>
    have hl := ih fun b hb => h b (List.mem_cons_of_mem a hb)
    rw [List.filterMap_cons]
    cases ha : f a with
    | none => exact hl.cons _
    | some b =>
      rw [List.map_cons, List.map_cons, h a List.mem_cons_self b ha]
      exact hl.cons_cons _

theorem nodup_placedPrelude (directives : List Sourced) : (placedPrelude directives).Nodup := by
  have hsub : ((placedPrelude directives).map (assignedName ·.1.1)).Sublist
      ((winnersOf directives).entries.map fun e => some e.1) := by
    refine map_filterMap_sublist fun e he x hx => ?_
    obtain ⟨w, hw, hx⟩ := Option.bind_eq_some_iff.1 hx
    obtain ⟨y, hy, rfl⟩ := Option.map_eq_some_iff.1 hx
    have hruns := exists_of_mem_prelude he (Option.bind_eq_some_iff.2 ⟨w, hw, hy⟩)
    exact (runsFor_iff.1 hruns).2
  have hkeys : ((winnersOf directives).entries.map fun e => some e.1).Nodup := by
    have h := (winnersOf directives).nodup.map fun _ _ heq => Option.some.inj heq
    rwa [List.map_map] at h
  exact (hkeys.sublist hsub).of_map _

/-- A directive that does not stay is one of a name whose winner is found. -/
theorem winner_of_not_staysPut {directives : List Sourced} {x : Sourced}
    (h : staysPut (winnersOf directives) x = false) : ∃ name i file,
      runsFor name x = true ∧ (winnersOf directives).get name = some (some (i, file)) := by
  rw [staysPut, Bool.or_eq_false_iff, Bool.not_eq_false'] at h
  obtain ⟨hnever, hany⟩ := h
  obtain ⟨name, hname, hhoisted⟩ := (Option.any_eq_true ..).1 hany
  obtain ⟨i, file, hw⟩ := isHoisted_iff.1 hhoisted
  exact ⟨name, i, file, runsFor_iff.2 ⟨hnever, hname⟩, hw⟩

/-- A directive of a name whose winner is found is the winner, or has it behind it. -/
theorem eq_or_overridden {directives : List Sourced} {x : Sourced × ℕ} {name file : String}
    {i : ℕ} (hx : x ∈ directives.zipIdx) (hruns : runsFor name x.1 = true)
    (hw : (winnersOf directives).get name = some (some (i, file))) :
    x ∈ placedPrelude directives ∨
      ∃ y ∈ directives.zipIdx, x.2 < y.2 ∧ Overrides y.1 x.1 := by
  have hsurveyed := surveyed_winnersOf directives name
  rw [hw] at hsurveyed
  obtain ⟨front, directive, hfilter, hall⟩ := hsurveyed
  have hmem : ∀ y ∈ front ++ [((directive, file), i)],
      y ∈ directives.zipIdx ∧ runsFor name y.1 = true := by
    intro y hy
    rw [← hfilter] at hy
    exact List.mem_filter.1 hy
  have hlast : ((directive, file), i) ∈ front ++ [((directive, file), i)] :=
    List.mem_append_right _ (List.mem_singleton_self _)
  have hxmem : x ∈ front ++ [((directive, file), i)] := by
    rw [← hfilter]
    exact List.mem_filter.2 ⟨hx, hruns⟩
  have hsorted : (front ++ [((directive, file), i)]).Pairwise fun x y => x.2 < y.2 := by
    rw [← hfilter]
    exact (pairwise_zipIdx directives).filter _
  rcases List.mem_append.1 hxmem with hfront | heq
  · right
    obtain ⟨hdirective, hrunsLast⟩ := hmem _ hlast
    obtain ⟨hnever, hname⟩ := runsFor_iff.1 hrunsLast
    refine ⟨_, hdirective, ?_, hnever, (hall _ hlast).1, ?_, ?_, (hall x hxmem).2.symm⟩
    · exact (List.pairwise_append.1 hsorted).2.2 x hfront _ (List.mem_singleton_self _)
    · rw [hname]
      rfl
    · rw [hname, (runsFor_iff.1 hruns).2]
  · left
    obtain rfl := List.mem_singleton.1 heq
    exact mem_placedPrelude.2 ⟨name, hw, List.mem_zipIdx_iff_getElem?.1 hx⟩

/-- **Nothing is dropped but a directive that a later plain literal of its name and
file overrides.** -/
theorem keptUnlessOverridden_bindLiteralVarsFirst (directives : List Sourced) :
    KeptUnlessOverridden directives (bindLiteralVarsFirst directives) := by
  rw [bindLiteralVarsFirst]
  split
  · exact keptUnlessOverridden_self directives
  split
  · exact keptUnlessOverridden_self directives
  split
  · exact keptUnlessOverridden_self directives
  refine ⟨placedPrelude directives ++
    directives.zipIdx.filter (staysPut (winnersOf directives) ·.1), ?_, ?_, ?_, ?_⟩
  · refine (nodup_placedPrelude directives).append ((nodup_zipIdx directives).filter _) ?_
    intro x hx hstays
    obtain ⟨name, hw, hget⟩ := mem_placedPrelude.1 hx
    obtain ⟨directive, hdirective, hruns⟩ := getElem?_of_winner hw
    obtain heq := Option.some.inj (hget.symm.trans hdirective)
    obtain ⟨hnever, hname⟩ := runsFor_iff.1 hruns
    have hnot : staysPut (winnersOf directives) x.1 = false := by
      rw [heq, staysPut, hnever, hname, Option.any_some, isHoisted_iff.2 ⟨_, _, hw⟩]
      rfl
    exact Bool.false_ne_true (hnot.symm.trans (List.mem_filter.1 hstays).2)
  · intro x hx
    rcases List.mem_append.1 hx with hx | hx
    · obtain ⟨-, -, hget⟩ := mem_placedPrelude.1 hx
      exact List.mem_zipIdx_iff_getElem?.2 hget
    · exact List.mem_of_mem_filter hx
  · rw [List.map_append, map_placedPrelude, map_filter_zipIdx]
  · intro x hx hnot
    rw [List.mem_append, not_or] at hnot
    have hstays : staysPut (winnersOf directives) x.1 = false := by
      rw [← Bool.not_eq_true]
      exact fun h => hnot.2 (List.mem_filter.2 ⟨hx, h⟩)
    obtain ⟨name, i, file, hruns, hw⟩ := winner_of_not_staysPut hstays
    exact (eq_or_overridden hx hruns hw).resolve_left hnot.1

end Mise.Vars
