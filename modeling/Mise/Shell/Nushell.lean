/-
# The rows that nushell reads

`src/shell/nushell.rs`: variables are set and hidden by rows of comma-separated
values, which nushell reads with `from csv --noheaders --no-infer`.  The rows of
`hook-env` come on a pipe.  Those that undo an earlier activation stand in the
activation script itself, between single quotes, and a single quote in a value
ends them there (`nushell_round_trip_iff`).
-/

import Mise.Env.EnvDiff
import Mise.Lib.Csv

namespace Mise.Nushell

open Lib

/-! ### Rows -/

/-- `EnvOp`. -/
inductive EnvOp where
  | set (key val : List Char)
  | hide (key : List Char)

/-- `EnvOp::fmt`. -/
def EnvOp.fmt : EnvOp → List Char
  | set key val => "set,".toList ++ key ++ [','] ++ val ++ ['\n']
  | hide key => "hide,".toList ++ key ++ [',', '\n']

/-- `escape_csv_value`. -/
def escapeCsvValue (s : List Char) : List Char :=
  if s.any fun c => c = '\r' || c = '\n' || c = '"' || c = ',' then
    '"' :: ((s.flatMap fun c => if c = '"' then ['"', '"'] else [c]) ++ ['"'])
  else s

/-- `set_env`. -/
def setEnv (k v : List Char) : List Char := (EnvOp.set (escapeCsvValue k) (escapeCsvValue v)).fmt

/-- `unset_env`. -/
def unsetEnv (k : List Char) : List Char := (EnvOp.hide (escapeCsvValue k)).fmt

/-- The call that sets or hides a variable. -/
def EnvOp.call : EnvOp → List Char
  | set key val => setEnv key val
  | hide key => unsetEnv key

/-- The row that nushell is to read for a call. -/
def EnvOp.row : EnvOp → List (List Char)
  | set key val => ["set".toList, key, val]
  | hide key => ["hide".toList, key, []]

/-! ### Activation -/

/-- `deactivate`. -/
def deactivate : List Char :=
  unsetEnv "MISE_SHELL".toList ++ unsetEnv "__MISE_DIFF".toList ++ unsetEnv "__MISE_SESSION".toList

/-- `build_env_commands`, of the patches that undo an activation. -/
def buildEnvCommands (patches : List EnvDiffOperation) : List Char :=
  patches.flatMap fun
    | .add k v => setEnv k.toList v.toList
    | .change k v => setEnv k.toList v.toList
    | .remove k => unsetEnv k.toList

/-- `shell::build_deactivation_script`; nushell has no aliases and no completions
to clear. -/
def shellDeactivationScript (isActivated : Bool) (patches : List EnvDiffOperation) : List Char :=
  if isActivated then buildEnvCommands patches ++ deactivate else []

/-- `str::trim_end_matches` of a character. -/
def trimEndMatches (c : Char) (s : List Char) : List Char := (s.reverse.dropWhile (· = c)).reverse

/-- `build_deactivation_script`. -/
def buildDeactivationScript (isActivated : Bool) (patches : List EnvDiffOperation) : List Char :=
  trimEndMatches '\n' (shellDeactivationScript isActivated patches)

/-- The line of `activate` that undoes an earlier activation. -/
def deactivationLine (isActivated : Bool) (patches : List EnvDiffOperation) : List Char :=
  '\'' :: (buildDeactivationScript isActivated patches ++ "' | parse vars | update-env\n".toList)

/-- The front of a single-quoted literal: every character but the quote is
literal. -/
def literalFront : List Char → Front Char Char
  | [] => .fails
  | c :: text => if c = '\'' then .ends text else .reads [c] text

/-- The value of the literal at the front of a text, and the text behind it. -/
def readLiteral : List Char → Option (List Char × List Char)
  | '\'' :: text => readQuoted literalFront text
  | _ => none

/-- The call that a patch makes. -/
def opOf : EnvDiffOperation → EnvOp
  | .add k v => .set k.toList v.toList
  | .change k v => .set k.toList v.toList
  | .remove k => .hide k.toList

/-- The calls that undo an activation. -/
def deactivationOps (isActivated : Bool) (patches : List EnvDiffOperation) : List EnvOp :=
  if isActivated then
    patches.map opOf ++
      [.hide "MISE_SHELL".toList, .hide "__MISE_DIFF".toList, .hide "__MISE_SESSION".toList]
  else []

/-! ### The rows are read back -/

theorem escapeCsvValue_eq (s : List Char) : escapeCsvValue s = Csv.writeField s := rfl

/-- A call writes its row. -/
theorem call_eq_writeRow (op : EnvOp) : op.call = Csv.writeRow op.row := by
  have hset : Csv.writeField "set".toList = "set".toList := by decide
  have hhide : Csv.writeField "hide".toList = "hide".toList := by decide
  have hempty : Csv.writeField [] = [] := by decide
  cases op with
  | set key val =>
    unfold EnvOp.call setEnv EnvOp.fmt EnvOp.row Csv.writeRow
    simp only [escapeCsvValue_eq, List.map_cons, List.map_nil, List.intercalate_cons_cons,
      List.intercalate_singleton, hset]
    simp
  | hide key =>
    unfold EnvOp.call unsetEnv EnvOp.fmt EnvOp.row Csv.writeRow
    simp only [escapeCsvValue_eq, List.map_cons, List.map_nil, List.intercalate_cons_cons,
      List.intercalate_singleton, hhide, hempty]
    simp

theorem row_ne_nil (op : EnvOp) : op.row ≠ [] := by
  cases op with
  | set key val => exact List.cons_ne_nil _ _
  | hide key => exact List.cons_ne_nil _ _

theorem flatMap_call (ops : List EnvOp) :
    ops.flatMap EnvOp.call = (ops.map EnvOp.row).flatMap Csv.writeRow := by
  rw [List.flatMap_map]
  exact congrArg (ops.flatMap ·) (funext call_eq_writeRow)

theorem readRows_call (ops : List EnvOp) :
    Csv.readRows (ops.flatMap EnvOp.call) = some (ops.map EnvOp.row) := by
  rw [flatMap_call]
  refine Csv.readRows_writeRows fun row hrow => ?_
  obtain ⟨op, -, rfl⟩ := List.mem_map.1 hrow
  exact row_ne_nil op

theorem shellDeactivationScript_eq (isActivated : Bool) (patches : List EnvDiffOperation) :
    shellDeactivationScript isActivated patches =
      (deactivationOps isActivated patches).flatMap EnvOp.call := by
  cases isActivated with
  | false => rfl
  | true =>
    have hpatches : buildEnvCommands patches = (patches.map opOf).flatMap EnvOp.call := by
      rw [List.flatMap_map, buildEnvCommands]
      refine congrArg (patches.flatMap ·) (funext fun patch => ?_)
      cases patch with
      | add k v => rfl
      | change k v => rfl
      | remove k => rfl
    rw [deactivationOps, if_pos rfl, List.flatMap_append, ← hpatches]
    rfl

/-- The end of the last line is taken off, and no more. -/
theorem trimEndMatches_append {text : List Char} (hlast : ∀ c ∈ text.getLast?, c ≠ '\n') :
    trimEndMatches '\n' (text ++ ['\n']) = text := by
  rw [trimEndMatches, List.reverse_append, List.reverse_singleton, List.singleton_append,
    List.dropWhile_cons_of_pos (by decide)]
  cases hreverse : text.reverse with
  | nil => rw [List.dropWhile_nil, ← hreverse, List.reverse_reverse]
  | cons c rest =>
    have hc : c ≠ '\n' := by
      refine hlast c ?_
      rw [← List.head?_reverse, hreverse]
      rfl
    rw [List.dropWhile_cons_of_neg (by simpa using hc), ← hreverse, List.reverse_reverse]

theorem intercalate_row_ne_nil (op : EnvOp) :
    [','].intercalate (op.row.map Csv.writeField) ≠ [] := by
  cases op with
  | set key val =>
    rw [EnvOp.row, List.map_cons, List.map_cons, List.intercalate_cons_cons, List.append_assoc]
    exact List.append_ne_nil_of_right_ne_nil _ (List.cons_ne_nil _ _)
  | hide key =>
    rw [EnvOp.row, List.map_cons, List.map_cons, List.intercalate_cons_cons, List.append_assoc]
    exact List.append_ne_nil_of_right_ne_nil _ (List.cons_ne_nil _ _)

/-- **The deactivation rows are those of its calls**, though the end of their last
line is missing. -/
theorem readRows_buildDeactivationScript (isActivated : Bool) (patches : List EnvDiffOperation) :
    Csv.readRows (buildDeactivationScript isActivated patches) =
      some ((deactivationOps isActivated patches).map EnvOp.row) := by
  rw [buildDeactivationScript, shellDeactivationScript_eq]
  rcases List.eq_nil_or_concat' (deactivationOps isActivated patches) with hnil | ⟨ops, op, hops⟩
  · rw [hnil, List.flatMap_nil, List.map_nil]
    show Csv.readRows [] = some []
    rw [Csv.readRows, if_pos rfl]
  · have hrows : ∀ row ∈ ops.map EnvOp.row, row ≠ [] := by
      intro row hrow
      obtain ⟨op', -, rfl⟩ := List.mem_map.1 hrow
      exact row_ne_nil op'
    have hlast : ∀ c ∈ ((ops.map EnvOp.row).flatMap Csv.writeRow ++
        [','].intercalate (op.row.map Csv.writeField)).getLast?, c ≠ '\n' := by
      rw [List.getLast?_append_of_ne_nil _ (intercalate_row_ne_nil op)]
      exact Csv.getLast?_intercalate_writeField op.row
    rw [hops, List.flatMap_append, List.flatMap_singleton, call_eq_writeRow, Csv.writeRow,
      ← List.append_assoc, flatMap_call, trimEndMatches_append hlast,
      Csv.readRows_open hrows (row_ne_nil op) (intercalate_row_ne_nil op), List.map_append,
      List.map_singleton]

/-! ### The literal around the rows -/

/-- What is read from a literal has no quote. -/
theorem not_mem_of_readLiteral {text content rest : List Char}
    (h : readQuoted literalFront text = some (content, rest)) : '\'' ∉ content := by
  fun_induction readQuoted literalFront text generalizing content with
  | case1 text hfront => cases h
  | case2 text rest' hfront =>
    obtain ⟨rfl, -⟩ := Prod.mk.inj (Option.some.inj h)
    exact List.not_mem_nil
  | case3 text symbols rest' hfront hlength ih =>
    obtain ⟨⟨content', t⟩, hread, heq⟩ := Option.map_eq_some_iff.1 h
    obtain ⟨rfl, rfl⟩ := Prod.mk.inj heq
    have hsymbols : '\'' ∉ symbols := by
      rw [literalFront.eq_def] at hfront
      split at hfront
      · cases hfront
      · split at hfront
        · cases hfront
        · case isFalse hc =>
          obtain ⟨rfl, -⟩ := Front.reads.inj hfront
          exact fun hmem => hc (List.mem_singleton.1 hmem).symm
    exact fun hmem => (List.mem_append.1 hmem).elim hsymbols (ih hread)
  | case4 text symbols rest' hfront hlength => cases h

/-- A text without a quote is read back from a literal. -/
theorem readLiteral_of_not_mem {text : List Char} (h : '\'' ∉ text) (t : List Char) :
    readLiteral ('\'' :: (text ++ '\'' :: t)) = some (text, t) := by
  have hread : ∀ c ∈ text, [c] ≠ [] ∧ ∀ rest, literalFront ([c] ++ rest) = .reads [c] rest :=
    fun c hc => ⟨List.cons_ne_nil _ _, fun rest => if_neg (ne_of_mem_of_not_mem hc h)⟩
  have hclose : literalFront (['\''] ++ t) = .ends t := rfl
  have hquoted := readQuoted_flatMap hread hclose
  rw [List.flatMap_singleton'] at hquoted
  exact hquoted

theorem mem_intercalate {α : Type} {sep : List α} {l : List (List α)} {c : α}
    (h : c ∈ sep.intercalate l) : c ∈ sep ∨ ∃ text ∈ l, c ∈ text := by
  induction l with
  | nil => exact nomatch h
  | cons text l ih =>
    cases l with
    | nil =>
      rw [List.intercalate_singleton] at h
      exact .inr ⟨text, List.mem_cons_self, h⟩
    | cons text' l =>
      rw [List.intercalate_cons_cons] at h
      rcases List.mem_append.1 h with h | h
      · rcases List.mem_append.1 h with h | h
        · exact .inr ⟨text, List.mem_cons_self, h⟩
        · exact .inl h
      · exact (ih h).imp_right fun ⟨t, ht, hc⟩ => ⟨t, List.mem_cons_of_mem text ht, hc⟩

/-- A quote that is written stands in a field. -/
theorem not_mem_writeRow {row : List (List Char)} (h : ∀ field ∈ row, '\'' ∉ field) :
    '\'' ∉ Csv.writeRow row := by
  have hfield : ∀ field ∈ row, '\'' ∉ Csv.writeField field := by
    intro field hfield hmem
    rw [Csv.writeField] at hmem
    split at hmem
    · rcases List.mem_cons.1 hmem with hmem | hmem
      · exact absurd hmem (by decide)
      · rcases List.mem_append.1 hmem with hmem | hmem
        · obtain ⟨c, hc, hmem⟩ := List.mem_flatMap.1 hmem
          rw [Csv.writeChar] at hmem
          split at hmem
          · exact absurd hmem (by decide)
          · exact h field hfield (List.mem_singleton.1 hmem ▸ hc)
        · exact absurd hmem (by decide)
    · exact h field hfield hmem
  intro hmem
  rw [Csv.writeRow] at hmem
  rcases List.mem_append.1 hmem with hmem | hmem
  · rcases mem_intercalate hmem with hmem | ⟨text, htext, hmem⟩
    · exact absurd hmem (by decide)
    · obtain ⟨field, hin, rfl⟩ := List.mem_map.1 htext
      exact hfield field hin hmem
  · exact absurd hmem (by decide)

/-- No patch that is undone has a quote in its variable's name or its value. -/
def Unquoted (isActivated : Bool) (patches : List EnvDiffOperation) : Prop :=
  isActivated = true → ∀ patch ∈ patches, '\'' ∉ patch.key.toList ∧
    ∀ v ∈ patch.value, '\'' ∉ v.toList

/-- The fields of the deactivation rows are those of its patches, and constants. -/
theorem unquoted_iff (isActivated : Bool) (patches : List EnvDiffOperation) :
    Unquoted isActivated patches ↔
      ∀ op ∈ deactivationOps isActivated patches, ∀ field ∈ op.row, '\'' ∉ field := by
  have hpatch : ∀ patch : EnvDiffOperation, (∀ field ∈ (opOf patch).row, '\'' ∉ field) ↔
      '\'' ∉ patch.key.toList ∧ ∀ v ∈ patch.value, '\'' ∉ v.toList := by
    have hset : '\'' ∉ "set".toList := by decide
    have hhide : '\'' ∉ "hide".toList := by decide
    intro patch
    cases patch <;> simp [opOf, EnvOp.row, EnvDiffOperation.key, EnvDiffOperation.value]
  cases isActivated with
  | false => exact ⟨fun _ => List.forall_mem_nil _, fun _ h => absurd h (by decide)⟩
  | true =>
    rw [deactivationOps, if_pos rfl, Unquoted]
    constructor
    · intro h op hop
      rcases List.mem_append.1 hop with hop | hop
      · obtain ⟨patch, hmem, rfl⟩ := List.mem_map.1 hop
        exact (hpatch patch).2 (h rfl patch hmem)
      · have hhides : ∀ op ∈ [EnvOp.hide "MISE_SHELL".toList, .hide "__MISE_DIFF".toList,
            .hide "__MISE_SESSION".toList],
            (op.row.all fun field => !field.contains '\'') = true := by
          decide
        intro field hfield
        have hno := List.all_eq_true.1 (hhides op hop) field hfield
        rw [Bool.not_eq_true', List.contains_eq_mem, decide_eq_false_iff_not] at hno
        exact hno
    · intro h _ patch hmem
      exact (hpatch patch).1 (h _ (List.mem_append_left _ (List.mem_map_of_mem hmem)))

/-- The script in front of what follows it is a literal of the rows, and what
follows it. -/
theorem deactivationLine_append (isActivated : Bool) (patches : List EnvDiffOperation)
    (t : List Char) : deactivationLine isActivated patches ++ t =
      '\'' :: (buildDeactivationScript isActivated patches ++
        '\'' :: (" | parse vars | update-env\n".toList ++ t)) := by
  rw [deactivationLine, List.cons_append, List.append_assoc]
  rfl

/-- Rows that are read back from the script have no quote. -/
theorem unquoted_of_readRows {isActivated : Bool} {patches : List EnvDiffOperation}
    {t : List Char}
    (h : (readLiteral (deactivationLine isActivated patches ++ t)).bind (Csv.readRows ·.1) =
      some ((deactivationOps isActivated patches).map EnvOp.row)) :
    Unquoted isActivated patches := by
  obtain ⟨⟨content, rest⟩, hcontent, hrows⟩ := Option.bind_eq_some_iff.1 h
  rw [deactivationLine_append] at hcontent
  have hquote := not_mem_of_readLiteral hcontent
  refine (unquoted_iff isActivated patches).2 fun op hop field hfield hmem => hquote ?_
  exact Csv.subset_of_readRows hrows op.row (List.mem_map_of_mem hop) field hfield hmem

/-- Without a quote the literal holds the script. -/
theorem readLiteral_deactivationLine {isActivated : Bool} {patches : List EnvDiffOperation}
    (h : Unquoted isActivated patches) (t : List Char) :
    readLiteral (deactivationLine isActivated patches ++ t) =
      some (buildDeactivationScript isActivated patches,
        " | parse vars | update-env\n".toList ++ t) := by
  rw [deactivationLine_append]
  refine readLiteral_of_not_mem (fun hmem => ?_) _
  rw [buildDeactivationScript, trimEndMatches] at hmem
  have hmem := List.mem_reverse.1 ((List.dropWhile_suffix _).subset (List.mem_reverse.1 hmem))
  rw [shellDeactivationScript_eq, flatMap_call] at hmem
  obtain ⟨row, hrow, hmem⟩ := List.mem_flatMap.1 hmem
  obtain ⟨op, hop, rfl⟩ := List.mem_map.1 hrow
  exact not_mem_writeRow ((unquoted_iff isActivated patches).1 h op hop) hmem

/-- **The rows are read back**: those of any calls from a pipe, and those of the
deactivation from the activation script exactly when no patch has a single
quote. -/
theorem nushell_round_trip_iff (ops : List EnvOp) (isActivated : Bool)
    (patches : List EnvDiffOperation) (t : List Char) :
    Csv.readRows (ops.flatMap EnvOp.call) = some (ops.map EnvOp.row) ∧
    ((readLiteral (deactivationLine isActivated patches ++ t)).bind (Csv.readRows ·.1) =
      some ((deactivationOps isActivated patches).map EnvOp.row) ↔
        Unquoted isActivated patches) ∧
    (Unquoted isActivated patches → readLiteral (deactivationLine isActivated patches ++ t) =
      some (buildDeactivationScript isActivated patches,
        " | parse vars | update-env\n".toList ++ t)) := by
  refine ⟨readRows_call ops, ⟨unquoted_of_readRows, fun h => ?_⟩,
    fun h => readLiteral_deactivationLine h t⟩
  rw [readLiteral_deactivationLine h t]
  exact readRows_buildDeactivationScript isActivated patches

/-- A quote in a previous value ends the literal early. -/
theorem nushell_single_quote :
    (readLiteral (deactivationLine true [.change "GREETING" "it's"])).bind (Csv.readRows ·.1) ≠
      some ((deactivationOps true [.change "GREETING" "it's"]).map EnvOp.row) := by
  intro h
  rw [← List.append_nil (deactivationLine true _)] at h
  have hvalue := (unquoted_of_readRows h rfl _ (List.mem_singleton.2 rfl)).2 "it's" rfl
  exact hvalue (by decide)

end Mise.Nushell
