/-
# When the exported environment is read back

A variable that was printed in double quotes is read back unless its value holds
a line that begins like a declaration, or a carriage return in front of a line
feed (`normalizeEscapeSequences_ownText`); one that was printed in the `$'...'`
form unless that needed octal escapes.  What a rejected variable's value holds of
declarations is taken for variables.  `readBack_iff` puts these together.
-/

import Mise.Env.ExportPRead

namespace Mise.ExportP

open Lib

variable {ignoreKeys : List (List Char)}

/-! ### The `$'...'` form -/

/-- A control character that C has no escape for. -/
def isOctal (c : Char) : Bool := isControl c && (cEscapes.lookup c).isNone

/-- What the decoder makes of a character in the `$'...'` form. -/
def ansiRead (c : Char) : List Char := if isOctal c then ansiChar c else [c]

theorem escapeValue_digitChar {n : ℕ} (h : n < 8) :
    escapeValue (Nat.digitChar n) = ['\\', Nat.digitChar n] := by
  interval_cases n <;> rfl

theorem digitChar_ne {n : ℕ} (h : n < 8) : Nat.digitChar n ≠ '\\' := by
  interval_cases n <;> decide

/-- An octal escape is left as it is. -/
theorem decodeEscapes_octal (b : ℕ) (t : List Char) :
    decodeEscapes (octal b ++ t) = octal b ++ decodeEscapes t := by
  have h8 (n : ℕ) : n % 8 < 8 := Nat.mod_lt n (by decide)
  have hcons (t : List Char) : octal b ++ t = '\\' :: Nat.digitChar (b / 64 % 8) ::
      Nat.digitChar (b / 8 % 8) :: Nat.digitChar (b % 8) :: t := rfl
  rw [hcons, hcons, decodeEscapes, if_pos rfl, escapeValue_digitChar (h8 _),
    decodeEscapes_cons (digitChar_ne (h8 _)), decodeEscapes_cons (digitChar_ne (h8 _))]
  rfl

/-- The escapes of C are decoded. -/
theorem decodeEscapes_cEscape : ∀ p ∈ cEscapes, escapeValue p.2 = [p.1] := by
  decide

/-- A character of an ANSI quote is read before what follows. -/
theorem decodeEscapes_ansiChar (c : Char) (t : List Char) :
    decodeEscapes (ansiChar c ++ t) = ansiRead c ++ decodeEscapes t := by
  rw [ansiRead, isOctal]
  cases hlookup : cEscapes.lookup c with
  | some e =>
    obtain ⟨l, l', hmem, -⟩ := List.lookup_eq_some_iff.1 hlookup
    have hvalue := decodeEscapes_cEscape (c, e) (hmem ▸ by simp)
    have hchar : ansiChar c = ['\\', e] := by rw [ansiChar, hlookup]
    rw [hchar, Option.isNone_some, Bool.and_false, if_neg Bool.false_ne_true, List.cons_append,
      List.singleton_append, decodeEscapes, if_pos rfl, hvalue]
  | none =>
    rw [Option.isNone_none, Bool.and_true]
    split
    · rename_i hcontrol
      rw [ansiChar, hlookup]
      show decodeEscapes ((if isControl c then _ else _) ++ t) = (if isControl c then _ else _) ++ _
      rw [if_pos hcontrol]
      split
      · exact decodeEscapes_octal _ t
      · rw [List.append_assoc, decodeEscapes_octal, decodeEscapes_octal, List.append_assoc]
    · rename_i hcontrol
      have hchar : ansiChar c = [c] := by
        rw [ansiChar, hlookup]
        exact if_neg hcontrol
      have hne : c ≠ '\\' := by
        rintro rfl
        exact absurd hlookup (by decide)
      rw [hchar, List.singleton_append, List.singleton_append, decodeEscapes_cons hne]

theorem decodeEscapes_ansiChars (v : List Char) :
    decodeEscapes (v.flatMap ansiChar) = v.flatMap ansiRead := by
  induction v with
  | nil => rfl
  | cons c v ih => rw [List.flatMap_cons, decodeEscapes_ansiChar, ih, List.flatMap_cons]

theorem one_lt_length_ansiRead {c : Char} (h : isOctal c) : 1 < (ansiRead c).length := by
  rw [ansiRead, if_pos h]
  rw [isOctal, Bool.and_eq_true] at h
  rw [ansiChar, Option.isNone_iff_eq_none.1 h.2]
  show 1 < (if isControl c then _ else _ : List Char).length
  rw [if_pos h.1]
  split
  · exact (by decide : 1 < 4)
  · exact (by decide : 1 < 8)

/-- **The `$'...'` form is decoded exactly where it needs no octal escapes.** -/
theorem flatMap_ansiRead_eq_iff {v : List Char} :
    v.flatMap ansiRead = v ↔ ∀ c ∈ v, isOctal c = false := by
  have hle (v : List Char) : v.length ≤ (v.flatMap ansiRead).length := by
    induction v with
    | nil => exact le_rfl
    | cons c v ih =>
      rw [List.flatMap_cons, List.length_append, List.length_cons]
      cases hc : isOctal c with
      | true =>
        have := one_lt_length_ansiRead hc
        omega
      | false =>
        rw [ansiRead, hc, if_neg Bool.false_ne_true, List.length_singleton]
        omega
  induction v with
  | nil => exact iff_of_true rfl fun c hc => nomatch hc
  | cons c v ih =>
    rw [List.flatMap_cons, List.forall_mem_cons]
    cases hc : isOctal c with
    | true =>
      refine iff_of_false (fun heq => ?_) fun h => nomatch h.1
      have hlength := congrArg List.length heq
      have hone := one_lt_length_ansiRead hc
      have hrest := hle v
      rw [List.length_append, List.length_cons] at hlength
      omega
    | false =>
      rw [ansiRead, hc, if_neg Bool.false_ne_true, List.singleton_append, List.cons.injEq,
        and_iff_right rfl, and_iff_right rfl]
      exact ih

/-! ### What is read of a variable -/

namespace Variable

variable {var : Variable}

theorem printed_double (h : var.form = .doubleQuoted) :
    var.printed = '"' :: (var.value.flatMap quoteChar ++ ['"']) := by
  rw [printed, h]

theorem printed_ansi (h : var.form = .ansi) :
    var.printed = '$' :: '\'' :: (var.value.flatMap ansiChar ++ ['\'']) := by
  rw [printed, h]

theorem plain_printed (h : var.form = .doubleQuoted) : Plain var.printed := by
  rw [printed_double h]
  exact .char (by decide) ((plain_quoteChars _).append (.char (by decide) .nil))

/-- A value holds the front of a declaration on a line of its own exactly where
it does so printed in double quotes. -/
theorem infix_printed_iff (h : var.form = .doubleQuoted) :
    nextDeclaration <:+: var.printed ↔ nextDeclaration <:+: var.value := by
  have hdecode : decodeEscapes var.printed = '"' :: (var.value ++ ['"']) := by
    rw [printed_double h, decodeEscapes_cons (by decide), decodeEscapes_quoteChars]
    rfl
  rw [← infix_decodeEscapes_iff notMem_quotedChars (List.cons_ne_nil _ _) (plain_printed h),
    hdecode, List.infix_cons_iff, List.infix_concat_iff]
  have hfront : ¬ nextDeclaration <+: '"' :: (var.value ++ ['"']) := fun h =>
    absurd (List.cons_prefix_cons.1 h).1 (by decide)
  have hback : ¬ nextDeclaration <:+ var.value ++ ['"'] := fun ⟨t, ht⟩ => by
    have hlast := congrArg List.getLast? ht
    rw [List.getLast?_concat, List.getLast?_append_of_ne_nil _ (List.cons_ne_nil _ _)] at hlast
    exact absurd hlast (by decide)
  exact ⟨fun h => (h.resolve_left hfront).resolve_left hback, fun h => .inr (.inr h)⟩

/-- Quoting and dropping carriage returns commute. -/
theorem dropCrs_quoteChars (v : List Char) :
    dropCrs (v.flatMap quoteChar ++ ['"']) = (dropCrs v).flatMap quoteChar ++ ['"'] := by
  have hhead (v : List Char) : (v.flatMap quoteChar ++ ['"']).head? = some '\n' ↔
      v.head? = some '\n' := by
    cases v with
    | nil => exact iff_of_false (by decide) (by decide)
    | cons c v =>
      rw [List.flatMap_cons, quoteChar]
      split
      · rename_i hc
        refine iff_of_false (fun h => ?_) fun h => ?_
        · exact absurd (Option.some.inj h) (by decide)
        · rw [List.head?_cons, Option.some.injEq] at h
          exact absurd (h ▸ hc) (by decide)
      · rfl
  induction v with
  | nil => rfl
  | cons c v ih =>
    rw [List.flatMap_cons, dropCrs, List.append_assoc]
    by_cases hc : c ∈ quotedChars
    · have hcr : c ≠ '\r' := fun h => absurd (h ▸ hc) (by decide)
      have hchar : quoteChar c = ['\\', c] := if_pos hc
      rw [if_neg fun h => hcr h.1, List.flatMap_cons, hchar, List.cons_append,
        List.singleton_append, dropCrs, if_neg fun h => absurd h.1 (by decide), dropCrs,
        if_neg fun h => hcr h.1, ih]
      rfl
    · have hchar : quoteChar c = [c] := if_neg hc
      rw [hchar, List.singleton_append, dropCrs, ih]
      by_cases hcrlf : c = '\r' ∧ v.head? = some '\n'
      · rw [if_pos hcrlf, if_pos ⟨hcrlf.1, (hhead v).2 hcrlf.2⟩]
      · rw [if_neg hcrlf, if_neg fun h => hcrlf ⟨h.1, (hhead v).1 h.2⟩, List.flatMap_cons, hchar]
        rfl

/-- A value without declarations is read whole. -/
theorem ownText_eq (hquiet : ¬ nextDeclaration <:+: var.printed) :
    var.ownText = dropCrs var.printed := by
  obtain ⟨f, tl, hlines, hjoined⟩ := lines_eq (@printed_ne_nil var) (@getLast?_printed_ne var)
  have hgoes := goesOn_lines_iff.2 hquiet
  rw [hlines, List.tail_cons] at hgoes
  rw [ownText, hlines, ← hjoined]
  show f ++ joined (tl.takeWhile goesOn) = _
  rw [List.takeWhile_eq_self_iff.2 hgoes]

/-- A value without declarations injects none. -/
theorem injected_eq_nil (hquiet : ¬ nextDeclaration <:+: var.printed) :
    var.injected ignoreKeys = [] := by
  have hgoes := goesOn_lines_iff.2 hquiet
  rw [injected]
  generalize (lines var.printed).tail = ls at hgoes
  induction ls with
  | nil => rfl
  | cons l ls ih =>
    obtain ⟨hl, hls⟩ := List.forall_mem_cons.1 hgoes
    rw [declarations_cons_of_goesOn hl]
    exact ih hls

/-- **A value in double quotes is read without the carriage returns in front of
its line feeds**, if it holds no declaration. -/
theorem normalizeEscapeSequences_double (h : var.form = .doubleQuoted)
    (hquiet : ¬ nextDeclaration <:+: var.value) :
    normalizeEscapeSequences var.ownText = some (dropCrs var.value) := by
  rw [ownText_eq fun hin => hquiet ((infix_printed_iff h).1 hin), printed_double h, dropCrs,
    if_neg fun h => absurd h.1 (by decide), dropCrs_quoteChars,
    ExportP.normalizeEscapeSequences_double]
  have hdecode := decodeEscapes_quoteChars (dropCrs var.value) []
  rw [List.append_nil] at hdecode
  rw [hdecode]
  exact congrArg some (List.append_nil _)

theorem notMem_ansiChar (c : Char) : '\n' ∉ ansiChar c := by
  have h8 {n : ℕ} (h : n < 8) : Nat.digitChar n ≠ '\n' := by
    interval_cases n <;> decide
  have hoctal (b : ℕ) : '\n' ∉ octal b := by
    have hmod (n : ℕ) := (h8 (Nat.mod_lt n (by decide : 8 > 0))).symm
    simp [octal, hmod]
  cases hlookup : cEscapes.lookup c with
  | some e =>
    obtain ⟨l, l', hmem, -⟩ := List.lookup_eq_some_iff.1 hlookup
    have htable : ∀ p ∈ cEscapes, p.2 ≠ '\n' := by decide
    have he := (htable (c, e) (hmem ▸ by simp)).symm
    rw [ansiChar, hlookup]
    simp [he]
  | none =>
    have hne : '\n' ≠ c := by
      rintro rfl
      exact absurd hlookup (by decide)
    rw [ansiChar, hlookup]
    show '\n' ∉ (if isControl c then _ else _ : List Char)
    split
    · split
      · exact hoctal _
      · exact fun h => (List.mem_append.1 h).elim (hoctal _) (hoctal _)
    · simp [hne]

/-- The `$'...'` form is one line. -/
theorem notMem_printed (h : var.form = .ansi) : '\n' ∉ var.printed := by
  rw [printed_ansi h]
  simp [notMem_ansiChar]

theorem quiet_printed (h : var.form = .ansi) : ¬ nextDeclaration <:+: var.printed := fun hin =>
  notMem_printed h (hin.subset List.mem_cons_self)

/-- **A value in the `$'...'` form is read but for its octal escapes.** -/
theorem normalizeEscapeSequences_ansi (h : var.form = .ansi) :
    normalizeEscapeSequences var.ownText = some (var.value.flatMap ansiRead) := by
  rw [ownText_eq (quiet_printed h), dropCrs_of_notMem (notMem_printed h), printed_ansi h,
    ExportP.normalizeEscapeSequences_ansi, decodeEscapes_ansiChars]

/-- **What the reader finds in a value in double quotes is never decoded to a text
that holds a declaration.** -/
theorem quiet_of_mem (h : var.form = .doubleQuoted) {text value : List Char}
    (htext : text = var.ownText ∨ ∃ k, (k, text) ∈ var.injected ignoreKeys)
    (hvalue : normalizeEscapeSequences text = some value) : ¬ nextDeclaration <:+: value := by
  obtain ⟨f, tl, hlines, -⟩ := lines_eq (@printed_ne_nil var) (@getLast?_printed_ne var)
  have hline {l : List Char} (hl : l ∈ f :: tl) : Plain l ∧ '\n' ∉ l := by
    rw [← hlines] at hl
    exact ⟨plain_of_mem_lines (plain_printed h) hl, notMem_lines hl⟩
  have htl : ∀ l ∈ tl, Plain l ∧ '\n' ∉ l := fun l hl => hline (List.mem_cons_of_mem f hl)
  rcases htext with rfl | ⟨k, hk⟩
  · obtain ⟨hplain, hquiet⟩ := joined_takeWhile_quiet (hline List.mem_cons_self) htl
    rw [ownText, hlines] at hvalue
    exact quiet_of_normalizeEscapeSequences hplain hquiet hvalue
  · rw [injected, hlines, List.tail_cons] at hk
    obtain ⟨hplain, hquiet⟩ := quiet_of_mem_declarations htl hk
    exact quiet_of_normalizeEscapeSequences hplain hquiet hvalue

end Variable

/-! ### The environment -/

/-- `parse_export_p`, and `normalize_escape_sequences` on each value, give the
environment's map without the rejected keys. -/
def ReadBack (ignoreKeys : List (List Char)) (env : Environment) : Prop :=
  (parseExportP ignoreKeys (exportP env)).map
      (fun additions => additions.map fun _ v => normalizeEscapeSequences v) =
    some ((env.kept ignoreKeys).map fun _ v => some v)

/-- A printed value that is decoded to the value. -/
def Variable.Decodes (var : Variable) : Prop :=
  match var.form with
  | .doubleQuoted => hasCrlf var.value = false
  | .ansi => ∀ c ∈ var.value, isOctal c = false

/-- The condition under which an environment is read back. -/
structure Legible (ignoreKeys : List (List Char)) (env : Environment) : Prop where
  /-- No line of a kept value in double quotes, but the first, begins like a
  declaration. -/
  quiet : ∀ var ∈ env.vars, invalidKey ignoreKeys var.name = false → var.form = .doubleQuoted →
    ¬ nextDeclaration <:+: var.value
  /-- What stands in a rejected value for a declaration is one of a kept variable. -/
  foreign : ∀ var ∈ env.vars, invalidKey ignoreKeys var.name = true →
    ∀ e ∈ var.injected ignoreKeys, ∃ kept ∈ env.vars,
      invalidKey ignoreKeys kept.name = false ∧ kept.name = e.1
  /-- A kept value is decoded, or else what stands for it behind. -/
  decodes : ∀ before var behind, env.vars = before ++ var :: behind →
    invalidKey ignoreKeys var.name = false →
    match lastValue (behind.flatMap (Variable.injected ignoreKeys)) var.name with
    | none => var.Decodes
    | some text => normalizeEscapeSequences text = some var.value

/-- What the reader finds in a list of printed variables. -/
abbrev found (ignoreKeys : List (List Char)) (vars : List Variable) :
    List (List Char × List Char) :=
  vars.flatMap fun var =>
    (if invalidKey ignoreKeys var.name then [] else [(var.name, var.ownText)]) ++
      var.injected ignoreKeys

variable {env : Environment} {k : List Char} {var : Variable}

theorem mem_found {vars : List Variable} {e : List Char × List Char}
    (h : e ∈ found ignoreKeys vars) : ∃ var ∈ vars,
      (invalidKey ignoreKeys var.name = false ∧ e = (var.name, var.ownText)) ∨
        e ∈ var.injected ignoreKeys := by
  obtain ⟨var, hvar, he⟩ := List.mem_flatMap.1 h
  refine ⟨var, hvar, (List.mem_append.1 he).imp_left fun he => ?_⟩
  split at he
  · exact nomatch he
  · rename_i hvalid
    exact ⟨Bool.eq_false_iff.2 hvalid, List.mem_singleton.1 he⟩

/-- The kept map holds the variables whose keys are not rejected. -/
theorem get_kept {v : List Char} : (env.kept ignoreKeys)[k]? = some v ↔
    ∃ var ∈ env.vars, invalidKey ignoreKeys var.name = false ∧ var.name = k ∧ var.value = v := by
  have hfold : env.kept ignoreKeys =
      ((env.vars.filter fun var => !invalidKey ignoreKeys var.name).map
        fun var => (var.name, var.value)).foldl (fun m e => m.insert e.1 e.2) ∅ := by
    rw [List.foldl_map]
    rfl
  rw [hfold, BTreeMap.get_foldl_insert]
  · simp only [List.mem_map, List.mem_filter, Prod.mk.injEq, Bool.not_eq_true']
    exact ⟨fun ⟨var, ⟨hvar, hvalid⟩, hk, hv⟩ => ⟨var, hvar, hvalid, hk, hv⟩,
      fun ⟨var, hvar, hvalid, hk, hv⟩ => ⟨var, ⟨hvar, hvalid⟩, hk, hv⟩⟩
  · intro k v v' h h'
    obtain ⟨a, ha, heq⟩ := List.mem_map.1 h
    obtain ⟨b, hb, heq'⟩ := List.mem_map.1 h'
    obtain ⟨rfl, rfl⟩ := Prod.mk.inj heq
    obtain ⟨hname, rfl⟩ := Prod.mk.inj heq'
    rw [List.inj_on_of_nodup_map env.nodup (List.mem_of_mem_filter hb)
      (List.mem_of_mem_filter ha) hname]

/-- **Read back, key by key:** the last of a key counts. -/
theorem readBack_iff_lastValue : ReadBack ignoreKeys env ↔ ∀ k,
    (lastValue (found ignoreKeys env.vars) k).map normalizeEscapeSequences =
      (env.kept ignoreKeys)[k]?.map some := by
  have hget (k : List Char) : (collect ∅ (found ignoreKeys env.vars))[k]? =
      lastValue (found ignoreKeys env.vars) k := by
    rw [get_collect, Std.ExtTreeMap.getElem?_empty, Option.or_none]
  rw [ReadBack, parseExportP_eq, declarations_exportP, Option.map_some, Option.some.injEq]
  constructor
  · intro h k
    have hk := congrArg (·[k]?) h
    simp only [Std.ExtTreeMap.getElem?_map] at hk
    rw [← hget]
    exact hk
  · intro h
    refine Std.ExtTreeMap.ext_getElem? fun k => ?_
    rw [Std.ExtTreeMap.getElem?_map, Std.ExtTreeMap.getElem?_map, hget]
    exact h k

/-- Behind a variable, its name is only found in other values. -/
theorem lastValue_found {vars : List Variable} (h : k ∉ vars.map Variable.name) :
    lastValue (found ignoreKeys vars) k =
      lastValue (vars.flatMap (Variable.injected ignoreKeys)) k := by
  induction vars with
  | nil => rfl
  | cons var vars ih =>
    rw [List.map_cons, List.mem_cons, not_or] at h
    rw [found, List.flatMap_cons, List.flatMap_cons, lastValue_append, lastValue_append,
      lastValue_append, ← found, ih h.2]
    congr 1
    split
    · exact Option.or_none
    · rw [lastValue_singleton, if_neg (Ne.symm h.1), Option.or_none]

/-- **What the reader takes for a variable:** what stands for it in a value behind
it, or else its own declaration. -/
theorem lastValue_of_mem {before behind : List Variable}
    (henv : env.vars = before ++ var :: behind)
    (hvalid : invalidKey ignoreKeys var.name = false) (hnone : var.injected ignoreKeys = []) :
    lastValue (found ignoreKeys env.vars) var.name =
      (lastValue (behind.flatMap (Variable.injected ignoreKeys)) var.name).or
        (some var.ownText) := by
  have hnodup := env.nodup
  rw [henv, List.map_append, List.map_cons] at hnodup
  have hbehind := (List.nodup_cons.1 (List.nodup_append.1 hnodup).2.1).1
  rw [henv, found, List.flatMap_append, List.flatMap_cons, hnone, hvalid, lastValue_append,
    lastValue_append, ← found, lastValue_found hbehind, List.append_nil,
    if_neg Bool.false_ne_true, lastValue_singleton, if_pos rfl]
  cases lastValue (behind.flatMap (Variable.injected ignoreKeys)) var.name with
  | none => rfl
  | some text => rfl

/-- A variable's own declaration is decoded to its value exactly where the value
is printed so that it can be. -/
theorem normalizeEscapeSequences_ownText
    (hquiet : var.form = .doubleQuoted → ¬ nextDeclaration <:+: var.value) :
    normalizeEscapeSequences var.ownText = some var.value ↔ var.Decodes := by
  rw [Variable.Decodes]
  cases hform : var.form with
  | doubleQuoted =>
    rw [Variable.normalizeEscapeSequences_double hform (hquiet hform), Option.some.injEq]
    exact dropCrs_eq_self_iff
  | ansi =>
    rw [Variable.normalizeEscapeSequences_ansi hform, Option.some.injEq]
    exact flatMap_ansiRead_eq_iff

theorem injected_eq_nil
    (hquiet : var.form = .doubleQuoted → ¬ nextDeclaration <:+: var.value) :
    var.injected ignoreKeys = [] := by
  refine Variable.injected_eq_nil fun hin => ?_
  cases hform : var.form with
  | doubleQuoted => exact hquiet hform ((Variable.infix_printed_iff hform).1 hin)
  | ansi => exact Variable.quiet_printed hform hin

/-- An environment that is read back has only names and values that are. -/
theorem legible_of_readBack (h : ReadBack ignoreKeys env) : Legible ignoreKeys env := by
  rw [readBack_iff_lastValue] at h
  have hquiet : ∀ var ∈ env.vars, invalidKey ignoreKeys var.name = false →
      var.form = .doubleQuoted → ¬ nextDeclaration <:+: var.value := by
    intro var hvar hvalid hform
    have hkept : (env.kept ignoreKeys)[var.name]? = some var.value :=
      get_kept.2 ⟨var, hvar, hvalid, rfl, rfl⟩
    have hname := h var.name
    rw [hkept] at hname
    obtain ⟨text, hlast, htext⟩ := Option.map_eq_some_iff.1 hname
    -- whatever was read for the variable stands in double quotes
    obtain ⟨other, hother, hin⟩ := mem_found (mem_of_lastValue hlast)
    rcases hin with ⟨-, heq⟩ | hin
    · obtain ⟨hsame, rfl⟩ := Prod.mk.inj heq
      obtain rfl := List.inj_on_of_nodup_map env.nodup hvar hother hsame
      exact @Variable.quiet_of_mem ignoreKeys var hform _ _ (.inl rfl) htext
    · cases hother' : other.form with
      | doubleQuoted => exact Variable.quiet_of_mem hother' (.inr ⟨_, hin⟩) htext
      | ansi =>
        rw [Variable.injected_eq_nil (Variable.quiet_printed hother')] at hin
        exact nomatch hin
  refine ⟨hquiet, fun var hvar _ e he => ?_, fun before var behind henv hvalid => ?_⟩
  · have hmem : e ∈ found ignoreKeys env.vars :=
      List.mem_flatMap.2 ⟨var, hvar, List.mem_append_right _ he⟩
    have hk := h e.1
    cases hkept : (env.kept ignoreKeys)[e.1]? with
    | none =>
      rw [hkept] at hk
      exact absurd rfl (lastValue_eq_none_iff.1 (Option.map_eq_none_iff.1 hk) e hmem)
    | some v =>
      obtain ⟨kept, hkept, hvalid, hname, -⟩ := get_kept.1 hkept
      exact ⟨kept, hkept, hvalid, hname⟩
  · have hvar : var ∈ env.vars := henv ▸ by simp
    have hkept : (env.kept ignoreKeys)[var.name]? = some var.value :=
      get_kept.2 ⟨var, hvar, hvalid, rfl, rfl⟩
    have hname := h var.name
    rw [hkept, lastValue_of_mem henv hvalid (injected_eq_nil (hquiet var hvar hvalid))] at hname
    cases hlast : lastValue (behind.flatMap (Variable.injected ignoreKeys)) var.name with
    | none =>
      rw [hlast] at hname
      exact (normalizeEscapeSequences_ownText (hquiet var hvar hvalid)).1 (Option.some.inj hname)
    | some text =>
      rw [hlast] at hname
      exact Option.some.inj hname

/-- Names and values that are read back make an environment that is. -/
theorem readBack_of_legible (h : Legible ignoreKeys env) : ReadBack ignoreKeys env := by
  rw [readBack_iff_lastValue]
  intro k
  cases hkept : (env.kept ignoreKeys)[k]? with
  | none =>
    rw [Option.map_none, Option.map_eq_none_iff, lastValue_eq_none_iff]
    intro e he hk
    have hnot {var : Variable} (hvar : var ∈ env.vars)
        (hvalid : invalidKey ignoreKeys var.name = false) (hname : var.name = k) : False := by
      rw [get_kept.2 ⟨var, hvar, hvalid, hname, rfl⟩] at hkept
      exact nomatch hkept
    obtain ⟨var, hvar, hin⟩ := mem_found he
    rcases hin with ⟨hvalid, rfl⟩ | hin
    · exact hnot hvar hvalid hk
    · cases hvalid : invalidKey ignoreKeys var.name with
      | false =>
        rw [injected_eq_nil (h.quiet var hvar hvalid)] at hin
        exact nomatch hin
      | true =>
        obtain ⟨kept, hkept', hvalid', hname⟩ := h.foreign var hvar hvalid e hin
        exact hnot hkept' hvalid' (hname.trans hk)
  | some v =>
    obtain ⟨var, hvar, hvalid, rfl, rfl⟩ := get_kept.1 hkept
    obtain ⟨before, behind, henv⟩ := List.append_of_mem hvar
    have hquiet := h.quiet var hvar hvalid
    have hdecodes := h.decodes before var behind henv hvalid
    rw [lastValue_of_mem henv hvalid (injected_eq_nil hquiet)]
    cases hlast : lastValue (behind.flatMap (Variable.injected ignoreKeys)) var.name with
    | none =>
      rw [hlast] at hdecodes
      exact congrArg some ((normalizeEscapeSequences_ownText hquiet).2 hdecodes)
    | some text =>
      rw [hlast] at hdecodes
      exact congrArg some hdecodes

/-- **The exported environment is read back exactly where it is legible**; the
parser never panics, and the decoder does on a lone double quote and on `$'`
alone. -/
theorem readBack_iff (ignoreKeys : List (List Char)) (env : Environment) (text : List Char) :
    (ReadBack ignoreKeys env ↔ Legible ignoreKeys env) ∧
      (parseExportP ignoreKeys text).isSome ∧
      ((normalizeEscapeSequences text).isSome ↔ text ≠ ['"'] ∧ text ≠ ['$', '\'']) :=
  ⟨⟨legible_of_readBack, readBack_of_legible⟩, parseExportP_eq text ▸ rfl,
    normalizeEscapeSequences_isSome_iff text⟩

/-- A variable of one control character, `$'\\001'`. -/
def controlVariable : Variable where
  name := ['C']
  value := [Char.ofNat 1]
  form := .ansi
  name_ne := by decide
  name_word := List.forall_mem_singleton.2 rfl
  value_text := by decide +kernel

/-- A variable whose second line looks like a declaration. -/
def twoLines : Variable where
  name := ['X']
  value := "\ndeclare -x Y=1".toList
  form := .doubleQuoted
  name_ne := by decide
  name_word := List.forall_mem_singleton.2 rfl
  value_text := by decide +kernel

/-- The decoder panics on a double quote, and neither variable is read back. -/
theorem not_readBack : normalizeEscapeSequences ['"'] = none ∧
    ¬ ReadBack defaultIgnoreKeys ⟨[controlVariable], List.nodup_singleton _⟩ ∧
    ¬ ReadBack defaultIgnoreKeys ⟨[twoLines], List.nodup_singleton _⟩ := by
  refine ⟨by decide, fun h => ?_, fun h => ?_⟩
  · have hdecodes := (legible_of_readBack h).decodes [] controlVariable [] rfl (by decide)
    exact absurd (hdecodes _ List.mem_cons_self) (by decide)
  · refine (legible_of_readBack h).quiet twoLines List.mem_cons_self (by decide) rfl ?_
    exact ⟨[], "Y=1".toList, rfl⟩

end Mise.ExportP
