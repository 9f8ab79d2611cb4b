/-
# When the exported environment is read back

`parse_export_p` takes every line that begins with `declare -x ` for a
declaration, and the lines up to the next one for its value (`parseExportP_eq`).
The lines of a double-quoted value are not told from declarations, a carriage
return in front of a line feed is taken for part of the line's end, and octal
escapes are not decoded; `readsBack_iff` says that nothing else goes wrong.
-/

import Mise.Env.ExportP
import Mise.Lib.Memmem

namespace Mise.ExportP

open Lib

variable {ignoreKeys : List (List Char)}

/-! ### Declarations -/

/-- A line that begins no declaration. -/
def goesOn (line : List Char) : Bool := (stripDeclare line).isNone

/-- The declarations in a list of lines whose keys are not rejected, each with
its value as it was printed. -/
def declarations (ignoreKeys : List (List Char)) :
    List (List Char) → List (List Char × List Char)
  | [] => []
  | line :: ls =>
    match (stripDeclare line).bind (splitOnce '=') with
    | none => declarations ignoreKeys ls
    | some (k, v) =>
      if invalidKey ignoreKeys k then declarations ignoreKeys ls
      else (k, v ++ joined (ls.takeWhile goesOn)) :: declarations ignoreKeys ls

/-- The map of pairs, the last of a key counting. -/
abbrev collect (m : BTreeMap (List Char) (List Char)) (l : List (List Char × List Char)) :
    BTreeMap (List Char) (List Char) :=
  l.foldl (fun m e => m.insert e.1 e.2) m

theorem insert_insert (m : BTreeMap (List Char) (List Char)) (k v w : List Char) :
    (m.insert k v).insert k w = m.insert k w := by
  refine Std.ExtTreeMap.ext_getElem? fun a => ?_
  rw [BTreeMap.get_insert, BTreeMap.get_insert, BTreeMap.get_insert]
  split <;> rfl

/-- The loop's state when the value of a key has been read up to `v`. -/
theorem foldlM_parseLine (ls : List (List Char)) (m : BTreeMap (List Char) (List Char)) :
    (∃ k, ls.foldlM (parseLine ignoreKeys) ⟨m, none⟩ =
      some ⟨collect m (declarations ignoreKeys ls), k⟩) ∧
    ∀ k v, ∃ k', ls.foldlM (parseLine ignoreKeys) ⟨m.insert k v, some k⟩ =
      some ⟨collect (m.insert k (v ++ joined (ls.takeWhile goesOn)))
        (declarations ignoreKeys ls), k'⟩ := by
  induction ls generalizing m with
  | nil =>
    refine ⟨⟨none, rfl⟩, fun k v => ⟨some k, ?_⟩⟩
    rw [List.takeWhile_nil, joined, List.flatMap_nil, List.append_nil]
    rfl
  | cons line ls ih =>
    cases hstrip : stripDeclare line with
    | none =>
      have hgoes : goesOn line = true := by rw [goesOn, hstrip, Option.isNone_none]
      have hdecl : declarations ignoreKeys (line :: ls) = declarations ignoreKeys ls := by
        rw [declarations, hstrip]
        rfl
      rw [hdecl, List.takeWhile_cons, if_pos hgoes]
      refine ⟨?_, fun k v => ?_⟩
      · obtain ⟨k', hk'⟩ := (ih m).1
        refine ⟨k', ?_⟩
        rw [List.foldlM_cons, parseLine, hstrip]
        exact hk'
      · obtain ⟨k', hk'⟩ := (ih m).2 k (v ++ '\n' :: line)
        refine ⟨k', ?_⟩
        have hget : (m.insert k v)[k]? = some v := by rw [BTreeMap.get_insert, if_pos rfl]
        rw [List.foldlM_cons, parseLine, hstrip]
        simp only [hget, Option.map_some, insert_insert]
        rw [joined, List.flatMap_cons]
        rw [List.append_assoc] at hk'
        exact hk'
    | some decl =>
      have hgoes : ¬ goesOn line = true := by
        rw [goesOn, hstrip, Option.isNone_some]
        exact Bool.false_ne_true
      -- a declaration is read alike whatever was read before it
      have hline (m' : BTreeMap (List Char) (List Char)) (key : Option (List Char)) :
          ∃ k', (line :: ls).foldlM (parseLine ignoreKeys) ⟨m', key⟩ =
            some ⟨collect m' (declarations ignoreKeys (line :: ls)), k'⟩ := by
        rw [List.foldlM_cons, parseLine, hstrip, declarations, hstrip]
        show ∃ k', ((match splitOnce '=' decl with
          | none => _
          | some (k, v) => _ : Option ParseState) >>= _) = _
        cases hsplit : splitOnce '=' decl with
        | none =>
          rw [Option.bind_some, hsplit]
          exact (ih m').1
        | some p =>
          rw [Option.bind_some, hsplit]
          cases hinvalid : invalidKey ignoreKeys p.1 with
          | true =>
            simp only [hinvalid, if_true]
            exact (ih m').1
          | false =>
            simp only [hinvalid, Bool.false_eq_true, if_false]
            exact (ih m').2 p.1 p.2
      rw [List.takeWhile_cons, if_neg hgoes]
      refine ⟨hline m none, fun k v => ?_⟩
      rw [joined, List.flatMap_nil, List.append_nil]
      exact hline _ (some k)

/-- **The parser never panics**: it collects the declarations of the text's
lines. -/
theorem parseExportP_eq (out : List Char) : parseExportP ignoreKeys out =
    some (collect ∅ (declarations ignoreKeys (lines out))) := by
  obtain ⟨k, hk⟩ := (@foldlM_parseLine ignoreKeys (lines out) ∅).1
  rw [parseExportP, hk]
  rfl

/-- What a list of pairs says of a key: the last pair counts. -/
def lastValue (l : List (List Char × List Char)) (k : List Char) : Option (List Char) :=
  l.reverse.lookup k

theorem lastValue_append (a b : List (List Char × List Char)) (k : List Char) :
    lastValue (a ++ b) k = (lastValue b k).or (lastValue a k) := by
  rw [lastValue, List.reverse_append, List.lookup_append]
  rfl

theorem lastValue_singleton (e : List Char × List Char) (k : List Char) :
    lastValue [e] k = if e.1 = k then some e.2 else none := by
  rw [lastValue, List.reverse_singleton, List.lookup_cons, List.lookup_nil]
  by_cases h : e.1 = k
  · rw [if_pos h, beq_iff_eq.2 h.symm]
  · rw [if_neg h, beq_eq_false_iff_ne.2 (Ne.symm h)]

theorem get_collect (m : BTreeMap (List Char) (List Char)) (l : List (List Char × List Char))
    (k : List Char) : (collect m l)[k]? = (lastValue l k).or m[k]? := by
  induction l using List.reverseRecOn with
  | nil => rfl
  | append_singleton l e ih =>
    rw [collect, List.foldl_append, List.foldl_cons, List.foldl_nil, BTreeMap.get_insert,
      lastValue_append, lastValue_singleton]
    split
    · rfl
    · rw [Option.none_or]
      exact ih

theorem mem_of_lastValue {l : List (List Char × List Char)} {k v : List Char}
    (h : lastValue l k = some v) : (k, v) ∈ l := by
  induction l using List.reverseRecOn with
  | nil => exact nomatch h
  | append_singleton l e ih =>
    rw [lastValue_append, lastValue_singleton] at h
    split at h
    · rename_i hk
      obtain rfl := Option.some.inj h
      exact List.mem_append_right l (List.mem_singleton.2 (Prod.ext hk.symm rfl))
    · exact List.mem_append_left _ (ih h)

theorem lastValue_eq_none_iff {l : List (List Char × List Char)} {k : List Char} :
    lastValue l k = none ↔ ∀ e ∈ l, e.1 ≠ k := by
  induction l using List.reverseRecOn with
  | nil => exact iff_of_true rfl fun e he => nomatch he
  | append_singleton l e ih =>
    rw [lastValue_append, lastValue_singleton, List.forall_mem_append, List.forall_mem_singleton,
      ← ih]
    split
    · rename_i hk
      exact iff_of_false (Option.some_ne_none _) fun h => h.2 hk
    · rename_i hk
      exact (and_iff_left hk).symm

/-! ### Escapes of double quotes -/

/-- The characters that are escaped in double quotes. -/
abbrev quotedChars : List Char := ['\\', '"', '$', '`']

/-- A text whose backslashes all stand in front of such a character. -/
inductive Plain : List Char → Prop
  | nil : Plain []
  | char {c : Char} {t : List Char} (hc : c ≠ '\\') (ht : Plain t) : Plain (c :: t)
  | escape {c : Char} {t : List Char} (hc : c ∈ quotedChars) (ht : Plain t) :
    Plain ('\\' :: c :: t)

theorem decodeEscapes_cons {c : Char} (hc : c ≠ '\\') (t : List Char) :
    decodeEscapes (c :: t) = c :: decodeEscapes t := by
  cases t with
  | nil => exact if_neg hc
  | cons val rest => exact if_neg hc

theorem escapeValue_of_mem {c : Char} (h : c ∈ quotedChars) : escapeValue c = [c] := by
  simp only [quotedChars, List.mem_cons, List.not_mem_nil, or_false] at h
  rcases h with rfl | rfl | rfl | rfl <;> rfl

theorem decodeEscapes_quoted {c : Char} (hc : c ∈ quotedChars) (t : List Char) :
    decodeEscapes ('\\' :: c :: t) = c :: decodeEscapes t := by
  rw [decodeEscapes, if_pos rfl, escapeValue_of_mem hc, List.singleton_append]

theorem Plain.append {a b : List Char} (ha : Plain a) (hb : Plain b) : Plain (a ++ b) := by
  induction ha with
  | nil => exact hb
  | char hc _ ih => exact .char hc ih
  | escape hc _ ih => exact .escape hc ih

/-- A character that is not escaped parts a plain text into two. -/
theorem plain_append_cons {a b : List Char} {d : Char} (hd : d ∉ quotedChars) :
    Plain (a ++ d :: b) ↔ Plain a ∧ Plain b := by
  have hd' : d ≠ '\\' := fun h => hd (h ▸ List.mem_cons_self)
  refine ⟨fun h => ?_, fun h => h.1.append (.char hd' h.2)⟩
  generalize hx : a ++ d :: b = x at h
  induction h generalizing a with
  | nil => exact absurd hx (by simp)
  | char hc ht ih =>
    cases a with
    | nil =>
      obtain ⟨-, rfl⟩ := List.cons.inj hx
      exact ⟨.nil, ht⟩
    | cons c a =>
      obtain ⟨rfl, htail⟩ := List.cons.inj hx
      exact (ih htail).imp_left (.char hc)
  | escape hc ht ih =>
    match a with
    | [] => exact absurd (List.cons.inj hx).1 hd'
    | [_] => exact absurd ((List.cons.inj (List.cons.inj hx).2).1 ▸ hc) hd
    | _ :: _ :: a =>
      obtain ⟨hback, htail⟩ := List.cons.inj hx
      obtain ⟨rfl, hrest⟩ := List.cons.inj htail
      rw [hback]
      exact (ih hrest).imp_left (.escape hc)

theorem plain_quoteChars (v : List Char) : Plain (v.flatMap quoteChar) := by
  induction v with
  | nil => exact .nil
  | cons c v ih =>
    rw [List.flatMap_cons, quoteChar]
    split
    · rename_i hc
      exact .escape hc ih
    · rename_i hc
      exact .char (fun h => hc (h ▸ List.mem_cons_self)) ih

/-- What double quotes escape is decoded. -/
theorem decodeEscapes_quoteChars (v t : List Char) :
    decodeEscapes (v.flatMap quoteChar ++ t) = v ++ decodeEscapes t := by
  induction v with
  | nil => rfl
  | cons c v ih =>
    rw [List.flatMap_cons, quoteChar, List.append_assoc]
    split
    · rename_i hc
      exact (decodeEscapes_quoted hc _).trans (congrArg (c :: ·) ih)
    · rename_i hc
      have hne : c ≠ '\\' := fun h => hc (h ▸ List.mem_cons_self)
      exact (decodeEscapes_cons hne _).trans (congrArg (c :: ·) ih)

/-- Text without such characters stands at the front of a plain text exactly
where it stands at the front of what that is decoded to. -/
theorem prefix_decodeEscapes_iff {p t : List Char} (hp : ∀ c ∈ p, c ∉ quotedChars)
    (ht : Plain t) : p <+: decodeEscapes t ↔ p <+: t := by
  induction ht generalizing p with
  | nil => rfl
  | char hc _ ih =>
    rw [decodeEscapes_cons hc]
    cases p with
    | nil => exact iff_of_true List.nil_prefix List.nil_prefix
    | cons a p =>
      rw [List.cons_prefix_cons, List.cons_prefix_cons,
        ih fun b hb => hp b (List.mem_cons_of_mem a hb)]
  | escape hc _ _ =>
    rw [decodeEscapes_quoted hc]
    cases p with
    | nil => exact iff_of_true List.nil_prefix List.nil_prefix
    | cons a p =>
      have ha := hp a List.mem_cons_self
      rw [List.cons_prefix_cons, List.cons_prefix_cons]
      exact iff_of_false (fun h => ha (h.1 ▸ hc)) fun h => ha (h.1 ▸ List.mem_cons_self)

/-- ... and inside it. -/
theorem infix_decodeEscapes_iff {p t : List Char} (hp : ∀ c ∈ p, c ∉ quotedChars)
    (hne : p ≠ []) (ht : Plain t) : p <:+: decodeEscapes t ↔ p <:+: t := by
  induction ht with
  | nil => rfl
  | char hc ht ih =>
    have hfront := prefix_decodeEscapes_iff hp (.char hc ht)
    rw [decodeEscapes_cons hc] at hfront ⊢
    rw [List.infix_cons_iff, List.infix_cons_iff, hfront, ih]
  | @escape c t hc ht ih =>
    have hfront := prefix_decodeEscapes_iff hp (.escape hc ht)
    rw [decodeEscapes_quoted hc] at hfront ⊢
    have hback : ¬ p <+: c :: t := fun h => by
      obtain ⟨a, p, rfl⟩ := List.exists_cons_of_ne_nil hne
      exact hp a List.mem_cons_self ((List.cons_prefix_cons.1 h).1 ▸ hc)
    rw [List.infix_cons_iff, List.infix_cons_iff, List.infix_cons_iff, hfront, ih]
    exact ⟨fun h => h.imp_right .inr, fun h => h.imp_right fun h => h.resolve_left hback⟩

/-! ### Lines that look like declarations -/

/-- The front of a declaration on a line of its own. -/
abbrev nextDeclaration : List Char := '\n' :: declareX

theorem notMem_quotedChars : ∀ c ∈ nextDeclaration, c ∉ quotedChars := by
  simp [nextDeclaration, declareX, quotedChars]

theorem goesOn_iff {l : List Char} : goesOn l ↔ ¬ declareX <+: l := by
  rw [goesOn, stripDeclare]
  split <;> rename_i h
  · exact iff_of_false Bool.false_ne_true (not_not_intro h)
  · exact iff_of_true rfl h

/-- A carriage return at the end of a line does not make it a declaration. -/
theorem declareX_prefix_stripCr {l : List Char} : declareX <+: stripCr l ↔ declareX <+: l := by
  cases hends : endsCr l with
  | false => rw [stripCr_eq_self.2 hends]
  | true =>
    have hl := eq_concat_of_endsCr hends
    constructor
    · intro h
      rw [hl]
      exact h.trans (List.prefix_append _ _)
    · intro h
      rw [hl] at h
      exact prefix_of_prefix_append_cons (by decide) h

/-- A text is a declaration exactly where its first line is. -/
theorem declareX_prefix_iff {text : List Char} : declareX <+: text ↔
    ∃ l ∈ (lines text).head?, ¬ goesOn l := by
  induction text using lineInduction with
  | nil => exact iff_of_false (by decide) fun ⟨l, hl, _⟩ => nomatch hl
  | last l hne hl =>
    rw [lines_last hl hne]
    simp only [List.head?_cons, Option.mem_some_iff, exists_eq_left', goesOn_iff, not_not]
  | line l rest hl ih =>
    rw [lines_line hl]
    simp only [List.head?_cons, Option.mem_some_iff, exists_eq_left', goesOn_iff, not_not]
    refine Iff.trans ⟨fun h => prefix_of_prefix_append_cons (by decide) h,
      fun h => h.trans (List.prefix_append _ _)⟩ (@declareX_prefix_stripCr l).symm

/-- A text holds the front of a declaration behind a line feed exactly where a
line behind its first is one. -/
theorem goesOn_lines_iff {text : List Char} :
    (∀ l ∈ (lines text).tail, goesOn l) ↔ ¬ nextDeclaration <:+: text := by
  have hnone {l : List Char} (hl : '\n' ∉ l) : ¬ nextDeclaration <:+: l := fun h =>
    hl (h.subset List.mem_cons_self)
  induction text using lineInduction with
  | nil => exact iff_of_true (fun l hl => nomatch hl) (hnone List.not_mem_nil)
  | last l hne hl =>
    rw [lines_last hl hne]
    exact iff_of_true (fun l hl => nomatch hl) (hnone hl)
  | line l rest hl ih =>
    have hnext : nextDeclaration <:+: l ++ '\n' :: rest ↔
        declareX <+: rest ∨ nextDeclaration <:+: rest := by
      clear ih
      induction l with
      | nil =>
        rw [List.nil_append, List.infix_cons_iff, List.cons_prefix_cons, and_iff_right rfl]
      | cons c l ihl =>
        rw [List.mem_cons, not_or] at hl
        rw [List.cons_append, List.infix_cons_iff, ihl hl.2, List.cons_prefix_cons]
        exact or_iff_right fun h => hl.1 h.1
    have hrest : ¬ nextDeclaration <:+: rest ↔ ∀ l ∈ (lines rest).tail, goesOn l := ih.symm
    rw [hnext, not_or, hrest, lines_line hl, List.tail_cons, declareX_prefix_iff]
    cases lines rest with
    | nil => simp
    | cons f tl => simp

theorem quiet_joined {v : List Char} {ls : List (List Char)} (hv : '\n' ∉ v)
    (hls : ∀ l ∈ ls, '\n' ∉ l ∧ goesOn l) : ¬ nextDeclaration <:+: v ++ joined ls := by
  induction ls generalizing v with
  | nil =>
    intro h
    rw [joined, List.flatMap_nil, List.append_nil] at h
    exact hv (h.subset List.mem_cons_self)
  | cons l ls ih =>
    obtain ⟨⟨hl, hgoes⟩, hls⟩ := List.forall_mem_cons.1 hls
    have hcons : joined (l :: ls) = '\n' :: (l ++ joined ls) := List.flatMap_cons
    rw [hcons]
    have hfront : ¬ declareX <+: l ++ joined ls := fun h => by
      refine goesOn_iff.1 hgoes ?_
      cases ls with
      | nil => rwa [joined, List.flatMap_nil, List.append_nil] at h
      | cons m ls => exact prefix_of_prefix_append_cons (by decide) h
    induction v with
    | nil =>
      rw [List.nil_append, List.infix_cons_iff, List.cons_prefix_cons, and_iff_right rfl, not_or]
      exact ⟨hfront, ih hl hls⟩
    | cons c v ihv =>
      rw [List.mem_cons, not_or] at hv
      rw [List.cons_append, List.infix_cons_iff, List.cons_prefix_cons, not_or]
      exact ⟨fun h => hv.1 h.1, ihv hv.2⟩

/-! ### The lines of a declaration -/

theorem declarations_cons_of_goesOn {line : List Char} (h : goesOn line)
    (ls : List (List Char)) :
    declarations ignoreKeys (line :: ls) = declarations ignoreKeys ls := by
  rw [declarations, Option.isNone_iff_eq_none.1 h]
  rfl

/-- Declarations are read one by one. -/
theorem declarations_append {a b : List (List Char)} (hb : ∀ l ∈ b.head?, ¬ goesOn l) :
    declarations ignoreKeys (a ++ b) = declarations ignoreKeys a ++ declarations ignoreKeys b := by
  have htake (ls : List (List Char)) : (ls ++ b).takeWhile goesOn = ls.takeWhile goesOn := by
    induction ls with
    | nil =>
      cases b with
      | nil => rfl
      | cons l b => rw [List.nil_append, List.takeWhile_cons, if_neg (hb l rfl), List.takeWhile_nil]
    | cons l ls ih => rw [List.cons_append, List.takeWhile_cons, List.takeWhile_cons, ih]
  induction a with
  | nil => rfl
  | cons l a ih =>
    rw [List.cons_append, declarations, declarations, htake, ih]
    cases (stripDeclare l).bind (splitOnce '=') with
    | none => rfl
    | some p =>
      show (if _ then _ else _) = (if _ then _ else _) ++ _
      split
      · rfl
      · rfl

namespace Variable

variable {var : Variable}

theorem notMem_name {c : Char} (hc : isNameChar c = false) : c ∉ var.name := fun h => by
  rw [var.name_word c h] at hc
  exact nomatch hc

theorem printed_ne_nil : var.printed ≠ [] := by
  rw [printed]
  split <;> exact List.cons_ne_nil _ _

theorem getLast?_printed : var.printed.getLast? = some '"' ∨ var.printed.getLast? = some '\'' := by
  rw [printed]
  split
  · exact .inl (by rw [← List.cons_append, List.getLast?_concat])
  · exact .inr (by rw [← List.cons_append, ← List.cons_append, List.getLast?_concat])

theorem endsCr_printed : endsCr var.printed = false := by
  rw [endsCr]
  rcases @getLast?_printed var with h | h <;> rw [h] <;> decide

theorem getLast?_printed_ne : var.printed.getLast? ≠ some '\n' := by
  rcases @getLast?_printed var with h | h <;> rw [h] <;> decide

/-- The value of the declaration that the reader finds in a variable's lines. -/
def ownText (var : Variable) : List Char :=
  match lines var.printed with
  | [] => []
  | f :: tl => f ++ joined (tl.takeWhile goesOn)

/-- What the reader takes for declarations in the lines of a printed value behind
its first. -/
def injected (ignoreKeys : List (List Char)) (var : Variable) : List (List Char × List Char) :=
  declarations ignoreKeys (lines var.printed).tail

theorem lines_declaration (var : Variable) : ∃ f tl, lines var.printed = f :: tl ∧
    lines var.declaration = (declareX ++ (var.name ++ '=' :: f)) :: tl := by
  obtain ⟨f, tl, hlines, -⟩ := lines_eq printed_ne_nil getLast?_printed_ne
  refine ⟨f, tl, hlines, ?_⟩
  have hfront : '\n' ∉ declareX ++ (var.name ++ ['=']) := by
    have hname := @notMem_name var '\n' (by decide)
    simp [declareX, hname]
  have hcr : endsCr (declareX ++ (var.name ++ ['='])) = false := by
    rw [endsCr_append (List.append_ne_nil_of_right_ne_nil _ (List.cons_ne_nil _ _)),
      endsCr_append (List.cons_ne_nil _ _)]
    decide
  have h := lines_front hfront hcr printed_ne_nil getLast?_printed_ne endsCr_printed hlines
  simpa [declaration] using h

/-- **What the reader finds in the lines of a declaration.** -/
theorem declarations_declaration (var : Variable) :
    declarations ignoreKeys (lines var.declaration) =
      (if invalidKey ignoreKeys var.name then [] else [(var.name, var.ownText)]) ++
        var.injected ignoreKeys := by
  obtain ⟨f, tl, hlines, hdecl⟩ := lines_declaration var
  have hstrip : stripDeclare (declareX ++ (var.name ++ '=' :: f)) =
      some (var.name ++ '=' :: f) := by
    rw [stripDeclare, if_pos (List.prefix_append _ _), List.drop_left]
  have hsplit := splitOnce_append (@notMem_name var '=' (by decide)) f
  rw [hdecl, declarations, hstrip, Option.bind_some, hsplit, injected, ownText, hlines]
  show (if _ then _ else _) = _
  split
  · rfl
  · rfl

theorem ended_declaration (var : Variable) : Ended var.declaration := by
  refine .inr ?_
  have h : var.declaration = (declareX ++ (var.name ++ '=' :: var.printed)) ++ ['\n'] := by
    simp [declaration]
  rw [h, List.getLast?_concat]

end Variable

/-- **What the reader finds in the printed environment**: of every variable its
own declaration, unless the key is rejected, and what stands in its value. -/
theorem declarations_exportP (env : Environment) :
    declarations ignoreKeys (lines (exportP env)) = env.vars.flatMap fun var =>
      (if invalidKey ignoreKeys var.name then [] else [(var.name, var.ownText)]) ++
        var.injected ignoreKeys := by
  rw [exportP]
  induction env.vars with
  | nil => rfl
  | cons var vars ih =>
    rw [List.flatMap_cons, List.flatMap_cons, lines_append var.ended_declaration, ← ih,
      ← Variable.declarations_declaration]
    refine declarations_append fun l hl => ?_
    cases vars with
    | nil => exact nomatch hl
    | cons next vars =>
      obtain ⟨f, tl, -, hlines⟩ := next.lines_declaration
      rw [List.flatMap_cons, lines_append next.ended_declaration, hlines] at hl
      obtain rfl := Option.some.inj hl
      rw [goesOn_iff, not_not]
      exact List.prefix_append _ _

/-! ### Values that were printed in double quotes -/

theorem plain_stripCr {l : List Char} (h : Plain l) : Plain (stripCr l) := by
  cases hends : endsCr l with
  | false => rwa [stripCr_eq_self.2 hends]
  | true =>
    rw [eq_concat_of_endsCr hends] at h
    exact ((plain_append_cons (by decide)).1 h).1

theorem plain_of_mem_lines {text l : List Char} (h : Plain text) (hl : l ∈ lines text) :
    Plain l := by
  induction text using lineInduction with
  | nil => exact nomatch hl
  | last m hne hm =>
    rw [lines_last hm hne, List.mem_singleton] at hl
    exact hl ▸ h
  | line m rest hm ih =>
    obtain ⟨hplain, hrest⟩ := (plain_append_cons (by decide)).1 h
    rw [lines_line hm] at hl
    rcases List.mem_cons.1 hl with rfl | hl
    · exact plain_stripCr hplain
    · exact ih hrest hl

theorem plain_joined {ls : List (List Char)} (h : ∀ l ∈ ls, Plain l) : Plain (joined ls) := by
  induction ls with
  | nil => exact .nil
  | cons l ls ih =>
    obtain ⟨hl, hls⟩ := List.forall_mem_cons.1 h
    exact .char (by decide) (hl.append (ih hls))

theorem joined_takeWhile_quiet {v : List Char} {ls : List (List Char)}
    (hv : Plain v ∧ '\n' ∉ v) (hls : ∀ l ∈ ls, Plain l ∧ '\n' ∉ l) :
    Plain (v ++ joined (ls.takeWhile goesOn)) ∧
      ¬ nextDeclaration <:+: v ++ joined (ls.takeWhile goesOn) := by
  have htake {l : List Char} (hl : l ∈ ls.takeWhile goesOn) : Plain l ∧ '\n' ∉ l :=
    hls l ((List.takeWhile_prefix _).subset hl)
  exact ⟨hv.1.append (plain_joined fun l hl => (htake hl).1),
    quiet_joined hv.2 fun l hl => ⟨(htake hl).2, List.mem_takeWhile_imp hl⟩⟩

/-- The declarations in lines that were printed in double quotes hold no other. -/
theorem quiet_of_mem_declarations {ls : List (List Char)} (hls : ∀ l ∈ ls, Plain l ∧ '\n' ∉ l)
    {e : List Char × List Char} (he : e ∈ declarations ignoreKeys ls) :
    Plain e.2 ∧ ¬ nextDeclaration <:+: e.2 := by
  induction ls with
  | nil => exact nomatch he
  | cons l ls ih =>
    obtain ⟨⟨hplain, hl⟩, hls⟩ := List.forall_mem_cons.1 hls
    rw [declarations] at he
    cases hsplit : (stripDeclare l).bind (splitOnce '=') with
    | none =>
      rw [hsplit] at he
      exact ih hls he
    | some p =>
      rw [hsplit] at he
      change e ∈ (if _ then _ else _) at he
      split at he
      · exact ih hls he
      · rcases List.mem_cons.1 he with rfl | he
        · obtain ⟨decl, hdecl, hp⟩ := Option.bind_eq_some_iff.1 hsplit
          rw [stripDeclare] at hdecl
          split at hdecl
          · rename_i hfront
            obtain rfl := Option.some.inj hdecl
            have hline := List.prefix_append_drop hfront
            rw [splitOnce_eq_some hp, ← List.append_assoc] at hline
            rw [hline] at hplain hl
            refine joined_takeWhile_quiet ⟨((plain_append_cons (by decide)).1 hplain).2, ?_⟩ hls
            exact fun h => hl (List.mem_append_right _ (List.mem_cons_of_mem _ h))
          · exact nomatch hdecl
        · exact ih hls he

/-- A plain text in front of a double quote ends in a backslash at most. -/
theorem decodeEscapes_of_plain_concat {inner : List Char} (h : Plain (inner ++ ['"'])) :
    ∃ t, Plain t ∧ t <+: inner ∧ decodeEscapes inner = decodeEscapes t := by
  generalize hx : inner ++ ['"'] = x at h
  induction h generalizing inner with
  | nil => exact absurd hx (by simp)
  | @char c t hc ht ih =>
    cases inner with
    | nil => exact ⟨[], .nil, List.nil_prefix, rfl⟩
    | cons d inner =>
      obtain ⟨rfl, htail⟩ := List.cons.inj hx
      obtain ⟨t', ht', hfront, hdecode⟩ := ih htail
      refine ⟨d :: t', .char hc ht', List.cons_prefix_cons.2 ⟨rfl, hfront⟩, ?_⟩
      rw [decodeEscapes_cons hc, decodeEscapes_cons hc, hdecode]
  | @escape c t hc ht ih =>
    match inner with
    | [] => exact ⟨[], .nil, List.nil_prefix, rfl⟩
    | [d] =>
      obtain ⟨rfl, -⟩ := List.cons.inj hx
      exact ⟨[], .nil, List.nil_prefix, rfl⟩
    | d :: d' :: inner =>
      obtain ⟨hd, htail⟩ := List.cons.inj hx
      obtain ⟨hd', hrest⟩ := List.cons.inj htail
      obtain ⟨t', ht', hfront, hdecode⟩ := ih hrest
      rw [hd, hd']
      refine ⟨'\\' :: c :: t', .escape hc ht',
        List.cons_prefix_cons.2 ⟨rfl, List.cons_prefix_cons.2 ⟨rfl, hfront⟩⟩, ?_⟩
      rw [decodeEscapes_quoted hc, decodeEscapes_quoted hc, hdecode]

theorem normalizeEscapeSequences_double (inner : List Char) :
    normalizeEscapeSequences ('"' :: (inner ++ ['"'])) = some (decodeEscapes inner) := by
  have hlast : ('"' :: (inner ++ ['"'])).getLast? = some '"' := by
    rw [← List.cons_append, List.getLast?_concat]
  have hslice : slice 1 ('"' :: (inner ++ ['"'])) = some inner := by
    rw [slice, if_pos (by simp), ← List.cons_append, List.dropLast_concat]
    rfl
  rw [normalizeEscapeSequences, if_pos ⟨rfl, hlast⟩, hslice, Option.map_some]

theorem normalizeEscapeSequences_ansi (inner : List Char) :
    normalizeEscapeSequences ('$' :: '\'' :: (inner ++ ['\''])) = some (decodeEscapes inner) := by
  have hlast : ('$' :: '\'' :: (inner ++ ['\''])).getLast? = some '\'' := by
    rw [← List.cons_append, ← List.cons_append, List.getLast?_concat]
  have hslice : slice 2 ('$' :: '\'' :: (inner ++ ['\''])) = some inner := by
    rw [slice, if_pos (by simp), ← List.cons_append, ← List.cons_append, List.dropLast_concat]
    rfl
  rw [normalizeEscapeSequences, if_neg fun h => absurd h.1 (by simp),
    if_pos ⟨⟨inner ++ ['\''], rfl⟩, hlast⟩, hslice, Option.map_some]

/-- A text that ends with a character other than its first one is the front, an
inner part and that character. -/
theorem exists_inner {front text : List Char} {d : Char} (hfront : front <+: text)
    (hlast : text.getLast? = some d) (hlen : front.length < text.length) :
    ∃ inner, text = front ++ (inner ++ [d]) := by
  obtain ⟨rest, rfl⟩ := hfront
  have hne : rest ≠ [] := by
    rintro rfl
    simp at hlen
  rw [List.getLast?_append_of_ne_nil _ hne] at hlast
  exact ⟨rest.dropLast, congrArg (front ++ ·) (List.dropLast_append_getLast? d hlast).symm⟩

/-- **What the decoder takes off a text:** the quotes around it, those of the
`$'...'` form, or nothing.  It panics where there is one quote only, or only the
front of that form. -/
theorem normalizeEscapeSequences_cases (text : List Char) :
    ((text = ['"'] ∨ text = ['$', '\'']) ∧ normalizeEscapeSequences text = none) ∨
    (∃ inner, text = '"' :: (inner ++ ['"']) ∧
      normalizeEscapeSequences text = some (decodeEscapes inner)) ∨
    (∃ inner, text = '$' :: '\'' :: (inner ++ ['\'']) ∧
      normalizeEscapeSequences text = some (decodeEscapes inner)) ∨
    (text ≠ ['"'] ∧ text ≠ ['$', '\''] ∧
      normalizeEscapeSequences text = some (decodeEscapes text)) := by
  by_cases hdouble : text.head? = some '"' ∧ text.getLast? = some '"'
  · obtain ⟨rest, rfl⟩ := List.head?_eq_some_iff.1 hdouble.1
    by_cases hrest : rest = []
    · subst hrest
      exact .inl ⟨.inl rfl, by decide⟩
    · have hlen : 1 < ('"' :: rest).length := Nat.succ_lt_succ (List.length_pos_iff.2 hrest)
      obtain ⟨inner, hinner⟩ := @exists_inner ['"'] ('"' :: rest) '"' ⟨rest, rfl⟩ hdouble.2 hlen
      rw [hinner]
      exact .inr (.inl ⟨inner, rfl, normalizeEscapeSequences_double inner⟩)
  · by_cases hansi : ['$', '\''] <+: text ∧ text.getLast? = some '\''
    · by_cases hlen : 2 < text.length
      · obtain ⟨inner, hinner⟩ := exists_inner hansi.1 hansi.2 hlen
        rw [hinner]
        exact .inr (.inr (.inl ⟨inner, rfl, normalizeEscapeSequences_ansi inner⟩))
      · have hle : text.length ≤ ['$', '\''].length := Nat.le_of_not_lt hlen
        obtain rfl := (hansi.1.eq_of_length_le hle).symm
        exact .inl ⟨.inr rfl, by decide⟩
    · refine .inr (.inr (.inr ⟨fun h => hdouble (h ▸ ⟨rfl, rfl⟩), fun h => hansi ?_, ?_⟩))
      · rw [h]
        exact ⟨List.prefix_rfl, rfl⟩
      · rw [normalizeEscapeSequences, if_neg hdouble, if_neg hansi]

theorem normalizeEscapeSequences_isSome_iff (text : List Char) :
    (normalizeEscapeSequences text).isSome ↔ text ≠ ['"'] ∧ text ≠ ['$', '\''] := by
  rcases normalizeEscapeSequences_cases text with ⟨htext, h⟩ | ⟨inner, rfl, h⟩ |
    ⟨inner, rfl, h⟩ | ⟨hdouble, hansi, h⟩
  · rw [h]
    refine iff_of_false (Bool.false_ne_true) fun hne => ?_
    exact htext.elim hne.1 hne.2
  · rw [h]
    exact iff_of_true rfl (by simp)
  · rw [h]
    exact iff_of_true rfl (by simp)
  · rw [h]
    exact iff_of_true rfl ⟨hdouble, hansi⟩

/-- A text that holds no other declaration is not decoded to one that does. -/
theorem quiet_of_normalizeEscapeSequences {text value : List Char} (hplain : Plain text)
    (hquiet : ¬ nextDeclaration <:+: text)
    (h : normalizeEscapeSequences text = some value) : ¬ nextDeclaration <:+: value := by
  have hdecode {t : List Char} (ht : Plain t) (hin : t <:+: text) :
      ¬ nextDeclaration <:+: decodeEscapes t := fun hnext =>
    hquiet (((infix_decodeEscapes_iff notMem_quotedChars (List.cons_ne_nil _ _) ht).1
      hnext).trans hin)
  rcases normalizeEscapeSequences_cases text with ⟨-, hnone⟩ | ⟨inner, rfl, hsome⟩ |
    ⟨inner, rfl, hsome⟩ | ⟨-, -, hsome⟩
  · exact absurd (hnone.symm.trans h) (Option.some_ne_none value).symm
  · obtain rfl := Option.some.inj (hsome.symm.trans h)
    cases hplain with
    | char _ hinner =>
      obtain ⟨t, ht, hfront, heq⟩ := decodeEscapes_of_plain_concat hinner
      rw [heq]
      exact hdecode ht ((hfront.trans (List.prefix_append _ _)).isInfix.trans
        (List.suffix_cons _ _).isInfix)
  · obtain rfl := Option.some.inj (hsome.symm.trans h)
    have hinner : Plain inner := by
      cases hplain with
      | char _ ht => cases ht with
        | char _ ht => exact ((plain_append_cons (by decide)).1 ht).1
    exact hdecode hinner ⟨['$', '\''], ['\''], rfl⟩
  · obtain rfl := Option.some.inj (hsome.symm.trans h)
    exact hdecode hplain List.infix_rfl

end Mise.ExportP
