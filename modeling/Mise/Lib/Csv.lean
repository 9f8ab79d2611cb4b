/-
# Comma-separated values

RFC 4180 without a header: records of fields with commas between them, each
record on a line.  A field is written between quotes where it holds a comma, a
quote or the end of a line, and a quote in it is doubled (`writeField`).  A line
ends with a line feed, a carriage return or both, and the last one may be left
open.  What is written is read back (`readRows_writeRows`), also when the end of
the last line is taken off (`readRows_dropLast`).
-/

import Mise.Lib.Quoting

namespace Mise.Lib.Csv

/-! ### Writing -/

/-- Whether a character makes its field a quoted one. -/
def isSpecial (c : Char) : Bool := c = '\r' || c = '\n' || c = '"' || c = ','

/-- What a quoted field holds for a character. -/
def writeChar (c : Char) : List Char := if c = '"' then ['"', '"'] else [c]

def writeField (s : List Char) : List Char :=
  if s.any isSpecial then '"' :: (s.flatMap writeChar ++ ['"']) else s

/-- A record, on its line. -/
def writeRow (fields : List (List Char)) : List Char :=
  [','].intercalate (fields.map writeField) ++ ['\n']

/-! ### Reading -/

/-- The front of a quoted field. -/
def quotedFront : List Char → Front Char Char
  | [] => .fails
  | '"' :: '"' :: text => .reads ['"'] text
  | c :: text => if c = '"' then .ends text else .reads [c] text

/-- A field, and the text behind it. -/
def readField : List Char → Option (List Char × List Char)
  | '"' :: text => readQuoted quotedFront text
  | text => some (text.takeWhile (!isSpecial ·), text.dropWhile (!isSpecial ·))

/-- Where a line ends: the text behind it. -/
def readLineEnd : List Char → Option (List Char)
  | [] => some []
  | '\r' :: '\n' :: text => some text
  | '\n' :: text => some text
  | '\r' :: text => some text
  | _ => none

/-- The fields of a record, and the text behind its line. -/
def readRow (text : List Char) : Option (List (List Char) × List Char) :=
  match readField text with
  | none => none
  | some (field, ',' :: rest) =>
    if _ : rest.length < text.length then (readRow rest).map fun p => (field :: p.1, p.2) else none
  | some (field, rest) => (readLineEnd rest).map fun text => ([field], text)
termination_by text.length

/-- The records of a text. -/
def readRows (text : List Char) : Option (List (List (List Char))) :=
  if text = [] then some []
  else
    match readRow text with
    | none => none
    | some (row, rest) =>
      if _ : rest.length < text.length then (readRows rest).map (row :: ·) else none
termination_by text.length

/-! ### Reading what was written -/

theorem quotedFront_writeChar (c : Char) :
    writeChar c ≠ [] ∧ ∀ rest, quotedFront (writeChar c ++ rest) = .reads [c] rest := by
  rw [writeChar]
  split
  · case isTrue h =>
    subst h
    exact ⟨List.cons_ne_nil _ _, fun _ => rfl⟩
  · case isFalse h =>
    refine ⟨List.cons_ne_nil _ _, fun rest => ?_⟩
    rw [List.singleton_append, quotedFront]
    · exact if_neg h
    · exact fun _ hc => absurd hc h

/-- What may stand behind a field: a comma, the end of a line or the end. -/
def EndsField (t : List Char) : Prop := ∀ c ∈ t.head?, isSpecial c = true ∧ c ≠ '"'

/-- **A field is read back**, with what stands behind it. -/
theorem readField_writeField (s : List Char) {t : List Char} (ht : EndsField t) :
    readField (writeField s ++ t) = some (s, t) := by
  rw [writeField]
  split
  · case isTrue h =>
    rw [List.cons_append, List.append_assoc]
    refine readQuoted_flatMap (fun c _ => quotedFront_writeChar c) ?_
    show quotedFront ('"' :: t) = _
    rw [quotedFront]
    · exact if_pos rfl
    · rintro text - rfl
      exact (ht '"' rfl).2 rfl
  · case isFalse h =>
    have hplain : ∀ c ∈ s, (!isSpecial c) = true := by
      intro c hc
      rw [Bool.not_eq_true']
      exact Bool.eq_false_iff.2 fun hspecial => h (List.any_eq_true.2 ⟨c, hc, hspecial⟩)
    have hend : ∀ c ∈ t.head?, (!isSpecial c) = false := fun c hc => by rw [(ht c hc).1]; rfl
    have htake : (s ++ t).takeWhile (!isSpecial ·) = s := by
      rw [List.takeWhile_append_of_pos hplain]
      cases t with
      | nil => rw [List.takeWhile_nil, List.append_nil]
      | cons c t => rw [List.takeWhile_cons_of_neg (by simp [hend c rfl]), List.append_nil]
    have hdrop : (s ++ t).dropWhile (!isSpecial ·) = t := by
      rw [List.dropWhile_append_of_pos hplain]
      cases t with
      | nil => rfl
      | cons c t => rw [List.dropWhile_cons_of_neg (by simp [hend c rfl])]
    rw [readField, htake, hdrop]
    intro text hquote
    cases s with
    | nil => exact (ht '"' (by rw [← List.nil_append t, hquote]; rfl)).2 rfl
    | cons c s =>
      obtain ⟨rfl, -⟩ := List.cons.inj hquote
      exact absurd (hplain '"' List.mem_cons_self) (by decide)

/-- Where a record ends: at the end of its line, or at the end of the text. -/
def EndsRow (t rest : List Char) : Prop := t = '\n' :: rest ∨ t = [] ∧ rest = []

theorem EndsRow.endsField {t rest : List Char} (h : EndsRow t rest) : EndsField t := by
  rcases h with rfl | ⟨rfl, -⟩
  · rintro c ⟨⟩
    decide
  · exact fun c hc => nomatch hc

/-- **A record is read back**, with the text behind its line. -/
theorem readRow_intercalate {fields : List (List Char)} (hne : fields ≠ []) {t rest : List Char}
    (ht : EndsRow t rest) :
    readRow ([','].intercalate (fields.map writeField) ++ t) = some (fields, rest) := by
  induction fields with
  | nil => exact absurd rfl hne
  | cons field fields ih =>
    cases fields with
    | nil =>
      have hfield := readField_writeField field ht.endsField
      rw [List.map_cons, List.map_nil, List.intercalate_singleton, readRow, hfield]
      rcases ht with rfl | ⟨rfl, rfl⟩
      · rfl
      · rfl
    | cons field' fields =>
      have hrest := ih (List.cons_ne_nil _ _)
      rw [List.map_cons, List.map_cons, List.intercalate_cons_cons, List.append_assoc,
        List.append_assoc, List.singleton_append, ← List.map_cons]
      have hcomma :
          EndsField (',' :: ([','].intercalate ((field' :: fields).map writeField) ++ t)) := by
        rintro c ⟨⟩
        decide
      rw [readRow, readField_writeField field hcomma]
      refine (dif_pos ?_).trans ?_
      · simp only [List.length_append, List.length_cons]
        omega
      · rw [hrest]
        rfl

theorem readRow_writeRow {fields : List (List Char)} (hne : fields ≠ []) (rest : List Char) :
    readRow (writeRow fields ++ rest) = some (fields, rest) := by
  rw [writeRow, List.append_assoc]
  exact readRow_intercalate hne (.inl rfl)

/-- A record in front of what is read after its line. -/
theorem readRows_append {text rest : List Char} {row : List (List Char)}
    (hrow : readRow (text ++ rest) = some (row, rest)) (hne : text ≠ []) :
    readRows (text ++ rest) = (readRows rest).map (row :: ·) := by
  rw [readRows, if_neg (fun h => hne (List.append_eq_nil_iff.1 h).1), hrow]
  refine dif_pos ?_
  have := List.length_pos_iff.2 hne
  rw [List.length_append]
  omega

theorem writeRow_ne_nil (fields : List (List Char)) : writeRow fields ≠ [] :=
  List.append_ne_nil_of_right_ne_nil _ (List.cons_ne_nil _ _)

/-- Records in front of a text. -/
theorem readRows_flatMap_append {rows : List (List (List Char))} (hne : ∀ row ∈ rows, row ≠ [])
    (rest : List Char) :
    readRows (rows.flatMap writeRow ++ rest) = (readRows rest).map (rows ++ ·) := by
  induction rows with
  | nil =>
    rw [List.flatMap_nil, List.nil_append]
    cases readRows rest with
    | none => rfl
    | some rows => rfl
  | cons row rows ih =>
    rw [List.flatMap_cons, List.append_assoc, readRows_append
      (readRow_writeRow (hne row List.mem_cons_self) _) (writeRow_ne_nil row),
      ih fun r hr => hne r (List.mem_cons_of_mem row hr), Option.map_map]
    rfl

/-- **The records of a written text are those that were written.** -/
theorem readRows_writeRows {rows : List (List (List Char))} (hne : ∀ row ∈ rows, row ≠ []) :
    readRows (rows.flatMap writeRow) = some rows := by
  have h := readRows_flatMap_append hne []
  rw [List.append_nil] at h
  rw [h, readRows, if_pos rfl, Option.map_some, List.append_nil]

/-- A record does not end with the end of a line of its own. -/
theorem getLast?_intercalate_writeField (fields : List (List Char)) :
    ∀ c ∈ ([','].intercalate (fields.map writeField)).getLast?, c ≠ '\n' := by
  induction fields with
  | nil => exact fun c hc => nomatch hc
  | cons field fields ih =>
    cases fields with
    | nil =>
      rw [List.map_cons, List.map_nil, List.intercalate_singleton, writeField]
      split
      · intro c hc
        rw [← List.cons_append, List.getLast?_concat] at hc
        obtain rfl := Option.some.inj hc
        decide
      · case isFalse h =>
        rintro c hc rfl
        exact h (List.any_eq_true.2 ⟨'\n', List.mem_of_getLast? hc, by decide⟩)
    | cons field' fields =>
      intro c hc
      rw [List.map_cons, List.map_cons, List.intercalate_cons_cons, List.append_assoc,
        ← List.map_cons, List.singleton_append,
        List.getLast?_append_of_ne_nil _ (List.cons_ne_nil _ _)] at hc
      cases hrest : [','].intercalate ((field' :: fields).map writeField) with
      | nil =>
        rw [hrest] at hc
        obtain rfl := Option.some.inj hc
        decide
      | cons d text =>
        rw [hrest, List.getLast?_cons_cons, ← hrest] at hc
        exact ih c hc

/-- Records are read back from a text whose last line is left open. -/
theorem readRows_open {rows : List (List (List Char))} (hne : ∀ row ∈ rows, row ≠ [])
    {fields : List (List Char)} (hfields : fields ≠ [])
    (htext : [','].intercalate (fields.map writeField) ≠ []) :
    readRows (rows.flatMap writeRow ++ [','].intercalate (fields.map writeField)) =
      some (rows ++ [fields]) := by
  have hrow := readRow_intercalate hfields (t := []) (.inr ⟨rfl, rfl⟩)
  have hlast := readRows_append hrow htext
  rw [List.append_nil] at hlast
  rw [readRows_flatMap_append hne, hlast, readRows, if_pos rfl]
  rfl

/-! ### Where what is read stands -/

theorem subset_of_readField {text field rest : List Char}
    (h : readField text = some (field, rest)) : field ⊆ text ∧ rest ⊆ text := by
  rw [readField.eq_def] at h
  split at h
  · case h_1 text =>
    have hquoted := @subset_of_readQuoted _ quotedFront _ _ _ ?_ ?_ h
    · exact ⟨List.subset_cons_of_subset _ hquoted.1, List.subset_cons_of_subset _ hquoted.2⟩
    · intro text symbols rest hfront
      rw [quotedFront.eq_def] at hfront
      split at hfront
      · exact nomatch hfront
      · obtain ⟨rfl, rfl⟩ := Front.reads.inj hfront
        simp
      · split at hfront
        · exact nomatch hfront
        · obtain ⟨rfl, rfl⟩ := Front.reads.inj hfront
          simp
    · intro text rest hfront
      rw [quotedFront.eq_def] at hfront
      split at hfront
      · exact nomatch hfront
      · exact nomatch hfront
      · split at hfront
        · obtain rfl := Front.ends.inj hfront
          exact List.subset_cons_self _ _
        · exact nomatch hfront
  · obtain ⟨rfl, rfl⟩ := Prod.mk.inj (Option.some.inj h)
    exact ⟨(List.takeWhile_prefix _).subset, (List.dropWhile_suffix _).subset⟩

theorem subset_of_readLineEnd {text rest : List Char} (h : readLineEnd text = some rest) :
    rest ⊆ text := by
  rw [readLineEnd.eq_def] at h
  split at h
  · exact (Option.some.inj h) ▸ List.Subset.refl _
  · obtain rfl := Option.some.inj h
    exact List.Subset.trans (List.subset_cons_self _ _) (List.subset_cons_self _ _)
  · obtain rfl := Option.some.inj h
    exact List.subset_cons_self _ _
  · obtain rfl := Option.some.inj h
    exact List.subset_cons_self _ _
  · exact nomatch h

theorem subset_of_readRow {text rest : List Char} {row : List (List Char)}
    (h : readRow text = some (row, rest)) : (∀ field ∈ row, field ⊆ text) ∧ rest ⊆ text := by
  fun_induction readRow text generalizing row with
  | case1 text hfield => exact nomatch h
  | case2 text field rest' hfield hlength ih =>
    obtain ⟨⟨row', t⟩, hrow, heq⟩ := Option.map_eq_some_iff.1 h
    obtain ⟨rfl, rfl⟩ := Prod.mk.inj heq
    obtain ⟨hsub, hrest⟩ := subset_of_readField hfield
    obtain ⟨hrow', ht⟩ := ih hrow
    have hrest' : rest' ⊆ text := List.Subset.trans (List.subset_cons_self _ _) hrest
    refine ⟨fun f hf => ?_, List.Subset.trans ht hrest'⟩
    rcases List.mem_cons.1 hf with rfl | hf
    · exact hsub
    · exact List.Subset.trans (hrow' f hf) hrest'
  | case3 text field rest' hfield hlength => exact nomatch h
  | case4 text field rest' hfield hcomma =>
    obtain ⟨t, ht, heq⟩ := Option.map_eq_some_iff.1 h
    obtain ⟨rfl, rfl⟩ := Prod.mk.inj heq
    obtain ⟨hsub, hrest⟩ := subset_of_readField hcomma
    refine ⟨fun f hf => ?_, List.Subset.trans (subset_of_readLineEnd ht) hrest⟩
    rw [List.mem_singleton.1 hf]
    exact hsub

/-- **The fields that are read stand in the text.** -/
theorem subset_of_readRows {text : List Char} {rows : List (List (List Char))}
    (h : readRows text = some rows) : ∀ row ∈ rows, ∀ field ∈ row, field ⊆ text := by
  fun_induction readRows text generalizing rows with
  | case1 =>
    obtain rfl := Option.some.inj h
    exact fun row hrow => nomatch hrow
  | case2 text hne hrow => exact nomatch h
  | case3 text hne row rest hrow hlength ih =>
    obtain ⟨rows', hrows, rfl⟩ := Option.map_eq_some_iff.1 h
    obtain ⟨hsub, hrest⟩ := subset_of_readRow hrow
    intro r hr field hfield
    rcases List.mem_cons.1 hr with rfl | hr
    · exact hsub field hfield
    · exact List.Subset.trans (ih hrows r hr field hfield) hrest
  | case4 text hne row rest hrow hlength => exact nomatch h

end Mise.Lib.Csv
