/-
# The lines that a merge writes

An entry's lines that are moved to an indent set the same key to the same value there
(`SetsKey.entryLine`), and the lines that replace an entry set its key to the value of the
other file (`setsKey_replacement`).
-/

import Mise.Merge.IniParts

namespace Mise.Ini

open Lib String

/-! ### Moved lines -/

theorem trimStart_eq (l : Line) : ∃ w, IsWhite w ∧ trimStart l = trimLine l ++ w := by
  obtain ⟨w, hw, hl⟩ := trimEnd_eq_append (trimStart l)
  exact ⟨w, hw, hl⟩

/-- The white space in front of a line that is moved. -/
theorem entryLine_eq {e : Entry} {line : Line} (hline : isBlank line = false) (indent : Line) :
    ∃ w, IsWhite w ∧ Doc.entryLine e indent line = indent ++ w ++ trimStart line ∧
      (indentation line = e.indent → w = []) ∧
      (e.indent < indentation line → 0 < utf8Len w) := by
  have hsplit : line = line.takeWhile isWhitespace ++ trimStart line :=
    (List.takeWhile_append_dropWhile (p := isWhitespace)).symm
  rw [Doc.entryLine, if_neg (Bool.eq_false_iff.1 hline)]
  cases h : splitAtByte line (min (indentation line) e.indent) with
  | none =>
    refine ⟨line.takeWhile isWhitespace, isWhite_takeWhile line, ?_, fun heq => ?_, fun hlt => ?_⟩
    · simp only [h, Option.map_none, Option.getD_none]
      rw [List.append_assoc, ← hsplit]
    · rw [← heq, Nat.min_self, splitAtByte_indentation] at h
      exact nomatch h
    · rw [← indentation_eq]
      omega
  | some parts =>
    obtain ⟨a, r⟩ := parts
    obtain ⟨hline, hlen⟩ := splitAtByte_eq_some h
    have hle : utf8Len a ≤ utf8Len (line.takeWhile isWhitespace) := by
      rw [hlen, ← indentation_eq]
      exact Nat.min_le_left _ _
    -- only white space comes off
    obtain ⟨w, hwhite, hr⟩ : ∃ w, line.takeWhile isWhitespace = a ++ w ∧
        r = w ++ trimStart line := by
      rcases List.append_eq_append_iff.1 (hsplit.symm.trans hline) with ⟨x, hx, hy⟩ | ⟨x, hx, hy⟩
      · rw [hx, utf8Len_append] at hle
        have hnil : x = [] := by
          by_contra hne
          have := utf8Len_pos hne
          omega
        subst hnil
        rw [List.append_nil] at hx
        exact ⟨[], by rw [hx, List.append_nil], by simpa using hy.symm⟩
      · exact ⟨x, hx, hy⟩
    have hcount : indentation line = utf8Len a + utf8Len w := by
      rw [indentation_eq, hwhite, utf8Len_append]
    refine ⟨w, fun c hc => ?_, ?_, fun heq => ?_, fun hlt => ?_⟩
    · exact isWhite_takeWhile line c (hwhite ▸ List.mem_append_right a hc)
    · simp only [h, Option.map_some, Option.getD_some]
      rw [hr, List.append_assoc]
    · by_contra hne
      have := utf8Len_pos hne
      rw [heq, Nat.min_self] at hlen
      omega
    · rw [Nat.min_eq_right hlt.le] at hlen
      omega

variable {e : Entry} {indent line : Line}

/-- A line that is moved says the same. -/
theorem trimLine_entryLine (hindent : IsWhite indent) (e : Entry) (line : Line) :
    trimLine (Doc.entryLine e indent line) = trimLine line := by
  cases hline : isBlank line with
  | true =>
    rw [Doc.entryLine, if_pos hline]
    exact (List.isEmpty_iff.1 hline).symm
  | false =>
    obtain ⟨w, hw, heq, -⟩ := entryLine_eq (e := e) hline indent
    rw [heq, trimLine_white_append (hindent.append hw), trimLine_trimStart]

theorem isSignificant_congr {l l' : Line} (h : trimLine l = trimLine l') :
    isSignificant l = isSignificant l' := by
  rw [isSignificant, isSignificant, h]

theorem isBlank_of_isSignificant (h : isSignificant line = true) : isBlank line = false := by
  rw [isSignificant, Bool.and_eq_true, Bool.not_eq_true'] at h
  exact h.1

theorem indentation_entryLine (hline : isSignificant line = true) (hindent : IsWhite indent) :
    (indentation line = e.indent →
      indentation (Doc.entryLine e indent line) = utf8Len indent) ∧
    (e.indent < indentation line →
      utf8Len indent < indentation (Doc.entryLine e indent line)) := by
  have hblank := isBlank_of_isSignificant hline
  have hne : trimLine line ≠ [] := fun h => by
    rw [isBlank, h] at hblank
    exact Bool.false_ne_true hblank.symm
  obtain ⟨w, hw, heq, hsame, hdeeper⟩ := entryLine_eq (e := e) hblank indent
  obtain ⟨w', hw', htext⟩ := trimStart_eq line
  have hlen : indentation (Doc.entryLine e indent line) = utf8Len indent + utf8Len w := by
    rw [heq, htext, ← List.append_assoc,
      indentation_append (hindent.append hw) (trimmed_trimLine line) hne, utf8Len_append]
  constructor
  · intro h
    rw [hlen, hsame h, utf8Len_nil, Nat.add_zero]
  · intro h
    have := hdeeper h
    omega

theorem foldl_addLine_entryLine (hindent : IsWhite indent) (e : Entry) (body : List Line)
    (v : Line × ℕ) : (body.map (Doc.entryLine e indent)).foldl addLine v = body.foldl addLine v := by
  rw [List.foldl_map]
  congr 1
  funext v line
  have htrim := trimLine_entryLine hindent e line
  rw [addLine, addLine, isSignificant_congr htrim, htrim]

theorem isBody_entryLine (hindent : IsWhite indent) {first value : Option Line}
    {body : List Line} (h : IsBody e.indent first body value) :
    IsBody (utf8Len indent) first (body.map (Doc.entryLine e indent)) value := by
  cases first with
  | none =>
    obtain ⟨rfl, rfl⟩ := h
    exact ⟨rfl, rfl⟩
  | some v =>
    obtain ⟨rfl, hdeeper⟩ := h
    constructor
    · rw [valueFrom, valueFrom, foldl_addLine_entryLine hindent]
    · intro l hl hsignificant
      obtain ⟨line, hline, rfl⟩ := List.mem_map.1 hl
      rw [isSignificant_congr (trimLine_entryLine hindent e line)] at hsignificant
      exact (indentation_entryLine hsignificant hindent).2 (hdeeper line hline hsignificant)

/-- **An entry's lines set its key at any indent.** -/
theorem SetsKey.entryLine {body : List Line} (h : SetsKey line body e.setting)
    (hindent : IsWhite indent) :
    SetsKey (Doc.entryLine e indent line) (body.map (Doc.entryLine e indent))
      { e.setting with indent := utf8Len indent } := by
  have htrim := trimLine_entryLine hindent e line
  constructor
  · rw [isSignificant_congr htrim]
    exact h.significant
  · rw [htrim]
    exact h.bracket
  · rw [htrim]
    exact h.key
  · exact h.named
  · exact (indentation_entryLine h.significant hindent).1 h.indent
  · rw [htrim]
    exact isBody_entryLine hindent h.body

/-! ### Lines that replace others -/

/-- A key as a line's text may begin with it. -/
structure IsKey (key : Line) : Prop where
  trimmed : Trimmed key
  named : key ≠ []
  bracket : key.head? ≠ some '['
  comment : startsComment key = false
  delimiter : ∀ c ∈ key, isDelimiter c = false

variable {key gap after w : Line} {d : Char}

theorem not_isWhitespace_of_isDelimiter (hd : isDelimiter d = true) : isWhitespace d = false := by
  by_contra hwhite
  rw [isDelimiter_of_isWhitespace (Bool.not_eq_false _ ▸ hwhite)] at hd
  exact Bool.false_ne_true hd

theorem not_isWhitespace_of_last_trimEnd {l : Line} {c : Char} (h : c ∈ (trimEnd l).getLast?) :
    isWhitespace c = false := by
  rw [trimEnd, List.getLast?_reverse] at h
  exact head?_dropWhile h

/-- What is read in a text that begins with a key. -/
theorem IsKey.text (hkey : IsKey key) {m : Line} (hm : Trimmed (key ++ m)) (hw : IsWhite w)
    {w' : Line} (hw' : IsWhite w') (hline : line = w ++ (key ++ m) ++ w') :
    trimLine line = key ++ m ∧ isSignificant line = true ∧ (trimLine line).head? ≠ some '[' ∧
      indentation line = utf8Len w := by
  obtain ⟨c, key, rfl⟩ := List.exists_cons_of_ne_nil hkey.named
  have htrim : trimLine line = c :: key ++ m := by
    rw [hline, trimLine_append hw hw' hm]
  refine ⟨htrim, ?_, ?_, ?_⟩
  · rw [isSignificant, htrim]
    have hcomment := hkey.comment
    rw [startsComment, List.head?_cons] at hcomment
    rw [startsComment, List.cons_append, List.head?_cons, hcomment]
    rfl
  · rw [htrim]
    exact hkey.bracket
  · rw [hline, indentation_append hw hm (by simp)]

/-- What is read in a line with a key and a delimiter. -/
theorem IsKey.delimited (hkey : IsKey key) (hw : IsWhite w) (hgap : IsWhite gap)
    (hd : isDelimiter d = true) :
    isSignificant (w ++ key ++ gap ++ d :: after) = true ∧
      (trimLine (w ++ key ++ gap ++ d :: after)).head? ≠ some '[' ∧
      keyOf (trimLine (w ++ key ++ gap ++ d :: after)) = key ∧
      valueOf (trimLine (w ++ key ++ gap ++ d :: after)) = some (trimLine after) ∧
      indentation (w ++ key ++ gap ++ d :: after) = utf8Len w := by
  obtain ⟨w', hw', hafter⟩ := trimEnd_eq_append after
  have hline : w ++ key ++ gap ++ d :: after = w ++ (key ++ (gap ++ d :: trimEnd after)) ++ w' := by
    conv_lhs => rw [hafter]
    simp
  have hm : Trimmed (key ++ (gap ++ d :: trimEnd after)) := by
    constructor
    · intro c hc
      obtain ⟨c', key, rfl⟩ := List.exists_cons_of_ne_nil hkey.named
      exact hkey.trimmed.first c hc
    · intro c hc
      rw [← List.append_assoc, List.getLast?_append, List.getLast?_cons] at hc
      cases hafter : (trimEnd after).getLast? with
      | none =>
        rw [hafter] at hc
        obtain rfl := Option.some.inj hc
        exact not_isWhitespace_of_isDelimiter hd
      | some c' =>
        rw [hafter] at hc
        obtain rfl := Option.some.inj hc
        exact not_isWhitespace_of_last_trimEnd hafter
  obtain ⟨htrim, hsignificant, hbracket, hindent⟩ := hkey.text hm hw hw' hline
  have hbefore : ∀ c ∈ key ++ gap, (!isDelimiter c) = true := by
    intro c hc
    rcases List.mem_append.1 hc with hc | hc
    · rw [hkey.delimiter c hc]
      rfl
    · rw [isDelimiter_of_isWhitespace (hgap c hc)]
      rfl
  have hnot : ¬(!isDelimiter d) = true := by simp [hd]
  refine ⟨hsignificant, hbracket, ?_, ?_, hindent⟩
  · rw [htrim, keyOf, ← List.append_assoc, List.takeWhile_append_of_pos hbefore,
      List.takeWhile_cons, if_neg hnot, List.append_nil, trimLine_append_white hgap,
      hkey.trimmed.trimLine_eq]
  · rw [htrim, valueOf, ← List.append_assoc, List.dropWhile_append_of_pos hbefore,
      List.dropWhile_cons, if_neg hnot]
    show some (trimLine (trimEnd after)) = some (trimLine after)
    conv_rhs => rw [hafter, trimLine_append_white hw']

/-- What is read in a line with a key alone. -/
theorem IsKey.alone (hkey : IsKey key) (hw : IsWhite w) :
    isSignificant (w ++ key) = true ∧ (trimLine (w ++ key)).head? ≠ some '[' ∧
      keyOf (trimLine (w ++ key)) = key ∧ valueOf (trimLine (w ++ key)) = none ∧
      indentation (w ++ key) = utf8Len w := by
  have hline : w ++ key = w ++ (key ++ []) ++ [] := by simp
  obtain ⟨htrim, hsignificant, hbracket, hindent⟩ := hkey.text
    (by rw [List.append_nil]; exact hkey.trimmed) hw IsWhite.nil hline
  have hall : ∀ c ∈ key, (!isDelimiter c) = true := fun c hc => by
    rw [hkey.delimiter c hc]
    rfl
  rw [List.append_nil] at htrim
  refine ⟨hsignificant, hbracket, ?_, ?_, hindent⟩
  · rw [htrim, keyOf, List.takeWhile_eq_self_iff.2 hall, hkey.trimmed.trimLine_eq]
  · rw [htrim, valueOf, List.dropWhile_eq_nil_iff.2 hall]

theorem eq_trimLine_append_of_head {l : Line} (h : ∀ c ∈ l.head?, isWhitespace c = false) :
    ∃ gap, IsWhite gap ∧ l = trimLine l ++ gap := by
  obtain ⟨gap, hgap, hl⟩ := eq_trimLine_append l
  have hnil : l.takeWhile isWhitespace = [] := by
    cases l with
    | nil => rfl
    | cons c l => rw [List.takeWhile_cons, h c rfl, if_neg Bool.false_ne_true]
  rw [hnil, List.nil_append] at hl
  exact ⟨gap, hgap, hl⟩

/-- The text of a key's line begins with the key. -/
theorem SetsKey.text_eq {body : List Line} {s : Setting} (h : SetsKey line body s) :
    ∃ gap more, IsWhite gap ∧ trimLine line = s.key ++ gap ++ more ∧
      ∀ c ∈ s.key ++ gap, isDelimiter c = false := by
  obtain ⟨more, hmore⟩ := List.takeWhile_prefix (!isDelimiter ·) (l := trimLine line)
  obtain ⟨gap, hgap, hkey⟩ := eq_trimLine_append_of_head
    (l := (trimLine line).takeWhile (!isDelimiter ·)) fun c hc => by
      refine (trimmed_trimLine line).first c ?_
      rw [← hmore, List.head?_append, hc]
      rfl
  rw [← keyOf, h.key] at hkey
  refine ⟨gap, more, hgap, by rw [← hkey, hmore], fun c hc => ?_⟩
  rw [← hkey] at hc
  have htake := List.mem_takeWhile_imp (p := fun c => !isDelimiter c) hc
  simpa using htake

/-- The key that a line sets is one that a text can begin with. -/
theorem SetsKey.isKey {body : List Line} {s : Setting} (h : SetsKey line body s) :
    IsKey s.key := by
  obtain ⟨gap, more, -, htext, hdelimiter⟩ := h.text_eq
  obtain ⟨c, key, hcons⟩ := List.exists_cons_of_ne_nil h.named
  have hfirst : (trimLine line).head? = some c := by
    rw [htext, hcons]
    rfl
  constructor
  · rw [← h.key]
    exact trimmed_trimLine _
  · exact h.named
  · rw [hcons, List.head?_cons, ← hfirst]
    exact h.bracket
  · have hsignificant := h.significant
    rw [isSignificant, Bool.and_eq_true, Bool.not_eq_true', Bool.not_eq_true', startsComment,
      hfirst] at hsignificant
    rw [startsComment, hcons, List.head?_cons]
    exact hsignificant.2
  · exact fun c hc => hdelimiter c (List.mem_append_left _ hc)

/-- A key's line up to its value. -/
theorem SetsKey.lead_eq {body : List Line} {s : Setting} (h : SetsKey line body s) {lead : Line}
    (hlead : (keyLine line 0).lead = some lead) :
    ∃ gap d space, IsWhite gap ∧ isDelimiter d = true ∧ IsWhite space ∧
      lead = line.takeWhile isWhitespace ++ s.key ++ gap ++ d :: space := by
  have hkey := (key_value_keyLine line 0).1.trans h.key
  rw [keyLine] at hlead hkey
  cases hdrop : (trimStart line).dropWhile (!isDelimiter ·) with
  | nil =>
    simp only [hdrop] at hlead
    cases hlead
  | cons d after =>
    simp only [hdrop] at hlead hkey
    have hd : isDelimiter d = true := by
      have := List.head?_dropWhile_not (!isDelimiter ·) (trimStart line)
      rw [hdrop] at this
      simpa using this
    obtain ⟨more, hmore⟩ := List.takeWhile_prefix (!isDelimiter ·) (l := trimStart line)
    obtain ⟨gap, hgap, hbefore⟩ := eq_trimLine_append_of_head
      (l := (trimStart line).takeWhile (!isDelimiter ·)) fun c hc => by
        refine head?_dropWhile (l := line) ?_
        rw [← trimStart.eq_1, ← hmore, List.head?_append, hc]
        rfl
    rw [hkey] at hbefore
    have hspace : ∀ b : Bool, IsWhite (after.takeWhile isWhitespace ++ if b then [' '] else []) := by
      intro b
      refine (isWhite_takeWhile after).append ?_
      cases b with
      | false => exact IsWhite.nil
      | true => exact fun c hc => (List.mem_singleton.1 hc) ▸ rfl
    refine ⟨gap, d, _, hgap, hd,
      hspace ((trimLine after).isEmpty && (after.takeWhile isWhitespace).isEmpty), ?_⟩
    rw [← Option.some.inj hlead, hbefore]
    simp

/-- The first line of a value is the one on its key's line. -/
theorem headD_lines_valueFrom {v : Line} (hv : Trimmed v) (hline : '\n' ∉ v) (body : List Line) :
    (lines (valueFrom v body)).headD [] = v := by
  have hfold : ∀ (body : List Line) (w : Line × ℕ), (w.1 = v ∨ ∃ r, w.1 = v ++ '\n' :: r) →
      (body.foldl addLine w).1 = v ∨ ∃ r, (body.foldl addLine w).1 = v ++ '\n' :: r := by
    intro body
    induction body with
    | nil => exact fun w hw => hw
    | cons line body ih =>
      intro w hw
      refine ih (addLine w line) ?_
      rw [addLine]
      split
      · refine .inr ?_
        rcases hw with hw | ⟨r, hw⟩
        · exact ⟨List.replicate w.2 '\n' ++ trimLine line, by
            rw [hw, List.replicate_succ]
            simp⟩
        · exact ⟨r ++ List.replicate (w.2 + 1) '\n' ++ trimLine line, by
            rw [hw]
            simp⟩
      · exact hw
  rcases hfold body (v, 0) (.inl rfl) with heq | ⟨r, heq⟩
  · rw [valueFrom, heq]
    by_cases hne : v = []
    · rw [hne]
      rfl
    · rw [lines_last hline hne]
      rfl
  · have hcr : endsCr v = false := by
      refine decide_eq_false fun hlast => ?_
      exact absurd (hv.last '\r' hlast) (by decide)
    rw [valueFrom, heq, lines_line hline, hcr]
    rfl

theorem IsWhite.singleton_space : IsWhite [' '] := fun _ hc => (List.mem_singleton.1 hc) ▸ rfl

/-- What is read in the key line of a replacement. -/
theorem replacedKeyLine_eq {body : List Line} {existing : Entry}
    (h : SetsKey line body existing.setting) (hlead : existing.lead = (keyLine line 0).lead)
    {first : Option Line} (hfirst : ∀ v ∈ first, Trimmed v) :
    ∃ m, m = replacedKeyLine (line.takeWhile isWhitespace) existing first ∧
      isSignificant m = true ∧ (trimLine m).head? ≠ some '[' ∧ keyOf (trimLine m) = existing.key ∧
      valueOf (trimLine m) = first ∧ indentation m = existing.indent ∧
      line.takeWhile isWhitespace ++ existing.key <+: m := by
  have hkey : IsKey existing.key := h.isKey
  have hindent : utf8Len (line.takeWhile isWhitespace) = existing.indent :=
    (indentation_eq line).symm.trans h.indent
  have hwhite := isWhite_takeWhile line
  refine ⟨_, rfl, ?_⟩
  rw [← hindent]
  cases first with
  | none =>
    have hline : replacedKeyLine (line.takeWhile isWhitespace) existing none =
        line.takeWhile isWhitespace ++ existing.key := by
      rw [replacedKeyLine]
    rw [hline]
    obtain ⟨hsignificant, hbracket, hread, hvalue, hdepth⟩ := hkey.alone hwhite
    exact ⟨hsignificant, hbracket, hread, hvalue, hdepth, List.prefix_rfl⟩
  | some v =>
    have hv := hfirst v rfl
    -- whatever stands between the key and the value, it holds a delimiter between white space
    obtain ⟨gap, d, after, hgap, hd, hafter, hline⟩ : ∃ gap d after, IsWhite gap ∧
        isDelimiter d = true ∧ trimLine after = v ∧
        replacedKeyLine (line.takeWhile isWhitespace) existing (some v) =
          line.takeWhile isWhitespace ++ existing.key ++ gap ++ d :: after := by
      cases hopt : existing.lead with
      | none =>
        by_cases hne : v = []
        · refine ⟨[' '], '=', [], .singleton_space, rfl, by rw [hne]; rfl, ?_⟩
          simp [replacedKeyLine, hopt, hne]
        · refine ⟨[' '], '=', ' ' :: v, .singleton_space, rfl, ?_, ?_⟩
          · exact (trimLine_white_append .singleton_space v).trans hv.trimLine_eq
          · simp [replacedKeyLine, hopt]
      | some lead =>
        obtain ⟨gap, d, space, hgap, hd, hspace, heq⟩ := h.lead_eq (hlead.symm.trans hopt)
        have heq : lead = line.takeWhile isWhitespace ++ existing.key ++ gap ++ d :: space := heq
        by_cases hne : v = []
        · refine ⟨gap, d, [], hgap, hd, by rw [hne]; rfl, ?_⟩
          have hlast : trimEnd (line.takeWhile isWhitespace ++ existing.key ++ gap ++ [d]) =
              line.takeWhile isWhitespace ++ existing.key ++ gap ++ [d] := by
            rw [trimEnd, List.reverse_append, List.reverse_singleton, List.singleton_append,
              List.dropWhile_cons, if_neg (by rw [not_isWhitespace_of_isDelimiter hd]; simp),
              List.reverse_cons, List.reverse_reverse]
          simp only [replacedKeyLine, hopt, hne]
          rw [heq, List.append_cons, trimEnd_append hspace, hlast]
        · refine ⟨gap, d, space ++ v, hgap, hd, ?_, ?_⟩
          · exact (trimLine_white_append hspace v).trans hv.trimLine_eq
          · simp [replacedKeyLine, hopt, heq]
    rw [hline, ← hafter]
    obtain ⟨hsignificant, hbracket, hread, hvalue, hdepth⟩ :=
      @IsKey.delimited _ _ after _ _ hkey hwhite hgap hd
    refine ⟨hsignificant, hbracket, hread, hvalue, hdepth, ?_⟩
    rw [List.append_assoc]
    exact List.prefix_append _ _

theorem isNoise_filter_isComment (ls : List Line) : IsNoise (ls.filter isComment) := by
  intro l hl
  have hcomment : startsComment (trimStart l) = true := (List.mem_filter.1 hl).2
  obtain ⟨w, hw, heq⟩ := trimStart_eq l
  refine not_isSignificant_of_startsComment ?_
  cases htrim : trimLine l with
  | nil =>
    rw [htrim, List.nil_append] at heq
    have hnil : trimStart l = [] := by
      rw [trimStart, ← dropWhile_eq_self fun _ => head?_dropWhile (l := l)]
      exact List.dropWhile_eq_nil_iff.2 fun c hc => hw c (heq ▸ hc)
    rw [hnil] at hcomment
    exact absurd hcomment (by decide)
  | cons c m =>
    rw [heq, htrim] at hcomment
    exact hcomment

variable {t s : Doc} {lead lead' : List Line} {parts parts' : List Part} {p q : Part}

theorem mem_of_mem_trimLine {l : Line} {c : Char} (h : c ∈ trimLine l) : c ∈ l := by
  obtain ⟨w, -, hl⟩ := eq_trimLine_append l
  rw [hl]
  exact List.mem_append_left _ (List.mem_append_right _ h)

theorem valueOf_eq_some {m v : Line} (h : valueOf m = some v) :
    ∃ after, v = trimLine after ∧ ∀ c ∈ after, c ∈ m := by
  rw [valueOf] at h
  split at h
  · case h_1 d after hdrop =>
    refine ⟨after, (Option.some.inj h).symm, fun c hc => ?_⟩
    refine (List.dropWhile_sublist (!isDelimiter ·)).subset ?_
    rw [hdrop]
    exact List.mem_cons_of_mem d hc
  · cases h

theorem trimmed_of_valueOf {m v : Line} (h : valueOf m = some v) : Trimmed v := by
  obtain ⟨after, rfl, -⟩ := valueOf_eq_some h
  exact trimmed_trimLine after

theorem notMem_of_valueOf {l v : Line} {c : Char} (hc : c ∉ l)
    (h : valueOf (trimLine l) = some v) : c ∉ v := by
  obtain ⟨after, rfl, hsub⟩ := valueOf_eq_some h
  exact fun hmem => hc (mem_of_mem_trimLine (hsub c (mem_of_mem_trimLine hmem)))

/-- **The lines that replace an entry set its key to the value of the other file.** -/
theorem exists_replacement (ht : Layout t lead parts) (hs : Layout s lead' parts') (hp : p ∈ parts)
    (hq : q ∈ parts') {existing entry : Entry} (hexisting : p.mark.entry = some existing)
    (hentry : q.mark.entry = some entry) (hnl : '\n' ∉ q.line) :
    ∃ line body comments, replacement t existing s entry = line :: body ++ comments ∧
      SetsKey line body ⟨existing.key, entry.value, existing.indent⟩ ∧ IsNoise comments ∧
      p.line.takeWhile isWhitespace ++ existing.key <+: line := by
  obtain ⟨hsets, -, -, hlead⟩ := (ht.sound hp).key existing hexisting
  obtain ⟨hsource, -⟩ := (hs.sound hq).key entry hentry
  have hindent : utf8Len (p.line.takeWhile isWhitespace) = existing.indent :=
    (indentation_eq p.line).symm.trans hsets.indent
  have hvalue : entry.value.map (fun v => (lines v).headD []) = valueOf (trimLine q.line) := by
    have hbody := hsource.body
    cases hv : valueOf (trimLine q.line) with
    | none =>
      simp only [IsBody, hv] at hbody
      have hnone : entry.value = none := hbody.2
      rw [hnone]
      rfl
    | some v =>
      simp only [IsBody, hv] at hbody
      have hsome : entry.value = some (valueFrom v q.body) := hbody.1
      rw [hsome, Option.map_some, headD_lines_valueFrom (trimmed_of_valueOf hv)
        (notMem_of_valueOf hnl hv)]
  have hfirst : ∀ v ∈ entry.value.map fun v => (lines v).headD [], Trimmed v := by
    intro v hv
    rw [hvalue] at hv
    exact trimmed_of_valueOf hv
  obtain ⟨line, hline, hsignificant, hbracket, hkey, hread, hdepth, hprefix⟩ :=
    replacedKeyLine_eq hsets hlead hfirst
  refine ⟨line, q.body.map (Doc.entryLine entry (p.line.takeWhile isWhitespace)), _, ?_, ?_,
    isNoise_filter_isComment ((t.lines.drop (existing.start + 1)).take
      (existing.stop - (existing.start + 1))), hprefix⟩
  · rw [replacement, ht.indentOf hp hexisting, hs.entryLines hq hentry, hline]
    rfl
  · refine ⟨hsignificant, hbracket, hkey, hsets.named, hdepth, ?_⟩
    have hbody := isBody_entryLine (isWhite_takeWhile p.line) (e := entry) hsource.body
    rw [hindent] at hbody
    rw [hread, hvalue]
    exact hbody

end Mise.Ini
