/-
# Removing a line

`unapply_one` removes whole lines by their offsets, and does not count a byte
order mark as part of the first line.  `removeRange_lines` says what is left, in
lines.  `unapply_applyLine` says when removing a line gives back the text that it
was added to.
-/

import Mise.Edits.Converge

namespace Mise.Edits

open Lib
open Ini (Line bom stripBom)

/-! ### Lines and offsets -/

/-- The lines of a text without the byte order mark in front of it. -/
def unmarkFirst : List Line → List Line
  | [] => []
  | l :: ls => stripBom l :: ls

theorem textLine_content (raw : Line) (offset : ℕ) :
    (textLine offset raw).content =
      if offset = 0 then stripBom (withoutEnding raw) else withoutEnding raw := by
  rw [textLine]
  cases withoutEnding raw with
  | nil => split <;> simp_all [stripBom]
  | cons c cs =>
    rw [stripBom]
    by_cases hoffset : offset = 0
    · by_cases hc : c = bom
      · simp [hoffset, hc]
      · simp [hoffset, hc]
    · simp [hoffset]

theorem textLine_finish (raw : Line) (offset : ℕ) :
    (textLine offset raw).finish = offset + raw.length := by
  rw [textLine]
  split
  · case isTrue h => rw [h.1, Nat.zero_add]
  · rfl

/-- Where a line of a text stands. -/
theorem textLinesFrom_getElem? (raws : List Line) (offset i : ℕ) :
    (textLinesFrom offset raws)[i]? =
      raws[i]?.map (textLine (offset + (raws.take i).flatten.length)) := by
  induction raws generalizing offset i with
  | nil => rfl
  | cons raw raws ih =>
    cases i with
    | zero => rfl
    | succ i =>
      rw [textLinesFrom, List.getElem?_cons_succ, List.getElem?_cons_succ, ih, List.take_succ_cons,
        List.flatten_cons, List.length_append, Nat.add_assoc]

theorem map_content_textLinesFrom {raws : List Line} {offset : ℕ} (h : 0 < offset) :
    (textLinesFrom offset raws).map TextLine.content = raws.map withoutEnding := by
  induction raws generalizing offset with
  | nil => rfl
  | cons raw raws ih =>
    rw [textLinesFrom, List.map_cons, List.map_cons, textLine_content,
      if_neg (Nat.pos_iff_ne_zero.1 h), ih (Nat.add_pos_left h _)]

/-- **What `text_lines` reads.** -/
theorem map_content_textLines (text : Line) :
    (textLines text).map TextLine.content = unmarkFirst ((rawLines text).map withoutEnding) := by
  have hne : ∀ raw ∈ rawLines text, raw ≠ [] := fun raw => ne_nil_of_mem_rawLines
  rw [textLines]
  cases hraws : rawLines text with
  | nil => rfl
  | cons raw raws =>
    have hpos : 0 < 0 + raw.length := by
      rw [Nat.zero_add]
      exact List.length_pos_iff.2 (hne raw (hraws ▸ List.mem_cons_self))
    rw [textLinesFrom, List.map_cons, List.map_cons, textLine_content, if_pos rfl,
      map_content_textLinesFrom hpos, unmarkFirst]

/-- The lines of a text that ends. -/
theorem map_withoutEnding {text : Line} (h : Ended text) :
    (rawLines text).map withoutEnding = lines text := by
  rw [lines]
  refine List.map_congr_left fun raw hraw => ?_
  obtain ⟨l, rfl, -⟩ := exists_of_mem_rawLines h hraw
  rw [withoutEnding, chomp, List.getLast?_concat, if_pos rfl, if_pos rfl, List.dropLast_concat]
  simp only [stripCr, endsCr, decide_eq_true_eq]

/-- The mark that stays when the first line of a text is removed. -/
def markOf (text : Line) : Line := if text.head? = some bom then [bom] else []

theorem textLine_zero_start {l rest : Line} :
    (textLine 0 (l ++ ['\n'])).start = (markOf (l ++ '\n' :: rest)).length := by
  have hcontent : withoutEnding (l ++ ['\n']) = stripCr l := by
    rw [withoutEnding, if_pos List.getLast?_concat, List.dropLast_concat]
  rw [textLine, hcontent, markOf]
  cases l with
  | nil => rfl
  | cons c l =>
    by_cases hc : c = bom
    · rw [hc, stripCr_cons (by decide)]
      rfl
    · have hhead : (stripCr (c :: l)).head? ≠ some bom := by
        intro h
        rw [stripCr] at h
        split at h
        · cases l with
          | nil => cases h
          | cons d l => exact hc (Option.some.inj h)
        · exact hc (Option.some.inj h)
      have hhead' : (c :: l ++ '\n' :: rest).head? ≠ some bom := fun h => hc (Option.some.inj h)
      rw [if_neg fun h => hhead h.2, if_neg hhead']
      rfl

/-- What is left when lines are removed. -/
theorem removeRange_lines {text : Line} {b e : ℕ} {first last : TextLine} (hended : Ended text)
    (hb : (textLines text)[b]? = some first) (he : (textLines text)[e]? = some last) :
    removeRange text first.start last.finish =
      ((rawLines text).take b).flatten ++ (if b = 0 then markOf text else []) ++
        ((rawLines text).drop (e + 1)).flatten := by
  have hsplit : ∀ n, text = ((rawLines text).take n).flatten ++ ((rawLines text).drop n).flatten := by
    intro n
    rw [← List.flatten_append, List.take_append_drop, flatten_rawLines]
  have htake : ∀ n, text.take ((rawLines text).take n).flatten.length =
      ((rawLines text).take n).flatten := fun n =>
    (congrArg (List.take _) (hsplit n)).trans (List.take_left' rfl)
  have hdrop : ∀ n, text.drop ((rawLines text).take n).flatten.length =
      ((rawLines text).drop n).flatten := fun n =>
    (congrArg (List.drop _) (hsplit n)).trans (List.drop_left' rfl)
  rw [textLines, textLinesFrom_getElem?, Option.map_eq_some_iff] at hb he
  obtain ⟨rawB, hrawB, rfl⟩ := hb
  obtain ⟨rawE, hrawE, rfl⟩ := he
  have hfinish : text.drop (textLine (0 + ((rawLines text).take e).flatten.length) rawE).finish =
      ((rawLines text).drop (e + 1)).flatten := by
    have hlen : ((rawLines text).take (e + 1)).flatten.length =
        ((rawLines text).take e).flatten.length + rawE.length := by
      rw [List.take_add_one, hrawE, List.flatten_append, List.length_append]
      simp
    rw [textLine_finish, Nat.zero_add, ← hlen, hdrop]
  have hstart : text.take (textLine (0 + ((rawLines text).take b).flatten.length) rawB).start =
      ((rawLines text).take b).flatten ++ (if b = 0 then markOf text else []) := by
    cases b with
    | zero =>
      obtain ⟨l, rfl, hl⟩ := exists_of_mem_rawLines hended (List.mem_of_getElem? hrawB)
      obtain ⟨rest, htext⟩ : ∃ rest, text = l ++ '\n' :: rest := by
        refine ⟨((rawLines text).drop 1).flatten, (hsplit 1).trans ?_⟩
        rw [List.take_add_one, hrawB]
        simp
      show text.take (textLine 0 (l ++ ['\n'])).start = markOf text
      have hstart := @textLine_zero_start l rest
      rw [← htext] at hstart
      rw [hstart, markOf]
      split
      · case isTrue hmark =>
        obtain ⟨cs, hcs⟩ := List.head?_eq_some_iff.1 hmark
        rw [hcs]
        rfl
      · rfl
    | succ b =>
      have hpos : 0 < ((rawLines text).take (b + 1)).flatten.length := by
        obtain ⟨raw, raws, hraws⟩ := List.exists_cons_of_ne_nil
          (List.ne_nil_of_length_pos (Nat.zero_lt_of_lt (List.getElem?_eq_some_iff.1 hrawB).1))
        have hne := ne_nil_of_mem_rawLines (hraws ▸ List.mem_cons_self)
        rw [hraws, List.take_succ_cons, List.flatten_cons, List.length_append]
        exact Nat.add_pos_left (List.length_pos_iff.2 hne) _
      rw [textLine, Nat.zero_add, if_neg fun h => Nat.ne_of_gt hpos h.1, htake,
        if_neg b.succ_ne_zero, List.append_nil]
  rw [removeRange, hstart, hfinish]

/-! ### The mark in front of a text -/

theorem markOf_cons (c : Char) (cs : Line) :
    markOf (c :: cs) = if c = bom then [bom] else [] := by
  simp only [markOf, List.head?_cons, Option.some.injEq]

theorem markOf_append_stripBom (text : Line) : markOf text ++ stripBom text = text := by
  cases text with
  | nil => rfl
  | cons c cs =>
    rw [markOf_cons, stripBom]
    split
    · case isTrue hc => rw [hc, List.singleton_append]
    · rfl

theorem splitBom_eq (text : Line) : splitBom text = (markOf text, stripBom text) := by
  cases text with
  | nil => rfl
  | cons c cs =>
    rw [splitBom, markOf_cons, stripBom]
    split <;> rfl

theorem markOf_eq (text : Line) : markOf text = [] ∨ markOf text = [bom] := by
  rw [markOf]
  split
  · exact .inr rfl
  · exact .inl rfl

theorem notMem_stripBom {l : Line} {c : Char} (hl : c ∉ l) : c ∉ stripBom l := by
  rw [← markOf_append_stripBom l, List.mem_append, not_or] at hl
  exact hl.2

theorem stripBom_append {l : Line} {c : Char} (hc : c ≠ bom) (rest : Line) :
    stripBom (l ++ c :: rest) = stripBom l ++ c :: rest := by
  cases l with
  | nil => exact if_neg hc
  | cons d l =>
    rw [List.cons_append, stripBom, stripBom]
    split <;> rfl

theorem markOf_append {l : Line} {c : Char} (hc : c ≠ bom) (rest : Line) :
    markOf (l ++ c :: rest) = markOf l := by
  cases l with
  | nil => exact if_neg fun h => hc (Option.some.inj h)
  | cons d l => rfl

theorem stripBom_append_of_ne_nil {l : Line} (hne : l ≠ []) (rest : Line) :
    stripBom (l ++ rest) = stripBom l ++ rest := by
  cases l with
  | nil => exact absurd rfl hne
  | cons d l =>
    rw [List.cons_append, stripBom, stripBom]
    split <;> rfl

/-- No mark is made by a line ending. -/
theorem append_ending (l : Line) (crlf : Bool) (rest : Line) :
    stripBom (l ++ ending crlf ++ rest) = stripBom l ++ ending crlf ++ rest ∧
      markOf (l ++ ending crlf ++ rest) = markOf l := by
  cases l with
  | nil => cases crlf <;> exact ⟨rfl, rfl⟩
  | cons c l =>
    rw [List.append_assoc, stripBom_append_of_ne_nil (List.cons_ne_nil c l), List.cons_append,
      markOf_cons, markOf_cons, List.append_assoc]
    exact ⟨rfl, rfl⟩

/-- What is left of a line behind the mark. -/
theorem stripBom_eq_or (l : Line) :
    (markOf l = [] ∧ stripBom l = l) ∨ (markOf l = [bom] ∧ (stripBom l).length < l.length) := by
  have hl := markOf_append_stripBom l
  rcases markOf_eq l with h | h
  · rw [h, List.nil_append] at hl
    exact .inl ⟨h, hl⟩
  · refine .inr ⟨h, ?_⟩
    rw [h] at hl
    have hlen := congrArg List.length hl
    rw [List.length_append, List.length_singleton] at hlen
    omega

theorem markOf_ne_nil {l : Line} : markOf l ≠ [] ↔ l.head? = some bom := by
  rw [markOf]
  split
  · case isTrue h => exact iff_of_true (List.cons_ne_nil _ _) h
  · case isFalse h => exact iff_of_false (fun hne => hne rfl) h

theorem stripBom_eq_self {l : Line} : stripBom l = l ↔ l.head? ≠ some bom := by
  rw [← not_iff_not, not_not, ← markOf_ne_nil]
  rcases stripBom_eq_or l with ⟨hmark, hl⟩ | ⟨hmark, hl⟩
  · exact iff_of_false (fun h => h hl) fun h => h hmark
  · refine iff_of_true (fun h => ?_) (by rw [hmark]; exact List.cons_ne_nil _ _)
    rw [h] at hl
    exact Nat.lt_irrefl _ hl

theorem stripBom_stripCr (l : Line) : stripBom (stripCr l) = stripCr (stripBom l) := by
  cases l with
  | nil => rfl
  | cons c l =>
    by_cases hc : c = bom
    · rw [hc, stripCr_cons (by decide), stripBom, stripBom, if_pos rfl, if_pos rfl]
    · rw [show stripBom (c :: l) = c :: l from if_neg hc, stripCr]
      split
      · cases l with
        | nil => rfl
        | cons d l => exact if_neg hc
      · exact if_neg hc

theorem ended_stripBom {text : Line} (h : Ended text) : Ended (stripBom text) := by
  cases text with
  | nil => exact h
  | cons c cs =>
    rw [stripBom]
    split
    · cases cs with
      | nil => exact .inl rfl
      | cons d cs =>
        rcases h with h | h
        · nomatch h
        · rw [List.getLast?_cons_cons] at h
          exact .inr h
    · exact h

theorem unmarkFirst_lines {text : Line} (h : Ended text) :
    unmarkFirst (lines text) = lines (stripBom text) := by
  induction text using lineInduction with
  | nil => rfl
  | last l hne hl => exact absurd h (not_ended_last hl hne)
  | line l rest hl _ =>
    rw [stripBom_append (by decide), lines_line hl, lines_line (notMem_stripBom hl), unmarkFirst]
    exact congrArg (· :: lines rest) (stripBom_stripCr l)

/-- **What `text_lines` reads of a text that ends**: the lines behind the mark. -/
theorem map_content_of_ended {text : Line} (h : Ended text) :
    (textLines text).map TextLine.content = lines (stripBom text) := by
  rw [map_content_textLines, map_withoutEnding h, unmarkFirst_lines h]

/-- The mark is not a line. -/
theorem length_lines_stripBom {text : Line} (h : Ended text) :
    (lines (stripBom text)).length = (rawLines text).length := by
  have hlen : (lines text).length = (rawLines text).length := List.length_map chomp
  rw [← unmarkFirst_lines h, ← hlen]
  cases lines text <;> rfl

/-! ### Lines -/

section LineEdits

variable {line text : Line} {position : LinePosition}

/-- Whether the lines of a text end with a carriage return and a line feed. -/
def usesCrlf (body : Line) : Bool :=
  match splitOnce '\n' body with
  | some (first, _) => endsCr first
  | none => false

theorem newline_eq (body : Line) : newline body = ending (usesCrlf body) := by
  rw [newline, usesCrlf]
  cases splitOnce '\n' body with
  | none => rfl
  | some p => rfl

/-- A line is written in front of the text. -/
theorem applyLine_front (hnew : line ∉ lines (stripBom text))
    (hfront : position = .append → stripBom text = []) :
    applyLine line position text =
      markOf text ++ line ++ newline (stripBom text) ++ stripBom text := by
  unfold applyLine
  rw [splitBom_eq]
  simp only [if_neg hnew]
  cases position with
  | prepend =>
    simp only
    split
    · case isTrue h => rw [List.isEmpty_iff.1 h, List.append_nil]
    · rfl
  | append =>
    rw [hfront rfl, List.append_nil]
    rfl

/-- A line is written behind the text. -/
theorem applyLine_behind (hnew : line ∉ lines (stripBom text)) (hbody : stripBom text ≠ []) :
    applyLine line .append text =
      if text.getLast? = some '\n' then text ++ line ++ newline (stripBom text)
      else text ++ newline (stripBom text) ++ line ++ newline (stripBom text) := by
  unfold applyLine
  rw [splitBom_eq]
  simp only [if_neg hnew]
  rw [if_neg (by rwa [List.isEmpty_iff])]

/-- **A line is put behind the mark, or at the end.** -/
theorem applyLine_eq (hended : Ended text) (hline : line ∉ lines (stripBom text)) :
    applyLine line position text =
      match position with
      | .prepend => markOf text ++ line ++ newline (stripBom text) ++ stripBom text
      | .append => text ++ line ++ newline (stripBom text) := by
  cases position with
  | prepend => exact applyLine_front hline (by rintro ⟨⟩)
  | append =>
    by_cases hbody : stripBom text = []
    · have htext := markOf_append_stripBom text
      rw [hbody, List.append_nil] at htext
      rw [applyLine_front hline fun _ => hbody, hbody, List.append_nil, htext]
    · rw [applyLine_behind hline hbody, if_pos (hended.resolve_left ?_)]
      rintro rfl
      exact hbody rfl

/-- A line with its ending, as it is read. -/
def asRead (crlf : Bool) (l : Line) : Line := if crlf then l else stripCr l

theorem asRead_eq {crlf : Bool} {l m : Line} (hle : l = m ∨ l.length < m.length) :
    asRead crlf l = m ↔ l = m ∧ (endsCr m = true → crlf = true) := by
  cases crlf with
  | true => exact (and_iff_left fun _ => rfl).symm
  | false =>
    show stripCr l = m ↔ _
    constructor
    · intro h
      have hlen := length_stripCr_le l
      rw [h] at hlen
      obtain rfl := hle.resolve_right (Nat.not_lt.2 hlen)
      exact ⟨rfl, fun hends => absurd (stripCr_eq_self.1 h ▸ hends) Bool.false_ne_true⟩
    · rintro ⟨rfl, hends⟩
      refine stripCr_eq_self.2 (Bool.eq_false_iff.2 fun h => ?_)
      exact absurd (hends h) Bool.false_ne_true

theorem lines_line_ending {l : Line} (hl : '\n' ∉ l) (crlf : Bool) (rest : Line) :
    lines (l ++ ending crlf ++ rest) = asRead crlf l :: lines rest := by
  cases crlf with
  | false =>
    rw [ending, if_neg Bool.false_ne_true, List.append_assoc]
    exact lines_line hl rest
  | true =>
    have hl' : '\n' ∉ l ++ ['\r'] := by simp [hl]
    have hends : endsCr (l ++ ['\r']) = true := by simp [endsCr]
    rw [ending, if_pos rfl, asRead, if_pos rfl]
    have hsplit : l ++ ['\r', '\n'] ++ rest = (l ++ ['\r']) ++ '\n' :: rest := by simp
    rw [hsplit, lines_line hl', hends, if_pos rfl, List.dropLast_concat]

variable {unicodeAlphanumeric : Char → Bool} {id out c x : Line} {before after front back : List Line}

/-- The line is removed where it is read, if it is. -/
theorem unapplyOne_line (hended : Ended out) (hraws : rawLines out = before ++ x :: after)
    (hread : lines (stripBom out) = front ++ c :: back) (hlen : front.length = before.length)
    (hother : ∀ l ∈ front ++ back, l ≠ line) :
    unapplyOne unicodeAlphanumeric ⟨id, .line line position⟩ out =
      .ok (if c = line then
        before.flatten ++ (if before.length = 0 then markOf out else []) ++ after.flatten
      else out) := by
  rw [← map_content_of_ended hended] at hread
  obtain ⟨pre, rest, hsplit, hpre, hrest⟩ := List.map_eq_append_iff.1 hread
  obtain ⟨found, post, rfl, hfound, hpost⟩ := List.map_eq_cons_iff.1 hrest
  have hnone : ∀ ts : List TextLine, (∀ t ∈ ts, t.content ≠ line) →
      ts.find? (fun candidate => candidate.content = line) = none := fun ts hts =>
    List.find?_eq_none.2 fun t ht h => hts t ht (of_decide_eq_true h)
  have hpre' : ∀ t ∈ pre, t.content ≠ line := fun t ht =>
    hother _ (List.mem_append_left _ (hpre ▸ List.mem_map_of_mem ht))
  have hpost' : ∀ t ∈ post, t.content ≠ line := fun t ht =>
    hother _ (List.mem_append_right _ (hpost ▸ List.mem_map_of_mem ht))
  -- whichever end the search starts from, no other line is the one that was added
  have hcond : (if decide (found.content = line) = true then some found else none) =
      if c = line then some found else none := by
    rw [hfound]
    simp only [decide_eq_true_eq]
  have hfirst : (textLines out).find? (fun candidate => candidate.content = line) =
      if c = line then some found else none := by
    rw [hsplit, List.find?_append, hnone pre hpre', Option.none_or, List.find?_cons,
      hnone post hpost', ← hcond]
    cases decide (found.content = line) <;> rfl
  have hlast : (textLines out).reverse.find? (fun candidate => candidate.content = line) =
      if c = line then some found else none := by
    rw [hsplit, List.reverse_append, List.reverse_cons, List.append_assoc, List.find?_append,
      hnone post.reverse fun t ht => hpost' t (List.mem_reverse.1 ht), Option.none_or,
      List.singleton_append, List.find?_cons,
      hnone pre.reverse fun t ht => hpre' t (List.mem_reverse.1 ht), ← hcond]
    cases decide (found.content = line) <;> rfl
  have hindex : (textLines out)[before.length]? = some found := by
    have hlen' : pre.length = before.length := by
      rw [← hlen, ← hpre, List.length_map]
    rw [hsplit, ← hlen', List.getElem?_append_right (Nat.le_refl _), Nat.sub_self]
    rfl
  have hremove := removeRange_lines hended hindex hindex
  rw [hraws, List.take_left, List.append_cons, List.drop_left' (by simp)] at hremove
  unfold unapplyOne
  by_cases hc : c = line
  · rw [if_pos hc] at hfirst hlast ⊢
    cases position with
    | prepend => simp only [hfirst, hremove]
    | append => simp only [hlast, hremove]
  · rw [if_neg hc] at hfirst hlast ⊢
    cases position with
    | prepend => simp only [hfirst]
    | append => simp only [hlast]

/-- When removing a line gives the text back: the carriage return at its end is not taken for
part of a line ending, nor the mark in front of it for that of the text. -/
structure LineUndone (line : Line) (position : LinePosition) (text : Line) : Prop where
  carriage : endsCr line = true → newline (splitBom text).2 = ['\r', '\n']
  unmarked : line.head? = some bom → text.head? = some bom ∨ position = .append ∧ text ≠ []

variable (hended : Ended text) (hline : '\n' ∉ line) (hnew : line ∉ lines (stripBom text))
include hended hline hnew

/-- A line behind the mark. -/
theorem unapplyOne_front {out : Line}
    (hout : out = markOf text ++ line ++ newline (stripBom text) ++ stripBom text) :
    unapplyOne unicodeAlphanumeric ⟨id, .line line position⟩ out = .ok text ↔
      asRead (usesCrlf (stripBom text)) (if markOf text = [] then stripBom line else line) =
        line := by
  obtain ⟨cr, hcr, hcrmem⟩ := exists_ending (usesCrlf (stripBom text))
  have hmarkmem : '\n' ∉ markOf text := by
    rcases markOf_eq text with h | h <;> rw [h] <;> decide
  have hlines : out = (markOf text ++ line ++ cr) ++ '\n' :: stripBom text := by
    rw [hout, newline_eq, hcr]
    simp
  have hraws : rawLines out =
      [] ++ (markOf text ++ line ++ cr ++ ['\n']) :: rawLines (stripBom text) := by
    rw [hlines, rawLines_line, List.nil_append]
    simp only [List.mem_append, not_or]
    exact ⟨⟨hmarkmem, hline⟩, hcrmem⟩
  have hended' : Ended out := hlines ▸ ended_line (ended_stripBom hended)
  rw [newline_eq] at hout
  have hread : lines (stripBom out) =
      [] ++ asRead (usesCrlf (stripBom text)) (if markOf text = [] then stripBom line else line) ::
        lines (stripBom text) := by
    rcases markOf_eq text with h | h
    · rw [hout, h, if_pos rfl, List.nil_append, (append_ending line _ _).1, List.nil_append,
        lines_line_ending (notMem_stripBom hline)]
    · have hmark : [bom] ++ line ++ ending (usesCrlf (stripBom text)) ++ stripBom text =
          bom :: (line ++ ending (usesCrlf (stripBom text)) ++ stripBom text) := by simp
      rw [hout, h, if_neg (by decide), hmark, stripBom, if_pos rfl, List.nil_append,
        lines_line_ending hline]
  have hother : ∀ l ∈ [] ++ lines (stripBom text), l ≠ line := by
    rintro l hl rfl
    exact hnew hl
  rw [unapplyOne_line hended' hraws hread rfl hother]
  constructor
  · intro h
    by_contra hne
    rw [if_neg hne] at h
    have hlen := congrArg List.length ((Except.ok.inj h).symm.trans hlines)
    have htext := congrArg List.length (markOf_append_stripBom text)
    simp only [List.length_append, List.length_cons] at hlen htext
    omega
  · intro h
    have hmark : markOf out = markOf text := by
      rcases markOf_eq text with hm | hm
      · rw [if_pos hm] at h
        have hplaced := ((asRead_eq ((stripBom_eq_or line).imp And.right And.right)).1 h).1
        rw [hout, hm, List.nil_append, (append_ending line _ _).2]
        rcases stripBom_eq_or line with hnone | hsome
        · exact hnone.1
        · rw [hplaced] at hsome
          exact absurd hsome.2 (Nat.lt_irrefl _)
      · rw [hout, hm, List.append_assoc, List.append_assoc, List.singleton_append, markOf_cons,
          if_pos rfl]
    rw [if_pos h, flatten_rawLines, hmark]
    exact congrArg _ (markOf_append_stripBom text)

/-- A line at the end of a text that has others. -/
theorem unapplyOne_back (hne : text ≠ []) {out : Line}
    (hout : out = text ++ line ++ newline (stripBom text)) :
    unapplyOne unicodeAlphanumeric ⟨id, .line line position⟩ out = .ok text ↔
      asRead (usesCrlf (stripBom text)) line = line := by
  obtain ⟨cr, hcr, hcrmem⟩ := exists_ending (usesCrlf (stripBom text))
  have hlines : out = text ++ ((line ++ cr) ++ '\n' :: []) := by
    rw [hout, newline_eq, hcr]
    simp
  have hmem : '\n' ∉ line ++ cr := by
    rw [List.mem_append, not_or]
    exact ⟨hline, hcrmem⟩
  have hraws : rawLines out = rawLines text ++ (line ++ cr ++ ['\n']) :: [] := by
    rw [hlines, rawLines_append hended, rawLines_line hmem]
    rfl
  have hended' : Ended out := by
    refine .inr ?_
    rw [hlines, ← List.append_assoc]
    exact List.getLast?_concat
  have hread : lines (stripBom out) =
      lines (stripBom text) ++ asRead (usesCrlf (stripBom text)) line :: [] := by
    have hending := lines_line_ending hline (usesCrlf (stripBom text)) []
    rw [List.append_nil] at hending
    rw [hout, newline_eq, List.append_assoc, stripBom_append_of_ne_nil hne,
      lines_append (ended_stripBom hended), hending]
    rfl
  have hpos : (rawLines text).length ≠ 0 := by
    intro h
    have hflat := flatten_rawLines text
    rw [List.length_eq_zero_iff.1 h] at hflat
    exact hne hflat.symm
  have hother : ∀ l ∈ lines (stripBom text) ++ [], l ≠ line := by
    rintro l hl rfl
    rw [List.append_nil] at hl
    exact hnew hl
  rw [unapplyOne_line hended' hraws hread (length_lines_stripBom hended) hother, if_neg hpos]
  constructor
  · intro h
    by_contra hne'
    rw [if_neg hne'] at h
    have hlen := congrArg List.length ((Except.ok.inj h).symm.trans hlines)
    simp only [List.length_append, List.length_cons] at hlen
    omega
  · intro h
    rw [if_pos h, flatten_rawLines]
    simp

omit hended hline hnew in
theorem newline_eq_crlf :
    newline (splitBom text).2 = ['\r', '\n'] ↔ usesCrlf (stripBom text) = true := by
  rw [splitBom_eq, newline_eq]
  cases usesCrlf (stripBom text) <;> decide

omit hended hline hnew in
/-- The condition for a line in front of all others. -/
theorem lineUndone_front (hfront : position = .prepend ∨ text = []) :
    asRead (usesCrlf (stripBom text)) (if markOf text = [] then stripBom line else line) = line ↔
      LineUndone line position text := by
  by_cases hmark : markOf text = []
  · rw [if_pos hmark, asRead_eq ((stripBom_eq_or line).imp And.right And.right), stripBom_eq_self]
    constructor
    · rintro ⟨hhead, hcr⟩
      exact ⟨fun h => newline_eq_crlf.2 (hcr h), fun h => absurd h hhead⟩
    · intro h
      refine ⟨fun hhead => ?_, fun hends => newline_eq_crlf.1 (h.carriage hends)⟩
      rcases h.unmarked hhead with htext | ⟨happend, hne⟩
      · exact markOf_ne_nil.2 htext hmark
      · rcases hfront with hprepend | hnil
        · rw [hprepend] at happend
          nomatch happend
        · exact hne hnil
  · rw [if_neg hmark, asRead_eq (.inl rfl)]
    constructor
    · rintro ⟨-, hcr⟩
      exact ⟨fun h => newline_eq_crlf.2 (hcr h), fun _ => .inl (markOf_ne_nil.1 hmark)⟩
    · exact fun h => ⟨rfl, fun hends => newline_eq_crlf.1 (h.carriage hends)⟩

/-- **Exactly when removing a line undoes adding it.** -/
theorem unapply_applyLine :
    unapplyOne unicodeAlphanumeric ⟨id, .line line position⟩ (applyLine line position text) =
      .ok text ↔ LineUndone line position text := by
  rw [applyLine_eq hended hnew]
  cases position with
  | prepend =>
    rw [← lineUndone_front (.inl rfl)]
    exact unapplyOne_front hended hline hnew rfl
  | append =>
    by_cases htext : text = []
    · rw [← lineUndone_front (.inr htext)]
      refine unapplyOne_front hended hline hnew ?_
      rw [htext]
      simp [markOf, stripBom]
    · refine (unapplyOne_back hended hline hnew htext rfl).trans ?_
      rw [asRead_eq (.inl rfl)]
      constructor
      · rintro ⟨-, hcr⟩
        exact ⟨fun h => newline_eq_crlf.2 (hcr h), fun _ => .inr ⟨rfl, htext⟩⟩
      · exact fun h => ⟨rfl, fun hends => newline_eq_crlf.1 (h.carriage hends)⟩

end LineEdits

end Mise.Edits
