/-
# Removing a block

`apply_to_string` reads a block's target with `lines` and ends every line with a
line feed, while `unapply_one` removes lines by their offsets.  The lines of the
result are counted: as many must go as came, so the block that is removed is the
one that was added.  `unapply_apply_iff` puts blocks and lines together.
-/

import Mise.Edits.Unapply

namespace Mise.Edits

open Lib
open Ini (Line bom stripBom)

section Blocks

variable {unicodeAlphanumeric : Char → Bool} {id comment desired raw text out : Line}

variable (unicodeAlphanumeric id comment text) in
/-- When removing a block gives the text back: the comment is on one line and makes markers, the
text has line feeds alone, and no mark in front of a line hides what the line is. -/
structure BlockUndone : Prop where
  oneLine : '\n' ∉ comment
  markers : MarkersFound unicodeAlphanumeric id comment
  linefeeds : hasCrlf text = false
  unmarked : comment.head? = some bom → text ≠ []
  fresh : findBlock unicodeAlphanumeric (lines (stripBom text)) id comment = .ok none

/-- The text of a block. -/
def blockText (id comment desired : Line) : Line :=
  endedLines false (around id comment desired [] [])

theorem markOf_blockText : markOf (blockText id comment desired) = markOf comment := by
  rw [blockText, around, List.nil_append, endedLines, List.flatMap_cons, beginMarker,
    List.append_assoc, List.append_assoc, List.cons_append]
  exact markOf_append (by decide) _

theorem lines_blockText (desired : Line) (hid : acceptsId unicodeAlphanumeric id = true)
    (hcomment : '\n' ∉ comment) : lines (blockText id comment desired) =
      beginMarker comment id :: ((lines desired).map stripCr ++ [endMarker comment id]) :=
  lines_around comment desired hid (fun _ hl => (nomatch hl)) (fun _ hl => (nomatch hl)) hcomment

theorem length_rawLines (cs : Line) : (rawLines cs).length = (lines cs).length :=
  (List.length_map chomp).symm

/-- A target without the block gets it at the end. -/
theorem applyBlock_of_none
    (h : findBlock unicodeAlphanumeric (lines text) id comment = .ok none) :
    applyBlock unicodeAlphanumeric id comment desired text =
      .ok (endedLines false (lines text) ++ blockText id comment desired) := by
  have hne : around id comment desired (lines text) [] ≠ [] :=
    List.append_ne_nil_of_right_ne_nil _ (List.cons_ne_nil _ _)
  have hsplit : endedLines false (around id comment desired (lines text) []) =
      endedLines false (lines text) ++ blockText id comment desired := by
    rw [blockText, around, endedLines, List.flatMap_append]
    rfl
  rw [applyBlock]
  simp only [h]
  rw [← hsplit, endedLines_eq_intercalate hne, joinLines, blockLines_eq, around]

/-- Each line is read without the carriage return at its end. -/
theorem lines_stripBom_endedLines (h : Ended text) :
    lines (stripBom (endedLines false (lines text))) = (lines (stripBom text)).map stripCr := by
  have hmem : ∀ l ∈ lines text, '\n' ∉ l := fun l hl => notMem_lines hl
  have hread := lines_endedLines_false hmem []
  rw [List.append_nil] at hread
  rw [← unmarkFirst_lines (ended_endedLines _), ← unmarkFirst_lines h, hread]
  cases lines text with
  | nil => rfl
  | cons l ls =>
    show stripBom (stripCr l) :: (ls.map stripCr ++ []) = stripCr (stripBom l) :: ls.map stripCr
    rw [stripBom_stripCr, List.append_nil]

theorem lines_stripBom_append (h : Ended text) (hne : text ≠ []) (rest : Line) :
    lines (stripBom (endedLines false (lines text) ++ rest)) =
      (lines (stripBom text)).map stripCr ++ lines rest := by
  have hne' : endedLines false (lines text) ≠ [] := by
    intro hnil
    have hcount := count_endedLines (lines text)
    rw [hnil, length_lines h] at hcount
    have hpos : 0 < text.count '\n' :=
      List.count_pos_iff.2 (List.mem_of_getLast? (h.resolve_left hne))
    have hzero : List.count '\n' ([] : Line) = 0 := rfl
    omega
  rw [stripBom_append_of_ne_nil hne', lines_append (ended_stripBom (ended_endedLines _)),
    lines_stripBom_endedLines h]

/-- **What `text_lines` reads of a target with the block at its end.** -/
theorem lines_stripBom_out (id comment desired : Line) (h : Ended text)
    (hmark : text ≠ [] ∨ markOf (blockText id comment desired) = []) :
    lines (stripBom (endedLines false (lines text) ++ blockText id comment desired)) =
      (lines (stripBom text)).map stripCr ++ lines (blockText id comment desired) := by
  by_cases htext : text = []
  · have hstrip := (stripBom_eq_or (blockText id comment desired)).resolve_right fun hmarked => by
      rw [(hmark.resolve_left fun hne => hne htext)] at hmarked
      exact List.cons_ne_nil _ _ hmarked.1.symm
    rw [htext]
    exact congrArg lines hstrip.2
  · exact lines_stripBom_append h htext _

/-- What is left when the block that is found is removed. -/
theorem unapplyOne_block {b e : ℕ} (hended : Ended out)
    (h : findBlock unicodeAlphanumeric (lines (stripBom out)) id comment = .ok (some (b, e))) :
    unapplyOne unicodeAlphanumeric ⟨id, .block comment⟩ out =
      .ok (((rawLines out).take b).flatten ++ (if b = 0 then markOf out else []) ++
        ((rawLines out).drop (e + 1)).flatten) := by
  obtain ⟨before, first, content, last, after, hread, hb, he, -⟩ := findBlock_eq_some h
  have hlen := congrArg List.length hread
  rw [← map_content_of_ended hended, List.length_map] at hlen
  simp only [List.length_append, List.length_cons] at hlen
  have hgetB : (textLines out)[b]? = some ((textLines out).get ⟨b, by omega⟩) :=
    List.getElem?_eq_getElem _
  have hgetE : (textLines out)[e]? = some ((textLines out).get ⟨e, by omega⟩) :=
    List.getElem?_eq_getElem _
  unfold unapplyOne
  simp only [map_content_of_ended hended, h, hgetB, hgetE]
  exact congrArg _ (removeRange_lines hended hgetB hgetE)

section Theorem

variable (hended : Ended text) (hid : acceptsId unicodeAlphanumeric id = true)
  (hdesired : desiredContent unicodeAlphanumeric id comment raw = .ok desired)
include hended hid hdesired

/-- Where it meets only its own markers, the block is taken off again. -/
theorem BlockUndone.undone (h : BlockUndone unicodeAlphanumeric id comment text) :
    unapplyOne unicodeAlphanumeric ⟨id, .block comment⟩
      (endedLines false (lines text) ++ blockText id comment desired) = .ok text := by
  have hmark : text ≠ [] ∨ markOf (blockText id comment desired) = [] := by
    rw [markOf_blockText]
    by_cases hcomment : comment.head? = some bom
    · exact .inl (h.unmarked hcomment)
    · exact .inr (not_not.1 (mt markOf_ne_nil.1 hcomment))
  have hread := lines_stripBom_out id comment desired hended hmark
  have htext : endedLines false (lines text) = text := (endedLines_lines hended).2 h.linefeeds
  have hblock := lines_blockText desired hid h.oneLine
  have hfind := findBlock_written ((findBlock_eq_none.1 h.fresh).stripCr hid)
    ((desiredContent_eq_ok hdesired).1.stripCr hid)
    (fun _ hl => (nomatch hl) : Unmarked unicodeAlphanumeric id comment []) h.markers
  rw [← hblock, ← hread, htext, List.length_map, length_lines_stripBom hended] at hfind
  have hout : Ended (text ++ blockText id comment desired) := by
    rw [← htext, blockText, endedLines, endedLines, ← List.flatMap_append]
    exact ended_endedLines _
  have hlen : (rawLines (blockText id comment desired)).length = (lines desired).length + 2 := by
    rw [length_rawLines, hblock]
    simp
  rw [htext, unapplyOne_block hout hfind, rawLines_append hended, List.take_left, flatten_rawLines,
    List.drop_of_length_le]
  · have hkept : (if (rawLines text).length = 0 then
        markOf (text ++ blockText id comment desired) else []) = [] := by
      split
      · case isTrue hzero =>
        have hnil : text = [] := by
          rw [← flatten_rawLines text, List.length_eq_zero_iff.1 hzero]
          rfl
        rw [hnil]
        exact hmark.resolve_left fun hne => hne hnil
      · rfl
    rw [hkept, List.append_nil, List.flatten_nil, List.append_nil]
  · rw [List.length_append, hlen, List.length_map]
    omega

end Theorem

/-! ### The block that is removed -/

/-- As many lines are left as the text has. -/
theorem length_left {b e : ℕ} {mark : Line} (hout : Ended out) (hmark : '\n' ∉ mark)
    (hb : b ≤ (rawLines out).length)
    (h : ((rawLines out).take b).flatten ++ mark ++ ((rawLines out).drop (e + 1)).flatten = text) :
    b + ((rawLines out).length - (e + 1)) = text.count '\n' := by
  have hraws : ∀ raw ∈ rawLines out, ∃ l, raw = l ++ ['\n'] ∧ '\n' ∉ l := fun raw hraw =>
    exists_of_mem_rawLines hout hraw
  have htake := (rawLines_flatten fun raw hraw => hraws raw (List.mem_of_mem_take hraw) :
    _ ∧ _ ∧ ((rawLines out).take b).flatten.count '\n' = _).2.2
  have hdrop := (rawLines_flatten fun raw hraw => hraws raw (List.mem_of_mem_drop hraw) :
    _ ∧ _ ∧ ((rawLines out).drop (e + 1)).flatten.count '\n' = _).2.2
  rw [← h, List.count_append, List.count_append, htake, hdrop, List.count_eq_zero.2 hmark,
    List.length_take, List.length_drop, Nat.min_eq_left hb]
  omega

theorem markOf_stripCr (l : Line) : markOf (stripCr l) = markOf l := by
  cases l with
  | nil => rfl
  | cons c l =>
    by_cases hc : c = bom
    · rw [hc, stripCr_cons (by decide)]
      rfl
    · rw [markOf_cons, if_neg hc, stripCr]
      split
      · cases l with
        | nil => rfl
        | cons d l => exact (markOf_cons c _).trans (if_neg hc)
      · exact (markOf_cons c l).trans (if_neg hc)

/-- Other line endings do not change the mark. -/
theorem markOf_out (h : Ended text) (hne : text ≠ []) (rest : Line) :
    markOf (endedLines false (lines text) ++ rest) = markOf text := by
  induction text using lineInduction with
  | nil => exact absurd rfl hne
  | last l hl hmem => exact absurd h (not_ended_last hmem hl)
  | line l more hl _ =>
    rw [lines_line hl, endedLines, List.flatMap_cons, List.append_assoc, List.append_assoc,
      markOf_append (by decide)]
    show markOf (stripCr l ++ '\n' :: _) = _
    rw [markOf_append (by decide), markOf_stripCr]

/-- A comment that goes on repeats its first line within the block. -/
theorem lines_blockText_of_mem (id desired : Line) (hcomment : '\n' ∈ comment) :
    ∃ l rest, lines (blockText id comment desired) = l :: rest ∧ l ∈ rest := by
  obtain ⟨first, more, rfl, hfirst⟩ := List.eq_append_cons_of_mem hcomment
  have hsplit : blockText id (first ++ '\n' :: more) desired =
      first ++ '\n' :: ((more ++ ' ' :: (beginPattern id ++ notice) ++
        '\n' :: endedLines false (lines desired)) ++
          (first ++ '\n' :: (more ++ ' ' :: endPattern id ++ ['\n']))) := by
    simp [blockText, around, endedLines, beginMarker, endMarker, ending]
  rw [hsplit, lines_line hfirst, lines_append (ended_line (ended_endedLines _)), lines_line hfirst]
  exact ⟨_, _, rfl, List.mem_append_right _ List.mem_cons_self⟩

/-- What `unapply_one` has done where it gives another text. -/
theorem exists_of_unapplyOne (hout : Ended out) (hne : out ≠ text)
    (h : unapplyOne unicodeAlphanumeric ⟨id, .block comment⟩ out = .ok text) :
    ∃ b e, findBlock unicodeAlphanumeric (lines (stripBom out)) id comment = .ok (some (b, e)) ∧
      ((rawLines out).take b).flatten ++ (if b = 0 then markOf out else []) ++
        ((rawLines out).drop (e + 1)).flatten = text := by
  cases hfind : findBlock unicodeAlphanumeric (lines (stripBom out)) id comment with
  | error reason =>
    unfold unapplyOne at h
    simp only [map_content_of_ended hout, hfind] at h
    nomatch h
  | ok range =>
    cases range with
    | none =>
      unfold unapplyOne at h
      simp only [map_content_of_ended hout, hfind] at h
      exact absurd (Except.ok.inj h) hne
    | some range =>
      rw [unapplyOne_block hout hfind] at h
      exact ⟨range.1, range.2, rfl, Except.ok.inj h⟩

theorem drop_unmarkFirst (ls : List Line) (k : ℕ) :
    (unmarkFirst ls).drop (k + 1) = ls.drop (k + 1) := by
  cases ls <;> rfl

/-- A marker that the mark in front of the text hides is no marker of the block. -/
theorem fresh_of_undone (hended : Ended text) (hid : acceptsId unicodeAlphanumeric id = true)
    (hnone : Unmarked unicodeAlphanumeric id comment (lines text)) {rest : Line}
    (hout : out = endedLines false (lines text) ++ rest) (hrest : Ended out) {b e : ℕ}
    (hfind : findBlock unicodeAlphanumeric (lines (stripBom out)) id comment = .ok (some (b, e)))
    (htext : ((rawLines out).take b).flatten ++ (if b = 0 then markOf out else []) ++
      ((rawLines out).drop (e + 1)).flatten = text) :
    Unmarked unicodeAlphanumeric id comment (lines (stripBom text)) := by
  have hmarked := markOf_append_stripBom text
  rcases markOf_eq text with hmark | hmark
  · rw [hmark, List.nil_append] at hmarked
    rwa [hmarked]
  · have hne : text ≠ [] := by
      rintro rfl
      exact List.cons_ne_nil _ _ hmark.symm
    obtain ⟨before, first, content, last, after, hread, rfl, rfl, -, -, hbefore, -, hafter⟩ :=
      findBlock_eq_some hfind
    obtain ⟨t, ts, hlines⟩ : ∃ t ts, lines text = t :: ts := by
      refine List.exists_cons_of_ne_nil fun hnil => ?_
      have hlen := length_lines hended
      rw [hnil] at hlen
      have hpos := List.count_pos_iff.2 (List.mem_of_getLast? (hended.resolve_left hne))
      exact absurd hlen.symm (Nat.ne_of_gt hpos)
    rw [← unmarkFirst_lines hended, hlines, unmarkFirst]
    intro l hl
    rcases List.mem_cons.1 hl with rfl | hl
    · cases before with
      | nil =>
        -- the mark stays, and what is left behind it was behind the block
        have hmark' : markOf out = [bom] := by
          rw [hout, markOf_out hended hne, hmark]
        have hleft : stripBom text = ((rawLines out).drop (content.length + 2)).flatten := by
          rw [hmark] at hmarked
          rw [List.length_nil, List.take_zero, if_pos rfl, hmark', Nat.zero_add,
            Nat.add_comm 1] at htext
          exact List.append_cancel_left (hmarked.trans htext.symm)
        have hraws := (rawLines_flatten fun raw hraw =>
          exists_of_mem_rawLines hrest (List.mem_of_mem_drop hraw) :
            rawLines ((rawLines out).drop (content.length + 2)).flatten = _ ∧ _).1
        have hafter' : lines (stripBom text) = after := by
          have hdrop := drop_parts [] content after first last
          rw [← hread, ← unmarkFirst_lines hrest, drop_unmarkFirst] at hdrop
          rw [hleft, lines, hraws, List.map_drop, ← lines, ← hdrop, List.length_nil, Nat.zero_add,
            Nat.add_comm 1]
        have hmem : stripBom t ∈ lines (stripBom text) := by
          rw [← unmarkFirst_lines hended, hlines]
          exact List.mem_cons_self
        exact hafter _ (hafter' ▸ hmem)
      | cons y before =>
        have hy : y = stripCr (stripBom t) := by
          rw [hout, lines_stripBom_append hended hne, ← unmarkFirst_lines hended, hlines] at hread
          exact (List.cons.inj hread).1.symm
        have hunmarked := hbefore y List.mem_cons_self
        rwa [hy, isMarkerLine_stripCr (beginPattern_ne_nil id) (return_notMem_beginPattern hid),
          isMarkerLine_stripCr (endPattern_ne_nil id) (return_notMem_endPattern hid)] at hunmarked
    · exact hnone l (hlines ▸ List.mem_cons_of_mem t hl)

section Theorem

variable (hended : Ended text) (hid : acceptsId unicodeAlphanumeric id = true)
  (hdesired : desiredContent unicodeAlphanumeric id comment raw = .ok desired)
include hended hid hdesired

/-- A block that is taken off again met only its own markers. -/
theorem BlockUndone.of_undone
    (hnone : findBlock unicodeAlphanumeric (lines text) id comment = .ok none)
    (h : unapplyOne unicodeAlphanumeric ⟨id, .block comment⟩
      (endedLines false (lines text) ++ blockText id comment desired) = .ok text) :
    BlockUndone unicodeAlphanumeric id comment text := by
  obtain ⟨out, hout⟩ : ∃ out, out = endedLines false (lines text) ++ blockText id comment desired :=
    ⟨_, rfl⟩
  have hT : Ended (endedLines false (lines text)) := ended_endedLines _
  have hX : Ended (blockText id comment desired) := ended_endedLines _
  have hends : Ended out := by
    rw [hout, blockText, endedLines, endedLines, ← List.flatMap_append]
    exact ended_endedLines _
  -- the lines of the text, and those of the block
  have hrawsT : (rawLines (endedLines false (lines text))).length = text.count '\n' := by
    have hmem : ∀ l ∈ lines text, '\n' ∉ l := fun l hl => notMem_lines hl
    have hread := congrArg List.length (lines_endedLines_false hmem [])
    rw [List.append_nil, ← length_rawLines, List.length_append, List.length_map,
      length_lines hended] at hread
    exact hread
  have hraws : rawLines out =
      rawLines (endedLines false (lines text)) ++ rawLines (blockText id comment desired) := by
    rw [hout, rawLines_append hT]
  have hcountX : (blockText id comment desired).count '\n' =
      0 + (lines desired).length + 0 + 2 + 2 * comment.count '\n' :=
    count_around comment desired hid (List.forall_mem_nil _) (List.forall_mem_nil _)
  have hrawsX : (rawLines (blockText id comment desired)).length =
      (blockText id comment desired).count '\n' := by
    rw [length_rawLines, length_lines hX]
  have hlenOut := congrArg List.length hraws
  rw [List.length_append, hrawsT, hrawsX] at hlenOut
  have hne : out ≠ text := by
    intro heq
    rw [length_rawLines, heq, length_lines hended] at hlenOut
    omega
  rw [← hout] at h
  obtain ⟨b, e, hfind, htext⟩ := exists_of_unapplyOne hends hne h
  have hfresh := fresh_of_undone hended hid (findBlock_eq_none.1 hnone) hout hends hfind htext
  obtain ⟨before, first, content, last, after, hread, hb, he, hfirst, hlast, -, hcontent, hafter⟩ :=
    findBlock_eq_some hfind
  -- as many lines are removed as the block has, so it does not start behind the text
  have hlen := congrArg List.length hread
  rw [length_lines_stripBom hends] at hlen
  simp only [List.length_append, List.length_cons] at hlen
  have hmarkmem : '\n' ∉ (if b = 0 then markOf out else []) := by
    split
    · rcases markOf_eq out with hm | hm <;> rw [hm] <;> decide
    · exact List.not_mem_nil
  have hleft := length_left hends hmarkmem (by omega) htext
  have hmarked : text ≠ [] ∨ markOf (blockText id comment desired) = [] := by
    by_cases hnil : text = []
    · refine .inr ?_
      rw [hnil] at htext hleft hout
      have hb0 : b = 0 := by
        have hzero : List.count '\n' ([] : Line) = 0 := rfl
        omega
      rw [if_pos hb0, List.append_eq_nil_iff, List.append_eq_nil_iff] at htext
      have hout' : out = blockText id comment desired := hout
      rw [← hout']
      exact htext.1.2
    · exact .inl hnil
  have hsplit := lines_stripBom_out id comment desired hended hmarked
  rw [← hout, hread] at hsplit
  have hfresh' := hfresh.stripCr hid
  have hlenA : ((lines (stripBom text)).map stripCr).length = text.count '\n' := by
    rw [List.length_map, length_lines_stripBom hended, length_rawLines, length_lines hended]
  -- nor in front of its end
  obtain ⟨hbefore, hblock⟩ : before = (lines (stripBom text)).map stripCr ∧
      first :: (content ++ last :: after) = lines (blockText id comment desired) := by
    rcases List.append_eq_append_iff.1 hsplit with ⟨mid, hA, hmid⟩ | ⟨mid, hbefore, hmid⟩
    · cases mid with
      | nil =>
        rw [List.append_nil] at hA
        exact ⟨hA.symm, hmid⟩
      | cons y mid =>
        obtain ⟨rfl, -⟩ := List.cons.inj hmid
        have hunmarked := hfresh' first (hA ▸ List.mem_append_right _ List.mem_cons_self)
        rw [hfirst.1] at hunmarked
        exact absurd hunmarked.1 (by decide)
    · have hmidlen := congrArg List.length hbefore
      rw [List.length_append, hlenA] at hmidlen
      have hmid0 : mid = [] := List.length_eq_zero_iff.1 (by omega)
      rw [hmid0, List.append_nil] at hbefore
      rw [hmid0, List.nil_append] at hmid
      exact ⟨hbefore, hmid.symm⟩
  have honeLine : '\n' ∉ comment := by
    intro hmem
    obtain ⟨l, rest, hl, hrest⟩ := lines_blockText_of_mem id desired hmem
    rw [← hblock] at hl
    obtain ⟨rfl, rfl⟩ := List.cons.inj hl
    rw [List.mem_append, List.mem_cons] at hrest
    rcases hrest with hrest | rfl | hrest
    · exact absurd (hfirst.1.symm.trans (hcontent _ hrest).1) (by decide)
    · exact absurd (hfirst.1.symm.trans hlast.2) (by decide)
    · exact absurd (hfirst.1.symm.trans (hafter _ hrest).1) (by decide)
  refine ⟨honeLine, ?_, ?_, ?_, findBlock_eq_none.2 hfresh⟩
  · rw [hread, hbefore, hblock, lines_blockText _ hid honeLine] at hfind
    exact markersFound_of_findBlock hfresh' ((desiredContent_eq_ok hdesired).1.stripCr hid)
      (List.forall_mem_nil _ : Unmarked unicodeAlphanumeric id comment []) hfind
  · by_cases hnil : text = []
    · rw [hnil]
      rfl
    · have hpos := List.count_pos_iff.2 (List.mem_of_getLast? (hended.resolve_left hnil))
      have hbn : (rawLines (endedLines false (lines text))).length = b := by
        rw [hb, hbefore, hlenA, hrawsT]
      rw [hraws, List.take_left' hbn, flatten_rawLines, if_neg (by omega),
        List.drop_of_length_le (by rw [List.length_append]; omega), List.flatten_nil,
        List.append_nil, List.append_nil] at htext
      exact (endedLines_lines hended).1 htext
  · intro hhead
    refine hmarked.resolve_right fun hm => ?_
    rw [markOf_blockText] at hm
    exact markOf_ne_nil.2 hhead hm

/-- **Exactly when removing a block undoes adding it.** -/
theorem unapply_applyBlock
    (hnone : findBlock unicodeAlphanumeric (lines text) id comment = .ok none) :
    (∃ r, applyBlock unicodeAlphanumeric id comment desired text = .ok r ∧
      unapplyOne unicodeAlphanumeric ⟨id, .block comment⟩ r = .ok text) ↔
        BlockUndone unicodeAlphanumeric id comment text := by
  rw [applyBlock_of_none hnone]
  constructor
  · rintro ⟨r, hr, h⟩
    obtain rfl := Except.ok.inj hr
    exact .of_undone hended hid hdesired hnone h
  · exact fun h => ⟨_, rfl, h.undone hended hid hdesired⟩

end Theorem

end Blocks

/-! ### Blocks and lines -/

section Both

variable (unicodeAlphanumeric : Char → Bool) (req : EditRequest) (desired : Option Line)
  (text : Line)

/-- An edit that `text` does not have yet: the content of a block was accepted and the text has no
block of its ID, or the line is one line and not in the text. -/
def NotApplied : Prop :=
  match req.op with
  | .block comment =>
    acceptsId unicodeAlphanumeric req.id = true ∧
      (∃ raw content, desired = some content ∧
        desiredContent unicodeAlphanumeric req.id comment raw = .ok content) ∧
      findBlock unicodeAlphanumeric (lines text) req.id comment = .ok none
  | .line line _ => '\n' ∉ line ∧ line ∉ lines (splitBom text).2

/-- When removing the edit gives the text back. -/
def Undone : Prop :=
  match req.op with
  | .block comment => BlockUndone unicodeAlphanumeric req.id comment text
  | .line line position => LineUndone line position text

end Both

/-- **Exactly when removing an edit undoes it.** -/
theorem unapply_apply_iff {unicodeAlphanumeric : Char → Bool} {req : EditRequest}
    {desired : Option Line} {text : Line} (hended : Ended text)
    (hreq : NotApplied unicodeAlphanumeric req desired text) :
    (∃ r, applyToString unicodeAlphanumeric req desired text = .ok r ∧
      unapplyOne unicodeAlphanumeric req r = .ok text) ↔ Undone unicodeAlphanumeric req text := by
  obtain ⟨id, op⟩ := req
  cases op with
  | block comment =>
    obtain ⟨hid, ⟨raw, content, rfl, hcontent⟩, hnone⟩ := hreq
    exact unapply_applyBlock hended hid hcontent hnone
  | line line position =>
    obtain ⟨hline, hnew⟩ := hreq
    rw [splitBom_eq] at hnew
    have hiff := @unapply_applyLine line text position unicodeAlphanumeric id hended hline hnew
    constructor
    · rintro ⟨r, hr, h⟩
      obtain rfl := Except.ok.inj hr
      exact hiff.1 h
    · exact fun h => ⟨_, rfl, hiff.2 h⟩

/-- A block is added to a text of one line, and removed. -/
theorem unapply_apply_sample :
    (∃ r, applyToString (fun _ => false) ⟨['a'], .block ['#']⟩ (some ['x']) ['y', '\n'] = .ok r ∧
      unapplyOne (fun _ => false) ⟨['a'], .block ['#']⟩ r = .ok ['y', '\n']) ↔
        Undone (fun _ => false) ⟨['a'], .block ['#']⟩ ['y', '\n'] :=
  unapply_apply_iff (.inr rfl) ⟨by decide, ⟨['x'], ['x'], rfl, rfl⟩, rfl⟩

/-- A block changes the line ending of the line above it for good. -/
theorem not_undone_crlf : ¬∀ (unicodeAlphanumeric : Char → Bool) (req : EditRequest)
    (desired : Option Line) (text : Line), Ended text →
    NotApplied unicodeAlphanumeric req desired text →
    ∃ r, applyToString unicodeAlphanumeric req desired text = .ok r ∧
      unapplyOne unicodeAlphanumeric req r = .ok text := by
  intro h
  obtain ⟨r, happly, hundone⟩ := h (fun _ => false) ⟨['a'], .block ['#']⟩ (some ['x'])
    ['y', '\r', '\n'] (.inr rfl) ⟨by decide, ⟨['x'], ['x'], rfl, rfl⟩, rfl⟩
  have hdesired : desiredContent (fun _ => false) ['a'] ['#'] ['x'] = .ok ['x'] := rfl
  have hended : Ended ['y', '\r', '\n'] := .inr rfl
  have hblock := (unapply_applyBlock hended (by decide) hdesired rfl).1 ⟨r, happly, hundone⟩
  exact absurd hblock.linefeeds (by decide)

end Mise.Edits
