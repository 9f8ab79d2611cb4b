/-
# A block edit converges

`Converges` says what applying a block should leave behind: one block is found in
the result, it holds what was wanted, applying again changes nothing, and the
lines around it are those of the target.  `converges_iff` says for which comment,
content and target it does.

A line feed in the comment is ruled out by counting lines alone: every marker line
then is at least two lines of the file, of which applying again replaces one.
-/

import Mathlib.Data.Finset.Max
import Mathlib.Data.Finset.Dedup
import Mise.Edits.Markers

namespace Mise.Edits

open Lib
open Ini (Line)

/-! ### What is written -/

section Written

variable (unicodeAlphanumeric : Char → Bool) (id comment desired : Line)

/-- The lines outside the block. -/
def outside (ls : List Line) : List Line :=
  match findBlock unicodeAlphanumeric ls id comment with
  | .ok (some (b, e)) => ls.take b ++ ls.drop (e + 1)
  | _ => ls

/-- The lines of a text with a block between others. -/
def around (before after : List Line) : List Line :=
  before ++ beginMarker comment id :: (lines desired ++ endMarker comment id :: after)

end Written

variable {unicodeAlphanumeric : Char → Bool} {id comment desired raw target r : Line}

theorem blockLines_eq : blockLines comment id desired =
    beginMarker comment id :: (lines desired ++ [endMarker comment id]) := by
  rw [blockLines]
  cases desired with
  | nil => rfl
  | cons c cs => rfl

/-- **Applying replaces the block, or adds it at the end.** -/
theorem applyBlock_eq
    (h : applyBlock unicodeAlphanumeric id comment desired target = .ok r) :
    ∃ before after, outside unicodeAlphanumeric id comment (lines target) = before ++ after ∧
      Unmarked unicodeAlphanumeric id comment before ∧
      Unmarked unicodeAlphanumeric id comment after ∧
      r = endedLines false (around id comment desired before after) := by
  have hjoin : ∀ before after, joinLines (before ++ blockLines comment id desired ++ after) =
      endedLines false (around id comment desired before after) := by
    intro before after
    have hne : around id comment desired before after ≠ [] :=
      List.append_ne_nil_of_right_ne_nil _ (List.cons_ne_nil _ _)
    rw [endedLines_eq_intercalate hne, joinLines, blockLines_eq, around]
    simp
  rw [applyBlock] at h
  rw [outside]
  split at h
  · case h_1 b e hfind =>
    obtain ⟨before, first, content, last, after, hls, rfl, rfl, -, -, hbefore, -, hafter⟩ :=
      findBlock_eq_some hfind
    rw [hls, List.take_left, drop_parts] at h
    refine ⟨before, after, ?_, hbefore, hafter, ?_⟩
    · rw [hfind]
      simp only
      rw [hls, List.take_left, drop_parts]
    · rw [← Except.ok.inj h]
      exact hjoin before after
  · case h_2 hfind =>
    rw [hfind]
    refine ⟨lines target, [], (List.append_nil _).symm, findBlock_eq_none.1 hfind,
      (fun l hl => (nomatch hl)), ?_⟩
    rw [← Except.ok.inj h, ← hjoin, List.append_nil]
  · nomatch h

theorem mem_of_mem_outside {ls : List Line} {l : Line}
    (h : l ∈ outside unicodeAlphanumeric id comment ls) : l ∈ ls := by
  rw [outside] at h
  split at h
  · rcases List.mem_append.1 h with h | h
    · exact List.mem_of_mem_take h
    · exact List.mem_of_mem_drop h
  · exact h

/-- A text with a block of its own is read, and applying puts the block where it was. -/
theorem applyBlock_of_findBlock {before content after : List Line} {first last : Line}
    (hr : lines r = before ++ first :: (content ++ last :: after))
    (h : findBlock unicodeAlphanumeric (lines r) id comment =
      .ok (some (before.length, before.length + 1 + content.length))) :
    applyBlock unicodeAlphanumeric id comment desired r =
      .ok (endedLines false (around id comment desired before after)) := by
  have hne : around id comment desired before after ≠ [] :=
    List.append_ne_nil_of_right_ne_nil _ (List.cons_ne_nil _ _)
  rw [applyBlock]
  simp only [h]
  rw [hr, List.take_left, drop_parts, endedLines_eq_intercalate hne, joinLines, blockLines_eq,
    around]
  simp

/-- Content that is accepted has no markers, and its last line does not end. -/
theorem desiredContent_eq_ok
    (h : desiredContent unicodeAlphanumeric id comment raw = .ok desired) :
    Unmarked unicodeAlphanumeric id comment (lines desired) ∧
      desired.getLast? ≠ some '\n' := by
  rw [desiredContent] at h
  simp only at h
  split at h
  · nomatch h
  · case isFalse hown =>
    obtain rfl := Except.ok.inj h
    rw [Bool.or_eq_true, not_or, Bool.not_eq_true, Bool.not_eq_true] at hown
    refine ⟨fun l hl => ⟨?_, ?_⟩, ?_⟩
    · exact Bool.eq_false_iff.2 (List.any_eq_false.1 hown.1 l hl)
    · exact Bool.eq_false_iff.2 (List.any_eq_false.1 hown.2 l hl)
    · rw [trimNewlines, List.getLast?_reverse]
      intro hhead
      have hnot := List.head?_dropWhile_not (fun c : Char => decide (c = '\n')) raw.reverse
      rw [hhead] at hnot
      exact Bool.false_ne_true hnot.symm

/-! ### Comments without a line feed -/

section Read

variable {before after : List Line} (comment desired : Line)
  (hid : acceptsId unicodeAlphanumeric id = true) (hbefore : ∀ l ∈ before, '\n' ∉ l)
  (hafter : ∀ l ∈ after, '\n' ∉ l)
include hid hbefore hafter

/-- Each marker line has the line feeds of the comment. -/
theorem count_around :
    (endedLines false (around id comment desired before after)).count '\n' =
      before.length + (lines desired).length + after.length + 2 + 2 * comment.count '\n' := by
  have hdesired : ((lines desired).map (List.count '\n')).sum = 0 :=
    sum_count_eq_zero fun l hl => notMem_lines hl
  rw [count_endedLines, around]
  simp only [List.length_append, List.length_cons, List.map_append, List.map_cons,
    List.sum_append, List.sum_cons, count_beginMarker hid, count_endMarker hid, hdesired,
    sum_count_eq_zero hbefore, sum_count_eq_zero hafter]
  omega

/-- The text is read line by line, without the carriage returns at the ends of lines. -/
theorem lines_around (hcomment : '\n' ∉ comment) :
    lines (endedLines false (around id comment desired before after)) =
      before.map stripCr ++ beginMarker comment id ::
        ((lines desired).map stripCr ++ endMarker comment id :: after.map stripCr) := by
  have hbegin : '\n' ∉ beginMarker comment id := by
    rw [← List.count_eq_zero, count_beginMarker hid, List.count_eq_zero]
    exact hcomment
  have hend : '\n' ∉ endMarker comment id := by
    rw [← List.count_eq_zero, count_endMarker hid, List.count_eq_zero]
    exact hcomment
  have hall : ∀ l ∈ around id comment desired before after, '\n' ∉ l := by
    intro l hl
    rw [around, List.mem_append, List.mem_cons, List.mem_append, List.mem_cons] at hl
    rcases hl with hl | rfl | hl | rfl | hl
    · exact hbefore l hl
    · exact hbegin
    · exact notMem_lines hl
    · exact hend
    · exact hafter l hl
  have hread := lines_endedLines_false hall []
  rw [List.append_nil] at hread
  rw [hread, around]
  simp only [List.map_append, List.map_cons, stripCr_eq_self.2 endsCr_beginMarker,
    stripCr_eq_self.2 endsCr_endMarker]
  exact List.append_nil _

end Read

/-! ### Convergence -/

section Converges

variable (unicodeAlphanumeric : Char → Bool) (id comment desired target r : Line)

/-- What applying a block to a target should leave: `r` has one block, which is up to date,
applying to `r` gives `r`, and the lines outside the block are still there. -/
structure Converges : Prop where
  found : ∃ range, findBlock unicodeAlphanumeric (lines r) id comment = .ok (some range)
  applied : blockState unicodeAlphanumeric id comment desired r = .applied
  again : applyToString unicodeAlphanumeric ⟨id, .block comment⟩ (some desired) r = .ok r
  kept : (outside unicodeAlphanumeric id comment (lines target)).Sublist (lines r)

/-- When it does: the comment is on one line and makes markers, and no line that is written has
a carriage return at its end. -/
structure Settles : Prop where
  oneLine : '\n' ∉ comment
  markers : MarkersFound unicodeAlphanumeric id comment
  content : hasCrlf desired = false ∧ endsCr desired = false
  plain : ∀ l ∈ outside unicodeAlphanumeric id comment (lines target), endsCr l = false

end Converges

/-- The longest line with a carriage return at its end would be missing from the result. -/
theorem forall_endsCr_of_sublist {ls ms : List Line}
    (hms : ∀ m ∈ ms, endsCr m = true → ∃ l ∈ ls, m = stripCr l) (hsub : ls.Sublist ms) :
    ∀ l ∈ ls, endsCr l = false := by
  intro l hl
  by_contra hcr
  rw [Bool.not_eq_false] at hcr
  obtain ⟨x, hx, hmax⟩ := Finset.exists_max_image (ls.filter endsCr).toFinset List.length
    ⟨l, List.mem_toFinset.2 (List.mem_filter.2 ⟨hl, hcr⟩)⟩
  obtain ⟨hxmem, hxcr⟩ := List.mem_filter.1 (List.mem_toFinset.1 hx)
  obtain ⟨y, hy, hxy⟩ := hms x (hsub.subset hxmem) hxcr
  have hycr : endsCr y = true := by
    by_contra hne
    rw [Bool.not_eq_true] at hne
    rw [hxy, stripCr_eq_self.2 hne, hne] at hxcr
    exact Bool.false_ne_true hxcr
  have hle := hmax y (List.mem_toFinset.2 (List.mem_filter.2 ⟨hy, hycr⟩))
  rw [eq_concat_of_endsCr hycr, ← hxy, List.length_append, List.length_singleton] at hle
  omega

section Theorem

variable (hid : acceptsId unicodeAlphanumeric id = true)
  (hdesired : desiredContent unicodeAlphanumeric id comment raw = .ok desired)
  (happly : applyBlock unicodeAlphanumeric id comment desired target = .ok r)
include hid hdesired happly

theorem Settles.converges (h : Settles unicodeAlphanumeric id comment desired target) :
    Converges unicodeAlphanumeric id comment desired target r := by
  obtain ⟨before, after, houtside, hbefore, hafter, rfl⟩ := applyBlock_eq happly
  obtain ⟨hcontent, hlast⟩ := desiredContent_eq_ok hdesired
  have hlines : ∀ l ∈ before ++ after, '\n' ∉ l := fun l hl =>
    notMem_lines (mem_of_mem_outside (houtside ▸ hl))
  have hcr := houtside ▸ h.plain
  have hread : lines (endedLines false (around id comment desired before after)) =
      before ++ beginMarker comment id ::
        (lines desired ++ endMarker comment id :: after) := by
    rw [lines_around comment desired hid (fun l hl => hlines l (List.mem_append_left _ hl))
      (fun l hl => hlines l (List.mem_append_right _ hl)) h.oneLine,
      map_stripCr fun l hl => hcr l (List.mem_append_left _ hl),
      map_stripCr fun l hl => hcr l (List.mem_append_right _ hl),
      map_stripCr (endsCr_of_mem_lines h.content.1 h.content.2)]
  have hfind := findBlock_written hbefore hcontent hafter h.markers
  rw [← hread] at hfind
  have hcurrent : ['\n'].intercalate (lines desired) = desired := by
    have hjoin := (intercalate_stripCr_lines hlast).2 h.content
    rwa [map_stripCr (endsCr_of_mem_lines h.content.1 h.content.2)] at hjoin
  refine ⟨⟨_, hfind⟩, ?_, ?_, ?_⟩
  · rw [blockState]
    simp only [hfind]
    rw [hread, drop_take_parts, if_pos hcurrent]
  · exact applyBlock_of_findBlock hread hfind
  · rw [houtside, hread]
    exact List.Sublist.append_left
      ((List.sublist_append_of_sublist_right (List.sublist_cons_self _ _)).cons _) before

/-- Applying again would repeat the first line of the comment. -/
theorem Converges.notMem_comment (h : Converges unicodeAlphanumeric id comment desired target r) :
    '\n' ∉ comment := by
  obtain ⟨before, after, houtside, -, -, rfl⟩ := applyBlock_eq happly
  obtain ⟨⟨b, e⟩, hfind⟩ := h.found
  obtain ⟨before', first, content, last, after', hread, rfl, rfl, -⟩ := findBlock_eq_some hfind
  have hlast := (desiredContent_eq_ok hdesired).2
  have hlines : ∀ l ∈ before ++ after, '\n' ∉ l := fun l hl =>
    notMem_lines (mem_of_mem_outside (houtside ▸ hl))
  have hread' : ∀ l ∈ before' ++ first :: (content ++ last :: after'), '\n' ∉ l := fun l hl =>
    notMem_lines (hread ▸ hl)
  -- the lines of the result, and those of the result of applying again
  have hcount := count_around comment desired hid
    (fun l hl => hlines l (List.mem_append_left _ hl))
    fun l hl => hlines l (List.mem_append_right _ hl)
  have hlength := length_lines
    (ended_endedLines (around id comment desired before after))
  have hagain := Except.ok.inj ((applyBlock_of_findBlock hread hfind).symm.trans h.again)
  have hcount' := count_around comment desired hid
    (fun l hl => hread' l (List.mem_append_left _ hl))
    fun l hl => hread' l (List.mem_append_right _
      (List.mem_cons_of_mem _ (List.mem_append_right _ (List.mem_cons_of_mem _ hl))))
  rw [hagain] at hcount'
  rw [hread, List.length_append, List.length_cons, List.length_append, List.length_cons] at hlength
  -- what stands in the block has as many line feeds as what was wanted
  have hcurrent : ['\n'].intercalate content = desired := by
    have happlied := h.applied
    rw [blockState] at happlied
    simp only [hfind] at happlied
    rw [hread, drop_take_parts] at happlied
    by_contra hne
    rw [if_neg hne] at happlied
    nomatch happlied
  have hfeeds := count_intercalate fun l hl => hread' l (List.mem_append_right _
    (List.mem_cons_of_mem _ (List.mem_append_left _ hl)))
  rw [hcurrent] at hfeeds
  rw [← List.count_eq_zero]
  cases hd : desired with
  | nil =>
    have hlen : (lines desired).length = 0 := by
      rw [hd]
      rfl
    have hzero : desired.count '\n' = 0 := by
      rw [hd]
      rfl
    omega
  | cons c cs =>
    have hnot : ¬Ended desired := by
      rintro (hnil | hend)
      · exact List.cons_ne_nil c cs (hd ▸ hnil)
      · exact hlast hend
    have hlen := length_lines_of_not_ended hnot
    omega

/-- The marker lines of the result are those that were written. -/
theorem Converges.settles (h : Converges unicodeAlphanumeric id comment desired target r) :
    Settles unicodeAlphanumeric id comment desired target := by
  have hcomment := h.notMem_comment hid hdesired happly
  obtain ⟨before, after, houtside, hbefore, hafter, rfl⟩ := applyBlock_eq happly
  obtain ⟨hcontent, hlast⟩ := desiredContent_eq_ok hdesired
  have hlines : ∀ l ∈ before ++ after, '\n' ∉ l := fun l hl =>
    notMem_lines (mem_of_mem_outside (houtside ▸ hl))
  have hread := lines_around comment desired hid
    (fun l hl => hlines l (List.mem_append_left _ hl))
    (fun l hl => hlines l (List.mem_append_right _ hl)) hcomment
  obtain ⟨range, hfind⟩ := h.found
  rw [hread] at hfind
  have hmarkers := markersFound_of_findBlock (hbefore.stripCr hid) (hcontent.stripCr hid)
    (hafter.stripCr hid) hfind
  have hblock := findBlock_written (hbefore.stripCr hid) (hcontent.stripCr hid)
    (hafter.stripCr hid) hmarkers
  have hclean : hasCrlf desired = false ∧ endsCr desired = false := by
    rw [← intercalate_stripCr_lines hlast]
    have happlied := h.applied
    rw [blockState, hread] at happlied
    simp only [hblock] at happlied
    rw [drop_take_parts] at happlied
    by_contra hne
    rw [if_neg hne] at happlied
    nomatch happlied
  refine ⟨hcomment, hmarkers, hclean, ?_⟩
  have hkept := h.kept
  rw [houtside, hread] at hkept
  rw [houtside]
  refine forall_endsCr_of_sublist ?_ hkept
  intro m hm hends
  rw [List.mem_append, List.mem_cons, List.mem_append, List.mem_cons] at hm
  rcases hm with hm | rfl | hm | rfl | hm
  · obtain ⟨l, hl, rfl⟩ := List.mem_map.1 hm
    exact ⟨l, List.mem_append_left _ hl, rfl⟩
  · rw [endsCr_beginMarker] at hends
    exact absurd hends Bool.false_ne_true
  · obtain ⟨l, hl, rfl⟩ := List.mem_map.1 hm
    have hl' := endsCr_of_mem_lines hclean.1 hclean.2 l hl
    rw [stripCr_eq_self.2 hl', hl'] at hends
    exact absurd hends Bool.false_ne_true
  · rw [endsCr_endMarker] at hends
    exact absurd hends Bool.false_ne_true
  · obtain ⟨l, hl, rfl⟩ := List.mem_map.1 hm
    exact ⟨l, List.mem_append_right _ hl, rfl⟩

end Theorem

/-- **Exactly when a block edit converges.** -/
theorem converges_iff (hid : acceptsId unicodeAlphanumeric id = true)
    (hdesired : desiredContent unicodeAlphanumeric id comment raw = .ok desired)
    (happly : applyToString unicodeAlphanumeric ⟨id, .block comment⟩ (some desired) target = .ok r) :
    Converges unicodeAlphanumeric id comment desired target r ↔
      Settles unicodeAlphanumeric id comment desired target :=
  ⟨fun h => h.settles hid hdesired happly, fun h => h.converges hid hdesired happly⟩

/-- A block with a comment of one sign is added to a file. -/
theorem converges_iff_sample :
    Converges (fun _ => false) ['a'] ['#'] ['x'] ['y', '\n']
        (endedLines false (around ['a'] ['#'] ['x'] [['y']] [])) ↔
      Settles (fun _ => false) ['a'] ['#'] ['x'] ['y', '\n'] := by
  have hdesired : desiredContent (fun _ => false) ['a'] ['#'] ['x'] = .ok ['x'] := rfl
  have happly : applyToString (fun _ => false) ⟨['a'], .block ['#']⟩ (some ['x']) ['y', '\n'] =
      .ok (endedLines false (around ['a'] ['#'] ['x'] [['y']] [])) := rfl
  exact converges_iff (by decide) hdesired happly

/-- With the comment `REM` and a space behind it, the marker lines that are written are not
found again. -/
theorem not_converges_rem : ¬∀ (unicodeAlphanumeric : Char → Bool)
    (id comment raw desired target r : Line), acceptsId unicodeAlphanumeric id = true →
    desiredContent unicodeAlphanumeric id comment raw = .ok desired →
    applyToString unicodeAlphanumeric ⟨id, .block comment⟩ (some desired) target = .ok r →
    Converges unicodeAlphanumeric id comment desired target r := by
  intro h
  have hdesired : desiredContent (fun _ => false) ['a'] ['R', 'E', 'M', ' '] ['x'] = .ok ['x'] :=
    rfl
  have happly : applyBlock (fun _ => false) ['a'] ['R', 'E', 'M', ' '] ['x'] [] =
      .ok (endedLines false (around ['a'] ['R', 'E', 'M', ' '] ['x'] [] [])) := rfl
  have hconverges := h (fun _ => false) ['a'] ['R', 'E', 'M', ' '] ['x'] ['x'] [] _ (by decide)
    hdesired happly
  have hbegins := (hconverges.settles (by decide) hdesired happly).markers.begins
  revert hbegins
  decide

end Mise.Edits
