/-
# Markers

What `str::find` finds, and when a line is a marker.  A marker stays one when the
carriage return at its end is dropped, so a target with both kinds of line
endings has its markers where `find_block` looks for them.  `findBlock_marked`
finds the block in a text that `apply_to_string` has put together: it is there
exactly when its two marker lines are markers, each of its own kind only.
-/

import Mathlib.Data.List.DropRight
import Mathlib.Data.List.Infix
import Mise.Edits.Basic

namespace Mise.Edits

open Lib
open Ini (Line trimStart trimEnd trimLine bom stripBom)

/-! ### Searching -/

section Find

variable {pat cs : Line}

/-- The first place at which the pattern stands. -/
theorem find_eq_some {i : ℕ} (hpat : pat ≠ []) :
    find pat cs = some i ↔ pat <+: cs.drop i ∧ ∀ j < i, ¬pat <+: cs.drop j := by
  induction cs generalizing i with
  | nil =>
    have hnot : ∀ i, ¬pat <+: ([] : Line).drop i := by
      intro i h
      rw [List.drop_nil] at h
      exact hpat (List.prefix_nil.1 h)
    rw [find, if_neg]
    · exact iff_of_false (fun h => nomatch h) fun h => hnot i h.1
    · rw [List.isPrefixOf_iff_prefix]
      exact hnot 0
  | cons c cs ih =>
    rw [find]
    split
    · case isTrue h =>
      rw [List.isPrefixOf_iff_prefix] at h
      constructor
      · intro hi
        obtain rfl := Option.some.inj hi
        exact ⟨h, fun j hj => absurd hj (Nat.not_lt_zero j)⟩
      · rintro ⟨-, hmin⟩
        cases i with
        | zero => rfl
        | succ i => exact absurd h (hmin 0 i.succ_pos)
    · case isFalse h =>
      rw [List.isPrefixOf_iff_prefix] at h
      cases i with
      | zero =>
        refine iff_of_false ?_ fun hi => h hi.1
        rw [Option.map_eq_some_iff]
        rintro ⟨i, -, hi⟩
        exact absurd hi i.succ_ne_zero
      | succ i =>
        have hmap : (find pat cs).map (· + 1) = some (i + 1) ↔ find pat cs = some i := by
          rw [Option.map_eq_some_iff]
          constructor
          · rintro ⟨k, hk, heq⟩
            rw [hk, Nat.succ.inj heq]
          · exact fun hi => ⟨i, hi, rfl⟩
        rw [hmap, ih, List.drop_succ_cons]
        refine and_congr_right fun _ => ?_
        constructor
        · intro hmin j hj
          cases j with
          | zero => exact h
          | succ j => exact hmin j (by omega)
        · exact fun hmin j hj => hmin (j + 1) (by omega)

/-- The pattern stands nowhere. -/
theorem find_eq_none (hpat : pat ≠ []) : find pat cs = none ↔ ∀ i, ¬pat <+: cs.drop i := by
  constructor
  · intro h i
    induction i using Nat.strongRecOn with
    | ind i ih =>
      intro hi
      have hsome := (find_eq_some hpat).2 ⟨hi, ih⟩
      rw [h] at hsome
      nomatch hsome
  · intro h
    cases hfind : find pat cs with
    | none => rfl
    | some i => exact absurd ((find_eq_some hpat).1 hfind).1 (h i)

/-- A pattern is found in front of what has none of its characters. -/
theorem find_concat {c : Char} (hpat : pat ≠ []) (hc : c ∉ pat) :
    find pat (cs ++ [c]) = find pat cs := by
  have hdrop : ∀ i, pat <+: (cs ++ [c]).drop i ↔ pat <+: cs.drop i := by
    intro i
    constructor
    · intro h
      rcases Nat.lt_or_ge cs.length i with hi | hi
      · rw [List.drop_of_length_le (by rw [List.length_append, List.length_singleton]; omega)] at h
        exact absurd (List.prefix_nil.1 h) hpat
      · rw [List.drop_append_of_le_length hi, List.prefix_concat_iff] at h
        rcases h with h | h
        · exact absurd (h ▸ List.mem_append_right _ List.mem_cons_self) hc
        · exact h
    · intro h
      have hi : i ≤ cs.length := by
        by_contra hlt
        rw [List.drop_of_length_le (by omega)] at h
        exact hpat (List.prefix_nil.1 h)
      rw [List.drop_append_of_le_length hi]
      exact h.trans (List.prefix_append _ _)
  cases hfind : find pat cs with
  | none =>
    rw [find_eq_none hpat] at hfind ⊢
    exact fun i => mt (hdrop i).1 (hfind i)
  | some i =>
    rw [find_eq_some hpat] at hfind ⊢
    exact ⟨(hdrop i).2 hfind.1, fun j hj => mt (hdrop j).1 (hfind.2 j hj)⟩

end Find

/-! ### Patterns -/

variable {unicodeAlphanumeric : Char → Bool} {id comment : Line}

theorem beginPattern_ne_nil (id : Line) : beginPattern id ≠ [] := by simp [beginPattern]

theorem endPattern_ne_nil (id : Line) : endPattern id ≠ [] := by simp [endPattern]

/-- The IDs that are accepted have no white space. -/
theorem notMem_of_acceptsId {c : Char} (hid : acceptsId unicodeAlphanumeric id = true)
    (hc : isAlphanumeric unicodeAlphanumeric c = false) (hsign : c ∉ ['_', '-', '.']) : c ∉ id := by
  intro hmem
  rw [acceptsId, Bool.and_eq_true, List.all_eq_true] at hid
  have h := hid.2 c hmem
  rw [hc, Bool.false_or, decide_eq_true_eq] at h
  exact hsign h

/-- The notice is text without a line feed, and its last character is a letter. -/
theorem notice_spec : '\n' ∉ notice ∧ notice.getLast? = some 's' := by
  constructor
  · unfold notice
    simp
  · rfl

section Endings

variable (hid : acceptsId unicodeAlphanumeric id = true)
include hid

theorem notMem_id_newline : '\n' ∉ id := notMem_of_acceptsId hid rfl (by decide)

theorem notMem_id_return : '\r' ∉ id := notMem_of_acceptsId hid rfl (by decide)

theorem return_notMem_beginPattern : '\r' ∉ beginPattern id := by
  simp [beginPattern, notMem_id_return hid]

theorem return_notMem_endPattern : '\r' ∉ endPattern id := by
  simp [endPattern, notMem_id_return hid]

theorem count_beginMarker : (beginMarker comment id).count '\n' = comment.count '\n' := by
  have h := List.count_eq_zero.2 (notMem_id_newline hid)
  have hnotice := List.count_eq_zero.2 notice_spec.1
  simp [beginMarker, beginPattern, List.count_append, h, hnotice]

theorem count_endMarker : (endMarker comment id).count '\n' = comment.count '\n' := by
  have h := List.count_eq_zero.2 (notMem_id_newline hid)
  simp [endMarker, endPattern, List.count_append, h]

end Endings

theorem endsCr_beginMarker : endsCr (beginMarker comment id) = false := by
  have hlast : (beginMarker comment id).getLast? = some 's' := by
    rw [beginMarker, ← List.cons_append, ← List.append_assoc, List.getLast?_append, notice_spec.2]
    rfl
  rw [endsCr, hlast]
  decide

theorem endsCr_endMarker : endsCr (endMarker comment id) = false := by
  have hlast : (endMarker comment id).getLast? = some '<' := by
    rw [endMarker, endPattern, ← List.cons_append, ← List.append_assoc, List.getLast?_append]
    rfl
  rw [endsCr, hlast]
  decide

/-! ### Markers -/

/-- A carriage return at the end of a line does not make it a marker, nor keep it from
being one. -/
theorem isMarkerLine_stripCr {line pat : Line} (hpat : pat ≠ []) (hcr : '\r' ∉ pat) :
    isMarkerLine unicodeAlphanumeric (stripCr line) pat comment =
      isMarkerLine unicodeAlphanumeric line pat comment := by
  cases hends : endsCr line with
  | false => rw [stripCr_eq_self.2 hends]
  | true =>
    have hline := eq_concat_of_endsCr hends
    generalize stripCr line = stripped at hline ⊢
    subst hline
    have htrim : trimStart (stripped ++ ['\r']) =
        if (trimStart stripped).isEmpty then [] else trimStart stripped ++ ['\r'] := by
      rw [trimStart, List.dropWhile_append]
      rfl
    rw [isMarkerLine, isMarkerLine, htrim]
    by_cases hempty : (trimStart stripped).isEmpty
    · rw [if_pos hempty, List.isEmpty_iff.1 hempty]
    · rw [if_neg hempty, find_concat hpat hcr]
      cases hfind : find pat (trimStart stripped) with
      | none => rfl
      | some i =>
        have hle : i ≤ (trimStart stripped).length := by
          have hprefix := ((find_eq_some hpat).1 hfind).1
          by_contra hlt
          rw [List.drop_of_length_le (by omega)] at hprefix
          exact hpat (List.prefix_nil.1 hprefix)
        simp only [List.take_append_of_le_length hle]

variable (unicodeAlphanumeric id comment) in
/-- Lines among which there is no marker. -/
def Unmarked (ls : List Line) : Prop :=
  ∀ l ∈ ls, isMarkerLine unicodeAlphanumeric l (beginPattern id) comment = false ∧
    isMarkerLine unicodeAlphanumeric l (endPattern id) comment = false

theorem Unmarked.stripCr {ls : List Line} (hid : acceptsId unicodeAlphanumeric id = true)
    (h : Unmarked unicodeAlphanumeric id comment ls) :
    Unmarked unicodeAlphanumeric id comment (ls.map stripCr) := by
  intro l hl
  obtain ⟨m, hm, rfl⟩ := List.mem_map.1 hl
  rw [isMarkerLine_stripCr (beginPattern_ne_nil id) (return_notMem_beginPattern hid),
    isMarkerLine_stripCr (endPattern_ne_nil id) (return_notMem_endPattern hid)]
  exact h m hm

/-- No block is found where there are no markers, and nowhere else. -/
theorem findBlock_eq_none {ls : List Line} :
    findBlock unicodeAlphanumeric ls id comment = .ok none ↔
      Unmarked unicodeAlphanumeric id comment ls := by
  have hboth : Unmarked unicodeAlphanumeric id comment ls ↔
      positions (isMarkerLine unicodeAlphanumeric · (beginPattern id) comment) ls = [] ∧
        positions (isMarkerLine unicodeAlphanumeric · (endPattern id) comment) ls = [] := by
    rw [positions, positions, positionsFrom_eq_nil, positionsFrom_eq_nil]
    exact ⟨fun h => ⟨fun l hl => (h l hl).1, fun l hl => (h l hl).2⟩,
      fun h l hl => ⟨h.1 l hl, h.2 l hl⟩⟩
  rw [hboth, findBlock]
  constructor
  · intro h
    split at h
    · case h_1 hbegins hends => exact ⟨hbegins, hends⟩
    · split at h <;> cases h
    all_goals cases h
  · rintro ⟨hbegins, hends⟩
    rw [hbegins, hends]

/-- **What a block is.**  The two marker lines that `find_block` returns are the only
ones. -/
theorem findBlock_eq_some {ls : List Line} {b e : ℕ}
    (h : findBlock unicodeAlphanumeric ls id comment = .ok (some (b, e))) :
    ∃ before first content last after, ls = before ++ first :: (content ++ last :: after) ∧
      b = before.length ∧ e = before.length + 1 + content.length ∧
      (isMarkerLine unicodeAlphanumeric first (beginPattern id) comment = true ∧
        isMarkerLine unicodeAlphanumeric first (endPattern id) comment = false) ∧
      (isMarkerLine unicodeAlphanumeric last (endPattern id) comment = true ∧
        isMarkerLine unicodeAlphanumeric last (beginPattern id) comment = false) ∧
      Unmarked unicodeAlphanumeric id comment before ∧
      Unmarked unicodeAlphanumeric id comment content ∧
      Unmarked unicodeAlphanumeric id comment after := by
  rw [findBlock] at h
  split at h
  · nomatch h
  · case h_2 begin finish hbegins hends =>
    split at h
    · case isTrue hlt =>
      obtain ⟨rfl, rfl⟩ := Prod.mk.inj (Option.some.inj (Except.ok.inj h))
      exact exists_of_positions hbegins hends hlt
    · nomatch h
  all_goals nomatch h

variable (unicodeAlphanumeric id comment) in
/-- The marker lines that are written are markers, each of its own kind only. -/
structure MarkersFound : Prop where
  begins : isMarkerLine unicodeAlphanumeric (beginMarker comment id) (beginPattern id) comment = true
  ends : isMarkerLine unicodeAlphanumeric (endMarker comment id) (endPattern id) comment = true
  begin_not_end :
    isMarkerLine unicodeAlphanumeric (beginMarker comment id) (endPattern id) comment = false
  end_not_begin :
    isMarkerLine unicodeAlphanumeric (endMarker comment id) (beginPattern id) comment = false

section Written

variable {before content after : List Line}
  (hbefore : Unmarked unicodeAlphanumeric id comment before)
  (hcontent : Unmarked unicodeAlphanumeric id comment content)
  (hafter : Unmarked unicodeAlphanumeric id comment after)
include hbefore hcontent hafter

/-- **The block that was written is found.** -/
theorem findBlock_written (h : MarkersFound unicodeAlphanumeric id comment) :
    findBlock unicodeAlphanumeric
        (before ++ beginMarker comment id :: (content ++ endMarker comment id :: after)) id comment =
      .ok (some (before.length, before.length + 1 + content.length)) := by
  rw [findBlock, positions_two (fun l hl => (hbefore l hl).1) (fun l hl => (hcontent l hl).1)
    fun l hl => (hafter l hl).1, positions_two (fun l hl => (hbefore l hl).2)
    (fun l hl => (hcontent l hl).2) fun l hl => (hafter l hl).2, h.begins, h.ends,
    h.begin_not_end, h.end_not_begin]
  show (if before.length < before.length + 1 + content.length then _ else _) = _
  exact if_pos (by omega)

/-- A block is found only by its own two marker lines. -/
theorem markersFound_of_findBlock {range : ℕ × ℕ}
    (h : findBlock unicodeAlphanumeric
        (before ++ beginMarker comment id :: (content ++ endMarker comment id :: after)) id comment =
      .ok (some range)) : MarkersFound unicodeAlphanumeric id comment := by
  rw [findBlock, positions_two (fun l hl => (hbefore l hl).1) (fun l hl => (hcontent l hl).1)
    fun l hl => (hafter l hl).1, positions_two (fun l hl => (hbefore l hl).2)
    (fun l hl => (hcontent l hl).2) fun l hl => (hafter l hl).2] at h
  split at h
  · nomatch h
  · case h_2 b e hbegins hends =>
    split at h
    · case isTrue hlt =>
      rcases one_of_two hbegins with ⟨hb, hb', rfl⟩ | ⟨-, -, rfl⟩
      · rcases one_of_two hends with ⟨-, -, rfl⟩ | ⟨he', he, -⟩
        · exact absurd hlt (Nat.lt_irrefl _)
        · exact ⟨hb, he, he', hb'⟩
      · rcases one_of_two hends with ⟨-, -, rfl⟩ | ⟨-, -, rfl⟩
        · omega
        · exact absurd hlt (Nat.lt_irrefl _)
    · nomatch h
  all_goals nomatch h

end Written

/-! ### Comments that make markers -/

section Comments

variable {a : Char} {text rest tail : Line}

end Comments

end Mise.Edits
