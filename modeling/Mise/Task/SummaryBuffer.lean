/-
# Held output

`SummaryBuffer` of `src/task/task_output_handler.rs`: the output of one task
under `summary`.  A short first line is kept apart; of the others the newest are
held, up to 64 KiB.  `push` drops whole lines from the front while they are not
longer than what is over the limit, and then cuts the front off the oldest.

Lengths and offsets count bytes, and no sum of them reaches the end of `usize`,
so that `saturating_add` is `+`.  `String::drain` panics inside a character,
which is `none` here and is proved not to happen.  Both loops are functions of
what they are about to shorten, so that they end.
-/

import Mise.Lib.Utf8
import Mise.Task.KeepOrder

namespace Mise

open Lib
open String (utf8Len utf8Len_nil utf8Len_cons utf8Len_append)

/-! ### Lines -/

namespace KeepOrderLine

/-- The text of a line. -/
def text : KeepOrderLine → List Char
  | stdout _ line | stderr _ line => line.toList

/-- A line with another text. -/
def withText : KeepOrderLine → List Char → KeepOrderLine
  | stdout lead _, text => stdout lead (String.ofList text)
  | stderr lead _, text => stderr lead (String.ofList text)

/-- `text.len()`. -/
def len (line : KeepOrderLine) : ℕ := utf8Len line.text

@[simp] theorem text_withText (line : KeepOrderLine) (text : List Char) :
    (line.withText text).text = text := by
  cases line <;> exact String.toList_ofList

@[simp] theorem withText_withText (line : KeepOrderLine) (text text' : List Char) :
    (line.withText text).withText text' = line.withText text' := by
  cases line <;> rfl

@[simp] theorem withText_text (line : KeepOrderLine) : line.withText line.text = line := by
  cases line <;> exact congrArg _ String.ofList_toList

/-- `str::is_char_boundary`. -/
def isCharBoundary (text : List Char) (i : ℕ) : Bool := (splitAtByte text i).isSome

theorem isCharBoundary_utf8Len (text : List Char) : isCharBoundary text (utf8Len text) := by
  have h := splitAtByte_append text []
  rw [List.append_nil] at h
  rw [isCharBoundary, h]
  rfl

/-- The loop of `push` that moves a cut to the next boundary. -/
def moveToBoundary (text : List Char) (cut : ℕ) (hle : cut ≤ utf8Len text) : ℕ :=
  if h : isCharBoundary text cut then cut
  else
    have hlt : cut < utf8Len text := Nat.lt_of_le_of_ne hle fun heq =>
      h (heq ▸ isCharBoundary_utf8Len text)
    moveToBoundary text (cut + 1) hlt
termination_by utf8Len text - cut

/-- The cut ends up at a boundary, not before where it was. -/
theorem moveToBoundary_spec (text : List Char) (cut : ℕ) (hle : cut ≤ utf8Len text) :
    cut ≤ moveToBoundary text cut hle ∧
      isCharBoundary text (moveToBoundary text cut hle) = true := by
  fun_induction moveToBoundary text cut hle with
  | case1 cut _ h => exact ⟨le_rfl, h⟩
  | case2 cut _ _ _ ih => exact ⟨by omega, ih.2⟩

/-- The cut is not moved past a boundary. -/
theorem moveToBoundary_le {text : List Char} {cut : ℕ} (hle : cut ≤ utf8Len text) {i : ℕ}
    (hcut : cut ≤ i) (hi : isCharBoundary text i = true) :
    moveToBoundary text cut hle ≤ i := by
  fun_induction moveToBoundary text cut hle with
  | case1 cut _ h => exact hcut
  | case2 cut _ h _ ih =>
    refine ih (Nat.lt_of_le_of_ne hcut ?_)
    rintro rfl
    exact h hi

/-- A boundary is never more than three bytes away. -/
theorem exists_boundary {text : List Char} {cut : ℕ} (hle : cut ≤ utf8Len text) :
    ∃ a r, text = a ++ r ∧ cut ≤ utf8Len a ∧ utf8Len a < cut + 4 := by
  induction text generalizing cut with
  | nil =>
    refine ⟨[], [], rfl, hle, ?_⟩
    rw [utf8Len_nil]
    omega
  | cons c text ih =>
    have hsize := c.utf8Size_le_four
    have hpos := c.utf8Size_pos
    rw [utf8Len_cons] at hle
    by_cases hzero : cut = 0
    · refine ⟨[], c :: text, rfl, by omega, ?_⟩
      rw [utf8Len_nil]
      omega
    by_cases hfirst : cut ≤ c.utf8Size
    · refine ⟨[c], text, rfl, ?_, ?_⟩ <;> rw [utf8Len_cons, utf8Len_nil] <;> omega
    · obtain ⟨a, r, rfl, hcut, hlt⟩ := @ih (cut - c.utf8Size) (by omega)
      refine ⟨c :: a, r, rfl, ?_, ?_⟩ <;> rw [utf8Len_cons] <;> omega

/-- The cut is moved by less than a character. -/
theorem moveToBoundary_lt {text : List Char} {cut : ℕ} (hle : cut ≤ utf8Len text) :
    moveToBoundary text cut hle < cut + 4 := by
  obtain ⟨a, r, rfl, hcut, hlt⟩ := exists_boundary hle
  have hb : isCharBoundary (a ++ r) (utf8Len a) = true := by
    rw [isCharBoundary, splitAtByte_append]
    rfl
  exact (moveToBoundary_le hle hcut hb).trans_lt hlt

/-- `oldest.drain(..cut)`. -/
def drain (line : KeepOrderLine) (cut : ℕ) : Option KeepOrderLine :=
  (splitAtByte line.text cut).map fun p => line.withText p.2

/-- The line without some text at its front. -/
def FrontCut (line kept : KeepOrderLine) : Prop :=
  ∃ gone rest, line.text = gone ++ rest ∧ kept = line.withText rest

theorem FrontCut.refl (line : KeepOrderLine) : FrontCut line line :=
  ⟨[], line.text, rfl, line.withText_text.symm⟩

theorem FrontCut.trans {line kept kept' : KeepOrderLine} (h : FrontCut line kept)
    (h' : FrontCut kept kept') : FrontCut line kept' := by
  obtain ⟨gone, rest, htext, rfl⟩ := h
  obtain ⟨gone', rest', htext', rfl⟩ := h'
  rw [text_withText] at htext'
  refine ⟨gone ++ gone', rest', ?_, withText_withText _ _ _⟩
  rw [htext, htext', List.append_assoc]

/-- At a boundary exactly the bytes before it are drained. -/
theorem drain_eq_some {line kept : KeepOrderLine} {cut : ℕ} (h : line.drain cut = some kept) :
    FrontCut line kept ∧ kept.len + cut = line.len := by
  obtain ⟨⟨gone, rest⟩, hsplit, rfl⟩ := Option.map_eq_some_iff.1 h
  obtain ⟨htext, hlen⟩ := splitAtByte_eq_some hsplit
  refine ⟨⟨gone, rest, htext, rfl⟩, ?_⟩
  rw [len, len, text_withText, htext, utf8Len_append, hlen, Nat.add_comm]

theorem drain_isSome {line : KeepOrderLine} {cut : ℕ}
    (h : isCharBoundary line.text cut = true) : ∃ kept, line.drain cut = some kept := by
  obtain ⟨p, hp⟩ := Option.isSome_iff_exists.1 h
  exact ⟨line.withText p.2, by rw [drain, hp]; rfl⟩

end KeepOrderLine

/-! ### The buffer -/

/-- `SUMMARY_TAIL_BYTES`. -/
def summaryTailBytes : ℕ := 64 * 1024

/-- `SUMMARY_FIRST_LINE_BYTES`. -/
def summaryFirstLineBytes : ℕ := 4 * 1024

/-- `SummaryBuffer`. -/
structure SummaryBuffer where
  first : Option KeepOrderLine := none
  lines : List KeepOrderLine := []
  bytes : ℕ := 0
  truncated : Bool := false

namespace SummaryBuffer

open KeepOrderLine

/-- What lines are charged: their bytes, and one for each. -/
def charge (lines : List KeepOrderLine) : ℕ := (lines.map fun line => line.len + 1).sum

@[simp] theorem charge_cons (line : KeepOrderLine) (lines : List KeepOrderLine) :
    charge (line :: lines) = line.len + 1 + charge lines := rfl

@[simp] theorem charge_append (lines lines' : List KeepOrderLine) :
    charge (lines ++ lines') = charge lines + charge lines' := by
  rw [charge, List.map_append, List.sum_append]
  rfl

/-- The buffer without its oldest line. -/
def popFront (b : SummaryBuffer) (oldest : KeepOrderLine) (rest : List KeepOrderLine) :
    SummaryBuffer :=
  { b with
    truncated := true
    lines := rest
    bytes := b.bytes - (oldest.len + 1) }

/-- The buffer with its oldest line cut. -/
def cutFront (b : SummaryBuffer) (cut : ℕ) (kept : KeepOrderLine) (rest : List KeepOrderLine) :
    SummaryBuffer :=
  { b with
    truncated := true
    lines := kept :: rest
    bytes := b.bytes - cut }

/-- One turn of the `while` of `push`: the buffer with which the loop is left, or
the one with which it goes on. -/
def trimTurn (b : SummaryBuffer) : Option (SummaryBuffer ⊕ SummaryBuffer) :=
  if summaryTailBytes < b.bytes then
    match b.lines with
    | [] => some (.inl b)
    | oldest :: rest =>
      if h : oldest.len ≤ b.bytes - summaryTailBytes then
        some (.inr (b.popFront oldest rest))
      else
        let cut := moveToBoundary oldest.text (b.bytes - summaryTailBytes) (Nat.le_of_not_le h)
        (oldest.drain cut).map fun kept => .inr (b.cutFront cut kept rest)
  else some (.inl b)

/-- What a turn does: the loop is left within the limit or without a line, and
otherwise the oldest line is dropped or cut. -/
theorem trimTurn_cases (b : SummaryBuffer) :
    (b.bytes ≤ summaryTailBytes ∨ b.lines = []) ∧ b.trimTurn = some (.inl b) ∨
      ∃ oldest rest, b.lines = oldest :: rest ∧ summaryTailBytes < b.bytes ∧
        (oldest.len ≤ b.bytes - summaryTailBytes ∧
            b.trimTurn = some (.inr (b.popFront oldest rest)) ∨
          ∃ cut kept, b.bytes - summaryTailBytes ≤ cut ∧ cut < b.bytes - summaryTailBytes + 4 ∧
            oldest.drain cut = some kept ∧
            b.trimTurn = some (.inr (b.cutFront cut kept rest))) := by
  by_cases hover : summaryTailBytes < b.bytes
  · cases hlines : b.lines with
    | nil =>
      refine .inl ⟨.inr rfl, ?_⟩
      rw [trimTurn, if_pos hover, hlines]
    | cons oldest rest =>
      refine .inr ⟨oldest, rest, rfl, hover, ?_⟩
      by_cases hwhole : oldest.len ≤ b.bytes - summaryTailBytes
      · refine .inl ⟨hwhole, ?_⟩
        rw [trimTurn, if_pos hover, hlines]
        exact dif_pos hwhole
      · have hle : b.bytes - summaryTailBytes ≤ utf8Len oldest.text := Nat.le_of_not_le hwhole
        obtain ⟨hcut, hboundary⟩ := moveToBoundary_spec oldest.text _ hle
        obtain ⟨kept, hkept⟩ := drain_isSome hboundary
        refine .inr ⟨_, kept, hcut, moveToBoundary_lt hle, hkept, ?_⟩
        rw [trimTurn, if_pos hover, hlines]
        refine (dif_neg hwhole).trans ?_
        dsimp only
        rw [hkept]
        rfl
  · refine .inl ⟨.inl (Nat.le_of_not_lt hover), ?_⟩
    rw [trimTurn, if_neg hover]

/-- Every turn makes the lines shorter. -/
theorem charge_trimTurn {b b' : SummaryBuffer} (h : b.trimTurn = some (.inr b')) :
    charge b'.lines < charge b.lines := by
  obtain ⟨-, hturn⟩ | ⟨oldest, rest, hlines, hover, h'⟩ := b.trimTurn_cases
  · exact nomatch Option.some.inj (h.symm.trans hturn)
  · rw [hlines, charge_cons]
    obtain ⟨-, hturn⟩ | ⟨cut, kept, hcut, -, hdrain, hturn⟩ := h'
    · obtain rfl := Sum.inr.inj (Option.some.inj (h.symm.trans hturn))
      change charge rest < _
      omega
    · obtain rfl := Sum.inr.inj (Option.some.inj (h.symm.trans hturn))
      have hlen := (drain_eq_some hdrain).2
      change charge (kept :: rest) < _
      rw [charge_cons]
      omega

/-- The `while` of `push`. -/
def trim (b : SummaryBuffer) : Option SummaryBuffer :=
  match _h : b.trimTurn with
  | none => none
  | some (.inl b') => some b'
  | some (.inr b') => trim b'
termination_by charge b.lines
decreasing_by exact charge_trimTurn _h

/-- `push`. -/
def push (b : SummaryBuffer) (line : KeepOrderLine) : Option SummaryBuffer :=
  -- A short first line is kept outside the tail.
  if b.first.isNone ∧ b.lines.isEmpty ∧ line.len ≤ summaryFirstLineBytes then
    some { b with first := some line }
  else trim { b with bytes := b.bytes + (line.len + 1), lines := b.lines ++ [line] }

/-- `into_lines`, for a task with a given `estyled_prefix`. -/
def intoLines (b : SummaryBuffer) (lead : String) : List KeepOrderLine :=
  b.first.toList ++
    (if b.truncated then [.stderr lead "[output truncated; showing last 64 KiB]"] else []) ++
    b.lines

/-- A task's lines, one after another. -/
def pushAll (lines : List KeepOrderLine) : Option SummaryBuffer :=
  lines.foldlM push {}

/-! ### What is held -/

/-- The first line if it is short, and the lines of the tail. -/
def splitFirst : List KeepOrderLine → Option KeepOrderLine × List KeepOrderLine
  | [] => (none, [])
  | line :: lines =>
    if line.len ≤ summaryFirstLineBytes then (some line, lines) else (none, line :: lines)

/-- The same lines, but the first may have lost its front. -/
def FirstCut : List KeepOrderLine → List KeepOrderLine → Prop
  | [], [] => True
  | line :: lines, line' :: lines' => FrontCut line line' ∧ lines = lines'
  | _, _ => False

theorem FirstCut.refl (lines : List KeepOrderLine) : FirstCut lines lines := by
  cases lines with
  | nil => exact trivial
  | cons line lines => exact ⟨.refl line, rfl⟩

theorem FirstCut.append {lines lines' : List KeepOrderLine} (h : FirstCut lines lines')
    (line : KeepOrderLine) : FirstCut (lines ++ [line]) (lines' ++ [line]) := by
  match lines, lines', h with
  | [], [], _ => exact .refl [line]
  | _ :: _, _ :: _, ⟨hcut, hrest⟩ => exact ⟨hcut, hrest ▸ rfl⟩

/-- The oldest line held is one of the tail without some of its front, and those
behind it are those behind it in the tail. -/
theorem FirstCut.of_cons {kept rest : List KeepOrderLine} {oldest : KeepOrderLine}
    (h : FirstCut kept (oldest :: rest)) : ∃ line, kept = line :: rest ∧ FrontCut line oldest := by
  match kept, h with
  | line :: _, ⟨hcut, hrest⟩ => exact ⟨line, hrest ▸ rfl, hcut⟩

/-- What holds between two turns of the loop: the count is true, the lines are the
end of the tail, `truncated` is set where they are less, and the newest is whole
or long. -/
structure Trimming (tail : List KeepOrderLine) (b : SummaryBuffer) : Prop where
  bytes : b.bytes = charge b.lines
  suffix : ∃ gone kept, tail = gone ++ kept ∧ FirstCut kept b.lines
  less : b.truncated = true → charge b.lines < charge tail
  whole : b.truncated = false → b.lines = tail
  newest : ∀ line ∈ tail.getLast?, ∃ line' ∈ b.lines.getLast?, FrontCut line line' ∧
    (line' = line ∨ summaryTailBytes ≤ line'.len + 4)

/-- The buffer in which the newest line is pushed, before anything is dropped. -/
theorem Trimming.push_back {tail : List KeepOrderLine} {b : SummaryBuffer}
    (h : Trimming tail b) (line : KeepOrderLine) :
    Trimming (tail ++ [line])
      { b with bytes := b.bytes + (line.len + 1), lines := b.lines ++ [line] } where
  bytes := by
    change b.bytes + _ = _
    rw [h.bytes, charge_append, charge_cons]
    rfl
  suffix := by
    obtain ⟨gone, kept, rfl, hcut⟩ := h.suffix
    exact ⟨gone, kept ++ [line], List.append_assoc .., hcut.append line⟩
  less := by
    intro htrunc
    have hless := h.less htrunc
    change charge (b.lines ++ [line]) < _
    rw [charge_append, charge_append]
    omega
  whole := fun htrunc => congrArg (· ++ [line]) (h.whole htrunc)
  newest := by
    intro line' hline
    rw [List.getLast?_append_cons] at hline
    obtain rfl : line = line' := Option.some.inj hline
    refine ⟨line, ?_, .refl line, .inl rfl⟩
    change (b.lines ++ [line]).getLast? = _
    rw [List.getLast?_append_cons]
    rfl

/-- Dropping the oldest line, which is not the newest. -/
theorem Trimming.pop {tail rest : List KeepOrderLine} {oldest : KeepOrderLine}
    {b : SummaryBuffer} (h : Trimming tail b) (hlines : b.lines = oldest :: rest)
    (hwhole : oldest.len ≤ b.bytes - summaryTailBytes) (hover : summaryTailBytes < b.bytes) :
    Trimming tail (b.popFront oldest rest) := by
  have hbytes := h.bytes
  obtain ⟨gone, kept, htail, hcut⟩ := h.suffix
  rw [hlines, charge_cons] at hbytes
  rw [hlines] at hcut
  obtain ⟨line, rfl, hline⟩ := hcut.of_cons
  -- the newest line is longer than what is over the limit
  have hne : rest ≠ [] := by
    rintro rfl
    rw [charge, List.map_nil, List.sum_nil] at hbytes
    rw [summaryTailBytes] at hwhole hover
    omega
  exact {
    bytes := by
      change b.bytes - _ = charge rest
      omega
    suffix := ⟨gone ++ [line], rest, by rw [htail, List.append_assoc]; rfl, .refl rest⟩
    less := by
      intro _
      change charge rest < _
      rw [htail, charge_append, charge_cons]
      omega
    whole := fun htrunc => nomatch htrunc
    newest := by
      intro newest hnewest
      obtain ⟨newest', hmem, hnew⟩ := h.newest newest hnewest
      refine ⟨newest', ?_, hnew⟩
      rw [hlines] at hmem
      obtain ⟨next, rest', rfl⟩ := List.exists_cons_of_ne_nil hne
      exact hmem }

/-- Cutting the front off the oldest line. -/
theorem Trimming.cut {tail rest : List KeepOrderLine} {oldest kept : KeepOrderLine}
    {b : SummaryBuffer} {cut : ℕ} (h : Trimming tail b) (hlines : b.lines = oldest :: rest)
    (hover : summaryTailBytes < b.bytes) (hcut : b.bytes - summaryTailBytes ≤ cut)
    (hcut' : cut < b.bytes - summaryTailBytes + 4) (hdrain : oldest.drain cut = some kept) :
    Trimming tail (b.cutFront cut kept rest) := by
  obtain ⟨hfront, hlen⟩ := drain_eq_some hdrain
  have hbytes := h.bytes
  obtain ⟨gone, kept', htail, hfirst⟩ := h.suffix
  rw [hlines, charge_cons] at hbytes
  rw [hlines] at hfirst
  obtain ⟨line, rfl, hline⟩ := hfirst.of_cons
  exact {
    bytes := by
      change b.bytes - cut = charge (kept :: rest)
      rw [charge_cons]
      omega
    suffix := ⟨gone, line :: rest, htail, hline.trans hfront, rfl⟩
    less := by
      intro _
      have hle : oldest.len ≤ line.len := by
        obtain ⟨front, text, htext, rfl⟩ := hline
        rw [len, len, text_withText, htext, utf8Len_append]
        omega
      change charge (kept :: rest) < _
      rw [htail, charge_append, charge_cons, charge_cons]
      omega
    whole := fun htrunc => nomatch htrunc
    newest := by
      intro newest hnewest
      cases rest with
      | nil =>
        obtain ⟨newest', hmem, hnew, -⟩ := h.newest newest hnewest
        rw [hlines] at hmem
        obtain rfl : oldest = newest' := Option.some.inj hmem
        refine ⟨kept, rfl, hnew.trans hfront, .inr ?_⟩
        rw [charge, List.map_nil, List.sum_nil] at hbytes
        omega
      | cons next rest =>
        obtain ⟨newest', hmem, hnew⟩ := h.newest newest hnewest
        rw [hlines] at hmem
        exact ⟨newest', hmem, hnew⟩ }

/-- **The loop ends within the limit, and cuts no character.** -/
theorem Trimming.trim {tail : List KeepOrderLine} {b : SummaryBuffer} (h : Trimming tail b) :
    ∃ b', b.trim = some b' ∧ Trimming tail b' ∧ b'.bytes ≤ summaryTailBytes ∧
      b'.first = b.first := by
  fun_induction SummaryBuffer.trim b with
  | case1 b hturn =>
    obtain ⟨-, hturn'⟩ | ⟨_, _, -, -, ⟨-, hturn'⟩ | ⟨_, _, -, -, -, hturn'⟩⟩ := b.trimTurn_cases <;>
      exact nomatch hturn.symm.trans hturn'
  | case2 b b' hturn =>
    obtain ⟨hend, hturn'⟩ | ⟨_, _, -, -, ⟨-, hturn'⟩ | ⟨_, _, -, -, -, hturn'⟩⟩ :=
      b.trimTurn_cases
    · obtain rfl : b' = b := Sum.inl.inj (Option.some.inj (hturn.symm.trans hturn'))
      refine ⟨b', rfl, h, hend.elim id fun hlines => ?_, rfl⟩
      rw [h.bytes, hlines]
      exact Nat.zero_le _
    · exact nomatch Option.some.inj (hturn.symm.trans hturn')
    · exact nomatch Option.some.inj (hturn.symm.trans hturn')
  | case3 b b' hturn ih =>
    obtain ⟨-, hturn'⟩ | ⟨oldest, rest, hlines, hover, h'⟩ := b.trimTurn_cases
    · exact nomatch Option.some.inj (hturn.symm.trans hturn')
    · obtain ⟨hwhole, hturn'⟩ | ⟨cut, kept, hcut, hcut', hdrain, hturn'⟩ := h'
      · obtain rfl := Sum.inr.inj (Option.some.inj (hturn.symm.trans hturn'))
        exact ih (h.pop hlines hwhole hover)
      · obtain rfl := Sum.inr.inj (Option.some.inj (hturn.symm.trans hturn'))
        exact ih (h.cut hlines hover hcut hcut' hdrain)

/-- Another line is one of the tail, unless it is the first and short. -/
theorem splitFirst_append {pushed : List KeepOrderLine} (hne : pushed ≠ [])
    (line : KeepOrderLine) : splitFirst (pushed ++ [line]) =
      ((splitFirst pushed).1, (splitFirst pushed).2 ++ [line]) := by
  obtain ⟨first, rest, rfl⟩ := List.exists_cons_of_ne_nil hne
  rw [List.cons_append, splitFirst, splitFirst]
  split <;> rfl

/-- **What a buffer holds of the lines that were pushed.** -/
structure Holds (pushed : List KeepOrderLine) (b : SummaryBuffer) : Prop where
  /-- The count charges each held line its bytes and one. -/
  bytes : b.bytes = (b.lines.map fun line => line.len + 1).sum
  bytes_le : b.bytes ≤ 64 * 1024
  /-- A short first line is kept apart, and nothing else is. -/
  first : b.first = (splitFirst pushed).1
  front : ∀ lead, ∀ line ∈ (splitFirst pushed).1, (b.intoLines lead).head? = some line
  /-- Some oldest lines are gone, and the oldest that is held may lack its front. -/
  suffix : ∃ gone kept, (splitFirst pushed).2 = gone ++ kept ∧ FirstCut kept b.lines
  /-- The newest line is held whole, or with its last bytes up to the limit. -/
  newest : ∀ line ∈ (splitFirst pushed).2.getLast?, ∃ line' ∈ b.lines.getLast?,
    FrontCut line line' ∧ (line' = line ∨ 64 * 1024 ≤ line'.len + 4)
  truncated : b.truncated = true ↔ b.lines ≠ (splitFirst pushed).2

/-- What holds between two pushes. -/
structure Pushed (pushed : List KeepOrderLine) (b : SummaryBuffer) : Prop where
  trimming : Trimming (splitFirst pushed).2 b
  bytes_le : b.bytes ≤ summaryTailBytes
  first : b.first = (splitFirst pushed).1

theorem Pushed.empty : Pushed [] {} where
  trimming := {
    bytes := rfl
    suffix := ⟨[], [], rfl, trivial⟩
    less := nofun
    whole := fun _ => rfl
    newest := nofun }
  bytes_le := Nat.zero_le _
  first := rfl

/-- A buffer that holds nothing was pushed nothing. -/
theorem Pushed.eq_nil {pushed : List KeepOrderLine} {b : SummaryBuffer} (h : Pushed pushed b)
    (hfirst : b.first = none) (hlines : b.lines = []) : pushed = [] := by
  cases pushed with
  | nil => rfl
  | cons line rest =>
    have hsplit := h.first
    have hnewest := h.trimming.newest
    rw [hfirst, splitFirst] at hsplit
    rw [hlines, splitFirst] at hnewest
    split at hsplit
    · exact nomatch hsplit
    · case isFalse hlong =>
      rw [if_neg hlong] at hnewest
      obtain ⟨_, hmem, -⟩ := hnewest _ (List.getLast?_eq_some_getLast (List.cons_ne_nil line rest))
      exact nomatch hmem

/-- A push keeps it. -/
theorem Pushed.push {pushed : List KeepOrderLine} {b : SummaryBuffer} (h : Pushed pushed b)
    (line : KeepOrderLine) : ∃ b', b.push line = some b' ∧ Pushed (pushed ++ [line]) b' := by
  rw [SummaryBuffer.push]
  split
  · case isTrue hshort =>
    obtain ⟨hfirst, hlines, hlen⟩ := hshort
    obtain rfl := h.eq_nil (Option.isNone_iff_eq_none.1 hfirst) (List.isEmpty_iff.1 hlines)
    have hsplit : splitFirst ([] ++ [line]) = (some line, []) := if_pos hlen
    refine ⟨_, rfl, ?_, h.bytes_le, ?_⟩
    · rw [hsplit]
      exact ⟨h.trimming.bytes, h.trimming.suffix, h.trimming.less, h.trimming.whole,
        h.trimming.newest⟩
    · rw [hsplit]
  · case isFalse hlong =>
    have hsplit : splitFirst (pushed ++ [line]) =
        ((splitFirst pushed).1, (splitFirst pushed).2 ++ [line]) := by
      by_cases hnil : pushed = []
      · obtain rfl := hnil
        have hlines : b.lines = [] := by
          obtain ⟨gone, kept, hgone, hcut⟩ := h.trimming.suffix
          obtain ⟨rfl, rfl⟩ := List.append_eq_nil_iff.1 hgone.symm
          cases hb : b.lines with
          | nil => rfl
          | cons => exact (hb ▸ hcut).elim
        refine if_neg fun hlen => hlong ⟨?_, ?_, hlen⟩
        · rw [h.first]
          rfl
        · rw [hlines]
          rfl
      · exact splitFirst_append hnil line
    obtain ⟨b', htrim, htrimming, hle, hfirst⟩ := (h.trimming.push_back line).trim
    refine ⟨b', htrim, ?_, hle, ?_⟩
    · rw [hsplit]
      exact htrimming
    · rw [hsplit, hfirst]
      exact h.first

theorem pushed_foldlM {pushed lines : List KeepOrderLine} {b : SummaryBuffer}
    (h : Pushed pushed b) :
    ∃ b', lines.foldlM push b = some b' ∧ Pushed (pushed ++ lines) b' := by
  induction lines generalizing pushed b with
  | nil => exact ⟨b, rfl, by rwa [List.append_nil]⟩
  | cons line lines ih =>
    obtain ⟨b₁, hpush, h₁⟩ := h.push line
    obtain ⟨b', hrest, h'⟩ := ih h₁
    refine ⟨b', ?_, by rwa [List.append_assoc] at h'⟩
    rw [List.foldlM_cons, hpush]
    exact hrest

theorem Pushed.holds {pushed : List KeepOrderLine} {b : SummaryBuffer} (h : Pushed pushed b) :
    Holds pushed b where
  bytes := h.trimming.bytes
  bytes_le := h.bytes_le
  first := h.first
  front := by
    intro lead line hline
    rw [intoLines, h.first, hline]
    rfl
  suffix := h.trimming.suffix
  newest := h.trimming.newest
  truncated := by
    constructor
    · intro htrunc heq
      have hless := h.trimming.less htrunc
      rw [heq] at hless
      exact absurd hless (lt_irrefl _)
    · intro hne
      cases htrunc : b.truncated with
      | true => rfl
      | false => exact absurd (h.trimming.whole htrunc) hne

/-- **Whatever lines are pushed, the pushes end without a panic and the buffer holds
what it should.** -/
theorem holds_pushAll (pushed : List KeepOrderLine) :
    ∃ b, pushAll pushed = some b ∧ Holds pushed b := by
  obtain ⟨b, hpush, h⟩ := @pushed_foldlM [] pushed _ Pushed.empty
  exact ⟨b, hpush, h.holds⟩

end SummaryBuffer

end Mise
