/-
# Line edits that converge

A line edit of `crates/mise-system/src/edits.rs` is in place when its line is one of
the lines of the file, and is added otherwise.  Lines are read by `str::lines`,
which takes a carriage return in front of a line feed for a part of the ending, and
behind a byte order mark; the line is written as it is, with the ending of the
file's first line.

What is written is read back exactly where both agree (`lineConverges_iff`): a line
that ends with a carriage return needs a file with such endings, and so does a file
whose last line ends with one and has no line feed; and a line that begins with a
byte order mark must not become the beginning of the file.
-/

import Mise.Edits.Unapply

namespace Mise.Edits

open Lib
open Ini (Line bom stripBom)

/-! ### Checking -/

/-- The arm of `resolve_entry` for a line. -/
def resolveLine (pathRaw id : String) (line : Line) (position : Option String) :
    Except String EditOp :=
  if '\n' ∈ line then
    .error ("\"" ++ pathRaw ++ "\"." ++ id ++ ": line may not contain a newline; " ++
      "use a block for multi-line content, ignoring entry")
  else
    match position with
    | none => .ok (.line line .append)
    | some "append" => .ok (.line line .append)
    | some "prepend" => .ok (.line line .prepend)
    | some other =>
      .error ("\"" ++ pathRaw ++ "\"." ++ id ++ ": unknown line position '" ++ other ++
        "' (expected \"append\" or \"prepend\"), ignoring entry")

/-- `FileState`, as far as `precheck` returns it for a line in a file that exists. -/
inductive LineState where
  | applied
  | missing
  deriving DecidableEq

/-- The arm of `precheck` for a line. -/
def precheckLine (line text : Line) : LineState :=
  if (lines (stripBom text)).any (· = line) then .applied else .missing

theorem notMem_of_resolveLine {pathRaw id : String} {raw line : Line} {given : Option String}
    {position : LinePosition} (h : resolveLine pathRaw id raw given = .ok (.line line position)) :
    raw = line ∧ '\n' ∉ line := by
  rw [resolveLine.eq_def] at h
  split at h
  · exact nomatch h
  · case isFalse hline =>
    split at h
    · obtain ⟨rfl, -⟩ := EditOp.line.inj (Except.ok.inj h)
      exact ⟨rfl, hline⟩
    · obtain ⟨rfl, -⟩ := EditOp.line.inj (Except.ok.inj h)
      exact ⟨rfl, hline⟩
    · obtain ⟨rfl, -⟩ := EditOp.line.inj (Except.ok.inj h)
      exact ⟨rfl, hline⟩
    · exact nomatch h

/-! ### What is read back -/

/-- A line as it is read when it is written with an ending. -/
def readBack (crlf : Bool) (line : Line) : Line := if crlf then line else stripCr line

theorem readBack_eq_self {crlf : Bool} {line : Line} :
    readBack crlf line = line ↔ (endsCr line = true → crlf = true) := by
  cases crlf with
  | true => exact iff_of_true rfl fun _ => rfl
  | false =>
    change stripCr line = line ↔ _
    rw [stripCr_eq_self]
    cases endsCr line <;> simp

theorem length_readBack_le (crlf : Bool) (line : Line) :
    (readBack crlf line).length ≤ line.length := by
  cases crlf with
  | true => exact le_rfl
  | false => exact length_stripCr_le line

theorem lines_ended {l : Line} (hl : '\n' ∉ l) (crlf : Bool) (rest : Line) :
    lines (l ++ ending crlf ++ rest) = readBack crlf l :: lines rest := by
  cases crlf with
  | false =>
    have h := @lines_endedLines_false [l] (fun m hm => List.mem_singleton.1 hm ▸ hl) rest
    rw [endedLines, List.flatMap_singleton] at h
    exact h
  | true =>
    have h := @lines_endedLines true [l] (fun m hm => List.mem_singleton.1 hm ▸ hl) (by rintro ⟨⟩) rest
    rw [endedLines, List.flatMap_singleton] at h
    exact h

theorem ended_append_ending (body : Line) (crlf : Bool) : Ended (body ++ ending crlf) := by
  obtain ⟨cr, hcr, -⟩ := exists_ending crlf
  right
  rw [hcr, ← List.append_assoc]
  exact List.getLast?_concat

/-- **The last line of a text, once it is ended, is read as before** unless the line
feed is read with a carriage return that it ended with. -/
theorem lines_append_ending {body : Line} (hbody : ¬ Ended body) (crlf : Bool) :
    (lines (body ++ ending crlf)).length = (lines body).length ∧
      (lines (body ++ ending crlf) = lines body ↔ (endsCr body = true → crlf = true)) := by
  induction body using lineInduction with
  | nil => exact absurd (.inl rfl) hbody
  | last l hne hl =>
    have hlines := lines_ended hl crlf []
    rw [List.append_nil] at hlines
    rw [hlines, lines_last hl hne, ← readBack_eq_self]
    exact ⟨rfl, List.cons_eq_cons.trans (and_iff_left rfl)⟩
  | line l rest hl ih =>
    have hrest : ¬ Ended rest := fun h => hbody (ended_line h)
    have hne : rest ≠ [] := fun h => hrest (.inl h)
    have hassoc : l ++ '\n' :: rest ++ ending crlf = l ++ '\n' :: (rest ++ ending crlf) :=
      List.append_assoc ..
    have hends : endsCr (l ++ '\n' :: rest) = endsCr rest := by
      rw [List.append_cons, endsCr_append hne]
    obtain ⟨hlen, hiff⟩ := ih hrest
    rw [hassoc, lines_line hl, lines_line hl, hends, ← hiff]
    exact ⟨congrArg Nat.succ hlen, List.cons_eq_cons.trans (and_iff_right rfl)⟩

/-! ### What is written -/

section Written

variable {line text : Line} {position : LinePosition}

/-- A line that is there is not written again. -/
theorem applyLine_of_mem (h : line ∈ lines (stripBom text)) :
    applyLine line position text = text := by
  unfold applyLine
  rw [splitBom_eq]
  exact if_pos h

/-- The lines of the text with the new one. -/
def withLine (line : Line) (position : LinePosition) (body : Line) : List Line :=
  match position with
  | .append => lines body ++ [line]
  | .prepend => line :: lines body

/-- The line in front is read back, unless it loses its carriage return or begins
with the mark that the text then begins with. -/
theorem lines_front_eq_iff (hline : '\n' ∉ line) (crlf : Bool) (rest : Line) :
    lines (stripBom (markOf text ++ line ++ ending crlf ++ rest)) = line :: lines rest ↔
      (endsCr line = true → crlf = true) ∧ (line.head? = some bom → text.head? = some bom) := by
  rcases markOf_eq text with hmark | hmark
  · have hhead : text.head? ≠ some bom := fun h => markOf_ne_nil.2 h hmark
    rw [hmark, List.nil_append, (append_ending line crlf rest).1,
      lines_ended (notMem_stripBom hline), List.cons_eq_cons, and_iff_left rfl]
    by_cases hbom : line.head? = some bom
    · -- the mark is not read as a part of the line
      refine iff_of_false (fun heq => ?_) fun h => hhead (h.2 hbom)
      have hle := length_readBack_le crlf (stripBom line)
      rw [heq] at hle
      rcases stripBom_eq_or line with ⟨hnone, -⟩ | ⟨-, hlt⟩
      · exact markOf_ne_nil.2 hbom hnone
      · omega
    · rw [stripBom_eq_self.2 hbom, readBack_eq_self]
      exact (and_iff_left fun h => absurd h hbom).symm
  · have hne : markOf text ≠ [] := by
      rw [hmark]
      exact List.cons_ne_nil _ _
    have hhead : text.head? = some bom := markOf_ne_nil.1 hne
    have hstrip : stripBom ([bom] ++ line ++ ending crlf ++ rest) =
        line ++ ending crlf ++ rest := by
      rw [List.append_assoc, List.append_assoc, List.singleton_append, stripBom, if_pos rfl,
        ← List.append_assoc]
    rw [hmark, hstrip, lines_ended hline, List.cons_eq_cons, and_iff_left rfl, readBack_eq_self]
    exact (and_iff_left fun _ => hhead).symm

/-- The line behind is read back, and the lines before it stay. -/
theorem lines_behind_eq_iff (hline : '\n' ∉ line) (crlf : Bool) (hbody : stripBom text ≠ []) :
    lines (stripBom (if text.getLast? = some '\n' then text ++ line ++ ending crlf
        else text ++ ending crlf ++ line ++ ending crlf)) = lines (stripBom text) ++ [line] ↔
      (endsCr line = true → crlf = true) ∧
        (¬ Ended (stripBom text) → endsCr (stripBom text) = true → crlf = true) := by
  have hne : text ≠ [] := by
    rintro rfl
    exact hbody rfl
  have hlast : text.getLast? = (stripBom text).getLast? := by
    conv_lhs => rw [← markOf_append_stripBom text]
    exact List.getLast?_append_of_ne_nil _ hbody
  have hsingle : lines (line ++ ending crlf) = [readBack crlf line] := by
    have h := lines_ended hline crlf []
    rwa [List.append_nil] at h
  split
  · case isTrue h =>
    have hended : Ended (stripBom text) := .inr (hlast ▸ h)
    rw [List.append_assoc, stripBom_append_of_ne_nil hne, lines_append hended, hsingle,
      List.append_cancel_left_eq, List.cons_eq_cons, and_iff_left rfl, readBack_eq_self]
    exact (and_iff_left fun hnot => absurd hended hnot).symm
  · case isFalse h =>
    have hended : ¬ Ended (stripBom text) := fun hended =>
      hended.elim hbody fun heq => h (hlast.trans heq)
    obtain ⟨hlen, hiff⟩ := lines_append_ending hended crlf
    have hassoc : text ++ ending crlf ++ line ++ ending crlf =
        text ++ (ending crlf ++ (line ++ ending crlf)) := by
      rw [List.append_assoc, List.append_assoc]
    rw [hassoc, stripBom_append_of_ne_nil hne, ← List.append_assoc,
      lines_append (ended_append_ending _ crlf), hsingle]
    constructor
    · intro heq
      obtain ⟨hkept, hread⟩ := List.append_inj heq hlen
      exact ⟨readBack_eq_self.1 (List.cons.inj hread).1, fun _ => hiff.1 hkept⟩
    · rintro ⟨hread, hkept⟩
      rw [hiff.2 (hkept hended), readBack_eq_self.2 hread]

end Written

/-! ### Convergence -/

/-- What is asked of a line edit: the line is then in place, making the edit again
changes nothing, and the text and its other lines are kept. -/
structure LineConverges (line : Line) (position : LinePosition) (text : Line) : Prop where
  applied : precheckLine line (applyLine line position text) = .applied
  idempotent : applyLine line position (applyLine line position text) =
    applyLine line position text
  kept : ∃ front written rest, text = front ++ rest ∧
    applyLine line position text = front ++ written ++ rest
  others : lines (stripBom (applyLine line position text)) =
    if line ∈ lines (stripBom text) then lines (stripBom text)
    else withLine line position (stripBom text)

/-- Where the endings and the mark agree: the line is there, or it keeps its carriage
return, it does not become the mark of the text, and the last line of the text keeps
its carriage return. -/
def EndsAgree (line : Line) (position : LinePosition) (text : Line) : Prop :=
  line ∈ lines (stripBom text) ∨
    (endsCr line = true → usesCrlf (stripBom text) = true) ∧
    (line.head? = some bom → text.head? = some bom ∨ position = .append ∧ stripBom text ≠ []) ∧
    (position = .append → ¬ Ended (stripBom text) → endsCr (stripBom text) = true →
      usesCrlf (stripBom text) = true)

section Converge

variable {line text : Line} {position : LinePosition}

theorem exists_written (line : Line) (position : LinePosition) (text : Line) :
    ∃ front written rest, text = front ++ rest ∧
      applyLine line position text = front ++ written ++ rest := by
  by_cases hmem : line ∈ lines (stripBom text)
  · refine ⟨text, [], [], (List.append_nil text).symm, ?_⟩
    rw [applyLine_of_mem hmem, List.append_nil, List.append_nil]
  · by_cases hfront : position = .append → stripBom text = []
    · refine ⟨markOf text, line ++ newline (stripBom text), stripBom text,
        (markOf_append_stripBom text).symm, ?_⟩
      rw [applyLine_front hmem hfront, List.append_assoc (markOf text) line]
    · rw [Classical.not_imp] at hfront
      obtain ⟨rfl, hbody⟩ := hfront
      rw [applyLine_behind hmem hbody]
      split
      · refine ⟨text, line ++ newline (stripBom text), [], (List.append_nil text).symm, ?_⟩
        rw [List.append_nil, List.append_assoc]
      · refine ⟨text, newline (stripBom text) ++ line ++ newline (stripBom text), [],
          (List.append_nil text).symm, ?_⟩
        rw [List.append_nil, List.append_assoc, List.append_assoc, List.append_assoc]

/-- A line that was not there is there behind or before the others exactly where the
ends agree. -/
theorem lines_applyLine_iff (hline : '\n' ∉ line) (hnew : line ∉ lines (stripBom text)) :
    lines (stripBom (applyLine line position text)) = withLine line position (stripBom text) ↔
      EndsAgree line position text := by
  rw [EndsAgree, or_iff_right hnew]
  by_cases hfront : position = .append → stripBom text = []
  · rw [applyLine_front hnew hfront, newline_eq]
    have hwith : withLine line position (stripBom text) = line :: lines (stripBom text) := by
      cases position with
      | prepend => rfl
      | append =>
        rw [hfront rfl]
        rfl
    rw [hwith, lines_front_eq_iff hline]
    refine and_congr_right' ?_
    constructor
    · intro h
      refine ⟨fun hbom => .inl (h hbom), fun hpos hended => absurd (.inl (hfront hpos)) hended⟩
    · rintro ⟨h, -⟩ hbom
      exact (h hbom).elim id fun hbody => absurd (hfront hbody.1) hbody.2
  · rw [Classical.not_imp] at hfront
    obtain ⟨rfl, hbody⟩ := hfront
    rw [applyLine_behind hnew hbody, newline_eq, withLine, lines_behind_eq_iff hline _ hbody]
    refine and_congr_right' ?_
    constructor
    · exact fun h => ⟨fun _ => .inr ⟨rfl, hbody⟩, fun _ => h⟩
    · exact fun h => h.2 rfl

/-- **A line edit converges exactly where the ends agree.** -/
theorem lineConverges_iff {pathRaw id : String} {raw : Line} {given : Option String}
    (h : resolveLine pathRaw id raw given = .ok (.line line position)) (text : Line) :
    LineConverges line position text ↔ EndsAgree line position text := by
  obtain ⟨-, hline⟩ := notMem_of_resolveLine h
  by_cases hmem : line ∈ lines (stripBom text)
  · refine iff_of_true ⟨?_, ?_, exists_written line position text, ?_⟩ (.inl hmem)
    · rw [applyLine_of_mem hmem, precheckLine, if_pos]
      exact List.any_eq_true.2 ⟨line, hmem, decide_eq_true rfl⟩
    · rw [applyLine_of_mem hmem, applyLine_of_mem hmem]
    · rw [applyLine_of_mem hmem, if_pos hmem]
  · rw [← lines_applyLine_iff hline hmem]
    constructor
    · intro hconv
      rw [hconv.others, if_neg hmem]
    · intro hothers
      have hthere : line ∈ lines (stripBom (applyLine line position text)) := by
        rw [hothers]
        cases position with
        | append => exact List.mem_append_right _ (List.mem_singleton_self line)
        | prepend => exact List.mem_cons_self
      refine ⟨?_, applyLine_of_mem hthere, exists_written line position text, ?_⟩
      · rw [precheckLine, if_pos]
        exact List.any_eq_true.2 ⟨line, hthere, decide_eq_true rfl⟩
      · rw [hothers, if_neg hmem]

end Converge

/-- An ordinary line is accepted, and converges. -/
theorem lineConverges_iff_sample :
    resolveLine "~/.zshrc" "path" ['x'] none = .ok (.line ['x'] .append) ∧
      (LineConverges ['x'] .append ['a', '\r', '\n', 'b'] ↔
        EndsAgree ['x'] .append ['a', '\r', '\n', 'b']) :=
  ⟨rfl, @lineConverges_iff ['x'] .append "~/.zshrc" "path" ['x'] none rfl _⟩

/-- A line that ends with a carriage return is never there. -/
theorem not_lineConverges : ¬ ∀ (pathRaw id : String) (raw line : Line) (given : Option String)
    (position : LinePosition), resolveLine pathRaw id raw given = .ok (.line line position) →
    ∀ text, LineConverges line position text := by
  intro hall
  have h := (hall "~/.zshrc" "path" ['x', '\r'] ['x', '\r'] none .append rfl []).applied
  exact absurd h (by decide)

end Mise.Edits
