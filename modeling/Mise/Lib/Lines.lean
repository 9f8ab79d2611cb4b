/-
# Lines of a text

`str::lines` and its inverse.  A line ends with a line feed, or with a carriage
return and a line feed; the last line need not end.  `lines_joinLines` is the
round trip: lines that are joined by one ending are read back, unless a carriage
return stands last in a line that is joined by line feeds.
-/

import Mathlib.Algebra.GroupWithZero.Nat
import Mathlib.Data.List.Basic

namespace Mise.Lib

/-! ### Splitting -/

/-- `str::split_inclusive` at line feeds. -/
def rawLines : List Char → List (List Char)
  | [] => []
  | c :: cs =>
    if c = '\n' then
      ['\n'] :: rawLines cs
    else
      match rawLines cs with
      | [] => [[c]]
      | l :: ls => (c :: l) :: ls

/-- A line without its ending. -/
def chomp (l : List Char) : List Char :=
  if l.getLast? = some '\n' then
    if l.dropLast.getLast? = some '\r' then l.dropLast.dropLast else l.dropLast
  else
    l

/-- `str::lines`. -/
def lines (cs : List Char) : List (List Char) := (rawLines cs).map chomp

/-- Whether a line ends with a carriage return. -/
def endsCr (l : List Char) : Bool := l.getLast? = some '\r'

/-- Whether a text holds a carriage return before a line feed. -/
def hasCrlf : List Char → Bool
  | [] => false
  | c :: cs => (c = '\r' && cs.head? = some '\n') || hasCrlf cs

/-! ### One line at a time -/

/-- Every text is empty, one line that does not end, or a line that ends and the
text after it. -/
theorem lineInduction {motive : List Char → Prop} (nil : motive [])
    (last : ∀ l, l ≠ [] → '\n' ∉ l → motive l)
    (line : ∀ l rest, '\n' ∉ l → motive rest → motive (l ++ '\n' :: rest)) (cs : List Char) :
    motive cs := by
  induction hlen : cs.length using Nat.strongRecOn generalizing cs with
  | ind n ih =>
    by_cases hmem : '\n' ∈ cs
    · obtain ⟨l, rest, rfl, hl⟩ := List.eq_append_cons_of_mem hmem
      refine line l rest hl (ih rest.length ?_ rest rfl)
      rw [← hlen, List.length_append, List.length_cons]
      omega
    · cases cs with
      | nil => exact nil
      | cons c cs => exact last _ (List.cons_ne_nil c cs) hmem

theorem rawLines_line {l : List Char} (hl : '\n' ∉ l) (rest : List Char) :
    rawLines (l ++ '\n' :: rest) = (l ++ ['\n']) :: rawLines rest := by
  induction l with
  | nil => rw [List.nil_append, rawLines, if_pos rfl, List.nil_append]
  | cons c l ih =>
    rw [List.mem_cons, not_or] at hl
    rw [List.cons_append, rawLines, if_neg (Ne.symm hl.1), ih hl.2]
    rfl

theorem rawLines_last {l : List Char} (hl : '\n' ∉ l) (hne : l ≠ []) : rawLines l = [l] := by
  induction l with
  | nil => exact absurd rfl hne
  | cons c l ih =>
    rw [List.mem_cons, not_or] at hl
    rw [rawLines, if_neg (Ne.symm hl.1)]
    cases l with
    | nil => rfl
    | cons d l => rw [ih hl.2 (List.cons_ne_nil d l)]

theorem lines_line {l : List Char} (hl : '\n' ∉ l) (rest : List Char) :
    lines (l ++ '\n' :: rest) = (if endsCr l then l.dropLast else l) :: lines rest := by
  rw [lines, rawLines_line hl, List.map_cons, chomp, List.getLast?_concat, if_pos rfl,
    List.dropLast_concat, endsCr]
  simp only [decide_eq_true_eq]
  rfl

theorem lines_last {l : List Char} (hl : '\n' ∉ l) (hne : l ≠ []) : lines l = [l] := by
  rw [lines, rawLines_last hl hne, List.map_singleton, chomp, if_neg]
  exact fun hlast => hl (List.mem_of_getLast? hlast)

theorem hasCrlf_line {l : List Char} (hl : '\n' ∉ l) (rest : List Char) :
    hasCrlf (l ++ '\n' :: rest) = (endsCr l || hasCrlf rest) := by
  induction l with
  | nil => rfl
  | cons c l ih =>
    rw [List.mem_cons, not_or] at hl
    rw [List.cons_append, hasCrlf, ih hl.2]
    cases l with
    | nil => simp [endsCr]
    | cons d l =>
      rw [List.mem_cons, not_or] at hl
      simp [endsCr, Ne.symm hl.2.1]

theorem hasCrlf_last {l : List Char} (hl : '\n' ∉ l) : hasCrlf l = false := by
  induction l with
  | nil => rfl
  | cons c l ih =>
    rw [List.mem_cons, not_or] at hl
    rw [hasCrlf, ih hl.2, Bool.or_false]
    cases l with
    | nil => simp
    | cons d l =>
      rw [List.mem_cons, not_or] at hl
      simp [Ne.symm hl.2.1]

theorem notMem_lines {cs l : List Char} (h : l ∈ lines cs) : '\n' ∉ l := by
  induction cs using lineInduction with
  | nil => exact absurd h List.not_mem_nil
  | last m hne hm =>
    rw [lines_last hm hne, List.mem_singleton] at h
    exact h ▸ hm
  | line m rest hm ih =>
    rw [lines_line hm, List.mem_cons] at h
    rcases h with rfl | h
    · split
      · exact fun hmem => hm ((List.dropLast_sublist m).subset hmem)
      · exact hm
    · exact ih h

/-! ### Joined lines -/

/-- The ending that a text's lines are joined by. -/
def ending (crlf : Bool) : List Char := if crlf then ['\r', '\n'] else ['\n']

/-- Lines of which each is ended. -/
def endedLines (crlf : Bool) (ls : List (List Char)) : List Char := ls.flatMap (· ++ ending crlf)

/-- Lines that are joined are ended, all but the last. -/
theorem intercalate_concat (crlf : Bool) (ls : List (List Char)) (l : List Char) :
    (ending crlf).intercalate (ls ++ [l]) = endedLines crlf ls ++ l := by
  induction ls with
  | nil => exact List.intercalate_singleton
  | cons m ls ih =>
    have hcons : endedLines crlf (m :: ls) = m ++ ending crlf ++ endedLines crlf ls :=
      List.flatMap_cons
    rw [List.cons_append, List.intercalate_cons_of_ne_nil (by simp), ih, hcons,
      List.append_assoc, List.append_assoc, List.append_assoc]

/-- Ended lines are read back, and the text after them is read on. -/
theorem lines_endedLines {crlf : Bool} {ls : List (List Char)} (hls : ∀ l ∈ ls, '\n' ∉ l)
    (hcr : crlf = false → ∀ l ∈ ls, endsCr l = false) (rest : List Char) :
    lines (endedLines crlf ls ++ rest) = ls ++ lines rest := by
  induction ls with
  | nil => rfl
  | cons l ls ih =>
    have hl := hls l List.mem_cons_self
    have ih := ih (fun m hm => hls m (List.mem_cons_of_mem l hm))
      fun h m hm => hcr h m (List.mem_cons_of_mem l hm)
    rw [endedLines, List.flatMap_cons, ← endedLines, List.append_assoc, List.append_assoc]
    cases crlf with
    | false =>
      show lines (l ++ '\n' :: (endedLines false ls ++ rest)) = _
      rw [lines_line hl, ih, hcr rfl l List.mem_cons_self, if_neg Bool.false_ne_true,
        List.cons_append]
    | true =>
      have hl' : '\n' ∉ l ++ ['\r'] := by
        simp [hl]
      show lines (l ++ '\r' :: '\n' :: (endedLines true ls ++ rest)) = _
      rw [← List.singleton_append, ← List.append_assoc, lines_line hl', ih]
      have hends : endsCr (l ++ ['\r']) = true := by simp [endsCr]
      rw [if_pos hends, List.dropLast_concat, List.cons_append]

/-! ### Texts whose last line ends -/

/-- A line without the carriage return that would be read as part of its ending. -/
def stripCr (l : List Char) : List Char := if endsCr l then l.dropLast else l

theorem stripCr_eq_self {l : List Char} : stripCr l = l ↔ endsCr l = false := by
  unfold stripCr
  split
  · case isTrue h =>
    constructor
    · intro heq
      have hne : l ≠ [] := by
        rintro rfl
        exact absurd h Bool.false_ne_true
      have hlen := congrArg List.length heq
      rw [List.length_dropLast] at hlen
      have := List.length_pos_iff.2 hne
      omega
    · intro hfalse
      rw [hfalse] at h
      exact absurd h Bool.false_ne_true
  · case isFalse h => exact iff_of_true rfl (Bool.eq_false_iff.2 h)

theorem stripCr_cons {c : Char} (hc : c ≠ '\r') (l : List Char) :
    stripCr (c :: l) = c :: stripCr l := by
  cases l with
  | nil => exact stripCr_eq_self.2 (decide_eq_false fun h => hc (Option.some.inj h))
  | cons d l =>
    have hends : endsCr (c :: d :: l) = endsCr (d :: l) := by
      rw [endsCr, List.getLast?_cons_cons, endsCr]
    rw [stripCr, stripCr, hends]
    split
    · exact List.dropLast_cons_cons
    · rfl

theorem map_stripCr {ls : List (List Char)} (h : ∀ l ∈ ls, endsCr l = false) :
    ls.map stripCr = ls := by
  have hmap : ls.map stripCr = ls.map id :=
    List.map_congr_left fun l hl => stripCr_eq_self.2 (h l hl)
  rw [hmap, List.map_id]

theorem notMem_stripCr {l : List Char} {c : Char} (hl : c ∉ l) : c ∉ stripCr l := by
  unfold stripCr
  split
  · exact fun hmem => hl ((List.dropLast_sublist l).subset hmem)
  · exact hl

theorem length_stripCr_le (l : List Char) : (stripCr l).length ≤ l.length := by
  unfold stripCr
  split
  · rw [List.length_dropLast]
    omega
  · exact Nat.le_refl _

/-- The carriage return that is taken off. -/
theorem eq_concat_of_endsCr {l : List Char} (h : endsCr l = true) : l = stripCr l ++ ['\r'] := by
  rw [stripCr, if_pos h]
  exact (List.dropLast_append_getLast? '\r' (of_decide_eq_true h)).symm

/-- Ended lines are read back without the carriage returns at their ends. -/
theorem lines_endedLines_false {ls : List (List Char)} (hls : ∀ l ∈ ls, '\n' ∉ l)
    (rest : List Char) : lines (endedLines false ls ++ rest) = ls.map stripCr ++ lines rest := by
  induction ls with
  | nil => rfl
  | cons l ls ih =>
    rw [List.forall_mem_cons] at hls
    rw [endedLines, List.flatMap_cons, ← endedLines, List.append_assoc, List.append_assoc]
    show lines (l ++ '\n' :: (endedLines false ls ++ rest)) = _
    rw [lines_line hls.1, ih hls.2]
    rfl

/-- The first line of a text and what is behind it. -/
theorem line_inj {l m r s : List Char} (hl : '\n' ∉ l) (hm : '\n' ∉ m)
    (h : l ++ '\n' :: r = m ++ '\n' :: s) : l = m ∧ r = s := by
  have hraw := congrArg rawLines h
  rw [rawLines_line hl, rawLines_line hm] at hraw
  obtain rfl := List.append_cancel_right (List.cons.inj hraw).1
  exact ⟨rfl, (List.cons.inj (List.append_cancel_left h)).2⟩

/-- A text is empty, or its last line ends. -/
def Ended (cs : List Char) : Prop := cs = [] ∨ cs.getLast? = some '\n'

/-- What is left of a text behind its first line still ends. -/
theorem Ended.of_line {l rest : List Char} (h : Ended (l ++ '\n' :: rest)) : Ended rest := by
  cases rest with
  | nil => exact .inl rfl
  | cons c rest =>
    rcases h with h | h
    · exact absurd h (by simp)
    · rw [List.getLast?_append, List.getLast?_cons_cons, List.getLast?_cons, Option.some_or] at h
      exact .inr (by rw [List.getLast?_cons, h])

theorem ended_line {l rest : List Char} (h : Ended rest) : Ended (l ++ '\n' :: rest) := by
  refine .inr ?_
  rcases h with rfl | h
  · exact List.getLast?_concat
  · rw [List.getLast?_append, List.getLast?_cons, h]
    rfl

theorem not_ended_last {l : List Char} (hl : '\n' ∉ l) (hne : l ≠ []) : ¬Ended l := by
  rintro (rfl | h)
  · exact hne rfl
  · exact hl (List.mem_of_getLast? h)

/-- A text has a line for each line feed. -/
theorem length_lines {cs : List Char} (h : Ended cs) : (lines cs).length = cs.count '\n' := by
  induction cs using lineInduction with
  | nil => rfl
  | last l hne hl => exact absurd h (not_ended_last hl hne)
  | line l rest hl ih =>
    rw [lines_line hl, List.length_cons, ih h.of_line, List.count_append, List.count_cons_self,
      List.count_eq_zero.2 hl]
    omega

/-- A text that ends is made of its lines exactly when they end with line feeds alone. -/
theorem endedLines_lines {cs : List Char} (h : Ended cs) :
    endedLines false (lines cs) = cs ↔ hasCrlf cs = false := by
  induction cs using lineInduction with
  | nil => exact iff_of_true rfl rfl
  | last l hne hl => exact absurd h (not_ended_last hl hne)
  | line l rest hl ih =>
    have hcons : endedLines false (lines (l ++ '\n' :: rest)) =
        stripCr l ++ '\n' :: endedLines false (lines rest) := by
      rw [lines_line hl, endedLines, List.flatMap_cons, ← endedLines, List.append_assoc]
      rfl
    rw [hcons, hasCrlf_line hl, Bool.or_eq_false_iff, ← ih h.of_line, ← stripCr_eq_self]
    constructor
    · exact line_inj (notMem_stripCr hl) hl
    · rintro ⟨hl', hrest⟩
      rw [hl', hrest]

/-- Lines are joined by line feeds and ended by one. -/
theorem endedLines_eq_intercalate {ls : List (List Char)} (hne : ls ≠ []) :
    endedLines false ls = ['\n'].intercalate ls ++ ['\n'] := by
  obtain ⟨init, l, rfl⟩ := (List.eq_nil_or_concat ls).resolve_left hne
  have hjoin := intercalate_concat false init l
  rw [List.concat_eq_append]
  show _ = (ending false).intercalate (init ++ [l]) ++ _
  rw [hjoin, endedLines, List.flatMap_append, ← endedLines, List.flatMap_singleton,
    List.append_assoc]
  rfl

theorem ended_endedLines (ls : List (List Char)) : Ended (endedLines false ls) := by
  by_cases hne : ls = []
  · exact .inl (hne ▸ rfl)
  · rw [endedLines_eq_intercalate hne]
    exact .inr List.getLast?_concat

theorem count_endedLines (ls : List (List Char)) :
    (endedLines false ls).count '\n' = ls.length + (ls.map (List.count '\n')).sum := by
  induction ls with
  | nil => rfl
  | cons l ls ih =>
    rw [endedLines, List.flatMap_cons, ← endedLines, List.count_append, List.count_append, ih,
      List.map_cons, List.sum_cons, List.length_cons]
    show List.count '\n' l + 1 + _ = _
    omega

/-- The lines of a text that does not end, each without the carriage return at its end,
make up the text exactly when there are no such carriage returns. -/
theorem intercalate_stripCr_lines {cs : List Char} (h : cs.getLast? ≠ some '\n') :
    ['\n'].intercalate ((lines cs).map stripCr) = cs ↔ hasCrlf cs = false ∧ endsCr cs = false := by
  induction cs using lineInduction with
  | nil => exact iff_of_true rfl ⟨rfl, rfl⟩
  | last l hne hl =>
    rw [lines_last hl hne, List.map_singleton, List.intercalate_singleton, hasCrlf_last hl,
      stripCr_eq_self]
    exact (and_iff_right rfl).symm
  | line l rest hl ih =>
    cases rest with
    | nil =>
      rw [List.getLast?_concat] at h
      exact absurd rfl h
    | cons c rest =>
      have hlast : (l ++ '\n' :: c :: rest).getLast? = (c :: rest).getLast? := by
        rw [List.getLast?_append, List.getLast?_cons_cons, List.getLast?_cons, Option.some_or]
      have hne : (lines (c :: rest)).map stripCr ≠ [] := by
        intro hnil
        have hcs : rawLines (c :: rest) = [] :=
          List.map_eq_nil_iff.1 (List.map_eq_nil_iff.1 hnil)
        rw [rawLines] at hcs
        split at hcs
        · exact List.cons_ne_nil _ _ hcs
        · split at hcs <;> exact List.cons_ne_nil _ _ hcs
      have hends : endsCr (l ++ '\n' :: c :: rest) = endsCr (c :: rest) := by
        rw [endsCr, hlast, endsCr]
      rw [hlast] at h
      rw [lines_line hl, List.map_cons, List.intercalate_cons_of_ne_nil hne, hasCrlf_line hl,
        hends, List.append_assoc, List.singleton_append, Bool.or_eq_false_iff, and_assoc, ← ih h]
      show stripCr (stripCr l) ++ _ = _ ↔ _
      constructor
      · intro heq
        obtain ⟨hl', hrest⟩ := line_inj (notMem_stripCr (notMem_stripCr hl)) hl heq
        refine ⟨?_, hrest⟩
        by_contra hcr
        rw [Bool.not_eq_false] at hcr
        have hlen := congrArg List.length hl'
        have hlen' := congrArg List.length (eq_concat_of_endsCr hcr)
        rw [List.length_append, List.length_singleton] at hlen'
        have hle := length_stripCr_le (stripCr l)
        omega
      · rintro ⟨hcr, hrest⟩
        rw [stripCr_eq_self.2 hcr, stripCr_eq_self.2 hcr, hrest]

/-- A text that does not end has one more line. -/
theorem length_lines_of_not_ended {cs : List Char} (h : ¬Ended cs) :
    (lines cs).length = cs.count '\n' + 1 := by
  induction cs using lineInduction with
  | nil => exact absurd (.inl rfl) h
  | last l hne hl =>
    rw [lines_last hl hne, List.length_singleton, List.count_eq_zero.2 hl]
  | line l rest hl ih =>
    have hrest : ¬Ended rest := by
      rintro (rfl | hlast)
      · exact h (.inr List.getLast?_concat)
      · refine h (.inr ?_)
        rw [List.getLast?_append, List.getLast?_cons, hlast]
        rfl
    rw [lines_line hl, List.length_cons, ih hrest, List.count_append, List.count_cons_self,
      List.count_eq_zero.2 hl]
    omega

theorem sum_count_eq_zero {ls : List (List Char)} (hls : ∀ l ∈ ls, '\n' ∉ l) :
    (ls.map (List.count '\n')).sum = 0 := by
  rw [List.sum_eq_zero_iff_forall_eq_nat]
  intro n hn
  obtain ⟨l, hl, rfl⟩ := List.mem_map.1 hn
  exact List.count_eq_zero.2 (hls l hl)

/-- Lines without line feeds that are joined. -/
theorem count_intercalate {ls : List (List Char)} (hls : ∀ l ∈ ls, '\n' ∉ l) :
    (['\n'].intercalate ls).count '\n' = ls.length - 1 := by
  by_cases hne : ls = []
  · rw [hne]
    rfl
  · have hcount := count_endedLines ls
    rw [endedLines_eq_intercalate hne, List.count_append, sum_count_eq_zero hls] at hcount
    have hone : List.count '\n' ['\n'] = 1 := rfl
    omega

/-- In a text without carriage returns before line feeds or at its end, no line has one at
its end. -/
theorem endsCr_of_mem_lines {cs : List Char} (hcrlf : hasCrlf cs = false)
    (hend : endsCr cs = false) : ∀ l ∈ lines cs, endsCr l = false := by
  induction cs using lineInduction with
  | nil => exact fun l hl => nomatch hl
  | last l hne hl =>
    rw [lines_last hl hne]
    intro m hm
    rwa [List.mem_singleton.1 hm]
  | line l rest hl ih =>
    rw [hasCrlf_line hl, Bool.or_eq_false_iff] at hcrlf
    have hrest : endsCr rest = false := by
      cases rest with
      | nil => rfl
      | cons c rest =>
        rwa [endsCr, List.getLast?_append, List.getLast?_cons_cons, List.getLast?_cons,
          Option.some_or, ← List.getLast?_cons] at hend
    rw [lines_line hl, hcrlf.1, if_neg Bool.false_ne_true]
    intro m hm
    rcases List.mem_cons.1 hm with rfl | hm
    · exact hcrlf.1
    · exact ih hcrlf.2 hrest m hm

/-- A line ending ends with a line feed. -/
theorem exists_ending (crlf : Bool) : ∃ cr, ending crlf = cr ++ ['\n'] ∧ '\n' ∉ cr := by
  cases crlf with
  | false => exact ⟨[], rfl, List.not_mem_nil⟩
  | true => exact ⟨['\r'], rfl, by decide⟩

/-- Lines are read one text after the other. -/
theorem rawLines_append {a : List Char} (ha : Ended a) (b : List Char) :
    rawLines (a ++ b) = rawLines a ++ rawLines b := by
  induction a using lineInduction with
  | nil => rfl
  | last l hne hl => exact absurd ha (not_ended_last hl hne)
  | line l rest hl ih =>
    rw [List.append_assoc, List.cons_append, rawLines_line hl, rawLines_line hl, ih ha.of_line]
    rfl

theorem lines_append {a : List Char} (ha : Ended a) (b : List Char) :
    lines (a ++ b) = lines a ++ lines b := by
  rw [lines, rawLines_append ha, List.map_append]
  rfl

theorem flatten_rawLines (cs : List Char) : (rawLines cs).flatten = cs := by
  induction cs using lineInduction with
  | nil => rfl
  | last l hne hl => rw [rawLines_last hl hne, List.flatten_singleton]
  | line l rest hl ih =>
    rw [rawLines_line hl, List.flatten_cons, ih, List.append_assoc]
    rfl

theorem ne_nil_of_mem_rawLines {cs l : List Char} (h : l ∈ rawLines cs) : l ≠ [] := by
  induction cs using lineInduction with
  | nil => exact absurd h List.not_mem_nil
  | last m hne hm =>
    rw [rawLines_last hm hne, List.mem_singleton] at h
    exact h ▸ hne
  | line m rest hm ih =>
    rw [rawLines_line hm, List.mem_cons] at h
    rcases h with rfl | h
    · exact List.append_ne_nil_of_right_ne_nil _ (List.cons_ne_nil _ _)
    · exact ih h

/-- In a text that ends, every line does. -/
theorem exists_of_mem_rawLines {cs raw : List Char} (hcs : Ended cs) (h : raw ∈ rawLines cs) :
    ∃ l, raw = l ++ ['\n'] ∧ '\n' ∉ l := by
  induction cs using lineInduction with
  | nil => exact absurd h List.not_mem_nil
  | last l hne hl => exact absurd hcs (not_ended_last hl hne)
  | line l rest hl ih =>
    rw [rawLines_line hl, List.mem_cons] at h
    rcases h with rfl | h
    · exact ⟨l, rfl, hl⟩
    · exact ih hcs.of_line h

/-- Lines that end are read one by one. -/
theorem rawLines_flatten {raws : List (List Char)}
    (h : ∀ raw ∈ raws, ∃ l, raw = l ++ ['\n'] ∧ '\n' ∉ l) :
    rawLines raws.flatten = raws ∧ Ended raws.flatten ∧ raws.flatten.count '\n' = raws.length := by
  induction raws with
  | nil => exact ⟨rfl, .inl rfl, rfl⟩
  | cons raw raws ih =>
    rw [List.forall_mem_cons] at h
    obtain ⟨⟨l, rfl, hl⟩, hraws⟩ := h
    obtain ⟨hread, hended, hcount⟩ := ih hraws
    have hflatten : ((l ++ ['\n']) :: raws).flatten = l ++ '\n' :: raws.flatten := by simp
    rw [hflatten]
    refine ⟨?_, ended_line hended, ?_⟩
    · rw [rawLines_line hl, hread]
    · rw [List.count_append, List.count_cons_self, hcount, List.count_eq_zero.2 hl,
        List.length_cons]
      omega

/-! ### Texts whose last line does not end -/

/-- Lines behind a first one. -/
def joined (ls : List (List Char)) : List Char := ls.flatMap ('\n' :: ·)

/-- A text without the carriage returns that stand in front of a line feed. -/
def dropCrs : List Char → List Char
  | [] => []
  | c :: cs => if c = '\r' ∧ cs.head? = some '\n' then dropCrs cs else c :: dropCrs cs

theorem length_dropCrs_le (cs : List Char) : (dropCrs cs).length ≤ cs.length := by
  induction cs with
  | nil => exact Nat.le_refl _
  | cons c cs ih =>
    rw [dropCrs]
    split
    · exact Nat.le_succ_of_le ih
    · exact Nat.succ_le_succ ih

/-- **Nothing is dropped exactly where no carriage return stands in front of a
line feed.** -/
theorem dropCrs_eq_self_iff {cs : List Char} : dropCrs cs = cs ↔ hasCrlf cs = false := by
  induction cs with
  | nil => exact iff_of_true rfl rfl
  | cons c cs ih =>
    rw [dropCrs, hasCrlf, Bool.or_eq_false_iff, Bool.and_eq_false_iff]
    split
    · rename_i h
      refine iff_of_false (fun heq => ?_) fun hfalse => ?_
      · have hlength := congrArg List.length heq
        have hle := length_dropCrs_le cs
        rw [List.length_cons] at hlength
        omega
      · rcases hfalse.1 with hc | hhead
        · exact of_decide_eq_false hc h.1
        · exact of_decide_eq_false hhead h.2
    · rename_i h
      rw [List.cons.injEq, ih]
      refine ⟨fun heq => ⟨?_, heq.2⟩, fun hfalse => ⟨rfl, hfalse.2⟩⟩
      by_cases hc : c = '\r'
      · exact .inr (decide_eq_false fun hhead => h ⟨hc, hhead⟩)
      · exact .inl (decide_eq_false hc)

theorem dropCrs_of_notMem {l : List Char} (hl : '\n' ∉ l) : dropCrs l = l :=
  dropCrs_eq_self_iff.2 (hasCrlf_last hl)

theorem dropCrs_line {l : List Char} (hl : '\n' ∉ l) (rest : List Char) :
    dropCrs (l ++ '\n' :: rest) = stripCr l ++ '\n' :: dropCrs rest := by
  induction l with
  | nil => exact if_neg fun h => absurd h.1 (by decide)
  | cons c l ih =>
    rw [List.mem_cons, not_or] at hl
    rw [List.cons_append, dropCrs, ih hl.2]
    cases l with
    | nil =>
      by_cases hc : c = '\r'
      · subst hc
        rw [if_pos ⟨rfl, rfl⟩]
        rfl
      · rw [if_neg fun h => hc h.1, stripCr_cons hc]
        rfl
    | cons d l =>
      rw [List.mem_cons, not_or] at hl
      rw [if_neg fun h => hl.2.1 (Option.some.inj h.2).symm]
      have hends : endsCr (c :: d :: l) = endsCr (d :: l) := by
        rw [endsCr, List.getLast?_cons_cons, endsCr]
      rw [stripCr, stripCr, hends]
      split
      · rfl
      · rfl

/-- The lines of a text whose last line does not end. -/
theorem lines_eq {p : List Char} (hne : p ≠ []) (hlast : p.getLast? ≠ some '\n') :
    ∃ f tl, lines p = f :: tl ∧ f ++ joined tl = dropCrs p := by
  induction p using lineInduction with
  | nil => exact absurd rfl hne
  | last l _ hl =>
    refine ⟨l, [], lines_last hl hne, ?_⟩
    rw [dropCrs_of_notMem hl]
    exact List.append_nil l
  | line l rest hl ih =>
    cases rest with
    | nil => exact absurd List.getLast?_concat hlast
    | cons c rest =>
      rw [List.getLast?_append, List.getLast?_cons_cons, List.getLast?_cons,
        Option.some_or, ← List.getLast?_cons] at hlast
      obtain ⟨f, tl, hlines, hjoined⟩ := ih (List.cons_ne_nil c rest) hlast
      refine ⟨stripCr l, f :: tl, ?_, ?_⟩
      · rw [lines_line hl, hlines]
        rfl
      · rw [dropCrs_line hl, ← hjoined]
        rfl

theorem endsCr_append {front l : List Char} (hne : l ≠ []) :
    endsCr (front ++ l) = endsCr l := by
  rw [endsCr, endsCr, List.getLast?_append_of_ne_nil _ hne]

theorem stripCr_append {front : List Char} (hcr : endsCr front = false) (l : List Char) :
    stripCr (front ++ l) = front ++ stripCr l := by
  cases l with
  | nil => rw [List.append_nil, stripCr_eq_self.2 hcr, stripCr_eq_self.2 rfl, List.append_nil]
  | cons c l =>
    have hne := List.cons_ne_nil c l
    rw [stripCr, stripCr, endsCr_append hne]
    split
    · exact List.dropLast_append_of_ne_nil hne
    · rfl

/-- A text behind a front and before a line feed: the front stands on its first
line. -/
theorem lines_front {front p : List Char} (hfront : '\n' ∉ front) (hcr : endsCr front = false)
    (hne : p ≠ []) (hlast : p.getLast? ≠ some '\n') (hends : endsCr p = false)
    {f : List Char} {tl : List (List Char)} (hlines : lines p = f :: tl) :
    lines (front ++ (p ++ ['\n'])) = (front ++ f) :: tl := by
  induction p using lineInduction generalizing front f tl with
  | nil => exact absurd rfl hne
  | last l _ hl =>
    rw [lines_last hl hne] at hlines
    obtain ⟨rfl, rfl⟩ := List.cons.inj hlines
    rw [← List.append_assoc, lines_line (fun h => (List.mem_append.1 h).elim hfront hl),
      endsCr_append hne, hends]
    rfl
  | line l rest hl ih =>
    cases rest with
    | nil => exact absurd List.getLast?_concat hlast
    | cons c rest =>
      have hrest := List.cons_ne_nil c rest
      rw [List.getLast?_append_of_ne_nil _ (List.cons_ne_nil _ _), List.getLast?_cons_cons] at hlast
      rw [endsCr_append (List.cons_ne_nil _ _)] at hends
      have hends : endsCr (c :: rest) = false := by
        rwa [endsCr, List.getLast?_cons_cons] at hends
      obtain ⟨f', tl', hlines', -⟩ := lines_eq hrest hlast
      have ih : lines ((c :: rest) ++ ['\n']) = f' :: tl' :=
        ih List.not_mem_nil rfl hrest hlast hends hlines'
      rw [lines_line hl, hlines'] at hlines
      obtain ⟨rfl, rfl⟩ := List.cons.inj hlines
      have hwhole : front ++ (l ++ '\n' :: c :: rest ++ ['\n']) =
          (front ++ l) ++ '\n' :: ((c :: rest) ++ ['\n']) := by simp
      rw [hwhole, lines_line (fun h => (List.mem_append.1 h).elim hfront hl), ih]
      exact congrArg (· :: _) (stripCr_append hcr l)

end Mise.Lib
