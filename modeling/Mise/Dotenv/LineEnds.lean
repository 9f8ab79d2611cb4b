/-
# Line ends of a dotenv text

`crates/mise-dotenv/src/parse.rs`: a text with CR LF for every newline is scanned
as the text itself.  A position in the one text has its counterpart in the other
(`Cursor.crlf`), and every scan leads from counterparts to counterparts: the scans
that stop at a line end stop at either, and those that pass one pass both of its
characters.  Errors at counterparts are on the same line.
-/

import Mathlib.Data.List.TakeWhile
import Mise.Dotenv.Lines

namespace Mise
namespace Dotenv

open Lib

/-! ### Texts -/

/-- A text with CR LF for every newline. -/
def crlf (cs : List Char) : List Char := cs.flatMap fun c => if c = '\n' then ['\r', '\n'] else [c]

section Crlf

variable {cs : List Char} {c : Char}

@[simp] theorem crlf_nil : crlf [] = [] := rfl

@[simp] theorem crlf_newline (cs : List Char) : crlf ('\n' :: cs) = '\r' :: '\n' :: crlf cs := rfl

theorem crlf_cons (h : c ≠ '\n') (cs : List Char) : crlf (c :: cs) = c :: crlf cs := by
  rw [crlf, List.flatMap_cons, if_neg h]
  rfl

@[simp] theorem crlf_append (cs ds : List Char) : crlf (cs ++ ds) = crlf cs ++ crlf ds :=
  List.flatMap_append

theorem crlf_eq_self (h : '\n' ∉ cs) : crlf cs = cs := by
  induction cs with
  | nil => rfl
  | cons c cs ih =>
    obtain ⟨hc, hcs⟩ := not_or.1 (List.mem_cons.not.1 h)
    rw [crlf_cons (Ne.symm hc), ih hcs]

theorem length_le_crlf (cs : List Char) : cs.length ≤ (crlf cs).length := by
  induction cs with
  | nil => exact le_rfl
  | cons c cs ih =>
    by_cases hc : c = '\n'
    · subst hc
      simp only [crlf_newline, List.length_cons]
      omega
    · simpa [crlf_cons hc] using ih

/-- It is longer where there is a newline. -/
theorem length_crlf_eq_iff (cs : List Char) : (crlf cs).length = cs.length ↔ '\n' ∉ cs := by
  refine ⟨fun h => ?_, fun h => by rw [crlf_eq_self h]⟩
  induction cs with
  | nil => nofun
  | cons c cs ih =>
    have hle := length_le_crlf cs
    by_cases hc : c = '\n'
    · subst hc
      simp only [crlf_newline, List.length_cons] at h
      omega
    · rw [crlf_cons hc, List.length_cons, List.length_cons] at h
      rw [List.mem_cons, not_or]
      exact ⟨Ne.symm hc, ih (by omega)⟩

/-- A line end comes first in both, or the same character. -/
theorem head?_crlf (cs : List Char) :
    (crlf cs).head? = cs.head?.map fun c => if c = '\n' then '\r' else c := by
  cases cs with
  | nil => rfl
  | cons c cs =>
    by_cases hc : c = '\n'
    · subst hc
      rfl
    · rw [crlf_cons hc, List.head?_cons, List.head?_cons, Option.map_some, if_neg hc]

theorem isEmpty_crlf (cs : List Char) : (crlf cs).isEmpty = cs.isEmpty := by
  cases cs with
  | nil => rfl
  | cons c cs =>
    by_cases hc : c = '\n'
    · subst hc
      rfl
    · rw [crlf_cons hc]
      rfl

/-- What does not tell CR from LF finds the same at the front. -/
theorem any_head?_crlf {q : Char → Bool} (hq : q '\r' = q '\n') (cs : List Char) :
    (crlf cs).head?.any q = cs.head?.any q := by
  rw [head?_crlf]
  cases cs with
  | nil => rfl
  | cons c cs =>
    by_cases hc : c = '\n'
    · subst hc
      exact hq
    · rw [List.head?_cons, Option.map_some, if_neg hc]

theorem head?_crlf_eq_some_iff (hr : c ≠ '\r') (hn : c ≠ '\n') (cs : List Char) :
    (crlf cs).head? = some c ↔ cs.head? = some c := by
  rw [head?_crlf]
  cases cs with
  | nil => rfl
  | cons d cs =>
    by_cases hd : d = '\n'
    · subst hd
      exact iff_of_false (fun h => hr (Option.some.inj h).symm) fun h => hn (Option.some.inj h).symm
    · rw [List.head?_cons, Option.map_some, if_neg hd]

/-- A run that stops at line ends is the same. -/
theorem span_crlf {q : Char → Bool} (hr : q '\r' = false) (hn : q '\n' = false)
    (cs : List Char) : (crlf cs).takeWhile q = cs.takeWhile q ∧
      (crlf cs).dropWhile q = crlf (cs.dropWhile q) := by
  induction cs with
  | nil => exact ⟨rfl, rfl⟩
  | cons c cs ih =>
    by_cases hc : c = '\n'
    · subst hc
      simp [hr, hn]
    · rw [crlf_cons hc, List.takeWhile_cons, List.takeWhile_cons, List.dropWhile_cons,
        List.dropWhile_cons]
      cases q c with
      | true => exact ⟨congrArg (c :: ·) ih.1, ih.2⟩
      | false => exact ⟨rfl, (crlf_cons hc cs).symm⟩

theorem not_mem_takeWhile {q : Char → Bool} (hq : q c = false) (cs : List Char) :
    c ∉ cs.takeWhile q := fun h => Bool.noConfusion (hq.symm.trans (List.mem_takeWhile_imp h))

/-- A text without line ends stands in front of both. -/
theorem isPrefix_crlf_iff {pre : List Char} (hr : '\r' ∉ pre) (hn : '\n' ∉ pre)
    (cs : List Char) : pre <+: crlf cs ↔ pre <+: cs := by
  induction pre generalizing cs with
  | nil => exact iff_of_true List.nil_prefix List.nil_prefix
  | cons a pre ih =>
    obtain ⟨har, hr'⟩ := not_or.1 (List.mem_cons.not.1 hr)
    obtain ⟨han, hn'⟩ := not_or.1 (List.mem_cons.not.1 hn)
    cases cs with
    | nil => rfl
    | cons c cs =>
      by_cases hc : c = '\n'
      · subst hc
        rw [crlf_newline, List.cons_prefix_cons, List.cons_prefix_cons]
        exact iff_of_false (fun h => har h.1.symm) fun h => han h.1.symm
      · rw [crlf_cons hc, List.cons_prefix_cons, List.cons_prefix_cons, ih hr' hn']

/-- A part in front and its counterpart. -/
theorem take_crlf (n : ℕ) (cs : List Char) :
    (crlf cs).take (crlf (cs.take n)).length = crlf (cs.take n) ∧
      (crlf cs).drop (crlf (cs.take n)).length = crlf (cs.drop n) := by
  have hsplit : crlf cs = crlf (cs.take n) ++ crlf (cs.drop n) := by
    rw [← crlf_append, List.take_append_drop]
  rw [hsplit, List.take_left, List.drop_left]
  exact ⟨rfl, rfl⟩

end Crlf

/-! ### Positions -/

namespace Cursor

/-- The counterpart of a position. -/
def crlf (c : Cursor) : Cursor := ⟨(Dotenv.crlf c.before.reverse).reverse, Dotenv.crlf c.rest⟩

/-- A text in which no line end is a CR LF yet. -/
def Plain (c : Cursor) : Prop := '\r' ∉ c.before.reverse ++ c.rest

variable {c c' : Cursor}

@[simp] theorem rest_crlf (c : Cursor) : c.crlf.rest = Dotenv.crlf c.rest := rfl

theorem Plain.passes (h : c.Plain) (hpass : c.Passes c') : c'.Plain := by
  obtain ⟨n, -, rfl⟩ := hpass
  rw [Plain, forward, List.reverse_append, List.reverse_reverse, List.append_assoc,
    List.take_append_drop]
  exact h

theorem Plain.rest (h : c.Plain) : '\r' ∉ c.rest := fun hmem => h (List.mem_append_right _ hmem)

theorem forward_crlf (c : Cursor) (n : ℕ) :
    c.crlf.forward (Dotenv.crlf (c.rest.take n)).length = (c.forward n).crlf := by
  obtain ⟨htake, hdrop⟩ := take_crlf n c.rest
  rw [forward, rest_crlf, htake, hdrop, crlf, crlf, forward, List.reverse_append,
    List.reverse_reverse, crlf_append, List.reverse_append]

/-- Over a part without newlines the positions move on alike. -/
theorem forward_crlf_of_not_mem {n : ℕ} (hn : n ≤ c.rest.length) (h : '\n' ∉ c.rest.take n) :
    c.crlf.forward n = (c.forward n).crlf := by
  rw [← forward_crlf, crlf_eq_self h, List.length_take, Nat.min_eq_left hn]

theorem skipWhile_crlf {q : Char → Bool} (hr : q '\r' = false) (hn : q '\n' = false)
    (c : Cursor) : c.crlf.skipWhile q = (c.skipWhile q).crlf := by
  obtain ⟨htake, hdrop⟩ := span_crlf hr hn c.rest
  rw [skipWhile, rest_crlf, htake, hdrop, crlf, crlf, skipWhile, List.reverse_append,
    List.reverse_reverse, crlf_append, List.reverse_append,
    crlf_eq_self (not_mem_takeWhile hn c.rest)]

theorem skipHorizontalWhitespace_crlf (c : Cursor) :
    c.crlf.skipHorizontalWhitespace = c.skipHorizontalWhitespace.crlf :=
  skipWhile_crlf (by decide) (by decide) c

theorem consumeNewline?_crlf (h : '\r' ∉ c.rest) :
    c.crlf.consumeNewline? = c.consumeNewline?.map crlf := by
  obtain ⟨before, rest⟩ := c
  cases rest with
  | nil => rfl
  | cons a rest =>
    by_cases ha : a = '\n'
    · subst ha
      exact congrArg some (forward_crlf ⟨before, '\n' :: rest⟩ 1)
    · have har : a ≠ '\r' := fun heq => h (heq ▸ List.mem_cons_self)
      have hnone : ∀ b r, consumeNewline? ⟨b, a :: r⟩ = none := by
        intro b r
        rw [consumeNewline?]
        split
        · case h_1 heq => exact absurd (List.cons.inj heq).1 har
        · case h_2 heq => exact absurd (List.cons.inj heq).1 har
        · case h_3 heq => exact absurd (List.cons.inj heq).1 ha
        · rfl
      rw [crlf, crlf_cons ha, hnone, hnone]
      rfl

theorem consumeNewline_crlf (h : '\r' ∉ c.rest) :
    c.crlf.consumeNewline = c.consumeNewline.crlf := by
  rw [consumeNewline, consumeNewline, consumeNewline?_crlf h]
  cases c.consumeNewline? with
  | none => rfl
  | some c' => rfl

theorem skipComment_crlf (h : '\r' ∉ c.rest) : c.crlf.skipComment = c.skipComment.crlf := by
  rw [skipComment, skipComment, skipWhile_crlf (by decide) (by decide), consumeNewline_crlf]
  exact fun hmem => h ((List.dropWhile_suffix _).mem hmem)

/-- `export` stands on its line, with either line end. -/
theorem consumeExportPrefix_crlf (c : Cursor) :
    c.crlf.consumeExportPrefix = c.consumeExportPrefix.crlf := by
  have hexport : '\r' ∉ "export".toList ∧ '\n' ∉ "export".toList := by decide
  have hiff := isPrefix_crlf_iff hexport.1 hexport.2 c.rest
  rw [consumeExportPrefix_eq, consumeExportPrefix_eq]
  by_cases hprefix : "export".toList <+: c.rest
  · have hnext : ∀ ds : List Char, "export".toList <+: ds →
        (ds[6]?.any isHorizontalWhitespace = true ∧ "export".toList <+: ds ↔
          (ds.drop 6).head?.any isHorizontalWhitespace = true) := by
      intro ds hds
      rw [List.head?_drop]
      exact and_iff_left hds
    obtain ⟨rest', hrest⟩ := hprefix
    have hdrop : (Dotenv.crlf c.rest).drop 6 = Dotenv.crlf (c.rest.drop 6) := by
      rw [← hrest, crlf_append, crlf_eq_self hexport.2]
      rfl
    have htake : c.rest.take 6 = "export".toList := by
      rw [← hrest]
      rfl
    have hlength : 6 ≤ c.rest.length := by
      rw [← hrest, List.length_append]
      exact Nat.le_add_right 6 _
    have hcond : c.crlf.rest[6]?.any isHorizontalWhitespace = true ∧
        "export".toList <+: c.crlf.rest ↔
        c.rest[6]?.any isHorizontalWhitespace = true ∧ "export".toList <+: c.rest := by
      rw [rest_crlf, hnext _ (hiff.2 ⟨rest', hrest⟩), hnext _ ⟨rest', hrest⟩, hdrop,
        any_head?_crlf rfl]
    have hforward : c.crlf.forward 6 = (c.forward 6).crlf :=
      forward_crlf_of_not_mem hlength (htake ▸ hexport.2)
    simp only [hcond, hforward, skipHorizontalWhitespace_crlf]
    exact (apply_ite crlf _ _ _).symm
  · rw [if_neg, if_neg]
    · rintro ⟨-, h⟩
      exact hprefix h
    · rintro ⟨-, h⟩
      exact hprefix (hiff.1 h)

/-- Errors at counterparts are on the same line. -/
theorem line_error_crlf (h : c.Plain) (kind : ParseErrorKind) :
    (c.crlf.error kind).line = (c.error kind).line := by
  have hline : ∀ (cs : List Char) (line : ℕ) (start start' : List Char), '\r' ∉ cs →
      (sourceLineAndStart (Dotenv.crlf cs) line start').1 =
        (sourceLineAndStart cs line start).1 := by
    intro cs
    induction cs with
    | nil => intro line start start' _; rfl
    | cons a cs ih =>
      intro line start start' h
      obtain ⟨ha, hcs⟩ := not_or.1 (List.mem_cons.not.1 h)
      by_cases hn : a = '\n'
      · subst hn
        exact ih (line + 1) [] [] hcs
      · have hstep : ∀ ds line start, sourceLineAndStart (a :: ds) line start =
            sourceLineAndStart ds line (a :: start) := by
          intro ds line start
          rw [sourceLineAndStart, if_neg]
          · simp [isNewline, hn, Ne.symm ha]
          · rintro ds' rfl
            exact absurd rfl ha
        rw [crlf_cons hn, hstep, hstep]
        exact ih line _ _ hcs
  rw [error, error]
  dsimp only
  rw [crlf, List.reverse_reverse]
  exact hline _ _ _ _ fun hmem => h (List.mem_append_left _ hmem)

end Cursor

/-! ### Scans that only look ahead -/

theorem quoteClosesOnLine_crlf (quote : Char) (escaped : Bool) (cs : List Char) :
    quoteClosesOnLine quote escaped (crlf cs) = quoteClosesOnLine quote escaped cs := by
  induction cs generalizing escaped with
  | nil => rfl
  | cons c cs ih =>
    by_cases hc : c = '\n'
    · subst hc
      rfl
    · rw [crlf_cons hc, quoteClosesOnLine, quoteClosesOnLine, ih, ih]

/-- The number of characters up to a position and their number in the counterpart. -/
def crlfLength (cs : List Char) (n : ℕ) : ℕ := (crlf (cs.take n)).length

theorem crlfLength_zero (cs : List Char) : crlfLength cs 0 = 0 := rfl

theorem crlfLength_cons {c : Char} (h : c ≠ '\n') (cs : List Char) (n : ℕ) :
    crlfLength (c :: cs) (n + 1) = crlfLength cs n + 1 := by
  rw [crlfLength, List.take_succ_cons, crlf_cons h]
  rfl

theorem map_crlfLength_cons {c : Char} (h : c ≠ '\n') (cs : List Char) (found : Option ℕ) :
    (found.map (· + 1)).map (crlfLength (c :: cs)) =
      (found.map (crlfLength cs)).map (· + 1) := by
  cases found with
  | none => rfl
  | some n => exact congrArg some (crlfLength_cons h cs n)

/-- A line end is no quote, and is escaped at most in part. -/
theorem closingQuote_crlf {quote : Char} (hr : quote ≠ '\r') (hn : quote ≠ '\n')
    (escaped : Bool) (cs : List Char) :
    closingQuote quote escaped (crlf cs) = (closingQuote quote escaped cs).map (crlfLength cs) := by
  induction cs generalizing escaped with
  | nil => rfl
  | cons c cs ih =>
    by_cases hc : c = '\n'
    · subst hc
      have hquote : ('\n' == quote) = false := beq_false_of_ne (Ne.symm hn)
      have hquote' : ('\r' == quote) = false := beq_false_of_ne (Ne.symm hr)
      have hplain : ∀ escaped ds, closingQuote quote escaped ('\n' :: ds) =
          (closingQuote quote false ds).map (· + 1) := by
        intro escaped ds
        rw [closingQuote, hquote]
        cases escaped <;> rfl
      have hplain' : ∀ escaped ds, closingQuote quote escaped ('\r' :: ds) =
          (closingQuote quote false ds).map (· + 1) := by
        intro escaped ds
        rw [closingQuote, hquote']
        cases escaped <;> rfl
      rw [crlf_newline, hplain', hplain, hplain, ih]
      cases closingQuote quote false cs with
      | none => rfl
      | some n => rfl
    · rw [crlf_cons hc, closingQuote, closingQuote, ih, ih]
      split
      · exact (map_crlfLength_cons hc cs _).symm
      split
      · exact (map_crlfLength_cons hc cs _).symm
      split
      · exact congrArg some (crlfLength_cons hc cs 0).symm
      · exact (map_crlfLength_cons hc cs _).symm

theorem map_crlfLength_newline (cs : List Char) (found : Option ℕ) :
    (found.map (· + 1)).map (crlfLength ('\n' :: cs)) =
      ((found.map (crlfLength cs)).map (· + 1)).map (· + 1) := by
  cases found with
  | none => rfl
  | some n => rfl

/-- The quote of a default word behind its sign, and what follows it. -/
def quotedWord : List Char → Option (Char × List Char)
  | sign :: quote :: word =>
    if (sign == '-' || sign == '?' || sign == '+') && isQuote quote then some (quote, word)
    else none
  | _ => none

/-- An operator without its colon. -/
def stripColon (operator : List Char) : List Char :=
  if operator.head? = some ':' then operator.tail else operator

theorem skipQuotedDefault_eq (body : List Char) : skipQuotedDefault body =
    if !(body.head?.any isSubstitutionStart) then 0
    else match quotedWord (stripColon (body.dropWhile isSubstitutionContinue)) with
    | none => 0
    | some (quote, word) =>
      match closingQuote quote false word with
      | some n => body.length - word.length + n
      | none => 0 := by
  rw [skipQuotedDefault]
  refine ite_congr rfl (fun _ => rfl) fun _ => ?_
  show (match stripColon (body.dropWhile isSubstitutionContinue) with
    | sign :: quote :: word => _
    | _ => _) = _
  cases hoperator : stripColon (body.dropWhile isSubstitutionContinue) with
  | nil => rfl
  | cons sign operator =>
    cases operator with
    | nil => rfl
    | cons quote word =>
      rw [quotedWord]
      dsimp only
      split
      · rfl
      · rfl

theorem stripColon_crlf (operator : List Char) :
    stripColon (crlf operator) = crlf (stripColon operator) := by
  have hhead := @head?_crlf_eq_some_iff ':' (by decide) (by decide) operator
  rw [stripColon, stripColon]
  by_cases h : operator.head? = some ':'
  · rw [if_pos h, if_pos (hhead.2 h)]
    obtain ⟨operator, rfl⟩ := List.head?_eq_some_iff.1 h
    rfl
  · rw [if_neg h, if_neg (mt hhead.1 h)]

theorem quotedWord_crlf (operator : List Char) : quotedWord (crlf operator) =
    (quotedWord operator).map fun found => (found.1, crlf found.2) := by
  cases operator with
  | nil => rfl
  | cons sign operator =>
    by_cases hsign : sign = '\n'
    · subst hsign
      cases operator with
      | nil => rfl
      | cons quote word => rfl
    · rw [crlf_cons hsign]
      cases operator with
      | nil => rfl
      | cons quote word =>
        by_cases hquote : quote = '\n'
        · subst hquote
          have hr : isQuote '\r' = false := rfl
          have hn : isQuote '\n' = false := rfl
          rw [crlf_newline, quotedWord, quotedWord, hr, hn, Bool.and_false]
          rfl
        · rw [crlf_cons hquote, quotedWord, quotedWord]
          split
          · rfl
          · rfl

/-- In front of the word of a default there is no line end. -/
theorem quotedWord_eq_some {body word : List Char} {quote : Char}
    (h : quotedWord (stripColon (body.dropWhile isSubstitutionContinue)) = some (quote, word)) :
    isQuote quote = true ∧ ∃ pre, body = pre ++ word ∧ '\n' ∉ pre := by
  have hname : '\n' ∉ body.takeWhile isSubstitutionContinue := not_mem_takeWhile rfl body
  have hbody := List.takeWhile_append_dropWhile (p := isSubstitutionContinue) (l := body)
  have hquoted : ∀ operator, quotedWord operator = some (quote, word) →
      isQuote quote = true ∧ ∃ pre, operator = pre ++ word ∧ '\n' ∉ pre := by
    intro operator h
    rw [quotedWord.eq_def] at h
    split at h
    · split at h
      · case isTrue sign quote' word' hif =>
        obtain ⟨rfl, rfl⟩ := Prod.mk.inj (Option.some.inj h)
        obtain ⟨hsign, hquote⟩ := Bool.and_eq_true_iff.1 hif
        refine ⟨hquote, [sign, quote'], rfl, ?_⟩
        rw [List.mem_cons, List.mem_singleton]
        rintro (rfl | rfl)
        · exact absurd hsign (by decide)
        · exact absurd hquote (by decide)
      · exact nomatch h
    · exact nomatch h
  obtain ⟨hquote, pre, hpre, hnone⟩ := hquoted _ h
  refine ⟨hquote, ?_⟩
  rw [stripColon] at hpre
  split at hpre
  · case isTrue hcolon =>
    obtain ⟨operator, hoperator⟩ := List.head?_eq_some_iff.1 hcolon
    rw [hoperator] at hpre
    refine ⟨body.takeWhile isSubstitutionContinue ++ ':' :: pre, ?_, ?_⟩
    · rw [List.append_assoc, List.cons_append, ← show operator = pre ++ word from hpre,
        ← hoperator, hbody]
    · rw [List.mem_append, List.mem_cons]
      rintro (hmem | hmem | hmem)
      · exact hname hmem
      · exact absurd hmem (by decide)
      · exact hnone hmem
  · refine ⟨body.takeWhile isSubstitutionContinue ++ pre, ?_, ?_⟩
    · rw [List.append_assoc, ← hpre, hbody]
    · rw [List.mem_append]
      rintro (hmem | hmem)
      · exact hname hmem
      · exact hnone hmem

/-- A default word in quotes is passed in both. -/
theorem skipQuotedDefault_crlf (body : List Char) :
    skipQuotedDefault (crlf body) = crlfLength body (skipQuotedDefault body) := by
  rw [skipQuotedDefault_eq, skipQuotedDefault_eq, any_head?_crlf rfl,
    (span_crlf rfl rfl body).2, stripColon_crlf, quotedWord_crlf]
  split
  · rfl
  cases hword : quotedWord (stripColon (body.dropWhile isSubstitutionContinue)) with
  | none => rfl
  | some found =>
    obtain ⟨quote, word⟩ := found
    obtain ⟨hquote, pre, rfl, hnone⟩ := quotedWord_eq_some hword
    dsimp only [Option.map_some]
    rw [closingQuote_crlf]
    · cases closingQuote quote false word with
      | none => rfl
      | some n =>
        dsimp only [Option.map_some]
        have hlength : (pre ++ word).length - word.length + n = pre.length + n := by
          rw [List.length_append, Nat.add_sub_cancel]
        rw [hlength, crlfLength, crlfLength, List.take_length_add_append, crlf_append, crlf_append,
          List.length_append, List.length_append, crlf_eq_self hnone, Nat.add_sub_cancel]
    · rintro rfl
      exact absurd hquote (by decide)
    · rintro rfl
      exact absurd hquote (by decide)

theorem substitutionEnd_of_isNewline {a : Char} (ha : isNewline a = true) (pass depth : ℕ)
    (cs : List Char) : substitutionEnd pass depth (a :: cs) =
      (substitutionEnd (pass - 1) depth cs).map (· + 1) := by
  cases pass with
  | succ pass => rw [substitutionEnd, Nat.add_sub_cancel]
  | zero =>
    have hne : ∀ b, isNewline b = false → (a == b) = false := by
      intro b hb
      refine beq_false_of_ne ?_
      rintro rfl
      exact Bool.noConfusion (ha.symm.trans hb)
    rw [substitutionEnd, hne '$' rfl, hne '\\' rfl, hne '}' rfl]
    rfl

/-- A substitution ends at the counterpart of its place. -/
theorem substitutionEnd_crlf (pass depth : ℕ) (cs : List Char) :
    substitutionEnd (crlfLength cs pass) depth (crlf cs) =
      (substitutionEnd pass depth cs).map (crlfLength cs) := by
  induction cs generalizing pass depth with
  | nil => rw [crlf_nil, substitutionEnd, substitutionEnd]; rfl
  | cons c cs ih =>
    by_cases hc : c = '\n'
    · subst hc
      rw [crlf_newline, substitutionEnd_of_isNewline rfl, substitutionEnd_of_isNewline rfl,
        substitutionEnd_of_isNewline rfl, map_crlfLength_newline, ← ih]
      cases pass with
      | zero => rfl
      | succ pass => rfl
    rw [crlf_cons hc]
    cases pass with
    | succ pass =>
      rw [crlfLength_cons hc, substitutionEnd, substitutionEnd, ih, map_crlfLength_cons hc]
    | zero =>
      have hbrace : (decide ((crlf cs).head? = some '{')) = decide (cs.head? = some '{') :=
        decide_eq_decide.2 (head?_crlf_eq_some_iff (by decide) (by decide) cs)
      rw [crlfLength_zero, substitutionEnd, substitutionEnd, hbrace]
      split
      · case isTrue hif =>
        obtain ⟨body, rfl⟩ := List.head?_eq_some_iff.1
          (of_decide_eq_true (Bool.and_eq_true_iff.1 hif).2)
        have hpass : 1 + skipQuotedDefault (crlf ('{' :: body)).tail =
            crlfLength ('{' :: body) (1 + skipQuotedDefault body) := by
          rw [Nat.add_comm, Nat.add_comm 1, crlfLength_cons (by decide), ← skipQuotedDefault_crlf]
          rfl
        rw [hpass, ih, map_crlfLength_cons hc]
        rfl
      split
      · -- what is passed behind a backslash is a line end or its first character
        have hpass : substitutionEnd 1 depth (crlf cs) =
            substitutionEnd (crlfLength cs 1) depth (crlf cs) := by
          cases cs with
          | nil => rw [crlf_nil, substitutionEnd, substitutionEnd]
          | cons d cs =>
            by_cases hd : d = '\n'
            · subst hd
              rw [crlf_newline, substitutionEnd_of_isNewline rfl, substitutionEnd_of_isNewline rfl,
                substitutionEnd_of_isNewline rfl, substitutionEnd_of_isNewline rfl]
              rfl
            · rw [crlfLength_cons hd, crlfLength_zero]
        rw [hpass, ih, map_crlfLength_cons hc]
      split
      · split
        · rfl
        · have hih := ih 0 (depth - 1)
          rw [crlfLength_zero] at hih
          rw [hih, map_crlfLength_cons hc]
      · have hih := ih 0 depth
        rw [crlfLength_zero] at hih
        rw [hih, map_crlfLength_cons hc]

/-- **A substitution ends at the same place.** -/
theorem findSubstitutionEnd_crlf (body : List Char) :
    findSubstitutionEnd (crlf body) = (findSubstitutionEnd body).map (crlfLength body) := by
  rw [findSubstitutionEnd, findSubstitutionEnd, skipQuotedDefault_crlf, substitutionEnd_crlf]

end Dotenv
end Mise
