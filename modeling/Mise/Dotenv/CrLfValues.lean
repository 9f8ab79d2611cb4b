/-
# Values with CR LF

`crates/mise-dotenv/src/parse.rs`: what is read from a text with CR LF for every
newline, side by side with what is read from the text itself (`Matches`).  Errors are
on the same line.  Expanding a text turns its line ends into newlines, so that it comes
out the same exactly where it keeps none as it is written (`expand_matches`), and so it
is for the segments of a value (`parseSegments_crlf`).
-/

import Mise.Dotenv.Pieces

namespace Mise
namespace Dotenv

open Lib

/-! ### Results side by side -/

/-- The counterpart of an expanded text, which has more characters where a line end
is kept. -/
structure TextMatches (out out' : List Char) (kept : Prop) : Prop where
  sublist : out.Sublist out'
  eq_iff : out' = out ↔ ¬kept

section TextMatches

variable {out out' rest rest' : List Char} {kept kept' : Prop}

theorem textMatches_refl (out : List Char) : TextMatches out out False :=
  ⟨.refl out, iff_of_true rfl id⟩

theorem TextMatches.congr (h : TextMatches out out' kept) (hiff : kept' ↔ kept) :
    TextMatches out out' kept' :=
  ⟨h.sublist, h.eq_iff.trans (not_congr hiff).symm⟩

theorem textMatches_crlf (out : List Char) : TextMatches out (crlf out) ('\n' ∈ out) := by
  have hsublist : out.Sublist (crlf out) := by
    induction out with
    | nil => exact .refl []
    | cons c out ih =>
      by_cases hc : c = '\n'
      · subst hc
        exact (ih.cons_cons '\n').cons '\r'
      · rw [crlf_cons hc]
        exact ih.cons_cons c
  refine ⟨hsublist, ?_⟩
  rw [← length_crlf_eq_iff]
  exact ⟨fun h => by rw [h], fun h => (hsublist.eq_of_length h.symm).symm⟩

theorem TextMatches.append (h : TextMatches out out' kept) (h' : TextMatches rest rest' kept') :
    TextMatches (out ++ rest) (out' ++ rest') (kept ∨ kept') := by
  refine ⟨h.sublist.append h'.sublist, ?_⟩
  rw [not_or, ← h.eq_iff, ← h'.eq_iff]
  constructor
  · intro heq
    have hlength := congrArg List.length heq
    rw [List.length_append, List.length_append] at hlength
    have hle := h.sublist.length_le
    have hle' := h'.sublist.length_le
    exact ⟨(h.sublist.eq_of_length (by omega)).symm, (h'.sublist.eq_of_length (by omega)).symm⟩
  · rintro ⟨rfl, rfl⟩
    rfl

end TextMatches

/-- The counterpart of a result: an error is on the same line, and of the same kind
unless its message keeps a line end. -/
inductive Matches {α : Type} (S : α → α → Prop → Prop) :
    Except ParseError α → Except ParseError α → Prop → Prop
  | ok {a a' : α} {kept : Prop} (h : S a a' kept) : Matches S (.ok a) (.ok a') kept
  | error {e e' : ParseError} {kept : Prop} (hline : e'.line = e.line)
      (hkind : e'.kind = e.kind ↔ ¬kept) : Matches S (.error e) (.error e') kept

section Matches

variable {α β : Type} {S : α → α → Prop → Prop} {T : β → β → Prop → Prop}
  {x x' : Except ParseError α} {f f' : α → Except ParseError β} {kept kept' : Prop}

/-- Errors at counterparts. -/
theorem matches_error_at {c : Cursor} (h : c.Plain) (kind : ParseErrorKind) :
    Matches S (.error (c.error kind)) (.error (c.crlf.error kind)) False :=
  .error (Cursor.line_error_crlf h kind) (iff_of_true rfl id)

/-- What is read next decides, unless nothing is. -/
theorem Matches.bind (hx : Matches S x x' kept)
    (herror : (∀ a, x ≠ .ok a) → (kept' ↔ kept))
    (hok : ∀ a a', x = .ok a → S a a' kept → Matches T (f a) (f' a') kept') :
    Matches T (x.bind f) (x'.bind f') kept' := by
  cases hx with
  | ok h => exact hok _ _ rfl h
  | error hline hkind => exact .error hline (hkind.trans (not_congr (herror (by rintro _ ⟨⟩))).symm)

theorem Matches.map (hx : Matches S x x' kept) {g g' : α → β}
    (hok : ∀ a a', x = .ok a → S a a' kept → T (g a) (g' a') kept) :
    Matches T (x.map g) (x'.map g') kept := by
  cases hx with
  | ok h => exact .ok (hok _ _ rfl h)
  | error hline hkind => exact .error hline hkind

theorem Matches.imp {S' : α → α → Prop → Prop} (hx : Matches S x x' kept)
    (hS : ∀ a a', S a a' kept → S' a a' kept) : Matches S' x x' kept := by
  cases hx with
  | ok h => exact .ok (hS _ _ h)
  | error hline hkind => exact .error hline hkind

theorem Matches.congr (hx : Matches S x x' kept) (hiff : kept' ↔ kept)
    (hS : ∀ a a', S a a' kept → S a a' kept') : Matches S x x' kept' := by
  cases hx with
  | ok h => exact .ok (hS _ _ h)
  | error hline hkind => exact .error hline (hkind.trans (not_congr hiff).symm)

/-- Two texts behind each other: the one in front counts only where the other is read. -/
theorem Matches.append {y y' : Except ParseError (List Char)}
    {x x' : Except ParseError (List Char)} {kept'' : Prop}
    (hx : Matches TextMatches x x' kept) (hy : Matches TextMatches y y' kept')
    (hiff : kept'' ↔ kept ∧ ((∃ out, x = .ok out) → ∃ out, y = .ok out) ∨
      (∃ out, x = .ok out) ∧ kept') :
    Matches TextMatches (x.bind fun out => y.map (out ++ ·))
      (x'.bind fun out => y'.map (out ++ ·)) kept'' := by
  refine hx.bind (fun herror => ?_) fun out out' hout h => ?_
  · have hno : ¬∃ out, x = .ok out := not_exists.2 herror
    rw [hiff]
    exact (or_iff_left fun h => hno h.1).trans (and_iff_left fun h => absurd h hno)
  · have hyes : ∃ out, x = .ok out := ⟨out, hout⟩
    cases hy with
    | ok h' =>
      refine .ok ((h.append h').congr (hiff.trans ?_))
      exact or_congr (and_iff_left fun _ => ⟨_, rfl⟩) (and_iff_right hyes)
    | error hline hkind =>
      refine .error hline (hkind.trans (not_congr (hiff.trans ⟨?_, fun h => .inr ⟨hyes, h⟩⟩)).symm)
      rintro (⟨-, h⟩ | h)
      · obtain ⟨out, hout⟩ := h hyes
        cases hout
      · exact h.2

end Matches

namespace Parser

variable {p q : Parser} {style : ValueStyle} {raw : List Char}

/-! ### Expanding -/

variable (p style) in
/-- The expansion of a text, with as many rounds as it needs. -/
def expansion (c : Cursor) (raw : List Char) : Except ParseError (List Char) :=
  p.expand style raw.length c raw

theorem expansion_eq (c : Cursor) (raw : List Char) : p.expansion style c raw =
    match p.piece style raw with
    | none => .ok []
    | some piece => expandPiece (p.expansion style) c raw piece := by
  have hfuel : ∀ {c raw' fuel}, raw'.length ≤ fuel →
      p.expand style fuel c raw' = p.expansion style c raw' :=
    fun h => expand_fuel h le_rfl _
  rw [← hfuel (Nat.le_succ raw.length), expand_succ]
  cases hpiece : p.piece style raw with
  | none => rfl
  | some piece =>
    have hpart := partOf_piece hpiece
    have hrest : ∀ n c, p.expand style raw.length c (raw.drop n) =
        p.expansion style c (raw.drop n) := fun n c => hfuel (List.length_drop ▸ Nat.sub_le _ n)
    have hword : ∀ {start word}, WordAt raw start word → ∀ c,
        p.expand style raw.length c word = p.expansion style c word :=
      fun hat c => hfuel (Nat.le_of_lt hat.length_lt)
    cases piece with
    | text out n => simp only [expandPiece, hrest]
    | verbatim out n => simp only [expandPiece, hrest]
    | word start word n => simp only [expandPiece, hrest, hword hpart.2]
    | required name start word => simp only [expandPiece, hword hpart]
    | unterminated => rfl

/-- A turn reads the counterpart of the same piece; where a backslash takes half of a
line end, the next turn takes the other half. -/
theorem expansion_crlf {text : List Char} (h : Counterpart text p q) (hin : raw <:+: text)
    (hraw : '\r' ∉ raw) (c : Cursor) :
    q.expansion style c (crlf raw) =
      match p.piece style raw with
      | none => .ok []
      | some piece => expandPiece (q.expansion style) c (crlf raw) (piece.crlf raw) := by
  by_cases hescape : ∀ cs, raw = '\\' :: '\n' :: cs → style = .singleQuoted
  · rw [expansion_eq, piece_crlf h hin hraw hescape]
    cases p.piece style raw with
    | none => rfl
    | some piece => rfl
  · push Not at hescape
    obtain ⟨cs, rfl, hstyle⟩ := hescape
    have hescapes : ('\\' == '\\' && style != .singleQuoted) = true := by
      rw [beq_self_eq_true, Bool.true_and, bne_iff_ne]
      exact hstyle
    have hbackslash : ∀ {p : Parser} {a cs}, isNewline a = true →
        p.piece style ('\\' :: a :: cs) = some (.verbatim ['\\', a] 2) := by
      intro p a cs ha
      rw [piece, if_pos hescapes]
      dsimp only [List.head?_cons]
      rw [if_pos ha]
    have hhalf : q.piece style ('\n' :: crlf cs) = some (.text ['\n'] 1) := rfl
    rw [hbackslash rfl, crlf_cons (by decide), crlf_newline, expansion_eq, hbackslash rfl]
    show (q.expansion style (c.forward 2) ('\n' :: crlf cs)).map _ =
      (q.expansion style (c.forward 3) (crlf cs)).map _
    rw [expansion_eq, hhalf]
    show ((q.expansion style ((c.forward 2).forward 1) (crlf cs)).map _).map _ = _
    rw [map_map, Cursor.forward_forward]
    rfl

/-- A word of a text and its position. -/
theorem WordAt.position {start : ℕ} {word : List Char} {c : Cursor} (h : WordAt raw start word)
    (hat : raw <+: c.rest) : 2 + start ≤ c.rest.length ∧ '\n' ∉ c.rest.take (2 + start) ∧
      word <+: (c.forward (2 + start)).rest := by
  obtain ⟨pre, hpre, hnone, hprefix⟩ := h
  obtain ⟨after, hafter⟩ := hprefix.trans hat
  show _ ∧ _ ∧ word <+: c.rest.drop (2 + start)
  rw [Nat.add_comm, ← hpre, ← hafter, List.append_assoc, List.take_left, List.drop_left,
    List.length_append]
  exact ⟨Nat.le_add_right _ _, hnone, List.prefix_append _ _⟩

/-- **Expanding turns line ends into newlines**, but for those that it keeps. -/
theorem expand_matches {c : Cursor} (h : Counterpart c.rest p q) (hplain : c.Plain)
    (hat : raw <+: c.rest) :
    Matches TextMatches (p.expansion style c raw) (q.expansion style c.crlf (crlf raw))
      (p.Keeps style raw) := by
  induction hlength : raw.length using Nat.strong_induction_on generalizing raw c with
  | _ n ih =>
    subst hlength
    have hin := hat.isInfix
    obtain ⟨behind, hbehind⟩ := hat
    have hraw : '\r' ∉ raw := fun hmem =>
      hplain.rest (hbehind ▸ List.mem_append_left behind hmem)
    have hlt : raw.length ≤ c.rest.length := by
      rw [← hbehind, List.length_append]
      exact Nat.le_add_right _ _
    have hrest : ∀ {n}, 0 < n ∧ n ≤ raw.length →
        Matches TextMatches (p.expansion style (c.forward n) (raw.drop n))
          (q.expansion style (c.crlf.forward (crlfLength raw n))
            ((crlf raw).drop (crlfLength raw n))) (p.Keeps style (raw.drop n)) := by
      intro n hn
      have htake : raw.take n = c.rest.take n := by
        rw [← hbehind, List.take_append_of_le_length hn.2]
      rw [crlfLength, (take_crlf n raw).2, htake, Cursor.forward_crlf]
      have hpass := Cursor.passes_forward (hn.2.trans hlt)
      refine ih _ ?_ (h.passes hpass) (hplain.passes hpass) ?_ rfl
      · rw [List.length_drop]
        omega
      · show raw.drop n <+: c.rest.drop n
        rw [← hbehind, List.drop_append_of_le_length hn.2]
        exact List.prefix_append _ _
    have hword : ∀ {start word}, WordAt raw start word →
        Matches TextMatches (p.expansion style ((c.forward 2).forward start) word)
          (q.expansion style ((c.crlf.forward 2).forward start) (crlf word))
          (p.Keeps style word) := by
      intro start word hword
      obtain ⟨hle, hnone, hprefix⟩ := hword.position ⟨behind, hbehind⟩
      rw [Cursor.forward_forward, Cursor.forward_forward, Cursor.forward_crlf_of_not_mem hle hnone]
      have hpass := Cursor.passes_forward hle
      exact ih _ hword.length_lt (h.passes hpass) (hplain.passes hpass) hprefix rfl
    have hexpands : ∀ c' raw', p.Expands style raw' ↔ ∃ out, p.expansion style c' raw' = .ok out :=
      fun c' raw' => expands_iff le_rfl c'
    have hkeeps := @keeps_iff p style raw
    rw [expansion_eq, expansion_crlf h hin hraw]
    cases hpiece : p.piece style raw with
    | none =>
      rw [hpiece] at hkeeps
      exact .ok ((textMatches_refl []).congr hkeeps)
    | some piece =>
      rw [hpiece] at hkeeps
      have hpart := partOf_piece hpiece
      cases piece with
      | text out n =>
        refine Matches.append (.ok (textMatches_refl out)) (hrest hpart) (hkeeps.trans ?_)
        rw [false_and, false_or]
        exact (and_iff_right ⟨out, rfl⟩).symm
      | verbatim out n =>
        refine Matches.append (.ok (textMatches_crlf out)) (hrest hpart) (hkeeps.trans ?_)
        have hread : ∃ out', (Except.ok out : Except ParseError _) = .ok out' := ⟨out, rfl⟩
        exact or_congr (and_congr_right fun _ => (hexpands _ _).trans
          ⟨fun h _ => h, fun h => h hread⟩) (and_iff_right hread).symm
      | word start word n =>
        refine Matches.append (hword hpart.2) (hrest hpart.1) (hkeeps.trans ?_)
        dsimp only
        rw [hexpands ((c.forward 2).forward start) word, hexpands (c.forward n) (raw.drop n)]
      | required name start word =>
        refine (hword hpart).bind (fun _ => hkeeps) fun message message' _ hmessage => ?_
        obtain ⟨hle, hnone, -⟩ := hpart.position ⟨behind, hbehind⟩
        have htwo : 2 ≤ c.rest.length := (Nat.le_add_right 2 start).trans hle
        have hbraces : c.crlf.forward 2 = (c.forward 2).crlf := by
          refine Cursor.forward_crlf_of_not_mem htwo fun hmem => hnone ?_
          exact List.take_subset_take_left _ (Nat.le_add_right 2 start) hmem
        refine .error ?_ ?_
        · rw [hbraces]
          exact Cursor.line_error_crlf (hplain.passes (Cursor.passes_forward htwo)) _
        · rw [hkeeps, ← hmessage.eq_iff]
          show ParseErrorKind.requiredVariable _ _ = .requiredVariable _ _ ↔ _
          rw [ParseErrorKind.requiredVariable.injEq, and_iff_right rfl, String.ofList_inj]
      | unterminated =>
        exact (matches_error_at hplain _).congr hkeeps fun _ _ h => h.congr hkeeps

theorem eq_of_bracesPiece {expression out : List Char} {n : ℕ}
    (h : p.bracesPiece expression = .verbatim out n) : out = '$' :: '{' :: expression ++ ['}'] := by
  rw [bracesPiece] at h
  dsimp only at h
  split at h
  · exact (Piece.verbatim.inj h).1.symm
  cases hvalue : p.variableValue expression with
  | some value =>
    rw [hvalue] at h
    cases h
  | none =>
    rw [hvalue] at h
    dsimp only at h
    split at h
    · exact (Piece.verbatim.inj h).1.symm
    split at h
    · cases h
    cases hfound : stripOperator (expression.dropWhile isSubstitutionContinue) with
    | none =>
      rw [hfound] at h
      exact (Piece.verbatim.inj h).1.symm
    | some found =>
      obtain ⟨operator, word⟩ := found
      rw [hfound] at h
      cases operator with
      | dash | colonDash | plus | colonPlus | question | colonQuestion =>
        dsimp only at h
        split at h
        · cases h
        · cases h

/-- What is written as it stands stands in the text. -/
theorem mem_of_verbatim {out : List Char} {n : ℕ} (h : p.piece style raw = some (.verbatim out n))
    (hmem : '\n' ∈ out) : '\n' ∈ raw := by
  cases raw with
  | nil => cases h
  | cons c cs =>
    have h := Option.some.inj h
    split at h
    · cases cs with
      | nil => cases h
      | cons escaped cs =>
        dsimp only [List.head?_cons] at h
        split at h
        · obtain ⟨rfl, -⟩ := Piece.verbatim.inj h
          rw [List.mem_cons, List.mem_singleton] at hmem
          obtain rfl := hmem.resolve_left (by decide)
          exact List.mem_cons_of_mem _ List.mem_cons_self
        · cases h
    split at h
    · rw [dollarPiece.eq_def] at h
      split at h
      · cases h
      · cases h
      · case h_3 body =>
        split at h
        · cases h
        · rw [eq_of_bracesPiece h] at hmem
          rw [List.mem_append, List.mem_cons, List.mem_cons, List.mem_singleton] at hmem
          have hbody := (hmem.resolve_right (by decide)).resolve_left (by decide)
          refine List.mem_cons_of_mem _ (List.mem_cons_of_mem _ ?_)
          exact List.mem_of_mem_take (hbody.resolve_left (by decide))
      · dsimp only at h
        split at h
        · cases h
        · cases h
    split at h
    · split at h
      · cases h
      · cases h
    · cases h

/-- A text without line ends keeps none. -/
theorem not_keeps (h : '\n' ∉ raw) : ¬p.Keeps style raw := by
  intro hkeeps
  have hdrop : ∀ {raw : List Char} {n}, '\n' ∉ raw → '\n' ∉ raw.drop n :=
    fun h hmem => h (List.mem_of_mem_drop hmem)
  have hword : ∀ {raw word : List Char} {start}, WordAt raw start word → '\n' ∉ raw →
      '\n' ∉ word := by
    rintro raw word start ⟨pre, -, -, hfront⟩ h hmem
    exact h (hfront.subset (List.mem_append_right pre hmem))
  induction hkeeps with
  | verbatim h' hout _ => exact h (mem_of_verbatim h' hout)
  | word h' _ _ ih => exact ih (hword (partOf_piece h').2 h)
  | message h' _ ih => exact ih (hword (partOf_piece h') h)
  | behindText _ _ ih | behindVerbatim _ _ ih | behindWord _ _ _ ih => exact ih (hdrop h)

/-! ### Scans -/

theorem reverse_crlf_cons {a : Char} (h : a ≠ '\n') (before : List Char) :
    (crlf (a :: before).reverse).reverse = a :: (crlf before.reverse).reverse := by
  rw [List.reverse_cons, crlf_append, crlf_cons h, List.reverse_append]
  rfl

theorem reverse_crlf_newline (before : List Char) :
    (crlf ('\n' :: before).reverse).reverse = '\n' :: '\r' :: (crlf before.reverse).reverse := by
  rw [List.reverse_cons, crlf_append, List.reverse_append]
  rfl

theorem plain_cons_iff {a : Char} {before cs : List Char} :
    Cursor.Plain ⟨a :: before, cs⟩ ↔ Cursor.Plain ⟨before, a :: cs⟩ := by
  rw [Cursor.Plain, Cursor.Plain, List.reverse_cons, List.append_assoc]
  rfl

theorem scanQuoted_cons {quote a : Char} {start : Cursor} (ha : a ≠ '\r') (escaped : Bool)
    (before cs : List Char) : p.scanQuoted quote style start escaped before (a :: cs) =
      if isNewline a then
        if !p.options.multiline then .error (Cursor.error ⟨before, a :: cs⟩ .multilineDisabled)
        else (p.scanQuoted quote style start false (a :: before) cs).map (a :: ·)
      else if a == '\x00' then
        .error (Cursor.error ⟨before, a :: cs⟩ (.invalidValueCharacter a))
      else if a == quote && !escaped then .ok []
      else (p.scanQuoted quote style start
        (if a == '\\' && style != .singleQuoted then !escaped else false) (a :: before) cs).map
          (a :: ·) := by
  rw [scanQuoted]
  rintro cs' rfl
  exact absurd rfl ha

/-- A quoted value is scanned up to the same quote. -/
theorem scanQuoted_crlf (h : q.options = p.options) {quote : Char} {start : Cursor}
    (hstart : start.Plain) (escaped : Bool) {before cs : List Char}
    (hplain : Cursor.Plain ⟨before, cs⟩) :
    Matches (fun raw raw' _ => raw' = crlf raw) (p.scanQuoted quote style start escaped before cs)
      (q.scanQuoted quote style start.crlf escaped (crlf before.reverse).reverse (crlf cs))
      False := by
  induction cs generalizing escaped before with
  | nil => exact matches_error_at hstart _
  | cons a cs ih =>
    have hr : a ≠ '\r' := fun heq => hplain.rest (heq ▸ List.mem_cons_self)
    rw [scanQuoted_cons hr]
    by_cases hn : a = '\n'
    · subst hn
      have hnext := ih false (plain_cons_iff.2 hplain)
      rw [reverse_crlf_newline] at hnext
      rw [crlf_newline, scanQuoted, h, if_pos (show isNewline '\n' = true from rfl)]
      split
      · exact matches_error_at hplain _
      · refine hnext.map fun raw raw' _ hraw => ?_
        rw [hraw]
        rfl
    · have hnewline : ¬isNewline a = true := by simp [isNewline, hn, hr]
      have hnext := fun escaped => ih escaped (plain_cons_iff.2 hplain)
      have herror := @matches_error_at (List Char) (fun raw raw' _ => raw' = crlf raw) _ hplain
        (.invalidValueCharacter a)
      simp only [reverse_crlf_cons hn] at hnext
      rw [Cursor.crlf, crlf_cons hn] at herror
      rw [crlf_cons hn, scanQuoted_cons hr, if_neg hnewline, if_neg hnewline]
      split
      · exact herror
      split
      · exact .ok rfl
      · refine (hnext _).map fun raw raw' _ hraw => ?_
        rw [hraw, crlf_cons hn]

/-- What is scanned stands in front of a closing quote. -/
theorem split_of_scanQuoted {quote : Char} {start : Cursor} {escaped : Bool}
    {before cs raw : List Char} (h : p.scanQuoted quote style start escaped before cs = .ok raw) :
    ∃ behind, cs = raw ++ quote :: behind := by
  fun_induction scanQuoted p quote style start escaped before cs generalizing raw with
  | case1 | case2 | case4 | case6 => cases h
  | case3 | case5 | case8 =>
    rename_i ih
    obtain ⟨raw, hraw, rfl⟩ := map_eq_ok h
    obtain ⟨behind, rfl⟩ := ih hraw
    exact ⟨behind, rfl⟩
  | case7 escaped before a cs hcrlf hnewline hnul hend =>
    obtain rfl := Except.ok.inj h
    exact ⟨cs, congrArg (· :: cs) (beq_iff_eq.1 (Bool.and_eq_true_iff.1 hend).1)⟩

variable (p style) in
/-- The expansion of a quoted value keeps a line end. -/
def QuotedKeeps (quote : Char) (c : Cursor) : Prop :=
  ∃ raw, p.scanQuoted quote style c false (c.forward 1).before (c.forward 1).rest = .ok raw ∧
    p.Keeps style raw

/-- The counterpart of a value and the position behind it. -/
def SegmentMatches (r r' : List Char × Cursor) (kept : Prop) : Prop :=
  TextMatches r.1 r'.1 kept ∧ r'.2 = r.2.crlf

/-- A segment in front of others counts only where these are read. -/
theorem follow {value value' : List Char} {x x' : Except ParseError (List Char × Cursor)}
    {kept kept' kept'' : Prop} (hx : Matches SegmentMatches x x' kept')
    (hvalue : TextMatches value value' kept) (hiff : kept'' ↔ kept ∧ (∃ r, x = .ok r) ∨ kept') :
    Matches SegmentMatches (x.map fun r => (value ++ r.1, r.2))
      (x'.map fun r => (value' ++ r.1, r.2)) kept'' := by
  cases hx with
  | ok h =>
    refine .ok ⟨(hvalue.append h.1).congr (hiff.trans ?_), h.2⟩
    exact or_congr_left (and_iff_left ⟨_, rfl⟩)
  | error hline hkind =>
    refine .error hline (hkind.trans (not_congr (hiff.trans (or_iff_right ?_))).symm)
    rintro ⟨-, r, ⟨⟩⟩

theorem forward_one_crlf {c : Cursor} {a : Char} (hhead : c.rest.head? = some a) (ha : a ≠ '\n') :
    c.crlf.forward 1 = (c.forward 1).crlf := by
  obtain ⟨rest, hrest⟩ := List.head?_eq_some_iff.1 hhead
  refine Cursor.forward_crlf_of_not_mem ?_ ?_
  · rw [hrest]
    exact Nat.succ_pos _
  · rw [hrest, List.take_succ_cons, List.take_zero, List.mem_singleton]
    exact Ne.symm ha

/-- A quoted value has its counterpart, unless it keeps a line end. -/
theorem parseQuoted_crlf {quote : Char} {c : Cursor} (h : Counterpart c.rest p q) (hplain : c.Plain)
    (hhead : c.rest.head? = some quote) (hquote : quote ≠ '\n') :
    Matches SegmentMatches (p.parseQuoted quote style c) (q.parseQuoted quote style c.crlf)
      (p.QuotedKeeps style quote c) := by
  have hstart := forward_one_crlf hhead hquote
  have hpass : c.Passes (c.forward 1) :=
    Cursor.passes_forward (List.length_pos_of_mem (List.mem_of_mem_head? hhead))
  have hplain' := hplain.passes hpass
  rw [parseQuoted, parseQuoted, hstart]
  refine (scanQuoted_crlf h.options hplain false hplain').bind (fun herror => ?_)
    fun raw raw' hraw heq => ?_
  · refine iff_of_false ?_ id
    rintro ⟨raw, hraw, -⟩
    exact herror raw hraw
  · subst heq
    obtain ⟨behind, hbehind⟩ : ∃ behind, (c.forward 1).rest = raw ++ quote :: behind :=
      split_of_scanQuoted hraw
    have hkeeps : p.QuotedKeeps style quote c ↔ p.Keeps style raw := by
      refine ⟨?_, fun h => ⟨raw, hraw, h⟩⟩
      rintro ⟨raw', hraw', h⟩
      exact Except.ok.inj (hraw.symm.trans hraw') ▸ h
    have hafter : (c.forward 1).crlf.forward ((crlf raw).length + 1) =
        ((c.forward 1).forward (raw.length + 1)).crlf := by
      have hforward := Cursor.forward_crlf (c.forward 1) (raw.length + 1)
      rw [hbehind, List.take_length_add_append, List.take_succ_cons, List.take_zero, crlf_append,
        List.length_append, crlf_cons hquote] at hforward
      exact hforward
    have hmatches := @expand_matches p q style raw _ (h.passes hpass) hplain' ⟨quote :: behind, hbehind.symm⟩
    have hread : Matches SegmentMatches
        ((p.expansion style (c.forward 1) raw).map fun value =>
          (value, (c.forward 1).forward (raw.length + 1)))
        ((q.expansion style (c.forward 1).crlf (crlf raw)).map fun value =>
          (value, (c.forward 1).crlf.forward ((crlf raw).length + 1))) (p.Keeps style raw) :=
      hmatches.map fun out out' _ hout => ⟨hout, hafter⟩
    exact hread.congr hkeeps fun _ _ h => ⟨h.1.congr hkeeps, h.2⟩

theorem passDollar_brace (h : p.options.substitution = true) (before body : List Char) :
    p.passDollar ⟨before, '{' :: body⟩ =
      match findSubstitutionEnd (body.takeWhile fun a => !isNewline a) with
      | none => .ok 0
      | some n =>
        match ('{' :: body.take n).findIdx? (· == '\x00') with
        | some offset => .error ((Cursor.forward offset ⟨before, '{' :: body⟩).error
            (.invalidValueCharacter '\x00'))
        | none => .ok (n + 2) := by
  rw [passDollar, h]
  rfl

theorem passDollar_of_ne {a : Char} (hd : a ≠ '$') (hb : a ≠ '{') (before rest : List Char) :
    p.passDollar ⟨before, a :: rest⟩ = .ok 0 := by
  rw [passDollar]
  split
  · rfl
  · split
    · case h_1 heq => exact absurd (List.cons.inj heq).1 hd
    · case h_2 heq => exact absurd (List.cons.inj heq).1 hb
    · rfl

/-- A reference ends on its line, at the same place. -/
theorem passDollar_crlf (h : q.options = p.options) {c : Cursor} (hplain : c.Plain) :
    Matches (fun n n' _ => n' = n ∧ n ≤ (c.rest.takeWhile fun a => !isNewline a).length)
      (p.passDollar c) (q.passDollar c.crlf) False := by
  by_cases hs : p.options.substitution = true
  · obtain ⟨before, rest⟩ := c
    cases rest with
    | nil =>
      rw [passDollar, passDollar, h, hs]
      exact .ok ⟨rfl, Nat.zero_le _⟩
    | cons a rest =>
      by_cases hn : a = '\n'
      · subst hn
        rw [Cursor.crlf, crlf_newline, passDollar_of_ne (by decide) (by decide),
          passDollar_of_ne (by decide) (by decide)]
        exact .ok ⟨rfl, Nat.zero_le _⟩
      by_cases hd : a = '$'
      · subst hd
        rw [Cursor.crlf, crlf_cons hn, passDollar, passDollar, h, hs]
        exact .ok ⟨rfl, Nat.succ_pos _⟩
      by_cases hb : a = '{'
      · subst hb
        have hspan := (@span_crlf (fun a => !isNewline a) rfl rfl rest).1
        have hline : '\n' ∉ rest.takeWhile fun a => !isNewline a :=
          not_mem_takeWhile (q := fun a => !isNewline a) rfl rest
        have hsplit := List.takeWhile_append_dropWhile (p := fun a => !isNewline a) (l := rest)
        rw [Cursor.crlf, crlf_cons hn, passDollar_brace hs, passDollar_brace (h ▸ hs), hspan]
        cases hfind : findSubstitutionEnd (rest.takeWhile fun a => !isNewline a) with
        | none => exact .ok ⟨rfl, Nat.zero_le _⟩
        | some n =>
          have hlt := lt_of_substitutionEnd hfind
          have hle : n ≤ (rest.takeWhile fun a => !isNewline a).length := Nat.le_of_lt hlt
          have htake : (crlf rest).take n = rest.take n := by
            rw [← hsplit, crlf_append, crlf_eq_self hline, List.take_append_of_le_length hle,
              List.take_append_of_le_length hle]
          have hfront : rest.take n <+: rest.takeWhile fun a => !isNewline a := by
            rw [← hsplit, List.take_append_of_le_length hle, hsplit]
            exact List.take_prefix _ _
          dsimp only
          rw [htake]
          cases hnul : ('{' :: rest.take n).findIdx? (· == '\x00') with
          | none =>
            refine .ok ⟨rfl, ?_⟩
            rw [List.takeWhile_cons_of_pos rfl, List.length_cons]
            omega
          | some offset =>
            have hoffset : offset < n + 1 := by
              have hlt := (List.findIdx?_eq_some_iff_findIdx_eq.1 hnul).1
              rw [List.length_cons, List.length_take] at hlt
              omega
            have hline' : (rest.takeWhile fun a => !isNewline a).length ≤ rest.length :=
              (List.takeWhile_prefix _).length_le
            have hrest : offset ≤ (Cursor.mk before ('{' :: rest)).rest.length := by
              rw [List.length_cons]
              omega
            have hnone : '\n' ∉ (Cursor.mk before ('{' :: rest)).rest.take offset := by
              intro hmem
              have hmem' : '\n' ∈ '{' :: rest.take n :=
                List.take_subset_take_left ('{' :: rest) (Nat.le_of_lt hoffset) hmem
              exact hline (hfront.subset ((List.mem_cons.1 hmem').resolve_left (by decide)))
            have hforward := Cursor.forward_crlf_of_not_mem hrest hnone
            rw [Cursor.crlf, crlf_cons hn] at hforward
            dsimp only
            rw [hforward]
            exact matches_error_at (hplain.passes (Cursor.passes_forward hrest)) _
      · rw [Cursor.crlf, crlf_cons hn, passDollar_of_ne hd hb, passDollar_of_ne hd hb]
        exact .ok ⟨rfl, Nat.zero_le _⟩
  · rw [passDollar, passDollar, h, if_pos, if_pos]
    · exact .ok ⟨rfl, Nat.zero_le _⟩
    · rw [Bool.not_eq_true] at hs
      rw [hs]
      rfl
    · rw [Bool.not_eq_true] at hs
      rw [hs]
      rfl

theorem head?_before_crlf (before : List Char) :
    ((crlf before.reverse).reverse).head? = before.head? := by
  cases before with
  | nil => rfl
  | cons a before =>
    by_cases hn : a = '\n'
    · subst hn
      rw [reverse_crlf_newline]
      rfl
    · rw [reverse_crlf_cons hn]
      rfl

/-- The raw text of an unquoted value stands on its line, and is the same. -/
def OnLine (cs : List Char) (r r' : List Char × Bool) (_ : Prop) : Prop :=
  r' = r ∧ '\n' ∉ r.1 ∧ r.1 <+: cs

/-- **An unquoted value is the same**: it ends at the first line end. -/
theorem scanUnquoted_crlf (h : q.options = p.options) (pass : ℕ) (escaped : Bool)
    {before cs : List Char} (hplain : Cursor.Plain ⟨before, cs⟩)
    (hpass : pass ≤ (cs.takeWhile fun a => !isNewline a).length) :
    Matches (OnLine cs) (p.scanUnquoted pass escaped before cs)
      (q.scanUnquoted pass escaped (crlf before.reverse).reverse (crlf cs)) False := by
  have hstop : ∀ (cs : List Char) (ended : Bool),
      Matches (OnLine cs) (.ok ([], ended)) (.ok ([], ended)) False :=
    fun cs ended => .ok ⟨rfl, List.not_mem_nil, List.nil_prefix⟩
  induction cs generalizing pass escaped before with
  | nil =>
    rw [crlf_nil, scanUnquoted, scanUnquoted]
    exact hstop _ true
  | cons a cs ih =>
    by_cases hn : a = '\n'
    · subst hn
      obtain rfl := Nat.eq_zero_of_le_zero hpass
      exact hstop _ true
    have hr : a ≠ '\r' := fun heq => hplain.rest (heq ▸ List.mem_cons_self)
    have hnewline : isNewline a = false := by simp [isNewline, hn, hr]
    have hline : ((a :: cs).takeWhile fun a => !isNewline a) =
        a :: cs.takeWhile fun a => !isNewline a :=
      List.takeWhile_cons_of_pos (congrArg (!·) hnewline)
    have hplain' := plain_cons_iff.2 hplain
    have hnext : ∀ {pass} escaped, pass ≤ (cs.takeWhile fun a => !isNewline a).length →
        Matches (OnLine (a :: cs))
          ((p.scanUnquoted pass escaped (a :: before) cs).map fun r => (a :: r.1, r.2))
          ((q.scanUnquoted pass escaped (a :: (crlf before.reverse).reverse) (crlf cs)).map
            fun r => (a :: r.1, r.2)) False := by
      intro pass escaped hpass
      have hread := ih pass escaped hplain' hpass
      rw [reverse_crlf_cons hn] at hread
      refine hread.map fun r r' _ hr => ?_
      obtain ⟨rfl, hnone, hprefix⟩ := hr
      refine ⟨rfl, ?_, List.cons_prefix_cons.2 ⟨rfl, hprefix⟩⟩
      exact List.mem_cons.not.2 (not_or.2 ⟨Ne.symm hn, hnone⟩)
    rw [crlf_cons hn]
    cases pass with
    | succ pass =>
      rw [hline, List.length_cons] at hpass
      rw [scanUnquoted, scanUnquoted]
      exact hnext escaped (Nat.le_of_succ_le_succ hpass)
    | zero =>
      have herror := @matches_error_at (List Char × Bool) (OnLine (a :: cs)) _ hplain
        (.invalidValueCharacter a)
      have hdollar := passDollar_crlf h hplain'
      rw [Cursor.crlf, crlf_cons hn] at herror
      rw [Cursor.crlf, reverse_crlf_cons hn] at hdollar
      rw [scanUnquoted, scanUnquoted, h, quoteClosesOnLine_crlf, head?_before_crlf, hnewline]
      dsimp only
      rw [if_neg Bool.false_ne_true, if_neg Bool.false_ne_true]
      split
      · exact herror
      split
      · exact hnext _ (Nat.zero_le _)
      split
      · exact hnext _ (Nat.zero_le _)
      split
      · refine hdollar.bind (fun _ => Iff.rfl) fun n n' _ hn => ?_
        obtain ⟨rfl, hle⟩ := hn
        exact hnext false hle
      split
      · exact hstop _ false
      split
      · exact hstop _ true
      · exact hnext _ (Nat.zero_le _)

theorem trimReversed_suffix (cs : List Char) : trimReversed cs <:+ cs := by
  induction cs with
  | nil => exact List.suffix_rfl
  | cons c cs ih =>
    rw [trimReversed]
    split
    · exact List.suffix_rfl
    split
    · exact List.suffix_rfl
    · exact ih.trans (List.suffix_cons c cs)

/-- What is trimmed off stands at the end. -/
theorem trimUnquotedTrailingWhitespace_prefix (value : List Char) :
    trimUnquotedTrailingWhitespace value <+: value := by
  have h := List.reverse_prefix.2 (trimReversed_suffix value.reverse)
  rwa [List.reverse_reverse] at h

theorem parseUnquoted_crlf {c : Cursor} (h : Counterpart c.rest p q) (hplain : c.Plain) :
    Matches (fun r r' _ => r' = (r.1, r.2.1, r.2.2.crlf)) (p.parseUnquoted c)
      (q.parseUnquoted c.crlf) False := by
  have hscan := @scanUnquoted_crlf p q h.options 0 false c.before c.rest hplain (Nat.zero_le _)
  rw [parseUnquoted, parseUnquoted]
  refine hscan.bind (fun _ => Iff.rfl) fun r r' _ hsame => ?_
  obtain ⟨raw, ended⟩ := r
  obtain ⟨rfl, hnone, hprefix⟩ := hsame
  dsimp only at hnone hprefix ⊢
  have htrimmed : (if ended then trimUnquotedTrailingWhitespace raw else raw) <+: raw := by
    split
    · exact trimUnquotedTrailingWhitespace_prefix raw
    · exact List.prefix_rfl
  have hnone' := fun hmem => hnone (htrimmed.subset hmem)
  have hmatches := @expand_matches p q .unquoted _ _ h hplain (htrimmed.trans hprefix)
  rw [crlf_eq_self hnone'] at hmatches
  have hsame : Matches TextMatches _ _ False := hmatches.congr
    (iff_of_false id (not_keeps hnone')) fun _ _ h => h.congr (iff_of_false id (not_keeps hnone'))
  refine hsame.map fun value value' _ hvalue => ?_
  have hafter : c.crlf.forward raw.length = (c.forward raw.length).crlf := by
    refine Cursor.forward_crlf_of_not_mem hprefix.length_le ?_
    rw [← List.prefix_iff_eq_take.1 hprefix]
    exact hnone
  have hcr := (hplain.passes (Cursor.passes_forward hprefix.length_le)).rest
  rw [hvalue.eq_iff.2 id, hafter, Cursor.skipComment_crlf hcr, Cursor.consumeNewline_crlf hcr]
  have hsign := @head?_crlf_eq_some_iff '#' (by decide) (by decide) (c.forward raw.length).rest
  simp only [Cursor.rest_crlf, hsign, apply_ite Cursor.crlf]

/-! ### Segments -/

theorem opensSegment_eq_some {firstSegment : Bool} {c : Cursor} {quote : Char}
    (h : opensSegment firstSegment c = some quote) :
    c.rest.head? = some quote ∧ isQuote quote = true := by
  obtain ⟨hhead, hquote⟩ := Option.filter_eq_some_iff.1 h
  exact ⟨hhead, (Bool.and_eq_true_iff.1 hquote).1⟩

theorem opensSegment_crlf (firstSegment : Bool) (c : Cursor) :
    opensSegment firstSegment c.crlf = opensSegment firstSegment c := by
  rw [opensSegment, opensSegment, Cursor.rest_crlf]
  cases c.rest with
  | nil => rfl
  | cons a rest =>
    by_cases hn : a = '\n'
    · subst hn
      rfl
    · rw [crlf_cons hn]
      simp only [List.head?_cons, List.tail_cons, quoteClosesOnLine_crlf]

/-- The style of a quoted segment. -/
def styleOf (quote : Char) : ValueStyle := if quote == '\'' then .singleQuoted else .doubleQuoted

/-- The counterpart of a segment, whether it is the last, and the position behind it. -/
def ReadMatches (r r' : List Char × Bool × Cursor) (kept : Prop) : Prop :=
  TextMatches r.1 r'.1 kept ∧ r'.2 = (r.2.1, r.2.2.crlf)

variable (p) in
/-- The segment at a position keeps a line end. -/
def SegmentKeeps (firstSegment : Bool) (c : Cursor) : Prop :=
  ∃ quote, opensSegment firstSegment c = some quote ∧ p.QuotedKeeps (styleOf quote) quote c

theorem parseSegment_crlf (firstSegment : Bool) {c : Cursor} (h : Counterpart c.rest p q)
    (hplain : c.Plain) :
    Matches ReadMatches (p.parseSegment firstSegment c) (q.parseSegment firstSegment c.crlf)
      (p.SegmentKeeps firstSegment c) := by
  rw [parseSegment, parseSegment, opensSegment_crlf]
  cases hopens : opensSegment firstSegment c with
  | none =>
    have hkeeps : p.SegmentKeeps firstSegment c ↔ False := by
      refine iff_of_false ?_ id
      rintro ⟨quote, hquote, -⟩
      exact Option.some_ne_none quote (hquote.symm.trans hopens)
    have hread : Matches ReadMatches (p.parseUnquoted c) (q.parseUnquoted c.crlf) False := by
      refine (parseUnquoted_crlf h hplain).imp fun r r' hr => ?_
      rw [hr]
      exact ⟨textMatches_refl _, rfl⟩
    exact hread.congr hkeeps fun _ _ h => ⟨h.1.congr hkeeps, h.2⟩
  | some quote =>
    obtain ⟨hhead, hquote⟩ := opensSegment_eq_some hopens
    have hkeeps : p.SegmentKeeps firstSegment c ↔ p.QuotedKeeps (styleOf quote) quote c := by
      refine ⟨?_, fun h => ⟨quote, hopens, h⟩⟩
      rintro ⟨quote', hquote', h⟩
      exact Option.some.inj (hopens.symm.trans hquote') ▸ h
    have hne : quote ≠ '\n' := by
      rintro rfl
      exact absurd hquote (by decide)
    have hread : Matches ReadMatches
        ((p.parseQuoted quote (styleOf quote) c).map fun r => (r.1, false, r.2))
        ((q.parseQuoted quote (styleOf quote) c.crlf).map fun r => (r.1, false, r.2))
        (p.QuotedKeeps (styleOf quote) quote c) :=
      (parseQuoted_crlf h hplain hhead hne).map fun r r' _ hr =>
        ⟨hr.1, congrArg (Prod.mk false) hr.2⟩
    exact hread.congr hkeeps fun _ _ h => ⟨h.1.congr hkeeps, h.2⟩

variable (p) in
/-- The value at a position keeps a line end in one of its segments: the value is read to
its end, or the segments in front of an error do. -/
inductive ValueKeeps : Bool → Cursor → Prop
  | here {firstSegment : Bool} {c : Cursor} (h : p.SegmentKeeps firstSegment c)
      (hrest : ∀ value c', p.parseSegment firstSegment c = .ok (value, false, c') →
        ∃ r, p.parseSegments (c'.rest.length + 1) false c' = .ok r) : ValueKeeps firstSegment c
  | later {firstSegment : Bool} {c c' : Cursor} {value : List Char}
      (h : p.parseSegment firstSegment c = .ok (value, false, c')) (hlater : ValueKeeps false c') :
      ValueKeeps firstSegment c

/-- A segment keeps a line end, or the value behind it does. -/
theorem valueKeeps_iff {firstSegment ended : Bool} {c c' : Cursor} {value : List Char}
    (h : p.parseSegment firstSegment c = .ok (value, ended, c')) :
    p.ValueKeeps firstSegment c ↔
      p.SegmentKeeps firstSegment c ∧ (ended = false →
        ∃ r, p.parseSegments (c'.rest.length + 1) false c' = .ok r) ∨
      ended = false ∧ p.ValueKeeps false c' := by
  constructor
  · intro hkeeps
    cases hkeeps with
    | here hsegment hrest =>
      refine .inl ⟨hsegment, ?_⟩
      rintro rfl
      exact hrest value c' h
    | later h' hlater =>
      obtain ⟨rfl, heq⟩ := Prod.mk.inj (Except.ok.inj (h.symm.trans h'))
      obtain ⟨rfl, rfl⟩ := Prod.mk.inj heq
      exact .inr ⟨rfl, hlater⟩
  · rintro (⟨hsegment, hrest⟩ | ⟨rfl, hlater⟩)
    · refine .here hsegment fun value' c'' h' => ?_
      obtain ⟨rfl, heq⟩ := Prod.mk.inj (Except.ok.inj (h.symm.trans h'))
      obtain ⟨rfl, rfl⟩ := Prod.mk.inj heq
      exact hrest rfl
    · exact .later h hlater

theorem length_crlf_lt {c c' : Cursor} (hpass : c.Passes c')
    (hlt : c'.rest.length < c.rest.length) : c'.crlf.rest.length < c.crlf.rest.length := by
  obtain ⟨n, hn, rfl⟩ := hpass
  have hfront := length_le_crlf (c.rest.take n)
  have hsplit := congrArg List.length (crlf_append (c.rest.take n) (c.rest.drop n))
  rw [List.take_append_drop, List.length_append] at hsplit
  rw [List.length_take_of_le hn] at hfront
  rw [Cursor.length_rest_forward] at hlt
  show (crlf (c.rest.drop n)).length < (crlf c.rest).length
  omega

/-- A value is read as its counterpart, segment by segment. -/
theorem parseSegments_crlf {fuel fuel' : ℕ} (firstSegment : Bool) {c : Cursor}
    (h : Counterpart c.rest p q) (hplain : c.Plain) (hfuel : c.rest.length < fuel)
    (hfuel' : c.crlf.rest.length < fuel') :
    Matches SegmentMatches (p.parseSegments fuel firstSegment c)
      (q.parseSegments fuel' firstSegment c.crlf) (p.ValueKeeps firstSegment c) := by
  induction fuel generalizing fuel' firstSegment c with
  | zero => exact absurd hfuel (Nat.not_lt_zero _)
  | succ fuel ih =>
    cases fuel' with
    | zero => exact absurd hfuel' (Nat.not_lt_zero _)
    | succ fuel' =>
      rw [parseSegments_succ, parseSegments_succ]
      refine (parseSegment_crlf firstSegment h hplain).bind (fun herror => ?_)
        fun r r' hr hmatches => ?_
      · refine ⟨fun hkeeps => ?_, fun h => .here h fun value c' hread => absurd hread (herror _)⟩
        cases hkeeps with
        | here h _ => exact h
        | later h _ => exact absurd h (herror _)
      · obtain ⟨value, ended, c'⟩ := r
        obtain ⟨value', last⟩ := r'
        obtain ⟨htext, rfl⟩ := hmatches
        have hkeeps := valueKeeps_iff hr
        have hpass := passes_of_parseSegment hr
        have hplain' := hplain.passes hpass.1
        cases ended with
        | true =>
          refine .ok ⟨htext.congr (hkeeps.trans ?_), rfl⟩
          refine (or_iff_left fun h => Bool.noConfusion h.1).trans (and_iff_left ?_)
          rintro ⟨⟩
        | false =>
          have hlength := hpass.2 rfl
          have hlength' := length_crlf_lt hpass.1 hlength
          have hfuels : p.parseSegments (c'.rest.length + 1) false c' =
              p.parseSegments fuel false c' :=
            parseSegments_fuel (Nat.lt_succ_self _) (by omega)
          have hrest := ih false (h.passes hpass.1) hplain' (by omega) (by omega : c'.crlf.rest.length < fuel')
          rw [hfuels] at hkeeps
          refine follow hrest htext (hkeeps.trans (or_congr (and_congr_right fun _ => ?_) ?_))
          · exact ⟨fun h => h rfl, fun h _ => h⟩
          · exact and_iff_right rfl

end Parser

end Dotenv
end Mise
