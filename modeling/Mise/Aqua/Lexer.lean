/-
# What the lexer cuts

`lex` reads byte offsets where `char_indices` and `match_indices` give them, and
these stand between characters.  Behind a blank and at a function's name it
counts characters instead and cuts at as many bytes: `lex_eq_panic_iff` says that
this is where it panics, and nowhere else.  Every turn of its loops takes a
character at least, so that they end.
-/

import Mathlib.Logic.Relation
import Mise.Aqua.Template

namespace Mise.Aqua

open Lib
open String (utf8Len)

/-! ### Cuts -/

/-- A part is read off the front of a text. -/
def ReadsOff (code rest : List Char) : Prop := ∃ part, part ≠ [] ∧ code = part ++ rest

theorem ReadsOff.length_lt {code rest : List Char} (h : ReadsOff code rest) :
    rest.length < code.length := by
  obtain ⟨part, hne, rfl⟩ := h
  have hpos := List.length_pos_of_ne_nil hne
  rw [List.length_append]
  omega

theorem readsOff_of_splitAtByte {cs a r : List Char} {n : ℕ} (hn : 0 < n)
    (h : splitAtByte cs n = some (a, r)) : ReadsOff cs r := by
  obtain ⟨rfl, rfl⟩ := splitAtByte_eq_some h
  refine ⟨a, ?_, rfl⟩
  rintro rfl
  exact absurd hn (by simp)

/-! ### Strings and dotted names -/

theorem exists_of_mem_matchIndices {q : Char} {cs : List Char} {i : ℕ}
    (h : i ∈ matchIndices q cs) : ∃ a b, cs = a ++ q :: b ∧ utf8Len a = i := by
  induction cs generalizing i with
  | nil => exact nomatch h
  | cons c cs ih =>
    rw [matchIndices, List.mem_append] at h
    rcases h with h | h
    · split_ifs at h with hc
      · exact ⟨[], cs, by rw [hc]; rfl, (List.mem_singleton.1 h).symm⟩
      · exact nomatch h
    · obtain ⟨j, hj, rfl⟩ := List.mem_map.1 h
      obtain ⟨a, b, rfl, rfl⟩ := ih hj
      exact ⟨c :: a, b, rfl, by rw [String.utf8Len_cons, Nat.add_comm]⟩

/-- The cuts at a quote. -/
theorem slice_quote (a b : List Char) :
    slice ('"' :: (a ++ '"' :: b)) 1 (utf8Len a + 1) = some a ∧
      splitAtByte ('"' :: (a ++ '"' :: b)) (utf8Len a + 2) = some ('"' :: a ++ ['"'], b) := by
  have hquote : utf8Len ['"'] = 1 := by decide
  constructor
  · have hslice := slice_append ['"'] a ('"' :: b)
    rw [hquote, Nat.add_comm 1] at hslice
    exact hslice
  · have hsplit := splitAtByte_append ('"' :: a ++ ['"']) b
    rw [List.cons_append, String.utf8Len_cons, String.utf8Len_append, hquote] at hsplit
    rw [List.cons_append, List.append_assoc, List.singleton_append] at hsplit
    exact hsplit

/-- **The search for a string's end cuts at quotes.** -/
theorem closeString_ok {cs : List Char} {stops : List ℕ}
    (hstops : ∀ i ∈ stops, i ∈ matchIndices '"' cs) :
    closeString ('"' :: cs) stops = .ok none ∨
      ∃ s rest, closeString ('"' :: cs) stops = .ok (some (s, rest)) ∧ cs = s ++ '"' :: rest := by
  induction stops with
  | nil => exact .inl rfl
  | cons stop stops ih =>
    obtain ⟨a, b, rfl, rfl⟩ := exists_of_mem_matchIndices (hstops stop List.mem_cons_self)
    obtain ⟨hslice, hsplit⟩ := slice_quote a b
    have hstep : closeString ('"' :: (a ++ '"' :: b)) (utf8Len a :: stops) =
        if (a.reverse.takeWhile (· = '\\')).length % 2 = 0 then .ok (some (a, b))
        else closeString ('"' :: (a ++ '"' :: b)) stops := by
      rw [closeString, hslice, hsplit]
      rfl
    rw [hstep]
    split_ifs
    · exact .inr ⟨a, b, rfl, rfl⟩
    · exact ih fun i hi => hstops i (List.mem_cons_of_mem _ hi)

section Classes

variable {classes : CharClasses}

/-- The cuts at the end of a dotted name. -/
theorem exists_of_dottedIdentifierEnd {code : List Char} {stop : ℕ}
    (h : dottedIdentifierEnd classes code = some stop) :
    ∃ name rest, name ≠ [] ∧ code = '.' :: (name ++ rest) ∧ slice code 1 stop = some name ∧
      splitAtByte code stop = some ('.' :: name, rest) := by
  rw [dottedIdentifierEnd.eq_def] at h
  split at h
  · rename_i code
    obtain ⟨first, hfirst, h⟩ := Option.bind_eq_some_iff.1 h
    split_ifs at h with halpha
    obtain rfl := Option.some.inj h
    obtain ⟨tail, rfl⟩ := List.head?_eq_some_iff.1 hfirst
    simp only [Bool.not_eq_true', Bool.not_eq_false] at halpha
    have hdot : utf8Len ['.'] = 1 := by decide
    -- the name is what `take_while` would take
    have hcode := List.takeWhile_append_dropWhile
      (p := fun c => classes.isAlphanumeric c || c = '_') (l := first :: tail)
    have hname : (first :: tail).takeWhile (fun c => classes.isAlphanumeric c || c = '_') ≠ [] := by
      rw [List.takeWhile_cons_of_pos]
      · exact List.cons_ne_nil _ _
      · rw [CharClasses.isAlphanumeric, halpha]
        rfl
    rw [identifierLen]
    generalize (first :: tail).takeWhile (fun c => classes.isAlphanumeric c || c = '_') = name
      at hcode hname ⊢
    generalize (first :: tail).dropWhile (fun c => classes.isAlphanumeric c || c = '_') = rest
      at hcode
    rw [← hcode]
    refine ⟨name, rest, hname, rfl, ?_, ?_⟩
    · have hslice := slice_append ['.'] name rest
      rw [hdot] at hslice
      exact hslice
    · have hsplit := splitAtByte_append ('.' :: name) rest
      rw [String.utf8Len_cons, Nat.add_comm] at hsplit
      exact hsplit
  · exact nomatch h

/-- **The loop over chained fields ends, and cuts at the ends of names.** -/
theorem chainedFields_ok {fuel : ℕ} {code : List Char} (hfuel : code.length ≤ fuel)
    (tokens : List Token) : ∃ tokens' rest,
      chainedFields classes fuel tokens code = .ok (tokens', rest) ∧ rest <:+ code := by
  induction fuel generalizing code tokens with
  | zero =>
    obtain rfl := List.eq_nil_of_length_eq_zero (Nat.le_zero.1 hfuel)
    exact ⟨tokens, [], rfl, List.suffix_rfl⟩
  | succ fuel ih =>
    cases hstop : dottedIdentifierEnd classes code with
    | none => exact ⟨tokens, code, by rw [chainedFields.eq_def, hstop], List.suffix_rfl⟩
    | some stop =>
      obtain ⟨name, rest, -, rfl, hslice, hsplit⟩ := exists_of_dottedIdentifierEnd hstop
      rw [List.length_cons, List.length_append] at hfuel
      obtain ⟨tokens', rest', hrest, hsuffix⟩ :=
        @ih rest (by omega) (tokens ++ [.dot, .ident name])
      refine ⟨tokens', rest', ?_, ?_⟩
      · rw [chainedFields.eq_def, hstop]
        dsimp only
        rw [hslice, hsplit]
        exact hrest
      · exact hsuffix.trans (List.suffix_append ('.' :: name) rest)

/-! ### One turn -/

/-- A run of characters of a class, with something behind it, that has as many
characters as no beginning of the text has bytes. -/
def MiscountedRun (p : Char → Bool) (code : List Char) : Prop :=
  ∃ run c rest, code = run ++ c :: rest ∧ (∀ d ∈ run, p d = true) ∧ p c = false ∧
    ∀ a r, code = a ++ r → utf8Len a ≠ run.length

/-- The characters that a turn of `lex` looks for first. -/
def tokenStarts : List Char := [' ', '(', ')', '|', '"', '.']

variable (classes) in
/-- **Where the lexer cuts inside a character**: in the run of whitespace behind a
blank, or in that of a name, it takes the number of characters for an offset. -/
def Miscounted (code : List Char) : Prop :=
  code.head? = some ' ' ∧ MiscountedRun isWhitespace code ∨
    (∀ c ∈ code.head?, c ∉ tokenStarts) ∧ MiscountedRun (isFuncChar classes) code

theorem findIdx?_eq_some_iff_run {p : Char → Bool} {code : List Char} {n : ℕ} :
    (code.findIdx? fun c => !p c) = some n ↔
      ∃ run c rest, code = run ++ c :: rest ∧ (∀ d ∈ run, p d = true) ∧ p c = false ∧
        run.length = n := by
  constructor
  · intro h
    obtain ⟨hlt, hc, hrun⟩ := List.findIdx?_eq_some_iff_getElem.1 h
    refine ⟨code.take n, code[n], code.drop (n + 1), ?_, fun d hd => ?_, by simpa using hc, ?_⟩
    · rw [List.getElem_cons_drop, List.take_append_drop]
    · obtain ⟨i, hi, rfl⟩ := List.mem_take_iff_getElem.1 hd
      simpa using hrun i (by omega)
    · rw [List.length_take, Nat.min_eq_left hlt.le]
  · rintro ⟨run, c, rest, rfl, hrun, hc, rfl⟩
    rw [List.findIdx?_append, List.findIdx?_eq_none_iff.2 fun d hd => by rw [hrun d hd]; rfl,
      List.findIdx?_cons, hc]
    simp

/-- A count of characters is no offset exactly at a miscounted run. -/
theorem miscountedRun_iff {p : Char → Bool} {code : List Char} : MiscountedRun p code ↔
    ∃ n, (code.findIdx? fun c => !p c) = some n ∧ splitAtByte code n = none := by
  constructor
  · rintro ⟨run, c, rest, hcode, hrun, hc, hcut⟩
    exact ⟨run.length, findIdx?_eq_some_iff_run.2 ⟨run, c, rest, hcode, hrun, hc, rfl⟩,
      splitAtByte_eq_none_iff.2 hcut⟩
  · rintro ⟨_, hfind, hsplit⟩
    obtain ⟨run, c, rest, hcode, hrun, hc, rfl⟩ := findIdx?_eq_some_iff_run.1 hfind
    exact ⟨run, c, rest, hcode, hrun, hc, splitAtByte_eq_none_iff.1 hsplit⟩

/-- What a turn may do. -/
inductive Turn (code : List Char) : Except Failure (Option (List Token × List Char)) → Prop
  | step {tokens : List Token} {rest : List Char} (h : ReadsOff code rest) :
      Turn code (.ok (some (tokens, rest)))
  | stop : Turn code (.ok none)
  | fail {e : Failure} (hpanic : e ≠ .panic) (hendless : e ≠ .endless) : Turn code (.error e)

/-- **A turn panics at a miscounted run, and otherwise goes forward or ends.** -/
theorem lexStep_spec (tokens : List Token) {code : List Char} (hne : code ≠ []) :
    Miscounted classes code ∧ lexStep classes tokens code = .error .panic ∨
      ¬ Miscounted classes code ∧ Turn code (lexStep classes tokens code) := by
  have hplain : ∀ {c : Char} {rest : List Char}, code = c :: rest → c ∈ tokenStarts → c ≠ ' ' →
      ¬ Miscounted classes code := by
    rintro c rest rfl hstart hblank (⟨hhead, -⟩ | ⟨hnot, -⟩)
    · exact hblank (Option.some.inj hhead)
    · exact hnot c rfl hstart
  have hone : ∀ {c : Char} {rest : List Char} {tokens : List Token}, code = c :: rest →
      Turn code (.ok (some (tokens, rest))) := by
    rintro c rest tokens rfl
    exact .step ⟨[c], List.cons_ne_nil c [], rfl⟩
  rw [lexStep.eq_def]
  split
  · -- a blank
    rename_i rest
    have hmiss : Miscounted classes (' ' :: rest) ↔ MiscountedRun isWhitespace (' ' :: rest) := by
      refine ⟨fun h => ?_, fun h => .inl ⟨rfl, h⟩⟩
      rcases h with ⟨-, h⟩ | ⟨hnot, -⟩
      · exact h
      · exact absurd (by decide) (hnot ' ' rfl)
    rw [hmiss, miscountedRun_iff]
    cases hfind : (' ' :: rest).findIdx? fun c => !isWhitespace c with
    | none =>
      refine .inr ⟨?_, Turn.stop⟩
      rintro ⟨_, h, -⟩
      cases h
    | some stop =>
      have hpos : 0 < stop := by
        rw [List.findIdx?_cons, show isWhitespace ' ' = true by decide] at hfind
        simp only [Bool.not_true, Bool.false_eq_true, if_false, Option.map_eq_some_iff] at hfind
        obtain ⟨i, -, rfl⟩ := hfind
        exact Nat.succ_pos i
      dsimp only
      cases hsplit : splitAtByte (' ' :: rest) stop with
      | none => exact .inl ⟨⟨stop, rfl, hsplit⟩, rfl⟩
      | some p =>
        refine .inr ⟨?_, .step (readsOff_of_splitAtByte hpos hsplit)⟩
        rintro ⟨_, h, hnone⟩
        obtain rfl := Option.some.inj h
        cases hsplit.symm.trans hnone
  · exact .inr ⟨hplain rfl (by decide) (by decide), hone rfl⟩
  · exact .inr ⟨hplain rfl (by decide) (by decide), hone rfl⟩
  · exact .inr ⟨hplain rfl (by decide) (by decide), hone rfl⟩
  · -- a string
    rename_i rest
    refine .inr ⟨hplain rfl (by decide) (by decide), ?_⟩
    rcases @closeString_ok rest _ fun _ hi => hi with hclose | ⟨s, rest', hclose, rfl⟩
    · rw [hclose]
      exact .fail (by rintro ⟨⟩) (by rintro ⟨⟩)
    · rw [hclose]
      exact .step ⟨'"' :: (s ++ ['"']), List.cons_ne_nil _ _, by simp⟩
  · -- a dotted name
    rename_i rest
    refine .inr ⟨hplain rfl (by decide) (by decide), ?_⟩
    cases hstop : dottedIdentifierEnd classes ('.' :: rest) with
    | none => exact hone rfl
    | some stop =>
      obtain ⟨name, rest', hname, hcode, hslice, hsplit⟩ := exists_of_dottedIdentifierEnd hstop
      obtain rfl := (List.cons.inj hcode).2
      dsimp only
      rw [hslice, hsplit]
      obtain ⟨tokens', rest'', hchained, before, rfl⟩ := @chainedFields_ok classes _ rest' le_rfl
        (tokens ++ if tokens.getLast? = some .rParen then [.dot, .ident name] else [.key name])
      simp only [orPanic, bind, Except.bind] at hchained ⊢
      rw [hchained]
      exact .step ⟨'.' :: (name ++ before), List.cons_ne_nil _ _, by simp⟩
  · -- a name
    rename_i code hblank hlParen hrParen hpipe hquote hdot
    obtain ⟨c, rest, rfl⟩ := List.exists_cons_of_ne_nil hne
    have hstart : c ∉ tokenStarts := by
      simp only [tokenStarts, List.mem_cons, List.not_mem_nil, or_false, not_or]
      exact ⟨fun h => hblank rest (h ▸ rfl), fun h => hlParen rest (h ▸ rfl),
        fun h => hrParen rest (h ▸ rfl), fun h => hpipe rest (h ▸ rfl),
        fun h => hquote rest (h ▸ rfl), fun h => hdot rest (h ▸ rfl)⟩
    have hmiss : Miscounted classes (c :: rest) ↔
        MiscountedRun (isFuncChar classes) (c :: rest) := by
      refine ⟨fun h => ?_, fun h => .inr ⟨?_, h⟩⟩
      · rcases h with ⟨hhead, -⟩ | ⟨-, h⟩
        · obtain rfl := Option.some.inj hhead
          exact absurd (by decide) hstart
        · exact h
      · rintro d hd
        obtain rfl := Option.some.inj hd
        exact hstart
    rw [hmiss, miscountedRun_iff]
    cases hfind : (c :: rest).findIdx? fun c => !isFuncChar classes c with
    | none =>
      -- the name is the whole code
      have hall := splitAtByte_append (c :: rest) []
      rw [List.append_nil] at hall
      have hpos := Lib.utf8Len_pos (List.cons_ne_nil c rest)
      refine .inr ⟨?_, ?_⟩
      · rintro ⟨_, h, -⟩
        cases h
      · rw [Option.getD_none, if_pos hpos, hall]
        exact .step ⟨c :: rest, List.cons_ne_nil c rest, (List.append_nil _).symm⟩
    | some stop =>
      rw [Option.getD_some]
      by_cases hpos : 0 < stop
      · rw [if_pos hpos]
        cases hsplit : splitAtByte (c :: rest) stop with
        | none => exact .inl ⟨⟨stop, rfl, hsplit⟩, rfl⟩
        | some p =>
          refine .inr ⟨?_, .step (readsOff_of_splitAtByte hpos hsplit)⟩
          rintro ⟨_, h, hnone⟩
          obtain rfl := Option.some.inj h
          cases hsplit.symm.trans hnone
      · obtain rfl := Nat.eq_zero_of_not_pos hpos
        rw [if_neg hpos]
        refine .inr ⟨?_, .fail (by rintro ⟨⟩) (by rintro ⟨⟩)⟩
        rintro ⟨_, h, hnone⟩
        obtain rfl := Option.some.inj h
        rw [splitAtByte] at hnone
        cases hnone

/-! ### All turns -/

variable (classes) in
/-- A turn of the loop that goes forward. -/
def LexTurn (s s' : List Token × List Char) : Prop :=
  s.2 ≠ [] ∧ lexStep classes s.1 s.2 = .ok (some s')

theorem LexTurn.readsOff {s s' : List Token × List Char} (h : LexTurn classes s s') :
    ReadsOff s.2 s'.2 := by
  rcases @lexStep_spec classes s.1 s.2 h.1 with ⟨-, hpanic⟩ | ⟨-, hturn⟩
  · exact nomatch hpanic.symm.trans h.2
  · rw [h.2] at hturn
    cases hturn with
    | step hoff => exact hoff

variable (classes) in
/-- Some turn of the lexer comes to where it cuts inside a character. -/
def MiscountedTag (tag : List Char) : Prop :=
  ∃ s, Relation.ReflTransGen (LexTurn classes) ([], trimmed tag) s ∧ Miscounted classes s.2

theorem not_miscounted_nil : ¬ Miscounted classes [] := by
  have hrun : ∀ p, ¬ MiscountedRun p [] := by
    rintro p ⟨run, c, rest, h, -⟩
    simp at h
  exact fun h => h.elim (fun h => hrun _ h.2) fun h => hrun _ h.2

/-- A miscounted run stands here, or the next turn leads to one. -/
theorem exists_miscounted_iff {s : List Token × List Char} :
    (∃ t, Relation.ReflTransGen (LexTurn classes) s t ∧ Miscounted classes t.2) ↔
      Miscounted classes s.2 ∨ ∃ s', LexTurn classes s s' ∧
        ∃ t, Relation.ReflTransGen (LexTurn classes) s' t ∧ Miscounted classes t.2 := by
  constructor
  · rintro ⟨t, hreach, hmiss⟩
    rcases Relation.ReflTransGen.cases_head hreach with rfl | ⟨s', hturn, hrest⟩
    · exact .inl hmiss
    · exact .inr ⟨s', hturn, t, hrest, hmiss⟩
  · rintro (hmiss | ⟨s', hturn, t, hrest, hmiss⟩)
    · exact ⟨s, .refl, hmiss⟩
    · exact ⟨t, .head hturn hrest, hmiss⟩

/-- **The loop ends, and panics where a turn comes to a miscounted run.** -/
theorem lexFrom_spec {fuel : ℕ} {code : List Char} (hfuel : code.length ≤ fuel)
    (tokens : List Token) : lexFrom classes fuel tokens code ≠ .error .endless ∧
      (lexFrom classes fuel tokens code = .error .panic ↔
        ∃ s, Relation.ReflTransGen (LexTurn classes) (tokens, code) s ∧
          Miscounted classes s.2) := by
  rw [exists_miscounted_iff]
  induction fuel generalizing tokens code with
  | zero =>
    obtain rfl := List.eq_nil_of_length_eq_zero (Nat.le_zero.1 hfuel)
    exact ⟨nofun, iff_of_false nofun fun h => h.elim not_miscounted_nil
      fun ⟨_, hturn, _⟩ => hturn.1 rfl⟩
  | succ fuel ih =>
    cases code with
    | nil =>
      exact ⟨nofun, iff_of_false nofun fun h => h.elim not_miscounted_nil
        fun ⟨_, hturn, _⟩ => hturn.1 rfl⟩
    | cons c code =>
      rcases lexStep_spec tokens (List.cons_ne_nil c code) with ⟨hmiss, hpanic⟩ | ⟨hmiss, hturn⟩
      · have hfrom : lexFrom classes (fuel + 1) tokens (c :: code) = .error .panic := by
          rw [lexFrom, hpanic]
          rfl
        rw [hfrom]
        exact ⟨nofun, iff_of_true rfl (.inl hmiss)⟩
      · rw [or_iff_right hmiss]
        generalize hstep : lexStep classes tokens (c :: code) = r at hturn
        have hnext : ∀ s', LexTurn classes (tokens, c :: code) s' ↔ r = .ok (some s') := fun s' =>
          ⟨fun h => hstep.symm.trans h.2, fun h => ⟨List.cons_ne_nil c code, hstep.trans h⟩⟩
        simp only [hnext]
        cases hturn with
        | @step tokens' rest hoff =>
          have hfrom : lexFrom classes (fuel + 1) tokens (c :: code) =
              lexFrom classes fuel tokens' rest := by
            rw [lexFrom, hstep]
            rfl
          have hlength := hoff.length_lt
          obtain ⟨hend, hiff⟩ := @ih rest (by omega) tokens'
          rw [hfrom, hiff, ← exists_miscounted_iff]
          refine ⟨hend, fun h => ⟨_, rfl, h⟩, ?_⟩
          rintro ⟨s', heq, h⟩
          obtain rfl := Option.some.inj (Except.ok.inj heq)
          exact h
        | stop =>
          have hfrom : lexFrom classes (fuel + 1) tokens (c :: code) = .ok tokens := by
            rw [lexFrom, hstep]
            rfl
          rw [hfrom]
          exact ⟨nofun, iff_of_false nofun nofun⟩
        | @fail e hpanic hendless =>
          have hfrom : lexFrom classes (fuel + 1) tokens (c :: code) = .error e := by
            rw [lexFrom, hstep]
            rfl
          rw [hfrom]
          refine ⟨fun h => hendless (Except.error.inj h), iff_of_false ?_ nofun⟩
          exact fun h => hpanic (Except.error.inj h)

theorem lex_ne_endless (tag : List Char) : lex classes tag ≠ .error .endless :=
  (lexFrom_spec le_rfl []).1

theorem lex_eq_panic_iff {tag : List Char} :
    lex classes tag = .error .panic ↔ MiscountedTag classes tag :=
  (lexFrom_spec le_rfl []).2

end Classes

end Mise.Aqua
