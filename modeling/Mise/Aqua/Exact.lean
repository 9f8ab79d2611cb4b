/-
# What is accepted, and what is dropped

`parse_tokens` does not look at what `parse_pipe` leaves, and `render` does not
look at a tag that is never closed.  So tokens are dropped exactly where an
expression stands in front that does not go on with them (`accepts_iff`), and text
exactly where no tag in front of the open one fails (`closes_iff`).

Tokens that are dropped are never part of the grammar: an expression fixes how many
tokens it has, parentheses and whitespace apart, parentheses are balanced, and
behind each `(` there is something else.
-/

import Mise.Aqua.Complete
import Mise.Aqua.Render

namespace Mise.Aqua

open Lib

/-! ### The tokens of an expression -/

/-- Whether a token is more than whitespace and parentheses. -/
def Token.isProper : Token → Bool
  | .whitespace _ | .lParen | .rParen => false
  | _ => true

mutual

/-- The number of these tokens in an expression. -/
def Expr.size : Expr → ℕ
  | .var _ => 1
  | .literal _ => 1
  | .funcCall _ args => sizes args + 1
  | .propertyAccess e _ => e.size + 2
  | .pipe left right => left.size + right.size + 1

/-- The number of them in several. -/
def sizes : List Expr → ℕ
  | [] => 0
  | e :: es => e.size + sizes es

end

theorem Expr.size_pos (e : Expr) : 0 < e.size := by
  cases e <;> rw [Expr.size] <;> omega

/-- Behind each `(` there is such a token. -/
def Followed (l : List Token) : Prop :=
  ∀ a b, l = a ++ .lParen :: b → ∃ t ∈ b, t.isProper = true

section Tokens

variable {l l' w : List Token} {es : List Expr} {e : Expr}

theorem Blank.countP (hw : Blank w) : w.countP Token.isProper = 0 := by
  refine List.countP_eq_zero.2 fun t ht => ?_
  have ht' := hw t ht
  cases t with
  | whitespace s => nofun
  | _ => exact nomatch ht'

theorem Blank.count {t : Token} (hw : Blank w) (ht : t.isWhitespace = false) :
    w.count t = 0 :=
  List.count_eq_zero.2 fun hmem => nomatch ht.symm.trans (hw t hmem)

theorem Blank.balanced (hw : Blank w) : w.count .lParen = w.count .rParen := by
  rw [hw.count rfl, hw.count rfl]

/-- **An expression fixes the number of its tokens.** -/
theorem Derives.countP {k : Nonterminal} (h : Derives Blank k l es) :
    l.countP Token.isProper = sizes es := by
  have hwhitespace : ∀ (s : List Char) (l : List Token),
      (Token.whitespace s :: l).countP Token.isProper = l.countP Token.isProper :=
    fun s l => List.countP_cons_of_neg (by simp [Token.isProper])
  induction h with
  | one _ ih => exact ih
  | piped _ hw _ ih ih' =>
    simp only [sizes, Expr.size] at ih ih' ⊢
    simp [List.countP_cons, hw.countP, ih, ih', Token.isProper]
    omega
  | blank s _ ih => rwa [hwhitespace]
  | key k => rfl
  | string s => rfl
  | paren _ hw ih => simp [hw.countP, ih, Token.isProper]
  | call f _ ih => simp [List.countP_cons, ih, Token.isProper, sizes, Expr.size]
  | property p _ hw hw' ih =>
    simp only [sizes, Expr.size] at ih ⊢
    simp [List.countP_cons, hw.countP, hw'.countP, ih, Token.isProper]
  | noArgs hw => exact hw.countP
  | moreArgs _ _ ih ih' =>
    simp only [sizes] at ih ⊢
    rw [List.countP_append, ih, ih', Nat.add_zero]
  | argBlank s _ ih => rwa [hwhitespace]
  | argOf _ ih => exact ih
  | argString s => rfl
  | argKey k => rfl
  | argParen _ hw ih => simp [hw.countP, ih, Token.isProper]
  | argProperty p _ hw hw' ih =>
    simp only [sizes, Expr.size] at ih ⊢
    simp [List.countP_cons, hw.countP, hw'.countP, ih, Token.isProper]

/-- Parentheses are balanced. -/
theorem Derives.balanced {k : Nonterminal} (h : Derives Blank k l es) :
    l.count .lParen = l.count .rParen := by
  induction h with
  | one _ ih => exact ih
  | piped _ hw _ ih ih' => simp [hw.balanced, ih, ih']
  | blank s _ ih => simpa using ih
  | key k => simp
  | string s => simp
  | paren _ hw ih =>
    simp [hw.balanced, ih]
    omega
  | call f _ ih => simpa using ih
  | property p _ hw hw' ih => simp [hw.balanced, hw'.balanced, ih]
  | noArgs hw => exact hw.balanced
  | moreArgs _ _ ih ih' => simp [ih, ih']
  | argBlank s _ ih => simpa using ih
  | argOf _ ih => exact ih
  | argString s => simp
  | argKey k => simp
  | argParen _ hw ih =>
    simp [hw.balanced, ih]
    omega
  | argProperty p _ hw hw' ih => simp [hw.balanced, hw'.balanced, ih]

theorem followed_of_not_mem (h : Token.lParen ∉ l) : Followed l := by
  rintro a b rfl
  exact absurd (List.mem_append_right _ List.mem_cons_self) h

theorem Followed.append (h : Followed l) (h' : Followed l') : Followed (l ++ l') := by
  intro a b heq
  obtain ⟨a', -, hl'⟩ | ⟨c', hl, hb⟩ := List.append_eq_append_iff.1 heq
  · exact h' a' b hl'
  · cases c' with
    | nil => exact h' [] b hb.symm
    | cons t c' =>
      obtain ⟨rfl, rfl⟩ := List.cons.inj hb
      obtain ⟨t, ht, hproper⟩ := h a c' hl
      exact ⟨t, List.mem_append_left _ ht, hproper⟩

theorem Followed.cons {t : Token} (h : Followed l) (ht : t ≠ .lParen) : Followed (t :: l) :=
  (followed_of_not_mem (l := [t]) (by simpa using ht.symm)).append h

theorem Blank.followed (hw : Blank w) : Followed w :=
  followed_of_not_mem fun hmem => nomatch hw _ hmem

theorem Derives.followed_paren {k : Nonterminal} (h : Derives Blank k l [e]) (hl : Followed l)
    (hw : Blank w) : Followed (.lParen :: (l ++ (w ++ [.rParen]))) := by
  have hrest : Followed (l ++ (w ++ [.rParen])) :=
    hl.append (hw.followed.append (followed_of_not_mem (by simp)))
  intro a b heq
  cases a with
  | nil =>
    obtain ⟨-, rfl⟩ := List.cons.inj heq
    have hpos : 0 < l.countP Token.isProper := by
      rw [h.countP, sizes, sizes]
      exact e.size_pos
    obtain ⟨t, ht, hproper⟩ := List.countP_pos_iff.1 hpos
    exact ⟨t, List.mem_append_left _ ht, hproper⟩
  | cons t a => exact hrest a b (List.cons.inj heq).2

theorem Derives.followed {k : Nonterminal} (h : Derives Blank k l es) : Followed l := by
  have hproperty : ∀ {l w w' : List Token} (p : List Char), Followed l → Blank w → Blank w' →
      Followed (l ++ (w ++ .dot :: (w' ++ [.ident p]))) := fun p hl hw hw' =>
    hl.append (hw.followed.append
      ((hw'.followed.append (followed_of_not_mem (by simp))).cons nofun))
  induction h with
  | one _ ih => exact ih
  | piped _ hw _ ih ih' => exact ih.append (hw.followed.append (ih'.cons nofun))
  | blank s _ ih => exact ih.cons nofun
  | key k => exact followed_of_not_mem (by simp)
  | string s => exact followed_of_not_mem (by simp)
  | paren h hw ih => exact h.followed_paren ih hw
  | call f _ ih => exact ih.cons nofun
  | property p _ hw hw' ih => exact hproperty p ih hw hw'
  | noArgs hw => exact hw.followed
  | moreArgs _ _ ih ih' => exact ih.append ih'
  | argBlank s _ ih => exact ih.cons nofun
  | argOf _ ih => exact ih
  | argString s => exact followed_of_not_mem (by simp)
  | argKey k => exact followed_of_not_mem (by simp)
  | argParen h hw ih => exact h.followed_paren ih hw
  | argProperty p _ hw hw' ih => exact hproperty p ih hw hw'

/-- **Nothing but whitespace may be added to an expression** without another one. -/
theorem Accepts.blank_of_append {r : List Token} (h : Accepts Blank l e)
    (h' : Accepts Blank (l ++ r) e) : Blank r := by
  have hspec : ∀ {l}, Accepts Blank l e → l.countP Token.isProper = sizes [e] ∧
      l.count .lParen = l.count .rParen ∧ Followed l := by
    rintro l ⟨body, w, rfl, hw, hbody⟩
    refine ⟨?_, ?_, hbody.followed.append hw.followed⟩
    · rw [List.countP_append, hbody.countP, hw.countP, Nat.add_zero]
    · rw [List.count_append, List.count_append, hbody.balanced, hw.balanced]
  obtain ⟨hcountP, hcount, -⟩ := hspec h
  obtain ⟨hcountP', hcount', hfollowed⟩ := hspec h'
  rw [List.countP_append] at hcountP'
  rw [List.count_append, List.count_append] at hcount'
  have hnone : ∀ t ∈ r, ¬ t.isProper = true := List.countP_eq_zero.1 (by omega)
  have hlParen : Token.lParen ∉ r := by
    intro hmem
    obtain ⟨a, b, rfl⟩ := List.append_of_mem hmem
    obtain ⟨t, ht, hproper⟩ := hfollowed (l ++ a) b (by rw [List.append_assoc])
    exact hnone t (List.mem_append_right _ (List.mem_cons_of_mem _ ht)) hproper
  have hrParen : Token.rParen ∉ r := by
    rw [← List.count_eq_zero] at hlParen ⊢
    omega
  intro t ht
  cases t with
  | whitespace s => rfl
  | lParen => exact absurd ht hlParen
  | rParen => exact absurd ht hrParen
  | _ => exact absurd rfl (hnone _ ht)

end Tokens

/-! ### Tokens that are left over -/

/-- An expression stands in front of a token that it does not go on with. -/
def Leftover (tokens : List Token) : Prop :=
  ∃ used t rest e, tokens = used ++ t :: rest ∧ Accepts Tight used e ∧ ¬ GoesOn used t

theorem Accepts.blank {l : List Token} {e : Expr} (h : Accepts Tight l e) : Accepts Blank l e := by
  obtain ⟨body, w, rfl, hw, hbody⟩ := h
  exact ⟨body, w, rfl, hw, hbody.mono fun w hw => hw ▸ blank_nil⟩

theorem parseTokens_eq_ok_iff {tokens : List Token} {e : Expr} : parseTokens tokens = .ok e ↔
    ∃ rest, parsePipe (3 * tokens.length + 2) tokens = .ok (e, rest) := by
  rw [parseTokens]
  cases parsePipe (3 * tokens.length + 2) tokens with
  | error e => exact iff_of_false nofun nofun
  | ok p =>
    obtain ⟨e', rest⟩ := p
    constructor
    · rintro ⟨⟩
      exact ⟨rest, rfl⟩
    · rintro ⟨rest', heq⟩
      exact congrArg _ (Prod.mk.inj (Except.ok.inj heq)).1

/-- With the fuel of `parse_tokens`, what is left is left. -/
theorem exists_of_leaves {ts rest : List Token}
    (h : Leaves (parsePipe (3 * ts.length + 2) ts) rest) :
    ∃ e, parsePipe (3 * ts.length + 2) ts = .ok (e, rest) :=
  h.resolve_left ((ends _).pipe le_rfl).2

/-- **Only the grammar is accepted, unless tokens are left over.** -/
theorem accepts_iff (tokens : List Token) :
    (∀ e, parseTokens tokens = .ok e → Accepts Blank tokens e) ↔ ¬ Leftover tokens := by
  constructor
  · rintro h ⟨used, t, rest, e, rfl, hused, ht⟩
    obtain ⟨e', hread⟩ := exists_of_leaves (leaves_of_not_goesOn hused ht rest _)
    obtain ⟨used', -, heq, -, hused', -⟩ := (sound _).pipe hread
    obtain rfl := List.append_cancel_right heq
    have hblank := hused'.blank.blank_of_append (h e' (parseTokens_eq_ok_iff.2 ⟨_, hread⟩))
    have ht' := hblank t List.mem_cons_self
    cases t with
    | whitespace s => exact ht (hused.goesOn_whitespace s)
    | _ => exact nomatch ht'
  · intro h e he
    obtain ⟨rest, hread⟩ := parseTokens_eq_ok_iff.1 he
    obtain ⟨used, -, htokens, hreads, hused, -⟩ := (sound _).pipe hread
    cases rest with
    | nil =>
      rw [htokens, List.append_nil]
      exact hused.blank
    | cons t rest =>
      refine absurd ⟨used, t, rest, e, htokens, hused, ?_⟩ h
      rintro ⟨t', more, e', hkind, hmore⟩
      -- it would stop in front of `t'` as well, where the grammar goes on
      have hstop := hreads (t' :: more) (congrArg some hkind)
      obtain hleaves | ⟨a, hleaves⟩ := leaves_of_accepts hmore (3 * tokens.length + 2)
      · exact nomatch hstop.symm.trans hleaves
      · exact nomatch hstop.symm.trans hleaves

/-! ### Printing -/

mutual

/-- An expression with parentheses around every part that is not an atom. -/
def print : Expr → List Token
  | .var name => [.key name]
  | .literal s => [.string s]
  | .funcCall func args => .func func :: printArgs args
  | .propertyAccess e prop => .lParen :: (print e ++ [.rParen, .dot, .ident prop])
  | .pipe left right =>
    .lParen :: (print left ++ .rParen :: .pipe :: .lParen :: (print right ++ [.rParen]))

/-- Every argument is in parentheses. -/
def printArgs : List Expr → List Token
  | [] => []
  | e :: es => .lParen :: (print e ++ .rParen :: printArgs es)

end

section Print

variable {α β : Type} {x : Except Failure α} {a : α} {b : β} {ts rest : List Token} {e : Expr}

/-- A computation returns `a`, unless it has too little fuel. -/
def Yields (x : Except Failure α) (a : α) : Prop := x = .error .endless ∨ x = .ok a

theorem Yields.bind {f : α → Except Failure β} (hx : Yields x a) (hf : Yields (f a) b) :
    Yields (x >>= f) b := by
  obtain rfl | rfl := hx
  · exact .inl rfl
  · exact hf

/-- The end, or the end of an expression in parentheses. -/
def AtEnd (rest : List Token) : Prop := rest.head? = none ∨ rest.head? = some .rParen

theorem AtEnd.skipWhitespace (h : AtEnd rest) : skipWhitespace rest = rest := by
  refine skipWhitespace_append blank_nil fun t ht => ?_
  obtain h | h := h
  · exact nomatch h.symm.trans ht
  · obtain rfl := Option.some.inj (h.symm.trans ht)
    rfl

theorem AtEnd.ne {t : Token} (h : AtEnd rest) (ht : t ≠ .rParen) : rest.head? ≠ some t := by
  intro heq
  obtain h | h := h
  · exact nomatch h.symm.trans heq
  · exact ht (Option.some.inj (heq.symm.trans h))

/-- What is read as a pipe in front of an end. -/
def ReadsBack (l : List Token) (e : Expr) : Prop :=
  ∀ rest, AtEnd rest → ∀ fuel, Yields (parsePipe fuel (l ++ rest)) (e, rest)

theorem yields_of_primary (hrest : AtEnd rest)
    (h : ∀ fuel, Yields (parsePrimary fuel ts) (e, rest)) (fuel : ℕ) :
    Yields (parsePipe fuel ts) (e, rest) := by
  cases fuel with
  | zero => exact .inl (by rw [parsePipe])
  | succ fuel =>
    rw [parsePipe]
    refine (h fuel).bind (.inr ?_)
    dsimp only
    rw [hrest.skipWhitespace, pipeLoop_of_ne (hrest.ne (by rintro ⟨⟩))]

theorem ReadsBack.afterParen {l : List Token} (h : ReadsBack l e) (fuel : ℕ) (rest : List Token) :
    Aqua.afterParen fuel (l ++ .rParen :: rest) = .error .endless ∨
      Aqua.afterParen fuel (l ++ .rParen :: rest) = parsePropertyChain rest e := by
  rw [Aqua.afterParen, parsePipe_skipWhitespace]
  obtain hx | hx := h (.rParen :: rest) (.inr rfl) fuel
  · rw [hx]
    exact .inl rfl
  · rw [hx]
    exact .inr rfl

theorem ReadsBack.parsePrimary {l : List Token} (h : ReadsBack l e) (fuel : ℕ)
    (rest : List Token) :
    Aqua.parsePrimary fuel (.lParen :: (l ++ .rParen :: rest)) = .error .endless ∨
      Aqua.parsePrimary fuel (.lParen :: (l ++ .rParen :: rest)) = parsePropertyChain rest e := by
  cases fuel with
  | zero => exact .inl (by rw [Aqua.parsePrimary])
  | succ fuel =>
    rw [Aqua.parsePrimary, skipWhitespace_cons rfl]
    exact h.afterParen fuel rest

theorem ReadsBack.parseArg {l : List Token} (h : ReadsBack l e) (fuel : ℕ) (rest : List Token) :
    Aqua.parseArg fuel (.lParen :: (l ++ .rParen :: rest)) = .error .endless ∨
      Aqua.parseArg fuel (.lParen :: (l ++ .rParen :: rest)) = parsePropertyChain rest e := by
  cases fuel with
  | zero => exact .inl (by rw [Aqua.parseArg])
  | succ fuel =>
    rw [Aqua.parseArg, skipWhitespace_cons rfl]
    exact h.afterParen fuel rest

theorem readsBack_atom {t : Token} (ht : ∀ fuel ts,
    parsePrimary (fuel + 1) (t :: ts) = parsePropertyChain ts e) : ReadsBack [t] e := by
  refine fun rest hrest => yields_of_primary hrest ?_
  rintro (- | fuel)
  · exact .inl (by rw [parsePrimary])
  · rw [List.singleton_append, ht]
    exact .inr (parsePropertyChain_of_ne (hrest.ne (by rintro ⟨⟩)) e)

theorem head?_printArgs_ne_dot (es : List Expr) (hrest : AtEnd rest) :
    (printArgs es ++ rest).head? ≠ some .dot := by
  cases es with
  | nil =>
    rw [printArgs]
    exact hrest.ne nofun
  | cons e es =>
    rw [printArgs]
    nofun

mutual

/-- **What is printed is read back.** -/
theorem readsBack : ∀ e : Expr, ReadsBack (print e) e
  | .var name => by
    rw [print]
    exact readsBack_atom fun fuel ts => by rw [parsePrimary, skipWhitespace_cons rfl]
  | .literal s => by
    rw [print]
    exact readsBack_atom fun fuel ts => by rw [parsePrimary, skipWhitespace_cons rfl]
  | .funcCall func args => by
    rw [print]
    refine fun rest hrest => yields_of_primary hrest ?_
    rintro (- | fuel)
    · exact .inl (by rw [parsePrimary])
    · rw [List.cons_append, parsePrimary, skipWhitespace_cons rfl]
      exact (readsBack_args args rest hrest fuel).bind
        (.inr (parsePropertyChain_of_ne (hrest.ne nofun) _))
  | .propertyAccess e prop => by
    have h := readsBack e
    rw [print]
    refine fun rest hrest => yields_of_primary hrest fun fuel => ?_
    have hchain : parsePropertyChain (.dot :: .ident prop :: rest) e =
        .ok (.propertyAccess e prop, rest) :=
      (parsePropertyChain_dot blank_nil prop e).trans
        (parsePropertyChain_of_ne (hrest.ne nofun) _)
    rw [List.cons_append, List.append_assoc]
    obtain hx | hx := h.parsePrimary fuel (.dot :: .ident prop :: rest)
    · exact .inl hx
    · exact .inr (hx.trans hchain)
  | .pipe left right => by
    have hleft := readsBack left
    have hright := readsBack right
    rw [print]
    rintro rest hrest (- | fuel)
    · exact .inl (by rw [parsePipe])
    have hshape : .lParen :: (print left ++ .rParen :: .pipe :: .lParen ::
          (print right ++ [.rParen])) ++ rest =
        .lParen :: (print left ++ .rParen :: .pipe :: .lParen ::
          (print right ++ .rParen :: rest)) := by simp
    rw [hshape, parsePipe]
    obtain hx | hx := hleft.parsePrimary fuel (.pipe :: .lParen :: (print right ++ .rParen :: rest))
    · rw [hx]
      exact .inl rfl
    rw [hx, parsePropertyChain_of_ne (by simp)]
    dsimp only [bind, Except.bind]
    rw [skipWhitespace_cons rfl]
    cases fuel with
    | zero => exact .inl (by rw [pipeLoop])
    | succ fuel =>
      rw [pipeLoop, skipWhitespace_cons rfl]
      obtain hy | hy := hright.parsePrimary fuel rest
      · rw [hy]
        exact .inl rfl
      · rw [hy, parsePropertyChain_of_ne (hrest.ne nofun)]
        dsimp only [bind, Except.bind]
        rw [hrest.skipWhitespace, pipeLoop_of_ne (hrest.ne nofun)]
        exact .inr rfl

theorem readsBack_args : ∀ (es : List Expr) (rest : List Token), AtEnd rest → ∀ fuel,
    Yields (argsLoop fuel (printArgs es ++ rest)) (es, rest)
  | _, _, _, 0 => .inl (by rw [argsLoop])
  | [], rest, hrest, fuel + 1 => by
    rw [printArgs, List.nil_append, argsLoop_of_ends, hrest.skipWhitespace]
    · exact .inr rfl
    · rw [hrest.skipWhitespace]
      obtain h | h := hrest
      · rw [h]
        rfl
      · rw [h]
        rfl
  | e :: es, rest, hrest, fuel + 1 => by
    have h := readsBack e
    have hargs := readsBack_args es rest hrest fuel
    rw [printArgs, List.cons_append, List.append_assoc, List.cons_append,
      argsLoop_of_not_ends rfl, skipWhitespace_cons rfl]
    obtain hx | hx := h.parseArg fuel (printArgs es ++ rest)
    · rw [hx]
      exact .inl rfl
    · rw [hx, parsePropertyChain_of_ne (head?_printArgs_ne_dot es hrest)]
      exact hargs.bind (.inr rfl)

end

theorem parsePipe_print (e : Expr) :
    parsePipe (3 * (print e).length + 2) (print e) = .ok (e, []) := by
  have h := readsBack e [] (.inl rfl) (3 * (print e).length + 2)
  rw [List.append_nil] at h
  exact h.resolve_left ((ends _).pipe le_rfl).2

/-- It is in the grammar, and parsed to itself. -/
theorem parseTokens_print (e : Expr) :
    Accepts Blank (print e) e ∧ parseTokens (print e) = .ok e := by
  have hread := parsePipe_print e
  refine ⟨?_, parseTokens_eq_ok_iff.2 ⟨_, hread⟩⟩
  obtain ⟨used, -, heq, -, haccepts, -⟩ := (sound _).pipe hread
  rw [List.append_nil] at heq
  rw [heq]
  exact haccepts.blank

end Print

/-! ### Tags that are never closed -/

/-- Behind tags that are closed there is a `{{` that is not. -/
inductive NeverClosed : List Char → Prop
  | first {tmpl text rest : List Char} (h : splitPair '{' tmpl = some (text, rest))
      (h' : splitPair '}' rest = none) : NeverClosed tmpl
  | next {tmpl text rest tag rest' : List Char} (h : splitPair '{' tmpl = some (text, rest))
      (h' : splitPair '}' rest = some (tag, rest')) (hrest : NeverClosed rest') : NeverClosed tmpl

section Closes

variable {classes : CharClasses} {crates : Crates} {ctx : Context}

variable (classes crates ctx) in
/-- A tag that rendering comes to is an error. -/
def TagFails (tmpl : List Char) : Prop :=
  ∃ tag e, ComesTo classes crates ctx tmpl tag ∧ renderTag classes crates ctx tag = .error e

/-- Rendering succeeds where every tag does, closed or not. -/
theorem exists_render_eq_ok_iff (tmpl : List Char) :
    (∃ out, render classes crates ctx tmpl = .ok out) ↔ ¬ TagFails classes crates ctx tmpl := by
  induction hn : tmpl.length using Nat.strong_induction_on generalizing tmpl with
  | _ n ih =>
    rw [render_eq, TagFails]
    simp only [@comesTo_iff classes crates ctx tmpl]
    cases hsplit : splitPair '{' tmpl with
    | none => simp
    | some p =>
      obtain ⟨text, rest⟩ := p
      have hlength := length_lt_of_splitPair hsplit
      dsimp only
      cases hsplit' : splitPair '}' rest with
      | none => simp [hsplit']
      | some p =>
        obtain ⟨tag, rest'⟩ := p
        have hlength' := length_lt_of_splitPair hsplit'
        dsimp only
        cases htag : renderTag classes crates ctx tag with
        | error e =>
          refine iff_of_false nofun fun h => h ⟨tag, e, ⟨_, _, _, _, rfl, hsplit', .inl rfl⟩, htag⟩
        | ok value =>
          have hih := ih rest'.length (by omega) rest' rfl
          have hout : (∃ out, (do
              let out ← render classes crates ctx rest'
              .ok (text ++ value ++ out) : Except Failure (List Char)) = .ok out) ↔
                ∃ out, render classes crates ctx rest' = .ok out := by
            cases render classes crates ctx rest' with
            | error e => exact iff_of_false nofun nofun
            | ok out => exact iff_of_true ⟨_, rfl⟩ ⟨out, rfl⟩
          refine hout.trans (hih.trans (not_congr ⟨?_, ?_⟩))
          · rintro ⟨tag', e, hcomes, he⟩
            exact ⟨tag', e, ⟨_, _, _, _, rfl, hsplit', .inr ⟨⟨value, htag⟩, hcomes⟩⟩, he⟩
          · rintro ⟨tag', e, ⟨_, _, _, _, ⟨⟩, h', hcomes⟩, he⟩
            obtain ⟨rfl, rfl⟩ := Prod.mk.inj (Option.some.inj (hsplit'.symm.trans h'))
            obtain rfl | ⟨-, hcomes⟩ := hcomes
            · exact nomatch htag.symm.trans he
            · exact ⟨tag', e, hcomes, he⟩

/-- **An open tag is an error only behind another one.** -/
theorem closes_iff (tmpl : List Char) :
    (NeverClosed tmpl → ∀ out, render classes crates ctx tmpl ≠ .ok out) ↔
      ¬ NeverClosed tmpl ∨ TagFails classes crates ctx tmpl := by
  have hiff := @exists_render_eq_ok_iff classes crates ctx tmpl
  rw [imp_iff_not_or, ← not_exists, hiff, not_not]

end Closes

/-- What is asked of parsing `tokens` and of rendering `tmpl`. -/
structure ParsesExactly (classes : CharClasses) (crates : Crates) (ctx : Context)
    (tokens : List Token) (tmpl : List Char) : Prop where
  /-- An expression is returned only if the whole list derives it. -/
  accepts : ∀ e, parseTokens tokens = .ok e → Accepts Blank tokens e
  /-- What is printed is in the grammar, and parsed to what it is. -/
  prints : ∀ e, Accepts Blank (print e) e ∧ parseTokens (print e) = .ok e
  /-- A tag that is never closed is an error. -/
  closes : NeverClosed tmpl → ∀ out, render classes crates ctx tmpl ≠ .ok out

/-- **Parsing is exact where no tokens are left over**, and rendering where no tag is
left open behind tags that render. -/
theorem parsesExactly_iff (classes : CharClasses) (crates : Crates) (ctx : Context)
    (tokens : List Token) (tmpl : List Char) :
    ParsesExactly classes crates ctx tokens tmpl ↔
      ¬ Leftover tokens ∧ (¬ NeverClosed tmpl ∨ TagFails classes crates ctx tmpl) :=
  ⟨fun h => ⟨(accepts_iff tokens).1 h.accepts, (closes_iff tmpl).1 h.closes⟩, fun h =>
    { accepts := (accepts_iff tokens).2 h.1
      prints := parseTokens_print
      closes := (closes_iff tmpl).2 h.2 }⟩

/-- Of two keys the second is dropped, and so is a tag that is left open. -/
theorem not_parsesExactly : ¬ ParsesExactly latin noCrates (fun _ => none)
      [.key ['A'], .key ['B']] [] ∧
    ¬ ParsesExactly latin noCrates (fun _ => none) [] "a\x7b\x7bb".toList := by
  constructor
  · intro h
    have hread : parseTokens [.key ['A'], .key ['B']] = .ok (.var ['A']) := by
      refine parseTokens_eq_ok_iff.2 ⟨[.key ['B']], ?_⟩
      simp [parsePipe, parsePrimary, skipWhitespace, parsePropertyChain, pipeLoop, bind,
        Except.bind]
    have hfirst : Accepts Blank [.key ['A']] (.var ['A']) :=
      ⟨_, [], rfl, blank_nil, .one (.key _)⟩
    have hblank := hfirst.blank_of_append (h.accepts _ hread)
    cases hblank (.key ['B']) List.mem_cons_self
  · intro h
    refine h.closes (.first rfl rfl) "a".toList ?_
    rw [render_eq]
    rfl

end Mise.Aqua
