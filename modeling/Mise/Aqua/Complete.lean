/-
# Parsing what the grammar derives

The other direction: what the grammar derives, with nothing in front of a `.`, is
parsed to its end (`leaves_of_accepts`).  At a `.` behind a call the grammar is
ambiguous, since the property may be the call's or its last argument's, and what a
call leaves depends on it.  `Parses` therefore says of each nonterminal what its
function does with any properties behind what is derived.

Behind an expression, parsing stops at a token that nothing goes on with
(`leaves_of_not_goesOn`).
-/

import Mise.Aqua.Grammar

namespace Mise.Aqua

open Lib

/-! ### Properties -/

/-- `('.' ident)*`, with whitespace behind a `.`. -/
inductive Properties : List Token → Prop
  | nil : Properties []
  | cons {w ds : List Token} (p : List Char) (hw : Blank w) (h : Properties ds) :
      Properties (.dot :: (w ++ .ident p :: ds))

section Properties

variable {l ds ds' rest : List Token} {e : Expr}

theorem Properties.append (h : Properties ds) (h' : Properties ds') : Properties (ds ++ ds') := by
  induction h with
  | nil => exact h'
  | cons p hw _ ih =>
    rw [List.cons_append, List.append_assoc, List.cons_append]
    exact .cons p hw ih

theorem Properties.head? (h : Properties ds) (hne : ds ≠ []) : ds.head? = some .dot := by
  cases h with
  | nil => exact absurd rfl hne
  | cons => rfl

/-- They are read, and nothing else. -/
theorem Properties.parse (h : Properties ds) (hrest : rest.head? ≠ some .dot) (e : Expr) :
    ∃ e', parsePropertyChain (ds ++ rest) e = .ok (e', rest) := by
  induction h generalizing e with
  | nil => exact ⟨e, parsePropertyChain_of_ne hrest e⟩
  | @cons w ds p hw _ ih =>
    rw [List.cons_append, List.append_assoc, List.cons_append, parsePropertyChain_dot hw]
    exact ih _

theorem Derives.argHead_properties (h : Derives Tight .argHead l [e]) (hds : Properties ds) :
    ∃ e', Derives Tight .argHead (l ++ ds) [e'] := by
  induction hds generalizing l e with
  | nil => exact ⟨e, by rwa [List.append_nil]⟩
  | @cons w ds p hw _ ih =>
    have hshape : l ++ .dot :: (w ++ .ident p :: ds) =
        l ++ ([] ++ .dot :: (w ++ [.ident p])) ++ ds := by simp
    rw [hshape]
    exact ih (.argProperty p h rfl hw)

end Properties

/-! ### What a function leaves -/

section Leaves

variable {α β : Type} {x : Except Failure (α × List Token)} {ts l w rest rest' : List Token}

/-- A computation returns and leaves `rest`, unless it has too little fuel. -/
def Leaves (x : Except Failure (α × List Token)) (rest : List Token) : Prop :=
  x = .error .endless ∨ ∃ a, x = .ok (a, rest)

theorem Leaves.bind {f : α × List Token → Except Failure (β × List Token)}
    (hx : Leaves x rest) (hf : ∀ a, Leaves (f (a, rest)) rest') : Leaves (x >>= f) rest' := by
  obtain rfl | ⟨a, rfl⟩ := hx
  · exact .inl rfl
  · exact hf a

theorem Properties.leaves {ds : List Token} (h : Properties ds) (hrest : rest.head? ≠ some .dot)
    (e : Expr) : Leaves (parsePropertyChain (ds ++ rest) e) rest := .inr (h.parse hrest e)

@[simp] theorem skipWhitespace_skipWhitespace (ts : List Token) :
    skipWhitespace (skipWhitespace ts) = skipWhitespace ts :=
  skipWhitespace_append blank_nil (isWhitespace_head?_skipWhitespace ts)

theorem skipWhitespace_blank (hw : Blank w) (ts : List Token) :
    skipWhitespace (w ++ ts) = skipWhitespace ts := by
  obtain ⟨w', hw', heq⟩ := exists_blank_skipWhitespace ts
  conv_lhs => rw [heq, ← List.append_assoc]
  exact skipWhitespace_append (hw.append hw') (isWhitespace_head?_skipWhitespace ts)

theorem skipWhitespace_cons {t : Token} (h : t.isWhitespace = false) (ts : List Token) :
    skipWhitespace (t :: ts) = t :: ts :=
  skipWhitespace_append blank_nil (by rintro t' ⟨⟩; exact h)

/-- Where a `.` comes first there is no whitespace to skip. -/
theorem head?_ne_dot_of_skipWhitespace (h : (skipWhitespace ts).head? ≠ some .dot) :
    ts.head? ≠ some .dot := by
  intro hdot
  obtain ⟨ts, rfl⟩ := List.head?_eq_some_iff.1 hdot
  exact h rfl

/-! The functions skip whitespace themselves. -/

theorem parsePrimary_skipWhitespace (fuel : ℕ) (ts : List Token) :
    parsePrimary fuel (skipWhitespace ts) = parsePrimary fuel ts := by
  cases fuel with
  | zero => rw [parsePrimary, parsePrimary]
  | succ fuel => rw [parsePrimary, parsePrimary, skipWhitespace_skipWhitespace]

theorem parseArg_skipWhitespace (fuel : ℕ) (ts : List Token) :
    parseArg fuel (skipWhitespace ts) = parseArg fuel ts := by
  cases fuel with
  | zero => rw [parseArg, parseArg]
  | succ fuel => rw [parseArg, parseArg, skipWhitespace_skipWhitespace]

theorem parsePipe_skipWhitespace (fuel : ℕ) (ts : List Token) :
    parsePipe fuel (skipWhitespace ts) = parsePipe fuel ts := by
  cases fuel with
  | zero => rw [parsePipe, parsePipe]
  | succ fuel => rw [parsePipe, parsePipe, parsePrimary_skipWhitespace]

end Leaves

/-! ### Closed and open expressions -/

/-- What `f` leaves, whatever its fuel. -/
def LeftBy {α : Type} (f : ℕ → List Token → Except Failure (α × List Token))
    (ts rest : List Token) : Prop := ∀ fuel, Leaves (f fuel ts) rest

/-- `parse_pipe` comes to its loop with `rest` left, and whitespace skipped. -/
def ReachesLoop (ts rest : List Token) : Prop := ∀ fuel, parsePipe fuel ts = .error .endless ∨
  ∃ fuel' e, parsePipe fuel ts = pipeLoop fuel' e (skipWhitespace rest)

/-- Nothing behind goes on with the arguments of a call or has a property of it. -/
def StopsArgs (rest : List Token) : Prop :=
  endsArgs (skipWhitespace rest).head? = true ∧ (skipWhitespace rest).head? ≠ some .dot

section Shape

variable {R : List Token → List Token → Prop} {k : Nonterminal} {l d : List Token}

/-- All but a `.` is left. -/
def Closed (R : List Token → List Token → Prop) (l : List Token) : Prop :=
  ∀ rest, rest.head? ≠ some .dot → R (l ++ rest) rest

/-- At the end stands a call without parentheses, which goes on with whitespace and
with arguments. -/
structure Open (R : List Token → List Token → Prop) (k : Nonterminal) (l : List Token) : Prop where
  leaves : ∀ rest, StopsArgs rest → R (l ++ rest) (skipWhitespace rest)
  goesOn : ∀ l' es, Derives Tight .args l' es → ∃ e, Derives Tight k (l ++ l') [e]

/-- Closed whatever properties there are, open whatever properties there are (they
are the last argument's), or open unless there are some. -/
def Shape (R : List Token → List Token → Prop) (k : Nonterminal) (l : List Token) : Prop :=
  (∀ ds, Properties ds → Closed R (l ++ ds)) ∨ (∀ ds, Properties ds → Open R k (l ++ ds)) ∨
    Open R k l ∧ ∀ ds, Properties ds → ds ≠ [] → Closed R (l ++ ds)

theorem Shape.closed_or_open (h : Shape R k l) : Closed R l ∨ Open R k l := by
  rw [← List.append_nil l]
  obtain h | h | ⟨h, -⟩ := h
  · exact .inl (h [] .nil)
  · exact .inr (h [] .nil)
  · exact .inr (by rwa [List.append_nil])

theorem Shape.properties (h : Shape R k l) (hd : Properties d) (hne : d ≠ []) :
    Shape R k (l ++ d) := by
  simp only [Shape, List.append_assoc]
  obtain h | h | ⟨-, h⟩ := h
  · exact .inl fun ds hds => h _ (hd.append hds)
  · exact .inr (.inl fun ds hds => h _ (hd.append hds))
  · exact .inl fun ds hds => h _ (hd.append hds) (by simp [hne])

/-- A token in front that is skipped changes nothing. -/
theorem Shape.cons {t : Token} (h : Shape R k l) (hR : ∀ ts rest, R ts rest → R (t :: ts) rest)
    (hk : ∀ l e, Derives Tight k l [e] → Derives Tight k (t :: l) [e]) : Shape R k (t :: l) := by
  have hclosed : ∀ {l}, Closed R l → Closed R (t :: l) := fun h rest hrest => hR _ _ (h rest hrest)
  have hopen : ∀ {l}, Open R k l → Open R k (t :: l) := fun h =>
    { leaves := fun rest hrest => hR _ _ (h.leaves rest hrest)
      goesOn := fun l' es hl' => (h.goesOn l' es hl').imp fun e => hk _ e }
  obtain h | h | ⟨h, h'⟩ := h
  · exact .inl fun ds hds => hclosed (h ds hds)
  · exact .inr (.inl fun ds hds => hopen (h ds hds))
  · exact .inr (.inr ⟨hopen h, fun ds hds hne => hclosed (h' ds hds hne)⟩)

end Shape

/-- An argument that properties may follow, which are then its own. -/
def ParsesHead (l : List Token) : Prop :=
  ∀ ds, Properties ds → Closed (LeftBy parseArg) (l ++ ds) ∧ ∃ e, Derives Tight .arg (l ++ ds) [e]

/-- Arguments that nothing but a `.` behind them stops short of. -/
def OpenArgs (l : List Token) : Prop :=
  (∀ rest, StopsArgs rest → LeftBy argsLoop (l ++ rest) (skipWhitespace rest)) ∧
    ∃ es, Derives Tight .args l es

/-- Arguments that a `.` stops as well. -/
def ClosedArgs (l : List Token) : Prop :=
  ∀ rest, endsArgs (skipWhitespace rest).head? = true →
    LeftBy argsLoop (l ++ rest) (skipWhitespace rest)

/-- What the function of a nonterminal does on what it derives. -/
def Parses : Nonterminal → List Token → Prop
  | .pipe, l => Closed ReachesLoop l ∨ Open ReachesLoop .pipe l
  | .primary, l => Shape (LeftBy parsePrimary) .primary l
  | .argHead, l => ParsesHead l
  | .arg, l => ParsesHead l ∨ ∀ rest, LeftBy parseArg (l ++ rest) rest
  | .args, l => (∀ ds, Properties ds → OpenArgs (l ++ ds)) ∨ ClosedArgs l

/-! ### Arguments begin an expression -/

section Args

variable {gap : List Token → Prop} {l l' : List Token} {es es' : List Expr}

/-- An argument is not what the loop over the arguments stops at. -/
theorem Derives.not_endsArgs (h : Derives gap .arg l es) (rest : List Token) :
    endsArgs (skipWhitespace (l ++ rest)).head? = false := by
  have hall : ∀ {k : Nonterminal} {l es}, Derives gap k l es → k = .arg ∨ k = .argHead →
      ∀ rest, endsArgs (skipWhitespace (l ++ rest)).head? = false := by
    intro k l es h hk
    induction h with
    | argBlank s _ ih => exact ih (Or.inl rfl)
    | argOf _ ih => exact ih (Or.inr rfl)
    | argString s => exact fun _ => rfl
    | argKey k => exact fun _ => rfl
    | argParen => exact fun _ => rfl
    | argProperty p _ _ _ ih =>
      intro rest
      rw [List.append_assoc]
      exact ih (Or.inr rfl) _
    | _ => exact hk.elim nofun nofun
  exact hall h (Or.inl rfl) rest

theorem Derives.args_head? (h : Derives gap .args l es) : l.head? ≠ some .dot := by
  intro hdot
  obtain ⟨l, rfl⟩ := List.head?_eq_some_iff.1 hdot
  generalize hl : Token.dot :: l = ts at h
  cases h with
  | noArgs hw => exact nomatch hw .dot (hl ▸ List.mem_cons_self)
  | @moreArgs l₁ l₂ e es harg hargs =>
    have hends := harg.not_endsArgs l₂
    rw [← hl] at hends
    exact nomatch hends

theorem Derives.args_blank {w : List Token} (h : Derives gap .args l es) (hw : Blank w) :
    Derives gap .args (w ++ l) es := by
  cases h with
  | noArgs hw' => exact .noArgs (hw.append hw')
  | moreArgs harg hargs =>
    rw [← List.append_assoc]
    exact .moreArgs (harg.arg_blank hw) hargs

theorem Derives.args_append (h : Derives gap .args l es) (h' : Derives gap .args l' es') :
    ∃ es'', Derives gap .args (l ++ l') es'' := by
  generalize hk : Nonterminal.args = k at h
  induction h with
  | noArgs hw => exact ⟨es', h'.args_blank hw⟩
  | moreArgs harg _ _ ih =>
    obtain ⟨es'', hargs⟩ := ih rfl
    rw [List.append_assoc]
    exact ⟨_, .moreArgs harg hargs⟩
  | _ => exact nomatch hk

end Args

/-! ### Case by case -/

section Cases

variable {l l' w ds rest mid : List Token}

theorem reachesLoop_skipWhitespace {ts : List Token} (h : ReachesLoop ts (skipWhitespace rest)) :
    ReachesLoop ts rest := by
  rwa [ReachesLoop, skipWhitespace_skipWhitespace] at h

/-- A primary expression is a pipe of one. -/
theorem reachesLoop_of_primary {ts : List Token} (h : LeftBy parsePrimary ts rest) :
    ReachesLoop ts rest := by
  rintro (- | fuel)
  · exact .inl (by rw [parsePipe])
  · rw [parsePipe]
    obtain hx | ⟨a, hx⟩ := h fuel
    · rw [hx]
      exact .inl rfl
    · rw [hx]
      exact .inr ⟨fuel, a, rfl⟩

theorem parses_one (h : Parses .primary l) : Parses .pipe l := by
  refine h.closed_or_open.imp (fun h rest hrest => reachesLoop_of_primary (h rest hrest))
    fun h => ⟨fun rest hrest => reachesLoop_of_primary (h.leaves rest hrest), fun l' es hl' => ?_⟩
  exact (h.goesOn l' es hl').imp fun e he => .one he

/-- Behind a pipe there may be whitespace and a token that stops arguments. -/
theorem Parses.reaches {t : Token} (h : Parses .pipe l) (hw : Blank w)
    (ht : t = .pipe ∨ t = .rParen) (rest : List Token) :
    ReachesLoop (l ++ (w ++ t :: rest)) (t :: rest) := by
  have hskip : skipWhitespace (w ++ t :: rest) = t :: rest :=
    skipWhitespace_append hw (by rintro t' ⟨⟩; obtain rfl | rfl := ht <;> rfl)
  suffices hreach : ReachesLoop (l ++ (w ++ t :: rest)) (w ++ t :: rest) by
    rw [ReachesLoop, hskip] at hreach
    have ht' : skipWhitespace (t :: rest) = t :: rest := by
      rw [← hskip, skipWhitespace_skipWhitespace]
    rwa [ReachesLoop, ht']
  obtain h | h := h
  · have hdot : (w ++ t :: rest).head? ≠ some .dot := by
      refine head?_ne_dot_of_skipWhitespace ?_
      rw [hskip]
      obtain rfl | rfl := ht <;> nofun
    exact h _ hdot
  · refine reachesLoop_skipWhitespace (h.leaves _ ?_)
    rw [StopsArgs, hskip]
    obtain rfl | rfl := ht
    · exact ⟨rfl, nofun⟩
    · exact ⟨rfl, nofun⟩

theorem reachesLoop_piped (h : Parses .pipe l) (hw : Blank w)
    (h' : LeftBy parsePrimary (l' ++ mid) rest) :
    ReachesLoop (l ++ (w ++ .pipe :: (l' ++ mid))) rest := by
  intro fuel
  obtain hx | ⟨fuel', e, hx⟩ := h.reaches hw (.inl rfl) (l' ++ mid) fuel
  · exact .inl hx
  rw [hx, skipWhitespace_cons rfl]
  cases fuel' with
  | zero => exact .inl (by rw [pipeLoop])
  | succ fuel' =>
    rw [pipeLoop, parsePrimary_skipWhitespace]
    obtain hy | ⟨a, hy⟩ := h' fuel'
    · rw [hy]
      exact .inl rfl
    · rw [hy]
      exact .inr ⟨fuel', .pipe e a, rfl⟩

theorem parses_piped {e : Expr} (hl : Derives Tight .pipe l [e]) (h : Parses .pipe l)
    (hw : Blank w) (h' : Parses .primary l') : Parses .pipe (l ++ (w ++ .pipe :: l')) := by
  have happend : ∀ r, l ++ (w ++ .pipe :: l') ++ r = l ++ (w ++ .pipe :: (l' ++ r)) :=
    fun r => by simp
  refine h'.closed_or_open.imp (fun h' rest hrest => ?_)
    fun h' => ⟨fun rest hrest => ?_, fun l'' es hl'' => ?_⟩
  · rw [happend]
    exact reachesLoop_piped h hw (h' rest hrest)
  · rw [happend]
    exact reachesLoop_piped h hw (h'.leaves rest hrest)
  · obtain ⟨e', he'⟩ := h'.goesOn l'' es hl''
    rw [happend]
    exact ⟨_, .piped hl hw he'⟩

theorem parses_blank (s : List Char) (h : Parses .primary l) :
    Parses .primary (.whitespace s :: l) := by
  refine Shape.cons h (fun ts rest hts fuel => ?_) fun l e hl => .blank s hl
  rw [← parsePrimary_skipWhitespace]
  exact (parsePrimary_skipWhitespace fuel ts).symm ▸ hts fuel

/-- An expression in parentheses is read, and the properties behind it. -/
theorem afterParen_leaves (h : Parses .pipe l) (hw : Blank w) (hds : Properties ds)
    (hrest : rest.head? ≠ some .dot) (fuel : ℕ) :
    Leaves (afterParen fuel (l ++ (w ++ .rParen :: (ds ++ rest)))) rest := by
  rw [afterParen, parsePipe_skipWhitespace]
  obtain hx | ⟨fuel', e, hx⟩ := h.reaches hw (.inr rfl) (ds ++ rest) fuel
  · rw [hx]
    exact .inl rfl
  · rw [hx, skipWhitespace_cons rfl, pipeLoop_of_ne (by simp)]
    exact hds.leaves hrest e

theorem parses_paren (h : Parses .pipe l) (hw : Blank w) :
    Parses .primary (.lParen :: (l ++ (w ++ [.rParen]))) := by
  refine .inl fun ds hds rest hrest => ?_
  rintro (- | fuel)
  · exact .inl (by rw [parsePrimary])
  · have hshape : .lParen :: (l ++ (w ++ [.rParen])) ++ ds ++ rest =
        .lParen :: (l ++ (w ++ .rParen :: (ds ++ rest))) := by simp
    rw [hshape, parsePrimary, skipWhitespace_cons rfl]
    exact afterParen_leaves h hw hds hrest fuel

theorem parses_argParen {e : Expr} (hl : Derives Tight .pipe l [e]) (h : Parses .pipe l)
    (hw : Blank w) : Parses .argHead (.lParen :: (l ++ (w ++ [.rParen]))) := by
  refine fun ds hds => ⟨fun rest hrest => ?_, ?_⟩
  · rintro (- | fuel)
    · exact .inl (by rw [parseArg])
    · have hshape : .lParen :: (l ++ (w ++ [.rParen])) ++ ds ++ rest =
          .lParen :: (l ++ (w ++ .rParen :: (ds ++ rest))) := by simp
      rw [hshape, parseArg, skipWhitespace_cons rfl]
      exact afterParen_leaves h hw hds hrest fuel
  · exact ((Derives.argParen hl hw).argHead_properties hds).imp fun _ => .argOf

/-- A key or a string alone, with the properties behind it. -/
theorem parses_atom {t : Token} {e : Expr} (ht : ∀ fuel ts,
    parsePrimary (fuel + 1) (t :: ts) = parsePropertyChain ts e) : Parses .primary [t] := by
  refine .inl fun ds hds rest hrest => ?_
  rintro (- | fuel)
  · exact .inl (by rw [parsePrimary])
  · rw [List.append_assoc, List.singleton_append, ht]
    exact hds.leaves hrest e

theorem parses_argKey (k : List Char) : Parses .argHead [.key k] := by
  refine fun ds hds => ⟨fun rest hrest => ?_, ?_⟩
  · rintro (- | fuel)
    · exact .inl (by rw [parseArg])
    · rw [List.append_assoc, List.singleton_append, parseArg, skipWhitespace_cons rfl]
      exact hds.leaves hrest _
  · exact ((Derives.argKey k).argHead_properties hds).imp fun _ => .argOf

/-- A call is read as its arguments are. -/
theorem parses_call {args : List Expr} (f : List Char) (hl : Derives Tight .args l args)
    (h : Parses .args l) : Parses .primary (.func f :: l) := by
  have hopen : ∀ {l}, OpenArgs l → Open (LeftBy parsePrimary) .primary (.func f :: l) := by
    rintro l ⟨hleaves, es, hes⟩
    refine ⟨fun rest hrest => ?_, fun l' es' hl' => ?_⟩
    · rintro (- | fuel)
      · exact .inl (by rw [parsePrimary])
      · rw [List.cons_append, parsePrimary, skipWhitespace_cons rfl]
        exact (hleaves rest hrest fuel).bind fun args => Properties.nil.leaves hrest.2 _
    · obtain ⟨es'', hes''⟩ := hes.args_append hl'
      exact ⟨_, .call f hes''⟩
  obtain h | h := h
  · exact .inr (.inl fun ds hds => hopen (h ds hds))
  · refine .inr (.inr ⟨hopen ⟨fun rest hrest => h rest hrest.1, args, hl⟩, ?_⟩)
    intro ds hds hne rest hrest
    have hskip : skipWhitespace (ds ++ rest) = ds ++ rest := by
      obtain ⟨ds, rfl⟩ := List.head?_eq_some_iff.1 (hds.head? hne)
      rfl
    rintro (- | fuel)
    · exact .inl (by rw [parsePrimary])
    · rw [List.append_assoc, List.cons_append, parsePrimary, skipWhitespace_cons rfl]
      have hargs := h (ds ++ rest)
      rw [hskip] at hargs
      refine (hargs ?_ fuel).bind fun args => hds.leaves hrest _
      rw [List.head?_append, hds.head? hne]
      rfl

theorem closedArgs_blank (hw : Blank w) : ClosedArgs w := by
  rintro rest hrest (- | fuel)
  · exact .inl (by rw [argsLoop])
  · rw [← skipWhitespace_blank hw] at hrest ⊢
    rw [argsLoop_of_ends hrest]
    exact .inr ⟨_, rfl⟩

/-- An argument is read, and then the others. -/
theorem argsLoop_leaves (hends : endsArgs (skipWhitespace (l ++ mid)).head? = false)
    (h : LeftBy parseArg (l ++ mid) mid) (h' : LeftBy argsLoop mid rest) :
    LeftBy argsLoop (l ++ mid) rest := by
  rintro (- | fuel)
  · exact .inl (by rw [argsLoop])
  · rw [argsLoop_of_not_ends hends, parseArg_skipWhitespace]
    exact (h fuel).bind fun arg => (h' fuel).bind fun args => .inr ⟨_, rfl⟩

/-- An argument in front of others is parsed with them. -/
theorem parses_moreArgs {e : Expr} {es : List Expr} (hl : Derives Tight .arg l [e])
    (h : Parses .arg l) (hl' : Derives Tight .args l' es) (h' : Parses .args l') :
    Parses .args (l ++ l') := by
  have hnil := closedArgs_blank blank_nil
  by_cases hne : l' = []
  · subst hne
    rw [List.append_nil]
    refine h.imp (fun h ds hds => ?_) fun h rest hrest =>
      argsLoop_leaves (hl.not_endsArgs rest) (h rest) (hnil rest hrest)
    obtain ⟨hclosed, e', he'⟩ := h ds hds
    refine ⟨fun rest hrest => ?_, [e'], ?_⟩
    · exact argsLoop_leaves (he'.not_endsArgs rest)
        (hclosed rest (head?_ne_dot_of_skipWhitespace hrest.2)) (hnil rest hrest.1)
    · rw [← List.append_nil (l ++ ds)]
      exact .moreArgs he' (.noArgs blank_nil)
  · have harg : ∀ r, LeftBy parseArg (l ++ (l' ++ r)) (l' ++ r) := by
      intro r
      obtain h | h := h
      · have hclosed := (h [] .nil).1 (l' ++ r)
        rw [List.append_nil] at hclosed
        refine hclosed ?_
        rw [List.head?_append_of_ne_nil _ hne]
        exact hl'.args_head?
      · exact h _
    refine h'.imp (fun h' ds hds => ?_) fun h' rest hrest => ?_
    · obtain ⟨hleaves, es', hes'⟩ := h' ds hds
      rw [List.append_assoc]
      refine ⟨fun rest hrest => ?_, _, .moreArgs hl hes'⟩
      rw [List.append_assoc]
      have hl'' := harg (ds ++ rest)
      rw [← List.append_assoc l'] at hl''
      exact argsLoop_leaves (hl.not_endsArgs _) hl'' (hleaves rest hrest)
    · rw [List.append_assoc]
      exact argsLoop_leaves (hl.not_endsArgs _) (harg rest) (h' rest hrest)

theorem parses_argBlank (s : List Char) (h : Parses .arg l) :
    Parses .arg (.whitespace s :: l) := by
  have hblank : ∀ ts rest, LeftBy parseArg ts rest →
      LeftBy parseArg (.whitespace s :: ts) rest := by
    intro ts rest hts fuel
    rw [← parseArg_skipWhitespace]
    exact (parseArg_skipWhitespace fuel ts).symm ▸ hts fuel
  refine h.imp (fun h ds hds => ?_) fun h rest => hblank _ _ (h rest)
  obtain ⟨hclosed, e, he⟩ := h ds hds
  exact ⟨fun rest hrest => hblank _ _ (hclosed rest hrest), e, .argBlank s he⟩

theorem parses_argString (s : List Char) : Parses .arg [.string s] := by
  refine .inr fun rest => ?_
  rintro (- | fuel)
  · exact .inl (by rw [parseArg])
  · rw [List.singleton_append, parseArg, skipWhitespace_cons rfl]
    exact .inr ⟨_, rfl⟩

theorem parses_argProperty (p : List Char) (h : Parses .argHead l) (hw : Tight w)
    {w' : List Token} (hw' : Blank w') :
    Parses .argHead (l ++ (w ++ .dot :: (w' ++ [.ident p]))) := by
  obtain rfl := hw
  intro ds hds
  rw [List.append_assoc]
  exact h _ ((Properties.cons p hw' .nil).append hds)

end Cases

/-- **What is derived is parsed**, by the function of its nonterminal. -/
theorem parses {k : Nonterminal} {l : List Token} {es : List Expr} (h : Derives Tight k l es) :
    Parses k l := by
  induction h with
  | one _ ih => exact parses_one ih
  | piped h hw _ ih ih' => exact parses_piped h ih hw ih'
  | blank s _ ih => exact parses_blank s ih
  | key k => exact parses_atom fun fuel ts => by rw [parsePrimary, skipWhitespace_cons rfl]
  | string s => exact parses_atom fun fuel ts => by rw [parsePrimary, skipWhitespace_cons rfl]
  | paren _ hw ih => exact parses_paren ih hw
  | call f h ih => exact parses_call f h ih
  | property p _ hw hw' ih =>
    obtain rfl := hw
    exact Shape.properties ih (.cons p hw' .nil) (by simp)
  | noArgs hw => exact .inr (closedArgs_blank hw)
  | moreArgs h h' ih ih' => exact parses_moreArgs h ih h' ih'
  | argBlank s _ ih => exact parses_argBlank s ih
  | argOf _ ih => exact .inl ih
  | argString s => exact parses_argString s
  | argKey k => exact parses_argKey k
  | argParen h hw ih => exact parses_argParen h ih hw
  | argProperty p _ hw hw' ih => exact parses_argProperty p ih hw hw'

/-! ### Where parsing stops -/

section Stops

variable {l used : List Token} {e : Expr} {t : Token}

/-- An expression is read to its end, with the whitespace behind it. -/
theorem leaves_of_accepts (h : Accepts Tight l e) (fuel : ℕ) : Leaves (parsePipe fuel l) [] := by
  obtain ⟨body, w, rfl, hw, hbody⟩ := h
  have hskip : skipWhitespace w = [] := by
    rw [← List.append_nil w]
    exact skipWhitespace_append hw nofun
  suffices hreach : ReachesLoop (body ++ w) w by
    obtain hx | ⟨fuel', e', hx⟩ := hreach fuel
    · exact .inl hx
    · rw [hx, hskip, pipeLoop_of_ne (by simp)]
      exact .inr ⟨e', rfl⟩
  obtain h | h := parses hbody
  · refine h w (head?_ne_dot_of_skipWhitespace ?_)
    rw [hskip]
    simp
  · refine reachesLoop_skipWhitespace (h.leaves w ?_)
    rw [StopsArgs, hskip]
    exact ⟨rfl, by simp⟩

/-- An expression goes on with a token: there is an expression that goes on behind it
with a token of this kind. -/
def GoesOn (used : List Token) (t : Token) : Prop :=
  ∃ t' more e, t'.kind = t.kind ∧ Accepts Tight (used ++ t' :: more) e

theorem Derives.pipe_property (h : Derives Tight .pipe l [e]) (p : List Char) :
    ∃ e', Derives Tight .pipe (l ++ [.dot, .ident p]) [e'] := by
  cases h with
  | one h => exact ⟨_, .one (.property p h rfl blank_nil)⟩
  | piped h hw h' =>
    have happend := Derives.piped h hw (.property p h' rfl blank_nil)
    exact ⟨_, by simpa using happend⟩

theorem Accepts.goesOn_whitespace (h : Accepts Tight used e) (s : List Char) :
    GoesOn used (.whitespace s) :=
  ⟨.whitespace s, [], e, rfl, h.append_blank (by rintro t ht; rw [List.mem_singleton.1 ht]; rfl)⟩

theorem Accepts.goesOn_pipe (h : Accepts Tight used e) : GoesOn used .pipe := by
  obtain ⟨body, w, rfl, hw, hbody⟩ := h
  exact ⟨.pipe, [.key []], _, rfl, _, [], by simp, blank_nil, .piped hbody hw (.key [])⟩

/-- **Parsing stops behind an expression**, at a token that it does not go on with. -/
theorem leaves_of_not_goesOn (h : Accepts Tight used e) (ht : ¬ GoesOn used t)
    (rest : List Token) (fuel : ℕ) :
    Leaves (parsePipe fuel (used ++ t :: rest)) (t :: rest) := by
  have hblank : t.isWhitespace = false := by
    cases t with
    | whitespace s => exact absurd (h.goesOn_whitespace s) ht
    | _ => rfl
  have hpipe : t ≠ .pipe := fun heq => ht (heq ▸ h.goesOn_pipe)
  obtain ⟨body, w, rfl, hw, hbody⟩ := h
  have hskip : skipWhitespace (w ++ t :: rest) = t :: rest :=
    skipWhitespace_append hw (by rintro t' ⟨⟩; exact hblank)
  rw [List.append_assoc]
  suffices hreach : ReachesLoop (body ++ (w ++ t :: rest)) (w ++ t :: rest) by
    obtain hx | ⟨fuel', e', hx⟩ := hreach fuel
    · exact .inl hx
    · rw [hx, hskip, pipeLoop_of_ne (by simpa using hpipe)]
      exact .inr ⟨e', rfl⟩
  -- a property may go on where no whitespace comes first, or behind the whitespace of a call
  have hdot : ∀ e', Derives Tight .pipe (body ++ w) [e'] → t ≠ .dot := by
    rintro e' hbody' rfl
    obtain ⟨e'', he''⟩ := hbody'.pipe_property []
    exact ht ⟨.dot, [.ident []], e'', rfl, _, [], by simp, blank_nil, he''⟩
  obtain h | h := parses hbody
  · refine h _ fun hhead => ?_
    cases w with
    | nil =>
      rw [List.append_nil] at hdot
      exact hdot e hbody (Option.some.inj hhead)
    | cons t' w => exact nomatch (Option.some.inj hhead ▸ hw t' List.mem_cons_self :)
  · refine reachesLoop_skipWhitespace (h.leaves _ ?_)
    rw [StopsArgs, hskip]
    constructor
    · by_contra hends
      have hkind : (Token.string []).kind = t.kind := by
        cases t with
        | whitespace s => exact nomatch hblank
        | key | string | func | lParen => rfl
        | _ => exact absurd rfl hends
      have hargs : Derives Tight .args (w ++ ([.string []] ++ [])) [.literal []] :=
        (Derives.moreArgs (.argString []) (.noArgs blank_nil)).args_blank hw
      obtain ⟨e', he'⟩ := h.goesOn _ _ hargs
      exact ht ⟨.string [], [], e', hkind, _, [], by simp, blank_nil, he'⟩
    · obtain ⟨e', he'⟩ := h.goesOn w [] (.noArgs hw)
      exact fun heq => hdot e' he' (Option.some.inj heq)

end Stops

end Mise.Aqua
