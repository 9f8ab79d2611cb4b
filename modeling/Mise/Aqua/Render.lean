/-
# Rendering a template

`render` goes through a template once.  What it does is a recursion over tags
(`render_eq`): the text up to a `{{` is copied, the tag up to the next `}}` is
rendered, and the rest follows; a tag that is not closed is dropped.

Parsing and evaluating a tag always come to an end and do not panic, so that
rendering does unless the lexer cuts inside a character of a tag it comes to
(`render_proper_iff`).
-/

import Mise.Aqua.Grammar
import Mise.Aqua.Lexer

namespace Mise.Aqua

open Lib

/-! ### Computations that return -/

section Proper

variable {α β : Type} {x : Except Failure α} {f : α → Except Failure β}

/-- A computation that ends in a result or in an error, not in a panic. -/
def Proper (x : Except Failure α) : Prop := x ≠ .error .panic ∧ x ≠ .error .endless

theorem proper_ok (a : α) : Proper (.ok a : Except Failure α) := ⟨nofun, nofun⟩

theorem proper_error {e : Failure} (hpanic : e ≠ .panic) (hendless : e ≠ .endless) :
    Proper (.error e : Except Failure α) :=
  ⟨fun h => hpanic (Except.error.inj h), fun h => hendless (Except.error.inj h)⟩

/-- An error is the same at every type. -/
theorem error_eq_error_iff {e e' : Failure} : (.error e : Except Failure α) = .error e' ↔
    (.error e : Except Failure β) = .error e' :=
  ⟨fun h => congrArg _ (Except.error.inj h), fun h => congrArg _ (Except.error.inj h)⟩

theorem Proper.bind (hx : Proper x) (hf : ∀ a, x = .ok a → Proper (f a)) : Proper (x >>= f) := by
  cases x with
  | ok a => exact hf a rfl
  | error e =>
    exact proper_error (fun h => hx.1 (congrArg _ h)) fun h => hx.2 (congrArg _ h)

end Proper

/-! ### Parsing ends -/

theorem parsePropertyChain_proper (ts : List Token) (e : Expr) :
    Proper (parsePropertyChain ts e) := by
  fun_induction parsePropertyChain ts e with
  | case1 e ts p ts' hskip ih => exact ih
  | case2 => exact proper_error (by rintro ⟨⟩) (by rintro ⟨⟩)
  | case3 => exact proper_ok _

/-- The five functions end with so much fuel. -/
structure Ends (fuel : ℕ) : Prop where
  pipe : ∀ {ts}, 3 * ts.length + 2 ≤ fuel → Proper (parsePipe fuel ts)
  loop : ∀ {left ts}, 3 * ts.length + 1 ≤ fuel → Proper (pipeLoop fuel left ts)
  primary : ∀ {ts}, 3 * ts.length + 1 ≤ fuel → Proper (parsePrimary fuel ts)
  args : ∀ {ts}, 3 * ts.length + 2 ≤ fuel → Proper (argsLoop fuel ts)
  arg : ∀ {ts}, 3 * ts.length + 1 ≤ fuel → Proper (parseArg fuel ts)

section Step

variable {fuel : ℕ} (he : Ends fuel)
include he

theorem Ends.afterParen {ts : List Token} (h : 3 * ts.length + 2 ≤ fuel) :
    Proper (afterParen fuel ts) := by
  have hle := length_skipWhitespace_le ts
  refine (he.pipe (by omega)).bind fun p _ => ?_
  obtain ⟨inner, mid⟩ := p
  dsimp only
  split
  · exact parsePropertyChain_proper _ _
  · exact proper_error nofun nofun

/-- One more round of fuel, for each parser from those it calls. -/
theorem ends_succ : Ends (fuel + 1) where
  pipe {ts} h := by
    rw [parsePipe]
    refine (he.primary (by omega)).bind fun p hp => ?_
    obtain ⟨left, mid⟩ := p
    obtain ⟨used, hne, rfl, -⟩ := (sound fuel).primary hp
    have hle := length_skipWhitespace_le mid
    rw [List.length_append] at h
    exact he.loop (by omega)
  loop {left ts} h := by
    by_cases hpipe : ts.head? = some .pipe
    · obtain ⟨ts, rfl⟩ := List.head?_eq_some_iff.1 hpipe
      rw [pipeLoop]
      rw [List.length_cons] at h
      have hle := length_skipWhitespace_le ts
      refine (he.primary (by omega)).bind fun p hp => ?_
      obtain ⟨right, mid⟩ := p
      obtain ⟨used, hne, hskip, -⟩ := (sound fuel).primary hp
      have hle' := length_skipWhitespace_le mid
      rw [hskip, List.length_append] at hle
      exact he.loop (by omega)
    · rw [pipeLoop_of_ne hpipe]
      exact proper_ok _
  primary {ts} h := by
    have hle := length_skipWhitespace_le ts
    rw [parsePrimary]
    split
    · exact proper_error (by rintro ⟨⟩) (by rintro ⟨⟩)
    · exact parsePropertyChain_proper _ _
    · exact parsePropertyChain_proper _ _
    · rename_i heq
      rw [heq, List.length_cons] at hle
      exact he.afterParen (by omega)
    · rename_i f ts' heq
      rw [heq, List.length_cons] at hle
      exact (he.args (by omega)).bind fun p _ => parsePropertyChain_proper _ _
    · exact proper_error (by rintro ⟨⟩) (by rintro ⟨⟩)
  args {ts} h := by
    cases hends : endsArgs (skipWhitespace ts).head? with
    | true =>
      rw [argsLoop_of_ends hends]
      exact proper_ok _
    | false =>
      rw [argsLoop_of_not_ends hends]
      have hle := length_skipWhitespace_le ts
      refine (he.arg (by omega)).bind fun p hp => ?_
      obtain ⟨arg, mid⟩ := p
      obtain ⟨used, hne, hskip, -⟩ := (sound fuel).arg hp
      have hpos := List.length_pos_of_ne_nil hne
      rw [hskip, List.length_append] at hle
      exact (he.args (by omega)).bind fun p _ => proper_ok _
  arg {ts} h := by
    have hle := length_skipWhitespace_le ts
    rw [parseArg]
    split
    · rename_i heq
      rw [heq, List.length_cons] at hle
      exact he.afterParen (by omega)
    · exact parsePropertyChain_proper _ _
    · exact proper_ok _
    · exact proper_error (by rintro ⟨⟩) (by rintro ⟨⟩)

end Step

theorem ends (fuel : ℕ) : Ends fuel := by
  induction fuel with
  | zero =>
    exact
      { pipe := fun h => absurd h (by omega)
        loop := fun h => absurd h (by omega)
        primary := fun h => absurd h (by omega)
        args := fun h => absurd h (by omega)
        arg := fun h => absurd h (by omega) }
  | succ fuel he => exact ends_succ he

/-- **Parsing ends**, without a panic. -/
theorem parseTokens_proper (tokens : List Token) : Proper (parseTokens tokens) :=
  ((ends _).pipe le_rfl).bind fun _ _ => proper_ok _

/-! ### Evaluating ends -/

section Eval

variable (crates : Crates) (ctx : Context)

theorem onStrings_proper {name : List Char} {expected : ℕ}
    {f : List (List Char) → Except Failure Value}
    (hf : ∀ l, l.length = expected → Proper (f l)) (args : List Value) :
    Proper (onStrings name expected f args) := by
  rw [onStrings]
  split_ifs with h
  · exact proper_error nofun nofun
  · exact hf _ (by rw [List.length_map]; exact not_not.1 h)

/-- The functions of the registry look at no argument that is not there. -/
theorem callFunction_proper (func : List Char) (args : List Value) :
    Proper (callFunction crates func args) := by
  rw [callFunction]
  split
  · rename_i f hf
    rw [functionRegistry] at hf
    split_ifs at hf <;> obtain rfl := Option.some.inj hf <;> refine onStrings_proper ?_ args
    · rintro l hl
      obtain ⟨input, rfl⟩ := List.length_eq_one_iff.1 hl
      dsimp only
      split
      · exact proper_ok _
      · exact proper_error nofun nofun
    · rintro l hl
      obtain ⟨input, rfl⟩ := List.length_eq_one_iff.1 hl
      exact proper_ok _
    · rintro l hl
      obtain ⟨input, rfl⟩ := List.length_eq_one_iff.1 hl
      exact proper_ok _
    · rintro l hl
      obtain ⟨start, text, rfl⟩ := List.length_eq_two.1 hl
      exact proper_ok _
    · rintro l hl
      obtain ⟨tail, text, rfl⟩ := List.length_eq_two.1 hl
      exact proper_ok _
    · rintro l hl
      obtain ⟨pattern, by_, text, rfl⟩ := List.length_eq_three.1 hl
      exact proper_ok _
  · exact proper_error nofun nofun

theorem getProperty_proper (v : Value) (prop : List Char) : Proper (v.getProperty prop) := by
  cases v with
  | string s => exact proper_error nofun nofun
  | semVer major minor patch original =>
    rw [Value.getProperty]
    split_ifs
    · exact proper_ok _
    · exact proper_ok _
    · exact proper_ok _
    · exact proper_error nofun nofun

mutual

theorem evalValue_proper : ∀ e : Expr, Proper (evalValue crates ctx e)
  | .var name => by
    rw [evalValue]
    split
    · exact proper_ok _
    · exact proper_error nofun nofun
  | .literal s => by
    rw [evalValue]
    exact proper_ok _
  | .funcCall func args => by
    rw [evalValue]
    exact (evalArgs_proper args).bind fun _ _ => callFunction_proper crates func _
  | .propertyAccess e prop => by
    rw [evalValue.eq_def]
    dsimp only
    split
    · exact proper_ok _
    · exact (evalValue_proper e).bind fun v _ =>
        (getProperty_proper v prop).bind fun _ _ => proper_ok _
  | .pipe left right => by
    rw [evalValue.eq_def]
    refine (evalValue_proper left).bind fun input _ => ?_
    cases right with
    | funcCall func args =>
      exact (evalArgs_proper args).bind fun _ _ => callFunction_proper crates func _
    | _ => exact proper_error nofun nofun

theorem evalArgs_proper : ∀ args : List Expr, Proper (evalArgs crates ctx args)
  | [] => by
    rw [evalArgs]
    exact proper_ok _
  | arg :: args => by
    rw [evalArgs]
    exact (evalValue_proper arg).bind fun _ _ =>
      (evalArgs_proper args).bind fun _ _ => proper_ok _

end

theorem eval_proper (e : Expr) : Proper (eval crates ctx e) :=
  (evalValue_proper crates ctx e).bind fun _ _ => proper_ok _

end Eval

/-! ### Tag by tag -/

/-- The text before the first pair of a character, and the one behind it. -/
def splitPair (c : Char) : List Char → Option (List Char × List Char)
  | a :: b :: cs =>
    if a = c ∧ b = c then some ([], cs)
    else (splitPair c (b :: cs)).map fun p => (a :: p.1, p.2)
  | _ => none

theorem splitPair_eq_some {c : Char} {cs a b : List Char} (h : splitPair c cs = some (a, b)) :
    cs = a ++ c :: c :: b := by
  fun_induction splitPair c cs generalizing a with
  | case1 x y cs hpair =>
    obtain ⟨rfl, rfl⟩ := hpair
    obtain ⟨rfl, rfl⟩ := Prod.mk.inj (Option.some.inj h)
    rfl
  | case2 x y cs hpair ih =>
    obtain ⟨⟨a', b'⟩, hsplit, heq⟩ := Option.map_eq_some_iff.1 h
    obtain ⟨rfl, rfl⟩ := Prod.mk.inj heq
    rw [ih hsplit]
    rfl
  | case3 => exact nomatch h

theorem length_lt_of_splitPair {c : Char} {cs a b : List Char}
    (h : splitPair c cs = some (a, b)) : b.length < cs.length := by
  rw [splitPair_eq_some h]
  simp only [List.length_append, List.length_cons]
  omega

section Render

variable {classes : CharClasses} {crates : Crates} {ctx : Context}

theorem renderFrom_tag_cons {c : Char} {cs : List Char} (h : ∀ cs', c :: cs ≠ '}' :: '}' :: cs')
    (result tag : List Char) : renderFrom classes crates ctx (c :: cs) result true tag =
      renderFrom classes crates ctx cs result true (tag ++ [c]) := by
  rw [renderFrom]
  rintro cs' rfl rfl
  exact h cs' rfl

theorem renderFrom_text_cons {c : Char} {cs : List Char} (h : ∀ cs', c :: cs ≠ '{' :: '{' :: cs')
    (result tag : List Char) : renderFrom classes crates ctx (c :: cs) result false tag =
      renderFrom classes crates ctx cs (result ++ [c]) false tag := by
  rw [renderFrom]
  rintro cs' rfl rfl
  exact h cs' rfl

/-- In a tag, the loop reads on to the next `}}`. -/
theorem renderFrom_true (cs result tag : List Char) :
    renderFrom classes crates ctx cs result true tag =
      match splitPair '}' cs with
      | none => .ok result
      | some (t, rest) => (do
        let value ← renderTag classes crates ctx (tag ++ t)
        renderFrom classes crates ctx rest (result ++ value) false []) := by
  fun_induction splitPair '}' cs generalizing tag with
  | case1 x y cs hpair =>
    obtain ⟨rfl, rfl⟩ := hpair
    dsimp only
    rw [List.append_nil]
    rfl
  | case2 x y cs hpair ih =>
    rw [renderFrom_tag_cons, ih]
    · cases splitPair '}' (y :: cs) with
      | none => rfl
      | some p => simp
    · rintro cs' heq
      simp only [List.cons.injEq] at heq
      exact hpair ⟨heq.1, heq.2.1⟩
  | case3 cs hne =>
    match cs, hne with
    | [], _ => rfl
    | [c], _ =>
      rw [renderFrom_tag_cons (by simp)]
      rfl
    | c :: d :: cs, hne => exact (hne c d cs rfl).elim

/-- In text, it copies up to the next `{{`. -/
theorem renderFrom_false (cs result tag : List Char) :
    renderFrom classes crates ctx cs result false tag =
      match splitPair '{' cs with
      | none => .ok (result ++ cs)
      | some (text, rest) => renderFrom classes crates ctx rest (result ++ text) true tag := by
  fun_induction splitPair '{' cs generalizing result with
  | case1 x y cs hpair =>
    obtain ⟨rfl, rfl⟩ := hpair
    dsimp only
    rw [List.append_nil]
    rfl
  | case2 x y cs hpair ih =>
    rw [renderFrom_text_cons, ih]
    · cases splitPair '{' (y :: cs) with
      | none => simp
      | some p => simp
    · rintro cs' heq
      simp only [List.cons.injEq] at heq
      exact hpair ⟨heq.1, heq.2.1⟩
  | case3 cs hne =>
    match cs, hne with
    | [], _ => rw [List.append_nil]; rfl
    | [c], _ =>
      rw [renderFrom_text_cons (by simp)]
      rfl
    | c :: d :: cs, hne => exact (hne c d cs rfl).elim

/-- What is rendered so far stands in front. -/
theorem renderFrom_result (cs result : List Char) :
    renderFrom classes crates ctx cs result false [] = (do
      let out ← render classes crates ctx cs
      .ok (result ++ out)) := by
  induction hn : cs.length using Nat.strong_induction_on generalizing cs result with
  | _ n ih =>
    rw [render, renderFrom_false, renderFrom_false]
    cases hsplit : splitPair '{' cs with
    | none => rfl
    | some p =>
      obtain ⟨text, rest⟩ := p
      have hlength := length_lt_of_splitPair hsplit
      dsimp only
      rw [renderFrom_true, renderFrom_true]
      cases hsplit' : splitPair '}' rest with
      | none => rfl
      | some p =>
        obtain ⟨tag, rest'⟩ := p
        have hlength' := length_lt_of_splitPair hsplit'
        dsimp only
        cases renderTag classes crates ctx ([] ++ tag) with
        | error e => rfl
        | ok value =>
          have hih := fun result => ih rest'.length (by omega) rest' result rfl
          dsimp only [bind, Except.bind]
          rw [hih, hih]
          cases render classes crates ctx rest' with
          | error e => rfl
          | ok out => simp [bind, Except.bind]

/-- **Rendering goes from tag to tag**: the text in front of a tag is copied as it
is, and a tag that is never closed is left out. -/
theorem render_eq (tmpl : List Char) : render classes crates ctx tmpl =
    match splitPair '{' tmpl with
    | none => .ok tmpl
    | some (text, rest) =>
      match splitPair '}' rest with
      | none => .ok text
      | some (tag, rest) => (do
        let value ← renderTag classes crates ctx tag
        let out ← render classes crates ctx rest
        .ok (text ++ value ++ out)) := by
  rw [render, renderFrom_false]
  cases splitPair '{' tmpl with
  | none => rfl
  | some p =>
    obtain ⟨text, rest⟩ := p
    dsimp only
    rw [renderFrom_true]
    cases splitPair '}' rest with
    | none => rfl
    | some p =>
      obtain ⟨tag, rest⟩ := p
      dsimp only [List.nil_append]
      cases renderTag classes crates ctx tag with
      | error e => rfl
      | ok value => exact renderFrom_result rest (text ++ value)

/-! ### When rendering returns -/

theorem renderTag_eq_panic_iff {tag : List Char} :
    renderTag classes crates ctx tag = .error .panic ↔ MiscountedTag classes tag := by
  rw [← lex_eq_panic_iff, renderTag]
  cases lex classes tag with
  | error e => exact error_eq_error_iff
  | ok tokens =>
    have hproper : Proper (parseTokens tokens >>= fun ast => eval crates ctx ast) :=
      (parseTokens_proper tokens).bind fun ast _ => eval_proper crates ctx ast
    exact iff_of_false hproper.1 nofun

theorem renderTag_ne_endless (tag : List Char) :
    renderTag classes crates ctx tag ≠ .error .endless := by
  rw [renderTag]
  have hlex := @lex_ne_endless classes tag
  cases hcases : lex classes tag with
  | error e =>
    intro h
    rw [hcases] at hlex
    exact hlex (congrArg _ (Except.error.inj h))
  | ok tokens =>
    have hproper : Proper (parseTokens tokens >>= fun ast => eval crates ctx ast) :=
      (parseTokens_proper tokens).bind fun ast _ => eval_proper crates ctx ast
    exact hproper.2

variable (classes crates ctx) in
/-- The tags that rendering comes to: the first, and the others behind tags that
are rendered. -/
inductive ComesTo : List Char → List Char → Prop
  | first {tmpl text rest tag rest' : List Char} (h : splitPair '{' tmpl = some (text, rest))
      (h' : splitPair '}' rest = some (tag, rest')) : ComesTo tmpl tag
  | next {tmpl text rest tag rest' value tag' : List Char}
      (h : splitPair '{' tmpl = some (text, rest))
      (h' : splitPair '}' rest = some (tag, rest'))
      (hvalue : renderTag classes crates ctx tag = .ok value) (hrest : ComesTo rest' tag') :
      ComesTo tmpl tag'

/-- The tags that rendering comes to are the first and, where that is rendered, those
of the rest. -/
theorem comesTo_iff {tmpl tag : List Char} : ComesTo classes crates ctx tmpl tag ↔
    ∃ text rest first rest', splitPair '{' tmpl = some (text, rest) ∧
      splitPair '}' rest = some (first, rest') ∧
      (tag = first ∨ (∃ value, renderTag classes crates ctx first = .ok value) ∧
        ComesTo classes crates ctx rest' tag) := by
  constructor
  · rintro (⟨h, h'⟩ | ⟨h, h', hvalue, hrest⟩)
    · exact ⟨_, _, _, _, h, h', .inl rfl⟩
    · exact ⟨_, _, _, _, h, h', .inr ⟨⟨_, hvalue⟩, hrest⟩⟩
  · rintro ⟨text, rest, first, rest', h, h', rfl | ⟨⟨value, hvalue⟩, hrest⟩⟩
    · exact .first h h'
    · exact .next h h' hvalue hrest

/-- Rendering ends, and panics at the first tag in which the lexer does. -/
theorem render_eq_panic_iff (tmpl : List Char) : render classes crates ctx tmpl ≠ .error .endless ∧
    (render classes crates ctx tmpl = .error .panic ↔
      ∃ tag, ComesTo classes crates ctx tmpl tag ∧ MiscountedTag classes tag) := by
  induction hn : tmpl.length using Nat.strong_induction_on generalizing tmpl with
  | _ n ih =>
    rw [render_eq]
    simp only [@comesTo_iff classes crates ctx tmpl]
    cases hsplit : splitPair '{' tmpl with
    | none => exact ⟨nofun, iff_of_false nofun (by simp)⟩
    | some p =>
      obtain ⟨text, rest⟩ := p
      have hlength := length_lt_of_splitPair hsplit
      dsimp only
      cases hsplit' : splitPair '}' rest with
      | none => exact ⟨nofun, iff_of_false nofun (by simp [hsplit'])⟩
      | some p =>
        obtain ⟨tag, rest'⟩ := p
        have hlength' := length_lt_of_splitPair hsplit'
        have hcomes : ∀ tag', (∃ text' rest₁ first rest₂,
            some (text, rest) = some (text', rest₁) ∧ splitPair '}' rest₁ = some (first, rest₂) ∧
            (tag' = first ∨ (∃ value, renderTag classes crates ctx first = .ok value) ∧
              ComesTo classes crates ctx rest₂ tag')) ↔
            tag' = tag ∨ (∃ value, renderTag classes crates ctx tag = .ok value) ∧
              ComesTo classes crates ctx rest' tag' := by
          intro tag'
          constructor
          · rintro ⟨_, _, _, _, ⟨⟩, h', h⟩
            obtain ⟨rfl, rfl⟩ := Prod.mk.inj (Option.some.inj (hsplit'.symm.trans h'))
            exact h
          · exact fun h => ⟨_, _, _, _, rfl, hsplit', h⟩
        simp only [hcomes]
        cases htag : renderTag classes crates ctx tag with
        | error e =>
          refine ⟨fun h => ?_, ?_⟩
          · rw [Except.error.inj h] at htag
            exact renderTag_ne_endless tag htag
          · have hiff := @renderTag_eq_panic_iff classes crates ctx tag
            rw [htag] at hiff
            refine Iff.trans ?_ (hiff.trans ⟨fun h => ⟨tag, .inl rfl, h⟩, ?_⟩)
            · exact error_eq_error_iff
            · rintro ⟨_, rfl | ⟨⟨_, h⟩, -⟩, hmiss⟩
              · exact hmiss
              · exact nomatch h
        | ok value =>
          obtain ⟨hend, hpanic⟩ := ih rest'.length (by omega) rest' rfl
          have hnot : ¬ MiscountedTag classes tag := fun h =>
            nomatch htag.symm.trans (renderTag_eq_panic_iff.2 h)
          have hrest : ∀ e, ((do
              let out ← render classes crates ctx rest'
              .ok (text ++ value ++ out)) : Except Failure (List Char)) = .error e ↔
                render classes crates ctx rest' = .error e := by
            intro e
            cases render classes crates ctx rest' with
            | ok out => exact iff_of_false nofun nofun
            | error e' => exact error_eq_error_iff
          refine ⟨fun h => hend ((hrest _).1 h), (hrest _).trans (hpanic.trans ⟨?_, ?_⟩)⟩
          · rintro ⟨tag', hcomes', hmiss⟩
            exact ⟨tag', .inr ⟨⟨value, rfl⟩, hcomes'⟩, hmiss⟩
          · rintro ⟨tag', rfl | ⟨-, hcomes'⟩, hmiss⟩
            · exact absurd hmiss hnot
            · exact ⟨tag', hcomes', hmiss⟩

end Render

/-- What is asked of the rendering of a template. -/
structure RendersTotally (classes : CharClasses) (crates : Crates) (ctx : Context)
    (tmpl : List Char) : Prop where
  /-- It returns a text or an error. -/
  returns : Proper (render classes crates ctx tmpl)
  /-- Every turn of the lexer goes forward. -/
  turns : ∀ s s', LexTurn classes s s' → s'.2.length < s.2.length
  /-- So does the parser, whatever it reads. -/
  reads : ∀ fuel ts e rest,
    parsePrimary fuel ts = .ok (e, rest) ∨ parseArg fuel ts = .ok (e, rest) →
      rest.length < ts.length
  /-- The text between the tags is copied. -/
  copies : render classes crates ctx tmpl =
    match splitPair '{' tmpl with
    | none => .ok tmpl
    | some (text, rest) =>
      match splitPair '}' rest with
      | none => .ok text
      | some (tag, rest) => (do
        let value ← renderTag classes crates ctx tag
        let out ← render classes crates ctx rest
        .ok (text ++ value ++ out))

/-- **Rendering is total exactly where no tag that it comes to is miscounted.** -/
theorem rendersTotally_iff (classes : CharClasses) (crates : Crates) (ctx : Context)
    (tmpl : List Char) : RendersTotally classes crates ctx tmpl ↔
      ∀ tag, ComesTo classes crates ctx tmpl tag → ¬ MiscountedTag classes tag := by
  obtain ⟨hend, hpanic⟩ := @render_eq_panic_iff classes crates ctx tmpl
  constructor
  · intro h tag hcomes hmiss
    exact h.returns.1 (hpanic.2 ⟨tag, hcomes, hmiss⟩)
  · intro h
    refine ⟨⟨fun heq => ?_, hend⟩, fun s s' hturn => hturn.readsOff.length_lt, ?_, render_eq tmpl⟩
    · obtain ⟨tag, hcomes, hmiss⟩ := hpanic.1 heq
      exact h tag hcomes hmiss
    · rintro fuel ts e rest (hread | hread)
      · obtain ⟨used, hne, rfl, -⟩ := (sound fuel).primary hread
        have hpos := List.length_pos_of_ne_nil hne
        rw [List.length_append]
        omega
      · obtain ⟨used, hne, rfl, -⟩ := (sound fuel).arg hread
        have hpos := List.length_pos_of_ne_nil hne
        rw [List.length_append]
        omega

/-- Letters, with some that are no ASCII characters. -/
def latin : CharClasses where
  isAlphabetic c := c.isAlpha || 'à' ≤ c && c ≤ 'ö'
  isNumeric := Char.isDigit

/-- No versions, and titles as they are. -/
def noCrates : Crates where
  versioning _ := none
  toTitleCase s := s

/-- The lexer cuts `é` in two. -/
theorem not_rendersTotally_accent :
    ¬ RendersTotally latin noCrates (fun _ => none) "{{é|title}}".toList := by
  intro h
  refine h.returns.1 ((render_eq_panic_iff _).2.2 ⟨"é|title".toList, .first rfl rfl, ([], _), .refl,
    .inr ⟨?_, ['é'], '|', "title".toList, rfl, ?_, rfl, ?_⟩⟩)
  · rintro c ⟨⟩
    decide
  · intro d hd
    obtain rfl := List.mem_singleton.1 hd
    rfl
  · rw [← splitAtByte_eq_none_iff]
    decide

end Mise.Aqua
