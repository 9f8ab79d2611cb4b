/-
# The grammar of a tag

`Derives` is the grammar of expressions over tokens, with whitespace between them.
What may stand in front of the `.` of a property is a parameter: any whitespace in
the grammar itself (`Blank`), nothing in what the parser takes (`Tight`), apart
from a call, whose arguments end in whitespace.

The parser follows it: what a function returns is derived from the tokens it has
read, and these are all it depends on, with the kind of the token it stops at
(`Reads`).
-/

import Mise.Aqua.Template
import Mise.Lib.Fallible

namespace Mise.Aqua

open Lib

/-! ### Derivations -/

/-- Whether a token is whitespace. -/
def Token.isWhitespace : Token → Bool
  | .whitespace _ => true
  | _ => false

/-- Tokens of whitespace alone. -/
def Blank (w : List Token) : Prop := ∀ t ∈ w, t.isWhitespace = true

/-- No tokens. -/
def Tight (w : List Token) : Prop := w = []

/-- The nonterminals. -/
inductive Nonterminal where
  | pipe
  | primary
  | arg
  | argHead
  | args

/-- **The grammar.**  A nonterminal derives tokens and the expressions they stand
for, where `gap` says what may stand in front of a `.`. -/
inductive Derives (gap : List Token → Prop) : Nonterminal → List Token → List Expr → Prop
  | one {l : List Token} {e : Expr} (h : Derives gap .primary l [e]) : Derives gap .pipe l [e]
  | piped {l w l' : List Token} {e e' : Expr} (h : Derives gap .pipe l [e]) (hw : Blank w)
      (h' : Derives gap .primary l' [e']) :
      Derives gap .pipe (l ++ (w ++ .pipe :: l')) [.pipe e e']
  | blank {l : List Token} {e : Expr} (s : List Char) (h : Derives gap .primary l [e]) :
      Derives gap .primary (.whitespace s :: l) [e]
  | key (k : List Char) : Derives gap .primary [.key k] [.var k]
  | string (s : List Char) : Derives gap .primary [.string s] [.literal s]
  | paren {l w : List Token} {e : Expr} (h : Derives gap .pipe l [e]) (hw : Blank w) :
      Derives gap .primary (.lParen :: (l ++ (w ++ [.rParen]))) [e]
  | call {l : List Token} {args : List Expr} (f : List Char) (h : Derives gap .args l args) :
      Derives gap .primary (.func f :: l) [.funcCall f args]
  | property {l w w' : List Token} {e : Expr} (p : List Char) (h : Derives gap .primary l [e])
      (hw : gap w) (hw' : Blank w') :
      Derives gap .primary (l ++ (w ++ .dot :: (w' ++ [.ident p]))) [.propertyAccess e p]
  | noArgs {w : List Token} (hw : Blank w) : Derives gap .args w []
  | moreArgs {l l' : List Token} {e : Expr} {es : List Expr} (h : Derives gap .arg l [e])
      (h' : Derives gap .args l' es) : Derives gap .args (l ++ l') (e :: es)
  | argBlank {l : List Token} {e : Expr} (s : List Char) (h : Derives gap .arg l [e]) :
      Derives gap .arg (.whitespace s :: l) [e]
  | argOf {l : List Token} {e : Expr} (h : Derives gap .argHead l [e]) : Derives gap .arg l [e]
  | argString (s : List Char) : Derives gap .arg [.string s] [.literal s]
  | argKey (k : List Char) : Derives gap .argHead [.key k] [.var k]
  | argParen {l w : List Token} {e : Expr} (h : Derives gap .pipe l [e]) (hw : Blank w) :
      Derives gap .argHead (.lParen :: (l ++ (w ++ [.rParen]))) [e]
  | argProperty {l w w' : List Token} {e : Expr} (p : List Char)
      (h : Derives gap .argHead l [e]) (hw : gap w) (hw' : Blank w') :
      Derives gap .argHead (l ++ (w ++ .dot :: (w' ++ [.ident p]))) [.propertyAccess e p]

/-- A whole list is an expression, with whitespace behind it. -/
def Accepts (gap : List Token → Prop) (l : List Token) (e : Expr) : Prop :=
  ∃ body w, l = body ++ w ∧ Blank w ∧ Derives gap .pipe body [e]

section Blanks

variable {gap : List Token → Prop} {l w w' : List Token} {e : Expr} {es : List Expr}

theorem blank_nil : Blank [] := fun _ h => nomatch h

theorem Blank.append (hw : Blank w) (hw' : Blank w') : Blank (w ++ w') :=
  List.forall_mem_append.2 ⟨hw, hw'⟩

/-- Whitespace may stand in front of a primary expression. -/
theorem Derives.primary_blank (h : Derives gap .primary l [e]) (hw : Blank w) :
    Derives gap .primary (w ++ l) [e] := by
  induction w with
  | nil => exact h
  | cons t w ih =>
    obtain ⟨ht, hrest⟩ := List.forall_mem_cons.1 hw
    cases t with
    | whitespace s => exact .blank s (ih hrest)
    | _ => exact nomatch ht

theorem Derives.arg_blank (h : Derives gap .arg l [e]) (hw : Blank w) :
    Derives gap .arg (w ++ l) [e] := by
  induction w with
  | nil => exact h
  | cons t w ih =>
    obtain ⟨ht, hrest⟩ := List.forall_mem_cons.1 hw
    cases t with
    | whitespace s => exact .argBlank s (ih hrest)
    | _ => exact nomatch ht

/-- It may stand in front of a pipe of them as well. -/
theorem Derives.pipe_blank (h : Derives gap .pipe l [e]) (hw : Blank w) :
    Derives gap .pipe (w ++ l) [e] := by
  generalize hkind : Nonterminal.pipe = kind, hes : [e] = es at h
  induction h generalizing e with
  | one h =>
    cases hes
    exact .one (h.primary_blank hw)
  | piped h hw' h' ih =>
    cases hes
    rw [← List.append_assoc]
    exact .piped (ih rfl rfl) hw' h'
  | _ => exact nomatch hkind

/-- What may stand in front of a `.` may as well be more. -/
theorem Derives.mono {gap' : List Token → Prop} (hgap : ∀ w, gap w → gap' w) {k : Nonterminal}
    (h : Derives gap k l es) : Derives gap' k l es := by
  induction h with
  | one _ ih => exact .one ih
  | piped _ hw _ ih ih' => exact .piped ih hw ih'
  | blank s _ ih => exact .blank s ih
  | key k => exact .key k
  | string s => exact .string s
  | paren _ hw ih => exact .paren ih hw
  | call f _ ih => exact .call f ih
  | property p _ hw hw' ih => exact .property p ih (hgap _ hw) hw'
  | noArgs hw => exact .noArgs hw
  | moreArgs _ _ ih ih' => exact .moreArgs ih ih'
  | argBlank s _ ih => exact .argBlank s ih
  | argOf _ ih => exact .argOf ih
  | argString s => exact .argString s
  | argKey k => exact .argKey k
  | argParen _ hw ih => exact .argParen ih hw
  | argProperty p _ hw hw' ih => exact .argProperty p ih (hgap _ hw) hw'

theorem Accepts.append_blank (h : Accepts gap l e) (hw : Blank w) : Accepts gap (l ++ w) e := by
  obtain ⟨body, w', rfl, hw', hbody⟩ := h
  exact ⟨body, w' ++ w, List.append_assoc _ _ _, hw'.append hw, hbody⟩

end Blanks

/-! ### Kinds of tokens -/

/-- The kind of a token: what begins an expression is all alike to a function that
does not go on with it. -/
def Token.kind : Token → Token
  | .key _ | .string _ | .func _ => .lParen
  | t => t

/-- What the loop over the arguments stops at. -/
def endsArgs : Option Token → Bool
  | none | some .pipe | some .rParen | some .dot | some (.ident _) => true
  | _ => false

@[simp] theorem isWhitespace_kind (t : Token) : t.kind.isWhitespace = t.isWhitespace := by
  cases t <;> rfl

@[simp] theorem endsArgs_kind (t : Option Token) : endsArgs (t.map Token.kind) = endsArgs t := by
  rcases t with - | t
  · rfl
  · cases t <;> rfl

theorem kind_eq_dot_iff {t : Token} : t.kind = .dot ↔ t = .dot := by
  cases t <;> simp [Token.kind]

theorem kind_eq_pipe_iff {t : Token} : t.kind = .pipe ↔ t = .pipe := by
  cases t <;> simp [Token.kind]

/-- Two lists begin with tokens of one kind, or are both empty. -/
def SameHead (l l' : List Token) : Prop := l.head?.map Token.kind = l'.head?.map Token.kind

section SameHead

variable {l l' : List Token}

theorem SameHead.append (h : SameHead l l') (used : List Token) :
    SameHead (used ++ l) (used ++ l') := by
  cases used with
  | nil => exact h
  | cons t used => exact rfl

theorem SameHead.endsArgs_eq (h : SameHead l l') : endsArgs l.head? = endsArgs l'.head? := by
  rw [← endsArgs_kind, h, endsArgs_kind]

theorem SameHead.isWhitespace (h : SameHead l l')
    (hl : ∀ t ∈ l'.head?, t.isWhitespace = false) : ∀ t ∈ l.head?, t.isWhitespace = false := by
  intro t ht
  obtain ⟨t', ht', hkind⟩ := Option.map_eq_some_iff.1 (h.symm.trans (congrArg _ ht))
  rw [← isWhitespace_kind, ← hkind, isWhitespace_kind]
  exact hl t' ht'

theorem SameHead.ne_dot (h : SameHead l l') (hl : l'.head? ≠ some .dot) :
    l.head? ≠ some .dot := by
  intro ht
  obtain ⟨t', ht', hkind⟩ := Option.map_eq_some_iff.1 (h.symm.trans (congrArg _ ht))
  obtain rfl := kind_eq_dot_iff.1 hkind
  exact hl ht'

theorem SameHead.ne_pipe (h : SameHead l l') (hl : l'.head? ≠ some .pipe) :
    l.head? ≠ some .pipe := by
  intro ht
  obtain ⟨t', ht', hkind⟩ := Option.map_eq_some_iff.1 (h.symm.trans (congrArg _ ht))
  obtain rfl := kind_eq_pipe_iff.1 hkind
  exact hl ht'

end SameHead

/-! ### Reading -/

section Reads

variable {α β : Type} {f : List Token → Except Failure (α × List Token)}
  {g : α → List Token → Except Failure (β × List Token)} {used used' rest mid ts : List Token}
  {a : α} {b : β}

/-- A function reads `used` off its tokens whatever stands behind them, as long as
the first token there is of the same kind. -/
def Reads (f : List Token → Except Failure (α × List Token)) (used rest : List Token) (a : α) :
    Prop :=
  ∀ rest', SameHead rest' rest → f (used ++ rest') = .ok (a, rest')

/-- One function after another reads what both read. -/
theorem Reads.bind (hf : Reads f used (used' ++ rest) a) (hg : Reads (g a) used' rest b) :
    Reads (fun ts => do let (a, ts) ← f ts; g a ts) (used ++ used') rest b := by
  intro rest' hhead
  dsimp only
  rw [List.append_assoc, hf (used' ++ rest') (hhead.append used')]
  exact hg rest' hhead

/-- A token that is looked at is read. -/
theorem Reads.cons {t : Token} {f' : List Token → Except Failure (α × List Token)}
    (h : ∀ ts, f (t :: ts) = f' ts) (hf : Reads f' used rest a) :
    Reads f (t :: used) rest a := by
  intro rest' hhead
  rw [List.cons_append, h]
  exact hf rest' hhead

theorem exists_blank_skipWhitespace (ts : List Token) :
    ∃ w, Blank w ∧ ts = w ++ skipWhitespace ts := by
  fun_induction skipWhitespace ts with
  | case1 s ts ih =>
    obtain ⟨w, hw, heq⟩ := ih
    exact ⟨.whitespace s :: w, List.forall_mem_cons.2 ⟨rfl, hw⟩, congrArg (_ :: ·) heq⟩
  | case2 ts => exact ⟨[], blank_nil, rfl⟩

theorem isWhitespace_head?_skipWhitespace (ts : List Token) :
    ∀ t ∈ (skipWhitespace ts).head?, t.isWhitespace = false := by
  fun_induction skipWhitespace ts with
  | case1 s ts ih => exact ih
  | case2 ts hne =>
    intro t ht
    obtain ⟨ts', rfl⟩ := List.head?_eq_some_iff.1 ht
    cases t with
    | whitespace s => exact (hne s ts' rfl).elim
    | _ => rfl

theorem skipWhitespace_append (hused : Blank used)
    (hrest : ∀ t ∈ rest.head?, t.isWhitespace = false) :
    skipWhitespace (used ++ rest) = rest := by
  induction used with
  | nil =>
    cases rest with
    | nil => rfl
    | cons t rest =>
      have ht := hrest t rfl
      cases t with
      | whitespace s => exact nomatch ht
      | _ => rfl
  | cons t used ih =>
    obtain ⟨ht, hused'⟩ := List.forall_mem_cons.1 hused
    cases t with
    | whitespace s => exact ih hused'
    | _ => exact nomatch ht

/-- Whitespace in front is skipped. -/
theorem Reads.skip (hf : Reads f used rest a) (hskip : skipWhitespace ts = used ++ rest) :
    ∃ w, Blank w ∧ ts = (w ++ used) ++ rest ∧
      Reads (fun ts => f (skipWhitespace ts)) (w ++ used) rest a := by
  obtain ⟨w, hw, heq⟩ := exists_blank_skipWhitespace ts
  have hhead := isWhitespace_head?_skipWhitespace ts
  rw [hskip] at heq hhead
  refine ⟨w, hw, by rw [List.append_assoc, ← heq], fun rest' hsame => ?_⟩
  dsimp only
  rw [List.append_assoc, skipWhitespace_append hw]
  · exact hf rest' hsame
  · exact (hsame.append used).isWhitespace hhead

end Reads

/-! ### What the parser reads -/

theorem parsePropertyChain_dot {w ts : List Token} (hw : Blank w) (p : List Char) (e : Expr) :
    parsePropertyChain (.dot :: (w ++ .ident p :: ts)) e =
      parsePropertyChain ts (.propertyAccess e p) := by
  have hskip : skipWhitespace (w ++ .ident p :: ts) = .ident p :: ts :=
    skipWhitespace_append hw (by rintro t ⟨⟩; rfl)
  rw [parsePropertyChain]
  split
  · case h_1 p' ts' heq =>
    obtain ⟨hp, rfl⟩ := List.cons.inj (hskip.symm.trans heq)
    obtain rfl := Token.ident.inj hp
    rfl
  · case h_2 hne => exact absurd hskip (hne p ts)

theorem parsePropertyChain_of_ne {ts : List Token} (h : ts.head? ≠ some .dot) (e : Expr) :
    parsePropertyChain ts e = .ok (e, ts) := by
  rw [parsePropertyChain]
  rintro ts' rfl
  exact h rfl

/-- **A property chain reads properties**, of whatever stands in front. -/
theorem parsePropertyChain_reads {ts rest : List Token} {e e' : Expr}
    (h : parsePropertyChain ts e = .ok (e', rest)) : ∃ used, ts = used ++ rest ∧
      Reads (parsePropertyChain · e) used rest e' ∧
      ∀ l, (Derives Tight .primary l [e] → Derives Tight .primary (l ++ used) [e']) ∧
        (Derives Tight .argHead l [e] → Derives Tight .argHead (l ++ used) [e']) := by
  fun_induction parsePropertyChain ts e with
  | case1 e ts p ts' hskip ih =>
    obtain ⟨used, rfl, hreads, hderives⟩ := ih h
    obtain ⟨w, hw, heq⟩ := exists_blank_skipWhitespace ts
    rw [hskip] at heq
    subst heq
    refine ⟨.dot :: (w ++ .ident p :: used), by simp, fun rest' hhead => ?_, fun l => ?_⟩
    · rw [List.cons_append, List.append_assoc, List.cons_append]
      exact (parsePropertyChain_dot hw p e).trans (hreads rest' hhead)
    · have happend : ∀ l : List Token, l ++ .dot :: (w ++ .ident p :: used) =
          l ++ ([] ++ .dot :: (w ++ [.ident p])) ++ used := fun l => by simp
      rw [happend]
      exact ⟨fun hl => (hderives _).1 (.property p hl rfl hw),
        fun hl => (hderives _).2 (.argProperty p hl rfl hw)⟩
  | case2 e ts hskip => exact nomatch h
  | case3 e ts hne =>
    obtain ⟨rfl, rfl⟩ := Prod.mk.inj (Except.ok.inj h)
    refine ⟨[], rfl, fun rest' hhead => parsePropertyChain_of_ne ?_ e, fun l => ?_⟩
    · refine hhead.ne_dot fun hdot => ?_
      obtain ⟨ts', rfl⟩ := List.head?_eq_some_iff.1 hdot
      exact hne ts' rfl
    · rw [List.append_nil]
      exact ⟨id, id⟩

/-- What the five functions read with some fuel, and what that derives. -/
structure Sound (fuel : ℕ) : Prop where
  pipe : ∀ {ts e rest}, parsePipe fuel ts = .ok (e, rest) → ∃ used, used ≠ [] ∧
    ts = used ++ rest ∧ Reads (parsePipe fuel) used rest e ∧ Accepts Tight used e ∧
    ∀ t ∈ rest.head?, t.isWhitespace = false
  loop : ∀ {left ts e rest}, pipeLoop fuel left ts = .ok (e, rest) →
    (∀ t ∈ ts.head?, t.isWhitespace = false) → ∃ used, ts = used ++ rest ∧
    Reads (pipeLoop fuel left) used rest e ∧
    (∀ l, Accepts Tight l left → Accepts Tight (l ++ used) e) ∧
    ∀ t ∈ rest.head?, t.isWhitespace = false
  primary : ∀ {ts e rest}, parsePrimary fuel ts = .ok (e, rest) → ∃ used, used ≠ [] ∧
    ts = used ++ rest ∧ Reads (parsePrimary fuel) used rest e ∧ Derives Tight .primary used [e]
  args : ∀ {ts es rest}, argsLoop fuel ts = .ok (es, rest) → ∃ used,
    ts = used ++ rest ∧ Reads (argsLoop fuel) used rest es ∧ Derives Tight .args used es
  arg : ∀ {ts e rest}, parseArg fuel ts = .ok (e, rest) → ∃ used, used ≠ [] ∧
    ts = used ++ rest ∧ Reads (parseArg fuel) used rest e ∧ Derives Tight .arg used [e]

/-- The loop of `parse_pipe` stops at anything but a pipe. -/
theorem pipeLoop_of_ne {ts : List Token} (h : ts.head? ≠ some .pipe) (fuel : ℕ) (left : Expr) :
    pipeLoop fuel left ts = .ok (left, ts) := by
  rw [pipeLoop.eq_def]
  split
  · exact absurd rfl h
  · exact absurd rfl h
  · rfl

theorem argsLoop_of_ends {ts : List Token} (h : endsArgs (skipWhitespace ts).head? = true)
    (fuel : ℕ) : argsLoop (fuel + 1) ts = .ok ([], skipWhitespace ts) := by
  rw [argsLoop]
  split
  · rename_i heq; rw [heq]
  · rename_i heq; rw [heq]
  · rename_i heq; rw [heq]
  · rename_i heq; rw [heq]
  · rename_i heq; rw [heq]
  · rename_i hnil hpipe hrParen hdot hident
    cases hskip : skipWhitespace ts with
    | nil => exact (hnil hskip).elim
    | cons t ts' =>
      rw [hskip] at h
      cases t with
      | pipe => exact (hpipe ts' hskip).elim
      | rParen => exact (hrParen ts' hskip).elim
      | dot => exact (hdot ts' hskip).elim
      | ident p => exact (hident p ts' hskip).elim
      | _ => exact nomatch h

theorem argsLoop_of_not_ends {ts : List Token} (h : endsArgs (skipWhitespace ts).head? = false)
    (fuel : ℕ) : argsLoop (fuel + 1) ts = (do
      let (arg, ts) ← parseArg fuel (skipWhitespace ts)
      let (args, ts) ← argsLoop fuel ts
      .ok (arg :: args, ts)) := by
  rw [argsLoop]
  split
  · rename_i heq; rw [heq] at h; exact nomatch h
  · rename_i heq; rw [heq] at h; exact nomatch h
  · rename_i heq; rw [heq] at h; exact nomatch h
  · rename_i heq; rw [heq] at h; exact nomatch h
  · rename_i heq; rw [heq] at h; exact nomatch h
  · rfl

theorem sound_zero : Sound 0 where
  pipe h := nomatch h
  loop {left ts e rest} h hhead := by
    by_cases hpipe : ts.head? = some .pipe
    · obtain ⟨ts', rfl⟩ := List.head?_eq_some_iff.1 hpipe
      exact nomatch h
    · rw [pipeLoop_of_ne hpipe] at h
      obtain ⟨rfl, rfl⟩ := Prod.mk.inj (Except.ok.inj h)
      refine ⟨[], rfl, fun rest' hsame => pipeLoop_of_ne ?_ 0 left, fun l hl => ?_, hhead⟩
      · exact hsame.ne_pipe hpipe
      · rwa [List.append_nil]
  primary h := nomatch h
  args h := nomatch h
  arg h := nomatch h

/-- What both `parse_primary` and `parse_arg` do behind a `(`. -/
def afterParen (fuel : ℕ) (ts : List Token) : Except Failure (Expr × List Token) := do
  let (inner, ts) ← parsePipe fuel (skipWhitespace ts)
  match skipWhitespace ts with
  | .rParen :: ts => parsePropertyChain ts inner
  | _ => .error .expectedClosingParenthesis

section Step

variable {fuel : ℕ} (hs : Sound fuel)
include hs

theorem Sound.pipe_succ {ts rest : List Token} {e : Expr}
    (h : parsePipe (fuel + 1) ts = .ok (e, rest)) : ∃ used, used ≠ [] ∧
      ts = used ++ rest ∧ Reads (parsePipe (fuel + 1)) used rest e ∧ Accepts Tight used e ∧
      ∀ t ∈ rest.head?, t.isWhitespace = false := by
  rw [parsePipe] at h
  obtain ⟨⟨left, mid⟩, hleft, hloop⟩ := bind_eq_ok h
  obtain ⟨used, hne, rfl, hreads, hderives⟩ := hs.primary hleft
  obtain ⟨used', hskip, hreads', haccepts, hrest⟩ :=
    hs.loop hloop (isWhitespace_head?_skipWhitespace mid)
  obtain ⟨w, hw, rfl, hafter⟩ := hreads'.skip hskip
  refine ⟨used ++ (w ++ used'), by simp [hne], by simp, ?_, ?_, hrest⟩
  · exact @Reads.bind _ _ _ (fun left ts => pipeLoop fuel left (skipWhitespace ts)) _ _ _ _ _
      hreads hafter
  · rw [← List.append_assoc]
    exact haccepts _ ⟨used, w, rfl, hw, .one hderives⟩

/-- A pipe that goes on is derived from what stands in front of it. -/
theorem Sound.loop_succ {left e : Expr} {ts rest : List Token}
    (h : pipeLoop (fuel + 1) left ts = .ok (e, rest))
    (hhead : ∀ t ∈ ts.head?, t.isWhitespace = false) : ∃ used, ts = used ++ rest ∧
      Reads (pipeLoop (fuel + 1) left) used rest e ∧
      (∀ l, Accepts Tight l left → Accepts Tight (l ++ used) e) ∧
      ∀ t ∈ rest.head?, t.isWhitespace = false := by
  by_cases hpipe : ts.head? = some .pipe
  · obtain ⟨ts, rfl⟩ := List.head?_eq_some_iff.1 hpipe
    rw [pipeLoop] at h
    obtain ⟨⟨right, mid⟩, hright, hloop⟩ := bind_eq_ok h
    obtain ⟨used, hne, hskip, hreads, hderives⟩ := hs.primary hright
    obtain ⟨w, hw, rfl, hbefore⟩ := hreads.skip hskip
    obtain ⟨used', hskip', hreads', haccepts, hrest⟩ :=
      hs.loop hloop (isWhitespace_head?_skipWhitespace mid)
    obtain ⟨w', hw', rfl, hafter⟩ := hreads'.skip hskip'
    refine ⟨.pipe :: ((w ++ used) ++ (w' ++ used')), by simp, ?_, fun l hl => ?_, hrest⟩
    · refine Reads.cons (fun ts => by rw [pipeLoop]) ?_
      exact @Reads.bind _ _ (fun ts => parsePrimary fuel (skipWhitespace ts))
        (fun right ts => pipeLoop fuel (.pipe left right) (skipWhitespace ts)) _ _ _ _ _
        hbefore hafter
    · obtain ⟨body, w₀, rfl, hw₀, hbody⟩ := hl
      have hpiped := Derives.piped hbody hw₀ (hderives.primary_blank hw)
      have haccepted := haccepts _ ⟨_, w', rfl, hw', hpiped⟩
      simpa using haccepted
  · rw [pipeLoop_of_ne hpipe] at h
    obtain ⟨rfl, rfl⟩ := Prod.mk.inj (Except.ok.inj h)
    refine ⟨[], rfl, fun rest' hsame => pipeLoop_of_ne ?_ _ left, fun l hl => ?_, hhead⟩
    · exact hsame.ne_pipe hpipe
    · rwa [List.append_nil]

/-- A closing parenthesis is found behind the expression, and then properties. -/
theorem Sound.afterParen {ts rest : List Token} {e : Expr}
    (h : Aqua.afterParen fuel ts = .ok (e, rest)) : ∃ used, ts = used ++ rest ∧
      Reads (Aqua.afterParen fuel) used rest e ∧
      Derives Tight .primary (.lParen :: used) [e] ∧
      Derives Tight .argHead (.lParen :: used) [e] := by
  rw [Aqua.afterParen] at h
  obtain ⟨⟨inner, mid⟩, hinner, hclose⟩ := bind_eq_ok h
  obtain ⟨used, -, hskip, hreads, haccepts, hhead⟩ := hs.pipe hinner
  obtain ⟨w, hw, rfl, hbefore⟩ := hreads.skip hskip
  dsimp only at hclose
  split at hclose
  · rename_i ts hmid
    obtain ⟨used', rfl, hreads', hderives⟩ := parsePropertyChain_reads hclose
    obtain ⟨w', hw', hmid'⟩ := exists_blank_skipWhitespace mid
    rw [hmid] at hmid'
    subst hmid'
    obtain ⟨body, w₀, rfl, hw₀, hbody⟩ := haccepts
    refine ⟨(w ++ (body ++ w₀)) ++ (w' ++ .rParen :: used'), by simp, ?_, ?_⟩
    · intro rest' hsame
      have hread := hbefore (w' ++ .rParen :: (used' ++ rest')) (by cases w' <;> exact rfl)
      dsimp only at hread
      rw [Aqua.afterParen, List.append_assoc, List.append_assoc w', List.cons_append, hread]
      dsimp only [bind, Except.bind]
      rw [skipWhitespace_append hw' (by rintro t ⟨⟩; rfl)]
      exact hreads' rest' hsame
    · have hshape : .lParen :: ((w ++ (body ++ w₀)) ++ (w' ++ .rParen :: used')) =
          .lParen :: ((w ++ body) ++ ((w₀ ++ w') ++ [.rParen])) ++ used' := by simp
      rw [hshape]
      have hpipe := hbody.pipe_blank hw
      exact ⟨(hderives _).1 (.paren hpipe (hw₀.append hw')),
        (hderives _).2 (.argParen hpipe (hw₀.append hw'))⟩
  · exact nomatch hclose

/-- A primary that is parsed is derived, from those with less fuel. -/
theorem Sound.primary_succ {ts rest : List Token} {e : Expr}
    (h : parsePrimary (fuel + 1) ts = .ok (e, rest)) : ∃ used, used ≠ [] ∧
      ts = used ++ rest ∧ Reads (parsePrimary (fuel + 1)) used rest e ∧
      Derives Tight .primary used [e] := by
  have hskip : ∀ w t ts', Blank w → t.isWhitespace = false →
      skipWhitespace (w ++ t :: ts') = t :: ts' := fun w t ts' hw ht =>
    skipWhitespace_append hw (by rintro t' ⟨⟩; exact ht)
  obtain ⟨w, hw, hts⟩ := exists_blank_skipWhitespace ts
  rw [parsePrimary] at h
  split at h
  · exact nomatch h
  · rename_i k ts' heq
    rw [heq] at hts
    subst hts
    obtain ⟨used, rfl, hreads, hderives⟩ := parsePropertyChain_reads h
    refine ⟨w ++ .key k :: used, by simp, by simp, fun rest' hsame => ?_, ?_⟩
    · rw [List.append_assoc, List.cons_append, parsePrimary, hskip _ _ _ hw rfl]
      exact hreads rest' hsame
    · exact ((hderives _).1 (.key k)).primary_blank hw
  · rename_i s ts' heq
    rw [heq] at hts
    subst hts
    obtain ⟨used, rfl, hreads, hderives⟩ := parsePropertyChain_reads h
    refine ⟨w ++ .string s :: used, by simp, by simp, fun rest' hsame => ?_, ?_⟩
    · rw [List.append_assoc, List.cons_append, parsePrimary, hskip _ _ _ hw rfl]
      exact hreads rest' hsame
    · exact ((hderives _).1 (.string s)).primary_blank hw
  · rename_i ts' heq
    rw [heq] at hts
    subst hts
    obtain ⟨used, rfl, hreads, hderives, -⟩ := hs.afterParen h
    refine ⟨w ++ .lParen :: used, by simp, by simp, fun rest' hsame => ?_, ?_⟩
    · rw [List.append_assoc, List.cons_append, parsePrimary, hskip _ _ _ hw rfl]
      exact hreads rest' hsame
    · exact hderives.primary_blank hw
  · rename_i f ts' heq
    rw [heq] at hts
    subst hts
    obtain ⟨⟨args, mid⟩, hargs, hchain⟩ := bind_eq_ok h
    obtain ⟨used, rfl, hreads, hderives⟩ := hs.args hargs
    obtain ⟨used', rfl, hreads', hderives'⟩ := parsePropertyChain_reads hchain
    refine ⟨w ++ .func f :: (used ++ used'), by simp, by simp, fun rest' hsame => ?_, ?_⟩
    · rw [List.append_assoc, List.cons_append, parsePrimary, hskip _ _ _ hw rfl]
      exact @Reads.bind _ _ _ (fun args ts => parsePropertyChain ts (.funcCall f args)) _ _ _ _ _
        hreads hreads' rest' hsame
    · exact ((hderives' _).1 (.call f hderives)).primary_blank hw
  · exact nomatch h

theorem Sound.arg_succ {ts rest : List Token} {e : Expr}
    (h : parseArg (fuel + 1) ts = .ok (e, rest)) : ∃ used, used ≠ [] ∧
      ts = used ++ rest ∧ Reads (parseArg (fuel + 1)) used rest e ∧
      Derives Tight .arg used [e] := by
  have hskip : ∀ w t ts', Blank w → t.isWhitespace = false →
      skipWhitespace (w ++ t :: ts') = t :: ts' := fun w t ts' hw ht =>
    skipWhitespace_append hw (by rintro t' ⟨⟩; exact ht)
  obtain ⟨w, hw, hts⟩ := exists_blank_skipWhitespace ts
  rw [parseArg] at h
  split at h
  · rename_i ts' heq
    rw [heq] at hts
    subst hts
    obtain ⟨used, rfl, hreads, -, hderives⟩ := hs.afterParen h
    refine ⟨w ++ .lParen :: used, by simp, by simp, fun rest' hsame => ?_, ?_⟩
    · rw [List.append_assoc, List.cons_append, parseArg, hskip _ _ _ hw rfl]
      exact hreads rest' hsame
    · exact (Derives.argOf hderives).arg_blank hw
  · rename_i k ts' heq
    rw [heq] at hts
    subst hts
    obtain ⟨used, rfl, hreads, hderives⟩ := parsePropertyChain_reads h
    refine ⟨w ++ .key k :: used, by simp, by simp, fun rest' hsame => ?_, ?_⟩
    · rw [List.append_assoc, List.cons_append, parseArg, hskip _ _ _ hw rfl]
      exact hreads rest' hsame
    · exact (Derives.argOf ((hderives _).2 (.argKey k))).arg_blank hw
  · rename_i s ts' heq
    rw [heq] at hts
    subst hts
    obtain ⟨rfl, rfl⟩ := Prod.mk.inj (Except.ok.inj h)
    refine ⟨w ++ [.string s], by simp, by simp, fun rest' hsame => ?_, ?_⟩
    · rw [List.append_assoc, List.singleton_append, parseArg, hskip _ _ _ hw rfl]
    · exact (Derives.argString s).arg_blank hw
  · exact nomatch h

/-- Arguments that are parsed are derived. -/
theorem Sound.args_succ {ts rest : List Token} {es : List Expr}
    (h : argsLoop (fuel + 1) ts = .ok (es, rest)) : ∃ used,
      ts = used ++ rest ∧ Reads (argsLoop (fuel + 1)) used rest es ∧
      Derives Tight .args used es := by
  cases hends : endsArgs (skipWhitespace ts).head? with
  | true =>
    rw [argsLoop_of_ends hends] at h
    obtain ⟨rfl, rfl⟩ := Prod.mk.inj (Except.ok.inj h)
    obtain ⟨w, hw, hts⟩ := exists_blank_skipWhitespace ts
    have hhead := isWhitespace_head?_skipWhitespace ts
    refine ⟨w, hts, fun rest' hsame => ?_, .noArgs hw⟩
    have hskip : skipWhitespace (w ++ rest') = rest' :=
      skipWhitespace_append hw (hsame.isWhitespace hhead)
    rw [argsLoop_of_ends (by rwa [hskip, hsame.endsArgs_eq]), hskip]
  | false =>
    rw [argsLoop_of_not_ends hends] at h
    obtain ⟨⟨arg, mid⟩, harg, h⟩ := bind_eq_ok h
    obtain ⟨⟨args, mid'⟩, hargs, heq⟩ := bind_eq_ok h
    obtain ⟨rfl, rfl⟩ := Prod.mk.inj (Except.ok.inj heq)
    obtain ⟨used, hne, hskip, hreads, hderives⟩ := hs.arg harg
    obtain ⟨used', rfl, hreads', hderives'⟩ := hs.args hargs
    obtain ⟨w, hw, hts⟩ := exists_blank_skipWhitespace ts
    have hhead := isWhitespace_head?_skipWhitespace ts
    rw [hskip] at hts hhead hends
    subst hts
    have hargs' := Derives.moreArgs (hderives.arg_blank hw) hderives'
    rw [List.append_assoc] at hargs'
    refine ⟨w ++ (used ++ used'), by simp, fun rest' hsame => ?_, hargs'⟩
    have hsame' : SameHead (used ++ (used' ++ rest')) (used ++ (used' ++ mid')) :=
      (hsame.append used').append used
    have hskip' : skipWhitespace (w ++ (used ++ used') ++ rest') = used ++ (used' ++ rest') := by
      rw [List.append_assoc, List.append_assoc]
      exact skipWhitespace_append hw (hsame'.isWhitespace hhead)
    rw [argsLoop_of_not_ends (by rwa [hskip', hsame'.endsArgs_eq]), hskip',
      hreads (used' ++ rest') (hsame.append used')]
    dsimp only [bind, Except.bind]
    rw [hreads' rest' hsame]

end Step

/-- **The parser reads what it derives.** -/
theorem sound (fuel : ℕ) : Sound fuel := by
  induction fuel with
  | zero => exact sound_zero
  | succ fuel hs =>
    exact
      { pipe := hs.pipe_succ
        loop := hs.loop_succ
        primary := hs.primary_succ
        args := hs.args_succ
        arg := hs.arg_succ }

end Mise.Aqua
