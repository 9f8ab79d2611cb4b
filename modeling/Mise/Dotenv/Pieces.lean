/-
# Expanding a dotenv text piece by piece

`crates/mise-dotenv/src/parse.rs`: what a turn of `expand` does depends on the
`Piece` at the front of the text alone, whether it stands for some text, is written
as it stands, or is a `${...}` whose word is expanded in its place or into an
error's message (`expand_succ`).

A text with CR LF for every newline has the counterparts of these pieces
(`piece_crlf`), except that a backslash takes half of a line end with it.
-/

import Mise.Dotenv.LineEnds

namespace Mise
namespace Dotenv

open Lib

/-! ### Pieces -/

/-- What a turn of `expand` reads, and with how many characters.  A word starts
behind the `${` and so many characters. -/
inductive Piece where
  | text (out : List Char) (n : ℕ)
  | verbatim (out : List Char) (n : ℕ)
  | word (start : ℕ) (word : List Char) (n : ℕ)
  | required (name : List Char) (start : ℕ) (word : List Char)
  | unterminated

/-- The counterpart of a piece at the front of a text. -/
def Piece.crlf (raw : List Char) : Piece → Piece
  | .text out n => .text out (crlfLength raw n)
  | .verbatim out n => .verbatim (Dotenv.crlf out) (crlfLength raw n)
  | .word start w n => .word start (Dotenv.crlf w) (crlfLength raw n)
  | .required name start w => .required name start (Dotenv.crlf w)
  | .unterminated => .unterminated

namespace Parser

variable (p : Parser)

/-- The piece that a `${...}` with this expression is. -/
def bracesPiece (expression : List Char) : Piece :=
  let n := expression.length + 3
  let literal := Piece.verbatim ('$' :: '{' :: expression ++ ['}']) n
  if expression.isEmpty then literal
  else match p.variableValue expression with
  | some value => .text value n
  | none =>
    if !(expression.head?.any isSubstitutionStart) then literal
    else
      let name := expression.takeWhile isSubstitutionContinue
      let remainder := expression.dropWhile isSubstitutionContinue
      let value := p.variableValue name
      if remainder.isEmpty then .text (value.getD []) n
      else match stripOperator remainder with
      | none => literal
      | some (operator, word) =>
        let start := name.length + operator.text.length
        let isSet := value.isSome
        let isNonempty := value.any fun v => !v.isEmpty
        match operator with
        | .dash => if !isSet then .word start word n else .text (value.getD []) n
        | .colonDash => if !isNonempty then .word start word n else .text (value.getD []) n
        | .plus => if isSet then .word start word n else .text [] n
        | .colonPlus => if isNonempty then .word start word n else .text [] n
        | .question => if !isSet then .required name start word else .text (value.getD []) n
        | .colonQuestion =>
          if !isNonempty then .required name start word else .text (value.getD []) n

/-- The piece behind a dollar. -/
def dollarPiece (raw : List Char) : Piece :=
  match raw with
  | [] => .text ['$'] 1
  | '$' :: _ => .text ['$'] 2
  | '{' :: body =>
    match findSubstitutionEnd body with
    | none => .unterminated
    | some n => p.bracesPiece (body.take n)
  | first :: _ =>
    if isSubstitutionStart first then
      let name := raw.takeWhile isSubstitutionContinue
      .text ((p.variableValue name).getD []) (name.length + 1)
    else .text ['$'] 1

/-- The piece at the front of a text. -/
def piece (style : ValueStyle) : List Char → Option Piece
  | [] => none
  | c :: cs => some <|
    if c == '\\' && style != .singleQuoted then
      match cs.head? with
      | none => .text ['\\'] 1
      | some escaped =>
        if isNewline escaped then .verbatim ['\\', escaped] 2
        else .text (pushEscape style escaped) 2
    else if c == '$' && p.options.substitution && style != .singleQuoted then p.dollarPiece cs
    else if c == '\r' then if cs.head? = some '\n' then .text ['\n'] 2 else .text ['\n'] 1
    else .text [c] 1

/-- What a turn makes of a piece, where the text and its word are expanded by
`expand`. -/
def expandPiece (expand : Cursor → List Char → Except ParseError (List Char)) (cursor : Cursor)
    (raw : List Char) : Piece → Except ParseError (List Char)
  | .text out n | .verbatim out n => (expand (cursor.forward n) (raw.drop n)).map (out ++ ·)
  | .word start word n =>
    (expand ((cursor.forward 2).forward start) word).bind fun out =>
      (expand (cursor.forward n) (raw.drop n)).map (out ++ ·)
  | .required name start word =>
    (expand ((cursor.forward 2).forward start) word).bind fun message =>
      .error ((cursor.forward 2).error
        (.requiredVariable (String.ofList name) (String.ofList message)))
  | .unterminated => .error (cursor.error .unterminatedSubstitution)

variable {p} {style : ValueStyle} {raw : List Char}

theorem expand_nil (fuel : ℕ) (cursor : Cursor) : p.expand style fuel cursor [] = .ok [] := by
  cases fuel <;> rfl

/-- An expression that is no substitution is written as it stands. -/
theorem expandDollar_error_ne {expandWord : Cursor → List Char → Except ParseError (List Char)}
    {cursor : Cursor} {e : ParseError} (h : p.expandDollar expandWord cursor raw = .error e) :
    e.kind ≠ .invalidSubstitution := by
  rw [expandDollar.eq_def] at h
  split at h
  · cases h
  · cases h
  · split at h
    · rw [← Except.error.inj h]
      rintro ⟨⟩
    · dsimp only at h
      split at h
      · cases h
      · split at h
        · cases h
        · case isFalse hkind =>
          rwa [← Except.error.inj h]
  · split at h
    · cases h
    · cases h

/-- No value fails for a substitution that is invalid. -/
theorem expand_error_ne {fuel : ℕ} {cursor : Cursor} {e : ParseError}
    (h : p.expand style fuel cursor raw = .error e) : e.kind ≠ .invalidSubstitution := by
  have hmap : ∀ {x : Except ParseError (List Char)} {f : List Char → List Char},
      x.map f = .error e → x = .error e := by
    intro x f hx
    cases x with
    | ok out => cases hx
    | error e' => exact hx
  induction fuel generalizing cursor raw with
  | zero => cases h
  | succ fuel ih =>
    cases raw with
    | nil => cases h
    | cons c cs =>
      rw [expand] at h
      split at h
      · split at h
        · cases h
        · exact ih (hmap h)
      split at h
      · cases hdollar : p.expandDollar (p.expand style fuel) cursor cs with
        | error e' =>
          rw [hdollar] at h
          rw [← Except.error.inj h]
          exact expandDollar_error_ne hdollar
        | ok taken =>
          rw [hdollar] at h
          exact ih (hmap h)
      split at h
      · split at h
        · exact ih (hmap h)
        · exact ih (hmap h)
      · exact ih (hmap h)

/-- The rest of a turn of `expand` behind an evaluated expression of so many characters. -/
def afterBraces (expand : Cursor → List Char → Except ParseError (List Char)) (cursor : Cursor)
    (body expression : List Char) (evaluated : Except ParseError (List Char)) :
    Except ParseError (List Char) :=
  (match evaluated with
    | .ok expanded => .ok (expanded, expression.length + 2)
    | .error e =>
      if e.kind = .invalidSubstitution then
        .ok ('$' :: '{' :: expression ++ ['}'], expression.length + 2)
      else .error e : Except ParseError (List Char × ℕ)).bind fun taken =>
    (expand (cursor.forward (taken.2 + 1)) (('{' :: body).drop taken.2)).map (taken.1 ++ ·)

/-- What `evaluate_substitution` and its caller make of an expression. -/
theorem afterBraces_evaluateSubstitution
    {expand : Cursor → List Char → Except ParseError (List Char)}
    (hexpand : ∀ {c raw e}, expand c raw = .error e → e.kind ≠ .invalidSubstitution)
    (cursor : Cursor) (body expression : List Char) :
    afterBraces expand cursor body expression
        (p.evaluateSubstitution expand (cursor.forward 2) expression) =
      expandPiece expand cursor ('$' :: '{' :: body) (p.bracesPiece expression) := by
  have hword : ∀ start word, afterBraces expand cursor body expression
      (expand ((cursor.forward 2).forward start) word) =
        expandPiece expand cursor ('$' :: '{' :: body)
          (.word start word (expression.length + 3)) := by
    intro start word
    rw [afterBraces.eq_def, expandPiece]
    cases h : expand ((cursor.forward 2).forward start) word with
    | ok out => rfl
    | error e =>
      dsimp only
      rw [if_neg (hexpand h)]
      rfl
  have hrequired : ∀ name start word, afterBraces expand cursor body expression
      ((expand ((cursor.forward 2).forward start) word).bind fun message =>
        .error ((cursor.forward 2).error
          (.requiredVariable (String.ofList name) (String.ofList message)))) =
        expandPiece expand cursor ('$' :: '{' :: body) (.required name start word) := by
    intro name start word
    rw [afterBraces.eq_def, expandPiece]
    cases h : expand ((cursor.forward 2).forward start) word with
    | ok out =>
      show Except.bind (if _ then _ else _) _ = _
      rw [if_neg]
      · rfl
      · nofun
    | error e =>
      show Except.bind (if _ then _ else _) _ = _
      rw [if_neg (hexpand h)]
      rfl
  rw [evaluateSubstitution, bracesPiece]
  split
  · rfl
  cases p.variableValue expression with
  | some value => rfl
  | none =>
    dsimp only
    split
    · rfl
    split
    · rfl
    cases stripOperator (expression.dropWhile isSubstitutionContinue) with
    | none => rfl
    | some found =>
      obtain ⟨operator, word⟩ := found
      dsimp only
      cases operator with
      | dash | colonDash | plus | colonPlus =>
        dsimp only
        split
        · exact hword _ word
        · rfl
      | question | colonQuestion =>
        dsimp only
        split
        · exact hrequired _ _ word
        · rfl

/-- A `${...}` ends within the text, at a `}`. -/
theorem getElem?_substitutionEnd {pass depth n : ℕ} {cs : List Char}
    (h : substitutionEnd pass depth cs = some n) : cs[n]? = some '}' := by
  fun_induction substitutionEnd pass depth cs generalizing n with
  | case1 => cases h
  | case5 depth c cs _ _ hend =>
    obtain rfl := Option.some.inj h
    exact congrArg some (beq_iff_eq.1 hend)
  | case2 _ _ _ _ ih | case3 _ _ _ _ ih | case4 _ _ _ _ _ ih | case6 _ _ _ _ _ _ _ ih
  | case7 _ _ _ _ _ _ ih =>
    obtain ⟨m, hm, rfl⟩ := Option.map_eq_some_iff.1 h
    exact ih hm

/-- **A turn of `expand`** depends on the piece that it reads. -/
theorem expand_succ (fuel : ℕ) (cursor : Cursor) (raw : List Char) :
    p.expand style (fuel + 1) cursor raw =
      match p.piece style raw with
      | none => .ok []
      | some piece => expandPiece (p.expand style fuel) cursor raw piece := by
  cases raw with
  | nil => rfl
  | cons c cs =>
    rw [expand, piece]
    dsimp only
    split
    · cases cs with
      | nil =>
        show _ = (p.expand style fuel _ []).map _
        rw [expand_nil]
        rfl
      | cons escaped cs =>
        dsimp only [List.head?_cons]
        split
        · case isTrue hstyle hnewline =>
          have hescape : pushEscape style escaped = ['\\', escaped] := by
            obtain rfl | rfl : escaped = '\n' ∨ escaped = '\r' := by simpa [isNewline] using hnewline
            · cases style <;> rfl
            · cases style <;> rfl
          rw [hescape]
          rfl
        · rfl
    split
    · case isTrue hdollar =>
      have hc : c = '$' :=
        beq_iff_eq.1 (Bool.and_eq_true_iff.1 (Bool.and_eq_true_iff.1 hdollar).1).1
      subst hc
      rw [expandDollar.eq_def]
      split
      · rfl
      · rfl
      · case h_3 body =>
        rw [dollarPiece]
        cases hfind : findSubstitutionEnd body with
        | none => rfl
        | some n =>
          have hlength : (body.take n).length = n :=
            List.length_take_of_le (Nat.le_of_lt (lt_of_substitutionEnd hfind))
          have hbraces := @afterBraces_evaluateSubstitution p (p.expand style fuel)
            expand_error_ne cursor body (body.take n)
          rw [afterBraces.eq_def, hlength] at hbraces
          exact hbraces
      · case h_4 first tail hdollar hbrace =>
        rw [dollarPiece]
        · split
          · rfl
          · rfl
        · exact hdollar
        · exact hbrace
    split
    · split
      · case isTrue hhead =>
        obtain ⟨cs, rfl⟩ := List.head?_eq_some_iff.1 hhead
        rfl
      · rfl
    · rfl

/-! ### What a piece is made of -/

/-- A word stands in a text behind so many characters without a line end. -/
def WordAt (raw : List Char) (start : ℕ) (word : List Char) : Prop :=
  ∃ pre, pre.length = start + 2 ∧ '\n' ∉ pre ∧ pre ++ word <+: raw

/-- A piece is part of a text. -/
def PartOf (raw : List Char) : Piece → Prop
  | .text _ n | .verbatim _ n => 0 < n ∧ n ≤ raw.length
  | .word start word n => (0 < n ∧ n ≤ raw.length) ∧ WordAt raw start word
  | .required _ start word => WordAt raw start word
  | .unterminated => True

theorem WordAt.length_lt {start : ℕ} {word : List Char} (h : WordAt raw start word) :
    word.length < raw.length := by
  obtain ⟨pre, hlength, -, hstart⟩ := h
  have hle := hstart.length_le
  rw [List.length_append] at hle
  omega

theorem stripOperator_eq_some {remainder word : List Char} {operator : Operator}
    (h : stripOperator remainder = some (operator, word)) :
    remainder = operator.text ++ word := by
  obtain ⟨op, -, hop⟩ := List.exists_of_findSome?_eq_some h
  split at hop
  · case isTrue hstart =>
    obtain ⟨rfl, rfl⟩ := Prod.mk.inj (Option.some.inj hop)
    obtain ⟨rest, rfl⟩ := List.isPrefixOf_iff_prefix.1 hstart
    rw [List.drop_left]
  · exact nomatch hop

theorem not_mem_text (operator : Operator) : '\r' ∉ operator.text ∧ '\n' ∉ operator.text := by
  cases operator <;> decide

/-- The word of a substitution stands between its braces. -/
theorem partOf_bracesPiece {body : List Char} {n : ℕ} (hend : findSubstitutionEnd body = some n) :
    PartOf ('$' :: '{' :: body) (p.bracesPiece (body.take n)) := by
  have hlt : n < body.length := lt_of_substitutionEnd hend
  have hlength : (body.take n).length = n := List.length_take_of_le (Nat.le_of_lt hlt)
  have hn : 0 < (body.take n).length + 3 ∧
      (body.take n).length + 3 ≤ ('$' :: '{' :: body).length := by
    rw [hlength, List.length_cons, List.length_cons]
    omega
  have hword : ∀ operator word,
      stripOperator ((body.take n).dropWhile isSubstitutionContinue) = some (operator, word) →
      WordAt ('$' :: '{' :: body)
        (((body.take n).takeWhile isSubstitutionContinue).length + operator.text.length) word := by
    intro operator word hstrip
    have hname := not_mem_takeWhile (c := '\n') (q := isSubstitutionContinue) rfl (body.take n)
    have hsplit := List.takeWhile_append_dropWhile (p := isSubstitutionContinue) (l := body.take n)
    rw [stripOperator_eq_some hstrip, ← List.append_assoc] at hsplit
    refine ⟨'$' :: '{' :: ((body.take n).takeWhile isSubstitutionContinue ++ operator.text), ?_, ?_,
      ?_⟩
    · simp
    · simp [hname, not_mem_text operator]
    · rw [List.cons_append, List.cons_append, hsplit, List.cons_prefix_cons, List.cons_prefix_cons]
      exact ⟨rfl, rfl, List.take_prefix n body⟩
  rw [bracesPiece]
  dsimp only
  split
  · exact hn
  cases p.variableValue (body.take n) with
  | some value => exact hn
  | none =>
    dsimp only
    split
    · exact hn
    split
    · exact hn
    cases hstrip : stripOperator ((body.take n).dropWhile isSubstitutionContinue) with
    | none => exact hn
    | some found =>
      obtain ⟨operator, word⟩ := found
      have hat := hword operator word hstrip
      cases operator with
      | dash | colonDash | plus | colonPlus =>
        dsimp only
        split
        · exact ⟨hn, hat⟩
        · exact hn
      | question | colonQuestion =>
        dsimp only
        split
        · exact hat
        · exact hn

/-- Every piece takes some of the text, and its word stands in it. -/
theorem partOf_piece {piece : Piece} (h : p.piece style raw = some piece) : PartOf raw piece := by
  cases raw with
  | nil => exact nomatch h
  | cons c cs =>
    rw [Parser.piece] at h
    obtain rfl := Option.some.inj h
    have hone : 0 < 1 ∧ 1 ≤ (c :: cs).length := ⟨Nat.one_pos, Nat.le_add_left 1 _⟩
    have htwo : ∀ {d}, cs.head? = some d → 0 < 2 ∧ 2 ≤ (c :: cs).length := by
      intro d hd
      obtain ⟨cs, rfl⟩ := List.head?_eq_some_iff.1 hd
      exact ⟨Nat.two_pos, Nat.le_add_left 2 _⟩
    split
    · cases hhead : cs.head? with
      | none => exact hone
      | some escaped =>
        dsimp only
        split
        · exact htwo hhead
        · exact htwo hhead
    split
    · case isTrue hdollar =>
      have hc : c = '$' :=
        beq_iff_eq.1 (Bool.and_eq_true_iff.1 (Bool.and_eq_true_iff.1 hdollar).1).1
      subst hc
      rw [dollarPiece.eq_def]
      split
      · exact hone
      · exact htwo rfl
      · case h_3 body =>
        cases hfind : findSubstitutionEnd body with
        | none => exact trivial
        | some n => exact partOf_bracesPiece hfind
      · dsimp only
        split
        · refine ⟨Nat.succ_pos _, Nat.succ_le_succ ?_⟩
          exact (List.takeWhile_prefix _).length_le
        · exact hone
    split
    · split
      · case isTrue hhead => exact htwo hhead
      · exact hone
    · exact hone

/-- More rounds than there are characters read the same. -/
theorem expand_fuel {fuel fuel' : ℕ} (hfuel : raw.length ≤ fuel) (hfuel' : raw.length ≤ fuel')
    (cursor : Cursor) : p.expand style fuel cursor raw = p.expand style fuel' cursor raw := by
  induction fuel generalizing fuel' raw cursor with
  | zero =>
    obtain rfl := List.length_eq_zero_iff.1 (Nat.le_zero.1 hfuel)
    rw [expand_nil, expand_nil]
  | succ fuel ih =>
    cases fuel' with
    | zero =>
      obtain rfl := List.length_eq_zero_iff.1 (Nat.le_zero.1 hfuel')
      rw [expand_nil, expand_nil]
    | succ fuel' =>
      rw [expand_succ, expand_succ]
      cases hpiece : p.piece style raw with
      | none => rfl
      | some piece =>
        have hpart := partOf_piece hpiece
        have hrest : ∀ {n}, 0 < n ∧ n ≤ raw.length → ∀ c, p.expand style fuel c (raw.drop n) =
            p.expand style fuel' c (raw.drop n) := by
          intro n hn c
          refine ih ?_ ?_ c
          · rw [List.length_drop]
            omega
          · rw [List.length_drop]
            omega
        have hword : ∀ {start word}, WordAt raw start word → ∀ c,
            p.expand style fuel c word = p.expand style fuel' c word := by
          intro start word hat c
          have hlt := hat.length_lt
          exact ih (by omega) (by omega) c
        cases piece with
        | text out n => simp only [expandPiece, hrest hpart]
        | verbatim out n => simp only [expandPiece, hrest hpart]
        | word start word n => simp only [expandPiece, hrest hpart.1, hword hpart.2]
        | required name start word => simp only [expandPiece, hword hpart]
        | unterminated => rfl

/-! ### Line ends that are kept as they are written -/

variable (p style) in
/-- A text expands without an error. -/
def Expands (raw : List Char) : Prop :=
  ∃ out, p.expand style raw.length ⟨[], []⟩ raw = .ok out

theorem expands_iff {fuel : ℕ} (hfuel : raw.length ≤ fuel) (cursor : Cursor) :
    p.Expands style raw ↔ ∃ out, p.expand style fuel cursor raw = .ok out := by
  have hsame : kinds (p.expand style fuel cursor raw) =
      kinds (p.expand style raw.length ⟨[], []⟩ raw) := by
    rw [expand_fuel hfuel le_rfl cursor]
    exact kinds_expand (Alike.refl p) style _ _ _ raw
  refine exists_congr fun out => ?_
  rw [← kinds_eq_ok, ← hsame, kinds_eq_ok]

variable (p style) in
/-- **The expansion of a text keeps a line end as it is written**, in its value or in
the message of its error: the one behind a backslash, or one in braces that are no
substitution.  All others become newlines. -/
inductive Keeps : List Char → Prop
  | verbatim {raw out : List Char} {n : ℕ} (h : p.piece style raw = some (.verbatim out n))
      (hout : '\n' ∈ out) (hrest : p.Expands style (raw.drop n)) : Keeps raw
  | word {raw word : List Char} {start n : ℕ} (h : p.piece style raw = some (.word start word n))
      (hword : Keeps word) (hrest : p.Expands style word → p.Expands style (raw.drop n)) :
      Keeps raw
  | message {raw name word : List Char} {start : ℕ}
      (h : p.piece style raw = some (.required name start word)) (hword : Keeps word) : Keeps raw
  | behindText {raw out : List Char} {n : ℕ} (h : p.piece style raw = some (.text out n))
      (hrest : Keeps (raw.drop n)) : Keeps raw
  | behindVerbatim {raw out : List Char} {n : ℕ}
      (h : p.piece style raw = some (.verbatim out n)) (hrest : Keeps (raw.drop n)) : Keeps raw
  | behindWord {raw word : List Char} {start n : ℕ}
      (h : p.piece style raw = some (.word start word n)) (hword : p.Expands style word)
      (hrest : Keeps (raw.drop n)) : Keeps raw

/-- A piece keeps a line end, or the text behind it does. -/
theorem keeps_iff : p.Keeps style raw ↔ match p.piece style raw with
    | none | some .unterminated => False
    | some (.text _ n) => p.Keeps style (raw.drop n)
    | some (.verbatim out n) =>
      '\n' ∈ out ∧ p.Expands style (raw.drop n) ∨ p.Keeps style (raw.drop n)
    | some (.word _ word n) =>
      p.Keeps style word ∧ (p.Expands style word → p.Expands style (raw.drop n)) ∨
        p.Expands style word ∧ p.Keeps style (raw.drop n)
    | some (.required _ _ word) => p.Keeps style word := by
  constructor
  · intro h
    cases h with
    | verbatim h hout hrest => rw [h]; exact .inl ⟨hout, hrest⟩
    | word h hword hrest => rw [h]; exact .inl ⟨hword, hrest⟩
    | message h hword => rw [h]; exact hword
    | behindText h hrest => rw [h]; exact hrest
    | behindVerbatim h hrest => rw [h]; exact .inr hrest
    | behindWord h hword hrest => rw [h]; exact .inr ⟨hword, hrest⟩
  · intro h
    split at h
    · exact h.elim
    · exact h.elim
    · exact .behindText ‹_› h
    · exact h.elim (fun h => .verbatim ‹_› h.1 h.2) fun h => .behindVerbatim ‹_› h
    · exact h.elim (fun h => .word ‹_› h.1 h.2) fun h => .behindWord ‹_› h.1 h.2
    · exact .message ‹_› h

/-! ### Counterparts of pieces -/

/-- Two parsers with the same options and variables.  What a text has in braces is bound
alike with either line ends. -/
structure Counterpart (text : List Char) (p q : Parser) : Prop where
  options : q.options = p.options
  same : q.variableValue = p.variableValue
  blind : ∀ name, '{' :: name ++ ['}'] <:+: text →
    p.variableValue (Dotenv.crlf name) = p.variableValue name

variable {q : Parser} {text : List Char}

/-- They are counterparts in what is left of the text. -/
theorem Counterpart.passes {c c' : Cursor} (h : Counterpart c.rest p q) (hpass : c.Passes c') :
    Counterpart c'.rest p q := by
  exact ⟨h.options, h.same, fun name hname => h.blind name (hname.trans hpass.suffix.isInfix)⟩

theorem stripOperator_crlf (remainder : List Char) : stripOperator (crlf remainder) =
    (stripOperator remainder).map fun found => (found.1, crlf found.2) := by
  have hone : ∀ op : Operator,
      (if op.text.isPrefixOf (crlf remainder) then
        some (op, (crlf remainder).drop op.text.length) else none) =
      (if op.text.isPrefixOf remainder then some (op, remainder.drop op.text.length)
        else none).map fun found => (found.1, crlf found.2) := by
    intro op
    obtain ⟨hr, hn⟩ := not_mem_text op
    have hstart : op.text.isPrefixOf (crlf remainder) = op.text.isPrefixOf remainder := by
      rw [Bool.eq_iff_iff, List.isPrefixOf_iff_prefix, List.isPrefixOf_iff_prefix]
      exact isPrefix_crlf_iff hr hn remainder
    rw [hstart]
    split
    · case isTrue h =>
      obtain ⟨rest, rfl⟩ := List.isPrefixOf_iff_prefix.1 h
      rw [crlf_append, crlf_eq_self hn, List.drop_left, List.drop_left]
      rfl
    · rfl
  rw [stripOperator, stripOperator, List.map_findSome?]
  exact congrArg (List.findSome? · _) (funext hone)

theorem crlfLength_of_not_mem {cs : List Char} {n : ℕ} (hn : n ≤ cs.length)
    (h : '\n' ∉ cs.take n) : crlfLength cs n = n := by
  rw [crlfLength, crlf_eq_self h, List.length_take_of_le hn]

/-- A `${...}` and its counterpart look up the same variables. -/
theorem bracesPiece_crlf (h : Counterpart text p q) {body : List Char} {n : ℕ}
    (hin : '{' :: body <:+: text) (hend : findSubstitutionEnd body = some n) :
    q.bracesPiece (crlf (body.take n)) =
      (p.bracesPiece (body.take n)).crlf ('$' :: '{' :: body) := by
  have hlt : n < body.length := lt_of_substitutionEnd hend
  have hlength : (body.take n).length = n := List.length_take_of_le (Nat.le_of_lt hlt)
  have hbraces : body.take (n + 1) = body.take n ++ ['}'] := by
    rw [List.take_add_one, getElem?_substitutionEnd hend, Option.toList_some]
  have hblind : p.variableValue (crlf (body.take n)) = p.variableValue (body.take n) := by
    refine h.blind _ (List.IsInfix.trans (List.IsPrefix.isInfix ?_) hin)
    rw [List.cons_append, List.cons_prefix_cons, ← hbraces]
    exact ⟨rfl, List.take_prefix _ _⟩
  have hn : crlfLength ('$' :: '{' :: body) ((body.take n).length + 3) =
      (crlf (body.take n)).length + 3 := by
    rw [hlength, crlfLength_cons (by decide), crlfLength_cons (by decide), crlfLength,
      hbraces, crlf_append, List.length_append]
    rfl
  have hliteral : crlf ('$' :: '{' :: body.take n ++ ['}']) =
      '$' :: '{' :: crlf (body.take n) ++ ['}'] := by
    rw [crlf_append, crlf_cons (by decide), crlf_cons (by decide)]
    rfl
  obtain ⟨htake, hdrop⟩ := @span_crlf isSubstitutionContinue rfl rfl (body.take n)
  rw [bracesPiece, bracesPiece]
  dsimp only
  rw [isEmpty_crlf, h.same, hblind, any_head?_crlf rfl, htake, hdrop, isEmpty_crlf,
    stripOperator_crlf, ← hn, ← hliteral]
  split
  · rfl
  cases p.variableValue (body.take n) with
  | some value => rfl
  | none =>
    dsimp only
    split
    · rfl
    split
    · rfl
    cases stripOperator ((body.take n).dropWhile isSubstitutionContinue) with
    | none => rfl
    | some found =>
      obtain ⟨operator, word⟩ := found
      cases operator with
      | dash | colonDash | plus | colonPlus | question | colonQuestion =>
        dsimp only [Option.map_some]
        split
        · rfl
        · rfl

theorem dollarPiece_crlf (h : Counterpart text p q) (hin : raw <:+: text) :
    q.dollarPiece (crlf raw) = (p.dollarPiece raw).crlf ('$' :: raw) := by
  cases raw with
  | nil => rfl
  | cons c cs =>
    by_cases hn : c = '\n'
    · subst hn
      rfl
    rw [crlf_cons hn]
    by_cases hd : c = '$'
    · subst hd
      rfl
    by_cases hb : c = '{'
    · subst hb
      rw [dollarPiece, dollarPiece, findSubstitutionEnd_crlf]
      cases hfind : findSubstitutionEnd cs with
      | none => rfl
      | some n =>
        dsimp only [Option.map_some]
        rw [crlfLength, (take_crlf n cs).1]
        exact bracesPiece_crlf h hin hfind
    · have hspan := (@span_crlf isSubstitutionContinue rfl rfl (c :: cs)).1
      rw [crlf_cons hn] at hspan
      have hname := not_mem_takeWhile (c := '\n') (q := isSubstitutionContinue) rfl (c :: cs)
      rw [dollarPiece, dollarPiece]
      · dsimp only
        rw [hspan, h.same]
        split
        · rw [Piece.crlf, crlfLength_of_not_mem]
          · exact Nat.succ_le_succ (List.takeWhile_prefix _).length_le
          · rw [List.take_succ_cons, ← List.prefix_iff_eq_take.1 (List.takeWhile_prefix _)]
            simp [hname]
        · rfl
      · exact hd
      · exact hb
      · exact hd
      · exact hb

/-- **Pieces have their counterparts**, unless a backslash takes half a line end. -/
theorem piece_crlf (h : Counterpart text p q) (hin : raw <:+: text) (hraw : '\r' ∉ raw)
    (hescape : ∀ cs, raw = '\\' :: '\n' :: cs → style = .singleQuoted) :
    q.piece style (crlf raw) = (p.piece style raw).map (Piece.crlf raw) := by
  cases raw with
  | nil => rfl
  | cons c cs =>
    by_cases hn : c = '\n'
    · subst hn
      rfl
    obtain ⟨hr, hcs⟩ := not_or.1 (List.mem_cons.not.1 hraw)
    have hr' : (c == '\r') = false := beq_false_of_ne (Ne.symm hr)
    rw [crlf_cons hn, piece, piece, h.options, hr', Option.map_some]
    refine congrArg some ?_
    split
    · case isTrue hstyle =>
      obtain ⟨hc, hstyle⟩ := Bool.and_eq_true_iff.1 hstyle
      obtain rfl := beq_iff_eq.1 hc
      cases cs with
      | nil => rfl
      | cons d cs =>
        have hd : d ≠ '\n' := by
          rintro rfl
          rw [hescape cs rfl] at hstyle
          cases hstyle
        have hdr : '\r' ≠ d := fun heq => hcs (heq ▸ List.mem_cons_self)
        have hnewline : isNewline d = false := by simp [isNewline, hd, Ne.symm hdr]
        rw [crlf_cons hd]
        dsimp only [List.head?_cons]
        rw [hnewline]
        show Piece.text _ 2 = Piece.text _ (crlfLength _ 2)
        rw [crlfLength_cons hn, crlfLength_cons hd, crlfLength_zero]
    split
    · case isTrue hdollar =>
      obtain rfl : c = '$' :=
        beq_iff_eq.1 (Bool.and_eq_true_iff.1 (Bool.and_eq_true_iff.1 hdollar).1).1
      exact dollarPiece_crlf h ((List.suffix_cons _ cs).isInfix.trans hin)
    rw [if_neg Bool.false_ne_true, if_neg Bool.false_ne_true]
    show Piece.text _ 1 = Piece.text _ (crlfLength _ 1)
    rw [crlfLength_cons hn, crlfLength_zero]

end Parser

end Dotenv
end Mise
