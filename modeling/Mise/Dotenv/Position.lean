/-
# Positions of the dotenv parser

`crates/mise-dotenv/src/parse.rs`: how far the parser's steps read, and that what
they read does not depend on where they stand.  Every step moves the position on
over characters it has looked at (`Cursor.Passes`), so that the rounds of the loops
are bounded by the text that is left.  A text behind other text is read as it is read
alone, errors of the same kinds among it (`kinds_entries`): the parser looks back
one character at most.
-/

import Mise.Dotenv.RoundTrip
import Mise.Lib.Fallible

namespace Mise
namespace Dotenv

open Lib

/-! ### Kinds of errors -/

/-- A result with the kind of its error only. -/
def kinds {α : Type} (x : Except ParseError α) : Except ParseErrorKind α :=
  x.mapError ParseError.kind

section Kinds

variable {α β : Type}

@[simp] theorem kinds_ok (a : α) : kinds (.ok a) = .ok a := rfl

@[simp] theorem kinds_error (e : ParseError) :
    kinds (.error e : Except ParseError α) = .error e.kind := rfl

@[simp] theorem kinds_map (f : α → β) (x : Except ParseError α) :
    kinds (x.map f) = (kinds x).map f := by
  cases x with
  | ok a => rfl
  | error e => rfl

theorem kinds_bind (f : α → Except ParseError β) (x : Except ParseError α) :
    kinds (x.bind f) = (kinds x).bind fun a => kinds (f a) := by
  cases x with
  | ok a => rfl
  | error e => rfl

theorem kinds_eq_ok {x : Except ParseError α} {a : α} : kinds x = .ok a ↔ x = .ok a := by
  cases x with
  | ok b => exact ⟨fun h => congrArg _ (Except.ok.inj h), fun h => congrArg _ (Except.ok.inj h)⟩
  | error e => exact ⟨fun h => (nomatch h), fun h => nomatch h⟩

theorem map_bind {γ : Type} (f : α → Except ParseError β) (g : β → γ) (x : Except ParseError α) :
    (x.bind f).map g = x.bind fun a => (f a).map g := by
  cases x with
  | ok a => rfl
  | error e => rfl

theorem map_map {γ : Type} (f : α → β) (g : β → γ) (x : Except ParseError α) :
    (x.map f).map g = x.map fun a => g (f a) := by
  cases x with
  | ok a => rfl
  | error e => rfl

/-- Results of the same kinds go on to results of the same kinds. -/
theorem kinds_bind_congr {f g : α → Except ParseError β} {x y : Except ParseError α}
    (hxy : kinds x = kinds y) (hfg : ∀ a, kinds (f a) = kinds (g a)) :
    kinds (x.bind f) = kinds (y.bind g) := by
  rw [kinds_bind, kinds_bind, hxy]
  exact congrArg _ (funext hfg)

end Kinds

/-- A position in a text behind other text. -/
def Cursor.behind (pre : List Char) (c : Cursor) : Cursor := ⟨c.before ++ pre, c.rest⟩

namespace Cursor

variable (pre : List Char) (c : Cursor)

@[simp] theorem rest_behind : (c.behind pre).rest = c.rest := rfl

@[simp] theorem forward_behind (n : ℕ) : (c.behind pre).forward n = (c.forward n).behind pre := by
  rw [forward, behind, forward, behind, List.append_assoc]

@[simp] theorem skipWhile_behind (q : Char → Bool) :
    (c.behind pre).skipWhile q = (c.skipWhile q).behind pre := by
  rw [skipWhile, behind, skipWhile, behind, List.append_assoc]

@[simp] theorem skipHorizontalWhitespace_behind :
    (c.behind pre).skipHorizontalWhitespace = c.skipHorizontalWhitespace.behind pre :=
  skipWhile_behind pre c _

theorem consumeNewline?_behind :
    (c.behind pre).consumeNewline? = c.consumeNewline?.map (behind pre) := by
  rw [consumeNewline?, consumeNewline?, rest_behind]
  split <;> simp

@[simp] theorem consumeNewline_behind :
    (c.behind pre).consumeNewline = c.consumeNewline.behind pre := by
  rw [consumeNewline, consumeNewline, consumeNewline?_behind]
  cases c.consumeNewline? with
  | none => rfl
  | some c' => rfl

@[simp] theorem skipComment_behind : (c.behind pre).skipComment = c.skipComment.behind pre := by
  rw [skipComment, skipComment, skipWhile_behind, consumeNewline_behind]

@[simp] theorem consumeExportPrefix_behind :
    (c.behind pre).consumeExportPrefix = c.consumeExportPrefix.behind pre := by
  rw [consumeExportPrefix, consumeExportPrefix, rest_behind]
  split
  · split
    · rw [forward_behind, skipHorizontalWhitespace_behind]
    · rfl
  · rfl

end Cursor

/-! ### How far is read -/

/-- A position some characters further on. -/
def Cursor.Passes (c c' : Cursor) : Prop := ∃ n ≤ c.rest.length, c' = c.forward n

namespace Cursor

variable {c c' c'' : Cursor}

theorem forward_zero (c : Cursor) : c.forward 0 = c := by
  rw [forward, List.take_zero, List.drop_zero, List.reverse_nil, List.nil_append]

theorem forward_forward (c : Cursor) (m n : ℕ) : (c.forward m).forward n = c.forward (m + n) := by
  rw [forward, forward, forward, List.take_add, List.drop_drop, List.reverse_append,
    List.append_assoc]

theorem length_rest_forward (c : Cursor) (n : ℕ) : (c.forward n).rest.length = c.rest.length - n :=
  List.length_drop

theorem Passes.refl (c : Cursor) : c.Passes c := ⟨0, Nat.zero_le _, (forward_zero c).symm⟩

theorem Passes.trans (h : c.Passes c') (h' : c'.Passes c'') : c.Passes c'' := by
  obtain ⟨m, hm, rfl⟩ := h
  obtain ⟨n, hn, rfl⟩ := h'
  rw [length_rest_forward] at hn
  exact ⟨m + n, by omega, forward_forward c m n⟩

theorem passes_forward {n : ℕ} (h : n ≤ c.rest.length) : c.Passes (c.forward n) := ⟨n, h, rfl⟩

theorem Passes.suffix (h : c.Passes c') : c'.rest <:+ c.rest := by
  obtain ⟨n, -, rfl⟩ := h
  exact List.drop_suffix n c.rest

theorem Passes.length_le (h : c.Passes c') : c'.rest.length ≤ c.rest.length := h.suffix.length_le

theorem Passes.before_ne_nil (h : c.Passes c') (hc : c.before ≠ []) : c'.before ≠ [] := by
  obtain ⟨n, -, rfl⟩ := h
  exact List.append_ne_nil_of_right_ne_nil _ hc

theorem passes_skipWhile (q : Char → Bool) (c : Cursor) : c.Passes (c.skipWhile q) := by
  refine ⟨(c.rest.takeWhile q).length, (List.takeWhile_prefix q).length_le, ?_⟩
  obtain ⟨before, rest⟩ := c
  have hsplit : rest.takeWhile q ++ rest.dropWhile q = rest := List.takeWhile_append_dropWhile
  have htake : rest.take (rest.takeWhile q).length = rest.takeWhile q :=
    (List.prefix_iff_eq_take.1 (List.takeWhile_prefix q)).symm
  have hdrop : rest.drop (rest.takeWhile q).length = rest.dropWhile q := by
    have hwhole := List.take_append_drop (rest.takeWhile q).length rest
    rw [htake] at hwhole
    exact List.append_cancel_left (hwhole.trans hsplit.symm)
  rw [skipWhile, forward, htake, hdrop]

theorem passes_skipHorizontalWhitespace (c : Cursor) : c.Passes c.skipHorizontalWhitespace :=
  passes_skipWhile _ c

theorem consumeNewline?_eq_some (h : c.consumeNewline? = some c') :
    c.Passes c' ∧ c'.rest.length < c.rest.length := by
  obtain ⟨before, rest⟩ := c
  have hpass : ∀ n, 0 < n → n ≤ rest.length → (Cursor.mk before rest).forward n = c' →
      (Cursor.mk before rest).Passes c' ∧ c'.rest.length < rest.length := by
    rintro n hpos hn rfl
    refine ⟨passes_forward hn, ?_⟩
    rw [length_rest_forward]
    dsimp only
    omega
  rw [consumeNewline?.eq_def] at h
  dsimp only at h
  split at h
  · exact hpass 2 (by decide) (by simp) (Option.some.inj h)
  · exact hpass 1 (by decide) (by simp) (Option.some.inj h)
  · exact hpass 1 (by decide) (by simp) (Option.some.inj h)
  · exact nomatch h

theorem passes_consumeNewline (c : Cursor) : c.Passes c.consumeNewline := by
  rw [consumeNewline]
  cases h : c.consumeNewline? with
  | none => exact .refl c
  | some c' => exact (consumeNewline?_eq_some h).1

theorem passes_skipComment (c : Cursor) : c.Passes c.skipComment :=
  (passes_skipWhile _ c).trans (passes_consumeNewline _)

theorem passes_consumeExportPrefix (c : Cursor) : c.Passes c.consumeExportPrefix := by
  rw [consumeExportPrefix.eq_def]
  split
  · case h_1 next rest hrest =>
    split
    · exact (passes_forward (by rw [hrest]; simp)).trans (passes_skipHorizontalWhitespace _)
    · exact .refl c
  · exact .refl c

end Cursor

namespace Parser

/-- Two parsers that read alike, wherever they are. -/
structure Alike (p q : Parser) : Prop where
  options : q.options = p.options
  value : ∀ name, q.variableValue name = p.variableValue name

variable {p q : Parser}

theorem Alike.refl (p : Parser) : Alike p p := ⟨rfl, fun _ => rfl⟩

/-! ### Positions do not matter -/

/-- A substitution does not depend on where it stands, but for the place of its errors. -/
theorem kinds_evaluateSubstitution (h : Alike p q)
    {expandWord expandWord' : Cursor → List Char → Except ParseError (List Char)}
    (hword : ∀ c c' word, kinds (expandWord' c' word) = kinds (expandWord c word)) (c c' : Cursor)
    (expression : List Char) :
    kinds (q.evaluateSubstitution expandWord' c' expression) =
      kinds (p.evaluateSubstitution expandWord c expression) := by
  rw [evaluateSubstitution, evaluateSubstitution, h.value]
  split
  · rfl
  cases p.variableValue expression with
  | some value => rfl
  | none =>
    dsimp only
    split
    · rfl
    rw [h.value]
    split
    · rfl
    cases stripOperator (expression.dropWhile isSubstitutionContinue) with
    | none => rfl
    | some found =>
      obtain ⟨operator, word⟩ := found
      have hexpand := hword (c.forward ((expression.takeWhile isSubstitutionContinue).length +
        operator.text.length)) (c'.forward ((expression.takeWhile isSubstitutionContinue).length +
        operator.text.length)) word
      dsimp only
      cases operator with
      | dash | colonDash | plus | colonPlus =>
        dsimp only
        split
        · exact hexpand
        · rfl
      | question | colonQuestion =>
        dsimp only
        split
        · exact kinds_bind_congr hexpand fun _ => rfl
        · rfl

theorem kinds_expandDollar (h : Alike p q)
    {expandWord expandWord' : Cursor → List Char → Except ParseError (List Char)}
    (hword : ∀ c c' word, kinds (expandWord' c' word) = kinds (expandWord c word)) (c c' : Cursor)
    (raw : List Char) :
    kinds (q.expandDollar expandWord' c' raw) = kinds (p.expandDollar expandWord c raw) := by
  rw [expandDollar.eq_def, expandDollar.eq_def]
  split
  · rfl
  · rfl
  · case h_3 body =>
    cases findSubstitutionEnd body with
    | none => rfl
    | some n =>
      have hvalue := kinds_evaluateSubstitution h hword (c.forward 2) (c'.forward 2) (body.take n)
      dsimp only
      cases hp : p.evaluateSubstitution expandWord (c.forward 2) (body.take n) with
      | ok expanded =>
        rw [hp, kinds_ok, kinds_eq_ok] at hvalue
        rw [hvalue]
      | error e =>
        rw [hp] at hvalue
        cases hq : q.evaluateSubstitution expandWord' (c'.forward 2) (body.take n) with
        | ok expanded =>
          rw [hq] at hvalue
          exact nomatch hvalue
        | error e' =>
          rw [hq] at hvalue
          have hkind : e'.kind = e.kind := Except.error.inj hvalue
          dsimp only
          rw [hkind]
          split
          · rfl
          · rw [kinds_error, kinds_error, hkind]
  · split
    · dsimp only
      rw [h.value]
    · rfl

theorem kinds_expand (h : Alike p q) (style : ValueStyle) (fuel : ℕ) (c c' : Cursor)
    (raw : List Char) : kinds (q.expand style fuel c' raw) = kinds (p.expand style fuel c raw) := by
  induction fuel generalizing c c' raw with
  | zero => rfl
  | succ fuel ih =>
    cases raw with
    | nil => rfl
    | cons a raw =>
      rw [expand, expand, h.options]
      split
      · cases raw.head? with
        | none => rfl
        | some escaped =>
          dsimp only
          rw [kinds_map, kinds_map, ih]
      split
      · refine kinds_bind_congr (kinds_expandDollar h ih c c' raw) fun taken => ?_
        rw [kinds_map, kinds_map, ih]
      split
      · split <;> rw [kinds_map, kinds_map, ih]
      · rw [kinds_map, kinds_map, ih]

theorem kinds_scanQuoted (h : Alike p q) (quote : Char) (style : ValueStyle) (c c' : Cursor)
    (escaped : Bool) (before before' cs : List Char) :
    kinds (q.scanQuoted quote style c' escaped before' cs) =
      kinds (p.scanQuoted quote style c escaped before cs) := by
  fun_induction scanQuoted p quote style c escaped before cs generalizing before' with
  | case1 => rfl
  | case2 escaped before cs hmultiline =>
    rw [scanQuoted, if_pos (h.options ▸ hmultiline)]
    rfl
  | case3 escaped before cs hmultiline ih =>
    rw [scanQuoted, if_neg (h.options ▸ hmultiline), kinds_map, kinds_map, ih]
  | case4 escaped before a cs hcrlf hnewline hmultiline =>
    rw [scanQuoted, if_pos hnewline, if_pos (h.options ▸ hmultiline)]
    · rfl
    · exact hcrlf
  | case5 escaped before a cs hcrlf hnewline hmultiline ih =>
    rw [scanQuoted, if_pos hnewline, if_neg (h.options ▸ hmultiline), kinds_map, kinds_map, ih]
    exact hcrlf
  | case6 escaped before a cs hcrlf hnewline hnul =>
    rw [scanQuoted, if_neg hnewline, if_pos hnul]
    · rfl
    · exact hcrlf
  | case7 escaped before a cs hcrlf hnewline hnul hend =>
    rw [scanQuoted, if_neg hnewline, if_neg hnul, if_pos hend]
    exact hcrlf
  | case8 escaped before a cs hcrlf hnewline hnul hend escaped' ih =>
    rw [scanQuoted, if_neg hnewline, if_neg hnul, if_neg hend]
    · dsimp only
      rw [kinds_map, kinds_map]
      exact congrArg _ (ih _)
    · exact hcrlf

variable (pre : List Char)

theorem kinds_parseQuoted (h : Alike p q) (quote : Char) (style : ValueStyle) (c : Cursor) :
    kinds (q.parseQuoted quote style (c.behind pre)) =
      kinds ((p.parseQuoted quote style c).map fun r => (r.1, r.2.behind pre)) := by
  rw [parseQuoted, parseQuoted, map_bind]
  refine kinds_bind_congr (kinds_scanQuoted h quote style _ _ _ _ _ _) fun raw => ?_
  rw [map_map, kinds_map, kinds_map, Cursor.forward_behind, Cursor.forward_behind,
    kinds_expand h style _ (c.forward 1)]

theorem kinds_passDollar (h : Alike p q) {c c' : Cursor} (hrest : c'.rest = c.rest) :
    kinds (q.passDollar c') = kinds (p.passDollar c) := by
  rw [passDollar, passDollar, h.options, hrest]
  split
  · rfl
  split
  · rfl
  · case h_2 body hbody =>
    cases findSubstitutionEnd (body.takeWhile fun c => !isNewline c) with
    | none => rfl
    | some n =>
      dsimp only
      cases ('{' :: body.take n).findIdx? (· == '\x00') with
      | none => rfl
      | some offset => rfl
  · rfl

theorem kinds_scanUnquoted (h : Alike p q) (pass : ℕ) (escaped : Bool)
    {before before' : List Char} (cs : List Char) (hbefore : before'.head? = before.head?) :
    kinds (q.scanUnquoted pass escaped before' cs) =
      kinds (p.scanUnquoted pass escaped before cs) := by
  induction cs generalizing pass escaped before before' with
  | nil => rw [scanUnquoted, scanUnquoted]
  | cons a cs ih =>
    have hnext : ∀ pass escaped,
        kinds ((q.scanUnquoted pass escaped (a :: before') cs).map fun r => (a :: r.1, r.2)) =
          kinds ((p.scanUnquoted pass escaped (a :: before) cs).map fun r => (a :: r.1, r.2)) := by
      intro pass escaped
      have hhead : (a :: before').head? = (a :: before).head? := rfl
      rw [kinds_map, kinds_map, ih pass escaped hhead]
    cases pass with
    | succ pass =>
      rw [scanUnquoted, scanUnquoted]
      exact hnext pass escaped
    | zero =>
      rw [scanUnquoted, scanUnquoted, h.options, hbefore]
      dsimp only
      split
      · rfl
      split
      · rfl
      split
      · exact hnext 0 false
      split
      · exact hnext 0 true
      split
      · exact kinds_bind_congr (kinds_passDollar h rfl) fun n => hnext n false
      split
      · rfl
      split
      · rfl
      · exact hnext 0 false

/-- The character in front of a position is the same behind other text. -/
theorem head?_before_behind {c : Cursor} (hc : c.before ≠ []) :
    (c.behind pre).before.head? = c.before.head? :=
  List.head?_append_of_ne_nil c.before hc

theorem kinds_parseUnquoted (h : Alike p q) {c : Cursor} (hc : c.before ≠ []) :
    kinds (q.parseUnquoted (c.behind pre)) =
      kinds ((p.parseUnquoted c).map fun r => (r.1, r.2.1, r.2.2.behind pre)) := by
  rw [parseUnquoted, parseUnquoted, map_bind]
  refine kinds_bind_congr (kinds_scanUnquoted h 0 false c.rest (head?_before_behind pre hc))
    fun scanned => ?_
  dsimp only
  rw [map_map, kinds_map, kinds_map, kinds_expand h _ _ c]
  simp only [Cursor.forward_behind, Cursor.rest_behind, Cursor.skipComment_behind,
    Cursor.consumeNewline_behind, apply_ite (Cursor.behind pre)]

/-! ### What is read is passed -/

variable {c c' : Cursor}

/-- What a quoted value holds stands in front of its closing quote, and more text behind
it changes nothing. -/
theorem scanQuoted_eq_ok {quote : Char} {style : ValueStyle} {start : Cursor} {escaped : Bool}
    {before cs raw : List Char} (h : p.scanQuoted quote style start escaped before cs = .ok raw) :
    raw.length < cs.length ∧
      ∀ tail, p.scanQuoted quote style start escaped before (cs ++ tail) = .ok raw := by
  fun_induction scanQuoted p quote style start escaped before cs generalizing raw with
  | case1 => cases h
  | case2 escaped before cs hmultiline => cases h
  | case3 escaped before cs hmultiline ih =>
    obtain ⟨raw, hraw, rfl⟩ := map_eq_ok h
    obtain ⟨hlength, htail⟩ := ih hraw
    refine ⟨Nat.succ_lt_succ (Nat.succ_lt_succ hlength), fun tail => ?_⟩
    rw [List.cons_append, List.cons_append, scanQuoted, if_neg hmultiline, htail]
    rfl
  | case4 escaped before a cs hcrlf hnewline hmultiline => cases h
  | case5 escaped before a cs hcrlf hnewline hmultiline ih =>
    obtain ⟨raw, hraw, rfl⟩ := map_eq_ok h
    obtain ⟨hlength, htail⟩ := ih hraw
    refine ⟨Nat.succ_lt_succ hlength, fun tail => ?_⟩
    rw [List.cons_append, scanQuoted, if_pos hnewline, if_neg hmultiline, htail]
    · rfl
    · rintro cs' rfl heq
      cases cs with
      | nil => exact absurd hlength (Nat.not_lt_zero _)
      | cons b cs => exact hcrlf cs rfl (congrArg (· :: cs) (List.cons.inj heq).1)
  | case6 escaped before a cs hcrlf hnewline hnul => cases h
  | case7 escaped before a cs hcrlf hnewline hnul hend =>
    obtain rfl := Except.ok.inj h
    refine ⟨Nat.zero_lt_succ _, fun tail => ?_⟩
    rw [List.cons_append, scanQuoted, if_neg hnewline, if_neg hnul, if_pos hend]
    rintro cs' rfl -
    exact hnewline rfl
  | case8 escaped before a cs hcrlf hnewline hnul hend =>
    rename_i ih
    obtain ⟨raw, hraw, rfl⟩ := map_eq_ok h
    obtain ⟨hlength, htail⟩ := ih hraw
    refine ⟨Nat.succ_lt_succ hlength, fun tail => ?_⟩
    rw [List.cons_append, scanQuoted, if_neg hnewline, if_neg hnul, if_neg hend]
    · dsimp only
      rw [htail]
      rfl
    · rintro cs' rfl -
      exact hnewline rfl

theorem passes_of_parseQuoted {quote : Char} {style : ValueStyle} {value : List Char}
    (h : p.parseQuoted quote style c = .ok (value, c')) :
    c.Passes c' ∧ c'.rest.length < c.rest.length := by
  obtain ⟨raw, hraw, h⟩ := bind_eq_ok h
  obtain ⟨value, -, heq⟩ := map_eq_ok h
  obtain ⟨-, rfl⟩ := Prod.mk.inj heq
  have hlength := (scanQuoted_eq_ok hraw).1
  rw [Cursor.length_rest_forward] at hlength
  rw [Cursor.forward_forward]
  refine ⟨Cursor.passes_forward (by omega), ?_⟩
  rw [Cursor.length_rest_forward]
  omega

theorem length_of_scanUnquoted {pass : ℕ} {escaped : Bool} {before cs : List Char}
    {r : List Char × Bool} (h : p.scanUnquoted pass escaped before cs = .ok r) :
    r.1.length ≤ cs.length := by
  induction cs generalizing pass escaped before r with
  | nil =>
    rw [scanUnquoted] at h
    obtain rfl := Except.ok.inj h
    exact Nat.le_refl _
  | cons a cs ih =>
    have hnext : ∀ {pass escaped}, (p.scanUnquoted pass escaped (a :: before) cs).map
        (fun r => (a :: r.1, r.2)) = .ok r → r.1.length ≤ (a :: cs).length := by
      intro pass escaped h
      obtain ⟨r', hr', rfl⟩ := map_eq_ok h
      exact Nat.succ_le_succ (ih hr')
    have hstop : ∀ {ended : Bool},
        (.ok ([], ended) : Except ParseError (List Char × Bool)) = .ok r →
        r.1.length ≤ (a :: cs).length := by
      intro ended h
      rw [← Except.ok.inj h]
      exact Nat.zero_le _
    cases pass with
    | succ pass =>
      rw [scanUnquoted] at h
      exact hnext h
    | zero =>
      rw [scanUnquoted] at h
      dsimp only at h
      split at h
      · exact hstop h
      split at h
      · cases h
      split at h
      · exact hnext h
      split at h
      · exact hnext h
      split at h
      · obtain ⟨n, -, h⟩ := bind_eq_ok h
        exact hnext h
      split at h
      · exact hstop h
      split at h
      · exact hstop h
      · exact hnext h

/-- An unquoted value that does not end stops at a quote that opens a segment. -/
theorem head?_of_scanUnquoted {before cs : List Char} {ended : Bool}
    (h : p.scanUnquoted 0 false before cs = .ok ([], ended)) (hended : ended = false) :
    ∃ quote, cs.head? = some quote ∧ isQuote quote = true ∧
      quoteClosesOnLine quote false cs.tail = true := by
  have hcons : ∀ {a : Char} {x : Except ParseError (List Char × Bool)},
      x.map (fun r => (a :: r.1, r.2)) ≠ .ok ([], ended) := by
    intro a x hx
    obtain ⟨r, -, heq⟩ := map_eq_ok hx
    exact absurd (Prod.mk.inj heq).1 (List.cons_ne_nil _ _)
  subst hended
  cases cs with
  | nil =>
    rw [scanUnquoted] at h
    cases h
  | cons a cs =>
    rw [scanUnquoted] at h
    dsimp only at h
    split at h
    · cases h
    split at h
    · cases h
    rw [if_neg Bool.false_ne_true] at h
    split at h
    · exact absurd h hcons
    split at h
    · obtain ⟨n, -, h⟩ := bind_eq_ok h
      exact absurd h hcons
    split at h
    · case isTrue hquote =>
      obtain ⟨hquote, hcloses⟩ := Bool.and_eq_true_iff.1 hquote
      exact ⟨a, rfl, hquote, hcloses⟩
    split at h
    · cases h
    · exact absurd h hcons

theorem passes_of_parseUnquoted {value : List Char} {ended : Bool}
    (h : p.parseUnquoted c = .ok (value, ended, c')) :
    c.Passes c' ∧ (ended = false → (∃ quote, c.rest.head? = some quote ∧ isQuote quote = true ∧
      quoteClosesOnLine quote false c.rest.tail = true) ∨ c'.rest.length < c.rest.length) := by
  obtain ⟨⟨raw, ended'⟩, hraw, h⟩ := bind_eq_ok h
  obtain ⟨value, -, heq⟩ := map_eq_ok h
  obtain ⟨-, hrest⟩ := Prod.mk.inj heq
  obtain ⟨rfl, rfl⟩ := Prod.mk.inj hrest
  have hpass : c.Passes (c.forward raw.length) :=
    Cursor.passes_forward (length_of_scanUnquoted hraw)
  constructor
  · split
    · exact hpass
    · split
      · exact hpass.trans (Cursor.passes_skipComment _)
      · exact hpass.trans (Cursor.passes_consumeNewline _)
  · rintro rfl
    rw [if_pos (Bool.not_false)]
    cases raw with
    | nil => exact .inl (head?_of_scanUnquoted hraw rfl)
    | cons a raw =>
      have hlength := length_of_scanUnquoted hraw
      rw [List.length_cons] at hlength
      right
      rw [Cursor.length_rest_forward, List.length_cons]
      omega

/-- Whether a segment is quoted. -/
def opensSegment (firstSegment : Bool) (c : Cursor) : Option Char :=
  c.rest.head?.filter fun quote =>
    isQuote quote && (firstSegment || quoteClosesOnLine quote false c.rest.tail)

/-- One segment of a value, and whether it is the last. -/
def parseSegment (p : Parser) (firstSegment : Bool) (c : Cursor) :
    Except ParseError (List Char × Bool × Cursor) :=
  match opensSegment firstSegment c with
  | some quote =>
    let style := if quote == '\'' then ValueStyle.singleQuoted else ValueStyle.doubleQuoted
    (p.parseQuoted quote style c).map fun r => (r.1, false, r.2)
  | none => p.parseUnquoted c

theorem parseSegments_succ (p : Parser) (fuel : ℕ) (firstSegment : Bool) (c : Cursor) :
    p.parseSegments (fuel + 1) firstSegment c = (p.parseSegment firstSegment c).bind fun r =>
      if r.2.1 then .ok (r.1, r.2.2)
      else (p.parseSegments fuel false r.2.2).map fun r' => (r.1 ++ r'.1, r'.2) := by
  rw [parseSegments, parseSegment]
  show (match opensSegment firstSegment c with | some _ => _ | none => _) = _
  cases opensSegment firstSegment c with
  | none => rfl
  | some quote =>
    dsimp only
    cases p.parseQuoted quote _ c with
    | error e => rfl
    | ok r => rfl

theorem passes_of_parseSegment {firstSegment ended : Bool} {value : List Char}
    (h : p.parseSegment firstSegment c = .ok (value, ended, c')) :
    c.Passes c' ∧ (ended = false → c'.rest.length < c.rest.length) := by
  rw [parseSegment] at h
  cases hopens : opensSegment firstSegment c with
  | some quote =>
    rw [hopens] at h
    obtain ⟨r, hr, heq⟩ := map_eq_ok h
    obtain ⟨-, heq⟩ := Prod.mk.inj heq
    obtain ⟨-, rfl⟩ := Prod.mk.inj heq
    obtain ⟨hpass, hlength⟩ := passes_of_parseQuoted hr
    exact ⟨hpass, fun _ => hlength⟩
  | none =>
    rw [hopens] at h
    obtain ⟨hpass, hlength⟩ := passes_of_parseUnquoted h
    refine ⟨hpass, fun hended => (hlength hended).resolve_left ?_⟩
    rintro ⟨quote, hhead, hquote, hcloses⟩
    rw [opensSegment, hhead, Option.filter_some, hquote, hcloses, Bool.or_true, Bool.and_true,
      if_pos rfl] at hopens
    exact nomatch hopens

/-- More rounds than there are characters left read the same. -/
theorem parseSegments_fuel {fuel fuel' : ℕ} {firstSegment : Bool} {c : Cursor}
    (hfuel : c.rest.length < fuel) (hfuel' : c.rest.length < fuel') :
    p.parseSegments fuel firstSegment c = p.parseSegments fuel' firstSegment c := by
  induction fuel generalizing fuel' firstSegment c with
  | zero => exact absurd hfuel (Nat.not_lt_zero _)
  | succ fuel ih =>
    cases fuel' with
    | zero => exact absurd hfuel' (Nat.not_lt_zero _)
    | succ fuel' =>
      rw [parseSegments_succ, parseSegments_succ]
      cases hsegment : p.parseSegment firstSegment c with
      | error e => rfl
      | ok r =>
        obtain ⟨value, ended, c'⟩ := r
        show (if ended then _ else _) = (if ended then _ else _)
        cases ended with
        | true => rfl
        | false =>
          have hlength := (passes_of_parseSegment hsegment).2 rfl
          have hrest := @ih fuel' false c' (by omega) (by omega)
          rw [if_neg Bool.false_ne_true, if_neg Bool.false_ne_true, hrest]

theorem passes_of_parseSegments {fuel : ℕ} {firstSegment : Bool} {value : List Char}
    (h : p.parseSegments fuel firstSegment c = .ok (value, c')) : c.Passes c' := by
  induction fuel generalizing firstSegment value c with
  | zero =>
    obtain ⟨-, rfl⟩ := Prod.mk.inj (Except.ok.inj h)
    exact .refl c
  | succ fuel ih =>
    rw [parseSegments_succ] at h
    obtain ⟨⟨segment, ended, c₁⟩, hsegment, h⟩ := bind_eq_ok h
    have hpass := (passes_of_parseSegment hsegment).1
    cases ended with
    | true =>
      obtain ⟨-, rfl⟩ := Prod.mk.inj (Except.ok.inj h)
      exact hpass
    | false =>
      obtain ⟨r, hr, heq⟩ := map_eq_ok h
      obtain ⟨-, rfl⟩ := Prod.mk.inj heq
      exact hpass.trans (ih hr)

theorem length_of_scanKey {before cs key : List Char} (h : scanKey before cs = .ok key) :
    key.length ≤ cs.length := by
  induction cs generalizing before key with
  | nil =>
    obtain rfl := Except.ok.inj h
    exact Nat.le_refl _
  | cons a cs ih =>
    rw [scanKey] at h
    split at h
    · rw [← Except.ok.inj h]
      exact Nat.zero_le _
    split at h
    · rw [← Except.ok.inj h]
      exact Nat.zero_le _
    split at h
    · cases h
    · obtain ⟨key, hkey, rfl⟩ := map_eq_ok h
      exact Nat.succ_le_succ (ih hkey)

theorem before_forward_ne_nil {a : Char} (h : c.rest.head? = some a) :
    (c.forward 1).before ≠ [] := by
  obtain ⟨before, rest⟩ := c
  cases rest with
  | nil => exact nomatch h
  | cons b rest => exact List.cons_ne_nil _ _

theorem passes_of_parseAssignment {entry : String × String}
    (h : p.parseAssignment = .ok (entry, c')) :
    p.cursor.Passes c' ∧ c'.rest.length < p.cursor.rest.length := by
  obtain ⟨key, hkey, h⟩ := bind_eq_ok h
  split at h
  · exact nomatch h
  dsimp only at h
  split at h
  · exact nomatch h
  · case isFalse hkey hequals =>
    have hequals := not_not.1 hequals
    have hstart := Cursor.passes_consumeExportPrefix p.cursor
    have hpass := (hstart.trans (Cursor.passes_forward (length_of_scanKey ‹_›))).trans
      (Cursor.passes_skipHorizontalWhitespace _)
    have hpos := List.length_pos_of_mem (List.mem_of_mem_head? hequals)
    have hsign : Cursor.Passes _ _ := hpass.trans (Cursor.passes_forward hpos)
    have hlength := hpass.length_le
    have hvalue := hsign.trans (Cursor.passes_skipHorizontalWhitespace _)
    have hstrict : ∀ {c' : Cursor}, Cursor.Passes _ c' →
        p.cursor.Passes c' ∧ c'.rest.length < p.cursor.rest.length := fun {c'} hc' => by
      refine ⟨hvalue.trans hc', ?_⟩
      have hle := ((Cursor.passes_skipHorizontalWhitespace _).trans hc').length_le
      rw [Cursor.length_rest_forward] at hle
      exact Nat.lt_of_le_of_lt hle (Nat.lt_of_lt_of_le (Nat.sub_lt hpos Nat.one_pos) hlength)
    split at h
    · obtain ⟨-, rfl⟩ := Prod.mk.inj (Except.ok.inj h)
      exact hstrict (Cursor.passes_consumeNewline _)
    split at h
    · obtain ⟨-, rfl⟩ := Prod.mk.inj (Except.ok.inj h)
      exact hstrict (Cursor.passes_consumeNewline _)
    split at h
    · obtain ⟨-, rfl⟩ := Prod.mk.inj (Except.ok.inj h)
      exact hstrict (Cursor.passes_skipComment _)
    · obtain ⟨r, hr, heq⟩ := map_eq_ok h
      obtain ⟨-, rfl⟩ := Prod.mk.inj heq
      exact hstrict (passes_of_parseSegments hr)

/-- What a round of the loop of `next_entry` finds. -/
inductive Round where
  | ends
  | skips (c : Cursor)
  | reads

/-- The round at a position behind white space. -/
def roundAt (c : Cursor) : Round :=
  if c.rest.isEmpty then .ends
  else match c.consumeNewline? with
  | some c => .skips c
  | none => if c.rest.head? = some '#' then .skips c.skipComment else .reads

/-- The parser at another position. -/
def moveTo (p : Parser) (c : Cursor) : Parser := { p with cursor := c }

/-- The result of reading an assignment. -/
def afterAssignment (p : Parser) :
    Except ParseError ((String × String) × Cursor) →
      Option (Except ParseError (String × String)) × Parser
  | .ok ((key, value), cursor) =>
    (some (.ok (key, value)), { p with
      cursor
      parsedVariables := Function.update p.parsedVariables key (some value) })
  | .error e => (some (.error e), { p with failed := true })

theorem nextEntryLoop_succ (p : Parser) (fuel : ℕ) :
    nextEntryLoop (fuel + 1) p =
      match roundAt p.cursor.skipHorizontalWhitespace with
      | .ends => (none, p.moveTo p.cursor.skipHorizontalWhitespace)
      | .skips c => nextEntryLoop fuel (p.moveTo c)
      | .reads => (p.moveTo p.cursor.skipHorizontalWhitespace).afterAssignment
          (p.moveTo p.cursor.skipHorizontalWhitespace).parseAssignment := by
  rw [nextEntryLoop, roundAt]
  dsimp only
  split
  · rfl
  · cases p.cursor.skipHorizontalWhitespace.consumeNewline? with
    | some c => rfl
    | none =>
      dsimp only
      split
      · rfl
      · show _ = afterAssignment _ (parseAssignment { p with cursor := _ })
        cases parseAssignment { p with cursor := p.cursor.skipHorizontalWhitespace } with
        | ok r => rfl
        | error e => rfl

/-- A round takes at least a character. -/
theorem passes_of_roundAt (h : roundAt c = .skips c') :
    c.Passes c' ∧ c'.rest.length < c.rest.length := by
  rw [roundAt] at h
  split at h
  · cases h
  cases hnewline : c.consumeNewline? with
  | some c₁ =>
    rw [hnewline] at h
    obtain rfl := Round.skips.inj h
    exact Cursor.consumeNewline?_eq_some hnewline
  | none =>
    rw [hnewline] at h
    dsimp only at h
    split at h
    · case isTrue hsign =>
      obtain rfl := Round.skips.inj h
      refine ⟨Cursor.passes_skipComment c, ?_⟩
      obtain ⟨before, rest⟩ := c
      obtain ⟨rest, rfl⟩ : ∃ rest', rest = '#' :: rest' := by
        cases rest with
        | nil => cases hsign
        | cons a rest => exact ⟨rest, congrArg (· :: rest) (Option.some.inj hsign)⟩
      refine Nat.lt_of_le_of_lt (Cursor.passes_consumeNewline _).length_le ?_
      rw [Cursor.skipWhile, List.dropWhile_cons_of_pos (by decide)]
      exact Nat.lt_succ_of_le (List.dropWhile_suffix _).length_le
    · cases h

/-- More rounds than there are characters left read the same. -/
theorem nextEntryLoop_fuel {fuel fuel' : ℕ} {p : Parser} (hfuel : p.cursor.rest.length < fuel)
    (hfuel' : p.cursor.rest.length < fuel') : nextEntryLoop fuel p = nextEntryLoop fuel' p := by
  induction fuel generalizing fuel' p with
  | zero => exact absurd hfuel (Nat.not_lt_zero _)
  | succ fuel ih =>
    cases fuel' with
    | zero => exact absurd hfuel' (Nat.not_lt_zero _)
    | succ fuel' =>
      rw [nextEntryLoop_succ, nextEntryLoop_succ]
      cases hround : roundAt p.cursor.skipHorizontalWhitespace with
      | ends => rfl
      | reads => rfl
      | skips c =>
        have hlength := (passes_of_roundAt hround).2
        have hspace := (Cursor.passes_skipHorizontalWhitespace p.cursor).length_le
        have hlt : c.rest.length < p.cursor.rest.length := Nat.lt_of_lt_of_le hlength hspace
        exact @ih fuel' (p.moveTo c) (Nat.lt_of_lt_of_le hlt (Nat.le_of_lt_succ hfuel))
          (Nat.lt_of_lt_of_le hlt (Nat.le_of_lt_succ hfuel'))

/-- Where the next assignment starts. -/
def nextAssignment : ℕ → Cursor → Option Cursor
  | 0, _ => none
  | fuel + 1, c =>
    match roundAt c.skipHorizontalWhitespace with
    | .ends => none
    | .skips c => nextAssignment fuel c
    | .reads => some c.skipHorizontalWhitespace

theorem passes_of_nextAssignment {fuel : ℕ} (h : nextAssignment fuel c = some c') :
    c.Passes c' := by
  induction fuel generalizing c with
  | zero => cases h
  | succ fuel ih =>
    have hspace := Cursor.passes_skipHorizontalWhitespace c
    rw [nextAssignment] at h
    cases hround : roundAt c.skipHorizontalWhitespace with
    | ends =>
      rw [hround] at h
      cases h
    | reads =>
      rw [hround] at h
      rw [← Option.some.inj h]
      exact hspace
    | skips c₁ =>
      rw [hround] at h
      exact (hspace.trans (passes_of_roundAt hround).1).trans (ih h)

theorem nextEntryLoop_of_none {fuel : ℕ} (h : nextAssignment fuel p.cursor = none) :
    (nextEntryLoop fuel p).1 = none := by
  induction fuel generalizing p with
  | zero => rfl
  | succ fuel ih =>
    rw [nextAssignment] at h
    rw [nextEntryLoop_succ]
    cases hround : roundAt p.cursor.skipHorizontalWhitespace with
    | ends => rfl
    | reads =>
      rw [hround] at h
      cases h
    | skips c =>
      rw [hround] at h
      exact ih h

theorem nextEntryLoop_of_some {fuel : ℕ} (h : nextAssignment fuel p.cursor = some c) :
    nextEntryLoop fuel p = (p.moveTo c).afterAssignment (p.moveTo c).parseAssignment := by
  induction fuel generalizing p with
  | zero => cases h
  | succ fuel ih =>
    rw [nextAssignment] at h
    rw [nextEntryLoop_succ]
    cases hround : roundAt p.cursor.skipHorizontalWhitespace with
    | ends =>
      rw [hround] at h
      cases h
    | reads =>
      rw [hround] at h
      rw [← Option.some.inj h]
    | skips c₁ =>
      rw [hround] at h
      exact ih h

/-- An entry is the assignment at a place further on. -/
theorem exists_assignment {fuel : ℕ} {p p' : Parser} {entry : Except ParseError (String × String)}
    (h : nextEntryLoop fuel p = (some entry, p')) :
    ∃ c : Cursor, c.rest.length ≤ p.cursor.rest.length ∧
      (p.moveTo c).afterAssignment (p.moveTo c).parseAssignment = (some entry, p') := by
  cases hfound : nextAssignment fuel p.cursor with
  | none =>
    have hnone := nextEntryLoop_of_none hfound
    rw [h] at hnone
    cases hnone
  | some c =>
    rw [nextEntryLoop_of_some hfound] at h
    exact ⟨c, (passes_of_nextAssignment hfound).length_le, h⟩

/-- An entry has characters. -/
theorem length_of_nextEntryLoop {fuel : ℕ} {p p' : Parser} {entry : String × String}
    (h : nextEntryLoop fuel p = (some (.ok entry), p')) :
    p'.cursor.rest.length < p.cursor.rest.length := by
  obtain ⟨c, hlength, h⟩ := exists_assignment h
  cases hassign : (p.moveTo c).parseAssignment with
  | error e =>
    rw [hassign] at h
    cases Option.some.inj (Prod.mk.inj h).1
  | ok r =>
    rw [hassign] at h
    rw [← (Prod.mk.inj h).2]
    exact Nat.lt_of_lt_of_le (passes_of_parseAssignment hassign).2 hlength

/-! ### A text behind other text -/

theorem kinds_parseSegment (h : Alike p q) (firstSegment : Bool) {c : Cursor}
    (hc : c.before ≠ []) :
    kinds (q.parseSegment firstSegment (c.behind pre)) =
      kinds ((p.parseSegment firstSegment c).map fun r => (r.1, r.2.1, r.2.2.behind pre)) := by
  rw [parseSegment, parseSegment, opensSegment, opensSegment, Cursor.rest_behind]
  cases c.rest.head?.filter fun quote =>
      isQuote quote && (firstSegment || quoteClosesOnLine quote false c.rest.tail) with
  | none => exact kinds_parseUnquoted pre h hc
  | some quote =>
    dsimp only
    rw [kinds_map, kinds_parseQuoted pre h, ← kinds_map, map_map, map_map]

theorem kinds_parseSegments (h : Alike p q) (fuel : ℕ) (firstSegment : Bool) {c : Cursor}
    (hc : c.before ≠ []) :
    kinds (q.parseSegments fuel firstSegment (c.behind pre)) =
      kinds ((p.parseSegments fuel firstSegment c).map fun r => (r.1, r.2.behind pre)) := by
  induction fuel generalizing firstSegment c with
  | zero => rfl
  | succ fuel ih =>
    have hsegment := kinds_parseSegment pre h firstSegment hc
    rw [parseSegments_succ, parseSegments_succ, map_bind, kinds_bind, hsegment, kinds_bind,
      kinds_map]
    cases hread : p.parseSegment firstSegment c with
    | error e => rfl
    | ok r =>
      obtain ⟨value, ended, c'⟩ := r
      have hc' := (passes_of_parseSegment hread).1.before_ne_nil hc
      show kinds (if ended then _ else _) = kinds (Except.map _ (if ended then _ else _))
      cases ended with
      | true => rfl
      | false =>
        rw [if_neg Bool.false_ne_true, if_neg Bool.false_ne_true, kinds_map, ih false hc',
          ← kinds_map, map_map, map_map]

theorem kinds_scanKey (before before' cs : List Char) :
    kinds (scanKey before' cs) = kinds (scanKey before cs) := by
  induction cs generalizing before before' with
  | nil => rfl
  | cons a cs ih =>
    rw [scanKey, scanKey]
    split
    · rfl
    split
    · rfl
    split
    · rfl
    · rw [kinds_map, kinds_map, ih]

theorem kinds_parseAssignment (h : Alike p q) (hc : q.cursor = p.cursor.behind pre) :
    kinds q.parseAssignment =
      kinds (p.parseAssignment.map fun r => (r.1, r.2.behind pre)) := by
  rw [parseAssignment, parseAssignment, map_bind, hc, Cursor.consumeExportPrefix_behind]
  refine kinds_bind_congr (kinds_scanKey _ _ _) fun key => ?_
  split
  · rfl
  dsimp only
  rw [Cursor.forward_behind, Cursor.skipHorizontalWhitespace_behind, Cursor.rest_behind]
  split
  · rfl
  · case isFalse hequals =>
    have hbefore := (Cursor.passes_skipHorizontalWhitespace _).before_ne_nil
      (before_forward_ne_nil (not_not.1 hequals))
    rw [Cursor.forward_behind, Cursor.skipHorizontalWhitespace_behind, Cursor.rest_behind,
      Cursor.consumeNewline_behind, Cursor.skipComment_behind]
    split
    · rfl
    split
    · rfl
    split
    · rfl
    · rw [parseValue, kinds_map, kinds_parseSegments pre h _ _ hbefore, parseValue, ← kinds_map,
        map_map, map_map]
      rfl

/-- A parser in a text behind other text. -/
def behind (pre : List Char) (p : Parser) : Parser := p.moveTo (p.cursor.behind pre)

theorem roundAt_behind (c : Cursor) :
    roundAt (c.behind pre) =
      match roundAt c with
      | .ends => .ends
      | .skips c' => .skips (c'.behind pre)
      | .reads => .reads := by
  rw [roundAt, roundAt, Cursor.rest_behind, Cursor.consumeNewline?_behind]
  split
  · rfl
  cases c.consumeNewline? with
  | some c' => rfl
  | none =>
    dsimp only [Option.map_none]
    split
    · rw [Cursor.skipComment_behind]
    · rfl

/-- What is in front of the cursor does not change the next entry. -/
theorem kinds_nextEntryLoop (fuel : ℕ) (p : Parser) :
    (nextEntryLoop fuel (p.behind pre)).1.map kinds = (nextEntryLoop fuel p).1.map kinds ∧
      (nextEntryLoop fuel (p.behind pre)).2 = (nextEntryLoop fuel p).2.behind pre := by
  induction fuel generalizing p with
  | zero => exact ⟨rfl, rfl⟩
  | succ fuel ih =>
    have hmove : ∀ c : Cursor, (p.behind pre).moveTo (c.behind pre) = (p.moveTo c).behind pre :=
      fun c => rfl
    have hspace : (p.behind pre).cursor.skipHorizontalWhitespace =
        p.cursor.skipHorizontalWhitespace.behind pre :=
      Cursor.skipHorizontalWhitespace_behind pre p.cursor
    rw [nextEntryLoop_succ, nextEntryLoop_succ, hspace, roundAt_behind, hmove]
    cases roundAt p.cursor.skipHorizontalWhitespace with
    | ends => exact ⟨rfl, rfl⟩
    | skips c => exact ih (p.moveTo c)
    | reads =>
      dsimp only
      have hread := kinds_parseAssignment (p := p.moveTo p.cursor.skipHorizontalWhitespace)
        (q := (p.moveTo p.cursor.skipHorizontalWhitespace).behind pre) pre ⟨rfl, fun _ => rfl⟩ rfl
      cases hp : (p.moveTo p.cursor.skipHorizontalWhitespace).parseAssignment with
      | error e =>
        rw [hp] at hread
        cases hq : ((p.moveTo p.cursor.skipHorizontalWhitespace).behind pre).parseAssignment with
        | ok r =>
          rw [hq] at hread
          exact nomatch hread
        | error e' =>
          rw [hq] at hread
          exact ⟨congrArg (some ∘ Except.error) (Except.error.inj hread), rfl⟩
      | ok r =>
        obtain ⟨⟨key, value⟩, c⟩ := r
        rw [hp] at hread
        rw [kinds_eq_ok.1 hread]
        exact ⟨rfl, rfl⟩

theorem kinds_entries (fuel : ℕ) (p : Parser) :
    (entries fuel (p.behind pre)).map kinds = (entries fuel p).map kinds := by
  induction fuel generalizing p with
  | zero => rfl
  | succ fuel ih =>
    have hnext : (p.behind pre).nextEntry.1.map kinds = p.nextEntry.1.map kinds ∧
        (p.behind pre).nextEntry.2 = p.nextEntry.2.behind pre := by
      rw [nextEntry, nextEntry]
      have hfailed : (p.behind pre).failed = p.failed := rfl
      rw [hfailed]
      split
      · exact ⟨rfl, rfl⟩
      · exact kinds_nextEntryLoop pre _ p
    rw [entries, entries]
    obtain ⟨hfound, hrest⟩ := hnext
    cases hp : p.nextEntry with
    | mk o p' =>
      cases hq : (p.behind pre).nextEntry with
      | mk o' q' =>
        rw [hp, hq] at hfound hrest
        dsimp only at hfound hrest
        subst hrest
        cases o with
        | none =>
          obtain rfl := Option.map_eq_none_iff.1 hfound
          rfl
        | some entry =>
          obtain ⟨entry', rfl, hentry⟩ := Option.map_eq_some_iff.1 hfound
          rw [List.map_cons, List.map_cons, hentry, ih]

end Parser

end Dotenv
end Mise
