/-
# Dotenv text is read line by line

`crates/mise-dotenv/src/parse.rs`: what the parser reads from a text it reads to
its end does not change when more lines follow, and then it reads those lines as
it reads them alone (`parse_append_line`).

The look-ahead scans stop at the end of the line, where the scanners stop as well;
only a value's opening quote runs over lines, and it has been closed when the text
is read to its end.
-/

import Mathlib.Data.List.Infix
import Mise.Dotenv.Position

namespace Mise
namespace Dotenv

open Lib

/-! ### A text in front of more lines -/

/-- A position in a text that more lines follow. -/
def Cursor.followed (r : List Char) (c : Cursor) : Cursor := ⟨c.before, c.rest ++ '\n' :: r⟩

/-- A position, and where the same steps lead in the text that more lines follow:
the line end in front of these may have been passed with the end of the text. -/
def Cursor.Meets (r : List Char) (c c' : Cursor) : Prop :=
  c' = c.followed r ∨ c.rest = [] ∧ c' = (c.followed r).forward 1

namespace Cursor

variable {r : List Char} {c c' : Cursor}

theorem forward_followed {n : ℕ} (h : n ≤ c.rest.length) :
    (c.followed r).forward n = (c.forward n).followed r := by
  rw [forward, followed, forward, followed, List.take_append_of_le_length h,
    List.drop_append_of_le_length h]

theorem skipWhile_followed {q : Char → Bool} (hq : q '\n' = false) (c : Cursor) :
    (c.followed r).skipWhile q = (c.skipWhile q).followed r := by
  obtain ⟨before, rest⟩ := c
  have hsplit : (rest ++ '\n' :: r).takeWhile q = rest.takeWhile q ∧
      (rest ++ '\n' :: r).dropWhile q = rest.dropWhile q ++ '\n' :: r := by
    induction rest with
    | nil =>
      rw [List.nil_append, List.takeWhile_cons, List.dropWhile_cons, hq]
      exact ⟨rfl, rfl⟩
    | cons a rest ih =>
      rw [List.cons_append, List.takeWhile_cons, List.dropWhile_cons, List.takeWhile_cons,
        List.dropWhile_cons]
      cases q a with
      | true => exact ⟨congrArg (a :: ·) ih.1, ih.2⟩
      | false => exact ⟨rfl, rfl⟩
  rw [skipWhile, followed, skipWhile, followed]
  dsimp only
  rw [hsplit.1, hsplit.2]

theorem skipHorizontalWhitespace_followed (c : Cursor) :
    (c.followed r).skipHorizontalWhitespace = c.skipHorizontalWhitespace.followed r :=
  skipWhile_followed rfl c

/-- Behind a line end, the text goes on as it does alone. -/
theorem meets_consumeNewline (c : Cursor) :
    c.consumeNewline.Meets r (c.followed r).consumeNewline := by
  obtain ⟨before, rest⟩ := c
  rcases rest with _ | ⟨a, rest⟩
  · exact .inr ⟨rfl, rfl⟩
  by_cases hcr : a = '\r'
  · subst hcr
    rcases rest with _ | ⟨b, rest⟩
    · exact .inr ⟨rfl, rfl⟩
    by_cases hlf : b = '\n'
    · subst hlf
      exact .inl rfl
    · have hnewline : ∀ rest : List Char, (Cursor.mk before ('\r' :: b :: rest)).consumeNewline =
          (Cursor.mk before ('\r' :: b :: rest)).forward 1 := by
        intro rest
        rw [consumeNewline, consumeNewline?.eq_def]
        dsimp only
        split
        · case h_1 heq => exact absurd (List.cons.inj (List.cons.inj heq).2).1 hlf
        · rfl
        · rfl
        · case h_4 hcr' hlf' => exact absurd rfl (hcr' _)
      rw [followed]
      dsimp only
      rw [List.cons_append, List.cons_append, hnewline, hnewline]
      exact .inl rfl
  by_cases hlf : a = '\n'
  · subst hlf
    exact .inl rfl
  · have hnewline : ∀ rest : List Char, (Cursor.mk before (a :: rest)).consumeNewline =
        Cursor.mk before (a :: rest) := by
      intro rest
      rw [consumeNewline, consumeNewline?.eq_def]
      dsimp only
      split
      · case h_1 heq => exact absurd (List.cons.inj heq).1 hcr
      · case h_2 heq => exact absurd (List.cons.inj heq).1 hcr
      · case h_3 heq => exact absurd (List.cons.inj heq).1 hlf
      · rfl
    rw [followed]
    dsimp only
    rw [List.cons_append, hnewline, hnewline]
    exact .inl rfl

theorem meets_skipComment (c : Cursor) : c.skipComment.Meets r (c.followed r).skipComment := by
  rw [skipComment, skipComment, skipWhile_followed rfl]
  exact meets_consumeNewline _

/-- `export` is passed where a white space character follows it. -/
theorem consumeExportPrefix_eq (c : Cursor) : c.consumeExportPrefix =
    if c.rest[6]?.any isHorizontalWhitespace = true ∧ "export".toList <+: c.rest
    then (c.forward 6).skipHorizontalWhitespace else c := by
  have hstart : "export".toList = ['e', 'x', 'p', 'o', 'r', 't'] := rfl
  obtain ⟨before, rest⟩ := c
  rw [consumeExportPrefix.eq_def]
  dsimp only
  split
  · case h_1 next rest' =>
    have hprefix : "export".toList <+: 'e' :: 'x' :: 'p' :: 'o' :: 'r' :: 't' :: next :: rest' :=
      ⟨next :: rest', rfl⟩
    refine ite_congr (propext ⟨fun h => ⟨h, hprefix⟩, ?_⟩) (fun _ => rfl) fun _ => rfl
    rintro ⟨h, -⟩
    exact h
  · case h_2 hno =>
    refine (if_neg ?_).symm
    rintro ⟨hnext, rest', rfl⟩
    cases rest' with
    | nil => exact Bool.false_ne_true hnext
    | cons a rest' => exact hno a rest' rfl

theorem consumeExportPrefix_followed (c : Cursor) :
    (c.followed r).consumeExportPrefix = c.consumeExportPrefix.followed r := by
  obtain ⟨before, rest⟩ := c
  rw [consumeExportPrefix_eq, consumeExportPrefix_eq]
  by_cases hlength : 6 < rest.length
  · have hget : (rest ++ '\n' :: r)[6]? = rest[6]? := List.getElem?_append_left hlength
    have hprefix : "export".toList <+: rest ++ '\n' :: r ↔ "export".toList <+: rest :=
      List.isPrefix_append_of_length (Nat.le_of_lt hlength)
    simp only [followed, hget, hprefix]
    split
    · have hforward : (followed r ⟨before, rest⟩).forward 6 =
          ((Cursor.mk before rest).forward 6).followed r :=
        forward_followed (c := ⟨before, rest⟩) (Nat.le_of_lt hlength)
      exact (congrArg skipHorizontalWhitespace hforward).trans
        (skipHorizontalWhitespace_followed _)
    · rfl
  · -- the line end is no part of the prefix, and no white space behind it
    have hnone : rest[6]? = none := List.getElem?_eq_none (Nat.le_of_not_lt hlength)
    have hleft : ¬ (rest[6]?.any isHorizontalWhitespace = true ∧
        "export".toList <+: rest) := by
      rintro ⟨hspace, -⟩
      rw [hnone] at hspace
      exact Bool.false_ne_true hspace
    have hright : ¬ ((rest ++ '\n' :: r)[6]?.any isHorizontalWhitespace = true ∧
        "export".toList <+: rest ++ '\n' :: r) := by
      rintro ⟨hspace, rest', hprefix⟩
      have hend : (rest ++ '\n' :: r)[rest.length]? = some '\n' := by
        rw [List.getElem?_append_right (Nat.le_refl _), Nat.sub_self]
        rfl
      rcases Nat.lt_or_eq_of_le (Nat.le_of_not_lt hlength) with hlt | heq
      · rw [← hprefix, List.getElem?_append_left hlt] at hend
        exact absurd (List.mem_of_getElem? hend) (by decide)
      · rw [heq] at hend
        rw [hend] at hspace
        exact absurd hspace (by decide)
    exact (if_neg hright).trans (congrArg (followed r) (if_neg hleft).symm)

end Cursor

namespace Parser

variable {p : Parser} {r : List Char} {c c' : Cursor}

/-- The look-ahead for a closing quote stops at the line's end. -/
theorem quoteClosesOnLine_followed (quote : Char) (escaped : Bool) (cs : List Char) :
    quoteClosesOnLine quote escaped (cs ++ '\n' :: r) = quoteClosesOnLine quote escaped cs := by
  induction cs generalizing escaped with
  | nil => rfl
  | cons a cs ih => rw [List.cons_append, quoteClosesOnLine, quoteClosesOnLine, ih, ih]

theorem takeWhile_line_followed (cs : List Char) :
    (cs ++ '\n' :: r).takeWhile (fun a => !isNewline a) = cs.takeWhile fun a => !isNewline a := by
  induction cs with
  | nil => rfl
  | cons a cs ih => rw [List.cons_append, List.takeWhile_cons, List.takeWhile_cons, ih]

/-- A substitution ends within the text that is looked at. -/
theorem lt_of_substitutionEnd {pass depth n : ℕ} {cs : List Char}
    (h : substitutionEnd pass depth cs = some n) : n < cs.length := by
  fun_induction substitutionEnd pass depth cs generalizing n with
  | case1 => exact nomatch h
  | case5 =>
    obtain rfl := Option.some.inj h
    exact Nat.zero_lt_succ _
  | case2 _ _ _ _ ih | case3 _ _ _ _ ih | case4 _ _ _ _ _ ih | case6 _ _ _ _ _ _ _ ih
  | case7 _ _ _ _ _ _ ih =>
    obtain ⟨m, hm, rfl⟩ := Option.map_eq_some_iff.1 h
    exact Nat.succ_lt_succ (ih hm)

/-- What is passed behind a dollar stands on its line. -/
theorem passDollar_followed {n : ℕ} (h : p.passDollar c = .ok n) :
    n ≤ c.rest.length ∧ p.passDollar (c.followed r) = .ok n := by
  obtain ⟨before, rest⟩ := c
  rw [passDollar] at h ⊢
  split at h
  · case isTrue hoff =>
    obtain rfl := Except.ok.inj h
    exact ⟨Nat.zero_le _, if_pos hoff⟩
  case isFalse hoff =>
  rw [if_neg hoff]
  dsimp only at h
  split at h
  · case h_1 rest =>
    obtain rfl := Except.ok.inj h
    exact ⟨Nat.succ_le_succ (Nat.zero_le _), rfl⟩
  · case h_2 body =>
    rw [Cursor.followed]
    simp only [List.cons_append]
    rw [takeWhile_line_followed]
    cases hfind : findSubstitutionEnd (body.takeWhile fun a => !isNewline a) with
    | none =>
      rw [hfind] at h
      obtain rfl := Except.ok.inj h
      exact ⟨Nat.zero_le _, rfl⟩
    | some m =>
      have hline : (body.takeWhile fun a => !isNewline a).length ≤ body.length :=
        (List.takeWhile_prefix _).length_le
      have hlength : m < body.length := Nat.lt_of_lt_of_le (lt_of_substitutionEnd hfind) hline
      rw [hfind] at h
      dsimp only at h ⊢
      rw [List.take_append_of_le_length (Nat.le_of_lt hlength)]
      cases hnul : ('{' :: body.take m).findIdx? (· == '\x00') with
      | some offset =>
        rw [hnul] at h
        cases h
      | none =>
        rw [hnul] at h
        obtain rfl := Except.ok.inj h
        exact ⟨Nat.succ_le_succ hlength, rfl⟩
  · case h_3 hdollar hbrace =>
    obtain rfl := Except.ok.inj h
    refine ⟨Nat.zero_le _, ?_⟩
    rw [Cursor.followed]
    cases rest with
    | nil => rfl
    | cons a rest =>
      dsimp only
      split
      · case h_1 heq => exact absurd (congrArg (· :: rest) (List.cons.inj heq).1) (hdollar _)
      · case h_2 heq => exact absurd (congrArg (· :: rest) (List.cons.inj heq).1) (hbrace _)
      · rfl

/-- An unquoted value ends where its line does. -/
theorem scanUnquoted_followed {pass : ℕ} {escaped : Bool} {before cs : List Char}
    {raw : List Char × Bool} (hpass : pass ≤ cs.length)
    (h : p.scanUnquoted pass escaped before cs = .ok raw) :
    p.scanUnquoted pass escaped before (cs ++ '\n' :: r) = .ok raw := by
  induction cs generalizing pass escaped before raw with
  | nil =>
    obtain rfl := Nat.eq_zero_of_le_zero hpass
    rw [scanUnquoted] at h
    rw [List.nil_append, scanUnquoted, ← h]
    rfl
  | cons a cs ih =>
    have hnext : ∀ {pass escaped}, pass ≤ cs.length →
        (p.scanUnquoted pass escaped (a :: before) cs).map (fun r => (a :: r.1, r.2)) = .ok raw →
        (p.scanUnquoted pass escaped (a :: before) (cs ++ '\n' :: r)).map
          (fun r => (a :: r.1, r.2)) = .ok raw := by
      intro pass escaped hpass h
      obtain ⟨raw, hraw, rfl⟩ := map_eq_ok h
      rw [ih hpass hraw]
      rfl
    cases pass with
    | succ pass =>
      rw [scanUnquoted] at h
      rw [List.cons_append, scanUnquoted]
      exact hnext (Nat.le_of_succ_le_succ hpass) h
    | zero =>
      rw [scanUnquoted] at h
      rw [List.cons_append, scanUnquoted, quoteClosesOnLine_followed]
      dsimp only at h ⊢
      split at h
      · case isTrue hnewline => exact (if_pos hnewline).trans h
      case isFalse hnewline =>
      rw [if_neg hnewline]
      split at h
      · cases h
      case isFalse hnul =>
      rw [if_neg hnul]
      split at h
      · case isTrue hescaped => exact (if_pos hescaped).trans (hnext (Nat.zero_le _) h)
      case isFalse hescaped =>
      rw [if_neg hescaped]
      split at h
      · case isTrue hbackslash => exact (if_pos hbackslash).trans (hnext (Nat.zero_le _) h)
      case isFalse hbackslash =>
      rw [if_neg hbackslash]
      split at h
      · case isTrue hdollar =>
        rw [if_pos hdollar]
        obtain ⟨n, hn, h⟩ := bind_eq_ok h
        obtain ⟨hle, hfollowed⟩ := passDollar_followed (r := r) hn
        rw [Cursor.followed] at hfollowed
        rw [hfollowed]
        exact hnext hle h
      case isFalse hdollar =>
      rw [if_neg hdollar]
      split at h
      · case isTrue hquote => exact (if_pos hquote).trans h
      case isFalse hquote =>
      rw [if_neg hquote]
      split at h
      · case isTrue hcomment => exact (if_pos hcomment).trans h
      · case isFalse hcomment => exact (if_neg hcomment).trans (hnext (Nat.zero_le _) h)

theorem parseQuoted_followed {quote : Char} {style : ValueStyle} {value : List Char}
    (h : p.parseQuoted quote style c = .ok (value, c')) :
    p.parseQuoted quote style (c.followed r) = .ok (value, c'.followed r) := by
  have hpos : 1 ≤ c.rest.length := Nat.lt_of_le_of_lt (Nat.zero_le _) (passes_of_parseQuoted h).2
  obtain ⟨raw, hraw, h⟩ := bind_eq_ok h
  obtain ⟨value, hvalue, heq⟩ := map_eq_ok h
  obtain ⟨rfl, rfl⟩ := Prod.mk.inj heq
  obtain ⟨hlength, htail⟩ := scanQuoted_eq_ok hraw
  have hscan : p.scanQuoted quote style (c.followed r) false (c.forward 1).before
      ((c.forward 1).rest ++ '\n' :: r) = .ok raw := by
    have hkinds := kinds_scanQuoted (Alike.refl p) quote style c (c.followed r) false
      (c.forward 1).before (c.forward 1).before ((c.forward 1).rest ++ '\n' :: r)
    rw [htail, kinds_ok, kinds_eq_ok] at hkinds
    exact hkinds
  have hexpand : p.expand style raw.length ((c.forward 1).followed r) raw = .ok value := by
    have hkinds := kinds_expand (Alike.refl p) style raw.length (c.forward 1)
      ((c.forward 1).followed r) raw
    rw [hvalue, kinds_ok, kinds_eq_ok] at hkinds
    exact hkinds
  rw [parseQuoted, Cursor.forward_followed hpos]
  show (p.scanQuoted quote style (c.followed r) false (c.forward 1).before
    ((c.forward 1).rest ++ '\n' :: r)).bind _ = _
  rw [hscan]
  show (p.expand style raw.length ((c.forward 1).followed r) raw).map _ = _
  rw [hexpand, Cursor.forward_followed hlength]
  rfl

theorem parseUnquoted_followed {value : List Char} {ended : Bool}
    (h : p.parseUnquoted c = .ok (value, ended, c')) :
    ∃ c'', p.parseUnquoted (c.followed r) = .ok (value, ended, c'') ∧
      if ended then c'.Meets r c'' else c'' = c'.followed r := by
  obtain ⟨⟨raw, ended'⟩, hraw, h⟩ := bind_eq_ok h
  obtain ⟨value, hvalue, heq⟩ := map_eq_ok h
  obtain ⟨rfl, hrest⟩ := Prod.mk.inj heq
  obtain ⟨rfl, rfl⟩ := Prod.mk.inj hrest
  have hlength := length_of_scanUnquoted hraw
  have hscan := scanUnquoted_followed (r := r) (Nat.zero_le _) hraw
  have hexpand := kinds_expand (Alike.refl p) .unquoted
    (if ended' then trimUnquotedTrailingWhitespace raw else raw).length c (c.followed r)
    (if ended' then trimUnquotedTrailingWhitespace raw else raw)
  rw [hvalue, kinds_ok, kinds_eq_ok] at hexpand
  refine ⟨if !ended' then (c.followed r).forward raw.length
    else if ((c.followed r).forward raw.length).rest.head? = some '#' then
      ((c.followed r).forward raw.length).skipComment
    else ((c.followed r).forward raw.length).consumeNewline, ?_, ?_⟩
  · rw [parseUnquoted]
    show (p.scanUnquoted 0 false c.before (c.rest ++ '\n' :: r)).bind _ = _
    rw [hscan]
    show (p.expand .unquoted _ (c.followed r) _).map _ = _
    rw [hexpand]
    rfl
  · rw [Cursor.forward_followed hlength]
    cases ended' with
    | false => rfl
    | true =>
      simp only [Bool.not_true, Bool.false_eq_true, if_false, if_true]
      have hhead : ((c.forward raw.length).followed r).rest.head? = some '#' ↔
          (c.forward raw.length).rest.head? = some '#' := by
        rw [Cursor.followed]
        cases (c.forward raw.length).rest with
        | nil =>
          exact ⟨fun h => absurd (Option.some.inj h) (by decide), fun h => absurd h (by decide)⟩
        | cons a rest => exact Iff.rfl
      simp only [hhead]
      split
      · exact Cursor.meets_skipComment _
      · exact Cursor.meets_consumeNewline _

theorem opensSegment_followed (firstSegment : Bool) (c : Cursor) :
    opensSegment firstSegment (c.followed r) = opensSegment firstSegment c := by
  obtain ⟨before, rest⟩ := c
  rw [opensSegment, opensSegment, Cursor.followed]
  cases rest with
  | nil => rfl
  | cons a rest =>
    simp only [List.cons_append, List.head?_cons, List.tail_cons, quoteClosesOnLine_followed]

theorem parseSegment_followed {firstSegment ended : Bool} {value : List Char}
    (h : p.parseSegment firstSegment c = .ok (value, ended, c')) :
    ∃ c'', p.parseSegment firstSegment (c.followed r) = .ok (value, ended, c'') ∧
      if ended then c'.Meets r c'' else c'' = c'.followed r := by
  rw [parseSegment] at h ⊢
  rw [opensSegment_followed]
  cases hopens : opensSegment firstSegment c with
  | some quote =>
    rw [hopens] at h
    obtain ⟨⟨segment, c₁⟩, hquoted, heq⟩ := map_eq_ok h
    obtain ⟨hvalue, heq⟩ := Prod.mk.inj heq
    obtain ⟨rfl, rfl⟩ := Prod.mk.inj heq
    dsimp only at hvalue ⊢
    subst hvalue
    rw [parseQuoted_followed hquoted]
    exact ⟨c₁.followed r, rfl, rfl⟩
  | none =>
    rw [hopens] at h
    exact parseUnquoted_followed h

theorem parseSegments_followed {fuel fuel' : ℕ} {firstSegment : Bool} {value : List Char}
    (hfuel : c.rest.length < fuel) (hle : fuel ≤ fuel')
    (h : p.parseSegments fuel firstSegment c = .ok (value, c')) :
    ∃ c'', p.parseSegments fuel' firstSegment (c.followed r) = .ok (value, c'') ∧
      c'.Meets r c'' := by
  induction fuel generalizing fuel' firstSegment value c with
  | zero => exact absurd hfuel (Nat.not_lt_zero _)
  | succ fuel ih =>
    cases fuel' with
    | zero => exact absurd hle (Nat.not_succ_le_zero _)
    | succ fuel' =>
      rw [parseSegments_succ] at h
      obtain ⟨⟨segment, ended, c₁⟩, hsegment, h⟩ := bind_eq_ok h
      obtain ⟨c₂, hfollowed, hmeets⟩ := parseSegment_followed (r := r) hsegment
      rw [parseSegments_succ, hfollowed]
      cases ended with
      | true =>
        obtain ⟨rfl, rfl⟩ := Prod.mk.inj (Except.ok.inj h)
        exact ⟨c₂, rfl, hmeets⟩
      | false =>
        obtain rfl : c₂ = c₁.followed r := hmeets
        obtain ⟨⟨rest, c₃⟩, hrest, heq⟩ := map_eq_ok h
        obtain ⟨rfl, rfl⟩ := Prod.mk.inj heq
        have hlength := (passes_of_parseSegment hsegment).2 rfl
        obtain ⟨c₄, hread, hmeets⟩ := ih (Nat.lt_of_lt_of_le hlength (Nat.le_of_lt_succ hfuel))
          (Nat.le_of_succ_le_succ hle) hrest
        refine ⟨c₄, ?_, hmeets⟩
        show (p.parseSegments fuel' false (c₁.followed r)).map _ = _
        rw [hread]
        rfl

theorem parseValue_followed {value : List Char} (h : p.parseValue c = .ok (value, c')) :
    ∃ c'', p.parseValue (c.followed r) = .ok (value, c'') ∧ c'.Meets r c'' := by
  refine parseSegments_followed (Nat.lt_succ_self _) (Nat.succ_le_succ ?_) h
  rw [Cursor.followed, List.length_append]
  exact Nat.le_add_right _ _

theorem scanKey_followed {before cs key : List Char} (h : scanKey before cs = .ok key) :
    scanKey before (cs ++ '\n' :: r) = .ok key := by
  induction cs generalizing before key with
  | nil =>
    obtain rfl := Except.ok.inj h
    rfl
  | cons a cs ih =>
    rw [scanKey] at h
    rw [List.cons_append, scanKey]
    split at h
    · case isTrue hend => exact (if_pos hend).trans h
    case isFalse hend =>
    rw [if_neg hend]
    split at h
    · case isTrue hline => exact (if_pos hline).trans h
    case isFalse hline =>
    rw [if_neg hline]
    split at h
    · cases h
    · case isFalse hcontrol =>
      obtain ⟨key, hkey, rfl⟩ := map_eq_ok h
      rw [if_neg hcontrol, ih hkey]
      rfl

/-- The character at a position, unless the text ends there. -/
theorem head?_followed (c : Cursor) {a : Char} (h : c.rest.head? = some a) :
    (c.followed r).rest.head? = some a := by
  obtain ⟨before, rest⟩ := c
  cases rest with
  | nil => exact nomatch h
  | cons b rest => exact h

/-- Parsers that read alike read the same value. -/
theorem parseValue_alike {q : Parser} (h : Alike p q) (hc : c.before ≠ []) {value : List Char}
    (hread : p.parseValue c = .ok (value, c')) : q.parseValue c = .ok (value, c') := by
  have hbehind : ∀ c : Cursor, c.behind [] = c := fun c =>
    congrArg (Cursor.mk · c.rest) (List.append_nil _)
  have hkinds := kinds_parseSegments [] h (c.rest.length + 1) true hc
  rw [hbehind] at hkinds
  rw [parseValue] at hread ⊢
  rw [hread] at hkinds
  rw [← kinds_eq_ok, hkinds]
  show Except.ok (value, c'.behind []) = _
  rw [hbehind]

/-- A line behind an assignment does not change it. -/
theorem parseAssignment_followed {entry : String × String}
    (h : p.parseAssignment = .ok (entry, c')) :
    ∃ c'', (p.moveTo (p.cursor.followed r)).parseAssignment = .ok (entry, c'') ∧
      c'.Meets r c'' := by
  obtain ⟨key, hkey, h⟩ := bind_eq_ok h
  have hscan := scanKey_followed (r := r) hkey
  have hlength := length_of_scanKey hkey
  have hstart : (p.moveTo (p.cursor.followed r)).cursor.consumeExportPrefix =
      p.cursor.consumeExportPrefix.followed r := Cursor.consumeExportPrefix_followed _
  rw [parseAssignment, hstart]
  show ∃ c'', (scanKey p.cursor.consumeExportPrefix.before
    (p.cursor.consumeExportPrefix.rest ++ '\n' :: r)).bind _ = _ ∧ _
  rw [hscan]
  show ∃ c'', (if key.isEmpty then _ else _) = _ ∧ _
  split at h
  · cases h
  case isFalse hempty =>
  rw [if_neg hempty]
  dsimp only at h ⊢
  split at h
  · cases h
  case isFalse hequals =>
  have hhead := not_not.1 hequals
  have hpos := List.length_pos_of_mem (List.mem_of_mem_head? hhead)
  rw [Cursor.forward_followed hlength, Cursor.skipHorizontalWhitespace_followed,
    if_neg (not_not.2 (head?_followed _ hhead)), Cursor.forward_followed hpos,
    Cursor.skipHorizontalWhitespace_followed]
  generalize hcursor : (((p.cursor.consumeExportPrefix.forward
    key.length).skipHorizontalWhitespace).forward 1).skipHorizontalWhitespace = c at h ⊢
  have hbefore : (c.followed r).before ≠ [] := by
    rw [← hcursor]
    exact (Cursor.passes_skipHorizontalWhitespace _).before_ne_nil (before_forward_ne_nil hhead)
  cases hnext : c.rest.head? with
  | none =>
    rw [hnext] at h
    obtain ⟨rfl, rfl⟩ := Prod.mk.inj (Except.ok.inj h)
    have hnil := List.head?_eq_none_iff.1 hnext
    have hline : (c.followed r).rest.head? = some '\n' := by
      rw [Cursor.followed, hnil]
      rfl
    rw [hline]
    exact ⟨_, rfl, Cursor.meets_consumeNewline c⟩
  | some a =>
    rw [hnext] at h
    rw [head?_followed c hnext]
    dsimp only at h ⊢
    split at h
    · case isTrue hnewline =>
      obtain ⟨rfl, rfl⟩ := Prod.mk.inj (Except.ok.inj h)
      rw [if_pos hnewline]
      exact ⟨_, rfl, Cursor.meets_consumeNewline c⟩
    case isFalse hnewline =>
    rw [if_neg hnewline]
    split at h
    · case isTrue hcomment =>
      obtain ⟨rfl, rfl⟩ := Prod.mk.inj (Except.ok.inj h)
      rw [if_pos hcomment]
      exact ⟨_, rfl, Cursor.meets_skipComment c⟩
    case isFalse hcomment =>
    rw [if_neg hcomment]
    obtain ⟨⟨value, c₁⟩, hvalue, heq⟩ := map_eq_ok h
    obtain ⟨rfl, rfl⟩ := Prod.mk.inj heq
    obtain ⟨c₂, hread, hmeets⟩ := parseValue_followed (r := r) hvalue
    refine ⟨c₂, ?_, hmeets⟩
    have halike : Alike p (p.moveTo (p.cursor.followed r)) := ⟨rfl, fun _ => rfl⟩
    rw [parseValue_alike halike hbefore hread]
    rfl

theorem isSome_consumeNewline? (before : List Char) (a : Char) (rest : List Char) :
    (Cursor.mk before (a :: rest)).consumeNewline?.isSome = isNewline a := by
  rw [Cursor.consumeNewline?.eq_def]
  dsimp only
  split
  · case h_1 heq =>
    obtain ⟨rfl, -⟩ := List.cons.inj heq
    rfl
  · case h_2 heq =>
    obtain ⟨rfl, -⟩ := List.cons.inj heq
    rfl
  · case h_3 heq =>
    obtain ⟨rfl, -⟩ := List.cons.inj heq
    rfl
  · case h_4 hcr hlf =>
    refine (Bool.or_eq_false_iff.2 ⟨?_, ?_⟩).symm
    · exact beq_eq_false_iff_ne.2 fun h => hlf rest (congrArg (· :: rest) h)
    · exact beq_eq_false_iff_ne.2 fun h => hcr rest (congrArg (· :: rest) h)

theorem roundAt_cons (before : List Char) (a : Char) (rest : List Char) :
    roundAt ⟨before, a :: rest⟩ =
      if isNewline a then .skips (Cursor.mk before (a :: rest)).consumeNewline
      else if a = '#' then .skips (Cursor.mk before (a :: rest)).skipComment else .reads := by
  have hsome := isSome_consumeNewline? before a rest
  rw [roundAt, Cursor.consumeNewline]
  dsimp only [List.isEmpty_cons, List.head?_cons]
  rw [if_neg Bool.false_ne_true]
  cases hnewline : (Cursor.mk before (a :: rest)).consumeNewline? with
  | some c' =>
    rw [hnewline] at hsome
    exact (if_pos hsome.symm).symm
  | none =>
    rw [hnewline] at hsome
    rw [if_neg (by rw [← hsome]; exact Bool.false_ne_true)]
    exact ite_congr (propext ⟨Option.some.inj, congrArg some⟩) (fun _ => rfl) fun _ => rfl

/-- At the end of a text the rest is read as it stands behind the line end; before it,
the round is the same. -/
theorem roundAt_followed (c : Cursor) :
    (roundAt c = .ends ∧ roundAt (c.followed r) = .skips ((c.followed r).forward 1) ∧
        ((c.followed r).forward 1).rest = r) ∨
      (∃ c' c'', roundAt c = .skips c' ∧ roundAt (c.followed r) = .skips c'' ∧ c'.Meets r c'') ∨
        roundAt c = .reads ∧ roundAt (c.followed r) = .reads := by
  obtain ⟨before, rest⟩ := c
  cases rest with
  | nil => exact .inl ⟨rfl, rfl, rfl⟩
  | cons a rest =>
    right
    rw [Cursor.followed]
    dsimp only
    rw [List.cons_append, roundAt_cons, roundAt_cons]
    split
    · exact .inl ⟨_, _, rfl, rfl, Cursor.meets_consumeNewline ⟨before, a :: rest⟩⟩
    split
    · exact .inl ⟨_, _, rfl, rfl, Cursor.meets_skipComment ⟨before, a :: rest⟩⟩
    · exact .inr ⟨rfl, rfl⟩

/-! ### Entries -/

/-- An error is the last thing that is read. -/
theorem failed_of_nextEntryLoop {fuel : ℕ} {p p' : Parser} {e : ParseError}
    (h : nextEntryLoop fuel p = (some (.error e), p')) : p'.failed = true := by
  obtain ⟨c, -, h⟩ := exists_assignment h
  cases hassign : (p.moveTo c).parseAssignment with
  | error e =>
    rw [hassign] at h
    rw [← (Prod.mk.inj h).2]
  | ok r =>
    rw [hassign] at h
    cases Option.some.inj (Prod.mk.inj h).1

/-- More rounds than there are characters left yield the same entries. -/
theorem entries_fuel {fuel fuel' : ℕ} {p : Parser} (hfuel : p.cursor.rest.length < fuel)
    (hfuel' : p.cursor.rest.length < fuel') : entries fuel p = entries fuel' p := by
  induction fuel generalizing fuel' p with
  | zero => exact absurd hfuel (Nat.not_lt_zero _)
  | succ fuel ih =>
    cases fuel' with
    | zero => exact absurd hfuel' (Nat.not_lt_zero _)
    | succ fuel' =>
      rw [entries, entries]
      rcases hnext : p.nextEntry with ⟨_ | entry, p'⟩
      · rfl
      have hloop := hnext
      rw [nextEntry] at hloop
      split at hloop
      · cases (Prod.mk.inj hloop).1
      cases entry with
      | ok entry =>
        have hlength := length_of_nextEntryLoop hloop
        exact congrArg _ (ih (Nat.lt_of_lt_of_le hlength (Nat.le_of_lt_succ hfuel))
          (Nat.lt_of_lt_of_le hlength (Nat.le_of_lt_succ hfuel')))
      | error e =>
        -- nothing is read after an error
        have hfailed : p'.failed = true := failed_of_nextEntryLoop hloop
        have hnone : ∀ fuel, entries fuel p' = [] := by
          intro fuel
          cases fuel with
          | zero => rfl
          | succ fuel => rw [entries, nextEntry, if_pos hfailed]
        show _ :: entries fuel p' = _ :: entries fuel' p'
        rw [hnone, hnone]

/-- The next entry is the first, and the others come from where it ends. -/
theorem toEntries_of_nextEntry {p p' : Parser} {entry : String × String}
    (h : p.nextEntry = (some (.ok entry), p')) : p.toEntries = .ok entry :: p'.toEntries := by
  have hloop := h
  rw [nextEntry] at hloop
  split at hloop
  · cases (Prod.mk.inj hloop).1
  rw [toEntries, entries, h]
  exact congrArg _ (entries_fuel (length_of_nextEntryLoop hloop) (Nat.lt_succ_self _))

theorem toEntries_of_none {p p' : Parser} (h : p.nextEntry = (none, p')) : p.toEntries = [] := by
  rw [toEntries, entries, h]

/-- With more text behind it, a text yields the same entries and then those of the rest. -/
theorem nextEntryLoop_meets {fuel fuel' : ℕ} {p : Parser} {c' : Cursor}
    (hmeets : p.cursor.Meets r c') (hfuel : p.cursor.rest.length < fuel)
    (hfuel' : c'.rest.length < fuel') :
    (∀ entry p₁, nextEntryLoop fuel p = (some (.ok entry), p₁) →
      ∃ c₁, nextEntryLoop fuel' (p.moveTo c') = (some (.ok entry), p₁.moveTo c₁) ∧
        p₁.cursor.Meets r c₁) ∧
    ∀ p₁, nextEntryLoop fuel p = (none, p₁) → ∃ before, ∀ rounds, r.length < rounds →
      nextEntryLoop fuel' (p.moveTo c') = nextEntryLoop rounds (p.moveTo ⟨before, r⟩) := by
  induction fuel generalizing fuel' p c' with
  | zero => exact absurd hfuel (Nat.not_lt_zero _)
  | succ fuel ih =>
    have hspace := (Cursor.passes_skipHorizontalWhitespace p.cursor).length_le
    rw [nextEntryLoop_succ]
    rcases hmeets with rfl | ⟨hnil, rfl⟩
    · cases fuel' with
      | zero => exact absurd hfuel' (Nat.not_lt_zero _)
      | succ fuel' =>
        have hspace' : (p.moveTo (p.cursor.followed r)).cursor.skipHorizontalWhitespace =
            p.cursor.skipHorizontalWhitespace.followed r :=
          Cursor.skipHorizontalWhitespace_followed p.cursor
        have hshorter : ∀ {c : Cursor},
            roundAt (p.cursor.skipHorizontalWhitespace.followed r) = .skips c →
            c.rest.length < fuel' := by
          intro c hc
          have hlt := (passes_of_roundAt hc).2
          have hle : (p.cursor.skipHorizontalWhitespace.followed r).rest.length ≤
              (p.cursor.followed r).rest.length := by
            rw [Cursor.followed, Cursor.followed, List.length_append, List.length_append]
            exact Nat.add_le_add_right hspace _
          exact Nat.lt_of_lt_of_le hlt (Nat.le_trans hle (Nat.le_of_lt_succ hfuel'))
        rw [nextEntryLoop_succ, hspace']
        rcases roundAt_followed (r := r) p.cursor.skipHorizontalWhitespace with
          ⟨hends, hfollowed, hrest⟩ | ⟨c₁, c₂, hskips, hfollowed, hmeets⟩ | ⟨hreads, hfollowed⟩
        · rw [hends, hfollowed]
          refine ⟨fun entry p₁ h => (nomatch (Prod.mk.inj h).1), fun p₁ h => ?_⟩
          refine ⟨((p.cursor.skipHorizontalWhitespace.followed r).forward 1).before,
            fun rounds hrounds => ?_⟩
          have hcursor : Cursor.mk
              ((p.cursor.skipHorizontalWhitespace.followed r).forward 1).before r =
                (p.cursor.skipHorizontalWhitespace.followed r).forward 1 :=
            congrArg (Cursor.mk _) hrest.symm
          rw [hcursor]
          refine nextEntryLoop_fuel (hshorter hfollowed) ?_
          rw [← hrest] at hrounds
          exact hrounds
        · rw [hskips, hfollowed]
          have hlt := (passes_of_roundAt hskips).2
          exact @ih fuel' (p.moveTo c₁) c₂ hmeets
            (Nat.lt_of_lt_of_le hlt (Nat.le_trans hspace (Nat.le_of_lt_succ hfuel)))
            (hshorter hfollowed)
        · rw [hreads, hfollowed]
          dsimp only
          cases hassign : (p.moveTo p.cursor.skipHorizontalWhitespace).parseAssignment with
          | error e =>
            exact ⟨fun entry p₁ h => (nomatch Option.some.inj (Prod.mk.inj h).1),
              fun p₁ h => absurd (Prod.mk.inj h).1 (Option.some_ne_none _)⟩
          | ok read =>
            obtain ⟨⟨key, value⟩, c₁⟩ := read
            refine ⟨fun entry p₁ h => ?_,
              fun p₁ h => absurd (Prod.mk.inj h).1 (Option.some_ne_none _)⟩
            obtain ⟨c₂, hread, hmeets⟩ := parseAssignment_followed (r := r) hassign
            obtain ⟨hentry, rfl⟩ := Prod.mk.inj h
            refine ⟨c₂, ?_, hmeets⟩
            have hread' : ((p.moveTo (p.cursor.followed r)).moveTo
                (p.cursor.skipHorizontalWhitespace.followed r)).parseAssignment =
                .ok ((key, value), c₂) := hread
            rw [hread']
            obtain rfl := Except.ok.inj (Option.some.inj hentry)
            rfl
    · -- the text has ended, and so has its line
      have hends : roundAt p.cursor.skipHorizontalWhitespace = .ends := by
        rw [roundAt, Cursor.skipHorizontalWhitespace, Cursor.skipWhile, hnil]
        rfl
      have hrest : ((p.cursor.followed r).forward 1).rest = r := by
        rw [Cursor.followed, hnil]
        rfl
      rw [hends]
      refine ⟨fun entry p₁ h => (nomatch (Prod.mk.inj h).1), fun p₁ h => ?_⟩
      refine ⟨((p.cursor.followed r).forward 1).before, fun rounds hrounds => ?_⟩
      have hcursor : (Cursor.mk ((p.cursor.followed r).forward 1).before r) =
          (p.cursor.followed r).forward 1 := congrArg (Cursor.mk _) hrest.symm
      rw [hcursor]
      refine nextEntryLoop_fuel hfuel' ?_
      rw [← hrest] at hrounds
      exact hrounds

/-- An entry moves the parser, and binds its name. -/
theorem nextEntryLoop_eq_ok {fuel : ℕ} {p p₁ : Parser} {entry : String × String}
    (h : nextEntryLoop fuel p = (some (.ok entry), p₁)) :
    ∃ c, p₁ = { p with
      cursor := c
      parsedVariables := Function.update p.parsedVariables entry.1 (some entry.2) } := by
  obtain ⟨c, -, h⟩ := exists_assignment h
  cases hassign : (p.moveTo c).parseAssignment with
  | error e =>
    rw [hassign] at h
    cases Option.some.inj (Prod.mk.inj h).1
  | ok r =>
    rw [hassign] at h
    obtain ⟨hentry, rfl⟩ := Prod.mk.inj h
    obtain rfl := Except.ok.inj (Option.some.inj hentry)
    exact ⟨r.2, rfl⟩

/-- The variables with the names of some entries bound. -/
def bindAll (known : String → Option String) (read : List (String × String)) :
    String → Option String :=
  read.foldl (fun bound entry => Function.update bound entry.1 (some entry.2)) known

/-- The parser with the names of some entries bound. -/
def bound (read : List (String × String)) (p : Parser) : Parser :=
  { p with parsedVariables := bindAll p.parsedVariables read }

theorem nextEntry_of_not_failed {p : Parser} (h : p.failed = false) :
    p.nextEntry = nextEntryLoop (p.cursor.rest.length + 1) p := by
  rw [nextEntry, h]
  exact if_neg Bool.false_ne_true

/-- An error is the last entry. -/
theorem toEntries_of_error {p p' : Parser} {e : ParseError}
    (h : p.nextEntry = (some (.error e), p')) : p.toEntries = [.error e] := by
  have hloop := h
  rw [nextEntry] at hloop
  split at hloop
  · cases (Prod.mk.inj hloop).1
  rw [toEntries, entries, h]
  show _ :: entries p.cursor.rest.length p' = _
  cases p.cursor.rest.length with
  | zero => rfl
  | succ fuel => rw [entries, nextEntry, if_pos (failed_of_nextEntryLoop hloop)]

/-- Parsers whose next entries are the same yield the same. -/
theorem toEntries_congr {p q : Parser} (h : p.nextEntry = q.nextEntry) :
    p.toEntries = q.toEntries := by
  rcases hnext : p.nextEntry with ⟨_ | entry, p₁⟩
  · rw [toEntries_of_none hnext, toEntries_of_none (h.symm.trans hnext)]
  · cases entry with
    | ok entry =>
      rw [toEntries_of_nextEntry hnext, toEntries_of_nextEntry (h.symm.trans hnext)]
    | error e => rw [toEntries_of_error hnext, toEntries_of_error (h.symm.trans hnext)]

/-- The next entry is the same when more lines follow; where there is none, what is
read next is what stands behind the line end. -/
theorem nextEntry_meets {p : Parser} {c' : Cursor} (hmeets : p.cursor.Meets r c')
    (hfailed : p.failed = false) :
    (∀ entry p₁, p.nextEntry = (some (.ok entry), p₁) →
      ∃ c₁, (p.moveTo c').nextEntry = (some (.ok entry), p₁.moveTo c₁) ∧ p₁.cursor.Meets r c₁) ∧
    ∀ p₁, p.nextEntry = (none, p₁) →
      ∃ before, (p.moveTo c').nextEntry = (p.moveTo ⟨before, r⟩).nextEntry := by
  have hnext' : (p.moveTo c').nextEntry = nextEntryLoop (c'.rest.length + 1) (p.moveTo c') :=
    nextEntry_of_not_failed hfailed
  have hbehind : ∀ before, (p.moveTo ⟨before, r⟩).nextEntry =
      nextEntryLoop (r.length + 1) (p.moveTo ⟨before, r⟩) := fun before =>
    nextEntry_of_not_failed hfailed
  obtain ⟨hentry, hnone⟩ :=
    nextEntryLoop_meets hmeets (Nat.lt_succ_self _) (Nat.lt_succ_self c'.rest.length)
  rw [nextEntry_of_not_failed hfailed, hnext']
  refine ⟨hentry, fun p₁ h => ?_⟩
  obtain ⟨before, hsame⟩ := hnone p₁ h
  exact ⟨before, (hsame _ (Nat.lt_succ_self _)).trans (hbehind before).symm⟩

/-- **The entries of a text come first**, and then those of the lines that follow it. -/
theorem toEntries_meets {read : List (String × String)} {p : Parser} {c' : Cursor}
    (hmeets : p.cursor.Meets r c') (hfailed : p.failed = false)
    (h : p.toEntries = read.map .ok) :
    ∃ before, (p.moveTo c').toEntries =
      read.map .ok ++ ((p.bound read).moveTo ⟨before, r⟩).toEntries := by
  induction read generalizing p c' with
  | nil =>
    obtain ⟨-, hnone⟩ := nextEntry_meets hmeets hfailed
    rcases hnext : p.nextEntry with ⟨_ | entry, p₁⟩
    · obtain ⟨before, hsame⟩ := hnone p₁ hnext
      exact ⟨before, toEntries_congr (q := (p.bound []).moveTo ⟨before, r⟩) hsame⟩
    · rw [toEntries, entries, hnext] at h
      exact absurd h (List.cons_ne_nil _ _)
  | cons entry read ih =>
    obtain ⟨hentry, -⟩ := nextEntry_meets hmeets hfailed
    rcases hnext : p.nextEntry with ⟨_ | found, p₁⟩
    · rw [toEntries_of_none hnext] at h
      exact absurd h.symm (List.cons_ne_nil _ _)
    · have hfound : found = .ok entry := by
        rw [toEntries, entries, hnext] at h
        exact (List.cons.inj h).1
      subst hfound
      obtain ⟨c₁, hnext', hmeets₁⟩ := hentry entry p₁ hnext
      obtain ⟨c, hp₁⟩ := nextEntryLoop_eq_ok ((nextEntry_of_not_failed hfailed).symm.trans hnext)
      have hfailed₁ : p₁.failed = false := by
        rw [hp₁]
        exact hfailed
      rw [toEntries_of_nextEntry hnext] at h
      obtain ⟨before, hrest⟩ := ih hmeets₁ hfailed₁ (List.cons.inj h).2
      refine ⟨before, ?_⟩
      rw [toEntries_of_nextEntry hnext', hrest, hp₁]
      rfl

/-- **A text is parsed line by line.**  A text that is read to its end without an error
yields the same entries in front of more lines, and these yield what they yield alone
with those entries bound, errors of the same kinds among it; a byte order mark is one
only at the start of the whole text. -/
theorem parse_append_line (text rest : String) (options : ParseOptions)
    (baseVariables protectedVariables : String → Option String) (inputOverrides : Bool)
    (read : List (String × String))
    (hread : (new text options baseVariables protectedVariables inputOverrides).toEntries =
      read.map .ok) (hrest : rest.toList.head? ≠ some '\uFEFF') :
    (new (text ++ "\n" ++ rest) options baseVariables protectedVariables
        inputOverrides).toEntries.map kinds =
      read.map .ok ++ ((new rest options baseVariables protectedVariables
        inputOverrides).bound read).toEntries.map kinds := by
  have hmeets : (new text options baseVariables protectedVariables inputOverrides).cursor.Meets
      rest.toList _ := .inl rfl
  obtain ⟨before, hwhole⟩ := toEntries_meets hmeets rfl hread
  have hstart : new (text ++ "\n" ++ rest) options baseVariables protectedVariables inputOverrides =
      (new text options baseVariables protectedVariables inputOverrides).moveTo
        ((new text options baseVariables protectedVariables inputOverrides).cursor.followed
          rest.toList) := by
    have hmark : ∀ s : List Char,
        (if (s ++ '\n' :: rest.toList).head? = some '\uFEFF' then (s ++ '\n' :: rest.toList).tail
          else s ++ '\n' :: rest.toList) =
        (if s.head? = some '\uFEFF' then s.tail else s) ++ '\n' :: rest.toList := by
      intro s
      cases s with
      | nil => rfl
      | cons a s =>
        by_cases ha : a = '\uFEFF'
        · exact (if_pos (congrArg some ha)).trans
            (congrArg (· ++ '\n' :: rest.toList) (if_pos (congrArg some ha)).symm)
        · have hne : some a ≠ some '\uFEFF' := fun h => ha (Option.some.inj h)
          exact (if_neg hne).trans (congrArg (· ++ '\n' :: rest.toList) (if_neg hne).symm)
    have hsplit : (text ++ "\n" ++ rest).toList = text.toList ++ '\n' :: rest.toList := by
      rw [String.toList_append, String.toList_append]
      exact List.append_assoc ..
    rw [new, new, moveTo, Cursor.followed, hsplit, hmark]
  have hbehind : ((new text options baseVariables protectedVariables inputOverrides).bound
      read).moveTo ⟨before, rest.toList⟩ = ((new rest options baseVariables protectedVariables
        inputOverrides).bound read).behind before := by
    have hcursor : (new rest options baseVariables protectedVariables inputOverrides).cursor =
        ⟨[], rest.toList⟩ := congrArg (Cursor.mk []) (if_neg hrest)
    show _ = moveTo _ ((new rest options baseVariables protectedVariables
      inputOverrides).cursor.behind before)
    rw [hcursor]
    rfl
  rw [hstart, hwhole, List.map_append, List.map_map, hbehind]
  refine congrArg₂ (· ++ ·) rfl ?_
  exact kinds_entries before _ _

/-- A name that is bound in an earlier line. -/
theorem parse_append_line_bound :
    (new ("NAME=O'Brien" ++ "\n" ++ "GREETING=\"hi $NAME\"") ⟨true, true⟩ (fun _ => none)
        (fun _ => none) false).toEntries.map kinds =
      [.ok ("NAME", "O'Brien")] ++ ((new "GREETING=\"hi $NAME\"" ⟨true, true⟩ (fun _ => none)
        (fun _ => none) false).bound [("NAME", "O'Brien")]).toEntries.map kinds :=
  parse_append_line "NAME=O'Brien" "GREETING=\"hi $NAME\"" ⟨true, true⟩ (fun _ => none)
    (fun _ => none) false [("NAME", "O'Brien")] (by decide) (by decide)

/-- A byte order mark behind a line is part of a name. -/
theorem parse_append_mark :
    (new ("" ++ "\n" ++ "\uFEFFA=1") ⟨false, true⟩ (fun _ => none) (fun _ => none)
        false).toEntries.map kinds ≠
      ([] : List (String × String)).map .ok ++ ((new "\uFEFFA=1" ⟨false, true⟩ (fun _ => none)
        (fun _ => none) false).bound []).toEntries.map kinds := by
  decide

end Parser

end Dotenv
end Mise
