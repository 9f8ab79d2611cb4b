/-
# Wildcards

`crates/mise-util/src/wildcard.rs`: `wildcard_match` goes through the input and
the pattern with one index into each, and remembers the last `*` it passed with
the input that this stands for so far.  Where the two no longer fit, the `*`
takes one character more.

`Glob` is what a pattern means.  The loop tests whether the characters are equal
before it tests for a `*`, so that a `*` of the pattern that faces a `*` of the
input is taken for that character alone: `LiteralFirst` has that rule, and the
loop finds a match exactly where one with that rule exists
(`wildcardMatch_iff`).  Only the last `*` is ever moved.  That loses nothing: a
match from a later place of an earlier `*` is one from a later place of the last
(`LiteralFirst.shift`, `LiteralFirst.star_of_drop`).
-/

import Mathlib.Data.List.Forall2
import Mathlib.Data.Prod.Lex
import Mathlib.Order.WellFounded

namespace Mise.Wildcard

variable {input wildcard : List Char}

/-! ### The loop -/

/-- The variables of the loop.  The last `*` lies before the pattern's index, and
the input it stands for before the input's. -/
structure Place where
  inputIdx : ℕ
  wildcardIdx : ℕ
  starIdx : Option ℕ
  starInputIdx : ℕ
  starIdx_lt : ∀ idx ∈ starIdx, idx < wildcardIdx
  starInputIdx_le : starInputIdx ≤ inputIdx

/-- Both indices at the start. -/
def start : Place where
  inputIdx := 0
  wildcardIdx := 0
  starIdx := none
  starInputIdx := 0
  starIdx_lt := nofun
  starInputIdx_le := le_rfl

/-- Both indices one further. -/
def Place.both (s : Place) : Place where
  inputIdx := s.inputIdx + 1
  wildcardIdx := s.wildcardIdx + 1
  starIdx := s.starIdx
  starInputIdx := s.starInputIdx
  starIdx_lt := fun idx h => Nat.lt_succ_of_lt (s.starIdx_lt idx h)
  starInputIdx_le := Nat.le_succ_of_le s.starInputIdx_le

/-- Behind a `*`, which stands for nothing yet. -/
def Place.atStar (s : Place) : Place where
  inputIdx := s.inputIdx
  wildcardIdx := s.wildcardIdx + 1
  starIdx := some s.wildcardIdx
  starInputIdx := s.inputIdx
  starIdx_lt := fun idx h => by
    rw [Option.mem_def, Option.some.injEq] at h
    omega
  starInputIdx_le := le_rfl

/-- Back at the last `*`, which takes one character more. -/
def Place.back (s : Place) (idx : ℕ) : Place where
  inputIdx := s.starInputIdx + 1
  wildcardIdx := idx + 1
  starIdx := some idx
  starInputIdx := s.starInputIdx + 1
  starIdx_lt := fun idx' h => by
    rw [Option.mem_def, Option.some.injEq] at h
    omega
  starInputIdx_le := le_rfl

/-- One turn of the loop of `wildcard_match`, or the answer where it is left. -/
def turn (input wildcard : List Char) (s : Place) : Bool ⊕ Place :=
  match input[s.inputIdx]? with
  | none => .inl ((wildcard.drop s.wildcardIdx).dropWhile (· = '*')).isEmpty
  | some c =>
    if wildcard[s.wildcardIdx]? = some '?' ∨ wildcard[s.wildcardIdx]? = some c then
      .inr s.both
    else if wildcard[s.wildcardIdx]? = some '*' then .inr s.atStar
    else match s.starIdx with
      | some idx => .inr (s.back idx)
      | none => .inl false

/-- What decreases with every turn: the pattern behind the last `*`, then the
input that this may still take, then the input left. -/
def measure (input wildcard : List Char) (s : Place) : ℕ ×ₗ ℕ ×ₗ ℕ :=
  toLex (s.starIdx.elim (wildcard.length + 1) (wildcard.length - ·),
    toLex (input.length - s.starInputIdx, input.length - s.inputIdx))

/-- What a turn that stays in the loop does. -/
theorem turn_cases {s s' : Place} (h : turn input wildcard s = .inr s') :
    ∃ c, input[s.inputIdx]? = some c ∧
      ((∃ d, wildcard[s.wildcardIdx]? = some d ∧ (d = '?' ∨ d = c) ∧ s' = s.both) ∨
        (wildcard[s.wildcardIdx]? = some '*' ∧ c ≠ '*' ∧ s' = s.atStar) ∨
        ∃ idx ∈ s.starIdx, (∀ d, wildcard[s.wildcardIdx]? = some d → d ≠ '?' ∧ d ≠ c ∧ d ≠ '*') ∧
          s' = s.back idx) := by
  rw [turn] at h
  split at h
  · case h_1 => exact nomatch h
  · case h_2 c hc =>
    refine ⟨c, hc, ?_⟩
    split at h
    · case isTrue hd =>
      left
      obtain hd | hd := hd
      · exact ⟨'?', hd, .inl rfl, (Sum.inr.inj h).symm⟩
      · exact ⟨c, hd, .inr rfl, (Sum.inr.inj h).symm⟩
    · case isFalse hd =>
      rw [not_or] at hd
      split at h
      · case isTrue hstar =>
        refine .inr (.inl ⟨hstar, fun hc' => hd.2 ?_, (Sum.inr.inj h).symm⟩)
        rw [hstar, hc']
      · case isFalse hstar =>
        split at h
        · case h_1 idx hidx =>
          refine .inr (.inr ⟨idx, hidx, fun d hget => ⟨?_, ?_, ?_⟩, (Sum.inr.inj h).symm⟩)
          · rintro rfl
            exact hd.1 hget
          · rintro rfl
            exact hd.2 hget
          · rintro rfl
            exact hstar hget
        · case h_2 => exact nomatch h

/-- **Every turn makes the measure less.** -/
theorem measure_turn {s s' : Place} (h : turn input wildcard s = .inr s') :
    measure input wildcard s' < measure input wildcard s := by
  have hstart := s.starInputIdx_le
  obtain ⟨c, hc, h⟩ := turn_cases h
  have hlt := (List.getElem?_eq_some_iff.1 hc).1
  rw [measure, measure, Prod.Lex.toLex_lt_toLex, Prod.Lex.toLex_lt_toLex]
  obtain ⟨d, -, -, rfl⟩ | ⟨hstar, -, rfl⟩ | ⟨idx, hidx, -, rfl⟩ := h
  · exact .inr ⟨rfl, .inr ⟨rfl, by dsimp only [Place.both]; omega⟩⟩
  · -- the new `*` lies behind the last one
    have hlen := (List.getElem?_eq_some_iff.1 hstar).1
    left
    change wildcard.length - s.wildcardIdx < _
    cases hs : s.starIdx with
    | none =>
      change _ < wildcard.length + 1
      omega
    | some idx =>
      have hidx := s.starIdx_lt idx hs
      change _ < wildcard.length - idx
      omega
  · exact .inr ⟨by rw [hidx]; rfl, .inl (by dsimp only [Place.back]; omega)⟩

/-- The loop of `wildcard_match`. -/
def matchFrom (input wildcard : List Char) (s : Place) : Bool :=
  match _h : turn input wildcard s with
  | .inl answer => answer
  | .inr s' => matchFrom input wildcard s'
termination_by measure input wildcard s
decreasing_by exact measure_turn _h

/-- `wildcard_match`. -/
def wildcardMatch (input wildcard : List Char) : Bool :=
  matchFrom input wildcard start

/-- `Wildcard::match_any`. -/
def matchAny (patterns : List (List Char)) (input : List Char) : Bool :=
  patterns.any (wildcardMatch input)

theorem matchFrom_of_inl {s : Place} {answer : Bool} (h : turn input wildcard s = .inl answer) :
    matchFrom input wildcard s = answer := by
  rw [matchFrom]
  split
  · case h_1 h' => exact Sum.inl.inj (h'.symm.trans h)
  · case h_2 h' => exact nomatch h'.symm.trans h

theorem matchFrom_of_inr {s s' : Place} (h : turn input wildcard s = .inr s') :
    matchFrom input wildcard s = matchFrom input wildcard s' := by
  rw [matchFrom]
  split
  · case h_1 h' => exact nomatch h'.symm.trans h
  · case h_2 h' => rw [Sum.inr.inj (h'.symm.trans h)]

/-- **The loop ends**: there is no infinite run of turns, from any place. -/
theorem wellFounded_turn (input wildcard : List Char) :
    WellFounded fun s' s => turn input wildcard s = .inr s' :=
  Subrelation.wf measure_turn (InvImage.wf (measure input wildcard) wellFounded_lt)

/-! ### The meaning of a pattern -/

/-- The pattern matches the input: `*` stands for any text, `?` for one character,
and every other character for itself. -/
inductive Glob : List Char → List Char → Prop
  | nil : Glob [] []
  | star {p t : List Char} (s : List Char) : Glob p t → Glob ('*' :: p) (s ++ t)
  | any {p t : List Char} (c : Char) : Glob p t → Glob ('?' :: p) (c :: t)
  | char {p t : List Char} {c : Char} :
      c ≠ '*' → c ≠ '?' → Glob p t → Glob (c :: p) (c :: t)

/-- A match in which a `*` that faces a `*` of the input stands for that character. -/
inductive LiteralFirst : List Char → List Char → Prop
  | nil : LiteralFirst [] []
  | star {p t : List Char} (k : ℕ) :
      t.head? ≠ some '*' → LiteralFirst p (t.drop k) → LiteralFirst ('*' :: p) t
  | any {p t : List Char} (c : Char) : LiteralFirst p t → LiteralFirst ('?' :: p) (c :: t)
  | char {p t : List Char} (c : Char) : LiteralFirst p t → LiteralFirst (c :: p) (c :: t)

variable {p q s t : List Char}

theorem LiteralFirst.glob (h : LiteralFirst p s) : Glob p s := by
  induction h with
  | nil => exact .nil
  | @star p t k _ _ ih =>
    rw [← List.take_append_drop k t]
    exact .star _ ih
  | any c _ ih => exact .any c ih
  | @char p t c _ ih =>
    by_cases hstar : c = '*'
    · rw [hstar]
      exact .star ['*'] ih
    · by_cases hany : c = '?'
      · rw [hany]
        exact .any '?' ih
      · exact .char hstar hany ih

/-! ### The last star is enough -/

/-- A `*` that faces another character takes what stands before a later match. -/
theorem LiteralFirst.star_of_drop (hhead : t.head? ≠ some '*') {k : ℕ}
    (h : LiteralFirst ('*' :: p) (t.drop k)) : LiteralFirst ('*' :: p) t := by
  generalize ht : t.drop k = t' at h
  cases h with
  | star j _ hp =>
    refine .star (k + j) hhead ?_
    rwa [← List.drop_drop, ht]
  | char _ hp =>
    refine .star (k + 1) hhead ?_
    rwa [← List.drop_drop, ht]

/-- **A match of the whole pattern from a later place is one of its rest.**  The
part `x` was taken character by character for `y`, so a `*` in it faced a `*`. -/
theorem LiteralFirst.shift {x y u : List Char}
    (hxy : List.Forall₂ (fun d c => d = '?' ∨ d = c) x y) {k : ℕ}
    (h : LiteralFirst (x ++ q) ((y ++ u).drop k)) : ∃ j, LiteralFirst q (u.drop j) := by
  induction hxy generalizing k with
  | nil => exact ⟨k, h⟩
  | @cons d c x y hdc hxy ih =>
    rw [List.cons_append, List.cons_append] at h
    generalize ht : (c :: (y ++ u)).drop k = t at h
    have htail : t.tail = (y ++ u).drop k := by
      rw [← ht, List.tail_drop, List.drop_succ_cons]
    cases h with
    | any _ h =>
      rw [List.tail_cons] at htail
      exact ih (htail ▸ h)
    | char _ h =>
      rw [List.tail_cons] at htail
      exact ih (htail ▸ h)
    | star j hhead h =>
      cases k with
      | zero =>
        -- the `*` was taken for a `*`, which it still faces
        rw [List.drop_zero] at ht
        obtain hd | hd := hdc
        · exact absurd hd (by decide)
        · rw [← ht, ← hd] at hhead
          exact absurd rfl hhead
      | succ k =>
        rw [← ht, List.drop_succ_cons, List.drop_drop] at h
        exact ih h

/-- At the end of the input nothing but `*` is left to match. -/
theorem literalFirst_nil_iff (p : List Char) :
    LiteralFirst p [] ↔ (p.dropWhile (· = '*')).isEmpty = true := by
  induction p with
  | nil => exact ⟨fun _ => rfl, fun _ => .nil⟩
  | cons d p ih =>
    by_cases hd : d = '*'
    · rw [hd, List.dropWhile_cons_of_pos (by decide), ← ih]
      constructor
      · intro h
        cases h with
        | star k _ hp => rwa [List.drop_nil] at hp
      · intro hp
        exact .star 0 nofun hp
    · rw [List.dropWhile_cons_of_neg (by simpa using hd)]
      constructor
      · intro h
        cases h with
        | star => exact absurd rfl hd
      · intro h
        exact nomatch h

/-- What the loop looks for from a place: a match of the rest, or one in which the
last `*` takes more. -/
def Reaches (input wildcard : List Char) (s : Place) : Prop :=
  LiteralFirst (wildcard.drop s.wildcardIdx) (input.drop s.inputIdx) ∨
    ∃ idx ∈ s.starIdx, ∃ k, LiteralFirst (wildcard.drop (idx + 1))
      (input.drop (s.starInputIdx + 1 + k))

/-- Behind the last `*`, pattern and input were taken character by character. -/
def Taken (input wildcard : List Char) (s : Place) : Prop :=
  ∀ idx ∈ s.starIdx, ∃ x y : List Char,
    List.Forall₂ (fun d c => d = '?' ∨ d = c) x y ∧
    wildcard.drop (idx + 1) = x ++ wildcard.drop s.wildcardIdx ∧
    input.drop s.starInputIdx = y ++ input.drop s.inputIdx

theorem taken_start : Taken input wildcard start := nofun

/-- Whatever the last `*` may still take, the rest of the pattern is matched
somewhere behind. -/
theorem Taken.exists_drop {s : Place} (h : Taken input wildcard s) {idx : ℕ}
    (hidx : idx ∈ s.starIdx) {k : ℕ}
    (hmatch : LiteralFirst (wildcard.drop (idx + 1)) (input.drop (s.starInputIdx + k))) :
    ∃ j, LiteralFirst (wildcard.drop s.wildcardIdx) (input.drop (s.inputIdx + j)) := by
  obtain ⟨x, y, hxy, hp, ht⟩ := h idx hidx
  rw [hp, ← List.drop_drop, ht] at hmatch
  obtain ⟨j, hj⟩ := hmatch.shift hxy
  rw [List.drop_drop] at hj
  exact ⟨j, hj⟩

/-- The rest of a list from a place that holds an item. -/
theorem drop_of_getElem? {l : List Char} {i : ℕ} {c : Char} (h : l[i]? = some c) :
    l.drop i = c :: l.drop (i + 1) := by
  obtain ⟨hi, rfl⟩ := List.getElem?_eq_some_iff.1 h
  exact List.drop_eq_getElem_cons hi

/-- A turn keeps what was taken. -/
theorem Taken.step {s s' : Place} (h : Taken input wildcard s)
    (hturn : turn input wildcard s = .inr s') : Taken input wildcard s' := by
  intro idx hidx
  obtain ⟨c, hc, ⟨d, hd, hdc, rfl⟩ | ⟨-, -, rfl⟩ | ⟨idx', -, -, rfl⟩⟩ := turn_cases hturn
  · obtain ⟨x, y, hxy, hp, ht⟩ := h idx hidx
    refine ⟨x ++ [d], y ++ [c], List.rel_append hxy (.cons hdc .nil), ?_, ?_⟩
    · rw [hp, drop_of_getElem? hd, List.append_assoc]
      rfl
    · change input.drop s.starInputIdx = _
      rw [ht, drop_of_getElem? hc, List.append_assoc]
      rfl
  · obtain rfl : s.wildcardIdx = idx := Option.some.inj hidx
    exact ⟨[], [], .nil, rfl, rfl⟩
  · obtain rfl : idx' = idx := Option.some.inj hidx
    exact ⟨[], [], .nil, rfl, rfl⟩

/-- **A turn neither loses a match nor finds one that was not there.** -/
theorem reaches_turn {s s' : Place} (htaken : Taken input wildcard s)
    (hturn : turn input wildcard s = .inr s') :
    Reaches input wildcard s' ↔ Reaches input wildcard s := by
  obtain ⟨c, hc, ⟨d, hd, hdc, rfl⟩ | ⟨hstar, hc', rfl⟩ | ⟨idx, hidx, hd, rfl⟩⟩ :=
    turn_cases hturn
  · refine or_congr ?_ Iff.rfl
    rw [drop_of_getElem? hd, drop_of_getElem? hc]
    change LiteralFirst (wildcard.drop (s.wildcardIdx + 1)) (input.drop (s.inputIdx + 1)) ↔ _
    constructor
    · intro h
      obtain rfl | rfl := hdc
      · exact .any c h
      · exact .char _ h
    · intro h
      cases h with
      | any _ h => exact h
      | char _ h => exact h
      | star k hhead h =>
        obtain hany | rfl := hdc
        · exact absurd hany (by decide)
        · exact absurd rfl hhead
  · have hhead : (input.drop s.inputIdx).head? ≠ some '*' := by
      rw [drop_of_getElem? hc]
      simpa using hc'
    have hrest : Reaches input wildcard s.atStar ↔
        LiteralFirst (wildcard.drop s.wildcardIdx) (input.drop s.inputIdx) := by
      rw [drop_of_getElem? hstar]
      constructor
      · rintro (h | ⟨idx, hidx, k, h⟩)
        · exact .star 0 hhead h
        · obtain rfl : s.wildcardIdx = idx := Option.some.inj hidx
          refine .star (1 + k) hhead ?_
          rw [List.drop_drop, ← Nat.add_assoc]
          exact h
      · intro h
        rw [drop_of_getElem? hc] at h
        cases h with
        | char => exact absurd rfl hc'
        | star k _ h =>
          rw [← drop_of_getElem? hc, List.drop_drop] at h
          cases k with
          | zero => exact .inl h
          | succ k =>
            refine .inr ⟨s.wildcardIdx, rfl, k, ?_⟩
            rw [Nat.add_comm k 1, ← Nat.add_assoc] at h
            exact h
    rw [hrest, Reaches, or_iff_left_of_imp]
    rintro ⟨idx, hidx, k, h⟩
    -- the `*` before it need not be moved any more
    rw [Nat.add_assoc] at h
    obtain ⟨j, hj⟩ := htaken.exists_drop hidx h
    rw [← List.drop_drop] at hj
    rw [drop_of_getElem? hstar] at hj ⊢
    exact hj.star_of_drop hhead
  · have hnone : ¬ LiteralFirst (wildcard.drop s.wildcardIdx) (input.drop s.inputIdx) := by
      intro h
      rw [drop_of_getElem? hc] at h
      cases hget : wildcard[s.wildcardIdx]? with
      | none =>
        rw [List.drop_eq_nil_of_le (List.getElem?_eq_none_iff.1 hget)] at h
        exact nomatch h
      | some d =>
        obtain ⟨hany, heq, hstar⟩ := hd d hget
        rw [drop_of_getElem? hget] at h
        cases h with
        | any => exact hany rfl
        | char => exact heq rfl
        | star => exact hstar rfl
    rw [Reaches, Reaches, or_iff_right hnone]
    constructor
    · rintro (h | ⟨idx', hidx', k, h⟩)
      · exact ⟨idx, hidx, 0, h⟩
      · obtain rfl : idx = idx' := Option.some.inj hidx'
        refine ⟨idx, hidx, 1 + k, ?_⟩
        rw [← Nat.add_assoc]
        exact h
    · rintro ⟨idx', hidx', k, h⟩
      obtain rfl : idx = idx' := Option.some.inj (hidx.symm.trans hidx')
      cases k with
      | zero => exact .inl h
      | succ k =>
        refine .inr ⟨idx, rfl, k, ?_⟩
        rw [Nat.add_comm k 1, ← Nat.add_assoc] at h
        exact h

/-- Where the loop is left, its answer tells whether a match was still to find. -/
theorem reaches_of_answer {s : Place} {answer : Bool} (htaken : Taken input wildcard s)
    (hturn : turn input wildcard s = .inl answer) :
    answer = true ↔ Reaches input wildcard s := by
  rw [turn] at hturn
  split at hturn
  · case h_1 hend =>
    have hle := List.getElem?_eq_none_iff.1 hend
    rw [← Sum.inl.inj hturn, ← literalFirst_nil_iff, Reaches, List.drop_eq_nil_of_le hle]
    refine (or_iff_left_of_imp ?_).symm
    rintro ⟨idx, hidx, k, h⟩
    rw [Nat.add_assoc] at h
    obtain ⟨j, hj⟩ := htaken.exists_drop hidx h
    have hnil : input.drop (s.inputIdx + j) = [] := List.drop_eq_nil_of_le (by omega)
    rwa [hnil] at hj
  · case h_2 c hc =>
    split at hturn
    · exact nomatch hturn
    · case isFalse hd =>
      rw [not_or] at hd
      split at hturn
      · exact nomatch hturn
      · case isFalse hstar =>
        split at hturn
        · exact nomatch hturn
        · case h_2 hnone =>
          rw [← Sum.inl.inj hturn]
          refine iff_of_false Bool.false_ne_true ?_
          rintro (h | ⟨idx, hidx, -⟩)
          · rw [drop_of_getElem? hc] at h
            cases hget : wildcard[s.wildcardIdx]? with
            | none =>
              rw [List.drop_eq_nil_of_le (List.getElem?_eq_none_iff.1 hget)] at h
              exact nomatch h
            | some d =>
              rw [drop_of_getElem? hget] at h
              rw [hget] at hd hstar
              cases h with
              | any => exact hd.1 rfl
              | char => exact hd.2 rfl
              | star => exact hstar rfl
          · rw [hnone] at hidx
            exact nomatch hidx

/-- From every place that the loop reaches, it finds what there is to find. -/
theorem matchFrom_iff {s : Place} (htaken : Taken input wildcard s) :
    matchFrom input wildcard s = true ↔ Reaches input wildcard s := by
  induction s using (wellFounded_turn input wildcard).induction with
  | _ s ih =>
    cases hturn : turn input wildcard s with
    | inl answer =>
      rw [matchFrom_of_inl hturn]
      exact reaches_of_answer htaken hturn
    | inr s' =>
      rw [matchFrom_of_inr hturn, ih s' hturn (htaken.step hturn)]
      exact reaches_turn htaken hturn

/-- **`wildcard_match` finds a match exactly where one exists in which a `*` that
faces a `*` stands for that character.** -/
theorem wildcardMatch_iff (input wildcard : List Char) :
    wildcardMatch input wildcard = true ↔ LiteralFirst wildcard input := by
  rw [wildcardMatch, matchFrom_iff taken_start]
  refine or_iff_left_of_imp ?_
  rintro ⟨_, hidx, -⟩
  exact nomatch hidx

/-! ### Exactness -/

/-- What is asked of `match_any`: no run of its loop is infinite, and it tells
whether one of the patterns matches the whole input. -/
structure MatchesGlobs (patterns : List (List Char)) (input : List Char) : Prop where
  ends : ∀ wildcard ∈ patterns, WellFounded fun s' s => turn input wildcard s = .inr s'
  exact : matchAny patterns input = true ↔ ∃ wildcard ∈ patterns, Glob wildcard input

theorem matchAny_iff (patterns : List (List Char)) (input : List Char) :
    matchAny patterns input = true ↔ ∃ wildcard ∈ patterns, LiteralFirst wildcard input := by
  rw [matchAny, List.any_eq_true]
  exact exists_congr fun wildcard => and_congr_right' (wildcardMatch_iff input wildcard)

/-- **`match_any` means its patterns exactly where some match, if there is one,
takes a `*` of the input that a `*` of the pattern faces for that `*`.** -/
theorem matchesGlobs_iff (patterns : List (List Char)) (input : List Char) :
    MatchesGlobs patterns input ↔ ((∃ wildcard ∈ patterns, Glob wildcard input) →
      ∃ wildcard ∈ patterns, LiteralFirst wildcard input) := by
  have hsound : (∃ wildcard ∈ patterns, LiteralFirst wildcard input) →
      ∃ wildcard ∈ patterns, Glob wildcard input :=
    fun ⟨wildcard, hmem, h⟩ => ⟨wildcard, hmem, h.glob⟩
  constructor
  · intro h hglob
    exact (matchAny_iff patterns input).1 (h.exact.2 hglob)
  · intro h
    exact ⟨fun wildcard _ => wellFounded_turn input wildcard,
      (matchAny_iff patterns input).trans ⟨hsound, h⟩⟩

/-- `*` does not match `*a`. -/
theorem not_matchesGlobs : ¬ MatchesGlobs [['*']] ['*', 'a'] := by
  intro h
  have hglob : Glob ['*'] ['*', 'a'] := .star ['*', 'a'] .nil
  obtain ⟨wildcard, hmem, hmatch⟩ :=
    (matchAny_iff _ _).1 (h.exact.2 ⟨_, List.mem_singleton_self _, hglob⟩)
  rw [List.mem_singleton.1 hmem] at hmatch
  cases hmatch with
  | star _ hhead => exact hhead rfl
  | char _ h => exact nomatch h

end Mise.Wildcard
