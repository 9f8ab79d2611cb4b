/-
# The mounts of a path mapper

`mise-util/src/windows_posix.rs`: what covers a path (`Covers`), which mount answers
for it, and what every mapper that can be built keeps (`Sound`).  No slice of either
direction cuts a character.
-/

import Mathlib.Data.List.Induction
import Mathlib.Data.List.Pairwise
import Mathlib.Data.List.Infix
import Mise.Util.PathMapper

namespace Mise.WindowsPosix

open Lib
open String (utf8Len utf8Len_cons utf8Len_append utf8Len_nil)

/-! ### Texts without slashes at their end -/

section Slashes

variable {k : ℕ} {c : Char} {t u rest : List Char}

theorem utf8Len_reverse (t : List Char) : utf8Len t.reverse = utf8Len t := by
  induction t with
  | nil => rfl
  | cons c t ih =>
    rw [List.reverse_cons, utf8Len_append, ih, utf8Len_cons, utf8Len_cons, utf8Len_nil, Nat.zero_add]

theorem stripSlashes_concat : stripSlashes k (t ++ [c]) =
    if c = '/' ∧ k < utf8Len (t ++ [c]) then stripSlashes k t else t ++ [c] := by
  rw [stripSlashes, List.reverse_append, List.reverse_singleton, List.singleton_append]
  by_cases hc : c = '/'
  · subst hc
    have hlength : utf8Len ('/' :: t.reverse) = utf8Len (t ++ ['/']) := by
      rw [← utf8Len_reverse, List.reverse_cons, List.reverse_reverse]
    rw [popSlashes, hlength]
    split
    · case isTrue h => rw [if_pos ⟨rfl, h⟩, stripSlashes]
    · case isFalse h =>
      rw [if_neg fun h' => h h'.2]
      simp
  · rw [popSlashes, if_neg fun h => hc h.1]
    · simp
    · rintro rest heq
      exact hc (List.cons.inj heq).1

/-- A text that ends in no slash, or is short, is left as it is. -/
theorem stripSlashes_eq_self (h : t.getLast? = some '/' → utf8Len t ≤ k) :
    stripSlashes k t = t := by
  induction t using List.reverseRecOn with
  | nil => rfl
  | append_singleton t c =>
    rw [stripSlashes_concat, if_neg]
    rintro ⟨rfl, hlt⟩
    exact absurd (h List.getLast?_concat) (Nat.not_le_of_lt hlt)

theorem stripSlashes_isPrefix (k : ℕ) (t : List Char) : stripSlashes k t <+: t := by
  induction t using List.reverseRecOn with
  | nil => exact List.prefix_rfl
  | append_singleton t c ih =>
    rw [stripSlashes_concat]
    split
    · exact ih.trans (List.prefix_append t [c])
    · exact List.prefix_rfl

/-- What is left ends in no slash, or is short. -/
theorem utf8Len_stripSlashes_le (h : (stripSlashes k t).getLast? = some '/') :
    utf8Len (stripSlashes k t) ≤ k := by
  induction t using List.reverseRecOn with
  | nil => cases h
  | append_singleton t c ih =>
    rw [stripSlashes_concat] at h ⊢
    split
    · case isTrue hif =>
      rw [if_pos hif] at h
      exact ih h
    · case isFalse hif =>
      rw [if_neg hif, List.getLast?_concat] at h
      exact Nat.le_of_not_lt fun hlt => hif ⟨Option.some.inj h, hlt⟩

/-- The first bytes stay. -/
theorem stripSlashes_append (h : utf8Len u ≤ k) (t : List Char) :
    ∃ rest, stripSlashes k (u ++ t) = u ++ rest ∧ rest <+: t := by
  induction t using List.reverseRecOn with
  | nil =>
    refine ⟨[], ?_, List.prefix_rfl⟩
    rw [List.append_nil, stripSlashes_eq_self fun _ => h]
  | append_singleton t c ih =>
    obtain ⟨rest, hrest, hfront⟩ := ih
    rw [← List.append_assoc, stripSlashes_concat]
    split
    · exact ⟨rest, hrest, hfront.trans (List.prefix_append t [c])⟩
    · exact ⟨t ++ [c], List.append_assoc .., List.prefix_rfl⟩

theorem mem_slashed {path : List Char} : '\\' ∉ slashed path := by
  intro h
  obtain ⟨c, -, hc⟩ := List.mem_map.1 h
  split at hc
  · exact absurd hc (by decide)
  · case isFalse hne => exact hne hc

theorem slashed_eq_self (h : '\\' ∉ t) : slashed t = t := by
  refine (List.map_congr_left fun c hc => ?_).trans (List.map_id t)
  exact if_neg fun heq : c = '\\' => h (heq ▸ hc)

theorem slashed_backslashed (h : '\\' ∉ t) : slashed (backslashed t) = t := by
  rw [slashed, backslashed, List.map_map]
  refine (List.map_congr_left fun c hc => ?_).trans (List.map_id t)
  have hne : c ≠ '\\' := fun heq : c = '\\' => h (heq ▸ hc)
  rw [Function.comp]
  by_cases hslash : c = '/'
  · rw [if_pos hslash, if_pos rfl, hslash]
    rfl
  · rw [if_neg hslash, if_neg hne]
    rfl

end Slashes

/-! ### Normalized paths -/

/-- What `normalize_windows` leaves. -/
structure NormWindows (path : List Char) : Prop where
  slashes : '\\' ∉ path
  short : path.getLast? = some '/' → utf8Len path ≤ 3

/-- What `normalize_posix` leaves. -/
structure NormPosix (path : List Char) : Prop where
  slashes : '\\' ∉ path
  absolute : path.head? = some '/'
  root : path.getLast? = some '/' → path = ['/']

variable {path p t : List Char}

theorem normWindows_normalizeWindows (path : List Char) : NormWindows (normalizeWindows path) :=
  ⟨fun h => mem_slashed ((stripSlashes_isPrefix 3 _).subset h), utf8Len_stripSlashes_le⟩

theorem NormWindows.normalizeWindows_eq (h : NormWindows path) : normalizeWindows path = path := by
  rw [normalizeWindows, slashed_eq_self h.slashes, stripSlashes_eq_self h.short]

theorem eq_slash_of_utf8Len (hhead : path.head? = some '/') (h : utf8Len path ≤ 1) :
    path = ['/'] := by
  obtain ⟨rest, rfl⟩ := List.head?_eq_some_iff.1 hhead
  rw [utf8Len_cons] at h
  cases rest with
  | nil => rfl
  | cons c rest =>
    have hpos := Lib.utf8Len_pos (List.cons_ne_nil c rest)
    have hone : Char.utf8Size '/' = 1 := rfl
    omega

theorem normPosix_normalizePosix (path : List Char) : NormPosix (normalizePosix path) := by
  have hstart : ∃ rest, (if (slashed path).head? = some '/' then slashed path
      else '/' :: slashed path) = ['/'] ++ rest ∧ '\\' ∉ rest := by
    split
    · case isTrue h =>
      obtain ⟨rest, hrest⟩ := List.head?_eq_some_iff.1 h
      exact ⟨rest, hrest, fun hmem => mem_slashed (hrest ▸ List.mem_cons_of_mem _ hmem)⟩
    · exact ⟨slashed path, rfl, mem_slashed⟩
  obtain ⟨rest, hrest, hnone⟩ := hstart
  obtain ⟨rest', hrest', hfront⟩ := stripSlashes_append (k := 1) (u := ['/']) (by decide) rest
  have heq : normalizePosix path = '/' :: rest' := by
    rw [normalizePosix, hrest, hrest']
    rfl
  refine ⟨?_, by rw [heq]; rfl, fun h => ?_⟩
  · rw [heq]
    exact List.mem_cons.not.2 (not_or.2 ⟨by decide, fun hmem => hnone (hfront.subset hmem)⟩)
  · exact eq_slash_of_utf8Len (by rw [heq]; rfl) (utf8Len_stripSlashes_le h)

/-! ### Texts trimmed of slashes -/

section Trim

variable {c d : Char} {a b t : List Char}

@[simp] theorem trimEnd_nil : trimEnd c [] = [] := rfl

theorem trimEnd_concat :
    trimEnd c (t ++ [d]) = if d = c then trimEnd c t else t ++ [d] := by
  rw [trimEnd, List.rdropWhile_concat]
  simp [trimEnd]

theorem trimEnd_eq_self (h : t.getLast? ≠ some c) : trimEnd c t = t := by
  induction t using List.reverseRecOn with
  | nil => rfl
  | append_singleton t d =>
    rw [trimEnd_concat, if_neg]
    rintro rfl
    exact h List.getLast?_concat

theorem trimEnd_isPrefix (c : Char) (t : List Char) : trimEnd c t <+: t :=
  List.rdropWhile_prefix _ _

theorem getLast?_trimEnd : (trimEnd c t).getLast? ≠ some c := by
  induction t using List.reverseRecOn with
  | nil => rintro ⟨⟩
  | append_singleton t d ih =>
    rw [trimEnd_concat]
    split
    · exact ih
    · case isFalse hne =>
      rw [List.getLast?_concat]
      exact fun h => hne (Option.some.inj h)

theorem trimEnd_append : trimEnd c (a ++ b) =
    if trimEnd c b = [] then trimEnd c a else a ++ trimEnd c b := by
  induction b using List.reverseRecOn with
  | nil => rw [List.append_nil, if_pos trimEnd_nil]
  | append_singleton b d ih =>
    rw [← List.append_assoc, trimEnd_concat, trimEnd_concat]
    by_cases hd : d = c
    · rw [if_pos hd, if_pos hd, ih]
    · rw [if_neg hd, if_neg hd, if_neg (List.append_ne_nil_of_right_ne_nil b (List.cons_ne_nil d [])),
        List.append_assoc]

theorem utf8Len_trimEnd_le (c : Char) (t : List Char) : utf8Len (trimEnd c t) ≤ utf8Len t := by
  obtain ⟨rest, hrest⟩ := trimEnd_isPrefix c t
  rw [← congrArg utf8Len hrest, utf8Len_append]
  exact Nat.le_add_right _ _

/-- A text that does end in the character gets shorter. -/
theorem utf8Len_trimEnd_lt (h : t.getLast? = some c) : utf8Len (trimEnd c t) < utf8Len t := by
  refine lt_of_le_of_ne (utf8Len_trimEnd_le c t) fun heq => ?_
  obtain ⟨rest, hrest⟩ := trimEnd_isPrefix c t
  have hlength := congrArg utf8Len hrest
  rw [utf8Len_append, heq] at hlength
  have hnil : rest = [] := by
    by_contra hne
    have := Lib.utf8Len_pos hne
    omega
  rw [hnil, List.append_nil] at hrest
  exact getLast?_trimEnd (hrest ▸ h)

/-- The path that slashes at the end of `t` are left from. -/
def rooted (t : List Char) : List Char := if t = [] then ['/'] else t

theorem stripSlashes_one (h : t.head? = some '/') :
    stripSlashes 1 t = rooted (trimEnd '/' t) := by
  induction t using List.reverseRecOn with
  | nil => cases h
  | append_singleton t d ih =>
    rw [stripSlashes_concat, trimEnd_concat]
    by_cases hd : d = '/'
    · rw [if_pos hd]
      cases t with
      | nil => rw [hd]; rfl
      | cons e t =>
        rw [if_pos, ih h]
        refine ⟨hd, ?_⟩
        rw [List.cons_append, utf8Len_cons, utf8Len_append, utf8Len_cons]
        have he := e.utf8Size_pos
        have hd := d.utf8Size_pos
        omega
    · rw [if_neg fun h => hd h.1, if_neg hd, rooted, if_neg]
      exact List.append_ne_nil_of_right_ne_nil t (List.cons_ne_nil d [])

theorem normalizePosix_eq (hhead : t.head? = some '/') (h : '\\' ∉ t) :
    normalizePosix t = rooted (trimEnd '/' t) := by
  rw [normalizePosix, slashed_eq_self h, if_pos hhead, stripSlashes_one hhead]

/-- Slashes are trimmed of a path either way they are written. -/
theorem slashed_trimEnd_backslashed (h : '\\' ∉ t) :
    slashed (trimEnd '\\' (backslashed t)) = trimEnd '/' t := by
  induction t using List.reverseRecOn with
  | nil => rfl
  | append_singleton t d ih =>
    rw [List.mem_append, not_or, List.mem_singleton] at h
    have hconcat : backslashed (t ++ [d]) = backslashed t ++ [if d = '/' then '\\' else d] :=
      List.map_append
    rw [hconcat, trimEnd_concat, trimEnd_concat]
    by_cases hd : d = '/'
    · rw [if_pos hd, if_pos rfl, if_pos hd, ih h.1]
    · rw [if_neg hd, if_neg (Ne.symm h.2), if_neg hd]
      have hback := slashed_backslashed (t := t ++ [d])
        (List.mem_append.not.2 (not_or.2 ⟨h.1, List.mem_singleton.not.2 h.2⟩))
      rwa [hconcat, if_neg hd] at hback

end Trim

/-! ### What covers a path -/

/-- `front` is the path or a directory above it, and `tail` is the path below it. -/
def Covers (front path tail : List Char) : Prop :=
  ∃ head, path = head ++ tail ∧ folded head = folded front ∧
    (front.getLast? = some '/' ∨ tail = [] ∨ tail.head? = some '/')

section Covers

variable {front value tail tail' : List Char}

theorem Covers.utf8Len_eq (h : Covers front path tail) :
    utf8Len path = utf8Len front + utf8Len tail := by
  obtain ⟨head, rfl, hfold, -⟩ := h
  rw [utf8Len_append, utf8Len_eq_of_folded_eq hfold]

theorem Covers.folded_eq (h : Covers front path tail) :
    folded path = folded (front ++ tail) := by
  obtain ⟨head, rfl, hfold, -⟩ := h
  rw [folded_append, folded_append, hfold]

theorem Covers.sliceFrom_eq (h : Covers front path tail) :
    sliceFrom path (utf8Len front) = some tail := by
  obtain ⟨head, rfl, hfold, -⟩ := h
  rw [sliceFrom, ← utf8Len_eq_of_folded_eq hfold, splitAtByte_append]
  rfl

theorem Covers.tail_unique (h : Covers front path tail) (h' : Covers front path tail') :
    tail = tail' :=
  Option.some.inj (h.sliceFrom_eq.symm.trans h'.sliceFrom_eq)

/-- Two texts of one length that cover a path are the same up to case. -/
theorem Covers.folded_front_eq {front' : List Char} (h : Covers front path tail)
    (h' : Covers front' path tail') (hlength : utf8Len front = utf8Len front') :
    folded front = folded front' := by
  obtain ⟨head, rfl, hfold, -⟩ := h
  obtain ⟨head', heq, hfold', -⟩ := h'
  have hheads : utf8Len head = utf8Len head' := by
    rw [utf8Len_eq_of_folded_eq hfold, utf8Len_eq_of_folded_eq hfold', hlength]
  rw [← hfold, ← hfold', (append_inj_of_utf8Len heq hheads).1]

/-- A front is taken off whatever the case of its letters. -/
theorem stripPrefixAscii_eq (value front : List Char) :
    ∃ result, stripPrefixAscii value front = some result ∧ ∀ tail, result = some tail ↔
      ∃ head, value = head ++ tail ∧ folded head = folded front := by
  rw [stripPrefixAscii]
  cases hsplit : splitAtByte value (utf8Len front) with
  | none =>
    refine ⟨none, rfl, fun tail => ⟨fun h => (Option.some_ne_none _ h.symm).elim, ?_⟩⟩
    rintro ⟨head, rfl, hfold⟩
    rw [← utf8Len_eq_of_folded_eq hfold, splitAtByte_append] at hsplit
    cases hsplit
  | some parts =>
    obtain ⟨head, rest⟩ := parts
    obtain ⟨rfl, hlength⟩ := splitAtByte_eq_some hsplit
    have hslice : sliceFrom (head ++ rest) (utf8Len front) = some rest := by
      rw [sliceFrom, hsplit]
      rfl
    by_cases hfold : folded head = folded front
    · refine ⟨some rest, ?_, fun tail => ⟨?_, ?_⟩⟩
      · dsimp only
        rw [if_pos (eqAscii_iff.2 hfold), hslice]
        rfl
      · intro h
        exact ⟨head, by rw [Option.some.inj h], hfold⟩
      · rintro ⟨head', heq, hfold'⟩
        have hheads : utf8Len head = utf8Len head' := by
          rw [utf8Len_eq_of_folded_eq hfold', utf8Len_eq_of_folded_eq hfold]
        rw [(append_inj_of_utf8Len heq hheads).2]
    · refine ⟨none, if_neg fun h => hfold (eqAscii_iff.1 h), fun tail => ⟨fun h => ?_, ?_⟩⟩
      · exact (Option.some_ne_none _ h.symm).elim
      · rintro ⟨head', heq, hfold'⟩
        have hheads : utf8Len head = utf8Len head' := by
          rw [hlength, utf8Len_eq_of_folded_eq hfold']
        rw [← (append_inj_of_utf8Len heq hheads).1] at hfold'
        exact absurd hfold' hfold

/-- `prefix_matches` tells whether a mount covers a path, and cuts no character. -/
theorem prefixMatches_eq (path front : List Char) :
    ∃ covered, prefixMatches path front = some covered ∧
      (covered = true ↔ ∃ tail, Covers front path tail) := by
  rw [prefixMatches]
  split
  · case isTrue hroot =>
    refine ⟨_, rfl, ?_⟩
    rw [beq_iff_eq, hroot]
    constructor
    · intro h
      obtain ⟨tail, rfl⟩ := List.head?_eq_some_iff.1 h
      exact ⟨tail, ['/'], rfl, rfl, .inl rfl⟩
    · rintro ⟨tail, head, rfl, hfold, -⟩
      have hhead := (head?_eq_of_folded_eq (d := '/') rfl hfold).2 rfl
      rw [List.head?_append, hhead]
      rfl
  · obtain ⟨result, hresult, htail⟩ := stripPrefixAscii_eq path front
    refine ⟨_, by rw [hresult]; rfl, ?_⟩
    rw [Option.any_eq_true]
    constructor
    · rintro ⟨tail, hmem, h⟩
      obtain ⟨head, hpath, hfold⟩ := (htail tail).1 hmem
      refine ⟨tail, head, hpath, hfold, ?_⟩
      rwa [Bool.or_eq_true, Bool.or_eq_true, beq_iff_eq, beq_iff_eq, List.isEmpty_iff, or_assoc] at h
    · rintro ⟨tail, head, hpath, hfold, h⟩
      refine ⟨tail, (htail tail).2 ⟨head, hpath, hfold⟩, ?_⟩
      rwa [Bool.or_eq_true, Bool.or_eq_true, beq_iff_eq, beq_iff_eq, List.isEmpty_iff, or_assoc]

end Covers

/-! ### The mount that answers -/

theorem filterM_eq_filter {α : Type} {f : α → Option Bool} {q : α → Bool} {l : List α}
    (h : ∀ a ∈ l, f a = some (q a)) : l.filterM f = some (l.filter q) := by
  have haux : ∀ acc, l.filterAuxM f acc = some ((l.filter q).reverse ++ acc) := by
    induction l with
    | nil => exact fun acc => rfl
    | cons a l ih =>
      intro acc
      have ih := ih fun b hb => h b (List.mem_cons_of_mem a hb)
      rw [List.filterAuxM, h a List.mem_cons_self]
      change l.filterAuxM f (cond (q a) (a :: acc) acc) = _
      rw [ih]
      cases hqa : q a with
      | false => rw [cond_false, List.filter_cons_of_neg (by simp [hqa])]
      | true => rw [cond_true, List.filter_cons_of_pos hqa, List.reverse_cons, List.append_assoc,
          List.singleton_append]
  rw [List.filterM, haux]
  simp

/-- Which mount answers for a path, by the texts of the mounts on one side. -/
inductive Answers (side : Mount → List Char) (mounts : List Mount) (path : List Char) :
    Option Mount → Prop
  | none (h : ∀ mount ∈ mounts, ∀ tail, ¬ Covers (side mount) path tail) :
      Answers side mounts path none
  | some {mount : Mount} {tail : List Char} (hmem : mount ∈ mounts)
      (hcovers : Covers (side mount) path tail)
      (hmax : ∀ other ∈ mounts, ∀ rest, Covers (side other) path rest →
        utf8Len (side other) ≤ utf8Len (side mount)) :
      Answers side mounts path (some mount)

section Answers

variable {side : Mount → List Char} {mounts : List Mount} {mount : Mount}

/-- The best mount is the last of the longest that match. -/
theorem exists_answers (side : Mount → List Char) (mounts : List Mount) (path : List Char) :
    ∃ best, (do
        let mounts ← mounts.filterM fun mount => prefixMatches path (side mount)
        some (lastMax (fun mount => toLex (utf8Len (side mount), mount.precedence)) mounts)) =
      some best ∧ Answers side mounts path best := by
  have hchoice : ∀ mount : Mount, ∃ covered,
      prefixMatches path (side mount) = some covered ∧
        (covered = true ↔ ∃ tail, Covers (side mount) path tail) :=
    fun mount => prefixMatches_eq path (side mount)
  choose covered hcovered hiff using hchoice
  rw [filterM_eq_filter fun mount _ => hcovered mount]
  refine ⟨_, rfl, ?_⟩
  have hmem : ∀ {mount}, mount ∈ mounts.filter covered ↔
      mount ∈ mounts ∧ ∃ tail, Covers (side mount) path tail := fun {mount} => by
    rw [List.mem_filter, hiff]
  cases hbest : lastMax (fun mount : Mount => toLex (utf8Len (side mount), mount.precedence))
      (mounts.filter covered) with
  | none =>
    rw [lastMax_eq_none_iff] at hbest
    exact .none fun mount h tail htail => List.ne_nil_of_mem (hmem.2 ⟨h, tail, htail⟩) hbest
  | some mount =>
    have hlast := isLastMax_of_lastMax hbest
    obtain ⟨h, tail, htail⟩ := hmem.1 hlast.mem
    refine .some h htail fun other hother rest hrest => ?_
    have hle := hlast.le (hmem.2 ⟨hother, rest, hrest⟩)
    rcases Prod.Lex.toLex_le_toLex.1 hle with hlt | ⟨heq, -⟩
    · exact hlt.le
    · exact heq.le

theorem bestWindowsMount_eq (mapper : PathMapper) (path : List Char) :
    ∃ best, mapper.bestWindowsMount path = some best ∧
      Answers Mount.windows mapper.mounts path best :=
  exists_answers Mount.windows mapper.mounts path

theorem bestPosixMount_eq (mapper : PathMapper) (path : List Char) :
    ∃ best, mapper.bestPosixMount path = some best ∧
      Answers Mount.posix mapper.mounts path best :=
  exists_answers Mount.posix mapper.mounts path

theorem answers_of_bestWindowsMount {mapper : PathMapper} {best : Option Mount}
    (h : mapper.bestWindowsMount path = some best) :
    Answers Mount.windows mapper.mounts path best := by
  obtain ⟨best', hbest, hanswers⟩ := bestWindowsMount_eq mapper path
  rwa [← Option.some.inj (hbest.symm.trans h)]

theorem answers_of_bestPosixMount {mapper : PathMapper} {best : Option Mount}
    (h : mapper.bestPosixMount path = some best) :
    Answers Mount.posix mapper.mounts path best := by
  obtain ⟨best', hbest, hanswers⟩ := bestPosixMount_eq mapper path
  rwa [← Option.some.inj (hbest.symm.trans h)]

theorem mem_of_answers (h : Answers side mounts path (some mount)) : mount ∈ mounts := by
  cases h
  assumption

theorem le_of_answers {other : Mount} {rest : List Char} (h : Answers side mounts path (some mount))
    (hother : other ∈ mounts) (hcovers : Covers (side other) path rest) :
    utf8Len (side other) ≤ utf8Len (side mount) := by
  cases h with
  | some _ _ hmax => exact hmax other hother rest hcovers

theorem not_covers_of_answers {tail : List Char} (h : Answers side mounts path none)
    (hmem : mount ∈ mounts) : ¬ Covers (side mount) path tail := by
  cases h with
  | none hnone => exact hnone mount hmem tail

end Answers

/-! ### No slice cuts a character -/

theorem cygdriveRest_isSome (mapper : PathMapper) (path : List Char) :
    ∃ rest, mapper.cygdriveRest path = some rest := by
  rw [PathMapper.cygdriveRest]
  split
  · exact ⟨_, rfl⟩
  · split
    · exact ⟨_, rfl⟩
    · obtain ⟨result, hresult, -⟩ := stripPrefixAscii_eq path (trimEnd '/' mapper.cygdrive)
      rw [hresult]
      exact ⟨_, rfl⟩

theorem splitCygdrive_isSome (mapper : PathMapper) (path : List Char) :
    ∃ result, mapper.splitCygdrive path = some result := by
  obtain ⟨rest, hrest⟩ := cygdriveRest_isSome mapper path
  rw [PathMapper.splitCygdrive, hrest]
  exact ⟨_, rfl⟩

theorem sliceFrom_append (a t : List Char) : sliceFrom (a ++ t) (utf8Len a) = some t := by
  rw [sliceFrom, splitAtByte_append]
  rfl

theorem splitDrive_cons {d : Char} (hd : d.isAlpha = true) (rest : List Char) :
    splitDrive (d :: ':' :: rest) = some (some (d, rest)) := by
  have hslice : sliceFrom (d :: ':' :: rest) 2 = some rest := by
    have happend := sliceFrom_append [d, ':'] rest
    rwa [utf8Len_cons, utf8Size_of_isAlpha hd] at happend
  rw [splitDrive, if_pos hd, hslice]
  rfl

/-- The two kinds of absolute paths, with slashes. -/
inductive Absolute : List Char → Prop
  | drive {d : Char} {rest : List Char} (hd : d.isAlpha = true) :
      Absolute (d :: ':' :: '/' :: rest)
  | unc {rest : List Char} : Absolute ('/' :: '/' :: rest)

theorem absolute_slashed (h : isWindowsAbsolute p = true) : Absolute (slashed p) := by
  unfold isWindowsAbsolute at h
  rw [Bool.or_eq_true, Bool.or_eq_true, List.isPrefixOf_iff_prefix,
    List.isPrefixOf_iff_prefix] at h
  obtain (h | ⟨rest, rfl⟩) | ⟨rest, rfl⟩ := h
  · split at h
    · case h_1 d s rest =>
      rw [Bool.and_eq_true, Bool.or_eq_true, beq_iff_eq, beq_iff_eq] at h
      have hne : d ≠ '\\' := by
        rintro rfl
        exact absurd h.1 (by decide)
      obtain ⟨hd, hs⟩ := h
      have hslashed : slashed (d :: ':' :: s :: rest) = d :: ':' :: '/' :: slashed rest := by
        rcases hs with rfl | rfl <;> simp [slashed, hne]
      exact hslashed ▸ .drive hd
    · cases h
  · exact (.unc : Absolute ('/' :: '/' :: slashed rest))
  · exact (.unc : Absolute ('/' :: '/' :: slashed rest))

/-- The slashes at the end that are taken away are not what makes a path absolute. -/
theorem absolute_stripSlashes (h : Absolute path) : Absolute (stripSlashes 3 path) := by
  cases h with
  | @drive d rest hd =>
    have hlength : utf8Len [d, ':', '/'] ≤ 3 := by
      rw [utf8Len_cons, utf8Size_of_isAlpha hd]
      decide
    obtain ⟨rest', heq, -⟩ := stripSlashes_append hlength rest
    change stripSlashes 3 (d :: ':' :: '/' :: rest) = _ at heq
    exact heq ▸ .drive hd
  | @unc rest =>
    obtain ⟨rest', heq, -⟩ := stripSlashes_append (u := ['/', '/']) (by decide : _ ≤ 3) rest
    change stripSlashes 3 ('/' :: '/' :: rest) = _ at heq
    exact heq ▸ .unc

theorem absolute_normalizeWindows (h : isWindowsAbsolute p = true) :
    Absolute (normalizeWindows p) :=
  absolute_stripSlashes (absolute_slashed h)

/-- What `windows_to_posix` makes of an absolute path. -/
inductive Mapped (mapper : PathMapper) (path : List Char) : List Char → Prop
  | mount {mount : Mount} {tail : List Char}
      (hbest : mapper.bestWindowsMount path = some (some mount))
      (hcovers : Covers mount.windows path tail) :
      Mapped mapper path (appendTail mount.posix tail)
  | drive {d : Char} {tail : List Char} (hbest : mapper.bestWindowsMount path = some none)
      (hpath : path = d :: ':' :: tail) (hd : d.isAlpha = true) :
      Mapped mapper path (appendTail (mapper.driveBase d.toLower) tail)
  | unc (hbest : mapper.bestWindowsMount path = some none) (hpath : "//".toList <+: path) :
      Mapped mapper path path

/-- What an absolute path is mapped to. -/
theorem windowsToPosix_eq (mapper : PathMapper) (h : isWindowsAbsolute p = true) :
    ∃ q, mapper.windowsToPosix p = some q ∧ Mapped mapper (normalizeWindows p) q := by
  have hne : ¬ (p = [] ∨ isWindowsAbsolute p = false) := by
    rintro (rfl | hf)
    · exact absurd h (by decide)
    · exact absurd (h.symm.trans hf) (by decide)
  rw [PathMapper.windowsToPosix, if_neg hne]
  obtain ⟨best, hbest, hanswers⟩ := bestWindowsMount_eq mapper (normalizeWindows p)
  dsimp only
  rw [hbest]
  cases hanswers with
  | @some mount tail hmem hcovers hmax =>
    refine ⟨appendTail mount.posix tail, ?_, .mount hbest hcovers⟩
    change (sliceFrom _ _).bind _ = _
    rw [hcovers.sliceFrom_eq]
    rfl
  | none hnone =>
    have habs := absolute_normalizeWindows h
    generalize normalizeWindows p = path at *
    cases habs with
    | @drive d rest hd =>
      refine ⟨_, ?_, .drive hbest rfl hd⟩
      change (splitDrive _).bind _ = _
      rw [splitDrive_cons hd]
      rfl
    | unc => exact ⟨_, rfl, .unc hbest ⟨_, rfl⟩⟩

/-- What `posix_to_windows` makes of a path of the shell: `path` is the one given and
`normal` is the normal one. -/
inductive MapsBack (mapper : PathMapper) (path normal : List Char) : List Char → Prop
  | mount {mount : Mount} {tail : List Char}
      (hbest : mapper.bestPosixMount normal = some (some mount)) (hroot : mount.posix ≠ ['/'])
      (hcovers : Covers mount.posix normal tail) :
      MapsBack mapper path normal (appendWindowsTail mount.windows tail)
  | drive {best : Option Mount} {d : Char} {tail : List Char}
      (hbest : mapper.bestPosixMount normal = some best)
      (hroot : ∀ mount, best = some mount → mount.posix = ['/'])
      (hdrive : mapper.splitCygdrive normal = some (some (d, tail))) :
      MapsBack mapper path normal (appendWindowsTail [d.toUpper, ':', '\\'] tail)
  | unc {best : Option Mount} (hbest : mapper.bestPosixMount normal = some best)
      (hroot : ∀ mount, best = some mount → mount.posix = ['/'])
      (hdrive : mapper.splitCygdrive normal = some none) (hunc : "//".toList <+: normal) :
      MapsBack mapper path normal (backslashed normal)
  | root {mount : Mount} {tail : List Char}
      (hbest : mapper.bestPosixMount normal = some (some mount)) (hroot : mount.posix = ['/'])
      (hdrive : mapper.splitCygdrive normal = some none) (hunc : ¬ "//".toList <+: normal)
      (hcovers : Covers mount.posix normal tail) :
      MapsBack mapper path normal (appendWindowsTail mount.windows tail)
  | same (hbest : mapper.bestPosixMount normal = some none)
      (hdrive : mapper.splitCygdrive normal = some none) (hunc : ¬ "//".toList <+: normal) :
      MapsBack mapper path normal path

theorem throughMount_eq {mount : Mount} (h : Covers mount.posix path t) :
    PathMapper.throughMount mount path = some (appendWindowsTail mount.windows t) := by
  rw [PathMapper.throughMount, h.sliceFrom_eq]
  rfl

/-- What an absolute path is mapped back to. -/
theorem posixToWindows_eq (mapper : PathMapper) (h : p.head? = some '/') :
    ∃ r, mapper.posixToWindows p = some r ∧ MapsBack mapper p (normalizePosix p) r := by
  have hne : ¬ (p = [] ∨ p.head? ≠ some '/') := by
    rintro (rfl | hf)
    · cases h
    · exact hf h
  rw [PathMapper.posixToWindows, if_neg hne]
  obtain ⟨best, hbest, hanswers⟩ := bestPosixMount_eq mapper (normalizePosix p)
  obtain ⟨drive, hdrive⟩ := splitCygdrive_isSome mapper (normalizePosix p)
  dsimp only
  rw [hbest, Option.bind_eq_bind, Option.bind_some]
  by_cases hroot : ∃ mount, best = some mount ∧ mount.posix ≠ ['/']
  · obtain ⟨mount, rfl, hroot⟩ := hroot
    have hfilter : (some mount).filter (fun mount => decide (mount.posix ≠ ['/'])) = some mount :=
      Option.filter_some_pos (decide_eq_true hroot)
    rw [hfilter]
    cases hanswers with
    | @some _ tail hmem hcovers =>
      exact ⟨_, throughMount_eq hcovers, .mount hbest hroot hcovers⟩
  · have hroot : ∀ mount, best = some mount → mount.posix = ['/'] := fun mount heq => by
      by_contra hne
      exact hroot ⟨mount, heq, hne⟩
    have hfilter : best.filter (fun mount => decide (mount.posix ≠ ['/'])) = none := by
      rw [Option.filter_eq_none_iff]
      intro mount heq
      rw [decide_eq_true_iff, not_not]
      exact hroot mount heq
    rw [hfilter, hdrive, Option.bind_eq_bind, Option.bind_some]
    cases drive with
    | some parts =>
      obtain ⟨d, tail⟩ := parts
      exact ⟨_, rfl, .drive hbest hroot hdrive⟩
    | none =>
      dsimp only
      split
      · case isTrue hunc =>
        exact ⟨_, rfl, .unc hbest hroot hdrive (List.isPrefixOf_iff_prefix.1 hunc)⟩
      · case isFalse hunc =>
        have hunc := fun h => hunc (List.isPrefixOf_iff_prefix.2 h)
        cases hanswers with
        | none => exact ⟨_, rfl, .same hbest hdrive hunc⟩
        | @some mount tail hmem hcovers =>
          exact ⟨_, throughMount_eq hcovers, .root hbest (hroot mount rfl) hdrive hunc hcovers⟩

theorem posixToWindows_isSome (mapper : PathMapper) (path : List Char) :
    (mapper.posixToWindows path).isSome = true := by
  by_cases h : path.head? = some '/'
  · obtain ⟨r, hr, -⟩ := posixToWindows_eq mapper h
    exact Option.isSome_of_eq_some hr
  · rw [PathMapper.posixToWindows, if_pos (.inr h)]
    rfl

/-! ### What every mapper keeps -/

/-- What is kept as mounts are added. -/
structure Sound (mapper : PathMapper) : Prop where
  windows : ∀ mount ∈ mapper.mounts, NormWindows mount.windows ∧ mount.windows ≠ []
  posix : ∀ mount ∈ mapper.mounts, NormPosix mount.posix
  distinct : mapper.mounts.Pairwise fun a b => folded a.posix ≠ folded b.posix
  cygdrive : NormPosix mapper.cygdrive

section Sound

variable {mapper mapper' : PathMapper} {join : List Char → List Char → List Char}
  {root windows posix : List Char} {entry : FstabEntry}

/-- There is one mount at a point. -/
theorem Sound.eq_of_folded_eq {a b : Mount} (h : Sound mapper) (ha : a ∈ mapper.mounts)
    (hb : b ∈ mapper.mounts) (hfold : folded a.posix = folded b.posix) : a = b := by
  by_contra hne
  have hsymm : Std.Symm fun a b : Mount => folded a.posix ≠ folded b.posix :=
    ⟨fun a b hab heq => hab heq.symm⟩
  exact h.distinct.forall ha hb hne hfold

theorem sound_addMount (h : Sound mapper) : Sound (mapper.addMount windows posix) := by
  rw [PathMapper.addMount]
  split
  · exact h
  · case isFalse hne =>
    rw [not_or] at hne
    refine ⟨?_, ?_, ?_, h.cygdrive⟩
    · intro mount hmem
      rcases List.mem_append.1 hmem with hmem | hmem
      · exact h.windows mount (List.mem_filter.1 hmem).1
      · rw [List.mem_singleton.1 hmem]
        exact ⟨normWindows_normalizeWindows windows, hne.1⟩
    · intro mount hmem
      rcases List.mem_append.1 hmem with hmem | hmem
      · exact h.posix mount (List.mem_filter.1 hmem).1
      · rw [List.mem_singleton.1 hmem]
        exact normPosix_normalizePosix posix
    · refine List.pairwise_append.2 ⟨h.distinct.filter _, List.pairwise_singleton _ _, ?_⟩
      intro mount hmem new hnew
      rw [List.mem_singleton.1 hnew]
      intro hfold
      have hkept := (List.mem_filter.1 hmem).2
      rw [eqAscii_iff.2 hfold] at hkept
      cases hkept

theorem sound_new (join : List Char → List Char → List Char) (kind : RuntimeKind) (root : List Char) (subsystem : Option (List Char)) :
    Sound (PathMapper.new join kind root subsystem) := by
  have hcygdrive : NormPosix (if kind = .cygwin then "/cygdrive".toList else ['/']) := by
    split
    · exact ⟨by decide, rfl, by decide⟩
    · exact ⟨by decide, rfl, fun _ => rfl⟩
  have hempty : Sound ⟨[], if kind = .cygwin then "/cygdrive".toList else ['/'], none, 0⟩ :=
    ⟨by simp, by simp, List.Pairwise.nil, hcygdrive⟩
  have hbin : ∀ {mapper : PathMapper} {windows posix : List Char}, Sound mapper →
      Sound (if kind = .msys then mapper.addMount windows posix else mapper) := fun h => by
    split
    · exact sound_addMount h
    · exact h
  unfold PathMapper.new
  cases subsystem with
  | none => exact sound_addMount (sound_addMount (hbin (sound_addMount hempty)))
  | some subsystem =>
    dsimp only
    split
    · exact sound_addMount (sound_addMount (sound_addMount (hbin (sound_addMount hempty))))
    · exact sound_addMount (sound_addMount (hbin (sound_addMount hempty)))

theorem applyEntry_mount (join : List Char → List Char → List Char) (mapper : PathMapper)
    (root native posix : List Char) (bind : Bool) :
    ∃ native', mapper.applyEntry join root (.mount native posix bind) =
      if isWindowsAbsolute native' = false then some mapper
      else some (mapper.addMount native' posix) := by
  obtain ⟨native', hnative⟩ := Option.isSome_iff_exists.1 (posixToWindows_isSome mapper native)
  rw [PathMapper.applyEntry, hnative]
  split
  · exact ⟨native', rfl⟩
  · split
    · exact ⟨_, rfl⟩
    · exact ⟨_, rfl⟩

theorem sound_applyEntry (h : Sound mapper)
    (happly : mapper.applyEntry join root entry = some mapper') : Sound mapper' := by
  cases entry with
  | cygdrive point =>
    cases happly
    exact ⟨h.windows, h.posix, h.distinct, normPosix_normalizePosix point⟩
  | usertemp point =>
    rw [PathMapper.applyEntry] at happly
    split at happly
    · cases happly
      exact sound_addMount h
    · cases happly
      exact h
  | mount native posix bind =>
    obtain ⟨native', heq⟩ := applyEntry_mount join mapper root native posix bind
    rw [heq] at happly
    split at happly
    · cases happly
      exact h
    · cases happly
      exact sound_addMount h

/-- **Every mapper that can be built keeps what the mounts promise.** -/
theorem Built.sound (h : Built join mapper) : Sound mapper := by
  induction h with
  | new kind root subsystem userTemp =>
    have hnew := sound_new join kind root subsystem
    exact ⟨hnew.windows, hnew.posix, hnew.distinct, hnew.cygdrive⟩
  | entry _ happly ih => exact sound_applyEntry ih happly

end Sound

end Mise.WindowsPosix
