/-
# A Windows path through the shell and back

`mise-util/src/windows_posix.rs`: `windows_to_posix` takes the longest mount by its
Windows path, `posix_to_windows` the longest by its place in the shell, and a drive
before the mount at `/`.  A path comes back just when both take the same way
(`Kept`).
-/

import Mise.Util.PathMounts

namespace Mise.WindowsPosix

open Lib
open String (utf8Len utf8Len_cons utf8Len_append utf8Len_nil)

variable {w tail t b : List Char} {base : List Char}

/-! ### Tails of paths -/

/-- A tail from its slash on, without slashes at its end. -/
def below (tail : List Char) : List Char := trimEnd '/' (ensureLeadingSlash tail)

/-- The place in the shell of a tail behind `base`. -/
def place (base tail : List Char) : List Char := rooted (trimEnd '/' base ++ below tail)

/-- A directory of Windows with a tail behind it. -/
def rejoined (base tail : List Char) : List Char :=
  if tail = [] then base else trimEnd '/' base ++ tail

/-- A tail and the directory before it are one path again after the shell: there is one
slash between them, and none behind. -/
def Rejoins (base tail : List Char) : Prop :=
  tail = [] ∨ tail.getLast? ≠ some '/' ∧
    (base.getLast? = some '/' → tail.head? ≠ some '/' ∧ ¬ ['/', '/'] <:+ base)

theorem head?_ensureLeadingSlash (tail : List Char) :
    (ensureLeadingSlash tail).head? = some '/' := by
  rw [ensureLeadingSlash]
  split
  · assumption
  · rfl

theorem getLast?_ensureLeadingSlash (h : tail ≠ []) :
    (ensureLeadingSlash tail).getLast? = tail.getLast? := by
  rw [ensureLeadingSlash]
  split
  · rfl
  · rw [List.getLast?_cons, List.getLast?_eq_some_getLast h]
    rfl

theorem utf8Len_ensureLeadingSlash_le (tail : List Char) :
    utf8Len (ensureLeadingSlash tail) ≤ utf8Len tail + 1 := by
  rw [ensureLeadingSlash]
  split
  · exact Nat.le_succ _
  · exact (utf8Len_cons '/' tail).le

theorem utf8Len_below_le (tail : List Char) : utf8Len (below tail) ≤ utf8Len tail + 1 :=
  (utf8Len_trimEnd_le '/' _).trans (utf8Len_ensureLeadingSlash_le tail)

@[simp] theorem below_nil : below [] = [] := rfl

theorem below_eq (hne : tail ≠ []) (hlast : tail.getLast? ≠ some '/') :
    below tail = ensureLeadingSlash tail :=
  trimEnd_eq_self (by rwa [getLast?_ensureLeadingSlash hne])

/-- A tail that begins where a directory ends, and ends in no slash, is as it was. -/
theorem below_eq_self (hhead : tail = [] ∨ tail.head? = some '/')
    (hlast : tail.getLast? ≠ some '/') : below tail = tail := by
  rcases hhead with rfl | hhead
  · rfl
  · have hne : tail ≠ [] := by
      rintro rfl
      cases hhead
    rw [below_eq hne hlast, ensureLeadingSlash, if_pos hhead]

theorem head?_below (h : below tail ≠ []) : (below tail).head? = some '/' := by
  obtain ⟨rest, hrest⟩ := trimEnd_isPrefix '/' (ensureLeadingSlash tail)
  have hhead : (below tail ++ rest).head? = some '/' :=
    (congrArg List.head? hrest).trans (head?_ensureLeadingSlash tail)
  rwa [List.head?_append_of_ne_nil _ h] at hhead

theorem getLast?_below : (below tail).getLast? ≠ some '/' := getLast?_trimEnd

theorem not_mem_ensureLeadingSlash (h : '\\' ∉ tail) : '\\' ∉ ensureLeadingSlash tail := by
  rw [ensureLeadingSlash]
  split
  · exact h
  · exact List.mem_cons.not.2 (not_or.2 ⟨by decide, h⟩)

theorem trimEnd_trimEnd (t : List Char) : trimEnd '/' (trimEnd '/' t) = trimEnd '/' t :=
  trimEnd_eq_self getLast?_trimEnd

theorem head?_appendTail (h : base.head? = some '/') (tail : List Char) :
    (appendTail base tail).head? = some '/' := by
  rw [appendTail]
  split
  · exact h
  · obtain ⟨rest, hrest⟩ := trimEnd_isPrefix '/' base
    cases htrim : trimEnd '/' base with
    | nil => exact head?_ensureLeadingSlash tail
    | cons c cs =>
      rw [← hrest, htrim] at h
      exact h

/-- **The normal form of a path of the shell that is put together.** -/
theorem normalizePosix_appendTail (hhead : base.head? = some '/') (hbase : '\\' ∉ base)
    (htail : '\\' ∉ tail) : normalizePosix (appendTail base tail) = place base tail := by
  rw [appendTail]
  split
  · case isTrue hnil =>
    rw [normalizePosix_eq hhead hbase, place, hnil, below_nil, List.append_nil]
  · case isFalse hne =>
    have hmem : '\\' ∉ trimEnd '/' base ++ ensureLeadingSlash tail := by
      rw [List.mem_append, not_or]
      exact ⟨fun h => hbase ((trimEnd_isPrefix '/' base).subset h), not_mem_ensureLeadingSlash htail⟩
    have hfront := head?_appendTail hhead tail
    rw [appendTail, if_neg hne] at hfront
    rw [normalizePosix_eq hfront hmem, trimEnd_append, trimEnd_trimEnd, place, below]
    split
    · case isTrue hnil => rw [hnil, List.append_nil]
    · rfl

theorem appendWindowsTail_slashed (base tail : List Char) :
    appendWindowsTail (slashed base) tail = appendWindowsTail base tail := by
  have hback : backslashed (slashed base) = backslashed base := by
    rw [backslashed, backslashed, slashed, List.map_map]
    refine List.map_congr_left fun c _ => ?_
    rw [Function.comp]
    by_cases hc : c = '\\'
    · rw [if_pos hc, if_pos rfl, hc]
      rfl
    · rw [if_neg hc]
  rw [appendWindowsTail, appendWindowsTail, hback]

theorem slashed_append (a b : List Char) : slashed (a ++ b) = slashed a ++ slashed b :=
  List.map_append

/-- **The normal form of a path of Windows that is put together.** -/
theorem normalizeWindows_appendWindowsTail (hbase : NormWindows base) (htail : '\\' ∉ tail)
    (hlast : tail.getLast? ≠ some '/') :
    normalizeWindows (appendWindowsTail base tail) = rejoined base (below tail) := by
  rw [appendWindowsTail, rejoined]
  by_cases hnil : tail = []
  · rw [if_pos hnil, hnil, if_pos below_nil, normalizeWindows, slashed_backslashed hbase.slashes,
      stripSlashes_eq_self hbase.short]
  · have hne : ensureLeadingSlash tail ≠ [] := by
      intro heq
      have hhead := head?_ensureLeadingSlash tail
      rw [heq] at hhead
      cases hhead
    have hslashed : slashed (trimEnd '\\' (backslashed base) ++
        backslashed (ensureLeadingSlash tail)) = trimEnd '/' base ++ ensureLeadingSlash tail := by
      rw [slashed_append, slashed_trimEnd_backslashed hbase.slashes,
        slashed_backslashed (not_mem_ensureLeadingSlash htail)]
    rw [if_neg hnil, below_eq hnil hlast, if_neg hne, normalizeWindows, hslashed]
    refine stripSlashes_eq_self fun hend => absurd ?_ hlast
    rwa [List.getLast?_append_of_ne_nil _ hne, getLast?_ensureLeadingSlash hnil] at hend

theorem utf8Len_rejoined_le (base tail : List Char) :
    utf8Len (rejoined base tail) ≤ utf8Len base + utf8Len tail := by
  rw [rejoined]
  split
  · exact Nat.le_add_right _ _
  · rw [utf8Len_append]
    exact Nat.add_le_add_right (utf8Len_trimEnd_le '/' base) _

/-- Which tails are a path again behind their directory. -/
theorem folded_rejoined_iff
    (hcovers : base.getLast? = some '/' ∨ tail = [] ∨ tail.head? = some '/') :
    folded (rejoined base (below tail)) = folded (base ++ tail) ↔ Rejoins base tail := by
  constructor
  · intro hfold
    refine or_iff_not_imp_left.2 fun hne => ?_
    have hlength := utf8Len_eq_of_folded_eq hfold
    rw [utf8Len_append] at hlength
    have hpos := Lib.utf8Len_pos hne
    have hbelow : below tail ≠ [] := by
      intro heq
      rw [rejoined, if_pos heq] at hlength
      omega
    rw [rejoined, if_neg hbelow, utf8Len_append] at hlength
    have hbase := utf8Len_trimEnd_le '/' base
    have htail := utf8Len_ensureLeadingSlash_le tail
    have hlast : tail.getLast? ≠ some '/' := by
      intro hlast
      have hlt : utf8Len (below tail) < utf8Len (ensureLeadingSlash tail) :=
        utf8Len_trimEnd_lt (by rwa [getLast?_ensureLeadingSlash hne])
      rcases hcovers with hend | hnil | hhead
      · have := utf8Len_trimEnd_lt hend
        omega
      · exact hne hnil
      · rw [ensureLeadingSlash, if_pos hhead] at hlt
        omega
    refine ⟨hlast, fun hend => ?_⟩
    have hlt := utf8Len_trimEnd_lt hend
    have hle := utf8Len_below_le tail
    constructor
    · intro hhead
      rw [below_eq hne hlast, ensureLeadingSlash, if_pos hhead] at hlength
      omega
    · rintro ⟨front, rfl⟩
      have htwo : trimEnd '/' (front ++ ['/', '/']) = trimEnd '/' front :=
        trimEnd_append.trans (if_pos rfl)
      have hfront := utf8Len_trimEnd_le '/' front
      have hslashes : utf8Len ['/', '/'] = 2 := rfl
      rw [htwo, utf8Len_append] at hlength
      omega
  · rintro (rfl | ⟨hlast, hslash⟩)
    · rw [below_nil, rejoined, if_pos rfl, List.append_nil]
    · by_cases hnil : tail = []
      · rw [hnil, below_nil, rejoined, if_pos rfl, List.append_nil]
      have hne : ensureLeadingSlash tail ≠ [] := by
        intro heq
        have hhead := head?_ensureLeadingSlash tail
        rw [heq] at hhead
        cases hhead
      rw [below_eq hnil hlast, rejoined, if_neg hne]
      by_cases hend : base.getLast? = some '/'
      · obtain ⟨hhead, hdouble⟩ := hslash hend
        obtain ⟨front, rfl⟩ := List.getLast?_eq_some_iff.1 hend
        have hfront : trimEnd '/' (front ++ ['/']) = front := by
          rw [trimEnd_concat, if_pos rfl]
          refine trimEnd_eq_self fun hlast => hdouble ?_
          obtain ⟨front', rfl⟩ := List.getLast?_eq_some_iff.1 hlast
          exact ⟨front', by simp⟩
        rw [hfront, ensureLeadingSlash, if_neg hhead, List.append_assoc, List.singleton_append]
      · rcases hcovers with hend' | hnil' | hhead
        · exact absurd hend' hend
        · exact absurd hnil' hnil
        · rw [trimEnd_eq_self hend, ensureLeadingSlash, if_pos hhead]

/-- Before a slash of an absolute path that no slash is before stand two characters. -/
theorem two_le_of_absolute {u v : List Char} (habs : Absolute (u ++ '/' :: v))
    (hfold : folded u = folded (trimEnd '/' base)) (hne : trimEnd '/' base ≠ []) :
    2 ≤ utf8Len u := by
  cases u with
  | nil => exact absurd (folded_eq_nil_iff.1 hfold.symm) hne
  | cons c u =>
    cases u with
    | nil =>
      have hc : c = '/' := by
        cases habs
        rfl
      subst hc
      exact absurd ((getLast?_eq_of_folded_eq (by decide) hfold).1 rfl) getLast?_trimEnd
    | cons d u =>
      have hc := c.utf8Size_pos
      have hd := d.utf8Size_pos
      rw [utf8Len_cons, utf8Len_cons]
      omega

/-- A directory that gives a path back covers it. -/
theorem covers_of_rejoined (habs : Absolute w) (hbase : NormWindows base)
    (htail : tail = [] ∨ tail.head? = some '/') (hfold : folded w = folded (rejoined base tail))
    (hne : tail ≠ [] → trimEnd '/' base ≠ []) : ∃ rest, Covers base w rest := by
  rcases htail with rfl | hhead
  · rw [rejoined, if_pos rfl] at hfold
    exact ⟨[], w, (List.append_nil w).symm, hfold, .inr (.inl rfl)⟩
  have hnil : tail ≠ [] := by
    rintro rfl
    cases hhead
  rw [rejoined, if_neg hnil, folded_append] at hfold
  obtain ⟨u, v, rfl, hu, hv⟩ := exists_append_of_folded_eq hfold
  have hv' : v.head? = some '/' := (head?_eq_of_folded_eq (by decide) hv).2 hhead
  by_cases hend : base.getLast? = some '/'
  · obtain ⟨v, rfl⟩ := List.head?_eq_some_iff.1 hv'
    -- the part before the slashes is a drive, so there is one slash
    have htwo : 2 ≤ utf8Len u := two_le_of_absolute habs hu (hne hnil)
    obtain ⟨rest, hrest⟩ := trimEnd_isPrefix '/' base
    have hbase' : base = trimEnd '/' base ++ ['/'] := by
      have hlength := hbase.short hend
      rw [← hrest, utf8Len_append, ← utf8Len_eq_of_folded_eq hu] at hlength
      have hne : rest ≠ [] := by
        rintro rfl
        rw [List.append_nil] at hrest
        exact getLast?_trimEnd (hrest.symm ▸ hend)
      rw [← hrest, List.getLast?_append_of_ne_nil _ hne] at hend
      obtain ⟨front, rfl⟩ := List.getLast?_eq_some_iff.1 hend
      have hfront : front = [] := by
        by_contra hne
        have hpos := Lib.utf8Len_pos hne
        rw [utf8Len_append] at hlength
        have hslash : utf8Len ['/'] = 1 := rfl
        omega
      rw [hfront] at hrest
      exact hrest.symm
    refine ⟨v, u ++ ['/'], (List.append_cons u '/' v), ?_, .inl hend⟩
    rw [hbase', folded_append, folded_append, hu]
  · rw [trimEnd_eq_self hend] at hu
    exact ⟨v, u, rfl, hu, .inr (.inr hv')⟩

/-! ### Back from a place in the shell -/

section Back

variable {mapper : PathMapper} {mount other : Mount} {n front point : List Char} {d : Char}

/-- What is below a mount's point in a normal path. -/
theorem tail_of_covers (hn : NormPosix n) (hpoint : NormPosix point) (h : Covers point n t) :
    '\\' ∉ t ∧ t.getLast? ≠ some '/' ∧ (point ≠ ['/'] → t = [] ∨ t.head? = some '/') := by
  obtain ⟨head, rfl, hfold, hcut⟩ := h
  refine ⟨fun hmem => hn.slashes (List.mem_append_right head hmem), fun hlast => ?_, fun hne => ?_⟩
  · have hne : t ≠ [] := by
      rintro rfl
      cases hlast
    have hroot := hn.root (by rwa [List.getLast?_append_of_ne_nil _ hne])
    have hhead := (head?_eq_of_folded_eq (by decide) hfold).2 hpoint.absolute
    obtain ⟨rest, rfl⟩ := List.head?_eq_some_iff.1 hhead
    have hnil := (List.cons.inj hroot).2
    exact hne (List.append_eq_nil_iff.1 hnil).2
  · exact hcut.resolve_left fun hlast => hne (hpoint.root hlast)

theorem normalizeWindows_through (hs : Sound mapper) (hmem : mount ∈ mapper.mounts)
    (hn : NormPosix n) (h : Covers mount.posix n t) :
    normalizeWindows (appendWindowsTail mount.windows t) = rejoined mount.windows (below t) := by
  obtain ⟨hslashes, hlast, -⟩ := tail_of_covers hn (hs.posix mount hmem) h
  exact normalizeWindows_appendWindowsTail (hs.windows mount hmem).1 hslashes hlast

/-- Where a drive was found. -/
theorem exists_of_splitCygdrive (h : mapper.splitCygdrive n = some (some (d, t))) :
    d.isAlpha = true ∧ (t = [] ∨ t.head? = some '/') ∧ ∃ front, n = front ++ '/' :: d :: t := by
  obtain ⟨rest, hrest⟩ := cygdriveRest_isSome mapper n
  rw [PathMapper.splitCygdrive, hrest] at h
  cases rest with
  | none => cases h
  | some rest =>
    cases rest with
    | nil => cases h
    | cons c rest =>
      have hif : (if c.isAlpha && (rest.isEmpty || rest.head? == some '/') then some (c, rest)
          else none) = some (d, t) := Option.some.inj h
      split at hif
      · case isTrue hdrive =>
        cases hif
        rw [Bool.and_eq_true, Bool.or_eq_true, List.isEmpty_iff, beq_iff_eq] at hdrive
        refine ⟨hdrive.1, hdrive.2, ?_⟩
        rw [PathMapper.cygdriveRest] at hrest
        split at hrest
        · case isTrue hproc =>
          obtain ⟨more, rfl⟩ := List.isPrefixOf_iff_prefix.1 hproc
          cases Option.some.inj hrest
          exact ⟨"/proc/cygdrive".toList, rfl⟩
        · split at hrest
          · have hrest := Option.some.inj hrest
            split at hrest
            · case isTrue hhead =>
              obtain ⟨more, rfl⟩ := List.head?_eq_some_iff.1 hhead
              cases hrest
              exact ⟨[], rfl⟩
            · cases hrest
          · obtain ⟨result, hresult, hstrip⟩ :=
              stripPrefixAscii_eq n (trimEnd '/' mapper.cygdrive)
            rw [hresult] at hrest
            have hrest := Option.some.inj hrest
            obtain ⟨more, rfl, hmore⟩ := Option.bind_eq_some_iff.1 hrest
            obtain ⟨front, rfl, -⟩ := (hstrip more).1 rfl
            split at hmore
            · case isTrue hhead =>
              obtain ⟨more, rfl⟩ := List.head?_eq_some_iff.1 hhead
              cases hmore
              exact ⟨front, rfl⟩
            · cases hmore
      · cases hif

/-- What is behind a drive ends in no slash. -/
theorem getLast?_of_splitCygdrive (hn : NormPosix n)
    (hdrive : mapper.splitCygdrive n = some (some (d, t))) : t.getLast? ≠ some '/' := by
  obtain ⟨-, -, front, rfl⟩ := exists_of_splitCygdrive hdrive
  intro hlast
  have hne : t ≠ [] := by
    rintro rfl
    cases hlast
  have hroot := hn.root (by
    rwa [List.append_cons, List.append_cons, List.getLast?_append_of_ne_nil _ hne])
  have hlength := congrArg List.length hroot
  rw [List.length_append, List.length_cons, List.length_cons, List.length_singleton] at hlength
  omega

theorem normalizeWindows_drive (hn : NormPosix n)
    (hdrive : mapper.splitCygdrive n = some (some (d, t))) :
    normalizeWindows (appendWindowsTail [d.toUpper, ':', '\\'] t) =
      rejoined [d.toUpper, ':', '/'] t := by
  have hlast := getLast?_of_splitCygdrive hn hdrive
  obtain ⟨hd, hhead, front, rfl⟩ := exists_of_splitCygdrive hdrive
  have hslashes : '\\' ∉ t := fun hmem => hn.slashes (by simp [hmem])
  have hupper : d.toUpper ≠ '\\' := by
    intro heq
    rw [← Char.isAlpha_toUpper_eq_isAlpha, heq] at hd
    exact absurd hd (by decide)
  have hbase : slashed [d.toUpper, ':', '\\'] = [d.toUpper, ':', '/'] := by
    simp [slashed, hupper]
  have hnorm : NormWindows [d.toUpper, ':', '/'] := by
    refine ⟨by simp [Ne.symm hupper], fun _ => ?_⟩
    rw [utf8Len_cons, utf8Size_toUpper, utf8Size_of_isAlpha hd]
    decide
  rw [← appendWindowsTail_slashed, hbase, normalizeWindows_appendWindowsTail hnorm hslashes hlast,
    below_eq_self hhead hlast]

/-- A deeper point leaves less of the tail. -/
theorem utf8Len_lt_of_deeper (hfront : NormPosix front) (hpoint : NormPosix point)
    (h : Covers point (place front tail) t) (hdeeper : utf8Len front < utf8Len point) :
    utf8Len t < utf8Len tail := by
  have hle := utf8Len_below_le tail
  have hone : 1 ≤ utf8Len front := Lib.utf8Len_pos fun hnil => by
    have := hfront.absolute
    rw [hnil] at this
    cases this
  by_cases hroot : front = ['/']
  · have hlength := h.utf8Len_eq
    have hplace : place front tail = rooted (below tail) := by
      rw [hroot]
      rfl
    have hne : below tail ≠ [] := by
      intro hnil
      have hslash : utf8Len ['/'] = 1 := rfl
      rw [hplace, hnil, rooted, if_pos rfl] at hlength
      omega
    rw [hplace, rooted, if_neg hne] at hlength
    omega
  · have hend : front.getLast? ≠ some '/' := fun hlast => hroot (hfront.root hlast)
    have hne : front ≠ [] := by
      rintro rfl
      cases hfront.absolute
    have hplace : place front tail = front ++ below tail := by
      rw [place, trimEnd_eq_self hend, rooted, if_neg (List.append_ne_nil_of_left_ne_nil hne _)]
    rw [hplace] at h
    obtain ⟨head, heq, hfold, -⟩ := h
    have hlength := utf8Len_eq_of_folded_eq hfold
    rcases List.append_eq_append_iff.1 heq with ⟨x, rfl, hx⟩ | ⟨x, rfl, -⟩
    · have hend' : point.getLast? ≠ some '/' := by
        intro hlast
        have hslash : utf8Len ['/'] = 1 := rfl
        rw [hpoint.root hlast] at hdeeper
        omega
      have htwo : 2 ≤ utf8Len x := by
        cases x with
        | nil =>
          rw [List.append_nil] at hlength
          omega
        | cons c x =>
          have hc : c = '/' := by
            have hhead := head?_below (by rw [hx]; exact List.cons_ne_nil _ _)
            rw [hx] at hhead
            exact Option.some.inj hhead
          subst hc
          cases x with
          | nil =>
            refine absurd ((getLast?_eq_of_folded_eq (by decide) hfold).1 ?_) hend'
            exact List.getLast?_concat
          | cons c x =>
            have hc := c.utf8Size_pos
            have hslash : Char.utf8Size '/' = 1 := rfl
            rw [utf8Len_cons, utf8Len_cons]
            omega
      have hbelow := congrArg utf8Len hx
      rw [utf8Len_append] at hbelow
      omega
    · rw [utf8Len_append] at hdeeper
      omega

end Back

/-! ### Paths below a mount -/

section Mounted

variable {mapper : PathMapper} {mount other : Mount} {front q r : List Char} {d : Char}

theorem normPosix_place (hhead : base.head? = some '/') (hbase : '\\' ∉ base)
    (htail : '\\' ∉ tail) : NormPosix (place base tail) := by
  rw [← normalizePosix_appendTail hhead hbase htail]
  exact normPosix_normalizePosix _

theorem place_root : place ['/'] tail = rooted (below tail) := rfl

theorem place_eq (hfront : NormPosix front) (hroot : front ≠ ['/']) :
    place front tail = front ++ below tail := by
  have hend : front.getLast? ≠ some '/' := fun hlast => hroot (hfront.root hlast)
  have hne : front ≠ [] := by
    rintro rfl
    cases hfront.absolute
  rw [place, trimEnd_eq_self hend, rooted, if_neg (List.append_ne_nil_of_left_ne_nil hne _)]

theorem below_below (tail : List Char) : below (below tail) = below tail := by
  by_cases h : below tail = []
  · rw [h, below_nil]
  · exact below_eq_self (.inr (head?_below h)) getLast?_below

theorem covers_place (hfront : NormPosix front) (hroot : front ≠ ['/']) :
    Covers front (place front tail) (below tail) := by
  refine ⟨front, place_eq hfront hroot, rfl, .inr ?_⟩
  by_cases h : below tail = []
  · exact .inl h
  · exact .inr (head?_below h)

theorem exists_covers_place (hfront : NormPosix front) :
    ∃ rest, Covers front (place front tail) rest := by
  by_cases hroot : front = ['/']
  · subst hroot
    rw [place_root, rooted]
    split
    · exact ⟨[], ['/'], rfl, rfl, .inl rfl⟩
    · case isFalse h =>
      obtain ⟨rest, hrest⟩ := List.head?_eq_some_iff.1 (head?_below h)
      exact ⟨rest, ['/'], hrest, rfl, .inl rfl⟩
  · exact ⟨_, covers_place hfront hroot⟩

theorem Covers.tail_slashes {path : List Char} (h : Covers front path tail) (hpath : '\\' ∉ path) :
    '\\' ∉ tail := by
  obtain ⟨head, rfl, -⟩ := h
  exact fun hmem => hpath (List.mem_append_right head hmem)

/-- The mount that answers for a place below another one's point is as deep. -/
theorem deeper_of_ne (hs : Sound mapper) (hmem : mount ∈ mapper.mounts)
    (hanswers : Answers Mount.posix mapper.mounts (place mount.posix tail) (some other))
    (hcovers : Covers other.posix (place mount.posix tail) t) (hne : other ≠ mount) :
    utf8Len mount.posix < utf8Len other.posix := by
  obtain ⟨rest, hrest⟩ : ∃ rest, Covers mount.posix (place mount.posix tail) rest :=
    exists_covers_place (hs.posix mount hmem)
  refine lt_of_le_of_ne (le_of_answers hanswers hmem hrest) fun heq => hne ?_
  exact hs.eq_of_folded_eq (mem_of_answers hanswers) hmem (hcovers.folded_front_eq hrest heq.symm)

/-- A deeper mount gives another path back. -/
theorem ne_of_deeper (hs : Sound mapper) (habs : Absolute w) (hw : NormWindows w)
    (hanswers : Answers Mount.windows mapper.mounts w (some mount))
    (hcovers : Covers mount.windows w tail) (hother : other ∈ mapper.mounts)
    (hplace : Covers other.posix (place mount.posix tail) t)
    (hdeeper : utf8Len mount.posix < utf8Len other.posix) :
    folded (rejoined other.windows (below t)) ≠ folded w := by
  intro hfold
  have hmem := mem_of_answers hanswers
  have hn : NormPosix (place mount.posix tail) :=
    normPosix_place (hs.posix mount hmem).absolute (hs.posix mount hmem).slashes
      (hcovers.tail_slashes hw.slashes)
  have hroot : other.posix ≠ ['/'] := by
    intro heq
    have hpos : 0 < utf8Len mount.posix := Lib.utf8Len_pos fun hnil => by
      have hhead := (hs.posix mount hmem).absolute
      rw [hnil] at hhead
      cases hhead
    have hslash : utf8Len ['/'] = 1 := rfl
    rw [heq] at hdeeper
    omega
  obtain ⟨-, hlast, hhead⟩ := tail_of_covers hn (hs.posix other hother) hplace
  rw [below_eq_self (hhead hroot) hlast] at hfold
  have hlt := utf8Len_lt_of_deeper (hs.posix mount hmem) (hs.posix other hother) hplace hdeeper
  have hlength := hcovers.utf8Len_eq
  by_cases hempty : t ≠ [] ∧ trimEnd '/' other.windows = []
  · have hfold := utf8Len_eq_of_folded_eq hfold
    rw [rejoined, if_neg hempty.1, hempty.2, List.nil_append] at hfold
    omega
  · obtain ⟨rest, hrest⟩ := covers_of_rejoined habs (hs.windows other hother).1 (hhead hroot)
      hfold.symm fun hne htrim => hempty ⟨hne, htrim⟩
    have hle := le_of_answers hanswers hother hrest
    have hfold := utf8Len_eq_of_folded_eq hfold
    have hrejoined := utf8Len_rejoined_le other.windows t
    omega

/-- What covers a path on a drive has the drive's letter and its colon. -/
theorem two_le_of_covers {rest : List Char} (hd : d.isAlpha = true) (hne : base ≠ [])
    (h : Covers base (d :: ':' :: rest) tail) : 2 ≤ utf8Len base := by
  obtain ⟨head, heq, hfold, hcut⟩ := h
  rw [← utf8Len_eq_of_folded_eq hfold]
  cases head with
  | nil => exact absurd (folded_eq_nil_iff.1 hfold.symm) hne
  | cons c head =>
    obtain ⟨rfl, htail⟩ := List.cons.inj heq
    cases head with
    | nil =>
      change ':' :: rest = tail at htail
      subst htail
      have hlast : base.getLast? = some '/' := by
        rcases hcut with hlast | hnil | hhead
        · exact hlast
        · cases hnil
        · cases hhead
      have hslash := (getLast?_eq_of_folded_eq (by decide) hfold).2 hlast
      cases hslash
      exact absurd hd (by decide)
    | cons e head =>
      have hc := d.utf8Size_pos
      have he := e.utf8Size_pos
      rw [utf8Len_cons, utf8Len_cons]
      omega

/-- A path that is a drive's up to case is a drive's. -/
theorem absolute_drive {rest : List Char} (hd : d.isAlpha = true) (habs : Absolute w)
    (hfold : folded w = folded (d.toUpper :: rest)) :
    ∃ e rest', e.isAlpha = true ∧ w = e :: ':' :: '/' :: rest' := by
  cases habs with
  | drive he => exact ⟨_, _, he, rfl⟩
  | unc =>
    have heq := (List.cons.inj hfold).1
    rw [← Char.isAlpha_toUpper_eq_isAlpha, ← Char.isAlpha_toLower_eq_isAlpha, ← heq] at hd
    exact absurd hd (by decide)

theorem rejoined_drive (d : Char) (t : List Char) :
    rejoined [d, ':', '/'] t = d :: ':' :: if t = [] then ['/'] else t := by
  have htrim : trimEnd '/' [d, ':', '/'] = [d, ':'] :=
    (trimEnd_concat (t := [d, ':'])).trans (trimEnd_eq_self (by simp))
  rw [rejoined, htrim]
  split
  · rfl
  · rfl

/-- Where the mount at `/` stands before a drive, the drive gives another path back. -/
theorem ne_of_drive (habs : Absolute w) (hne : base ≠ []) (hcovers : Covers base w tail)
    (hdrive : mapper.splitCygdrive (place ['/'] tail) = some (some (d, t))) :
    folded (rejoined [d.toUpper, ':', '/'] t) ≠ folded w := by
  intro hfold
  obtain ⟨hd, -, front, hplace⟩ := exists_of_splitCygdrive hdrive
  have hslash : Char.utf8Size '/' = 1 := rfl
  have hcolon : Char.utf8Size ':' = 1 := rfl
  have hbelow : place ['/'] tail = below tail := by
    rw [place_root, rooted]
    refine if_neg fun hnil => ?_
    have hlength := congrArg List.length hplace
    rw [place_root, rooted, if_pos hnil, List.length_append] at hlength
    simp only [List.length_cons, List.length_nil] at hlength
    omega
  have htwo : 2 + utf8Len t ≤ utf8Len (below tail) := by
    rw [← hbelow, hplace, utf8Len_append, utf8Len_cons, utf8Len_cons, utf8Size_of_isAlpha hd, hslash]
    omega
  have hle := utf8Len_below_le tail
  rw [rejoined_drive] at hfold
  obtain ⟨e, rest, he, rfl⟩ := absolute_drive hd habs hfold.symm
  have hbase := two_le_of_covers he hne hcovers
  have hlength := hcovers.utf8Len_eq
  have hfolded := utf8Len_eq_of_folded_eq hfold
  rw [utf8Len_cons, utf8Len_cons, utf8Len_cons, utf8Len_cons, utf8Len_cons, utf8Size_toUpper,
    utf8Size_of_isAlpha hd, utf8Size_of_isAlpha he] at hfolded
  rw [utf8Len_cons, utf8Len_cons, utf8Len_cons, utf8Size_of_isAlpha he] at hlength
  split at hfolded
  · -- the path is the drive's root, so nothing is below the mount
    have hrest : rest = [] := by
      by_contra hne
      have hpos := Lib.utf8Len_pos hne
      have hroot : utf8Len ['/'] = 1 := rfl
      omega
    have hroot : utf8Len ['/'] = 1 := rfl
    rw [hrest, utf8Len_nil] at hlength
    obtain ⟨head, heq, hhead, -⟩ := hcovers
    have hheads : utf8Len [e, ':'] = utf8Len head := by
      rw [utf8Len_eq_of_folded_eq hhead, utf8Len_cons, utf8Size_of_isAlpha he]
      have hone : utf8Len [':'] = 1 := rfl
      omega
    have htail := (append_inj_of_utf8Len (a := [e, ':']) heq hheads).2
    rw [← htail, hrest] at htwo
    have hnone : utf8Len (below ['/']) = 0 := rfl
    omega
  · omega

/-- Where the mount at `/` stands before two slashes, these give another path back. -/
theorem ne_of_slashes (hne : base ≠ []) (hcovers : Covers base w tail)
    (hslashes : ['/', '/'] <+: place ['/'] tail) : folded (place ['/'] tail) ≠ folded w := by
  intro hfold
  have hbelow : place ['/'] tail = below tail := by
    rw [place_root, rooted]
    refine if_neg fun hnil => ?_
    rw [place_root, rooted, if_pos hnil] at hslashes
    exact absurd hslashes (by decide)
  have hlength := hcovers.utf8Len_eq
  rw [← utf8Len_eq_of_folded_eq hfold, hbelow] at hlength
  have hpos := Lib.utf8Len_pos hne
  have hhead : tail.head? = some '/' := by
    by_contra hhead
    rw [hbelow, below, ensureLeadingSlash, if_neg hhead] at hslashes
    have hfront := hslashes.trans (trimEnd_isPrefix '/' _)
    obtain ⟨rest, hrest⟩ := hfront
    exact hhead (by rw [← (List.cons.inj hrest).2]; rfl)
  have hle := utf8Len_trimEnd_le '/' (ensureLeadingSlash tail)
  rw [← below, ensureLeadingSlash, if_pos hhead] at hle
  omega

end Mounted

/-! ### The way back -/

section Kept

variable {join : List Char → List Char → List Char} {mapper : PathMapper} {mount : Mount}
  {n p q r : List Char} {d : Char}

/-- A mount answers for `n`: the one at `/` only when no drive and no two slashes come
first. -/
def MountAnswers (mapper : PathMapper) (n : List Char) (mount : Mount) : Prop :=
  mapper.bestPosixMount n = some (some mount) ∧
    (mount.posix = ['/'] → mapper.splitCygdrive n = some none ∧ ¬ "//".toList <+: n)

/-- No mount answers for `n` but one at `/`. -/
def OnlyRoot (mapper : PathMapper) (n : List Char) : Prop :=
  ∀ mount, mapper.bestPosixMount n = some (some mount) → mount.posix = ['/']

/-- What made a path of the shell from `w` answers for it on the way back: the mount, the
drive, or the two slashes. -/
inductive Kept (mapper : PathMapper) (w : List Char) : Prop
  | mount {mount : Mount} {tail : List Char}
      (hbest : mapper.bestWindowsMount w = some (some mount))
      (hcovers : Covers mount.windows w tail)
      (hback : MountAnswers mapper (place mount.posix tail) mount)
      (hrejoins : Rejoins mount.windows tail)
  | drive {d : Char} {tail : List Char} (hbest : mapper.bestWindowsMount w = some none)
      (hpath : w = d :: ':' :: tail) (hd : d.isAlpha = true)
      (hroot : OnlyRoot mapper (place (mapper.driveBase d.toLower) tail))
      (hdrive : mapper.splitCygdrive (place (mapper.driveBase d.toLower) tail) =
        some (some (d.toLower, below tail)))
  | unc (hbest : mapper.bestWindowsMount w = some none) (hpath : "//".toList <+: w)
      (hroot : OnlyRoot mapper (normalizePosix w))
      (hdrive : mapper.splitCygdrive (normalizePosix w) = some none)
      (hunc : "//".toList <+: normalizePosix w ∨
        mapper.bestPosixMount (normalizePosix w) = some none)

/-- A path of the shell that begins with two slashes is as it was. -/
theorem normalizeWindows_backslashed (hn : NormPosix n) (h : ['/', '/'] <+: n) :
    normalizeWindows (backslashed n) = n := by
  rw [normalizeWindows, slashed_backslashed hn.slashes]
  refine stripSlashes_eq_self fun hlast => ?_
  rw [hn.root hlast] at h
  exact absurd h (by decide)

/-- Where the mount at `/` answers for its own path, what is below it is the tail. -/
theorem below_of_covers_root (hcovers : Covers ['/'] (place ['/'] tail) t)
    (hunc : ¬ ['/', '/'] <+: place ['/'] tail) : below t = below tail := by
  obtain ⟨head, heq, hfold, -⟩ := hcovers
  have hhead : head = ['/'] := by
    have hone : head.head? = some '/' := (head?_eq_of_folded_eq (by decide) hfold).2 rfl
    obtain ⟨rest, rfl⟩ := List.head?_eq_some_iff.1 hone
    rw [folded_cons] at hfold
    rw [folded_eq_nil_iff.1 (List.cons.inj hfold).2]
  subst hhead
  rw [place_root, rooted] at heq hunc
  split at heq
  · case isTrue hnil =>
    have ht : t = [] := (List.cons.inj heq).2.symm
    rw [ht, hnil, below_nil]
  · case isFalse hne =>
    rw [if_neg hne, heq] at hunc
    rw [heq]
    have hlast : (['/'] ++ t).getLast? ≠ some '/' := heq ▸ getLast?_below
    have ht : t ≠ [] := by
      rintro rfl
      exact hlast rfl
    rw [List.getLast?_append_of_ne_nil _ ht] at hlast
    have hhead : t.head? ≠ some '/' := by
      intro hhead
      obtain ⟨rest, rfl⟩ := List.head?_eq_some_iff.1 hhead
      exact hunc ⟨rest, rfl⟩
    rw [below_eq ht hlast, ensureLeadingSlash, if_neg hhead]
    rfl

/-- Only the mount at `/` is as short as the mount that answers there. -/
theorem posix_eq_root {best : Option Mount} (hs : Sound mapper) (hmem : mount ∈ mapper.mounts)
    (hbest : mapper.bestPosixMount n = some best)
    (hroot : ∀ other, best = some other → other.posix = ['/'])
    (hcovers : Covers mount.posix n t) : mount.posix = ['/'] := by
  have hanswers := answers_of_bestPosixMount hbest
  cases best with
  | none => exact absurd hcovers (not_covers_of_answers hanswers hmem)
  | some other =>
    have hle := le_of_answers hanswers hmem hcovers
    rw [hroot other rfl] at hle
    exact eq_slash_of_utf8Len (hs.posix mount hmem).absolute hle

/-- **Back through a mount.** -/
theorem mapsBack_mount_iff (hs : Sound mapper) (habs : Absolute w) (hw : NormWindows w)
    (hbest : mapper.bestWindowsMount w = some (some mount)) (hcovers : Covers mount.windows w tail)
    (hback : MapsBack mapper q (place mount.posix tail) r) :
    folded (normalizeWindows r) = folded w ↔
      MountAnswers mapper (place mount.posix tail) mount ∧ Rejoins mount.windows tail := by
  have hanswers := answers_of_bestWindowsMount hbest
  have hmem := mem_of_answers hanswers
  have hposix := hs.posix mount hmem
  have hn : NormPosix (place mount.posix tail) :=
    normPosix_place hposix.absolute hposix.slashes (hcovers.tail_slashes hw.slashes)
  obtain ⟨own, hown⟩ : ∃ rest, Covers mount.posix (place mount.posix tail) rest :=
    exists_covers_place hposix
  have hne : mount.windows ≠ [] := (hs.windows mount hmem).2
  have hrejoined : ∀ {t}, below t = below tail →
      normalizeWindows (appendWindowsTail mount.windows t) =
        rejoined mount.windows (below t) →
      (folded (normalizeWindows (appendWindowsTail mount.windows t)) = folded w ↔
        Rejoins mount.windows tail) := by
    intro t hbelow hnormal
    have hcut := hcovers
    obtain ⟨-, -, -, hcut⟩ := hcut
    rw [hnormal, hbelow, hcovers.folded_eq]
    exact folded_rejoined_iff hcut
  cases hback with
  | @mount other t hbest' hroot hcovers' =>
    have hother := mem_of_answers (answers_of_bestPosixMount hbest')
    by_cases hsame : other = mount
    · subst hsame
      have ht : t = below tail := hcovers'.tail_unique (covers_place hposix hroot)
      have hbelow : below t = below tail := by rw [ht, below_below]
      rw [hrejoined hbelow (normalizeWindows_through hs hmem hn hcovers')]
      exact ⟨fun h => ⟨⟨hbest', fun heq => absurd heq hroot⟩, h⟩, And.right⟩
    · have hdeeper := deeper_of_ne hs hmem (answers_of_bestPosixMount hbest') hcovers' hsame
      rw [normalizeWindows_through hs hother hn hcovers']
      refine iff_of_false (ne_of_deeper hs habs hw hanswers hcovers hother hcovers' hdeeper) ?_
      rintro ⟨⟨hsame', -⟩, -⟩
      exact hsame (Option.some.inj (Option.some.inj (hbest'.symm.trans hsame')))
  | drive hbest' hroot hdrive =>
    have hslash := posix_eq_root hs hmem hbest' hroot hown
    rw [normalizeWindows_drive hn hdrive]
    refine iff_of_false (ne_of_drive habs hne hcovers (hslash ▸ hdrive)) ?_
    rintro ⟨⟨-, hnone⟩, -⟩
    exact nomatch hdrive.symm.trans (hnone hslash).1
  | unc hbest' hroot hdrive hunc =>
    have hslash := posix_eq_root hs hmem hbest' hroot hown
    rw [normalizeWindows_backslashed hn hunc]
    refine iff_of_false ?_ ?_
    · rw [hslash] at hunc ⊢
      exact ne_of_slashes hne hcovers hunc
    · rintro ⟨⟨-, hnone⟩, -⟩
      exact (hnone hslash).2 hunc
  | @root other t hbest' hroot hdrive hunc hcovers' =>
    have hslash := posix_eq_root hs hmem hbest' (fun _ heq => Option.some.inj heq ▸ hroot) hown
    have hother := mem_of_answers (answers_of_bestPosixMount hbest')
    obtain rfl : other = mount :=
      hs.eq_of_folded_eq hother hmem (congrArg folded (hroot.trans hslash.symm))
    have hbelow : below t = below tail := by
      rw [hslash] at hcovers' hunc
      exact below_of_covers_root hcovers' hunc
    rw [hrejoined hbelow (normalizeWindows_through hs hmem hn hcovers')]
    exact ⟨fun h => ⟨⟨hbest', fun _ => ⟨hdrive, hunc⟩⟩, h⟩, And.right⟩
  | same hbest' =>
    exact absurd hown (not_covers_of_answers (answers_of_bestPosixMount hbest') hmem)

/-- What begins with a letter is not what begins with a slash. -/
theorem ne_of_head (hd : d.isAlpha = true) (h : p = [] ∨ p.head? = some '/') (t : List Char) :
    folded p ≠ folded (d :: t) := by
  intro hfold
  rcases h with rfl | hhead
  · exact absurd (folded_eq_nil_iff.1 hfold.symm) (List.cons_ne_nil _ _)
  · have hslash : (d :: t).head? = some '/' := (head?_eq_of_folded_eq (by decide) hfold).1 hhead
    cases hslash
    exact absurd hd (by decide)

/-- A mount that gives a path back has it on its Windows side. -/
theorem ne_of_uncovered (hs : Sound mapper) (habs : Absolute w) (hmem : mount ∈ mapper.mounts)
    (hbest : mapper.bestWindowsMount w = some none)
    (hlong : below t ≠ [] → trimEnd '/' mount.windows = [] → folded (below t) ≠ folded w) :
    folded (rejoined mount.windows (below t)) ≠ folded w := by
  intro hfold
  have hhead : below t = [] ∨ (below t).head? = some '/' := by
    by_cases hnil : below t = []
    · exact .inl hnil
    · exact .inr (head?_below hnil)
  obtain ⟨rest, hrest⟩ := covers_of_rejoined habs (hs.windows mount hmem).1 hhead hfold.symm
    fun hne htrim => hlong hne htrim (by rwa [rejoined, if_neg hne, htrim] at hfold)
  exact not_covers_of_answers (answers_of_bestWindowsMount hbest) hmem hrest

/-- A drive's place, with what is below it behind. -/
theorem place_driveBase (mapper : PathMapper) (hd : d.isAlpha = true) (tail : List Char) :
    ∃ front, place (mapper.driveBase d.toLower) tail = front ++ '/' :: d.toLower :: below tail := by
  have hne : d.toLower ≠ '/' := by
    intro heq
    rw [← Char.isAlpha_toLower_eq_isAlpha, heq] at hd
    exact absurd hd (by decide)
  obtain ⟨front, hfront⟩ : ∃ front, mapper.driveBase d.toLower = front ++ ['/', d.toLower] := by
    rw [PathMapper.driveBase]
    split
    · exact ⟨[], rfl⟩
    · exact ⟨_, rfl⟩
  have htrim : trimEnd '/' (front ++ ['/', d.toLower]) = front ++ ['/', d.toLower] := by
    refine trimEnd_eq_self fun hlast => hne ?_
    rw [List.getLast?_append_of_ne_nil _ (List.cons_ne_nil _ _)] at hlast
    exact Option.some.inj hlast
  refine ⟨front, ?_⟩
  rw [hfront, place, htrim, rooted, if_neg (by simp), List.append_assoc]
  rfl

theorem rejoined_below_drive (hw : NormWindows (d :: ':' :: '/' :: t)) (hd : d.isAlpha = true)
    (c : Char) : rejoined [c, ':', '/'] (below ('/' :: t)) = c :: ':' :: '/' :: t := by
  rw [rejoined_drive]
  by_cases hnil : t = []
  · subst hnil
    exact congrArg _ (congrArg _ (if_pos rfl))
  · have hlast : ('/' :: t).getLast? ≠ some '/' := by
      intro hlast
      have hpos := Lib.utf8Len_pos hnil
      have hcolon : Char.utf8Size ':' = 1 := rfl
      have hslash : Char.utf8Size '/' = 1 := rfl
      have hshort := hw.short (by
        rwa [List.getLast?_cons_cons, List.getLast?_cons_cons])
      rw [utf8Len_cons, utf8Len_cons, utf8Len_cons, utf8Size_of_isAlpha hd] at hshort
      omega
    rw [below_eq_self (.inr rfl) hlast, if_neg (List.cons_ne_nil _ _)]

/-- Drives' paths that are one path have tails of one length. -/
theorem utf8Len_below_of_rejoined {c e : Char} {u v : List Char} (hc : c.isAlpha = true)
    (he : e.isAlpha = true)
    (hfold : folded (rejoined [e.toUpper, ':', '/'] (below u)) =
      folded (rejoined [c, ':', '/'] (below v))) : utf8Len (below u) = utf8Len (below v) := by
  have hlong : ∀ t, below t ≠ [] → 1 < utf8Len (below t) := fun t hne => by
    by_contra hle
    have hroot := eq_slash_of_utf8Len (head?_below hne) (Nat.le_of_not_lt hle)
    exact absurd (congrArg List.getLast? hroot) getLast?_below
  have hslash : utf8Len ['/'] = 1 := rfl
  have hlength := utf8Len_eq_of_folded_eq hfold
  rw [rejoined_drive, rejoined_drive, utf8Len_cons, utf8Len_cons, utf8Len_cons, utf8Len_cons,
    utf8Size_toUpper, utf8Size_of_isAlpha hc, utf8Size_of_isAlpha he] at hlength
  have hsame := Nat.add_right_cancel (Nat.add_right_cancel hlength)
  split at hsame
  · case isTrue hu =>
    split at hsame
    · case isTrue hv => rw [hu, hv]
    · case isFalse hv =>
      have := hlong v hv
      omega
  · case isFalse hu =>
    split at hsame
    · have := hlong u hu
      omega
    · exact hsame

/-- **Back from a drive's place.** -/
theorem mapsBack_drive_iff (hs : Sound mapper) (habs : Absolute w) (hw : NormWindows w)
    (hbest : mapper.bestWindowsMount w = some none) (hpath : w = d :: ':' :: tail)
    (hd : d.isAlpha = true) (hn : NormPosix n) (hplace : n = place (mapper.driveBase d.toLower) tail)
    (hq : q.head? = some '/') (hback : MapsBack mapper q n r) :
    folded (normalizeWindows r) = folded w ↔
      OnlyRoot mapper n ∧ mapper.splitCygdrive n = some (some (d.toLower, below tail)) := by
  have hother : ∀ {other : Mount} {t : List Char}, other ∈ mapper.mounts →
      folded (rejoined other.windows (below t)) ≠ folded w := fun hmem =>
    ne_of_uncovered hs habs hmem hbest fun hne _ => by
      rw [hpath]
      exact ne_of_head hd (.inr (head?_below hne)) _
  cases hback with
  | @mount other t hbest' hroot hcovers =>
    have hmem := mem_of_answers (answers_of_bestPosixMount hbest')
    rw [normalizeWindows_through hs hmem hn hcovers]
    refine iff_of_false (hother hmem) ?_
    rintro ⟨honly, -⟩
    exact hroot (honly other hbest')
  | @drive best e t hbest' hroot hdrive =>
    obtain ⟨rest, rfl⟩ : ∃ rest, tail = '/' :: rest := by
      cases habs with
      | drive =>
        cases hpath
        exact ⟨_, rfl⟩
      | unc =>
        cases hpath
    subst hpath
    rw [normalizeWindows_drive hn hdrive]
    constructor
    · intro hfold
      refine ⟨fun other heq => hroot other (Option.some.inj (hbest'.symm.trans heq)), ?_⟩
      obtain ⟨he, hhead, front, hfront⟩ := exists_of_splitCygdrive hdrive
      have hlast := getLast?_of_splitCygdrive hn hdrive
      obtain ⟨front', hfront'⟩ := place_driveBase mapper hd ('/' :: rest)
      -- both end as the path does, so they end alike
      have hlength : utf8Len t = utf8Len (below ('/' :: rest)) := by
        rw [← below_eq_self hhead hlast]
        refine utf8Len_below_of_rejoined hd he ?_
        rw [below_eq_self hhead hlast, hfold, rejoined_below_drive hw hd]
      obtain ⟨hfronts, htails⟩ :
          front ++ ['/', e] = front' ++ ['/', d.toLower] ∧ t = below ('/' :: rest) := by
        have heq : (front ++ ['/', e]) ++ t = (front' ++ ['/', d.toLower]) ++ below ('/' :: rest) := by
          rw [List.append_assoc, List.append_assoc]
          exact hfront.symm.trans (hplace.trans hfront')
        refine append_inj_of_utf8Len heq ?_
        have hall := congrArg utf8Len heq
        rw [utf8Len_append, utf8Len_append (front' ++ _)] at hall
        omega
      have hletter := congrArg List.getLast? hfronts
      rw [List.getLast?_append_of_ne_nil _ (List.cons_ne_nil _ _),
        List.getLast?_append_of_ne_nil _ (List.cons_ne_nil _ _)] at hletter
      have hletter : e = d.toLower := Option.some.inj hletter
      rw [hdrive, hletter, htails]
    · rintro ⟨-, hsame⟩
      cases Option.some.inj (Option.some.inj (hdrive.symm.trans hsame))
      rw [rejoined_below_drive hw hd, folded_cons, Char.toLower_toUpper_eq_toLower,
        Char.toLower_toLower_eq_toLower]
      rfl
  | unc hbest' hroot hdrive hunc =>
    rw [normalizeWindows_backslashed hn hunc, hpath]
    refine iff_of_false (ne_of_head hd (.inr hn.absolute) _) ?_
    rintro ⟨-, hsome⟩
    exact nomatch hdrive.symm.trans hsome
  | @root other t hbest' hroot hdrive hunc hcovers =>
    have hmem := mem_of_answers (answers_of_bestPosixMount hbest')
    rw [normalizeWindows_through hs hmem hn hcovers]
    refine iff_of_false (hother hmem) ?_
    rintro ⟨-, hsome⟩
    exact nomatch hdrive.symm.trans hsome
  | same hbest' hdrive hunc =>
    rw [hpath]
    refine iff_of_false (ne_of_head hd ?_ _) ?_
    · have hslashed : (slashed q).head? = some '/' := by
        rw [slashed, List.head?_map, hq]
        rfl
      obtain ⟨rest, hrest⟩ : normalizeWindows q <+: slashed q := stripSlashes_isPrefix 3 _
      by_cases hnil : normalizeWindows q = []
      · exact .inl hnil
      · rw [← hrest, List.head?_append_of_ne_nil _ hnil] at hslashed
        exact .inr hslashed
    · rintro ⟨-, hsome⟩
      exact nomatch hdrive.symm.trans hsome

/-- The shell keeps a path with two slashes as it is, but for one of slashes only. -/
theorem normalizePosix_of_unc (hw : NormWindows w) (hpath : ['/', '/'] <+: w) :
    normalizePosix w = w ∨ normalizePosix w = ['/'] := by
  obtain ⟨t, rfl⟩ := hpath
  rw [normalizePosix_eq rfl hw.slashes]
  by_cases hlast : (['/', '/'] ++ t).getLast? = some '/'
  · right
    have hshort := hw.short hlast
    have htwo : utf8Len ['/', '/'] = 2 := rfl
    rw [utf8Len_append] at hshort
    cases t with
    | nil => rfl
    | cons c t =>
      have hc := c.utf8Size_pos
      have ht : t = [] := by
        by_contra hne
        have hpos := Lib.utf8Len_pos hne
        rw [utf8Len_cons c t] at hshort
        omega
      subst ht
      have hslash : c = '/' := Option.some.inj hlast
      rw [hslash]
      rfl
  · left
    rw [trimEnd_eq_self hlast]
    rfl

/-- **Back from a path with two slashes.** -/
theorem mapsBack_unc_iff (hs : Sound mapper) (hw : NormWindows w)
    (hbest : mapper.bestWindowsMount w = some none) (hpath : ['/', '/'] <+: w)
    (hback : MapsBack mapper w (normalizePosix w) r) :
    folded (normalizeWindows r) = folded w ↔
      OnlyRoot mapper (normalizePosix w) ∧
        mapper.splitCygdrive (normalizePosix w) = some none ∧
        (['/', '/'] <+: normalizePosix w ∨
          mapper.bestPosixMount (normalizePosix w) = some none) := by
  have hhead : w.head? = some '/' := by
    obtain ⟨t, rfl⟩ := hpath
    rfl
  have habs : Absolute w := by
    obtain ⟨t, rfl⟩ := hpath
    exact .unc
  have hn := normPosix_normalizePosix w
  have hlength : utf8Len (normalizePosix w) ≤ utf8Len w := by
    rcases normalizePosix_of_unc hw hpath with heq | heq
    · rw [heq]
    · rw [heq]
      exact Lib.utf8Len_pos fun hnil => by
        rw [hnil] at hhead
        cases hhead
  have honly : ∀ {best : Option Mount}, mapper.bestPosixMount (normalizePosix w) = some best →
      (∀ mount, best = some mount → mount.posix = ['/']) → OnlyRoot mapper (normalizePosix w) :=
    fun hbest' hroot other heq => hroot other (Option.some.inj (hbest'.symm.trans heq))
  cases hback with
  | @mount other t hbest' hroot hcovers =>
    have hmem := mem_of_answers (answers_of_bestPosixMount hbest')
    rw [normalizeWindows_through hs hmem hn hcovers]
    refine iff_of_false (ne_of_uncovered hs habs hmem hbest fun _ _ hfold => ?_) ?_
    · -- what is below the mount is shorter than the path
      obtain ⟨-, hlast, hcut⟩ := tail_of_covers hn (hs.posix other hmem) hcovers
      have hbelow := below_eq_self (hcut hroot) hlast
      have hlong := hcovers.utf8Len_eq
      have hposix : 0 < utf8Len other.posix := Lib.utf8Len_pos fun hnil => by
        have habsolute := (hs.posix other hmem).absolute
        rw [hnil] at habsolute
        cases habsolute
      have hsame := utf8Len_eq_of_folded_eq hfold
      rw [hbelow] at hsame
      omega
    · rintro ⟨honly, -⟩
      exact hroot (honly other hbest')
  | drive hbest' hroot hdrive =>
    obtain ⟨hd, -⟩ := exists_of_splitCygdrive hdrive
    rw [normalizeWindows_drive hn hdrive, rejoined_drive]
    refine iff_of_false ?_ ?_
    · exact (ne_of_head (by rwa [Char.isAlpha_toUpper_eq_isAlpha]) (.inr hhead) _).symm
    · rintro ⟨-, hnone, -⟩
      exact nomatch hdrive.symm.trans hnone
  | unc hbest' hroot hdrive hunc =>
    rw [normalizeWindows_backslashed hn hunc]
    have hsame : normalizePosix w = w := by
      refine (normalizePosix_of_unc hw hpath).resolve_right fun heq => ?_
      rw [heq] at hunc
      exact absurd hunc (by decide)
    exact iff_of_true (by rw [hsame]) ⟨honly hbest' hroot, hdrive, .inl hunc⟩
  | @root other t hbest' hroot hdrive hunc hcovers =>
    have hmem := mem_of_answers (answers_of_bestPosixMount hbest')
    have hslash : normalizePosix w = ['/'] := by
      refine (normalizePosix_of_unc hw hpath).resolve_left fun heq => hunc ?_
      rwa [heq]
    have ht : below t = [] := by
      have hone := hcovers.utf8Len_eq
      have hroot' : utf8Len ['/'] = 1 := rfl
      rw [hslash, hroot] at hone
      have hnil : t = [] := by
        by_contra hne
        have hpos := Lib.utf8Len_pos hne
        omega
      rw [hnil, below_nil]
    rw [normalizeWindows_through hs hmem hn hcovers]
    refine iff_of_false (ne_of_uncovered hs habs hmem hbest fun hne _ => absurd ht hne) ?_
    rintro ⟨-, -, hunc' | hnone⟩
    · exact hunc hunc'
    · exact nomatch hbest'.symm.trans hnone
  | same hbest' hdrive hunc =>
    rw [hw.normalizeWindows_eq]
    exact iff_of_true rfl ⟨honly hbest' (by rintro mount ⟨⟩), hdrive, .inr hbest'⟩

theorem kept_mount_iff (hbest : mapper.bestWindowsMount w = some (some mount))
    (hcovers : Covers mount.windows w tail) :
    Kept mapper w ↔ MountAnswers mapper (place mount.posix tail) mount ∧
      Rejoins mount.windows tail := by
  refine ⟨fun h => ?_, fun h => .mount hbest hcovers h.1 h.2⟩
  cases h with
  | mount hbest' hcovers' hback hrejoins =>
    cases Option.some.inj (Option.some.inj (hbest.symm.trans hbest'))
    rw [hcovers.tail_unique hcovers']
    exact ⟨hback, hrejoins⟩
  | drive hbest' => exact nomatch hbest.symm.trans hbest'
  | unc hbest' => exact nomatch hbest.symm.trans hbest'

theorem kept_drive_iff (hbest : mapper.bestWindowsMount w = some none)
    (hpath : w = d :: ':' :: tail) (hd : d.isAlpha = true) :
    Kept mapper w ↔ OnlyRoot mapper (place (mapper.driveBase d.toLower) tail) ∧
      mapper.splitCygdrive (place (mapper.driveBase d.toLower) tail) =
        some (some (d.toLower, below tail)) := by
  refine ⟨fun h => ?_, fun h => .drive hbest hpath hd h.1 h.2⟩
  cases h with
  | mount hbest' => exact nomatch hbest.symm.trans hbest'
  | drive hbest' hpath' hd' hroot hdrive =>
    cases hpath.symm.trans hpath'
    exact ⟨hroot, hdrive⟩
  | unc hbest' hpath' =>
    obtain ⟨rest, heq⟩ := hpath'
    cases hpath.symm.trans heq.symm

theorem kept_unc_iff (hbest : mapper.bestWindowsMount w = some none)
    (hpath : ['/', '/'] <+: w) :
    Kept mapper w ↔ OnlyRoot mapper (normalizePosix w) ∧
      mapper.splitCygdrive (normalizePosix w) = some none ∧
      (['/', '/'] <+: normalizePosix w ∨
        mapper.bestPosixMount (normalizePosix w) = some none) := by
  refine ⟨fun h => ?_, fun h => .unc hbest hpath h.1 h.2.1 h.2.2⟩
  cases h with
  | mount hbest' => exact nomatch hbest.symm.trans hbest'
  | drive hbest' hpath' =>
    obtain ⟨rest, heq⟩ := hpath
    cases heq.trans hpath'
  | unc hbest' hpath' hroot hdrive hunc => exact ⟨hroot, hdrive, hunc⟩

theorem driveBase_head (hs : Sound mapper) (d : Char) : (mapper.driveBase d).head? = some '/' := by
  rw [PathMapper.driveBase]
  split
  · rfl
  · have h := head?_appendTail hs.cygdrive.absolute ['/', d]
    rwa [appendTail, if_neg (List.cons_ne_nil _ _)] at h

theorem driveBase_slashes (hs : Sound mapper) (hd : d.isAlpha = true) :
    '\\' ∉ mapper.driveBase d := by
  have hne : '\\' ≠ d := by
    rintro rfl
    exact absurd hd (by decide)
  rw [PathMapper.driveBase]
  split
  · simp [hne]
  · rw [List.mem_append, not_or]
    exact ⟨fun hmem => hs.cygdrive.slashes ((trimEnd_isPrefix '/' _).subset hmem), by simp [hne]⟩

/-- What a path becomes in the shell and back. -/
theorem exists_roundTrip (h : Built join mapper) (hp : isWindowsAbsolute p = true) :
    ∃ q r, mapper.windowsToPosix p = some q ∧ mapper.posixToWindows q = some r ∧
      (folded (normalizeWindows r) = folded (normalizeWindows p) ↔
        Kept mapper (normalizeWindows p)) := by
  have hs := h.sound
  have habs := absolute_normalizeWindows hp
  have hw := normWindows_normalizeWindows p
  obtain ⟨q, hq, hmapped⟩ := windowsToPosix_eq mapper hp
  cases hmapped with
  | @mount mount tail hbest hcovers =>
    have hposix := hs.posix mount (mem_of_answers (answers_of_bestWindowsMount hbest))
    obtain ⟨r, hr, hback⟩ := posixToWindows_eq mapper (head?_appendTail hposix.absolute tail)
    rw [normalizePosix_appendTail hposix.absolute hposix.slashes (hcovers.tail_slashes hw.slashes)]
      at hback
    refine ⟨_, r, hq, hr, ?_⟩
    rw [kept_mount_iff hbest hcovers]
    exact mapsBack_mount_iff hs habs hw hbest hcovers hback
  | @drive d tail hbest hpath hd =>
    have hhead := driveBase_head hs d.toLower
    have hslashes := driveBase_slashes hs (d := d.toLower) (by rwa [Char.isAlpha_toLower_eq_isAlpha])
    have htail : '\\' ∉ tail := fun hmem => hw.slashes (by rw [hpath]; simp [hmem])
    obtain ⟨r, hr, hback⟩ := posixToWindows_eq mapper (head?_appendTail hhead tail)
    rw [normalizePosix_appendTail hhead hslashes htail] at hback
    refine ⟨_, r, hq, hr, ?_⟩
    rw [kept_drive_iff hbest hpath hd]
    exact mapsBack_drive_iff hs habs hw hbest hpath hd (normPosix_place hhead hslashes htail) rfl
      (head?_appendTail hhead tail) hback
  | unc hbest hpath =>
    obtain ⟨r, hr, hback⟩ := posixToWindows_eq mapper (p := normalizeWindows p) (by
      obtain ⟨rest, hrest⟩ := hpath
      rw [← hrest]
      rfl)
    refine ⟨_, r, hq, hr, ?_⟩
    rw [kept_unc_iff hbest hpath]
    exact mapsBack_unc_iff hs hw hbest hpath hback

/-- **A path goes through the shell and back just when what makes the shell's path
answers for it on the way back**, up to the case of letters and in the normal form. -/
theorem roundTrip_iff (h : Built join mapper) (hp : isWindowsAbsolute p = true) :
    ∃ q r, mapper.windowsToPosix p = some q ∧ mapper.posixToWindows q = some r ∧
      (folded (normalizeWindows r) = folded (normalizeWindows p) ↔
        Kept mapper (normalizeWindows p)) :=
  exists_roundTrip h hp

/-- The mapper of a shell under `C:/Git`. -/
def gitMapper : PathMapper :=
  { PathMapper.new (fun dir name => dir ++ '/' :: name) .msys "C:/Git".toList none with
    userTemp := none }

theorem roundTrip_iff_home : ∃ q r,
    gitMapper.windowsToPosix "c:\\Users\\me".toList = some q ∧
    gitMapper.posixToWindows q = some r ∧
    (folded (normalizeWindows r) = folded (normalizeWindows "c:\\Users\\me".toList) ↔
      Kept gitMapper (normalizeWindows "c:\\Users\\me".toList)) :=
  roundTrip_iff (Built.new .msys "C:/Git".toList none none : Built _ gitMapper) (by decide)

/-! ### The place of a path in the shell -/

/-- No mount's point above `n` has more than `least` bytes. -/
def NoDeeper (mapper : PathMapper) (n : List Char) (least : ℕ) : Prop :=
  ∀ mount ∈ mapper.mounts, ∀ t, Covers mount.posix n t → utf8Len mount.posix ≤ least

/-- A path has its place in the shell for itself: what takes it there has the deepest point
above the place, and the place is not read as one on another drive. -/
inductive Unhidden (mapper : PathMapper) (w : List Char) : Prop
  | mount {mount : Mount} {tail : List Char}
      (hbest : mapper.bestWindowsMount w = some (some mount))
      (hcovers : Covers mount.windows w tail)
      (hdeeper : NoDeeper mapper (place mount.posix tail) (utf8Len mount.posix))
      (hroot : mount.posix = ['/'] → mapper.splitCygdrive (place mount.posix tail) = some none ∧
        ¬ "//".toList <+: place mount.posix tail)
      (hrejoins : Rejoins mount.windows tail)
  | drive {d : Char} {tail : List Char} (hbest : mapper.bestWindowsMount w = some none)
      (hpath : w = d :: ':' :: tail) (hd : d.isAlpha = true)
      (hdeeper : NoDeeper mapper (place (mapper.driveBase d.toLower) tail) 1)
      (hdrive : mapper.splitCygdrive (place (mapper.driveBase d.toLower) tail) =
        some (some (d.toLower, below tail)))
  | unc (hbest : mapper.bestWindowsMount w = some none) (hpath : "//".toList <+: w)
      (hdeeper : NoDeeper mapper (normalizePosix w) 1)
      (hdrive : mapper.splitCygdrive (normalizePosix w) = some none)
      (hunc : "//".toList <+: normalizePosix w ∨
        mapper.bestPosixMount (normalizePosix w) = some none)

theorem bestPosixMount_iff (hs : Sound mapper) (hmem : mount ∈ mapper.mounts)
    (hcovers : Covers mount.posix n t) : mapper.bestPosixMount n = some (some mount) ↔
      NoDeeper mapper n (utf8Len mount.posix) := by
  refine ⟨fun h other hother rest => le_of_answers (answers_of_bestPosixMount h) hother,
    fun h => ?_⟩
  obtain ⟨best, hbest, hanswers⟩ := bestPosixMount_eq mapper n
  rw [hbest]
  cases hanswers with
  | none hnone => exact absurd hcovers (hnone mount hmem t)
  | @some other rest hother hcovers' hmax =>
    have hlength := Nat.le_antisymm (h other hother rest hcovers') (hmax mount hmem t hcovers)
    rw [hs.eq_of_folded_eq hother hmem (hcovers'.folded_front_eq hcovers hlength)]

theorem onlyRoot_iff (hs : Sound mapper) : OnlyRoot mapper n ↔ NoDeeper mapper n 1 := by
  constructor
  · intro h mount hmem t hcovers
    obtain ⟨best, hbest, -⟩ := bestPosixMount_eq mapper n
    rw [posix_eq_root hs hmem hbest (fun other heq => h other (heq ▸ hbest)) hcovers]
    exact le_rfl
  · intro h mount hbest
    have hanswers := answers_of_bestPosixMount hbest
    cases hanswers with
    | @some _ t hmem hcovers =>
      exact eq_slash_of_utf8Len (hs.posix mount hmem).absolute (h mount hmem t hcovers)

/-- What is kept has its place for itself. -/
theorem unhidden_iff (hs : Sound mapper) : Unhidden mapper w ↔ Kept mapper w := by
  have hmount {mount : Mount} {tail : List Char}
      (hbest : mapper.bestWindowsMount w = some (some mount)) :
      mapper.bestPosixMount (place mount.posix tail) = some (some mount) ↔
        NoDeeper mapper (place mount.posix tail) (utf8Len mount.posix) := by
    have hmem := mem_of_answers (answers_of_bestWindowsMount hbest)
    obtain ⟨own, hown⟩ := @exists_covers_place tail mount.posix (hs.posix _ hmem)
    exact bestPosixMount_iff hs hmem hown
  constructor
  · intro h
    cases h with
    | mount hbest hcovers hdeeper hroot hrejoins =>
      exact .mount hbest hcovers ⟨(hmount hbest).2 hdeeper, hroot⟩ hrejoins
    | drive hbest hpath hd hdeeper hdrive =>
      exact .drive hbest hpath hd ((onlyRoot_iff hs).2 hdeeper) hdrive
    | unc hbest hpath hdeeper hdrive hunc =>
      exact .unc hbest hpath ((onlyRoot_iff hs).2 hdeeper) hdrive hunc
  · intro h
    cases h with
    | mount hbest hcovers hback hrejoins =>
      exact .mount hbest hcovers ((hmount hbest).1 hback.1) hback.2 hrejoins
    | drive hbest hpath hd hroot hdrive =>
      exact .drive hbest hpath hd ((onlyRoot_iff hs).1 hroot) hdrive
    | unc hbest hpath hroot hdrive hunc =>
      exact .unc hbest hpath ((onlyRoot_iff hs).1 hroot) hdrive hunc

/-- A path names itself again after the shell. -/
def Returns (mapper : PathMapper) (p : List Char) : Prop :=
  ∃ q r, mapper.windowsToPosix p = some q ∧ mapper.posixToWindows q = some r ∧
    folded (normalizeWindows r) = folded (normalizeWindows p)

/-- **No slice of either direction cuts a character, and an absolute path returns just when
its place in the shell is its own.** -/
theorem returns_iff_unhidden (h : Built join mapper) :
    (∀ path, (mapper.windowsToPosix path).isSome = true ∧
      (mapper.posixToWindows path).isSome = true) ∧
    ∀ p, isWindowsAbsolute p = true →
      (Returns mapper p ↔ Unhidden mapper (normalizeWindows p)) := by
  refine ⟨fun path => ⟨?_, posixToWindows_isSome mapper path⟩, fun p hp => ?_⟩
  · cases habs : isWindowsAbsolute path with
    | true =>
      obtain ⟨q, hq, -⟩ := windowsToPosix_eq mapper habs
      exact Option.isSome_of_eq_some hq
    | false =>
      rw [PathMapper.windowsToPosix, if_pos (.inr habs)]
      rfl
  · obtain ⟨q, r, hq, hr, hkept⟩ := exists_roundTrip h hp
    rw [unhidden_iff h.sound, ← hkept]
    refine ⟨?_, fun hsame => ⟨q, r, hq, hr, hsame⟩⟩
    rintro ⟨q', r', hq', hr', hsame⟩
    cases hq.symm.trans hq'
    cases hr.symm.trans hr'
    exact hsame

theorem returns_iff_unhidden_home : Returns gitMapper "c:\\Users\\me".toList ↔
    Unhidden gitMapper (normalizeWindows "c:\\Users\\me".toList) :=
  (returns_iff_unhidden (Built.new .msys "C:/Git".toList none none : Built _ gitMapper)).2 _
    (by decide)

/-- `C:\Git\bin` is taken to `/bin`, which is `C:\Git\usr\bin`. -/
theorem git_bin_not_returns : ¬ ∀ (join : List Char → List Char → List Char)
    (mapper : PathMapper), Built join mapper →
      ∀ p, isWindowsAbsolute p = true → Returns mapper p := by
  intro h
  obtain ⟨q, r, hq, hr, hsame⟩ := h _ gitMapper (.new .msys "C:/Git".toList none none)
    "C:\\Git\\bin".toList (by decide)
  have hthere : gitMapper.windowsToPosix "C:\\Git\\bin".toList = some "/bin".toList := by decide
  have hback : gitMapper.posixToWindows "/bin".toList =
      some "C:\\Git\\usr\\bin".toList := by decide
  cases hthere.symm.trans hq
  cases hback.symm.trans hr
  exact absurd hsame (by decide)

end Kept

end Mise.WindowsPosix
