/-
# When patching a Mach-O file does not panic and ends

The patcher reads a segment's number of sections and a path command's string
offset without looking whether the command is long enough for them, and its
`replace_all` need not end.  `settles_patchSlice_iff` says that nothing else
goes wrong in a slice, `settles_patch_iff` that nothing else does in a file.
-/

import Mathlib.Data.List.Forall2
import Mise.Lib.Fueled
import Mise.Lib.Rewriting
import Mise.Relocation.MachO

namespace Mise.Relocation.MachO

open Lib

variable {replacements : List Replacement} {slice : List UInt8} {r : Replacement}

/-- The run ends, and does not panic. -/
abbrev Settles {α : Type} (run : ℕ → Except Stop α) : Prop := Safe Stop.spins Stop.panics run

theorem settles_andThen_iff {α β : Type} {run : ℕ → Except Stop α}
    {rest : α → ℕ → Except Stop β} (h : Steady Stop.spins run)
    (hrest : ∀ a fuel, run fuel = .ok a → Steady Stop.spins (rest a)) :
    Settles (andThen run rest) ↔
      Settles run ∧ ∀ a fuel, run fuel = .ok a → Settles (rest a) :=
  safe_andThen_iff nofun h hrest

theorem settles_refused {α : Type} (e : PatchError) :
    Settles fun _ => (.error (.refused e) : Except Stop α) :=
  safe_const_iff.2 ⟨nofun, nofun⟩

/-! ### Replacing in a path -/

theorem steady_replaceLoop (r : Replacement) (s : List UInt8) :
    Steady Stop.spins fun fuel => replaceLoop r fuel s := by
  intro fuel
  induction fuel generalizing s with
  | zero => exact fun _ _ h => absurd rfl h
  | succ fuel ih =>
    intro fuel' hle hne
    obtain ⟨fuel', rfl⟩ := Nat.exists_eq_add_of_le' hle
    have hle : fuel ≤ fuel' + fuel := Nat.le_add_left fuel fuel'
    show replaceLoop r (fuel' + fuel + 1) s = replaceLoop r (fuel + 1) s
    change replaceLoop r (fuel + 1) s ≠ _ at hne
    rw [replaceLoop] at hne ⊢
    rw [replaceLoop]
    cases hfound : memmem s r.placeholder with
    | none => rfl
    | some pos =>
      rw [hfound] at hne
      exact ih _ _ hle hne

theorem error_of_replaceLoop {fuel : ℕ} {s : List UInt8} {e : Stop}
    (h : replaceLoop r fuel s = .error e) : e = .spins := by
  induction fuel generalizing s with
  | zero => exact (Except.error.inj h).symm
  | succ fuel ih =>
    rw [replaceLoop] at h
    split at h
    · exact nomatch h
    · exact ih h

theorem replaceAll_cons (r : Replacement) (replacements : List Replacement) (s : List UInt8) :
    (fun fuel => replaceAll fuel s (r :: replacements)) =
      andThen (fun fuel => replaceLoop r fuel s) fun out fuel =>
        replaceAll fuel out replacements := rfl

theorem steady_replaceAll (replacements : List Replacement) (s : List UInt8) :
    Steady Stop.spins fun fuel => replaceAll fuel s replacements := by
  induction replacements generalizing s with
  | nil => exact steady_const _ _
  | cons r replacements ih =>
    rw [replaceAll_cons]
    exact (steady_replaceLoop r s).andThen fun out _ _ => ih out

theorem error_of_replaceAll {fuel : ℕ} {s : List UInt8} {e : Stop}
    (h : replaceAll fuel s replacements = .error e) : e = .spins := by
  induction replacements generalizing s with
  | nil => exact nomatch h
  | cons r replacements ih =>
    cases hloop : replaceLoop r fuel s with
    | error e' =>
      rw [replaceAll, List.foldlM_cons, hloop] at h
      obtain rfl := Except.error.inj h
      exact error_of_replaceLoop hloop
    | ok out =>
      rw [replaceAll, List.foldlM_cons, hloop] at h
      exact ih h

/-- What the path `s` reads when every kind of placeholder has been replaced, one
after the other, each until there is none. -/
def Rewritten : List Replacement → List UInt8 → List UInt8 → Prop
  | [], s, new => new = s
  | r :: replacements, s, new =>
    ∃ out, Rewrites r.placeholder r.value s out ∧ Rewritten replacements out new

theorem Rewritten.unique {s new₁ new₂ : List UInt8} (h₁ : Rewritten replacements s new₁)
    (h₂ : Rewritten replacements s new₂) : new₁ = new₂ := by
  induction replacements generalizing s with
  | nil => exact Eq.trans h₁ (Eq.symm h₂)
  | cons r replacements ih =>
    obtain ⟨out₁, hout₁, h₁⟩ := h₁
    obtain ⟨out₂, hout₂, h₂⟩ := h₂
    obtain rfl := hout₁.unique hout₂
    exact ih h₁ h₂

theorem exists_replaceLoop_iff {s new : List UInt8} :
    (∃ fuel, replaceLoop r fuel s = .ok new) ↔ Rewrites r.placeholder r.value s new := by
  constructor
  · rintro ⟨fuel, h⟩
    induction fuel generalizing s with
    | zero => exact nomatch h
    | succ fuel ih =>
      rw [replaceLoop] at h
      split at h
      · rename_i hnone
        obtain rfl := Except.ok.inj h
        exact .stop hnone
      · rename_i pos hsome
        exact .turn hsome (ih h)
  · intro h
    induction h with
    | stop hnone => exact ⟨1, by rw [replaceLoop, hnone]⟩
    | turn hsome _ ih =>
      obtain ⟨fuel, hfuel⟩ := ih
      refine ⟨fuel + 1, ?_⟩
      rw [replaceLoop, hsome]
      exact hfuel

theorem exists_replaceAll_iff {s new : List UInt8} :
    (∃ fuel, replaceAll fuel s replacements = .ok new) ↔ Rewritten replacements s new := by
  induction replacements generalizing s with
  | nil => exact ⟨fun ⟨_, h⟩ => (Except.ok.inj h).symm, fun h => ⟨0, congrArg _ h.symm⟩⟩
  | cons r replacements ih =>
    rw [Rewritten]
    constructor
    · rintro ⟨fuel, h⟩
      rw [replaceAll, List.foldlM_cons] at h
      obtain ⟨out, hout, h⟩ := bind_eq_ok h
      exact ⟨out, exists_replaceLoop_iff.1 ⟨fuel, hout⟩, ih.1 ⟨fuel, h⟩⟩
    · rintro ⟨out, hout, h⟩
      obtain ⟨fuel, hfuel⟩ := exists_replaceLoop_iff.2 hout
      obtain ⟨fuel', hfuel'⟩ := ih.2 h
      refine ⟨max fuel fuel', ?_⟩
      rw [replaceAll, List.foldlM_cons,
        (steady_replaceLoop r s).ok_of_le hfuel (Nat.le_max_left fuel fuel')]
      exact (steady_replaceAll replacements out).ok_of_le hfuel' (Nat.le_max_right fuel fuel')

/-- The replacement of a path's placeholders ends. -/
def Halts (replacements : List Replacement) (s : List UInt8) : Prop :=
  ∃ new, Rewritten replacements s new

theorem settles_replaceAll_iff {s : List UInt8} :
    (Settles fun fuel => replaceAll fuel s replacements) ↔ Halts replacements s := by
  constructor
  · rintro ⟨⟨fuel, hfuel⟩, -⟩
    cases hrun : replaceAll fuel s replacements with
    | error e =>
      change replaceAll fuel s replacements ≠ _ at hfuel
      exact absurd (by rw [hrun, error_of_replaceAll hrun]) hfuel
    | ok new => exact ⟨new, exists_replaceAll_iff.1 ⟨fuel, hrun⟩⟩
  · rintro ⟨new, hnew⟩
    obtain ⟨fuel, hrun⟩ := exists_replaceAll_iff.2 hnew
    refine ⟨⟨fuel, fun h => ?_⟩, fun fuel' h => nomatch error_of_replaceAll h⟩
    change replaceAll fuel s replacements = _ at h
    rw [hrun] at h
    exact nomatch h

/-! ### One command -/

variable {c : List UInt8}

/-- The word at an offset, where it is in range. -/
def wordAt (slice : List UInt8) (off : ℕ) : ℕ := leValue (cut off 4 slice)

/-- The kind of a command. -/
def cmdOf (c : List UInt8) : ℕ := wordAt c 0

/-- Where the path of a command starts. -/
def strOff (c : List UInt8) : ℕ := wordAt c 8

/-- The path of a command. -/
def pathOf (c : List UInt8) : List UInt8 := frontText 0 (c.drop (strOff c))

/-- The size of a command with another path, aligned. -/
def resizedLength (c new : List UInt8) : ℕ :=
  max ((strOff c + new.length + 1 + 7) / 8 * 8) c.length

/-- A command with another path, before its size is written. -/
def padded (c new : List UInt8) : List UInt8 :=
  c.take (strOff c) ++ (new ++ List.replicate
    (resizedLength c new - (strOff c + new.length)) 0)

/-- A command with another path. -/
def resized (c new : List UInt8) : List UInt8 :=
  (padded c new).take 4 ++ (leBytes 4 (resizedLength c new) ++ (padded c new).drop 8)

theorem length_padded (h : strOff c < c.length) (new : List UInt8) :
    (padded c new).length = resizedLength c new := by
  rw [padded, List.length_append, List.length_append, List.length_take, List.length_replicate,
    resizedLength]
  omega

/-- The size is written over that of the command before. -/
theorem overwrite_padded (h12 : 12 ≤ c.length) (h : strOff c < c.length) (new : List UInt8) :
    overwrite 4 (leBytes 4 (resizedLength c new)) (padded c new) = some (resized c new) := by
  have hle : 4 + (leBytes 4 (resizedLength c new)).length ≤ (padded c new).length := by
    rw [length_leBytes, length_padded h, resizedLength]
    omega
  rw [overwrite, if_pos hle, length_leBytes]
  rfl

theorem u32At_of_le {off : ℕ} (h : off + 4 ≤ slice.length) :
    u32At slice off = .ok (wordAt slice off) := by
  rw [u32At, readWord_of_le h]
  rfl

theorem u32At_of_not_le {off : ℕ} (h : ¬ off + 4 ≤ slice.length) :
    u32At slice off = .error .panics := by
  rw [u32At, readWord_eq_none h]
  rfl

theorem editCommand_of_not_path (h8 : 8 ≤ c.length) (hpath : hasPathString (cmdOf c) = false)
    (fuel : ℕ) : editCommand fuel replacements c = .ok (c, false) := by
  rw [editCommand, u32At_of_le (by omega), ok_bind]
  exact if_neg (Bool.eq_false_iff.1 hpath)

theorem editCommand_of_short (h8 : 8 ≤ c.length) (hpath : hasPathString (cmdOf c) = true)
    (h12 : c.length < 12) (fuel : ℕ) : editCommand fuel replacements c = .error .panics := by
  rw [editCommand, u32At_of_le (by omega), ok_bind]
  refine (if_pos hpath).trans ?_
  rw [u32At_of_not_le (by omega)]
  rfl

theorem editCommand_of_outside (h12 : 12 ≤ c.length) (hoff : ¬ strOff c < c.length) (fuel : ℕ) :
    editCommand fuel replacements c = .ok (c, false) := by
  rw [editCommand, u32At_of_le (by omega), ok_bind]
  split
  · rw [u32At_of_le (by omega), ok_bind]
    exact if_neg hoff
  · rfl

/-- **What becomes of a command with a path.** -/
theorem editCommand_of_path (h12 : 12 ≤ c.length) (hpath : hasPathString (cmdOf c) = true)
    (hoff : strOff c < c.length) (fuel : ℕ) : editCommand fuel replacements c =
      replaceAll fuel (pathOf c) replacements >>= fun new =>
        .ok (if new ≠ pathOf c then (resized c new, true) else (c, false)) := by
  rw [editCommand, u32At_of_le (by omega), ok_bind]
  refine (if_pos hpath).trans ?_
  rw [u32At_of_le (by omega), ok_bind]
  refine (if_pos hoff).trans ?_
  refine congrArg (replaceAll fuel (pathOf c) replacements >>= ·) (funext fun new => ?_)
  by_cases hnew : new = pathOf c
  · rw [if_neg (not_not_intro hnew)]
    exact if_neg (not_not_intro hnew)
  · rw [if_pos hnew]
    refine (if_pos hnew).trans ?_
    have hpad : c.take (strOff c) ++ new ++ List.replicate
        (max ((strOff c + new.length + 1 + 7) / 8 * 8) c.length -
          (c.take (strOff c) ++ new).length) 0 = padded c new := by
      rw [padded, List.append_assoc, List.length_append, List.length_take,
        Nat.min_eq_left hoff.le]
      rfl
    have hread : wordAt c 8 = strOff c := rfl
    dsimp only
    rw [hread, hpad, length_padded hoff, overwrite_padded h12 hoff]
    rfl

/-- The command holds a path. -/
def HoldsPath (c : List UInt8) : Prop := hasPathString (cmdOf c) = true ∧ strOff c < c.length

/-- The command with another path, and whether that is another one. -/
def withPath (c new : List UInt8) : List UInt8 × Bool :=
  if new ≠ pathOf c then (resized c new, true) else (c, false)

/-- What becomes of a command, and whether it changes. -/
inductive Edited (replacements : List Replacement) (c : List UInt8) : List UInt8 × Bool → Prop
  | plain (h : ¬ HoldsPath c) : Edited replacements c (c, false)
  | path (h : HoldsPath c) {new : List UInt8} (hnew : Rewritten replacements (pathOf c) new) :
      Edited replacements c (withPath c new)

/-- A command that holds a path is long enough for the path's offset, and the
replacement in the path ends. -/
def Readable (replacements : List Replacement) (c : List UInt8) : Prop :=
  hasPathString (cmdOf c) = true →
    12 ≤ c.length ∧ (strOff c < c.length → Halts replacements (pathOf c))

/-- The three ways a command is edited: too short for the offset of its path,
without a path, and with one. -/
theorem editCommand_cases (replacements : List Replacement) (h8 : 8 ≤ c.length) :
    (hasPathString (cmdOf c) = true ∧ c.length < 12 ∧
      (fun fuel => editCommand fuel replacements c) = fun _ => .error .panics) ∨
    (¬ HoldsPath c ∧ Readable replacements c ∧
      (fun fuel => editCommand fuel replacements c) = fun _ => .ok (c, false)) ∨
    (HoldsPath c ∧ 12 ≤ c.length ∧
      (fun fuel => editCommand fuel replacements c) =
        andThen (fun fuel => replaceAll fuel (pathOf c) replacements) fun new _ =>
          .ok (withPath c new)) := by
  cases hpath : hasPathString (cmdOf c) with
  | false =>
    refine .inr (.inl ⟨fun h => ?_, fun h => ?_, funext (editCommand_of_not_path h8 hpath)⟩)
    · exact Bool.false_ne_true (hpath.symm.trans h.1)
    · exact absurd (hpath.symm.trans h) Bool.false_ne_true
  | true =>
    by_cases h12 : 12 ≤ c.length
    · by_cases hoff : strOff c < c.length
      · exact .inr (.inr ⟨⟨hpath, hoff⟩, h12, funext (editCommand_of_path h12 hpath hoff)⟩)
      · exact .inr (.inl ⟨fun h => hoff h.2, fun _ => ⟨h12, fun h => absurd h hoff⟩,
          funext (editCommand_of_outside h12 hoff)⟩)
    · exact .inl ⟨rfl, by omega, funext (editCommand_of_short h8 hpath (by omega))⟩

theorem steady_editCommand (replacements : List Replacement) (h8 : 8 ≤ c.length) :
    Steady Stop.spins fun fuel => editCommand fuel replacements c := by
  rcases editCommand_cases replacements h8 with ⟨-, -, h⟩ | ⟨-, -, h⟩ | ⟨-, -, h⟩
  · exact h ▸ steady_const _ _
  · exact h ▸ steady_const _ _
  · exact h ▸ (steady_replaceAll replacements _).andThen fun _ _ _ => steady_const _ _

theorem settles_editCommand_iff (h8 : 8 ≤ c.length) :
    (Settles fun fuel => editCommand fuel replacements c) ↔ Readable replacements c := by
  rcases editCommand_cases replacements h8 with ⟨hpath, hshort, h⟩ | ⟨-, hread, h⟩ |
    ⟨hpath, h12, h⟩
  · rw [h]
    exact iff_of_false (fun hsafe => (safe_const_iff.1 hsafe).2 rfl) fun hread => by
      have := (hread hpath).1
      omega
  · rw [h]
    exact iff_of_true (safe_ok _) hread
  · rw [h, settles_andThen_iff (steady_replaceAll replacements _) fun _ _ _ => steady_const _ _,
      settles_replaceAll_iff]
    exact ⟨fun h _ => ⟨h12, fun _ => h.1⟩, fun h => ⟨(h hpath.1).2 hpath.2, fun _ _ _ => safe_ok _⟩⟩

theorem exists_edited (hread : Readable replacements c) : ∃ edit, Edited replacements c edit := by
  by_cases hpath : HoldsPath c
  · obtain ⟨new, hnew⟩ := (hread hpath.1).2 hpath.2
    exact ⟨_, .path hpath hnew⟩
  · exact ⟨_, .plain hpath⟩

/-- A command is edited where rewriting its path ends. -/
theorem exists_editCommand_iff (h8 : 8 ≤ c.length) (hread : Readable replacements c)
    {edit : List UInt8 × Bool} :
    (∃ fuel, editCommand fuel replacements c = .ok edit) ↔ Edited replacements c edit := by
  rcases editCommand_cases replacements h8 with ⟨hpath, hshort, -⟩ | ⟨hplain, -, h⟩ |
    ⟨hpath, -, h⟩
  · have := (hread hpath).1
    omega
  · have hedit : ∀ fuel, editCommand fuel replacements c = .ok (c, false) := congrFun h
    constructor
    · rintro ⟨fuel, hfuel⟩
      obtain rfl := Except.ok.inj ((hedit fuel).symm.trans hfuel)
      exact .plain hplain
    · rintro (_ | hpath)
      · exact ⟨0, hedit 0⟩
      · exact absurd hpath hplain
  · have hedit : ∀ fuel, editCommand fuel replacements c =
        (replaceAll fuel (pathOf c) replacements >>= fun new => .ok (withPath c new)) := congrFun h
    constructor
    · rintro ⟨fuel, hfuel⟩
      obtain ⟨new, hnew, hfuel⟩ := bind_eq_ok ((hedit fuel).symm.trans hfuel)
      obtain rfl := Except.ok.inj hfuel
      exact .path hpath (exists_replaceAll_iff.1 ⟨fuel, hnew⟩)
    · rintro (hplain | @⟨_, new, hnew⟩)
      · exact absurd hpath hplain
      · obtain ⟨fuel, hfuel⟩ := exists_replaceAll_iff.2 hnew
        exact ⟨fuel, by rw [hedit, hfuel, ok_bind]⟩

/-! ### The table -/

/-- The load commands from an offset on, up to the first that is malformed, each
with its offset. -/
def reached (slice : List UInt8) (lcEnd : ℕ) : ℕ → ℕ → List (ℕ × List UInt8)
  | 0, _ => []
  | n + 1, off =>
    let cmdsize := wordAt slice (off + 4)
    if off + 8 ≤ lcEnd ∧ 8 ≤ cmdsize ∧ off + cmdsize ≤ lcEnd then
      (off, cut off cmdsize slice) :: reached slice lcEnd n (off + cmdsize)
    else []

/-- Every segment's number of sections is in the slice. -/
def SegmentsInside (slice : List UInt8) (lcEnd n off : ℕ) : Prop :=
  ∀ p ∈ reached slice lcEnd n off, cmdOf p.2 = lcSegment64 → p.1 + 68 ≤ slice.length

variable {lcEnd n off firstData : ℕ}

theorem reached_succ_of_pos
    (h : off + 8 ≤ lcEnd ∧ 8 ≤ wordAt slice (off + 4) ∧
      off + wordAt slice (off + 4) ≤ lcEnd) :
    reached slice lcEnd (n + 1) off =
      (off, cut off (wordAt slice (off + 4)) slice) ::
        reached slice lcEnd n (off + wordAt slice (off + 4)) := if_pos h

theorem reached_succ_of_neg
    (h : ¬ (off + 8 ≤ lcEnd ∧ 8 ≤ wordAt slice (off + 4) ∧
      off + wordAt slice (off + 4) ≤ lcEnd)) :
    reached slice lcEnd (n + 1) off = [] := if_neg h

theorem exists_scanSections (cmdsize : ℕ) (hend : off + cmdsize ≤ slice.length) (n i : ℕ) :
    ∃ first ≤ firstData, scanSections slice off cmdsize n i firstData = .ok first := by
  induction n generalizing i firstData with
  | zero => exact ⟨firstData, le_rfl, rfl⟩
  | succ n ih =>
    by_cases hsect : off + 72 + i * 80 + 80 > off + cmdsize
    · refine ⟨firstData, le_rfl, ?_⟩
      rw [scanSections]
      exact if_pos hsect
    · have hread : u32At slice (off + 72 + i * 80 + 48) =
          .ok (wordAt slice (off + 72 + i * 80 + 48)) := u32At_of_le (by omega)
      obtain ⟨first, hle, hfirst⟩ := @ih (if wordAt slice (off + 72 + i * 80 + 48) > 0
        then min firstData (wordAt slice (off + 72 + i * 80 + 48)) else firstData) (i + 1)
      refine ⟨first, hle.trans ?_, ?_⟩
      · split
        · exact Nat.min_le_left _ _
        · exact le_rfl
      · rw [scanSections]
        refine (if_neg hsect).trans ?_
        rw [hread, ok_bind]
        exact hfirst

/-- What the first pass gives: it panics if a segment's number of sections is not
in the slice, and otherwise refuses the table if a command of it is malformed. -/
inductive Scanned (slice : List UInt8) (lcEnd n off firstData : ℕ) : Except Stop ℕ → Prop
  | outside (h : ¬ SegmentsInside slice lcEnd n off) :
      Scanned slice lcEnd n off firstData (.error .panics)
  | whole (h : SegmentsInside slice lcEnd n off) (hn : (reached slice lcEnd n off).length = n)
      {first : ℕ} (hle : first ≤ firstData) : Scanned slice lcEnd n off firstData (.ok first)
  | broken (h : SegmentsInside slice lcEnd n off) (hn : (reached slice lcEnd n off).length ≠ n)
      (e : PatchError) : Scanned slice lcEnd n off firstData (.error (.refused e))

/-- One more command, in front. -/
theorem Scanned.succ {first : ℕ} {result : Except Stop ℕ}
    (hreach : off + 8 ≤ lcEnd ∧ 8 ≤ wordAt slice (off + 4) ∧
      off + wordAt slice (off + 4) ≤ lcEnd)
    (hinside : wordAt slice off = lcSegment64 → off + 68 ≤ slice.length) (hle : first ≤ firstData)
    (h : Scanned slice lcEnd n (off + wordAt slice (off + 4)) first result) :
    Scanned slice lcEnd (n + 1) off firstData result := by
  have hrest := reached_succ_of_pos (n := n) hreach
  have hcmd : cmdOf (cut off (wordAt slice (off + 4)) slice) = wordAt slice off := by
    rw [cmdOf, wordAt, cut_cut (by omega), Nat.add_zero]
    rfl
  have hsegments : SegmentsInside slice lcEnd (n + 1) off ↔
      SegmentsInside slice lcEnd n (off + wordAt slice (off + 4)) := by
    rw [SegmentsInside, hrest, List.forall_mem_cons, hcmd]
    exact and_iff_right hinside
  have hlength : (reached slice lcEnd (n + 1) off).length = n + 1 ↔
      (reached slice lcEnd n (off + wordAt slice (off + 4))).length = n := by
    rw [hrest, List.length_cons, Nat.succ_inj]
  cases h with
  | outside h => exact .outside (mt hsegments.1 h)
  | whole h hn hfirst => exact .whole (hsegments.2 h) (hlength.2 hn) (hfirst.trans hle)
  | broken h hn e => exact .broken (hsegments.2 h) (mt hlength.1 hn) e

/-- **The first pass over the table.** -/
theorem scanned_scanCommands (hend : lcEnd ≤ slice.length) (n off firstData : ℕ) :
    Scanned slice lcEnd n off firstData (scanCommands slice lcEnd n off firstData) := by
  induction n generalizing off firstData with
  | zero => exact .whole (fun _ h => absurd h List.not_mem_nil) rfl le_rfl
  | succ n ih =>
    by_cases hreach : off + 8 ≤ lcEnd ∧ 8 ≤ wordAt slice (off + 4) ∧
      off + wordAt slice (off + 4) ≤ lcEnd
    · have hscan : scanCommands slice lcEnd (n + 1) off firstData =
          if wordAt slice off = lcSegment64 then do
            let nsects ← u32At slice (off + 64)
            let firstData ← scanSections slice off (wordAt slice (off + 4)) nsects 0 firstData
            scanCommands slice lcEnd n (off + wordAt slice (off + 4)) firstData
          else scanCommands slice lcEnd n (off + wordAt slice (off + 4)) firstData := by
        rw [scanCommands, if_neg (by omega), u32At_of_le (by omega), ok_bind,
          u32At_of_le (by omega), ok_bind, if_neg (by omega)]
      rw [hscan]
      by_cases hsegment : wordAt slice off = lcSegment64
      · rw [if_pos hsegment]
        by_cases hinside : off + 68 ≤ slice.length
        · obtain ⟨first, hle, hfirst⟩ := @exists_scanSections slice off firstData
            (wordAt slice (off + 4)) (by omega) (wordAt slice (off + 64)) 0
          rw [u32At_of_le (by omega), ok_bind, hfirst, ok_bind]
          exact (ih _ first).succ hreach (fun _ => hinside) hle
        · rw [u32At_of_not_le (by omega)]
          refine .outside fun h => hinside (h (off, cut off (wordAt slice (off + 4)) slice) ?_ ?_)
          · rw [reached_succ_of_pos hreach]
            exact List.mem_cons_self
          · rw [cmdOf, wordAt, cut_cut (by omega), Nat.add_zero]
            exact hsegment
      · rw [if_neg hsegment]
        exact (ih _ firstData).succ hreach (fun h => absurd h hsegment) le_rfl
    · have hrest := @reached_succ_of_neg slice lcEnd n off hreach
      have hbroken : ∀ e, Scanned slice lcEnd (n + 1) off firstData (.error (.refused e)) := by
        refine .broken (fun p hp => ?_) ?_
        · rw [hrest] at hp
          exact nomatch hp
        · rw [hrest, List.length_nil]
          omega
      rw [scanCommands]
      by_cases hroom : off + 8 > lcEnd
      · rw [if_pos hroom]
        exact hbroken _
      · rw [if_neg hroom, u32At_of_le (by omega), ok_bind, u32At_of_le (by omega), ok_bind,
          if_pos (by omega)]
        exact hbroken _

/-! ### The second pass -/

/-- A table that is whole, taken apart. -/
theorem reach_of_whole (h : (reached slice lcEnd (n + 1) off).length = n + 1) :
    (off + 8 ≤ lcEnd ∧ 8 ≤ wordAt slice (off + 4) ∧ off + wordAt slice (off + 4) ≤ lcEnd) ∧
      (reached slice lcEnd n (off + wordAt slice (off + 4))).length = n := by
  by_cases hreach : off + 8 ≤ lcEnd ∧ 8 ≤ wordAt slice (off + 4) ∧
    off + wordAt slice (off + 4) ≤ lcEnd
  · rw [reached_succ_of_pos hreach] at h
    exact ⟨hreach, Nat.succ_inj.1 h⟩
  · rw [reached_succ_of_neg hreach] at h
    exact nomatch h

theorem rebuildCommands_succ (hend : lcEnd ≤ slice.length)
    (hreach : off + 8 ≤ lcEnd ∧ 8 ≤ wordAt slice (off + 4) ∧
      off + wordAt slice (off + 4) ≤ lcEnd) :
    (fun fuel => rebuildCommands fuel replacements slice lcEnd (n + 1) off) =
      andThen (fun fuel => editCommand fuel replacements (cut off (wordAt slice (off + 4)) slice))
        fun edit => andThen (fun fuel => rebuildCommands fuel replacements slice lcEnd n
          (off + wordAt slice (off + 4)))
            fun rest _ => .ok (edit.1 :: rest.1, edit.2 || rest.2) := by
  funext fuel
  rw [rebuildCommands, if_neg (by omega), u32At_of_le (by omega), ok_bind, if_pos (by omega)]
  rfl

theorem steady_rebuildCommands (replacements : List Replacement) (hend : lcEnd ≤ slice.length)
    (hwhole : (reached slice lcEnd n off).length = n) :
    Steady Stop.spins fun fuel => rebuildCommands fuel replacements slice lcEnd n off := by
  induction n generalizing off with
  | zero => exact steady_const _ _
  | succ n ih =>
    obtain ⟨hreach, hrest⟩ := reach_of_whole hwhole
    have h8 : 8 ≤ (cut off (wordAt slice (off + 4)) slice).length := by
      rw [length_cut (by omega)]
      exact hreach.2.1
    rw [rebuildCommands_succ hend hreach]
    exact (steady_editCommand replacements h8).andThen fun _ _ _ =>
      (ih hrest).andThen fun _ _ _ => steady_const _ _

/-- **The second pass panics or spins exactly at a command that is too short, or
whose path is rewritten for ever.** -/
theorem settles_rebuildCommands_iff (hend : lcEnd ≤ slice.length)
    (hwhole : (reached slice lcEnd n off).length = n) :
    (Settles fun fuel => rebuildCommands fuel replacements slice lcEnd n off) ↔
      ∀ p ∈ reached slice lcEnd n off, Readable replacements p.2 := by
  induction n generalizing off with
  | zero => exact iff_of_true (safe_ok _) fun _ h => absurd h List.not_mem_nil
  | succ n ih =>
    obtain ⟨hreach, hrest⟩ := reach_of_whole hwhole
    have h8 : 8 ≤ (cut off (wordAt slice (off + 4)) slice).length := by
      rw [length_cut (by omega)]
      exact hreach.2.1
    have hsteady := steady_rebuildCommands replacements hend hrest
    rw [rebuildCommands_succ hend hreach, reached_succ_of_pos hreach, List.forall_mem_cons,
      settles_andThen_iff (steady_editCommand replacements h8) fun _ _ _ =>
        hsteady.andThen fun _ _ _ => steady_const _ _, settles_editCommand_iff h8]
    have hnext : ∀ edit : List UInt8 × Bool,
        (Settles (andThen (fun fuel => rebuildCommands fuel replacements slice lcEnd n
          (off + wordAt slice (off + 4)))
            fun rest _ => .ok (edit.1 :: rest.1, edit.2 || rest.2)) ↔
          ∀ p ∈ reached slice lcEnd n (off + wordAt slice (off + 4)),
            Readable replacements p.2) := fun edit => by
      rw [settles_andThen_iff hsteady fun _ _ _ => steady_const _ _, ih hrest]
      exact and_iff_left fun _ _ _ => safe_ok _
    refine and_congr_right fun hread => ?_
    constructor
    · intro h
      obtain ⟨edit, hedit⟩ := exists_edited hread
      obtain ⟨fuel, hfuel⟩ := (exists_editCommand_iff h8 hread).2 hedit
      exact (hnext edit).1 (h edit fuel hfuel)
    · exact fun h edit _ _ => (hnext edit).2 h

/-- **What the second pass returns.** -/
theorem exists_rebuildCommands_iff (hend : lcEnd ≤ slice.length)
    (hwhole : (reached slice lcEnd n off).length = n)
    (hread : ∀ p ∈ reached slice lcEnd n off, Readable replacements p.2)
    {result : List (List UInt8) × Bool} :
    (∃ fuel, rebuildCommands fuel replacements slice lcEnd n off = .ok result) ↔
      ∃ edits, List.Forall₂ (Edited replacements) ((reached slice lcEnd n off).map Prod.snd) edits ∧
        result = (edits.map Prod.fst, edits.any Prod.snd) := by
  induction n generalizing off result with
  | zero =>
    constructor
    · rintro ⟨fuel, h⟩
      exact ⟨[], .nil, (Except.ok.inj h).symm⟩
    · rintro ⟨edits, hedits, rfl⟩
      have hedits : List.Forall₂ (Edited replacements) [] edits := hedits
      cases hedits
      exact ⟨0, rfl⟩
  | succ n ih =>
    obtain ⟨hreach, hrest⟩ := reach_of_whole hwhole
    have h8 : 8 ≤ (cut off (wordAt slice (off + 4)) slice).length := by
      rw [length_cut (by omega)]
      exact hreach.2.1
    have hstep := fun fuel => congrFun (@rebuildCommands_succ replacements slice lcEnd n off hend
      hreach) fuel
    rw [reached_succ_of_pos hreach] at hread ⊢
    obtain ⟨hfirst, hread⟩ := List.forall_mem_cons.1 hread
    rw [List.map_cons]
    constructor
    · rintro ⟨fuel, h⟩
      obtain ⟨edit, hedit, h⟩ := bind_eq_ok ((hstep fuel).symm.trans h)
      obtain ⟨rest, hrun, h⟩ := bind_eq_ok h
      obtain rfl := Except.ok.inj h
      obtain ⟨edits, hedits, rfl⟩ := (ih hrest hread).1 ⟨fuel, hrun⟩
      exact ⟨edit :: edits, .cons ((exists_editCommand_iff h8 hfirst).1 ⟨fuel, hedit⟩) hedits, rfl⟩
    · rintro ⟨_, hedits, rfl⟩
      obtain ⟨edit, edits, hedit, hrest', rfl⟩ := List.forall₂_cons_left_iff.1 hedits
      obtain ⟨fuel, hfuel⟩ := (exists_editCommand_iff h8 hfirst).2 hedit
      obtain ⟨fuel', hfuel'⟩ := (ih hrest hread).2 ⟨edits, hrest', rfl⟩
      refine ⟨max fuel fuel', (hstep _).trans ?_⟩
      refine (andThen_of_ok ((steady_editCommand replacements h8).ok_of_le hfuel
        (Nat.le_max_left fuel fuel'))).trans ?_
      refine (andThen_of_ok (a := (edits.map Prod.fst, edits.any Prod.snd)) ?_).trans rfl
      exact (steady_rebuildCommands replacements hend hrest).ok_of_le hfuel'
        (Nat.le_max_right fuel fuel')

/-! ### A slice -/

/-- The number of load commands. -/
def commandCount (slice : List UInt8) : ℕ := wordAt slice 16

/-- Where the table of load commands ends. -/
def tableEnd (slice : List UInt8) : ℕ := headerSize64 + wordAt slice 20

/-- The slice has the header of a 64-bit file, and its table is inside. -/
def Headed (slice : List UInt8) : Prop :=
  headerSize64 ≤ slice.length ∧ wordAt slice 0 = magic64 ∧ tableEnd slice ≤ slice.length

/-- The load commands up to the first that is malformed. -/
def commandsOf (slice : List UInt8) : List (List UInt8) :=
  (reached slice (tableEnd slice) (commandCount slice) headerSize64).map Prod.snd

/-- No command is malformed. -/
def Whole (slice : List UInt8) : Prop :=
  (reached slice (tableEnd slice) (commandCount slice) headerSize64).length = commandCount slice

/-- The end of `patch_slice`: the new table is laid down, if there is one. -/
def finish (slice : List UInt8) (firstData : ℕ) (result : List (List UInt8) × Bool) :
    Except Stop (List UInt8 × Bool) :=
  if !result.2 then .ok (slice, false)
  else if headerSize64 + result.1.flatten.length > firstData then
    .error (.refused
      (.notEnoughPadding (headerSize64 + result.1.flatten.length) firstData))
  else do
    let slice ← layTable slice firstData result.1
    .ok (slice, true)

/-- The slice with a new table. -/
structure Laid (slice : List UInt8) (firstData : ℕ) (table slice' : List UInt8) : Prop where
  length : slice'.length = slice.length
  header : ∀ i, i < 20 ∨ 24 ≤ i ∧ i < headerSize64 → slice'[i]? = slice[i]?
  size : cut 20 4 slice' = leBytes 4 table.length
  inside : cut headerSize64 table.length slice' = table
  gap : ∀ i, headerSize64 + table.length ≤ i → i < firstData → slice'[i]? = some 0
  behind : ∀ i, firstData ≤ i → slice'[i]? = slice[i]?

/-- **A table for which there is room is laid down.** -/
theorem exists_layTable {commands : List (List UInt8)}
    (hroom : headerSize64 + commands.flatten.length ≤ firstData)
    (hdata : firstData ≤ slice.length) :
    ∃ slice', layTable slice firstData commands = .ok slice' ∧
      Laid slice firstData commands.flatten slice' := by
  have h32 : headerSize64 = 32 := rfl
  have hzeros : (List.replicate (firstData - headerSize64) (0 : UInt8)).length =
    firstData - headerSize64 := List.length_replicate
  have hfour : (leBytes 4 commands.flatten.length).length = 4 := length_leBytes 4 _
  obtain ⟨filled, hfilled⟩ := exists_overwrite headerSize64
    (List.replicate (firstData - headerSize64) 0) slice (by omega)
  have hlength := length_overwrite hfilled
  obtain ⟨laid, hlaid⟩ := exists_overwrite headerSize64 commands.flatten filled
    (by omega)
  have hlength' := length_overwrite hlaid
  obtain ⟨slice', hslice⟩ := exists_overwrite 20
    (leBytes 4 commands.flatten.length) laid (by omega)
  refine ⟨slice', ?_, ?_⟩
  · rw [layTable, fillZero, if_pos (by omega), hfilled]
    change (do
      let slice ← orPanic (overwrite headerSize64 commands.flatten filled)
      orPanic (overwrite 20 (leBytes 4 commands.flatten.length) slice)) = _
    rw [hlaid]
    change orPanic (overwrite 20 (leBytes 4 commands.flatten.length) laid) = _
    rw [hslice]
    rfl
  · refine ⟨(length_overwrite hslice).trans (hlength'.trans hlength), fun i hi => ?_, ?_, ?_,
      fun i hi hi' => ?_, fun i hi => ?_⟩
    · rw [getElem?_overwrite hslice (by omega), getElem?_overwrite hlaid (by omega),
        getElem?_overwrite hfilled (by omega)]
    · have := cut_overwrite hslice
      rwa [hfour] at this
    · rw [cut_overwrite_of_disjoint hslice (by omega), cut_overwrite hlaid]
    · rw [getElem?_overwrite hslice (by omega), getElem?_overwrite hlaid (by omega)]
      have hcut := congrArg (·[i - headerSize64]?) (cut_overwrite hfilled)
      rw [getElem?_cut_of_lt (by omega), List.getElem?_replicate_of_lt (by omega)] at hcut
      rwa [Nat.add_sub_cancel' (by omega)] at hcut
    · rw [getElem?_overwrite hslice (by omega), getElem?_overwrite hlaid (by omega),
        getElem?_overwrite hfilled (by omega)]

theorem settles_finish (hdata : firstData ≤ slice.length) (result : List (List UInt8) × Bool) :
    Settles fun _ => finish slice firstData result := by
  rw [finish]
  split
  · exact safe_ok _
  · split
    · exact settles_refused _
    · rename_i hroom
      obtain ⟨slice', hlay, -⟩ := exists_layTable (Nat.not_lt.1 hroom) hdata
      rw [hlay]
      exact safe_ok _

theorem patchSlice_of_headed (replacements : List Replacement) (h : Headed slice) :
    (fun fuel => patchSlice fuel replacements slice) =
      andThen (fun _ => scanCommands slice (tableEnd slice) (commandCount slice) headerSize64
          slice.length)
        fun firstData => andThen (fun fuel => rebuildCommands fuel replacements slice
            (tableEnd slice) (commandCount slice) headerSize64)
          fun result _ => finish slice firstData result := by
  obtain ⟨hlength, hmagic, hend⟩ := h
  have h32 : headerSize64 = 32 := rfl
  funext fuel
  rw [patchSlice, if_neg (by omega), u32At_of_le (by omega), ok_bind,
    if_neg (not_not_intro hmagic), u32At_of_le (by omega), ok_bind, u32At_of_le (by omega), ok_bind]
  exact if_neg (Nat.not_lt.2 hend)

/-- What is not patched is left as it is, or refused. -/
theorem patchSlice_of_not_headed (replacements : List Replacement) (h : ¬ Headed slice) :
    (∀ fuel, patchSlice fuel replacements slice = .ok (slice, false)) ∨
      ∀ fuel, patchSlice fuel replacements slice = .error (.refused .malformedHeader) := by
  have h32 : headerSize64 = 32 := rfl
  by_cases hlength : slice.length < headerSize64
  · exact .inl fun fuel => if_pos hlength
  · by_cases hmagic : wordAt slice 0 = magic64
    · refine .inr fun fuel => ?_
      rw [patchSlice, if_neg hlength, u32At_of_le (by omega), ok_bind,
        if_neg (not_not_intro hmagic), u32At_of_le (by omega), ok_bind, u32At_of_le (by omega),
        ok_bind]
      exact if_pos (Nat.not_le.1 fun hend => h ⟨Nat.not_lt.1 hlength, hmagic, hend⟩)
    · refine .inl fun fuel => ?_
      rw [patchSlice, if_neg hlength, u32At_of_le (by omega), ok_bind]
      exact if_pos hmagic

theorem steady_patchSlice (replacements : List Replacement) (slice : List UInt8) :
    Steady Stop.spins fun fuel => patchSlice fuel replacements slice := by
  by_cases h : Headed slice
  · have hscan := scanned_scanCommands h.2.2 (commandCount slice) headerSize64 slice.length
    rw [patchSlice_of_headed replacements h]
    cases hrun : scanCommands slice (tableEnd slice) (commandCount slice) headerSize64
      slice.length with
    | error e => exact fun _ _ _ _ => rfl
    | ok firstData =>
      rw [hrun] at hscan
      cases hscan with
      | whole _ hn _ =>
        have hsteady := steady_rebuildCommands replacements h.2.2 hn
        exact (steady_const _ _).andThen fun _ _ _ => hsteady.andThen fun _ _ _ => steady_const _ _
  · rcases patchSlice_of_not_headed replacements h with hrun | hrun
    · rw [funext hrun]
      exact steady_const _ _
    · rw [funext hrun]
      exact steady_const _ _

/-- Nothing in the slice makes the patcher panic or spin: each segment's number
of sections is inside, each path's offset in its command, and the replacements
end. -/
def Calm (replacements : List Replacement) (slice : List UInt8) : Prop :=
  Headed slice → SegmentsInside slice (tableEnd slice) (commandCount slice) headerSize64 ∧
    (Whole slice → ∀ c ∈ commandsOf slice, Readable replacements c)

/-- **A slice is patched without a panic, and that ends, exactly if it is calm.** -/
theorem settles_patchSlice_iff : (Settles fun fuel => patchSlice fuel replacements slice) ↔
    Calm replacements slice := by
  by_cases h : Headed slice
  · have hscan := scanned_scanCommands h.2.2 (commandCount slice) headerSize64 slice.length
    have hcalm : Calm replacements slice ↔
        SegmentsInside slice (tableEnd slice) (commandCount slice) headerSize64 ∧
          (Whole slice → ∀ c ∈ commandsOf slice, Readable replacements c) := forall_prop_of_true h
    rw [patchSlice_of_headed replacements h, hcalm]
    cases hrun : scanCommands slice (tableEnd slice) (commandCount slice) headerSize64
      slice.length with
    | error e =>
      rw [hrun] at hscan
      have hstop : (andThen (fun _ => (.error e : Except Stop ℕ))
          fun firstData => andThen (fun fuel => rebuildCommands fuel replacements slice
            (tableEnd slice) (commandCount slice) headerSize64)
              fun result _ => finish slice firstData result) = fun _ => .error e :=
        funext fun _ => andThen_of_error rfl
      rw [hstop]
      cases hscan with
      | outside hsegments =>
        exact iff_of_false (fun hsafe => (safe_const_iff.1 hsafe).2 rfl) fun h => hsegments h.1
      | broken hsegments hn e =>
        exact iff_of_true (settles_refused e) ⟨hsegments, fun hwhole => absurd hwhole hn⟩
    | ok firstData =>
      rw [hrun] at hscan
      cases hscan with
      | whole hsegments hn hle =>
        have hsteady := steady_rebuildCommands replacements h.2.2 hn
        have hlast : (Settles (andThen (fun fuel => rebuildCommands fuel replacements slice
            (tableEnd slice) (commandCount slice) headerSize64)
              fun result _ => finish slice firstData result)) ↔
            ∀ p ∈ reached slice (tableEnd slice) (commandCount slice) headerSize64,
              Readable replacements p.2 := by
          rw [settles_andThen_iff hsteady fun _ _ _ => steady_const _ _,
            settles_rebuildCommands_iff h.2.2 hn]
          exact and_iff_left fun result _ _ => settles_finish hle result
        have hcommands : (∀ c ∈ commandsOf slice, Readable replacements c) ↔
            ∀ p ∈ reached slice (tableEnd slice) (commandCount slice) headerSize64,
              Readable replacements p.2 := List.forall_mem_map
        have hok : (andThen (fun _ => (.ok firstData : Except Stop ℕ))
            fun firstData => andThen (fun fuel => rebuildCommands fuel replacements slice
              (tableEnd slice) (commandCount slice) headerSize64)
                fun result _ => finish slice firstData result) =
            andThen (fun fuel => rebuildCommands fuel replacements slice
              (tableEnd slice) (commandCount slice) headerSize64)
                fun result _ => finish slice firstData result :=
          funext fun _ => andThen_of_ok rfl
        rw [hok, hlast, ← hcommands, forall_prop_of_true (show Whole slice from hn)]
        exact (and_iff_right hsegments).symm
  · refine iff_of_true ?_ fun h' => absurd h' h
    rcases patchSlice_of_not_headed replacements h with hrun | hrun
    · rw [funext hrun]
      exact safe_ok _
    · rw [funext hrun]
      exact settles_refused _

end Mise.Relocation.MachO
