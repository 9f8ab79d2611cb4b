/-
# When a Mach-O file is patched soundly

`patch` goes over the slices of a file, each as those in front of it have left
the content.  The patcher reads a segment's number of sections and a path's
offset without looking whether the command holds them, and its rewriting need
not end; and it rewrites commands and padding that are not `Tidy`.
`patch_sound_iff` says that nothing else goes wrong.
-/

import Mise.Relocation.MachOTable

namespace Mise.Relocation.MachO

open Lib

variable {replacements : List Replacement} {slice slice' content content' : List UInt8}
  {range : ℕ × ℕ} {ranges : List (ℕ × ℕ)}

/-! ### A slice -/

/-- A slice that is patched soundly: nothing makes the patcher panic or spin, and
where it lays down a new table, paths and padding are tidy. -/
def Clean (replacements : List Replacement) (slice : List UInt8) : Prop :=
  Calm replacements slice ∧ ∀ edits firstData,
    Rebuilt replacements slice edits firstData → Tidy replacements slice edits firstData

/-- **A slice is patched soundly exactly if it is clean.** -/
theorem relocated_patchSlice_iff :
    ((Settles fun fuel => patchSlice fuel replacements slice) ∧ ∀ fuel slice',
      patchSlice fuel replacements slice = .ok (slice', true) →
        Relocated replacements slice slice') ↔ Clean replacements slice := by
  rw [settles_patchSlice_iff, Clean]
  refine and_congr_right fun hcalm => ?_
  constructor
  · intro h edits firstData hbuilt
    have hdata := firstData_le_of_scanned hbuilt.headed hbuilt.scanned
    obtain ⟨slice', hlay, hlaid⟩ := exists_layTable hbuilt.room hdata
    obtain ⟨fuel, hrun⟩ := (exists_patchSlice_iff hcalm).2 ⟨edits, firstData, hbuilt, hlay⟩
    exact tidy_of_relocated hcalm hbuilt hlaid (h fuel slice' hrun)
  · intro h fuel slice' hrun
    obtain ⟨edits, firstData, hbuilt, hlay⟩ := (exists_patchSlice_iff hcalm).1 ⟨fuel, hrun⟩
    have hdata := firstData_le_of_scanned hbuilt.headed hbuilt.scanned
    obtain ⟨slice'', hlay', hlaid⟩ := exists_layTable hbuilt.room hdata
    obtain rfl := Except.ok.inj (hlay.symm.trans hlay')
    exact relocated_of_tidy hcalm hbuilt (h edits firstData hbuilt) hlaid

/-- Patched or not, a slice keeps its length. -/
theorem length_patchSlice {fuel : ℕ} {changed : Bool}
    (h : patchSlice fuel replacements slice = .ok (slice', changed)) :
    slice'.length = slice.length := by
  by_cases hhead : Headed slice
  · rw [patchSlice_eq replacements hhead] at h
    obtain ⟨firstData, hscan, h⟩ := bind_eq_ok h
    obtain ⟨result, -, h⟩ := bind_eq_ok h
    cases changed with
    | true =>
      obtain ⟨-, hroom, hlay⟩ := finish_eq_ok_true.1 h
      obtain ⟨slice'', hlay', hlaid⟩ :=
        exists_layTable hroom (firstData_le_of_scanned hhead hscan)
      obtain rfl := Except.ok.inj (hlay.symm.trans hlay')
      exact hlaid.length
    | false =>
      rw [finish] at h
      split at h
      · rw [(Prod.mk.inj (Except.ok.inj h)).1]
      · split at h
        · cases h
        · obtain ⟨laid, -, h⟩ := bind_eq_ok h
          cases (Prod.mk.inj (Except.ok.inj h)).2
  · rcases patchSlice_of_not_headed replacements hhead with hrun | hrun
    · rw [(Prod.mk.inj (Except.ok.inj ((hrun fuel).symm.trans h))).1]
    · cases (hrun fuel).symm.trans h

/-! ### A fat file -/

/-- The slices that are patched in a run over ranges, each as it is at its turn. -/
inductive Turn (replacements : List Replacement) :
    List UInt8 → List (ℕ × ℕ) → List UInt8 → Prop
  | here {content : List UInt8} {range : ℕ × ℕ} {ranges : List (ℕ × ℕ)} :
      Turn replacements content (range :: ranges) (cut range.1 range.2 content)
  | later {content content' slice slice' : List UInt8} {range : ℕ × ℕ} {ranges : List (ℕ × ℕ)}
      {fuel : ℕ} {changed : Bool}
      (h : patchSlice fuel replacements (cut range.1 range.2 content) = .ok (slice', changed))
      (hover : overwrite range.1 slice' content = some content')
      (rest : Turn replacements content' ranges slice) :
      Turn replacements content (range :: ranges) slice

/-- The slices that `patch` patches. -/
def Met (replacements : List Replacement) (content slice : List UInt8) : Prop :=
  8 ≤ content.length ∧
    if leValue (cut 0 4 content).reverse = fatMagic then
      ∃ ranges, fatRanges content (leValue (cut 4 4 content).reverse) 0 = .ok ranges ∧
        Turn replacements content ranges slice
    else slice = content

theorem u32BeAt_of_le {off : ℕ} (h : off + 4 ≤ content.length) :
    u32BeAt content off = .ok (leValue (cut off 4 content).reverse) := by
  rw [u32BeAt, if_pos h]
  rfl

/-- The ranges of a fat file's slices are inside, or it is refused. -/
theorem fatRanges_cases (content : List UInt8) (n i : ℕ) :
    (∃ e, fatRanges content n i = .error (.refused e)) ∨
      ∃ ranges, fatRanges content n i = .ok ranges ∧
        ∀ range ∈ ranges, range.1 + range.2 ≤ content.length := by
  induction n generalizing i with
  | zero => exact .inr ⟨[], rfl, nofun⟩
  | succ n ih =>
    by_cases hentry : 8 + i * 20 + 20 > content.length
    · refine .inl ⟨.malformedFatHeader, ?_⟩
      rw [fatRanges]
      exact if_pos hentry
    · have hstep : fatRanges content (n + 1) i =
          if leValue (cut (8 + i * 20 + 8) 4 content).reverse +
              leValue (cut (8 + i * 20 + 12) 4 content).reverse > content.length then
            .error (.refused .malformedFatArch)
          else fatRanges content n (i + 1) >>= fun ranges =>
            .ok ((leValue (cut (8 + i * 20 + 8) 4 content).reverse,
              leValue (cut (8 + i * 20 + 12) 4 content).reverse) :: ranges) := by
        rw [fatRanges]
        refine (if_neg hentry).trans ?_
        rw [u32BeAt_of_le (by omega), ok_bind, u32BeAt_of_le (by omega), ok_bind]
      rw [hstep]
      split
      · exact .inl ⟨.malformedFatArch, rfl⟩
      · rcases ih (i + 1) with ⟨e, h⟩ | ⟨ranges, h, hall⟩
        · exact .inl ⟨e, by rw [h]; rfl⟩
        · refine .inr ⟨_, by rw [h]; rfl, List.forall_mem_cons.2 ⟨?_, hall⟩⟩
          dsimp only
          omega

theorem patchRange_eq (replacements : List Replacement) {state : List UInt8 × Bool}
    (h : range.1 + range.2 ≤ state.1.length) :
    (fun fuel => patchRange fuel replacements state range) =
      andThen (fun fuel => patchSlice fuel replacements (cut range.1 range.2 state.1))
        fun result _ => orPanic (overwrite range.1 result.1 state.1) >>= fun content =>
          .ok (content, state.2 || result.2) := by
  funext fuel
  rw [patchRange, if_pos h]
  rfl

theorem steady_patchRange (replacements : List Replacement) {state : List UInt8 × Bool}
    (h : range.1 + range.2 ≤ state.1.length) :
    Steady Stop.spins fun fuel => patchRange fuel replacements state range := by
  rw [patchRange_eq replacements h]
  exact (steady_patchSlice replacements _).andThen fun _ _ _ => steady_const _ _

/-- What a range's turn gives. -/
theorem patchRange_eq_ok_iff {state state' : List UInt8 × Bool} {fuel : ℕ}
    (h : range.1 + range.2 ≤ state.1.length) :
    patchRange fuel replacements state range = .ok state' ↔ ∃ slice' changed,
      patchSlice fuel replacements (cut range.1 range.2 state.1) = .ok (slice', changed) ∧
        overwrite range.1 slice' state.1 = some state'.1 ∧ state'.2 = (state.2 || changed) := by
  rw [show patchRange fuel replacements state range = _ from
    congrFun (patchRange_eq replacements h) fuel]
  constructor
  · intro h
    obtain ⟨⟨slice', changed⟩, hslice, h⟩ := bind_eq_ok h
    obtain ⟨content', hover, h⟩ := bind_eq_ok h
    obtain rfl := Except.ok.inj h
    refine ⟨slice', changed, hslice, ?_, rfl⟩
    cases hout : overwrite range.1 slice' state.1 with
    | none =>
      rw [hout] at hover
      exact nomatch hover
    | some image =>
      rw [hout] at hover
      exact congrArg some (Except.ok.inj hover)
  · rintro ⟨slice', changed, hslice, hover, hchanged⟩
    refine (andThen_of_ok (a := (slice', changed)) hslice).trans ?_
    rw [hover]
    exact congrArg Except.ok (Prod.ext rfl hchanged.symm)

theorem settles_patchRange_iff {state : List UInt8 × Bool}
    (h : range.1 + range.2 ≤ state.1.length) :
    (Settles fun fuel => patchRange fuel replacements state range) ↔
      Settles fun fuel => patchSlice fuel replacements (cut range.1 range.2 state.1) := by
  rw [patchRange_eq replacements h, settles_andThen_iff (steady_patchSlice replacements _)
    fun _ _ _ => steady_const _ _]
  refine and_iff_left fun result fuel hrun => ?_
  have hlength := (length_patchSlice hrun).trans (length_cut h)
  obtain ⟨content', hover⟩ := exists_overwrite _ _ _ (hlength.symm ▸ h)
  rw [hover]
  exact safe_ok _

/-- The run over the ranges, one after the other. -/
def patchRanges (replacements : List Replacement) (state : List UInt8 × Bool)
    (ranges : List (ℕ × ℕ)) (fuel : ℕ) : Except Stop (List UInt8 × Bool) :=
  ranges.foldlM (patchRange fuel replacements) state

theorem patchRanges_cons (replacements : List Replacement) (state : List UInt8 × Bool)
    (range : ℕ × ℕ) (ranges : List (ℕ × ℕ)) :
    patchRanges replacements state (range :: ranges) =
      andThen (fun fuel => patchRange fuel replacements state range)
        fun state => patchRanges replacements state ranges := rfl

/-- The ranges stay inside, since no slice changes its length. -/
theorem length_of_patchRange {state state' : List UInt8 × Bool} {fuel : ℕ}
    (h : range.1 + range.2 ≤ state.1.length)
    (hrun : patchRange fuel replacements state range = .ok state') :
    state'.1.length = state.1.length := by
  obtain ⟨_, _, -, hover, -⟩ := (patchRange_eq_ok_iff h).1 hrun
  exact length_overwrite hover

theorem steady_patchRanges (replacements : List Replacement) {state : List UInt8 × Bool}
    (h : ∀ range ∈ ranges, range.1 + range.2 ≤ state.1.length) :
    Steady Stop.spins (patchRanges replacements state ranges) := by
  induction ranges generalizing state with
  | nil => exact steady_const _ _
  | cons range ranges ih =>
    obtain ⟨hrange, h⟩ := List.forall_mem_cons.1 h
    rw [patchRanges_cons]
    exact (steady_patchRange replacements hrange).andThen fun state' _ hrun =>
      ih fun r hr => (h r hr).trans_eq (length_of_patchRange hrange hrun).symm

/-- **The run settles exactly if every slice does, as it is at its turn.** -/
theorem settles_patchRanges_iff {state : List UInt8 × Bool}
    (h : ∀ range ∈ ranges, range.1 + range.2 ≤ state.1.length) :
    Settles (patchRanges replacements state ranges) ↔
      ∀ slice, Turn replacements state.1 ranges slice →
        Settles fun fuel => patchSlice fuel replacements slice := by
  induction ranges generalizing state with
  | nil => exact iff_of_true (safe_ok _) fun _ h => nomatch h
  | cons range ranges ih =>
    obtain ⟨hrange, h⟩ := List.forall_mem_cons.1 h
    have hinside : ∀ state' fuel, patchRange fuel replacements state range = .ok state' →
        ∀ range ∈ ranges, range.1 + range.2 ≤ state'.1.length := fun state' fuel hrun r hr =>
      (h r hr).trans_eq (length_of_patchRange hrange hrun).symm
    rw [patchRanges_cons, settles_andThen_iff (steady_patchRange replacements hrange)
      fun state' fuel hrun => steady_patchRanges replacements (hinside state' fuel hrun),
      settles_patchRange_iff hrange]
    constructor
    · rintro ⟨hfirst, hrest⟩ slice hturn
      cases hturn with
      | here => exact hfirst
      | @later _ content' _ slice' _ _ fuel changed hslice hover hturn =>
        have hrun := (@patchRange_eq_ok_iff replacements range state
          (content', state.2 || changed) fuel hrange).2 ⟨slice', changed, hslice, hover, rfl⟩
        exact (ih (hinside _ fuel hrun)).1 (hrest _ fuel hrun) slice hturn
    · intro hall
      refine ⟨hall _ .here, fun state' fuel hrun => (ih (hinside state' fuel hrun)).2 ?_⟩
      intro slice hturn
      obtain ⟨slice', changed, hslice, hover, -⟩ := (patchRange_eq_ok_iff hrange).1 hrun
      exact hall slice (.later hslice hover hturn)

/-- **A file is patched without a panic, and that ends, exactly if this holds of
every slice that is met.** -/
theorem settles_patch_iff : (Settles fun fuel => patch fuel content replacements) ↔
    ∀ slice, Met replacements content slice →
      Settles fun fuel => patchSlice fuel replacements slice := by
  by_cases hshort : content.length < 8
  · have hpatch : (fun fuel => patch fuel content replacements) = fun _ => .ok (content, false) :=
      funext fun fuel => if_pos hshort
    rw [hpatch]
    exact iff_of_true (safe_ok _) fun slice hmet => absurd hmet.1 (Nat.not_le.2 hshort)
  have h8 : 8 ≤ content.length := Nat.not_lt.1 hshort
  have hpatch : ∀ fuel, patch fuel content replacements =
      if leValue (cut 0 4 content).reverse = fatMagic then
        fatRanges content (leValue (cut 4 4 content).reverse) 0 >>= fun ranges =>
          patchRanges replacements (content, false) ranges fuel
      else patchSlice fuel replacements content := fun fuel => by
    rw [patch, if_neg hshort, u32BeAt_of_le (by omega), ok_bind, u32BeAt_of_le (by omega), ok_bind]
    rfl
  by_cases hfat : leValue (cut 0 4 content).reverse = fatMagic
  · have hmet : ∀ slice, Met replacements content slice ↔
        ∃ ranges, fatRanges content (leValue (cut 4 4 content).reverse) 0 = .ok ranges ∧
          Turn replacements content ranges slice := fun slice => by
      rw [Met, if_pos hfat]
      exact and_iff_right h8
    simp only [hpatch, if_pos hfat, hmet]
    rcases fatRanges_cases content (leValue (cut 4 4 content).reverse) 0 with ⟨e, hranges⟩ |
      ⟨ranges, hranges, hinside⟩
    · rw [hranges]
      refine iff_of_true (settles_refused e) ?_
      rintro slice ⟨ranges, h, -⟩
      exact nomatch h
    · rw [hranges]
      refine (@settles_patchRanges_iff replacements ranges (content, false) hinside).trans ?_
      refine forall_congr' fun slice => imp_congr_left ?_
      exact ⟨fun hturn => ⟨ranges, rfl, hturn⟩, fun ⟨_, h, hturn⟩ => Except.ok.inj h ▸ hturn⟩
  · have hmet : ∀ slice, Met replacements content slice ↔ slice = content := fun slice => by
      rw [Met, if_neg hfat]
      exact and_iff_right h8
    simp only [hpatch, if_neg hfat, hmet, forall_eq]

/-! ### The whole -/

/-- **A file is patched soundly exactly if every slice that is met is clean.**  The rewriting
of every path has to end, also of one that holds a placeholder. -/
theorem patch_sound_iff (replacements : List Replacement) (content : List UInt8) :
    ((Settles fun fuel => patch fuel content replacements) ∧
      ∀ slice, Met replacements content slice → ∀ fuel slice',
        patchSlice fuel replacements slice = .ok (slice', true) →
          Relocated replacements slice slice') ↔
      ∀ slice, Met replacements content slice → Clean replacements slice := by
  rw [settles_patch_iff, ← forall₂_and]
  exact forall₂_congr fun slice _ => relocated_patchSlice_iff

/-- A file whose only load command is an `LC_RPATH` of the least size. -/
def shortRpath : List UInt8 :=
  [0xcf, 0xfa, 0xed, 0xfe, 0, 0, 0, 0, 0, 0, 0, 0, 0, 0, 0, 0,
    1, 0, 0, 0, 8, 0, 0, 0, 0, 0, 0, 0, 0, 0, 0, 0,
    0x1c, 0, 0, 0x80, 8, 0, 0, 0]

/-- The offset of a path is read behind the end of its command. -/
theorem shortRpath_panics : ¬ Settles fun fuel => patch fuel shortRpath
    (standardReplacements (ascii "/opt/homebrew".toList) (ascii "/opt/homebrew".toList) true) :=
  fun h => h.2 0 (by decide +kernel)

end Mise.Relocation.MachO
