/-
# What patching does to the load commands

`Relocated` is what a slice that was changed should be: as long as before, with
the same commands but for the paths in them, and unchanged behind the table but
for padding.  `Tidy` is what of the commands and the padding makes it so, and
`relocated_iff_tidy` says that nothing else does: the patcher rewrites a path
wherever it starts in its command, drops what the command has behind the path,
and fills the gap up to the first section's data with zeros, whatever it holds.
-/

import Mathlib.Tactic.IntervalCases
import Mise.Relocation.MachOSafe

namespace Mise.Relocation.MachO

open Lib

variable {replacements : List Replacement} {slice slice' lc lc' new : List UInt8} {firstData : ℕ}

/-! ### What is returned -/

/-- The new table, where the patcher lays one down: what becomes of the commands,
in the room up to the first section's data. -/
structure Rebuilt (replacements : List Replacement) (slice : List UInt8)
    (edits : List (List UInt8 × Bool)) (firstData : ℕ) : Prop where
  headed : Headed slice
  whole : Whole slice
  edited : List.Forall₂ (Edited replacements) (commandsOf slice) edits
  changed : edits.any Prod.snd = true
  scanned : scanCommands slice (tableEnd slice) (commandCount slice) headerSize64 slice.length =
    .ok firstData
  room : headerSize64 + (edits.map Prod.fst).flatten.length ≤ firstData

theorem firstData_le_of_scanned (h : Headed slice)
    (hscan : scanCommands slice (tableEnd slice) (commandCount slice) headerSize64 slice.length =
      .ok firstData) : firstData ≤ slice.length := by
  have hscanned := scanned_scanCommands h.2.2 (commandCount slice) headerSize64 slice.length
  rw [hscan] at hscanned
  cases hscanned with
  | whole _ _ hle => exact hle

/-- A table is written where one changed and all fit in front of the data. -/
theorem finish_eq_ok_true {result : List (List UInt8) × Bool} :
    finish slice firstData result = .ok (slice', true) ↔
      result.2 = true ∧ headerSize64 + result.1.flatten.length ≤ firstData ∧
        layTable slice firstData result.1 = .ok slice' := by
  obtain ⟨commands, changed⟩ := result
  cases changed with
  | false =>
    refine iff_of_false (fun h => ?_) fun h => nomatch h.1
    exact nomatch (Prod.mk.inj (Except.ok.inj h)).2
  | true =>
    by_cases hroom : headerSize64 + commands.flatten.length > firstData
    · have hfinish : finish slice firstData (commands, true) = .error (.refused
          (.notEnoughPadding (headerSize64 + commands.flatten.length) firstData)) := if_pos hroom
      rw [hfinish]
      exact iff_of_false (fun h => nomatch h) fun h => absurd h.2.1 (Nat.not_le.2 hroom)
    · have hfinish : finish slice firstData (commands, true) =
          (layTable slice firstData commands >>= fun slice => .ok (slice, true)) := if_neg hroom
      rw [hfinish]
      constructor
      · intro h
        obtain ⟨laid, hlaid, h⟩ := bind_eq_ok h
        obtain rfl := (Prod.mk.inj (Except.ok.inj h)).1
        exact ⟨rfl, Nat.not_lt.1 hroom, hlaid⟩
      · rintro ⟨-, -, hlaid⟩
        rw [hlaid, ok_bind]

theorem patchSlice_eq (replacements : List Replacement) (h : Headed slice) (fuel : ℕ) :
    patchSlice fuel replacements slice =
      scanCommands slice (tableEnd slice) (commandCount slice) headerSize64 slice.length >>=
        fun firstData => rebuildCommands fuel replacements slice (tableEnd slice)
            (commandCount slice) headerSize64 >>= finish slice firstData :=
  congrFun (patchSlice_of_headed replacements h) fuel

/-- **When a slice is changed, and into what.** -/
theorem exists_patchSlice_iff (hcalm : Calm replacements slice) :
    (∃ fuel, patchSlice fuel replacements slice = .ok (slice', true)) ↔
      ∃ edits firstData, Rebuilt replacements slice edits firstData ∧
        layTable slice firstData (edits.map Prod.fst) = .ok slice' := by
  constructor
  · rintro ⟨fuel, hrun⟩
    by_cases h : Headed slice
    · rw [patchSlice_eq replacements h] at hrun
      obtain ⟨firstData, hscan, hrest⟩ := bind_eq_ok hrun
      obtain ⟨result, hbuild, hfinish⟩ := bind_eq_ok hrest
      have hscanned := scanned_scanCommands h.2.2 (commandCount slice) headerSize64 slice.length
      rw [hscan] at hscanned
      cases hscanned with
      | whole _ hwhole _ =>
        have hread := List.forall_mem_map.1 ((hcalm h).2 hwhole)
        obtain ⟨edits, hedits, rfl⟩ :=
          (exists_rebuildCommands_iff h.2.2 hwhole hread).1 ⟨fuel, hbuild⟩
        obtain ⟨hchanged, hroom, hlaid⟩ := finish_eq_ok_true.1 hfinish
        exact ⟨edits, firstData, ⟨h, hwhole, hedits, hchanged, hscan, hroom⟩, hlaid⟩
    · rcases patchSlice_of_not_headed replacements h with hpatch | hpatch
      · exact nomatch (Prod.mk.inj (Except.ok.inj ((hpatch fuel).symm.trans hrun))).2
      · exact nomatch (hpatch fuel).symm.trans hrun
  · rintro ⟨edits, firstData, ⟨h, hwhole, hedits, hchanged, hscan, hroom⟩, hlaid⟩
    have hread := List.forall_mem_map.1 ((hcalm h).2 hwhole)
    obtain ⟨fuel, hbuild⟩ :=
      (exists_rebuildCommands_iff h.2.2 hwhole hread).2 ⟨edits, hedits, rfl⟩
    refine ⟨fuel, ?_⟩
    rw [patchSlice_eq replacements h, hscan, ok_bind, hbuild, ok_bind]
    exact finish_eq_ok_true.2 ⟨hchanged, hroom, hlaid⟩

/-! ### A command with another path -/

theorem length_resized (h12 : 12 ≤ lc.length) (h : strOff lc < lc.length) (new : List UInt8) :
    (resized lc new).length = resizedLength lc new :=
  (length_overwrite (overwrite_padded h12 h new)).trans (length_padded h new)

theorem cut_size_resized (h12 : 12 ≤ lc.length) (h : strOff lc < lc.length) (new : List UInt8) :
    cut 4 4 (resized lc new) = leBytes 4 (resizedLength lc new) := by
  have := cut_overwrite (overwrite_padded h12 h new)
  rwa [length_leBytes] at this

theorem getElem?_resized (h12 : 12 ≤ lc.length) (h : strOff lc < lc.length) (new : List UInt8)
    {i : ℕ} (hi : i < 4 ∨ 8 ≤ i) : (resized lc new)[i]? = (padded lc new)[i]? := by
  refine getElem?_overwrite (overwrite_padded h12 h new) ?_
  rw [length_leBytes]
  omega

/-- In front of its path a command stays, but for its size. -/
theorem getElem?_resized_front (h12 : 12 ≤ lc.length) (h : strOff lc < lc.length) (new : List UInt8)
    {i : ℕ} (hi : i < 4 ∨ 8 ≤ i) (hlt : i < strOff lc) : (resized lc new)[i]? = lc[i]? := by
  rw [getElem?_resized h12 h new hi, padded, List.getElem?_append_left
    (by rw [List.length_take]; omega), List.getElem?_take_of_lt hlt]

/-- Two commands with the same bytes in a part have the same part. -/
theorem cut_eq_of_getElem? {off len : ℕ} (h : ∀ i, off ≤ i → i < off + len → lc'[i]? = lc[i]?) :
    cut off len lc' = cut off len lc := by
  refine List.ext_getElem? fun i => ?_
  by_cases hlt : i < len
  · rw [getElem?_cut_of_lt hlt, getElem?_cut_of_lt hlt]
    exact h _ (Nat.le_add_right off i) (by omega)
  · rw [cut, cut, List.getElem?_take_eq_none (by omega), List.getElem?_take_eq_none (by omega)]

/-- Behind the size, the new path and zeros stand where the old path started. -/
theorem drop_resized (h12 : 12 ≤ lc.length) (h : strOff lc < lc.length) (new : List UInt8)
    (h8 : 8 ≤ strOff lc) : (resized lc new).drop (strOff lc) =
      new ++ List.replicate (resizedLength lc new - (strOff lc + new.length)) 0 := by
  have hdrop : (padded lc new).drop (strOff lc) =
      new ++ List.replicate (resizedLength lc new - (strOff lc + new.length)) 0 :=
    List.drop_left' (by rw [List.length_take]; omega)
  rw [← hdrop]
  refine List.ext_getElem? fun i => ?_
  rw [List.getElem?_drop, List.getElem?_drop, getElem?_resized h12 h new (by omega)]

/-- **A path behind its offset is replaced, and nothing in front of it.** -/
theorem fields_resized (h : strOff lc < lc.length) (hoff : 12 ≤ strOff lc) (hnul : 0 ∉ new) :
    cmdOf (resized lc new) = cmdOf lc ∧ strOff (resized lc new) = strOff lc ∧
      pathOf (resized lc new) = new := by
  have h12 : 12 ≤ lc.length := hoff.trans h.le
  have hfront : ∀ i, i < 4 ∨ 8 ≤ i → i < 12 → (resized lc new)[i]? = lc[i]? := fun i hi hlt =>
    getElem?_resized_front h12 h new hi (by omega)
  have hcmd : cmdOf (resized lc new) = cmdOf lc := by
    rw [cmdOf, wordAt, cut_eq_of_getElem? fun i _ hi => hfront i (by omega) (by omega)]
    rfl
  have hstr : strOff (resized lc new) = strOff lc := by
    rw [strOff, wordAt, cut_eq_of_getElem? fun i hi hi' => hfront i (by omega) (by omega)]
    rfl
  refine ⟨hcmd, hstr, ?_⟩
  rw [pathOf, hstr, drop_resized h12 h new (by omega)]
  refine frontText_append hnul (.inr ?_)
  -- the aligned size has room for a NUL
  have hpos : 0 < resizedLength lc new - (strOff lc + new.length) := by
    rw [resizedLength]
    omega
  obtain ⟨k, hk⟩ := Nat.exists_eq_add_of_lt hpos
  rw [hk, Nat.zero_add, List.replicate_succ]
  rfl

/-- A text ends at its first NUL, whatever stands behind. -/
theorem frontText_of_agree {a b : List UInt8} {k : ℕ} (hk : a[k]? = some 0)
    (h : ∀ i ≤ k, b[i]? = a[i]?) :
    frontText 0 b = frontText 0 a ∧ (frontText 0 a).length ≤ k := by
  induction k generalizing a b with
  | zero =>
    have hb := (h 0 le_rfl).trans hk
    obtain ⟨a, rfl⟩ := List.head?_eq_some_iff.1 (List.head?_eq_getElem? ▸ hk)
    obtain ⟨b, rfl⟩ := List.head?_eq_some_iff.1 (List.head?_eq_getElem? ▸ hb)
    exact ⟨rfl, le_rfl⟩
  | succ k ih =>
    cases a with
    | nil => exact nomatch hk
    | cons x a =>
      have hb := h 0 (Nat.zero_le _)
      rw [List.getElem?_cons_zero] at hb
      obtain ⟨b, rfl⟩ := List.head?_eq_some_iff.1 (List.head?_eq_getElem? ▸ hb)
      obtain ⟨heq, hle⟩ := @ih a b hk fun i hi => h (i + 1) (by omega)
      by_cases hx : x = 0
      · subst hx
        exact ⟨rfl, Nat.zero_le _⟩
      · have hcons : ∀ l, frontText 0 (x :: l) = x :: frontText 0 l := fun l =>
          List.takeWhile_cons_of_pos (decide_eq_true hx)
        rw [hcons, hcons, heq, List.length_cons]
        exact ⟨rfl, by omega⟩

/-- The bytes of a number below 256 are that number and zeros. -/
theorem getElem?_leBytes_of_lt {n : ℕ} (hn : n < 256) {i : ℕ} (hi : 1 ≤ i) (hi' : i < 4) :
    (leBytes 4 n)[i]? = some 0 := by
  have hzero : n / 256 = 0 := by omega
  have hbytes : leBytes 4 n = [UInt8.ofNat n, 0, 0, 0] := by
    rw [leBytes, hzero]
    rfl
  rw [hbytes]
  interval_cases i <;> rfl

/-- The bytes of a word. -/
theorem leBytes_wordAt {off : ℕ} (h : off + 4 ≤ lc.length) :
    leBytes 4 (wordAt lc off) = cut off 4 lc := by
  have hbytes := leBytes_leValue (cut off 4 lc)
  rwa [length_cut h] at hbytes

/-- **A path that starts in front of the end of its own offset is not replaced
well**: the kind, the size or the offset is written over. -/
theorem twelve_le_strOff (h12 : 12 ≤ lc.length) (hsize : wordAt lc 4 = lc.length)
    (h : strOff lc < lc.length) (hcmd : cmdOf (resized lc new) = cmdOf lc)
    (hstr : strOff (resized lc new) = strOff lc) (hpath : pathOf (resized lc new) = new)
    (hne : new ≠ pathOf lc) : 12 ≤ strOff lc := by
  by_contra hlt
  have hlength : 12 ≤ (resized lc new).length := by
    rw [length_resized h12 h, resizedLength]
    omega
  have hkind : cut 0 4 (resized lc new) = cut 0 4 lc := by
    rw [← leBytes_wordAt (by omega), ← leBytes_wordAt (by omega)]
    exact congrArg (leBytes 4) hcmd
  have hoffset : cut 8 4 (resized lc new) = cut 8 4 lc := by
    rw [← leBytes_wordAt (by omega), ← leBytes_wordAt (by omega)]
    exact congrArg (leBytes 4) hstr
  have hagree : ∀ i, i < 4 ∨ 8 ≤ i ∧ i < 12 → (resized lc new)[i]? = lc[i]? := by
    rintro i (hi | ⟨hi, hi'⟩)
    · have hbyte := congrArg (·[i]?) hkind
      rwa [getElem?_cut_of_lt hi, getElem?_cut_of_lt hi, Nat.zero_add] at hbyte
    · have hbyte := congrArg (·[i - 8]?) hoffset
      rwa [getElem?_cut_of_lt (by omega), getElem?_cut_of_lt (by omega),
        Nat.add_sub_cancel' hi] at hbyte
  have hzero : ∀ i, 9 ≤ i → i < 12 → lc[i]? = some 0 := fun i hi hi' => by
    have hbyte := @getElem?_leBytes_of_lt (strOff lc) (by omega) (i - 8) (by omega) (by omega)
    rw [strOff, leBytes_wordAt (by omega), getElem?_cut_of_lt (by omega),
      Nat.add_sub_cancel' (by omega)] at hbyte
    exact hbyte
  -- bytes that agree from the path's start to a NUL make the same path
  have hsame : (∀ i, strOff lc ≤ i → i < 12 → (resized lc new)[i]? = lc[i]?) → False := by
    intro hall
    refine hne (hpath.symm.trans ?_)
    rw [pathOf, hstr]
    refine (@frontText_of_agree _ _ (11 - strOff lc) ?_ fun i hi => ?_).1
    · rw [List.getElem?_drop]
      exact hzero _ (by omega) (by omega)
    · rw [List.getElem?_drop, List.getElem?_drop]
      exact hall _ (by omega) (by omega)
  by_cases h8 : 8 ≤ strOff lc
  · exact hsame fun i hi hi' => hagree i (.inr ⟨by omega, hi'⟩)
  -- the new path ends in front of a NUL of the new command
  have hends : ∀ k, strOff lc ≤ k → (resized lc new)[k]? = some 0 → new.length ≤ k - strOff lc := by
    intro k hk hnul
    have hfront := (@frontText_of_agree ((resized lc new).drop (strOff lc)) _ (k - strOff lc) (by
      rw [List.getElem?_drop, Nat.add_sub_cancel' hk]
      exact hnul) fun i _ => rfl).2
    rwa [← hstr, ← pathOf, hpath, hstr] at hfront
  have hnine := hends 9 (by omega) ((hagree 9 (by omega)).trans (hzero 9 le_rfl (by omega)))
  by_cases heq : resizedLength lc new = lc.length
  · refine hsame fun i _ hi => ?_
    by_cases hmid : 4 ≤ i ∧ i < 8
    · have hword : cut 4 4 (resized lc new) = cut 4 4 lc := by
        rw [cut_size_resized h12 h, heq, ← hsize, leBytes_wordAt (by omega)]
      have hbyte := congrArg (·[i - 4]?) hword
      rwa [getElem?_cut_of_lt (by omega), getElem?_cut_of_lt (by omega),
        Nat.add_sub_cancel' hmid.1] at hbyte
    · exact hagree i (by omega)
  · rw [resizedLength] at heq
    have hsixteen : resizedLength lc new = 16 := by
      rw [resizedLength]
      omega
    have hseven : (resized lc new)[7]? = some 0 := by
      have hbyte := @getElem?_leBytes_of_lt 16 (by omega) 3 (by omega) (by omega)
      rw [← hsixteen, ← cut_size_resized h12 h, getElem?_cut_of_lt (by omega)] at hbyte
      exact hbyte
    have hlast := hends 7 (by omega) hseven
    omega

/-! ### Sound relocation -/

/-- No placeholder stands in the path. -/
def Complete (replacements : List Replacement) (path : List UInt8) : Prop :=
  ∀ r ∈ replacements, ¬ r.placeholder <:+: path

/-- Behind its path the command has nothing but padding. -/
def PaddedBehind (lc : List UInt8) : Prop :=
  ∀ b ∈ lc.drop (strOff lc + (pathOf lc).length), b = 0

/-- A load command with its path replaced, and nothing else changed but its size. -/
structure Repathed (replacements : List Replacement) (lc lc' : List UInt8) : Prop where
  cmd : cmdOf lc' = cmdOf lc
  aligned : 8 ∣ lc.length → 8 ∣ lc'.length
  plain : ¬ HoldsPath lc → lc' = lc
  offset : HoldsPath lc → strOff lc' = strOff lc
  fields : HoldsPath lc → ∀ i, 8 ≤ i → i < strOff lc → lc'[i]? = lc[i]?
  path : HoldsPath lc → Rewritten replacements (pathOf lc) (pathOf lc')
  complete : HoldsPath lc → Complete replacements (pathOf lc')
  padding : HoldsPath lc → pathOf lc' ≠ pathOf lc → PaddedBehind lc

/-- What a slice that was changed should be. -/
structure Relocated (replacements : List Replacement) (slice slice' : List UInt8) : Prop where
  length : slice'.length = slice.length
  count : commandCount slice' = commandCount slice
  commands : List.Forall₂ (Repathed replacements) (commandsOf slice) (commandsOf slice')
  size : tableEnd slice' = headerSize64 + (commandsOf slice').flatten.length
  behind : ∀ i, tableEnd slice ≤ i → slice'[i]? = slice[i]? ∨ slice[i]? = some 0

/-- A path is replaced well: no placeholder is left, and if it changes, it starts
behind the command's fields, holds no NUL, and nothing stood behind it. -/
structure TidyPath (replacements : List Replacement) (lc new : List UInt8) : Prop where
  complete : Complete replacements new
  apart : new ≠ pathOf lc → 12 ≤ strOff lc ∧ 0 ∉ new ∧ PaddedBehind lc

/-- The commands' paths are replaced well, the new table's size fits its word, and
the gap in front of the first section's data is zero, but for bytes that the new
table has too. -/
structure Tidy (replacements : List Replacement) (slice : List UInt8)
    (edits : List (List UInt8 × Bool)) (firstData : ℕ) : Prop where
  paths : ∀ lc ∈ commandsOf slice, HoldsPath lc → ∀ new,
    Rewritten replacements (pathOf lc) new → TidyPath replacements lc new
  fits : (edits.map Prod.fst).flatten.length < 2 ^ 32
  gap : ∀ i, tableEnd slice ≤ i → i < firstData →
    slice[i]? = some 0 ∨ (edits.map Prod.fst).flatten[i - headerSize64]? = slice[i]?

/-! ### The commands of a table -/

/-- The size that a command says is its size. -/
theorem wordAt_size_of_mem {lcEnd n off : ℕ} (hend : lcEnd ≤ slice.length) {p : ℕ × List UInt8}
    (hp : p ∈ reached slice lcEnd n off) : 8 ≤ p.2.length ∧ wordAt p.2 4 = p.2.length := by
  induction n generalizing off with
  | zero => exact absurd hp List.not_mem_nil
  | succ n ih =>
    rw [reached] at hp
    split at hp
    · rename_i hreach
      have hle := hreach.2.2.trans hend
      have h8 : 8 ≤ leValue (cut (off + 4) 4 slice) := hreach.2.1
      rcases List.mem_cons.1 hp with rfl | hp
      · have hlength : (cut off (leValue (cut (off + 4) 4 slice)) slice).length =
          leValue (cut (off + 4) 4 slice) := length_cut hle
        refine ⟨hlength ▸ h8, ?_⟩
        show leValue (cut 4 4 (cut off (leValue (cut (off + 4) 4 slice)) slice)) = _
        rw [cut_cut (by omega)]
        exact hlength.symm
      · exact ih hp
    · exact absurd hp List.not_mem_nil

theorem wordAt_lt (lc : List UInt8) (off : ℕ) : wordAt lc off < 2 ^ 32 := by
  have hlt := leValue_lt (cut off 4 lc)
  have hle : (cut off 4 lc).length ≤ 4 := List.length_take_le 4 _
  exact hlt.trans_le ((Nat.pow_le_pow_right (by omega) hle).trans_eq (by norm_num))

/-- A command of the slice: its size, and room for its path's offset. -/
structure Formed (replacements : List Replacement) (lc : List UInt8) : Prop where
  eight_le : 8 ≤ lc.length
  size : wordAt lc 4 = lc.length
  readable : Readable replacements lc

theorem Formed.lt (h : Formed replacements lc) : lc.length < 2 ^ 32 := h.size ▸ wordAt_lt lc 4

theorem formed_of_mem (hend : tableEnd slice ≤ slice.length)
    (hread : ∀ lc ∈ commandsOf slice, Readable replacements lc) :
    ∀ lc ∈ commandsOf slice, Formed replacements lc := fun lc hc => by
  obtain ⟨p, hp, rfl⟩ := List.mem_map.1 hc
  obtain ⟨h8, hsize⟩ := wordAt_size_of_mem hend hp
  exact ⟨h8, hsize, hread _ hc⟩

/-- The size word of an edited command. -/
theorem Edited.size {edit : List UInt8 × Bool} (h : Edited replacements lc edit)
    (hc : Formed replacements lc) :
    8 ≤ edit.1.length ∧ wordAt edit.1 4 = edit.1.length % 2 ^ 32 := by
  have hsame : 8 ≤ lc.length ∧ wordAt lc 4 = lc.length % 2 ^ 32 :=
    ⟨hc.eight_le, hc.size.trans (Nat.mod_eq_of_lt hc.lt).symm⟩
  cases h with
  | plain _ => exact hsame
  | @path hpath new hnew =>
    rw [withPath]
    split
    · have h12 := (hc.readable hpath.1).1
      dsimp only
      rw [length_resized h12 hpath.2, wordAt, cut_size_resized h12 hpath.2, leValue_leBytes_mod]
      refine ⟨?_, by norm_num⟩
      rw [resizedLength]
      omega
    · exact hsame

/-- **A table is read as the commands it was made of.** -/
theorem reached_of_table {commands : List (List UInt8)} {off : ℕ}
    (hsize : ∀ lc ∈ commands, 8 ≤ lc.length ∧ wordAt lc 4 = lc.length)
    (htable : cut off commands.flatten.length slice = commands.flatten) :
    (reached slice (off + commands.flatten.length) commands.length off).map Prod.snd =
      commands := by
  induction commands generalizing off with
  | nil => rfl
  | cons lc commands ih =>
    obtain ⟨⟨h8, hc⟩, hsize⟩ := List.forall_mem_cons.1 hsize
    rw [List.flatten_cons, List.length_append, cut_add] at htable
    have hlen : (cut off lc.length slice).length ≤ lc.length := List.length_take_le _ _
    have hlen' : (cut (off + lc.length) commands.flatten.length slice).length ≤
      commands.flatten.length := List.length_take_le _ _
    have hsum := congrArg List.length htable
    rw [List.length_append, List.length_append] at hsum
    obtain ⟨hfirst, hrest⟩ := List.append_inj htable (by omega)
    have hword : wordAt slice (off + 4) = lc.length := by
      rw [← hc, wordAt, wordAt]
      conv_rhs => rw [← hfirst]
      rw [cut_cut (by omega)]
    have hreach : off + 8 ≤ off + (lc :: commands).flatten.length ∧ 8 ≤ wordAt slice (off + 4) ∧
        off + wordAt slice (off + 4) ≤ off + (lc :: commands).flatten.length := by
      rw [hword, List.flatten_cons, List.length_append]
      omega
    rw [List.length_cons, reached_succ_of_pos hreach, hword, List.map_cons, hfirst,
      List.flatten_cons, List.length_append, ← Nat.add_assoc, ih hsize hrest]

/-! ### From tidy to relocated -/

/-- **A command that is edited tidily has its path replaced, and nothing else.** -/
theorem Edited.repathed {edit : List UInt8 × Bool} (h : Edited replacements lc edit)
    (htidy : HoldsPath lc → ∀ new, Rewritten replacements (pathOf lc) new →
      TidyPath replacements lc new) : Repathed replacements lc edit.1 := by
  cases h with
  | plain hplain =>
    exact ⟨rfl, id, fun _ => rfl, fun _ => rfl, fun _ _ _ _ => rfl, fun h => absurd h hplain,
      fun h => absurd h hplain, fun h => absurd h hplain⟩
  | @path hpath new hnew =>
    obtain ⟨hcomplete, hapart⟩ := htidy hpath new hnew
    rw [withPath]
    split
    · rename_i hne
      obtain ⟨hoff, hnul, hpadded⟩ := hapart hne
      have h12 : 12 ≤ lc.length := hoff.trans hpath.2.le
      obtain ⟨hcmd, hstr, hread⟩ := fields_resized hpath.2 hoff hnul
      refine ⟨hcmd, fun h8 => ?_, fun h => absurd hpath h, fun _ => hstr, fun _ i hi hlt =>
        getElem?_resized_front h12 hpath.2 new (.inr hi) hlt, fun _ => ?_, fun _ => ?_,
        fun _ _ => hpadded⟩
      · dsimp only
        rw [length_resized h12 hpath.2, resizedLength]
        rcases Nat.le_total ((strOff lc + new.length + 1 + 7) / 8 * 8) lc.length with hle | hle
        · rwa [Nat.max_eq_right hle]
        · rw [Nat.max_eq_left hle]
          exact Nat.dvd_mul_left 8 _
      · exact hread.symm ▸ hnew
      · exact hread.symm ▸ hcomplete
    · rename_i hsame
      obtain rfl := not_not.1 hsame
      exact ⟨rfl, id, fun _ => rfl, fun _ => rfl, fun _ _ _ _ => rfl, fun _ => hnew,
        fun _ => hcomplete, fun _ h => absurd rfl h⟩

variable {edits : List (List UInt8 × Bool)}

/-- What a slice with a new table says of its table. -/
theorem Laid.words {table : List UInt8} (h : Laid slice firstData table slice') :
    commandCount slice' = commandCount slice ∧
      tableEnd slice' = headerSize64 + table.length % 2 ^ 32 := by
  constructor
  · rw [commandCount, wordAt, cut_eq_of_getElem? fun i _ hi => h.header i (.inl (by omega))]
    rfl
  · rw [tableEnd, wordAt, h.size, leValue_leBytes_mod]
    norm_num

theorem Rebuilt.formed (h : Rebuilt replacements slice edits firstData)
    (hcalm : Calm replacements slice) : ∀ lc ∈ commandsOf slice, Formed replacements lc :=
  formed_of_mem h.headed.2.2 ((hcalm h.headed).2 h.whole)

/-- The sizes of the new commands. -/
theorem Rebuilt.sizes (h : Rebuilt replacements slice edits firstData)
    (hcalm : Calm replacements slice) : ∀ lc ∈ edits.map Prod.fst,
      8 ≤ lc.length ∧ wordAt lc 4 = lc.length % 2 ^ 32 := by
  intro lc' hc'
  obtain ⟨edit, hedit, rfl⟩ := List.mem_map.1 hc'
  obtain ⟨i, hi, rfl⟩ := List.getElem_of_mem hedit
  obtain ⟨hlength, hall⟩ := List.forall₂_iff_get.1 h.edited
  have hi' : i < (commandsOf slice).length := hlength ▸ hi
  exact (hall i hi' hi).size (h.formed hcalm _ (List.get_mem _ _))

/-- **Tidy paths and padding make a sound relocation.** -/
theorem relocated_of_tidy (hcalm : Calm replacements slice)
    (h : Rebuilt replacements slice edits firstData)
    (htidy : Tidy replacements slice edits firstData)
    (hlaid : Laid slice firstData (edits.map Prod.fst).flatten slice') :
    Relocated replacements slice slice' := by
  obtain ⟨hcount, hend⟩ := hlaid.words
  rw [Nat.mod_eq_of_lt htidy.fits] at hend
  have hlength : edits.length = commandCount slice' := by
    rw [hcount, ← h.edited.length_eq, commandsOf, List.length_map, h.whole]
  have hcommands : commandsOf slice' = edits.map Prod.fst := by
    have hread := @reached_of_table slice' (edits.map Prod.fst) headerSize64 (fun lc hc => ?_)
      hlaid.inside
    · rwa [List.length_map, ← hend, hlength] at hread
    · obtain ⟨h8, hsize⟩ := h.sizes hcalm lc hc
      refine ⟨h8, hsize.trans (Nat.mod_eq_of_lt (lt_of_le_of_lt ?_ htidy.fits))⟩
      exact (List.sublist_flatten_of_mem hc).length_le
  refine ⟨hlaid.length, hcount, ?_, ?_, fun i hi => ?_⟩
  · rw [hcommands, List.forall₂_map_right_iff]
    have hboth := (List.forall₂_and_left _ _).2 ⟨fun lc hc => htidy.paths lc hc, h.edited⟩
    exact hboth.imp fun lc edit hc => hc.2.repathed hc.1
  · rw [hend, hcommands]
  · by_cases hdata : firstData ≤ i
    · exact .inl (hlaid.behind i hdata)
    · rcases htidy.gap i hi (Nat.not_le.1 hdata) with hzero | hbyte
      · exact .inr hzero
      · have hle := firstData_le_of_scanned h.headed h.scanned
        have h32 : headerSize64 ≤ i := (Nat.le_add_right _ _).trans hi
        have hsome : i < slice.length := (Nat.not_le.1 hdata).trans_le hle
        have hin : i - headerSize64 < (edits.map Prod.fst).flatten.length := by
          rw [List.getElem?_eq_getElem hsome] at hbyte
          exact (List.getElem?_eq_some_iff.1 hbyte).1
        have hinside := congrArg (·[i - headerSize64]?) hlaid.inside
        rw [getElem?_cut_of_lt hin, Nat.add_sub_cancel' h32] at hinside
        exact .inl (hinside.trans hbyte)

/-! ### From relocated to tidy -/

/-- Two relations that hold along two lists hold together of each member. -/
theorem exists_of_mem_forall₂ {α β : Type} {R S : α → β → Prop} {l : List α} {l' : List β}
    (hR : List.Forall₂ R l l') (hS : List.Forall₂ S l l') {a : α} (ha : a ∈ l) :
    ∃ b, R a b ∧ S a b := by
  induction hR with
  | nil => exact absurd ha List.not_mem_nil
  | cons hab _ ih =>
    obtain ⟨hab', hS⟩ := List.forall₂_cons.1 hS
    rcases List.mem_cons.1 ha with rfl | ha
    · exact ⟨_, hab, hab'⟩
    · exact ih hS ha

/-- A command of 4 GiB says another size, and is not read with its path. -/
theorem Edited.length_lt {edit : List UInt8 × Bool} {p : List UInt8}
    (h : Edited replacements lc edit) (hc : Formed replacements lc)
    (hp : Repathed replacements lc p)
    (h8 : 8 ≤ p.length) (hlength : p.length = edit.1.length % 2 ^ 32) :
    edit.1.length < 2 ^ 32 := by
  cases h with
  | plain _ => exact hc.lt
  | @path hpath new hnew =>
    have h12 := (hc.readable hpath.1).1
    have hnew' : pathOf p = new := (hp.path hpath).unique hnew
    rw [withPath] at hlength ⊢
    split at hlength
    · rw [if_pos ‹_›]
      by_contra hlarge
      have hlt := hc.lt
      have hoff := hpath.2
      have hfront : (pathOf p).length ≤ p.length - strOff p := by
        rw [pathOf, ← List.length_drop]
        exact List.takeWhile_prefix _ |>.length_le
      rw [hnew', hp.offset hpath] at hfront
      dsimp only at hlength hlarge
      rw [length_resized h12 hpath.2, resizedLength] at hlength hlarge
      omega
    · rw [if_neg ‹_›]
      exact hc.lt

/-- **If every command of the new table is read with its path, the commands that
are read are those that were laid down.** -/
theorem reached_of_repathed {commands : List (List UInt8)} {lcEnd n off : ℕ}
    (hend : lcEnd ≤ slice'.length) (hformed : ∀ lc ∈ commands, Formed replacements lc)
    (hedited : List.Forall₂ (Edited replacements) commands edits)
    (htable : cut off (edits.map Prod.fst).flatten.length slice' = (edits.map Prod.fst).flatten)
    (hread : List.Forall₂ (Repathed replacements) commands
      ((reached slice' lcEnd n off).map Prod.snd)) :
    (reached slice' lcEnd n off).map Prod.snd = edits.map Prod.fst := by
  induction hedited generalizing n off with
  | nil => exact List.forall₂_nil_left_iff.1 hread
  | @cons lc edit commands edits hedit hedits ih =>
    obtain ⟨hc, hformed⟩ := List.forall_mem_cons.1 hformed
    obtain ⟨h8, hsize⟩ := hedit.size hc
    rw [List.map_cons, List.flatten_cons, List.length_append, cut_add] at htable
    have hlen : (cut off edit.1.length slice').length ≤ edit.1.length := List.length_take_le _ _
    have hlen' : (cut (off + edit.1.length) (edits.map Prod.fst).flatten.length slice').length ≤
      (edits.map Prod.fst).flatten.length := List.length_take_le _ _
    have hsum := congrArg List.length htable
    rw [List.length_append, List.length_append] at hsum
    obtain ⟨hfirst, hrest⟩ := List.append_inj htable (by omega)
    have hword : wordAt slice' (off + 4) = edit.1.length % 2 ^ 32 := by
      rw [← hsize, wordAt, wordAt]
      conv_rhs => rw [← hfirst]
      rw [cut_cut (by omega)]
    cases n with
    | zero => cases hread
    | succ n =>
      by_cases hreach : off + 8 ≤ lcEnd ∧ 8 ≤ wordAt slice' (off + 4) ∧
        off + wordAt slice' (off + 4) ≤ lcEnd
      · rw [reached_succ_of_pos hreach, List.map_cons] at hread ⊢
        obtain ⟨hp, hread⟩ := List.forall₂_cons.1 hread
        have hlength : (cut off (wordAt slice' (off + 4)) slice').length =
          wordAt slice' (off + 4) := length_cut (hreach.2.2.trans hend)
        have hlt := hedit.length_lt hc hp (hreach.2.1.trans_eq hlength.symm)
          (hlength.trans hword)
        rw [Nat.mod_eq_of_lt hlt] at hword
        rw [hword] at hread ⊢
        rw [ih hformed hrest hread, hfirst, List.map_cons]
      · rw [reached_succ_of_neg hreach] at hread
        cases hread

/-- **A sound relocation is of tidy paths and padding.** -/
theorem tidy_of_relocated (hcalm : Calm replacements slice)
    (h : Rebuilt replacements slice edits firstData)
    (hlaid : Laid slice firstData (edits.map Prod.fst).flatten slice')
    (hreloc : Relocated replacements slice slice') : Tidy replacements slice edits firstData := by
  obtain ⟨hcount, hend⟩ := hlaid.words
  have hdata := firstData_le_of_scanned h.headed h.scanned
  have hroom := h.room
  have hinside : tableEnd slice' ≤ slice'.length := by
    have hmod := Nat.mod_le (edits.map Prod.fst).flatten.length (2 ^ 32)
    rw [hend, hlaid.length]
    omega
  have hcommands : commandsOf slice' = edits.map Prod.fst :=
    reached_of_repathed hinside (h.formed hcalm) h.edited hlaid.inside hreloc.commands
  refine ⟨fun lc hc hpath new hnew => ?_, ?_, fun i hi hlt => ?_⟩
  · have hrepathed := hreloc.commands
    rw [hcommands, List.forall₂_map_right_iff] at hrepathed
    obtain ⟨edit, hedit, hp⟩ := exists_of_mem_forall₂ h.edited hrepathed hc
    have hformed := h.formed hcalm _ hc
    have hnew' := (hp.path hpath).unique hnew
    refine ⟨hnew' ▸ hp.complete hpath, fun hne => ?_⟩
    have hpadded := hp.padding hpath (hnew'.symm ▸ hne)
    cases hedit with
    | plain hplain => exact absurd hpath hplain
    | @path _ new' hnew'' =>
      obtain rfl := hnew''.unique hnew
      have hwith : (withPath lc new').1 = resized lc new' := by
        rw [withPath, if_pos hne]
      rw [hwith] at hp hnew'
      have h12 := (hformed.readable hpath.1).1
      refine ⟨twelve_le_strOff h12 hformed.size hpath.2 hp.cmd (hp.offset hpath) hnew' hne, ?_,
        hpadded⟩
      rw [← hnew']
      exact nul_notMem_frontText 0 _
  · have hsize := hreloc.size
    rw [hend, hcommands] at hsize
    have hpos : 0 < 2 ^ 32 := by norm_num
    have hlt := Nat.mod_lt (edits.map Prod.fst).flatten.length hpos
    omega
  · rcases hreloc.behind i hi with hsame | hzero
    · have h32 : headerSize64 ≤ i := (Nat.le_add_right _ _).trans hi
      by_cases htable : i - headerSize64 < (edits.map Prod.fst).flatten.length
      · have hbyte := congrArg (·[i - headerSize64]?) hlaid.inside
        rw [getElem?_cut_of_lt htable, Nat.add_sub_cancel' h32] at hbyte
        exact .inr (hbyte.symm.trans hsame)
      · exact .inl (hsame.symm.trans (hlaid.gap i (by omega) hlt))
    · exact .inl hzero

end Mise.Relocation.MachO
