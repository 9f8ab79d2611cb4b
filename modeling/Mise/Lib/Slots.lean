/-
# Strings in a buffer

A buffer holds strings, each with a run of terminators behind it; a string and
that run are its slot.  Strings that are edited where they stand are laid out
again by `lay`: what an edit leaves of a slot is terminators, and a slot whose
string became empty is room of the string before it.  Where every string fits
its own slot the buffer is the slots one behind the other (`lay_cons`), and the
strings that stand at the starts of the slots are the edited ones exactly there
(`eq_of_reads`).
-/

import Mathlib.Algebra.GroupWithZero.Nat
import Mathlib.Data.List.TakeWhile
import Mathlib.Tactic.Common

namespace Mise.Lib

variable {α : Type*}

section Front

variable [DecidableEq α]

/-- The string at the front of a buffer. -/
def frontText (nul : α) (buf : List α) : List α := buf.takeWhile (· ≠ nul)

/-- The terminators behind the string at the front. -/
def frontPad (nul : α) (buf : List α) : List α :=
  (buf.dropWhile (· ≠ nul)).takeWhile (· = nul)

/-- The buffer behind the slot at the front. -/
def behindFront (nul : α) (buf : List α) : List α :=
  (buf.dropWhile (· ≠ nul)).dropWhile (· = nul)

theorem front_append (nul : α) (buf : List α) :
    frontText nul buf ++ (frontPad nul buf ++ behindFront nul buf) = buf := by
  rw [frontText, frontPad, behindFront, List.takeWhile_append_dropWhile,
    List.takeWhile_append_dropWhile]

theorem nul_notMem_frontText (nul : α) (buf : List α) : nul ∉ frontText nul buf := fun h => by
  have hne := List.mem_takeWhile_imp h
  exact absurd rfl (of_decide_eq_true hne)

theorem frontPad_eq_replicate (nul : α) (buf : List α) :
    frontPad nul buf = List.replicate (frontPad nul buf).length nul :=
  List.eq_replicate_of_mem fun _ hb => by
    have heq := List.mem_takeWhile_imp hb
    exact of_decide_eq_true heq

/-- Nothing but a string begins behind a slot. -/
theorem head?_behindFront_ne (nul : α) (buf : List α) : (behindFront nul buf).head? ≠ some nul := by
  intro h
  have := List.head?_dropWhile_not (· = nul) (buf.dropWhile (· ≠ nul))
  rw [behindFront] at h
  rw [h] at this
  exact absurd rfl (of_decide_eq_false this)

/-- What has no terminator behind its front string is that string alone. -/
theorem behindFront_eq_nil_of_frontPad {nul : α} {buf : List α} (h : frontPad nul buf = []) :
    behindFront nul buf = [] := by
  have hhead := List.head?_dropWhile_not (· ≠ nul) buf
  rw [frontPad] at h
  rw [behindFront]
  cases hd : buf.dropWhile (· ≠ nul) with
  | nil => rfl
  | cons b rest =>
    rw [hd] at h hhead
    obtain rfl : b = nul := of_not_not (of_decide_eq_false hhead)
    rw [List.takeWhile_cons, if_pos (decide_eq_true rfl)] at h
    exact nomatch h

theorem front_width_pos (nul : α) {buf : List α} (h : buf ≠ []) :
    0 < (frontText nul buf).length + (frontPad nul buf).length := by
  refine Nat.pos_of_ne_zero fun hzero => h ?_
  have htext : frontText nul buf = [] := List.length_eq_zero_iff.1 (by omega)
  have hpad : frontPad nul buf = [] := List.length_eq_zero_iff.1 (by omega)
  have happend := front_append nul buf
  rw [htext, hpad, behindFront_eq_nil_of_frontPad hpad] at happend
  exact happend.symm

/-- **The front slot of a buffer, read off how it is made up.** -/
theorem front_eq {nul : α} {t rest : List α} {n : ℕ} (ht : nul ∉ t)
    (hrest : rest.head? ≠ some nul) (hn : rest = [] ∨ 0 < n) :
    frontText nul (t ++ (List.replicate n nul ++ rest)) = t ∧
      frontPad nul (t ++ (List.replicate n nul ++ rest)) = List.replicate n nul ∧
      behindFront nul (t ++ (List.replicate n nul ++ rest)) = rest := by
  have hall : ∀ b ∈ t, decide (b ≠ nul) = true := fun b hb =>
    decide_eq_true fun h => ht (h ▸ hb)
  have hstop : (List.replicate n nul ++ rest).takeWhile (· ≠ nul) = [] ∧
      (List.replicate n nul ++ rest).dropWhile (· ≠ nul) = List.replicate n nul ++ rest := by
    rcases hn with rfl | hn
    · cases n with
      | zero => exact ⟨rfl, rfl⟩
      | succ n => simp [List.replicate_succ]
    · obtain ⟨n, rfl⟩ := Nat.exists_eq_succ_of_ne_zero hn.ne'
      simp [List.replicate_succ]
  have hpad : ∀ b ∈ List.replicate n nul, decide (b = nul) = true := fun b hb =>
    decide_eq_true (List.eq_of_mem_replicate hb)
  have hgo : rest.takeWhile (· = nul) = [] ∧ rest.dropWhile (· = nul) = rest := by
    cases rest with
    | nil => exact ⟨rfl, rfl⟩
    | cons b rest =>
      have hb : ¬ b = nul := fun h => hrest (congrArg some h)
      simp [hb]
  rw [frontText, frontPad, behindFront, List.takeWhile_append_of_pos hall,
    List.dropWhile_append_of_pos hall, hstop.1, hstop.2, List.takeWhile_append_of_pos hpad,
    List.dropWhile_append_of_pos hpad, hgo.1, hgo.2, List.append_nil, List.append_nil]
  exact ⟨rfl, rfl, rfl⟩

/-! ### Slots -/

/-- A string of a buffer, where it starts, and how wide it is with the
terminators behind it. -/
structure Slot (α : Type*) where
  start : ℕ
  text : List α
  width : ℕ

/-- What a buffer has in a slot. -/
def Slot.cut (slot : Slot α) (buf : List α) : List α := (buf.drop slot.start).take slot.width

/-- The slots of a buffer that stands at `start`. -/
def slots (nul : α) (start : ℕ) (buf : List α) : List (Slot α) :=
  if _ : buf = [] then []
  else
    let width := (frontText nul buf).length + (frontPad nul buf).length
    ⟨start, frontText nul buf, width⟩ :: slots nul (start + width) (behindFront nul buf)
termination_by buf.length
decreasing_by
  have hlength := congrArg List.length (front_append nul buf)
  rw [List.length_append, List.length_append] at hlength
  have hpos := front_width_pos nul ‹¬ buf = []›
  omega

@[simp] theorem slots_nil (nul : α) (start : ℕ) : slots nul start [] = [] := by
  rw [slots]
  exact dif_pos rfl

theorem slots_of_ne_nil {nul : α} {buf : List α} (start : ℕ) (h : buf ≠ []) :
    slots nul start buf =
      ⟨start, frontText nul buf, (frontText nul buf).length + (frontPad nul buf).length⟩ ::
        slots nul (start + ((frontText nul buf).length + (frontPad nul buf).length))
          (behindFront nul buf) := by
  rw [slots]
  exact dif_neg h

/-- A slot has room. -/
theorem width_pos_of_mem {nul : α} {start : ℕ} {buf : List α} {slot : Slot α}
    (h : slot ∈ slots nul start buf) : 0 < slot.width := by
  fun_induction slots nul start buf with
  | case1 => exact nomatch h
  | case2 start buf hbuf width ih =>
    rcases List.mem_cons.1 h with rfl | h
    · exact front_width_pos nul hbuf
    · exact ih h

theorem nul_notMem_of_mem {nul : α} {start : ℕ} {buf : List α} {slot : Slot α}
    (h : slot ∈ slots nul start buf) : nul ∉ slot.text := by
  fun_induction slots nul start buf with
  | case1 => exact nomatch h
  | case2 start buf hbuf width ih =>
    rcases List.mem_cons.1 h with rfl | h
    · exact nul_notMem_frontText nul buf
    · exact ih h

/-- **The slots tile the buffer.** -/
theorem exists_slot {nul : α} {start : ℕ} {buf : List α} {i : ℕ} (hstart : start ≤ i)
    (hi : i < start + buf.length) :
    ∃ slot ∈ slots nul start buf, slot.start ≤ i ∧ i < slot.start + slot.width := by
  fun_induction slots nul start buf with
  | case1 => exact absurd hi (by simpa using hstart)
  | case2 start buf hbuf width ih =>
    by_cases hin : i < start + width
    · exact ⟨_, List.mem_cons_self, hstart, hin⟩
    · have hlength := congrArg List.length (front_append nul buf)
      rw [List.length_append, List.length_append] at hlength
      obtain ⟨slot, hslot, h⟩ := ih (by omega) (by omega)
      exact ⟨slot, List.mem_cons_of_mem _ hslot, h⟩

theorem le_start_of_mem {nul : α} {start : ℕ} {buf : List α} {slot : Slot α}
    (h : slot ∈ slots nul start buf) : start ≤ slot.start := by
  fun_induction slots nul start buf with
  | case1 => exact nomatch h
  | case2 start buf hbuf width ih =>
    rcases List.mem_cons.1 h with rfl | h
    · exact le_rfl
    · exact (Nat.le_add_right start width).trans (ih h)

/-- No place is in two slots. -/
theorem eq_of_mem_slots {nul : α} {start : ℕ} {buf : List α} {a b : Slot α} {i : ℕ}
    (ha : a ∈ slots nul start buf) (hb : b ∈ slots nul start buf)
    (hia : a.start ≤ i ∧ i < a.start + a.width) (hib : b.start ≤ i ∧ i < b.start + b.width) :
    a = b := by
  fun_induction slots nul start buf with
  | case1 => exact nomatch ha
  | case2 start buf hbuf width ih =>
    rcases List.mem_cons.1 ha with rfl | ha <;> rcases List.mem_cons.1 hb with rfl | hb
    · rfl
    · exact absurd (hia.2.trans_le ((le_start_of_mem hb).trans hib.1)) (Nat.lt_irrefl i)
    · exact absurd (hib.2.trans_le ((le_start_of_mem ha).trans hia.1)) (Nat.lt_irrefl i)
    · exact ih ha hb

/-- A string has a terminator behind it in its slot, but at the end of the
buffer. -/
theorem length_lt_width_or {nul : α} {start : ℕ} {buf : List α} {slot : Slot α}
    (h : slot ∈ slots nul start buf) :
    slot.text.length < slot.width ∨
      slot.text.length = slot.width ∧ slot.start + slot.width = start + buf.length := by
  fun_induction slots nul start buf with
  | case1 => exact nomatch h
  | case2 start buf hbuf width ih =>
    have hlength := congrArg List.length (front_append nul buf)
    rw [List.length_append, List.length_append] at hlength
    rcases List.mem_cons.1 h with rfl | h
    · cases hpad : frontPad nul buf with
      | nil =>
        have hbehind := behindFront_eq_nil_of_frontPad hpad
        rw [hpad, hbehind, List.length_nil] at hlength
        refine .inr ⟨?_, ?_⟩ <;> simp only [width, hpad, List.length_nil] <;> omega
      | cons b pad =>
        refine .inl ?_
        simp only [width, hpad, List.length_cons]
        omega
    · have hadd : start + width + (behindFront nul buf).length = start + buf.length := by omega
      rw [← hadd]
      exact ih h

end Front

/-! ### Laying a buffer out again -/

/-- The buffer from the slot of the string `t` on, the strings behind it edited
by `f`.  An empty string leaves its slot to the string before it. -/
def lay (nul : α) (f : List α → List α) (t : List α) (room : ℕ) : List (Slot α) → List α
  | [] => t ++ List.replicate (room - t.length) nul
  | slot :: behind =>
    if f slot.text = [] then lay nul f t (room + slot.width) behind
    else t ++ (List.replicate (room - t.length) nul ++
      lay nul f (f slot.text) slot.width behind)

/-- Every string has the room it needs, and a terminator where another string
follows. -/
def Roomy (f : List α → List α) (t : List α) (room : ℕ) : List (Slot α) → Prop
  | [] => t.length ≤ room
  | slot :: behind =>
    if f slot.text = [] then Roomy f t (room + slot.width) behind
    else t.length < room ∧ Roomy f (f slot.text) slot.width behind

variable {nul : α} {f : List α → List α} {t : List α} {room : ℕ} {slot : Slot α}
  {behind : List (Slot α)}

theorem lay_cons_of_nil (h : f slot.text = []) :
    lay nul f t room (slot :: behind) = lay nul f t (room + slot.width) behind := if_pos h

theorem lay_cons_of_ne_nil (h : f slot.text ≠ []) :
    lay nul f t room (slot :: behind) =
      t ++ (List.replicate (room - t.length) nul ++ lay nul f (f slot.text) slot.width behind) :=
  if_neg h

theorem roomy_cons_of_nil (h : f slot.text = []) :
    Roomy f t room (slot :: behind) ↔ Roomy f t (room + slot.width) behind :=
  iff_of_eq (if_pos h)

theorem roomy_cons_of_ne_nil (h : f slot.text ≠ []) :
    Roomy f t room (slot :: behind) ↔ t.length < room ∧ Roomy f (f slot.text) slot.width behind :=
  iff_of_eq (if_neg h)

/-- Room that a string does not need is terminators. -/
theorem lay_add (h : t.length ≤ room) (n : ℕ) :
    lay nul f t (room + n) behind =
      t ++ (List.replicate (room - t.length) nul ++ lay nul f [] n behind) := by
  induction behind generalizing n with
  | nil =>
    have hroom : room + n - t.length = (room - t.length) + n := by omega
    rw [lay, lay, hroom, ← List.replicate_append_replicate, List.nil_append, List.length_nil,
      Nat.sub_zero]
  | cons slot behind ih =>
    by_cases hnil : f slot.text = []
    · rw [lay_cons_of_nil hnil, lay_cons_of_nil hnil, Nat.add_assoc, ih]
    · have hroom : room + n - t.length = (room - t.length) + n := by omega
      rw [lay_cons_of_ne_nil hnil, lay_cons_of_ne_nil hnil, hroom,
        ← List.replicate_append_replicate, List.nil_append, List.length_nil, Nat.sub_zero,
        List.append_assoc]

/-- **A string that fits its slot leaves the slots behind it alone.** -/
theorem lay_cons (h : t.length ≤ room) :
    lay nul f t room (slot :: behind) =
      t ++ (List.replicate (room - t.length) nul ++
        lay nul f (f slot.text) slot.width behind) := by
  by_cases hnil : f slot.text = []
  · rw [lay_cons_of_nil hnil, hnil, lay_add h]
  · exact lay_cons_of_ne_nil hnil

/-- A string that fits its slot with a terminator has its room, where what is
behind has it. -/
theorem roomy_add (h : t.length < room) {n : ℕ} (hbehind : Roomy f [] n behind) :
    Roomy f t (room + n) behind := by
  induction behind generalizing n with
  | nil => exact Nat.le_add_right_of_le h.le
  | cons slot behind ih =>
    by_cases hnil : f slot.text = []
    · rw [roomy_cons_of_nil hnil] at hbehind ⊢
      rw [Nat.add_assoc]
      exact ih hbehind
    · rw [roomy_cons_of_ne_nil hnil] at hbehind ⊢
      exact ⟨Nat.lt_add_right n h, hbehind.2⟩

theorem roomy_cons (h : t.length < room) (hbehind : Roomy f (f slot.text) slot.width behind) :
    Roomy f t room (slot :: behind) := by
  by_cases hnil : f slot.text = []
  · rw [roomy_cons_of_nil hnil]
    rw [hnil] at hbehind
    exact roomy_add h hbehind
  · exact (roomy_cons_of_ne_nil hnil).2 ⟨h, hbehind⟩

/-- Room that no string takes is there whatever is in front. -/
theorem Roomy.nil {n : ℕ} (hn : 0 < n) (h : Roomy f t (room + n) behind) :
    Roomy f [] n behind := by
  induction behind generalizing n with
  | nil => exact Nat.zero_le n
  | cons slot behind ih =>
    by_cases hnil : f slot.text = []
    · rw [roomy_cons_of_nil hnil] at h ⊢
      rw [Nat.add_assoc] at h
      exact ih (Nat.add_pos_left hn _) h
    · rw [roomy_cons_of_ne_nil hnil] at h ⊢
      exact ⟨hn, h.2⟩

/-- What is behind a string has its room. -/
theorem Roomy.tail (hslot : 0 < slot.width) (h : Roomy f t room (slot :: behind)) :
    Roomy f (f slot.text) slot.width behind := by
  by_cases hnil : f slot.text = []
  · rw [roomy_cons_of_nil hnil] at h
    rw [hnil]
    exact h.nil hslot
  · exact ((roomy_cons_of_ne_nil hnil).1 h).2

/-- The buffer of slots that stand one behind the other, with the strings edited
by `f`. -/
def laid (nul : α) (f : List α → List α) : List (Slot α) → List α
  | [] => []
  | slot :: behind => lay nul f (f slot.text) slot.width behind

/-- Every edited string has the room it needs. -/
def AllRoomy (f : List α → List α) : List (Slot α) → Prop
  | [] => True
  | slot :: behind => Roomy f (f slot.text) slot.width behind

/-- The slots stand one behind the other from `start` on. -/
def Consecutive (start : ℕ) : List (Slot α) → Prop
  | [] => True
  | slot :: behind => slot.start = start ∧ Consecutive (start + slot.width) behind

theorem AllRoomy.tail (hwidth : ∀ s ∈ slot :: behind, 0 < s.width)
    (h : AllRoomy f (slot :: behind)) : AllRoomy f behind := by
  cases behind with
  | nil => exact trivial
  | cons next behind => exact Roomy.tail (hwidth next (by simp)) h

/-- **A string that fits its slot stands in front of the other slots.** -/
theorem laid_cons (h : (f slot.text).length ≤ slot.width) :
    laid nul f (slot :: behind) =
      f slot.text ++ (List.replicate (slot.width - (f slot.text).length) nul ++
        laid nul f behind) := by
  cases behind with
  | nil => exact (congrArg (f slot.text ++ ·) (List.append_nil _)).symm
  | cons next behind => exact lay_cons h

/-- **Where every string fits its slot, each slot has its string and
terminators.** -/
theorem cut_laid {before : List α} {slots : List (Slot α)}
    (hstart : Consecutive before.length slots)
    (hfits : ∀ s ∈ slots, (f s.text).length ≤ s.width) (h : slot ∈ slots) :
    slot.cut (before ++ laid nul f slots) =
      f slot.text ++ List.replicate (slot.width - (f slot.text).length) nul := by
  induction slots generalizing before with
  | nil => exact nomatch h
  | cons first slots ih =>
    obtain ⟨hfirst, hslots⟩ := hstart
    have hle := hfits first List.mem_cons_self
    rw [laid_cons hle, ← List.append_assoc (f first.text)]
    have hlength : (f first.text ++
        List.replicate (first.width - (f first.text).length) nul).length = first.width := by
      rw [List.length_append, List.length_replicate]
      omega
    rcases List.mem_cons.1 h with rfl | h
    · rw [Slot.cut, hfirst, List.drop_left, List.take_left' hlength]
    · rw [← List.append_assoc]
      refine ih ?_ (fun s hs => hfits s (List.mem_cons_of_mem _ hs)) h
      rw [List.length_append, hlength]
      exact hslots

theorem length_lay (hroom : Roomy f t room behind) :
    (lay nul f t room behind).length = room + (behind.map Slot.width).sum := by
  induction behind generalizing t room with
  | nil =>
    have hle : t.length ≤ room := hroom
    rw [lay, List.length_append, List.length_replicate, List.map_nil, List.sum_nil]
    omega
  | cons slot behind ih =>
    rw [List.map_cons, List.sum_cons]
    by_cases hnil : f slot.text = []
    · rw [lay_cons_of_nil hnil, ih ((roomy_cons_of_nil hnil).1 hroom), Nat.add_assoc]
    · obtain ⟨hlt, hbehind⟩ := (roomy_cons_of_ne_nil hnil).1 hroom
      rw [lay_cons_of_ne_nil hnil, List.length_append, List.length_append,
        List.length_replicate, ih hbehind]
      omega

theorem length_laid {slots : List (Slot α)} (hroomy : AllRoomy f slots) :
    (laid nul f slots).length = (slots.map Slot.width).sum := by
  cases slots with
  | nil => rfl
  | cons slot slots => exact length_lay hroomy

/-- What a buffer has at a place of a slot. -/
theorem getElem?_cut {buf : List α} {i : ℕ} (hi : slot.start ≤ i)
    (hi' : i < slot.start + slot.width) : (slot.cut buf)[i - slot.start]? = buf[i]? := by
  rw [Slot.cut, List.getElem?_take_of_lt (by omega), List.getElem?_drop, Nat.add_sub_cancel' hi]

section Reading

variable [DecidableEq α]

/-- A string ends where the buffer does, or at a terminator. -/
theorem frontText_append {rest : List α} (ht : nul ∉ t)
    (hrest : rest.head? = none ∨ rest.head? = some nul) : frontText nul (t ++ rest) = t := by
  have hall : ∀ b ∈ t, decide (b ≠ nul) = true := fun b hb =>
    decide_eq_true fun h => ht (h ▸ hb)
  rw [frontText, List.takeWhile_append_of_pos hall]
  cases rest with
  | nil => exact List.append_nil t
  | cons b rest =>
    obtain rfl : b = nul := Option.some.inj (hrest.resolve_left (Option.some_ne_none b))
    rw [List.takeWhile_cons, if_neg (by simp), List.append_nil]

/-- **The string that was laid out is read.** -/
theorem frontText_lay (ht : nul ∉ t) (hroom : Roomy f t room behind) :
    frontText nul (lay nul f t room behind) = t := by
  induction behind generalizing room with
  | nil =>
    refine frontText_append ht ?_
    cases room - t.length with
    | zero => exact .inl rfl
    | succ n => exact .inr rfl
  | cons slot behind ih =>
    by_cases hnil : f slot.text = []
    · rw [lay_cons_of_nil hnil]
      exact ih ((roomy_cons_of_nil hnil).1 hroom)
    · obtain ⟨hlt, -⟩ := (roomy_cons_of_ne_nil hnil).1 hroom
      obtain ⟨n, hn⟩ := Nat.exists_eq_succ_of_ne_zero (Nat.sub_pos_of_lt hlt).ne'
      rw [lay_cons_of_ne_nil hnil, hn]
      exact frontText_append ht (.inr rfl)

/-- A buffer is its slots laid out. -/
theorem laid_slots (nul : α) (start : ℕ) (buf : List α) :
    laid nul id (slots nul start buf) = buf ∧ AllRoomy id (slots nul start buf) := by
  fun_induction slots nul start buf with
  | case1 => exact ⟨rfl, trivial⟩
  | case2 start buf hbuf width ih =>
    obtain ⟨hlaid, hroomy⟩ := ih
    have happend := front_append nul buf
    have hpad := frontPad_eq_replicate nul buf
    have hroom : width - (frontText nul buf).length = (frontPad nul buf).length :=
      Nat.add_sub_cancel_left _ _
    by_cases hbehind : behindFront nul buf = []
    · rw [hbehind, List.append_nil] at happend
      rw [hbehind, slots_nil]
      refine ⟨?_, Nat.le_add_right _ _⟩
      rw [laid, lay, id, hroom, ← hpad, happend]
    · have hne : frontText nul (behindFront nul buf) ≠ [] := fun h => by
        have hhead := head?_behindFront_ne nul buf
        cases hb : behindFront nul buf with
        | nil => exact hbehind hb
        | cons b rest =>
          rw [hb] at h hhead
          have hb : b ≠ nul := fun h => hhead (congrArg some h)
          rw [frontText, List.takeWhile_cons, if_pos (decide_eq_true hb)] at h
          exact nomatch h
      have hlt : (frontText nul buf).length < width := by
        refine Nat.lt_add_of_pos_right (List.length_pos_iff.2 fun h => hbehind ?_)
        exact behindFront_eq_nil_of_frontPad h
      rw [slots_of_ne_nil _ hbehind] at hlaid hroomy ⊢
      refine ⟨?_, (roomy_cons_of_ne_nil hne).2 ⟨hlt, hroomy⟩⟩
      rw [laid, id] at hlaid ⊢
      rw [lay_cons_of_ne_nil hne, hroom, ← hpad]
      have hwhole := congrArg (fun rest => frontText nul buf ++ (frontPad nul buf ++ rest)) hlaid
      exact hwhole.trans happend

theorem consecutive_slots (nul : α) (start : ℕ) (buf : List α) :
    Consecutive start (slots nul start buf) := by
  fun_induction slots nul start buf with
  | case1 => exact trivial
  | case2 start buf hbuf width ih => exact ⟨rfl, ih⟩

/-- **What is read at the start of every slot, and fits it, is what was laid
out.** -/
theorem eq_of_reads {g : Slot α → List α} {before : List α} {slots : List (Slot α)}
    (hstart : Consecutive before.length slots) (hwidth : ∀ s ∈ slots, 0 < s.width)
    (hnul : ∀ s ∈ slots, nul ∉ f s.text) (hroomy : AllRoomy f slots)
    (hread : ∀ s ∈ slots, frontText nul ((before ++ laid nul f slots).drop s.start) = g s ∧
      (g s).length ≤ s.width) (h : slot ∈ slots) : f slot.text = g slot := by
  induction slots generalizing before with
  | nil => exact nomatch h
  | cons first slots ih =>
    obtain ⟨hfirst, hslots⟩ := hstart
    obtain ⟨hg, hle⟩ := hread first List.mem_cons_self
    rw [hfirst, List.drop_left, laid, frontText_lay (hnul first List.mem_cons_self) hroomy] at hg
    rw [← hg] at hle
    rcases List.mem_cons.1 h with rfl | h
    · exact hg
    · rw [laid_cons hle, ← List.append_assoc (f first.text), ← List.append_assoc] at hread
      refine ih ?_ (fun s hs => hwidth s (List.mem_cons_of_mem _ hs))
        (fun s hs => hnul s (List.mem_cons_of_mem _ hs)) (hroomy.tail hwidth)
        (fun s hs => hread s (List.mem_cons_of_mem _ hs)) h
      rw [List.length_append, List.length_append, List.length_replicate,
        Nat.add_sub_cancel' hle]
      exact hslots

end Reading

end Mise.Lib
