/-
# Texts up to ASCII case

`folded` puts the ASCII letters of a text in lower case.  It changes no other
character and no character's width, so a text and its folded form are cut at the
same offsets.
-/

import Mathlib
import Mise.Lib.Utf8

namespace Mise.Lib

open String (utf8Len utf8Len_cons)

/-- A text with its ASCII letters in lower case. -/
def folded (cs : List Char) : List Char := cs.map Char.toLower

/-- Texts that differ in the case of ASCII letters at most. -/
def eqAscii (a b : List Char) : Bool := folded a == folded b

theorem eqAscii_iff {a b : List Char} :
    eqAscii a b = true ↔ folded a = folded b := beq_iff_eq

variable {a b cs : List Char} {c d : Char}

@[simp] theorem folded_cons : folded (c :: cs) = c.toLower :: folded cs := rfl

@[simp] theorem folded_append : folded (a ++ b) = folded a ++ folded b := List.map_append

theorem folded_eq_nil_iff : folded cs = [] ↔ cs = [] := List.map_eq_nil_iff

/-- Case folding makes no other character from a letter, and none from another. -/
theorem toLower_eq_iff (hd : d.isAlpha = false) : c.toLower = d ↔ c = d := by
  simp only [Char.toLower, Char.isAlpha, Char.isUpper, Char.isLower] at *
  grind [UInt32.le_iff_toNat_le, UInt32.toNat_add]

theorem utf8Size_toLower (c : Char) : c.toLower.utf8Size = c.utf8Size := by
  simp only [Char.toLower, Char.utf8Size]
  grind [UInt32.le_iff_toNat_le, UInt32.toNat_add]

theorem utf8Size_of_isAlpha (h : c.isAlpha = true) : c.utf8Size = 1 := by
  simp only [Char.isAlpha, Char.isUpper, Char.isLower] at h
  grind [Char.utf8Size, UInt32.le_iff_toNat_le]

theorem utf8Size_toUpper (c : Char) : c.toUpper.utf8Size = c.utf8Size := by
  rw [← utf8Size_toLower c.toUpper, Char.toLower_toUpper_eq_toLower, utf8Size_toLower]

@[simp] theorem utf8Len_folded (cs : List Char) : utf8Len (folded cs) = utf8Len cs := by
  induction cs with
  | nil => rfl
  | cons c cs ih => rw [folded_cons, utf8Len_cons, utf8Len_cons, ih, utf8Size_toLower]

theorem utf8Len_eq_of_folded_eq (h : folded a = folded b) : utf8Len a = utf8Len b := by
  rw [← utf8Len_folded, h, utf8Len_folded]

/-- A text whose folded form is in two parts is in two parts. -/
theorem exists_append_of_folded_eq {x y : List Char} (h : folded cs = x ++ y) :
    ∃ u v, cs = u ++ v ∧ folded u = x ∧ folded v = y := by
  obtain ⟨u, v, rfl, rfl, rfl⟩ := List.map_eq_append_iff.1 h
  exact ⟨u, v, rfl, rfl, rfl⟩

theorem head?_eq_of_folded_eq (hd : d.isAlpha = false) (h : folded a = folded b) :
    a.head? = some d ↔ b.head? = some d := by
  have hfold : ∀ l : List Char, l.head? = some d ↔ (folded l).head? = some d := fun l => by
    cases l with
    | nil => exact Iff.rfl
    | cons c l =>
      rw [folded_cons, List.head?_cons, List.head?_cons, Option.some_inj, Option.some_inj,
        toLower_eq_iff hd]
  rw [hfold, h, ← hfold]

theorem getLast?_eq_of_folded_eq (hd : d.isAlpha = false) (h : folded a = folded b) :
    a.getLast? = some d ↔ b.getLast? = some d := by
  rw [← List.head?_reverse, ← List.head?_reverse]
  refine head?_eq_of_folded_eq hd ?_
  rw [folded, folded, List.map_reverse, List.map_reverse]
  exact congrArg List.reverse h

end Mise.Lib
