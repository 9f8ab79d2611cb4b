/-
# Regrouping bits

A buffer of 32 bits takes digits of one width in at its low end and gives digits
of another width off from above, with a count of the bits not yet given off.
`numeral` is the number that a list of digits spells, the first digit the
highest, and `Regrouped` says that the digits given off and the bits that still
count spell together what came in.  Digit lists of one length that spell one
number are equal, which is how a regrouping is undone.
-/

import Mathlib.Data.Nat.Digits.Lemmas
import Mathlib.Tactic.Ring

namespace Mise.Lib

/-! ### Numerals -/

/-- The number that digits of `w` bits spell, the highest first. -/
def numeral (w : ℕ) (ds : List ℕ) : ℕ := Nat.ofDigits (2 ^ w) ds.reverse

@[simp] theorem numeral_concat (w : ℕ) (ds : List ℕ) (d : ℕ) :
    numeral w (ds ++ [d]) = numeral w ds * 2 ^ w + d := by
  rw [numeral, List.reverse_append, List.reverse_singleton, List.singleton_append,
    Nat.ofDigits_cons]
  unfold numeral
  ring

/-- Numerals of one length are equal when they spell one number. -/
theorem numeral_injective {w : ℕ} (hw : w ≠ 0) {ds es : List ℕ} (hlen : ds.length = es.length)
    (hds : ∀ d ∈ ds, d < 2 ^ w) (hes : ∀ e ∈ es, e < 2 ^ w)
    (heq : numeral w ds = numeral w es) : ds = es := by
  have hrev : ds.reverse.length = es.reverse.length := by
    rw [List.length_reverse, List.length_reverse, hlen]
  have := Nat.ofDigits_inj_of_len_eq (Nat.one_lt_two_pow hw) hrev
    (fun d hd => hds d (List.mem_reverse.1 hd)) (fun e he => hes e (List.mem_reverse.1 he)) heq
  exact List.reverse_injective this

/-! ### The buffer -/

/-- A digit of `w` bits comes in below the `bits` bits that count. -/
theorem push_mod {buffer bits w d : ℕ} (hd : d < 2 ^ w) (hfit : bits + w ≤ 32) :
    ((buffer <<< w) % 2 ^ 32 ||| d) % 2 ^ (bits + w) = buffer % 2 ^ bits * 2 ^ w + d := by
  obtain ⟨e, he⟩ := Nat.exists_eq_add_of_le (show w ≤ 32 by omega)
  have hshift : (buffer <<< w) % 2 ^ 32 = (buffer % 2 ^ e) <<< w := by
    rw [Nat.shiftLeft_eq, Nat.shiftLeft_eq, he, Nat.pow_add, Nat.mul_comm buffer,
      Nat.mul_mod_mul_left, Nat.mul_comm]
  have hbits : buffer % 2 ^ e % 2 ^ bits = buffer % 2 ^ bits :=
    Nat.mod_mod_of_dvd _ (Nat.pow_dvd_pow 2 (by omega))
  rw [hshift, ← Nat.shiftLeft_add_eq_or_of_lt hd, Nat.shiftLeft_eq, Nat.pow_add,
    Nat.mul_comm (2 ^ bits), Nat.mod_mul, Nat.mul_comm (buffer % 2 ^ e), Nat.mul_add_mod,
    Nat.mod_eq_of_lt hd, Nat.mul_add_div (Nat.two_pow_pos w), Nat.div_eq_of_lt hd, Nat.add_zero,
    hbits]
  ring

/-- The highest `w` of the bits that count, and the bits below them. -/
theorem pull_mod (buffer bits w : ℕ) :
    buffer % 2 ^ (bits + w) = (buffer >>> bits &&& 2 ^ w - 1) * 2 ^ bits + buffer % 2 ^ bits := by
  rw [Nat.and_two_pow_sub_one_eq_mod, Nat.shiftRight_eq_div_pow, Nat.pow_add, Nat.mod_mul]
  ring

/-- The digits given off, of `v` bits each, and the lowest `bits` bits of the
buffer spell `value`, a number of `width` bits. -/
structure Regrouped (v : ℕ) (ds : List ℕ) (buffer bits value width : ℕ) : Prop where
  digits : ∀ d ∈ ds, d < 2 ^ v
  value_eq : numeral v ds * 2 ^ bits + buffer % 2 ^ bits = value
  width_eq : v * ds.length + bits = width

namespace Regrouped

variable {v w buffer bits value width d : ℕ} {ds : List ℕ}

theorem start (v : ℕ) : Regrouped v [] 0 0 0 0 := ⟨fun _ hd => (nomatch hd), rfl, rfl⟩

/-- A digit of `w` bits comes in. -/
theorem push (h : Regrouped v ds buffer bits value width) (hd : d < 2 ^ w)
    (hfit : bits + w ≤ 32) :
    Regrouped v ds ((buffer <<< w) % 2 ^ 32 ||| d) (bits + w) (value * 2 ^ w + d) (width + w) := by
  refine ⟨h.digits, ?_, ?_⟩
  · rw [push_mod hd hfit, ← h.value_eq, Nat.pow_add]
    ring
  · rw [← h.width_eq, Nat.add_assoc]

/-- A digit of `v` bits goes off. -/
theorem pull (h : Regrouped v ds buffer (bits + v) value width) :
    Regrouped v (ds ++ [buffer >>> bits &&& 2 ^ v - 1]) buffer bits value width := by
  refine ⟨?_, ?_, ?_⟩
  · intro d hd
    rcases List.mem_append.1 hd with hd | hd
    · exact h.digits d hd
    · rw [List.mem_singleton.1 hd, Nat.and_two_pow_sub_one_eq_mod]
      exact Nat.mod_lt _ (Nat.two_pow_pos v)
  · rw [numeral_concat, ← h.value_eq, pull_mod buffer bits v, Nat.pow_add]
    ring
  · rw [List.length_append, List.length_singleton, ← h.width_eq]
    ring

end Regrouped

end Mise.Lib
