/-
# Byte images

A file in memory, of which words are read and parts overwritten at offsets.
What is out of range is `none`.  Words are little-endian.
-/

import Mise.Lib.Framing

namespace Mise.Lib

/-- The number that little-endian bytes say. -/
def leValue (bytes : List UInt8) : ℕ := bytes.foldr (fun b n => b.toNat + 256 * n) 0

/-- A number is said but for what does not fit. -/
theorem leValue_leBytes_mod (w n : ℕ) : leValue (leBytes w n) = n % 256 ^ w := by
  induction w generalizing n with
  | zero => exact (Nat.mod_one n).symm
  | succ w ih =>
    have hvalue : leValue (leBytes (w + 1) n) =
        (UInt8.ofNat n).toNat + 256 * leValue (leBytes w (n / 256)) := rfl
    have hpow : 256 ^ (w + 1) = 256 * 256 ^ w := by rw [Nat.pow_succ, Nat.mul_comm]
    rw [hvalue, ih, UInt8.toNat_ofNat', hpow]
    exact Nat.mod_mul.symm

theorem leBytes_leValue (bytes : List UInt8) : leBytes bytes.length (leValue bytes) = bytes := by
  induction bytes with
  | nil => rfl
  | cons b bytes ih =>
    have hlt := b.toNat_lt
    have hlow : UInt8.ofNat (b.toNat + 256 * leValue bytes) = b := by
      rw [← UInt8.toNat_inj, UInt8.toNat_ofNat']
      omega
    have hhigh : (b.toNat + 256 * leValue bytes) / 256 = leValue bytes := by omega
    change UInt8.ofNat (b.toNat + 256 * leValue bytes) ::
      leBytes bytes.length ((b.toNat + 256 * leValue bytes) / 256) = b :: bytes
    rw [hlow, hhigh, ih]

theorem leValue_lt (bytes : List UInt8) : leValue bytes < 256 ^ bytes.length := by
  induction bytes with
  | nil => exact Nat.one_pos
  | cons b bytes ih =>
    have hlt := b.toNat_lt
    change b.toNat + 256 * leValue bytes < 256 ^ (bytes.length + 1)
    rw [Nat.pow_succ]
    omega

/-- The bytes from `off` on, `len` of them. -/
def cut (off len : ℕ) (image : List UInt8) : List UInt8 := (image.drop off).take len

/-- The word of `w` bytes at an offset. -/
def readWord (w : ℕ) (image : List UInt8) (off : ℕ) : Option ℕ :=
  if off + w ≤ image.length then some (leValue (cut off w image)) else none

/-- The image with bytes put over others. -/
def overwrite (off : ℕ) (bytes image : List UInt8) : Option (List UInt8) :=
  if off + bytes.length ≤ image.length then
    some (image.take off ++ (bytes ++ image.drop (off + bytes.length)))
  else none

variable {image image' bytes : List UInt8} {off off' len w : ℕ}

theorem readWord_of_le (h : off + w ≤ image.length) :
    readWord w image off = some (leValue (cut off w image)) := if_pos h

theorem readWord_eq_none (h : ¬ off + w ≤ image.length) : readWord w image off = none := if_neg h

theorem length_cut (h : off + len ≤ image.length) : (cut off len image).length = len := by
  rw [cut, List.length_take, List.length_drop]
  omega

/-- A part of a part. -/
theorem cut_cut (h : off' + w ≤ len) :
    cut off' w (cut off len image) = cut (off + off') w image := by
  rw [cut, cut, List.drop_take, List.take_take, List.drop_drop, Nat.min_eq_left (by omega), cut]

/-- A part in two. -/
theorem cut_add (off a b : ℕ) (image : List UInt8) :
    cut off (a + b) image = cut off a image ++ cut (off + a) b image := by
  rw [cut, List.take_add, List.drop_drop]
  rfl

theorem getElem?_cut_of_lt {i : ℕ} (hi : i < len) : (cut off len image)[i]? = image[off + i]? := by
  rw [cut, List.getElem?_take_of_lt hi, List.getElem?_drop]

theorem exists_overwrite (off : ℕ) (bytes image : List UInt8)
    (h : off + bytes.length ≤ image.length) : ∃ image', overwrite off bytes image = some image' :=
  ⟨_, if_pos h⟩

theorem length_overwrite (h : overwrite off bytes image = some image') :
    image'.length = image.length := by
  rw [overwrite] at h
  split at h
  · obtain rfl := Option.some.inj h
    rw [List.length_append, List.length_append, List.length_take, List.length_drop]
    omega
  · exact nomatch h

/-- What was put in stands there. -/
theorem cut_overwrite (h : overwrite off bytes image = some image') :
    cut off bytes.length image' = bytes := by
  rw [overwrite] at h
  split at h
  · obtain rfl := Option.some.inj h
    rw [cut, List.drop_left' (by rw [List.length_take]; omega), List.take_left]
  · exact nomatch h

/-- What is not put over stays. -/
theorem getElem?_overwrite (h : overwrite off bytes image = some image') {i : ℕ}
    (hi : i < off ∨ off + bytes.length ≤ i) : image'[i]? = image[i]? := by
  rw [overwrite] at h
  split at h
  · obtain rfl := Option.some.inj h
    have htake : (image.take off).length = off := by
      rw [List.length_take]
      omega
    rcases hi with hi | hi
    · rw [List.getElem?_append_left (by omega), List.getElem?_take_of_lt hi]
    · rw [List.getElem?_append_right (by omega), List.getElem?_append_right (by omega),
        List.getElem?_drop]
      congr 1
      omega
  · exact nomatch h

/-- A part that is not put over stays. -/
theorem cut_overwrite_of_disjoint (h : overwrite off bytes image = some image')
    (hi : off' + len ≤ off ∨ off + bytes.length ≤ off') :
    cut off' len image' = cut off' len image := by
  refine List.ext_getElem? fun i => ?_
  rw [cut, cut]
  by_cases hlt : i < len
  · rw [List.getElem?_take_of_lt hlt, List.getElem?_take_of_lt hlt, List.getElem?_drop,
      List.getElem?_drop, getElem?_overwrite h (by omega)]
  · rw [List.getElem?_take_eq_none (by omega), List.getElem?_take_eq_none (by omega)]

end Mise.Lib
