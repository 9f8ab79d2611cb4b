/-
# Texts and their bytes

A text is a list of characters and is addressed by byte offsets, as a string
slice is.  The encoding is self-synchronising: the bytes of a non-empty text
occur among the bytes of another one only where its characters do
(`occursAt_iff_exists_append`), so a search over bytes and a search over
characters find the same places.
-/

import Mathlib.Data.String.Basic
import Mise.Lib.Framing

namespace Mise.Lib

open String (utf8Len utf8Len_nil utf8Len_cons utf8Len_append)

/-- The bytes of a text. -/
def utf8 (cs : List Char) : List UInt8 := cs.flatMap String.utf8EncodeChar

@[simp] theorem utf8_cons (c : Char) (cs : List Char) :
    utf8 (c :: cs) = String.utf8EncodeChar c ++ utf8 cs := rfl

@[simp] theorem utf8_append (cs ds : List Char) : utf8 (cs ++ ds) = utf8 cs ++ utf8 ds :=
  List.flatMap_append

theorem length_utf8 (cs : List Char) : (utf8 cs).length = utf8Len cs := by
  induction cs with
  | nil => rfl
  | cons c cs ih =>
    rw [utf8_cons, List.length_append, String.length_utf8EncodeChar, ih, utf8Len_cons, Nat.add_comm]

theorem utf8Len_pos {cs : List Char} (h : cs ≠ []) : 0 < utf8Len cs := by
  obtain ⟨c, cs, rfl⟩ := List.exists_cons_of_ne_nil h
  rw [utf8Len_cons]
  exact Nat.add_pos_right _ c.utf8Size_pos

/-- Two prefixes of a text that end at one offset are one prefix. -/
theorem append_inj_of_utf8Len {a b r s : List Char} (h : a ++ r = b ++ s)
    (hlen : utf8Len a = utf8Len b) : a = b ∧ r = s := by
  induction a generalizing b with
  | nil =>
    cases b with
    | nil => exact ⟨rfl, h⟩
    | cons c b =>
      have := c.utf8Size_pos
      rw [utf8Len_nil, utf8Len_cons] at hlen
      omega
  | cons c a ih =>
    cases b with
    | nil =>
      have := c.utf8Size_pos
      rw [utf8Len_nil, utf8Len_cons] at hlen
      omega
    | cons d b =>
      obtain ⟨rfl, htail⟩ := List.cons.inj h
      rw [utf8Len_cons, utf8Len_cons] at hlen
      obtain ⟨rfl, hrest⟩ := ih htail (by omega)
      exact ⟨rfl, hrest⟩

/-! ### Slices -/

/-- The text before and the text from an offset, which has to be the boundary of
a character. -/
def splitAtByte : List Char → ℕ → Option (List Char × List Char)
  | cs, 0 => some ([], cs)
  | [], _ + 1 => none
  | c :: cs, n + 1 =>
    if c.utf8Size ≤ n + 1 then
      (splitAtByte cs (n + 1 - c.utf8Size)).map fun p => (c :: p.1, p.2)
    else none

/-- The text between two offsets; `none` is what a slice outside the boundaries
of characters panics for. -/
def slice (cs : List Char) (a b : ℕ) : Option (List Char) := do
  let (_, rest) ← splitAtByte cs a
  if a ≤ b then
    let (mid, _) ← splitAtByte rest (b - a)
    some mid
  else none

theorem splitAtByte_append (a r : List Char) : splitAtByte (a ++ r) (utf8Len a) = some (a, r) := by
  induction a with
  | nil =>
    rw [List.nil_append, utf8Len_nil]
    cases r <;> rfl
  | cons c a ih =>
    obtain ⟨k, hk⟩ : ∃ k, utf8Len (c :: a) = k + 1 :=
      ⟨_, (Nat.succ_pred_eq_of_pos (utf8Len_pos (List.cons_ne_nil c a))).symm⟩
    have hsize : utf8Len a + c.utf8Size = k + 1 := by rw [← hk, utf8Len_cons]
    rw [hk, List.cons_append, splitAtByte, if_pos (by omega),
      show k + 1 - c.utf8Size = utf8Len a by omega, ih]
    rfl

theorem splitAtByte_eq_some {cs a r : List Char} {n : ℕ} (h : splitAtByte cs n = some (a, r)) :
    cs = a ++ r ∧ utf8Len a = n := by
  fun_induction splitAtByte cs n generalizing a with
  | case1 cs =>
    obtain ⟨rfl, rfl⟩ := Prod.mk.inj (Option.some.inj h)
    exact ⟨rfl, rfl⟩
  | case2 => exact nomatch h
  | case3 c cs n hle ih =>
    obtain ⟨⟨a', r'⟩, hsplit, heq⟩ := Option.map_eq_some_iff.1 h
    obtain ⟨rfl, rfl⟩ := Prod.mk.inj heq
    obtain ⟨rfl, hlen⟩ := ih hsplit
    refine ⟨rfl, ?_⟩
    rw [utf8Len_cons, hlen]
    omega
  | case4 => exact nomatch h

/-- An offset is no boundary where no beginning of the text is that long. -/
theorem splitAtByte_eq_none_iff {cs : List Char} {n : ℕ} :
    splitAtByte cs n = none ↔ ∀ a r, cs = a ++ r → utf8Len a ≠ n := by
  constructor
  · rintro h a r rfl rfl
    exact nomatch h.symm.trans (splitAtByte_append a r)
  · intro h
    cases hsplit : splitAtByte cs n with
    | none => rfl
    | some p =>
      obtain ⟨a, r⟩ := p
      obtain ⟨rfl, hlen⟩ := splitAtByte_eq_some hsplit
      exact absurd hlen (h a r rfl)

theorem slice_append (a m r : List Char) :
    slice (a ++ (m ++ r)) (utf8Len a) (utf8Len a + utf8Len m) = some m := by
  simp [slice, splitAtByte_append]

/-! ### Occurrences -/

/-- The bytes of `p` stand among those of `cs` at offset `a`. -/
def OccursAt (cs p : List Char) (a : ℕ) : Prop := utf8 p <+: (utf8 cs).drop a

instance (cs p : List Char) (a : ℕ) : Decidable (OccursAt cs p a) :=
  inferInstanceAs (Decidable (_ <+: _))

theorem selfDelimiting_utf8EncodeChar : SelfDelimiting String.utf8EncodeChar := by
  intro c d r r' heq
  have hc := ByteArray.utf8DecodeChar?_utf8EncodeChar_append (b := r.toByteArray) (c := c)
  have hd := ByteArray.utf8DecodeChar?_utf8EncodeChar_append (b := r'.toByteArray) (c := d)
  rw [← List.toByteArray_append, heq, List.toByteArray_append, hd] at hc
  obtain rfl := Option.some.inj hc
  exact ⟨rfl, List.append_cancel_left heq⟩

/-- Bytes that begin a text's bytes are characters that begin the text. -/
theorem prefix_of_utf8_prefix {p cs : List Char} (h : utf8 p <+: utf8 cs) : p <+: cs := by
  induction p generalizing cs with
  | nil => exact List.nil_prefix
  | cons c p ih =>
    obtain ⟨r, hr⟩ := h
    rw [utf8_cons, List.append_assoc] at hr
    cases cs with
    | nil => exact absurd (List.append_eq_nil_iff.1 hr).1 String.utf8EncodeChar_ne_nil
    | cons d cs =>
      obtain ⟨rfl, htail⟩ := selfDelimiting_utf8EncodeChar _ _ _ _ hr
      exact (List.prefix_cons_inj c).2 (ih ⟨r, htail⟩)

/-- A text's bytes determine it. -/
theorem utf8_injective : Function.Injective utf8 := by
  intro a b hab
  have hprefix : a <+: b := prefix_of_utf8_prefix (hab ▸ List.prefix_rfl)
  have hprefix' : b <+: a := prefix_of_utf8_prefix (hab ▸ List.prefix_rfl)
  exact hprefix.eq_of_length_le hprefix'.length_le

/-- A byte that may begin a character stands in a text only at a boundary. -/
theorem exists_append_of_isUTF8FirstByte {cs : List Char} {a : ℕ} {b : UInt8}
    (hget : (utf8 cs)[a]? = some b) (hfirst : b.IsUTF8FirstByte) :
    ∃ x y, cs = x ++ y ∧ utf8Len x = a := by
  induction cs generalizing a with
  | nil => exact absurd hget (by simp [utf8])
  | cons c cs ih =>
    rcases Nat.lt_or_ge a (String.utf8EncodeChar c).length with ha | ha
    · rw [utf8_cons, List.getElem?_append_left ha, List.getElem?_eq_getElem ha] at hget
      obtain rfl := Option.some.inj hget
      obtain rfl := UInt8.isUTF8FirstByte_getElem_utf8EncodeChar.1 hfirst
      exact ⟨[], c :: cs, rfl, rfl⟩
    · rw [utf8_cons, List.getElem?_append_right ha] at hget
      obtain ⟨x, y, rfl, hx⟩ := ih hget
      refine ⟨c :: x, y, rfl, ?_⟩
      rw [String.length_utf8EncodeChar] at ha hx
      rw [utf8Len_cons]
      omega

/-- **Bytes occur where characters do.** -/
theorem occursAt_iff_exists_append {cs p : List Char} (hp : p ≠ []) {a : ℕ} :
    OccursAt cs p a ↔ ∃ x y, cs = x ++ (p ++ y) ∧ utf8Len x = a := by
  constructor
  · intro h
    obtain ⟨c, p, rfl⟩ := List.exists_cons_of_ne_nil hp
    have hlen : 0 < (String.utf8EncodeChar c).length := List.length_pos_iff.2 String.utf8EncodeChar_ne_nil
    obtain ⟨r, hr⟩ := id h
    have hget : (utf8 cs)[a]? = some (String.utf8EncodeChar c)[0] := by
      rw [← List.getElem?_eq_getElem hlen, ← Nat.add_zero a, ← List.getElem?_drop, ← hr, utf8_cons,
        List.append_assoc, List.getElem?_append_left hlen]
    obtain ⟨x, y, rfl, rfl⟩ :=
      exists_append_of_isUTF8FirstByte hget (UInt8.isUTF8FirstByte_getElem_utf8EncodeChar.2 rfl)
    rw [OccursAt, utf8_append, ← length_utf8, List.drop_left] at h
    obtain ⟨z, rfl⟩ := prefix_of_utf8_prefix h
    exact ⟨x, z, rfl, rfl⟩
  · rintro ⟨x, y, rfl, rfl⟩
    rw [OccursAt, utf8_append, ← length_utf8, List.drop_left, utf8_append]
    exact List.prefix_append _ _

end Mise.Lib
