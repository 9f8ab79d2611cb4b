/-
# Encodings that end by themselves

An encoding is self-delimiting when two of its words that start the same text
are the same word.  Fields of such encodings can be written one after the other
without separators: the whole is self-delimiting again, and a sequence of them
is so once its length is written first.
-/

import Mathlib.Data.List.Forall2
import Mathlib.Tactic.Ring

namespace Mise.Lib

variable {α β γ : Type}

/-- Whatever follows it, a word is read off the front in one way. -/
def SelfDelimiting (enc : α → List γ) : Prop :=
  ∀ a b r r', enc a ++ r = enc b ++ r' → a = b ∧ r = r'

namespace SelfDelimiting

theorem injective {enc : α → List γ} (h : SelfDelimiting enc) : Function.Injective enc := by
  intro a b hab
  exact (h a b [] [] (by rw [hab])).1

/-- The encoding of a part that an injective function reads off. -/
theorem comp {enc : α → List γ} (h : SelfDelimiting enc) {f : β → α} (hf : Function.Injective f) :
    SelfDelimiting fun b => enc (f b) := by
  intro a b r r' heq
  obtain ⟨hab, hr⟩ := h _ _ _ _ heq
  exact ⟨hf hab, hr⟩

/-- The same text in front changes nothing. -/
theorem const_append {enc : α → List γ} (h : SelfDelimiting enc) (front : List γ) :
    SelfDelimiting fun a => front ++ enc a := by
  intro a b r r' heq
  rw [List.append_assoc, List.append_assoc] at heq
  exact h a b r r' (List.append_cancel_left heq)

/-- Two fields after each other. -/
theorem append {enc : α → List γ} {enc' : β → List γ} (h : SelfDelimiting enc)
    (h' : SelfDelimiting enc') : SelfDelimiting fun x : α × β => enc x.1 ++ enc' x.2 := by
  rintro ⟨a, a'⟩ ⟨b, b'⟩ r r' heq
  rw [List.append_assoc, List.append_assoc] at heq
  obtain ⟨rfl, hrest⟩ := h _ _ _ _ heq
  obtain ⟨rfl, hr⟩ := h' _ _ _ _ hrest
  exact ⟨rfl, hr⟩

/-- Words of one length that tell their values apart. -/
theorem of_length {enc : α → List γ} (n : ℕ) (hlen : ∀ a, (enc a).length = n)
    (hinj : Function.Injective enc) : SelfDelimiting enc := by
  intro a b r r' heq
  obtain ⟨hab, hr⟩ := List.append_inj heq (by rw [hlen, hlen])
  exact ⟨hinj hab, hr⟩

/-- Sequences of one length, field by field, where a field is read off its front
up to a relation. -/
theorem forall₂_of_flatMap {enc : α → List γ} {R : α → α → Prop} {l l' : List α} {r r' : List γ}
    (h : ∀ a ∈ l, ∀ b ∈ l', ∀ r r', enc a ++ r = enc b ++ r' → R a b ∧ r = r')
    (hlen : l.length = l'.length) (heq : l.flatMap enc ++ r = l'.flatMap enc ++ r') :
    List.Forall₂ R l l' ∧ r = r' := by
  induction l generalizing l' with
  | nil =>
    obtain rfl := List.length_eq_zero_iff.1 hlen.symm
    exact ⟨.nil, heq⟩
  | cons a l ih =>
    obtain ⟨b, l', rfl⟩ := List.exists_cons_of_length_eq_add_one hlen.symm
    rw [List.flatMap_cons, List.flatMap_cons, List.append_assoc, List.append_assoc] at heq
    obtain ⟨hab, hrest⟩ := h a List.mem_cons_self b List.mem_cons_self _ _ heq
    obtain ⟨hl, hr⟩ := ih (fun x hx y hy =>
      h x (List.mem_cons_of_mem a hx) y (List.mem_cons_of_mem b hy)) (Nat.succ.inj hlen) hrest
    exact ⟨.cons hab hl, hr⟩

/-- Sequences of one length, field by field. -/
theorem flatMap {enc : α → List γ} (h : SelfDelimiting enc) {l l' : List α} {r r' : List γ}
    (hlen : l.length = l'.length) (heq : l.flatMap enc ++ r = l'.flatMap enc ++ r') :
    l = l' ∧ r = r' := by
  obtain ⟨hl, hr⟩ := forall₂_of_flatMap (fun a _ b _ => h a b) hlen heq
  exact ⟨List.forall₂_eq_eq_eq ▸ hl, hr⟩

/-- **A sequence whose length is written first.** -/
theorem counted {enc : α → List γ} (h : SelfDelimiting enc) {len : ℕ → List γ} {bound : ℕ}
    (hlen : SelfDelimiting fun n : Fin bound => len n) :
    SelfDelimiting fun l : { l : List α // l.length < bound } =>
      len l.1.length ++ l.1.flatMap enc := by
  rintro ⟨l, hl⟩ ⟨l', hl'⟩ r r' heq
  rw [List.append_assoc, List.append_assoc] at heq
  obtain ⟨hcount, hrest⟩ := hlen ⟨_, hl⟩ ⟨_, hl'⟩ _ _ heq
  obtain ⟨rfl, hr⟩ := h.flatMap (Fin.mk.inj hcount) hrest
  exact ⟨rfl, hr⟩

end SelfDelimiting

/-! ### Numbers -/

/-- The low `w` bytes of a number, least significant first. -/
def leBytes (w n : ℕ) : List UInt8 :=
  match w with
  | 0 => []
  | w + 1 => UInt8.ofNat n :: leBytes w (n / 256)

theorem length_leBytes (w n : ℕ) : (leBytes w n).length = w := by
  induction w generalizing n with
  | zero => rfl
  | succ w ih => rw [leBytes, List.length_cons, ih]

/-- Numbers that fit are told apart by their bytes. -/
theorem leBytes_injective {w a b : ℕ} (ha : a < 256 ^ w) (hb : b < 256 ^ w)
    (h : leBytes w a = leBytes w b) : a = b := by
  induction w generalizing a b with
  | zero => omega
  | succ w ih =>
    obtain ⟨hlow, hhigh⟩ := List.cons.inj h
    have hmod : a % 256 = b % 256 := by
      have := congrArg UInt8.toNat hlow
      simpa using this
    have hpow : 256 ^ (w + 1) = 256 * 256 ^ w := by ring
    have hdiv := ih (by omega) (by omega) hhigh
    omega

theorem selfDelimiting_leBytes {w bound : ℕ} (hbound : bound ≤ 256 ^ w) :
    SelfDelimiting fun n : Fin bound => leBytes w n := by
  refine .of_length w (fun n => length_leBytes w n) fun a b hab => Fin.ext ?_
  exact leBytes_injective (by omega) (by omega) hab

/-! ### Texts -/

theorem toList_loop_eq (bytes : ByteArray) (n : ℕ) {i : ℕ} (hn : bytes.size - i = n)
    (front : List UInt8) :
    ByteArray.toList.loop bytes i front = front.reverse ++ bytes.data.toList.drop i := by
  induction n generalizing i front with
  | zero =>
    have hdrop : bytes.data.toList.drop i = [] :=
      List.drop_eq_nil_of_le (Nat.sub_eq_zero_iff_le.1 hn)
    rw [ByteArray.toList.loop, if_neg (by omega), hdrop, List.append_nil]
  | succ n ih =>
    have hlt : i < bytes.data.toList.length := by
      have hsize : bytes.size = bytes.data.toList.length := rfl
      omega
    have hget : bytes.get! i = bytes.data.toList[i] := by
      change bytes.data[i]! = _
      rw [getElem!_pos bytes.data i hlt, Array.getElem_toList]
    rw [ByteArray.toList.loop, if_pos (by omega), ih (by omega), hget, List.reverse_cons,
      List.append_assoc, List.singleton_append, ← List.drop_eq_getElem_cons hlt]

/-- The bytes of a text. -/
theorem toList_toUTF8 (s : String) : s.toUTF8.toList = s.toByteArray.data.toList :=
  toList_loop_eq s.toUTF8 _ rfl []

theorem length_toUTF8 (s : String) : s.toUTF8.toList.length = s.utf8ByteSize := by
  rw [toList_toUTF8]
  rfl

theorem toUTF8_injective {s t : String} (h : s.toUTF8.toList = t.toUTF8.toList) : s = t := by
  rw [toList_toUTF8, toList_toUTF8] at h
  exact String.toByteArray_inj.1 (ByteArray.ext (Array.ext' h))

end Mise.Lib
