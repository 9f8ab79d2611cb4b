/-
# Characters and text as Rust's standard library classifies them

`char::is_whitespace` is the Unicode property `White_Space` and
`char::is_control` the category `Cc`; both are finite lists of code points.
`str::trim` removes white space at both ends.
-/

import Mathlib.Data.List.Basic

namespace Mise

/-- `char::is_whitespace`. -/
def isWhitespace (c : Char) : Bool :=
  (0x9 ≤ c.toNat && c.toNat ≤ 0xD) || c.toNat == 0x20 || c.toNat == 0x85 || c.toNat == 0xA0 ||
    c.toNat == 0x1680 || (0x2000 ≤ c.toNat && c.toNat ≤ 0x200A) || c.toNat == 0x2028 ||
    c.toNat == 0x2029 || c.toNat == 0x202F || c.toNat == 0x205F || c.toNat == 0x3000

/-- `char::is_control`. -/
def isControl (c : Char) : Bool :=
  c.toNat ≤ 0x1F || (0x7F ≤ c.toNat && c.toNat ≤ 0x9F)

/-- `str::trim`. -/
def trim (s : String) : String :=
  String.ofList ((s.toList.dropWhile isWhitespace).reverse.dropWhile isWhitespace).reverse

/-- `str::starts_with` for a text. -/
def startsWith (s start : String) : Bool := start.toList.isPrefixOf s.toList

/-- `str::split_once`. -/
def splitOnce (c : Char) : List Char → Option (List Char × List Char)
  | [] => none
  | d :: ds => if d = c then some ([], ds) else (splitOnce c ds).map fun p => (d :: p.1, p.2)

/-- `str::rsplit_once`. -/
def rsplitOnce (c : Char) (cs : List Char) : Option (List Char × List Char) :=
  (splitOnce c cs.reverse).map fun p => (p.2.reverse, p.1.reverse)

theorem splitOnce_eq_some {c : Char} {cs a b : List Char} (h : splitOnce c cs = some (a, b)) :
    cs = a ++ c :: b := by
  induction cs generalizing a with
  | nil => exact absurd h.symm (Option.some_ne_none _)
  | cons d ds ih =>
    rw [splitOnce] at h
    split at h
    · case isTrue hd =>
      obtain ⟨rfl, rfl⟩ := Prod.mk.inj (Option.some.inj h)
      rw [hd]
      rfl
    · obtain ⟨⟨a', b'⟩, hsplit, heq⟩ := Option.map_eq_some_iff.1 h
      obtain ⟨rfl, rfl⟩ := Prod.mk.inj heq
      rw [ih hsplit]
      rfl

/-- The text in front of the first occurrence, and the one behind it. -/
theorem splitOnce_append {c : Char} {a : List Char} (ha : c ∉ a) (b : List Char) :
    splitOnce c (a ++ c :: b) = some (a, b) := by
  induction a with
  | nil => exact if_pos rfl
  | cons d a ih =>
    rw [List.mem_cons, not_or] at ha
    rw [List.cons_append, splitOnce, if_neg (Ne.symm ha.1), ih ha.2]
    rfl

theorem rsplitOnce_eq_some {c : Char} {cs a b : List Char} (h : rsplitOnce c cs = some (a, b)) :
    cs = a ++ c :: b := by
  obtain ⟨⟨x, y⟩, hsplit, heq⟩ := Option.map_eq_some_iff.1 h
  obtain ⟨rfl, rfl⟩ := Prod.mk.inj heq
  have hrev := congrArg List.reverse (splitOnce_eq_some hsplit)
  rwa [List.reverse_reverse, List.reverse_append, List.reverse_cons, List.append_assoc,
    List.singleton_append] at hrev

theorem notMem_of_splitOnce {c : Char} {cs a b : List Char} (h : splitOnce c cs = some (a, b)) :
    c ∉ a := by
  induction cs generalizing a with
  | nil => exact nomatch h
  | cons d ds ih =>
    rw [splitOnce] at h
    split at h
    · obtain ⟨rfl, -⟩ := Prod.mk.inj (Option.some.inj h)
      exact List.not_mem_nil
    · case isFalse hd =>
      obtain ⟨⟨a', b'⟩, hsplit, heq⟩ := Option.map_eq_some_iff.1 h
      obtain ⟨rfl, rfl⟩ := Prod.mk.inj heq
      rw [List.mem_cons, not_or]
      exact ⟨fun hc => hd hc.symm, ih hsplit⟩

theorem splitOnce_eq_none {c : Char} {cs : List Char} : splitOnce c cs = none ↔ c ∉ cs := by
  induction cs with
  | nil => simp [splitOnce]
  | cons d ds ih =>
    rw [splitOnce]
    split
    · case isTrue h => simp [h]
    · case isFalse h =>
      rw [Option.map_eq_none_iff, ih, List.mem_cons, not_or]
      exact ⟨fun hd => ⟨fun hc => h hc.symm, hd⟩, And.right⟩

theorem rsplitOnce_iff {c : Char} {cs a b : List Char} :
    rsplitOnce c cs = some (a, b) ↔ cs = a ++ c :: b ∧ c ∉ b := by
  constructor
  · intro h
    refine ⟨rsplitOnce_eq_some h, ?_⟩
    obtain ⟨⟨a', b'⟩, hsplit, heq⟩ := Option.map_eq_some_iff.1 h
    obtain ⟨rfl, rfl⟩ := Prod.mk.inj heq
    rw [List.mem_reverse]
    exact notMem_of_splitOnce hsplit
  · rintro ⟨rfl, hb⟩
    rw [rsplitOnce, List.reverse_append, List.reverse_cons, List.append_assoc,
      List.singleton_append, splitOnce_append (by rwa [List.mem_reverse])]
    simp

end Mise
