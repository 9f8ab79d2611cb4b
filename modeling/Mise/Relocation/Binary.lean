/-
# Placeholders in files

`mise-brew-relocation/src/lib.rs`: the placeholders that a poured bottle holds
are replaced by real paths.  Text gets plain replacement (`replaceText`); in a
binary a string is rewritten where it stands (`replaceInBinary`), in the slot of
its bytes and the NULs behind them, one of which must stay.

Each pass of `replaceInBinary` looks for its placeholder from `search_from` on
and neither reads nor writes what is in front; `replaceRest` is the loop over
what is left of the content, `rest`.
-/

import Mise.Lib.Memmem
import Mise.Lib.Slots

namespace Mise.Relocation

open Lib

/-- A placeholder and what it stands for.  Placeholders are text: they are not
empty and have no NUL. -/
structure Replacement where
  placeholder : List UInt8
  value : List UInt8
  placeholder_ne : placeholder ≠ []
  placeholder_text : 0 ∉ placeholder

/-- The bytes of ASCII text. -/
def ascii (chars : List Char) : List UInt8 := chars.map fun c => UInt8.ofNat c.toNat

/-- The replacements of Homebrew's bottles, for the prefix and the repository
that mise installs at. -/
def standardReplacements (brewPrefix repository : List UInt8) (macos : Bool) : List Replacement :=
  [ { placeholder := ascii "@@HOMEBREW_PREFIX@@".toList
      value := brewPrefix
      placeholder_ne := by decide
      placeholder_text := by decide },
    { placeholder := ascii "@@HOMEBREW_CELLAR@@".toList
      value := brewPrefix ++ ascii "/Cellar".toList
      placeholder_ne := by decide
      placeholder_text := by decide },
    { placeholder := ascii "@@HOMEBREW_REPOSITORY@@".toList
      value := repository
      placeholder_ne := by decide
      placeholder_text := by decide },
    { placeholder := ascii "@@HOMEBREW_LIBRARY@@".toList
      value := repository ++ ascii "/Library".toList
      placeholder_ne := by decide
      placeholder_text := by decide },
    { placeholder := ascii "@@HOMEBREW_PERL@@".toList
      value :=
        if macos then ascii "/usr/bin/perl".toList
        else brewPrefix ++ ascii "/opt/perl/bin/perl".toList
      placeholder_ne := by decide
      placeholder_text := by decide },
    { placeholder := ascii "@@HOMEBREW_JAVA@@".toList
      value :=
        if macos then
          brewPrefix ++ ascii "/opt/openjdk/libexec/openjdk.jdk/Contents/Home".toList
        else brewPrefix ++ ascii "/opt/openjdk/libexec".toList
      placeholder_ne := by decide
      placeholder_text := by decide } ]

/-- Whether a placeholder occurs in the content. -/
def containsAnyPlaceholder (content : List UInt8) (replacements : List Replacement) : Bool :=
  replacements.any fun r => (memmem content r.placeholder).isSome

/-- Plain replacement for text files. -/
def replaceText (content : List UInt8) (replacements : List Replacement) : List UInt8 :=
  replacements.foldl (fun out r => replaceAll r.placeholder_ne r.value out) content

/-- The refusal of a replacement that does not fit its slot: the placeholder, the
bytes that are needed with the terminator, and the bytes there are. -/
structure DoesNotFit where
  placeholder : List UInt8
  needed : ℕ
  slot : ℕ
  deriving DecidableEq

/-- The bytes of a buffer that are not NUL. -/
def textBytes (buf : List UInt8) : ℕ := buf.countP (· ≠ 0)

@[simp] theorem textBytes_append (a b : List UInt8) :
    textBytes (a ++ b) = textBytes a + textBytes b := List.countP_append

@[simp] theorem textBytes_replicate (n : ℕ) : textBytes (List.replicate n 0) = 0 := by
  rw [textBytes, List.countP_replicate, if_neg (by decide)]

theorem textBytes_pos {buf : List UInt8} (hne : buf ≠ []) (h : 0 ∉ buf) : 0 < textBytes buf := by
  obtain ⟨b, hb⟩ := List.exists_mem_of_ne_nil buf hne
  exact List.countP_pos_iff.2 ⟨b, hb, decide_eq_true fun hzero => h (hzero ▸ hb)⟩

/-- A text without terminators at the front of a buffer is in its front string. -/
theorem prefix_frontText {p buf : List UInt8} (hnul : 0 ∉ p) (h : p <+: buf) :
    p <+: frontText 0 buf := by
  have happend := front_append 0 buf
  cases hpad : frontPad 0 buf with
  | nil =>
    rw [hpad, behindFront_eq_nil_of_frontPad hpad, List.append_nil, List.append_nil] at happend
    rwa [happend]
  | cons b pad =>
    have hb : b = 0 := by
      have hmem : b ∈ frontPad 0 buf := by
        rw [hpad]
        exact List.mem_cons_self
      rw [frontPad_eq_replicate] at hmem
      exact List.eq_of_mem_replicate hmem
    rw [hpad, hb, List.cons_append] at happend
    rw [← happend] at h
    exact prefix_of_prefix_append_cons hnul h

/-- A slot in which a placeholder stands has text. -/
theorem textBytes_behindFront_lt {r : Replacement} {rest : List UInt8} {start : ℕ}
    (h : memmem rest r.placeholder = some start) (n : ℕ) :
    textBytes (List.replicate n 0 ++ behindFront 0 (rest.drop start)) < textBytes rest := by
  have hfront := prefix_frontText r.placeholder_text (prefix_drop_of_memmem h)
  have hne : frontText 0 (rest.drop start) ≠ [] := fun hnil =>
    r.placeholder_ne (List.prefix_nil.1 (hnil ▸ hfront))
  have hpos := textBytes_pos hne (nul_notMem_frontText 0 _)
  have hrest := congrArg textBytes (List.take_append_drop start rest)
  have hdrop := congrArg textBytes (front_append 0 (rest.drop start))
  rw [textBytes_append] at hrest hdrop
  rw [textBytes_append] at hdrop
  rw [textBytes_append, textBytes_replicate]
  omega

/-- One kind of placeholder, from `search_from` on: whether anything changed is
returned with the content. -/
def replaceRest (r : Replacement) (rest : List UInt8) : Except DoesNotFit (List UInt8 × Bool) :=
  match _ : memmem rest r.placeholder with
  | none => .ok (rest, false)
  | some start =>
    -- the string that contains the placeholder, and the NULs behind it
    let old := frontText 0 (rest.drop start)
    let slot := old.length + (frontPad 0 (rest.drop start)).length
    let new := r.value ++ old.drop r.placeholder.length
    if new.length + 1 > slot then .error ⟨r.placeholder, new.length + 1, slot⟩
    else do
      let (behind, _) ← replaceRest r
        (List.replicate (slot - new.length) 0 ++ behindFront 0 (rest.drop start))
      .ok (rest.take start ++ new ++ behind, true)
termination_by textBytes rest
decreasing_by exact textBytes_behindFront_lt ‹_› _

/-- One turn of the loop over the kinds of placeholders. -/
def replaceKind (state : List UInt8 × Bool) (r : Replacement) :
    Except DoesNotFit (List UInt8 × Bool) := do
  let (content, replaced) ← replaceRest r state.1
  .ok (content, state.2 || replaced)

/-- In-place replacement in a binary: every kind of placeholder in turn.  Returns
whether anything changed. -/
def replaceInBinary (content : List UInt8) (replacements : List Replacement) :
    Except DoesNotFit (List UInt8 × Bool) :=
  replacements.foldlM replaceKind (content, false)

end Mise.Relocation
