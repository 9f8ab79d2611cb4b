/-
# Quoted text

A quoted text is read from its front: there stands a unit that says some
symbols, or the end of the quotation, or what cannot be read.  `readQuoted`
goes on until the end.  A writer that puts every symbol in a unit of its own is
read back (`readQuoted_flatMap`), whatever follows, as long as the end is
recognised in front of it.
-/

import Mathlib.Data.List.Basic

namespace Mise.Lib

/-- What stands at the front of a quoted text, and the text behind it. -/
inductive Front (α β : Type) where
  | reads (symbols : List β) (rest : List α)
  | ends (rest : List α)
  | fails

variable {α β γ : Type} {front : List α → Front α β}

/-- The symbols up to the end of a quotation, and the text behind it.  A unit
that takes no text is not read. -/
def readQuoted (front : List α → Front α β) (text : List α) : Option (List β × List α) :=
  match front text with
  | .fails => none
  | .ends rest => some ([], rest)
  | .reads symbols rest =>
    if _ : rest.length < text.length then
      (readQuoted front rest).map fun p => (symbols ++ p.1, p.2)
    else none
termination_by text.length

/-- Symbols in front of what is read after them. -/
def prepend (symbols : List β) (read : Option (List β × γ)) : Option (List β × γ) :=
  read.map fun p => (symbols ++ p.1, p.2)

@[simp] theorem prepend_some (symbols read : List β) (rest : γ) :
    prepend symbols (some (read, rest)) = some (symbols ++ read, rest) := rfl

theorem prepend_prepend (a b : List β) (read : Option (List β × γ)) :
    prepend a (prepend b read) = prepend (a ++ b) read := by
  cases read with
  | none => rfl
  | some p => rw [prepend_some, prepend_some, prepend_some, List.append_assoc]

/-- Exactly the symbols in front are read where none are read behind them. -/
theorem prepend_eq_some_iff {symbols : List β} {read : Option (List β × γ)} {rest : γ} :
    prepend symbols read = some (symbols, rest) ↔ read = some ([], rest) := by
  cases read with
  | none => exact ⟨fun h => (nomatch h), fun h => nomatch h⟩
  | some p =>
    obtain ⟨read, rest'⟩ := p
    rw [prepend_some, Option.some.injEq, Prod.mk.injEq, List.append_right_eq_self,
      Option.some.injEq, Prod.mk.injEq]

theorem prepend_cons_ne_some_nil (b : β) (symbols : List β) (read : Option (List β × γ))
    (rest : γ) : prepend (b :: symbols) read ≠ some ([], rest) := by
  cases read with
  | none => exact (Option.some_ne_none _).symm
  | some p => exact fun h => absurd (Prod.mk.inj (Option.some.inj h)).1 (List.cons_ne_nil _ _)

theorem readQuoted_of_fails {text : List α} (h : front text = .fails) :
    readQuoted front text = none := by
  rw [readQuoted, h]

theorem readQuoted_of_ends {text rest : List α} (h : front text = .ends rest) :
    readQuoted front text = some ([], rest) := by
  rw [readQuoted, h]

/-- A unit is read, and then the text behind it. -/
theorem readQuoted_of_reads {text rest : List α} {symbols : List β}
    (h : front text = .reads symbols rest) (hlength : rest.length < text.length) :
    readQuoted front text = prepend symbols (readQuoted front rest) := by
  rw [readQuoted, h]
  exact dif_pos hlength

/-- **Symbols that are written one by one are read one by one.** -/
theorem readQuoted_append {write : β → List α} {v : List β}
    (hread : ∀ b ∈ v, write b ≠ [] ∧ ∀ rest, front (write b ++ rest) = .reads [b] rest)
    (rest : List α) :
    readQuoted front (v.flatMap write ++ rest) = prepend v (readQuoted front rest) := by
  induction v with
  | nil =>
    rw [List.flatMap_nil, List.nil_append]
    cases readQuoted front rest with
    | none => rfl
    | some p => rfl
  | cons b v ih =>
    obtain ⟨hne, hb⟩ := hread b List.mem_cons_self
    have hlength : (v.flatMap write ++ rest).length <
        (write b ++ (v.flatMap write ++ rest)).length := by
      have := List.length_pos_iff.2 hne
      rw [@List.length_append _ (write b)]
      omega
    rw [List.flatMap_cons, List.append_assoc, readQuoted_of_reads (hb _) hlength,
      ih fun c hc => hread c (List.mem_cons_of_mem b hc), prepend_prepend, List.singleton_append]

/-- **A quotation is read back exactly where its end is one.** -/
theorem readQuoted_append_eq_iff {write : β → List α} {v : List β}
    (hread : ∀ b ∈ v, write b ≠ [] ∧ ∀ rest, front (write b ++ rest) = .reads [b] rest)
    {text rest : List α} : readQuoted front (v.flatMap write ++ text) = some (v, rest) ↔
      readQuoted front text = some ([], rest) := by
  rw [readQuoted_append hread, prepend_eq_some_iff]

/-- **A quotation is read back**, with what follows its end. -/
theorem readQuoted_flatMap {write : β → List α} {v : List β}
    (hread : ∀ b ∈ v, write b ≠ [] ∧ ∀ rest, front (write b ++ rest) = .reads [b] rest)
    {close rest : List α} (hclose : front (close ++ rest) = .ends rest) :
    readQuoted front (v.flatMap write ++ (close ++ rest)) = some (v, rest) := by
  rw [readQuoted_append hread, readQuoted_of_ends hclose, prepend_some, List.append_nil]

/-- What is read from a quotation stands in it, where this holds of its units. -/
theorem subset_of_readQuoted {front : List α → Front α α} {text read rest : List α}
    (hreads : ∀ text symbols rest, front text = .reads symbols rest →
      symbols ⊆ text ∧ rest ⊆ text)
    (hends : ∀ text rest, front text = .ends rest → rest ⊆ text)
    (h : readQuoted front text = some (read, rest)) : read ⊆ text ∧ rest ⊆ text := by
  fun_induction readQuoted front text generalizing read with
  | case1 text hfront => exact nomatch h
  | case2 text rest' hfront =>
    obtain ⟨rfl, rfl⟩ := Prod.mk.inj (Option.some.inj h)
    exact ⟨List.nil_subset _, hends _ _ hfront⟩
  | case3 text symbols rest' hfront hlength ih =>
    obtain ⟨⟨read', t⟩, hread, heq⟩ := Option.map_eq_some_iff.1 h
    obtain ⟨rfl, rfl⟩ := Prod.mk.inj heq
    obtain ⟨hsymbols, hrest⟩ := hreads _ _ _ hfront
    obtain ⟨hread', ht⟩ := ih hread
    exact ⟨List.append_subset.2 ⟨hsymbols, List.Subset.trans hread' hrest⟩,
      List.Subset.trans ht hrest⟩
  | case4 text symbols rest' hfront hlength => exact nomatch h

end Mise.Lib
