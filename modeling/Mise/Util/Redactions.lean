/-
# Redaction

`crates/mise-util/src/redactions.rs`: a `Redactor` hides every occurrence of its
patterns in a text.  The occurrences are listed by an Aho–Corasick automaton or,
where none could be built, by `naive_spans`; `replace_spans` sorts the spans,
merges those that overlap and puts `[redacted]` in place of each group.

The automaton is a parameter (the `aho-corasick` crate); what it reports is the
hypothesis `ReportsAll`.  A slice outside the boundaries of characters panics,
which is `none` here and is proved not to happen.
-/

import Mathlib.Data.List.Sort
import Mise.Lib.Spans
import Mise.Lib.Utf8

namespace Mise

open Lib
open String (utf8Len)

/-! ### The search -/

/-- `str::find`: the offset of the first occurrence. -/
def find (p : List Char) : List Char → Option ℕ
  | [] => if p = [] then some 0 else none
  | c :: cs => if p <+: c :: cs then some 0 else (find p cs).map (c.utf8Size + ·)

/-- The `while let` of `naive_spans` for one pattern, from offset `start` on. -/
def naiveSpansOf (input p : List Char) : ℕ → ℕ → Option (List (ℕ × ℕ))
  | 0, _ => none
  | fuel + 1, start => do
    let rest ← slice input start (utf8Len input)
    match find p rest with
    | none => some []
    | some i =>
      let found ← slice input (start + i) (utf8Len input)
      -- advance one char so the next search stays on a boundary
      let spans ← naiveSpansOf input p fuel (start + i + found.head?.elim 1 Char.utf8Size)
      some ((start + i, start + i + utf8Len p) :: spans)

/-- `naive_spans`.  Each turn of its loop advances, so that one turn per byte
and the last one are enough. -/
def naiveSpans (input : List Char) : List (List Char) → Option (List (ℕ × ℕ))
  | [] => some []
  | p :: patterns => do
    let spans ← naiveSpansOf input p (utf8Len input + 1) 0
    let more ← naiveSpans input patterns
    some (spans ++ more)

/-! ### The replacement -/

/-- `[redacted]`. -/
def marker : List Char := "[redacted]".toList

/-- The order of pairs. -/
def SpanLe (s t : ℕ × ℕ) : Prop := s.1 < t.1 ∨ s.1 = t.1 ∧ s.2 ≤ t.2

instance : DecidableRel SpanLe := fun _ _ => inferInstanceAs (Decidable (_ ∨ _))

/-- The loop of `replace_spans`, with the spans left, the text so far, the
position it reaches and the current span. -/
def replaceSpansFrom (input : List Char) :
    List (ℕ × ℕ) → List Char → ℕ → ℕ × ℕ → Option (List Char)
  | [], out, pos, cur => do
    let gap ← slice input pos cur.1
    let rest ← slice input cur.2 (utf8Len input)
    some (out ++ gap ++ marker ++ rest)
  | (start, stop) :: spans, out, pos, cur =>
    if start < cur.2 then replaceSpansFrom input spans out pos (cur.1, max cur.2 stop)
    else do
      let gap ← slice input pos cur.1
      replaceSpansFrom input spans (out ++ gap ++ marker) cur.2 (start, stop)

/-- `replace_spans`. -/
def replaceSpans (input : List Char) (spans : List (ℕ × ℕ)) : Option (List Char) :=
  match spans.insertionSort SpanLe with
  | [] => some input
  | cur :: spans => replaceSpansFrom input spans [] 0 cur

/-! ### The redactor -/

/-- `AhoCorasick`, known by what its `find_overlapping_iter` lists. -/
structure AhoCorasick where
  findOverlappingIter : List Char → List (ℕ × ℕ)

/-- `Redactor`; its constructors keep no empty pattern. -/
structure Redactor where
  patterns : List (List Char)
  nonempty : ∀ p ∈ patterns, p ≠ []
  automaton : Option AhoCorasick

namespace Redactor

/-- `Redactor::new`, where `build` is `AhoCorasick::new`. -/
def new (build : List (List Char) → Option AhoCorasick) (patterns : List (List Char)) :
    Redactor where
  patterns := (patterns.filter (· ≠ [])).eraseDups
  nonempty p hp := by
    rw [List.mem_eraseDups, List.mem_filter] at hp
    exact of_decide_eq_true hp.2
  automaton :=
    if (patterns.filter (· ≠ [])).eraseDups = [] then none
    else build (patterns.filter (· ≠ [])).eraseDups

/-- `Redactor::with_additional`. -/
def withAdditional (build : List (List Char) → Option AhoCorasick) (r : Redactor)
    (additional : List (List Char)) : Redactor :=
  new build ((r.patterns ++ additional.filter (· ≠ [])).eraseDups)

/-- `Redactor::redact`. -/
def redact (r : Redactor) (input : List Char) : Option (List Char) :=
  if r.patterns = [] then some input
  else do
    let spans ← match r.automaton with
      | some ac => some (ac.findOverlappingIter input)
      | none => naiveSpans input r.patterns
    replaceSpans input spans

end Redactor

/-! ### What redaction means -/

/-- The spans of the occurrences of the patterns among the bytes of the text. -/
def occurrences (patterns : List (List Char)) (input : List Char) : Set (ℕ × ℕ) :=
  {s | ∃ p ∈ patterns, p ≠ [] ∧ OccursAt input p s.1 ∧ s.2 = s.1 + utf8Len p}

/-- What `find_overlapping_iter` is documented to report: all occurrences, in
any order. -/
def ReportsAll (build : List (List Char) → Option AhoCorasick) : Prop :=
  ∀ patterns, (∀ p ∈ patterns, p ≠ []) → ∀ ac, build patterns = some ac →
    ∀ input s, s ∈ ac.findOverlappingIter input ↔ s ∈ occurrences patterns input

/-- The spans of the second parts of pieces that begin at an offset. -/
def hiddenSpans : ℕ → List (List Char × List Char) → List (ℕ × ℕ)
  | _, [] => []
  | pos, (gap, hidden) :: pieces =>
    (pos + utf8Len gap, pos + utf8Len gap + utf8Len hidden) ::
      hiddenSpans (pos + utf8Len gap + utf8Len hidden) pieces

/-- **What redaction is for**: the text is cut into pieces that are kept and
pieces that are hidden, the hidden ones are the maximal groups of overlapping
spans, and each of them leaves one marker. -/
def IsRedaction (spans : Set (ℕ × ℕ)) (input out : List Char) : Prop :=
  ∃ pieces rest,
    input = pieces.flatMap (fun p => p.1 ++ p.2) ++ rest ∧
    out = pieces.flatMap (fun p => p.1 ++ marker) ++ rest ∧
    (∀ g, g ∈ hiddenSpans 0 pieces ↔ IsGroup spans g) ∧
    ∀ i, (∃ g ∈ hiddenSpans 0 pieces, Inside i g) ↔ ∃ s ∈ spans, Inside i s

/-! ### The naive search lists every occurrence -/

/-- A slice from a boundary to the end. -/
theorem slice_end (x y : List Char) : slice (x ++ y) (utf8Len x) (utf8Len (x ++ y)) = some y := by
  have h := slice_append x y []
  rwa [List.append_nil, ← String.utf8Len_append] at h

theorem find_eq_none {p cs : List Char} (h : find p cs = none) (a b : List Char) :
    cs ≠ a ++ (p ++ b) := by
  induction cs generalizing a with
  | nil =>
    intro heq
    have hp := (List.append_eq_nil_iff.1 (List.append_eq_nil_iff.1 heq.symm).2).1
    rw [find, if_pos hp] at h
    exact Option.some_ne_none _ h
  | cons c cs ih =>
    intro heq
    rw [find] at h
    split at h
    · exact Option.some_ne_none _ h
    · case isFalse hpre =>
      cases a with
      | nil => exact hpre ⟨b, heq.symm⟩
      | cons d a => exact ih (Option.map_eq_none_iff.1 h) a (List.cons.inj heq).2

/-- What is found is an occurrence, and all others come after it. -/
theorem find_eq_some {p cs : List Char} {i : ℕ} (h : find p cs = some i) :
    ∃ a b, cs = a ++ (p ++ b) ∧ utf8Len a = i ∧ ∀ a' b', cs = a' ++ (p ++ b') → a <+: a' := by
  induction cs generalizing i with
  | nil =>
    rw [find] at h
    split at h
    · case isTrue hp =>
      exact ⟨[], [], by rw [hp]; rfl, Option.some.inj h, fun _ _ _ => List.nil_prefix⟩
    · exact absurd h.symm (Option.some_ne_none i)
  | cons c cs ih =>
    rw [find] at h
    split at h
    · case isTrue hpre =>
      obtain ⟨b, hb⟩ := hpre
      exact ⟨[], b, hb.symm, Option.some.inj h, fun _ _ _ => List.nil_prefix⟩
    · case isFalse hpre =>
      obtain ⟨j, hj, rfl⟩ := Option.map_eq_some_iff.1 h
      obtain ⟨a, b, rfl, rfl, hfirst⟩ := ih hj
      refine ⟨c :: a, b, rfl, by rw [String.utf8Len_cons, Nat.add_comm], fun a' b' heq => ?_⟩
      cases a' with
      | nil => exact absurd ⟨b', heq.symm⟩ hpre
      | cons d a' =>
        obtain ⟨rfl, htail⟩ := List.cons.inj heq
        exact (List.prefix_cons_inj c).2 (hfirst a' b' htail)

/-- The loop from a boundary on lists the occurrences that begin there or later. -/
theorem naiveSpansOf_spec {p : List Char} (hp : p ≠ []) (fuel : ℕ) (x y : List Char)
    (hfuel : utf8Len y < fuel) : ∃ spans, naiveSpansOf (x ++ y) p fuel (utf8Len x) = some spans ∧
      ∀ s, s ∈ spans ↔ ∃ a b, y = a ++ (p ++ b) ∧
        s = (utf8Len x + utf8Len a, utf8Len x + utf8Len a + utf8Len p) := by
  induction fuel generalizing x y with
  | zero => omega
  | succ fuel ih =>
    cases hfind : find p y with
    | none =>
      refine ⟨[], by simp only [naiveSpansOf, slice_end, hfind, Option.bind_eq_bind,
        Option.bind_some], fun s => ?_⟩
      simp only [List.not_mem_nil, false_iff]
      rintro ⟨a, b, heq, _⟩
      exact find_eq_none hfind a b heq
    | some i =>
      obtain ⟨a, b, rfl, rfl, hfirst⟩ := find_eq_some hfind
      obtain ⟨c, p', hcp⟩ := List.exists_cons_of_ne_nil hp
      have hsplit : x ++ (a ++ (p ++ b)) = (x ++ a ++ [c]) ++ (p' ++ b) := by
        rw [hcp]
        simp
      have hfound : slice (x ++ (a ++ (p ++ b))) (utf8Len x + utf8Len a)
          (utf8Len (x ++ (a ++ (p ++ b)))) = some (c :: (p' ++ b)) := by
        have h := slice_end (x ++ a) (p ++ b)
        rw [String.utf8Len_append, List.append_assoc] at h
        rw [h, hcp]
        rfl
      have hnext : utf8Len x + utf8Len a + c.utf8Size = utf8Len (x ++ a ++ [c]) := by
        simp only [String.utf8Len_append, String.utf8Len_cons, String.utf8Len_nil, Nat.zero_add]
      have hless : utf8Len (p' ++ b) < fuel := by
        have hpos := c.utf8Size_pos
        rw [hcp] at hfuel
        simp only [String.utf8Len_append, String.utf8Len_cons, List.cons_append] at hfuel ⊢
        omega
      obtain ⟨spans, hspans, hmem⟩ := ih (x ++ a ++ [c]) (p' ++ b) hless
      refine ⟨(utf8Len x + utf8Len a, utf8Len x + utf8Len a + utf8Len p) :: spans, ?_, fun s => ?_⟩
      · rw [naiveSpansOf, slice_end]
        simp only [Option.bind_eq_bind, Option.bind_some, hfind, hfound, List.head?_cons,
          Option.elim_some]
        rw [hnext, hsplit, hspans, Option.bind_some]
      · rw [List.mem_cons, hmem, ← hnext]
        constructor
        · rintro (rfl | ⟨a', b', htail, rfl⟩)
          · exact ⟨a, b, rfl, rfl⟩
          · refine ⟨a ++ c :: a', b', ?_, ?_⟩
            · rw [hcp, List.cons_append, htail, ← hcp]
              simp
            · simp only [String.utf8Len_append, String.utf8Len_cons, Prod.mk.injEq]
              omega
        · rintro ⟨a', b', heq, rfl⟩
          -- the occurrence is the one found, or it begins at a later character
          obtain ⟨d, rfl⟩ := hfirst a' b' heq
          cases d with
          | nil => exact .inl (by rw [List.append_nil])
          | cons e d =>
            rw [List.append_assoc, List.append_cancel_left_eq, hcp, List.cons_append, List.cons_append]
              at heq
            obtain ⟨rfl, htail⟩ := List.cons.inj heq
            refine .inr ⟨d, b', by rw [hcp]; exact htail, ?_⟩
            simp only [String.utf8Len_append, String.utf8Len_cons, Prod.mk.injEq]
            omega

/-- **The naive search lists the occurrences**, overlapping ones included. -/
theorem naiveSpans_spec (input : List Char) {patterns : List (List Char)}
    (hne : ∀ p ∈ patterns, p ≠ []) : ∃ spans, naiveSpans input patterns = some spans ∧
      ∀ s, s ∈ spans ↔ s ∈ occurrences patterns input := by
  induction patterns with
  | nil => exact ⟨[], rfl, fun s => by simp [occurrences]⟩
  | cons p patterns ih =>
    have hp := hne p List.mem_cons_self
    obtain ⟨more, hmore, hmem⟩ := ih fun q hq => hne q (List.mem_cons_of_mem _ hq)
    obtain ⟨spans, hspans, hmem'⟩ :=
      naiveSpansOf_spec hp (utf8Len input + 1) [] input (Nat.lt_succ_self _)
    rw [String.utf8Len_nil, List.nil_append] at hspans
    refine ⟨spans ++ more, by
      simp only [naiveSpans, hspans, hmore, Option.bind_eq_bind, Option.bind_some], fun s => ?_⟩
    have hone : (∃ a b, input = a ++ (p ++ b) ∧ s = (utf8Len [] + utf8Len a,
        utf8Len [] + utf8Len a + utf8Len p)) ↔ OccursAt input p s.1 ∧ s.2 = s.1 + utf8Len p := by
      rw [occursAt_iff_exists_append hp]
      simp only [String.utf8Len_nil, Nat.zero_add]
      constructor
      · rintro ⟨a, b, heq, rfl⟩
        exact ⟨⟨a, b, heq, rfl⟩, rfl⟩
      · rintro ⟨⟨a, b, heq, hstart⟩, hstop⟩
        exact ⟨a, b, heq, Prod.ext hstart.symm (by rw [hstop, hstart])⟩
    rw [List.mem_append, hmem', hone, hmem]
    simp [occurrences, hp]

/-! ### The replacement cuts out the groups -/

/-- Put a marker in place of each group, from a position on. -/
def cutGroups (input : List Char) : List (ℕ × ℕ) → List Char → ℕ → Option (List Char)
  | [], out, pos => (slice input pos (utf8Len input)).map (out ++ ·)
  | g :: gs, out, pos => do
    let gap ← slice input pos g.1
    cutGroups input gs (out ++ gap ++ marker) g.2

theorem replaceSpansFrom_eq (input : List Char) (spans : List (ℕ × ℕ)) (out : List Char) (pos : ℕ)
    (cur : ℕ × ℕ) :
    replaceSpansFrom input spans out pos cur = cutGroups input (mergeFrom cur spans) out pos := by
  induction spans generalizing out pos cur with
  | nil =>
    rw [replaceSpansFrom, mergeFrom, cutGroups]
    simp only [cutGroups, Option.map_eq_bind]
    rfl
  | cons s spans ih =>
    obtain ⟨start, stop⟩ := s
    rw [replaceSpansFrom, mergeFrom]
    split
    · exact ih _ _ _
    · simp only [cutGroups, ih]

theorem replaceSpans_eq (input : List Char) (spans : List (ℕ × ℕ)) :
    replaceSpans input spans = cutGroups input (groups (spans.insertionSort SpanLe)) [] 0 := by
  rw [replaceSpans]
  cases spans.insertionSort SpanLe with
  | nil =>
    have h := slice_end [] input
    rw [List.nil_append, String.utf8Len_nil] at h
    rw [groups, cutGroups, h]
    rfl
  | cons cur spans => exact replaceSpansFrom_eq input spans [] 0 cur

/-- The offset is the boundary of a character. -/
def IsBoundary (input : List Char) (i : ℕ) : Prop := ∃ a b, input = a ++ b ∧ utf8Len a = i

/-- A boundary after a prefix is one of the rest. -/
theorem IsBoundary.after {x y : List Char} {i : ℕ} (h : IsBoundary (x ++ y) i)
    (hle : utf8Len x ≤ i) : ∃ a b, y = a ++ b ∧ utf8Len x + utf8Len a = i := by
  obtain ⟨a, b, heq, rfl⟩ := h
  rcases List.append_eq_append_iff.1 heq with ⟨c, rfl, rfl⟩ | ⟨c, rfl, rfl⟩
  · exact ⟨c, b, rfl, by rw [String.utf8Len_append]⟩
  · refine ⟨[], c ++ y, ?_, ?_⟩
    · have hc : c = [] := by
        rw [String.utf8Len_append] at hle
        exact String.utf8Len_eq_zero.1 (by omega)
      rw [hc]
      rfl
    · rw [String.utf8Len_append] at hle ⊢
      rw [String.utf8Len_nil]
      omega

/-- The loop cuts out the groups, and what is between them stays. -/
theorem cutGroups_spec (gs : List (ℕ × ℕ)) (out x y : List Char)
    (hends : ∀ g ∈ gs, IsBoundary (x ++ y) g.1 ∧ IsBoundary (x ++ y) g.2)
    (hne : ∀ g ∈ gs, g.1 < g.2) (hord : gs.Pairwise fun g h => g.2 ≤ h.1)
    (hpos : ∀ g ∈ gs, utf8Len x ≤ g.1) :
    ∃ pieces rest, y = pieces.flatMap (fun p => p.1 ++ p.2) ++ rest ∧
      cutGroups (x ++ y) gs out (utf8Len x) =
        some (out ++ (pieces.flatMap (fun p => p.1 ++ marker) ++ rest)) ∧
      hiddenSpans (utf8Len x) pieces = gs := by
  induction gs generalizing out x y with
  | nil =>
    refine ⟨[], y, rfl, ?_, rfl⟩
    rw [cutGroups, slice_end]
    rfl
  | cons g gs ih =>
    obtain ⟨start, stop⟩ := g
    have hg := List.mem_cons_self (a := (start, stop)) (l := gs)
    obtain ⟨hgs, hord'⟩ := List.pairwise_cons.1 hord
    -- the gap before the group, then the group
    obtain ⟨gap, r, rfl, rfl⟩ := (hends _ hg).1.after (hpos _ hg)
    have hstop := (hends _ hg).2
    rw [← List.append_assoc] at hstop
    obtain ⟨hidden, y, rfl, hhidden⟩ := hstop.after (by
      rw [String.utf8Len_append]
      exact (hne _ hg).le)
    have hstop' : stop = utf8Len x + utf8Len gap + utf8Len hidden := by
      rw [← String.utf8Len_append]
      exact hhidden.symm
    subst hstop'
    have hcut : x ++ (gap ++ (hidden ++ y)) = (x ++ gap ++ hidden) ++ y := by simp
    have hlen : utf8Len x + utf8Len gap + utf8Len hidden = utf8Len (x ++ gap ++ hidden) := by
      simp only [String.utf8Len_append]
    obtain ⟨pieces, rest, hy, hout, hspans⟩ := ih (out ++ gap ++ marker) (x ++ gap ++ hidden) y
      (fun h hh => hcut ▸ hends h (List.mem_cons_of_mem _ hh))
      (fun h hh => hne h (List.mem_cons_of_mem _ hh)) hord'
      (fun h hh => hlen ▸ hgs h hh)
    refine ⟨(gap, hidden) :: pieces, rest, ?_, ?_, ?_⟩
    · rw [List.flatMap_cons, List.append_assoc, ← hy, List.append_assoc]
    · simp only [cutGroups, slice_append, Option.bind_eq_bind, Option.bind_some]
      rw [hlen, hcut, hout, List.flatMap_cons]
      simp only [List.append_assoc]
    · rw [hiddenSpans, hlen, hspans, ← hlen]

/-! ### Exactness -/

instance : Std.Total SpanLe := ⟨fun s t => by unfold SpanLe; omega⟩

instance : IsTrans (ℕ × ℕ) SpanLe := ⟨fun s t u => by unfold SpanLe; omega⟩

/-- Sorted occurrences can be scanned for groups. -/
theorem scannable_insertionSort {patterns : List (List Char)} {input : List Char}
    {spans : List (ℕ × ℕ)} (hmem : ∀ s, s ∈ spans ↔ s ∈ occurrences patterns input) :
    Scannable (spans.insertionSort SpanLe) where
  nonempty s hs := by
    obtain ⟨p, _, hp, _, hstop⟩ := (hmem s).1 ((List.mem_insertionSort SpanLe).1 hs)
    have := utf8Len_pos hp
    omega
  sorted := by
    refine (List.pairwise_insertionSort SpanLe spans).imp fun {s t} hst => ?_
    unfold SpanLe at hst
    omega

/-- Occurrences begin and end at boundaries of characters. -/
theorem isBoundary_of_mem_occurrences {patterns : List (List Char)} {input : List Char} {s : ℕ × ℕ}
    (hs : s ∈ occurrences patterns input) : IsBoundary input s.1 ∧ IsBoundary input s.2 := by
  obtain ⟨p, _, hp, hoccurs, hstop⟩ := hs
  obtain ⟨x, y, rfl, hx⟩ := (occursAt_iff_exists_append hp).1 hoccurs
  refine ⟨⟨x, p ++ y, rfl, hx⟩, ⟨x ++ p, y, by rw [List.append_assoc], ?_⟩⟩
  rw [String.utf8Len_append, hx, hstop]

/-- However the occurrences are listed, cutting them out is a redaction. -/
theorem replaceSpans_spec {patterns : List (List Char)} {input : List Char} {spans : List (ℕ × ℕ)}
    (hmem : ∀ s, s ∈ spans ↔ s ∈ occurrences patterns input) :
    ∃ out, replaceSpans input spans = some out ∧
      IsRedaction (occurrences patterns input) input out := by
  have hscan := scannable_insertionSort hmem
  have hsorted : ∀ s, s ∈ spans.insertionSort SpanLe ↔ s ∈ occurrences patterns input := by
    intro s
    rw [List.mem_insertionSort, hmem]
  have hset : {s | s ∈ spans.insertionSort SpanLe} = occurrences patterns input := Set.ext hsorted
  obtain ⟨pieces, rest, hinput, hout, hspans⟩ := cutGroups_spec
    (groups (spans.insertionSort SpanLe)) [] [] input
    (groups_ends fun s hs => isBoundary_of_mem_occurrences ((hsorted s).1 hs))
    (groups_nonempty hscan) (pairwise_groups hscan) (fun g _ => Nat.zero_le g.1)
  rw [String.utf8Len_nil, List.nil_append] at hout
  rw [String.utf8Len_nil] at hspans
  refine ⟨_, (replaceSpans_eq input spans).trans hout, pieces, rest, hinput, rfl, ?_, ?_⟩
  · intro g
    rw [hspans, mem_groups_iff hscan, hset]
  · intro i
    rw [hspans, inside_groups_iff hscan]
    simp only [hsorted]

/-- The replacement depends on the set of the spans alone. -/
theorem replaceSpans_congr {patterns : List (List Char)} {input : List Char}
    {spans spans' : List (ℕ × ℕ)} (hmem : ∀ s, s ∈ spans ↔ s ∈ occurrences patterns input)
    (hmem' : ∀ s, s ∈ spans' ↔ s ∈ occurrences patterns input) :
    replaceSpans input spans = replaceSpans input spans' := by
  rw [replaceSpans_eq, replaceSpans_eq, groups_congr (scannable_insertionSort hmem)
    (scannable_insertionSort hmem') fun s => ?_]
  rw [List.mem_insertionSort, List.mem_insertionSort, hmem, hmem']

namespace Redactor

/-- The redactor's automaton, if there is one, reports the occurrences of its
patterns. -/
def Reliable (r : Redactor) : Prop :=
  ∀ ac, r.automaton = some ac → ∀ input s,
    s ∈ ac.findOverlappingIter input ↔ s ∈ occurrences r.patterns input

theorem new_reliable {build : List (List Char) → Option AhoCorasick} (hbuild : ReportsAll build)
    (patterns : List (List Char)) : (new build patterns).Reliable := by
  intro ac hac
  simp only [new] at hac
  split at hac
  · exact absurd hac.symm (Option.some_ne_none ac)
  · exact hbuild _ (new build patterns).nonempty ac hac

theorem occurrences_new (build : List (List Char) → Option AhoCorasick)
    (patterns : List (List Char)) (input : List Char) :
    occurrences (new build patterns).patterns input = occurrences patterns input := by
  ext s
  simp only [occurrences, new, Set.mem_ofPred_eq, List.mem_eraseDups, List.mem_filter,
    decide_eq_true_eq]
  constructor
  · rintro ⟨p, ⟨hmem, _⟩, hp, h⟩
    exact ⟨p, hmem, hp, h⟩
  · rintro ⟨p, hmem, hp, h⟩
    exact ⟨p, ⟨hmem, hp⟩, hp, h⟩

/-- Whichever search is used, the spans it finds are the occurrences. -/
theorem redact_eq_replaceSpans {r : Redactor} (hr : r.Reliable) (input : List Char) :
    ∃ spans, (∀ s, s ∈ spans ↔ s ∈ occurrences r.patterns input) ∧
      r.redact input = replaceSpans input spans := by
  rw [redact]
  split
  · case isTrue hempty =>
    exact ⟨[], by simp [occurrences, hempty], rfl⟩
  · cases hac : r.automaton with
    | some ac => exact ⟨_, hr ac hac input, rfl⟩
    | none =>
      obtain ⟨spans, hspans, hmem⟩ := naiveSpans_spec input r.nonempty
      exact ⟨spans, hmem, by simp only [hspans, Option.bind_eq_bind, Option.bind_some]⟩

theorem redact_spec {r : Redactor} (hr : r.Reliable) (input : List Char) :
    ∃ out, r.redact input = some out ∧ IsRedaction (occurrences r.patterns input) input out := by
  obtain ⟨spans, hmem, heq⟩ := redact_eq_replaceSpans hr input
  rw [heq]
  exact replaceSpans_spec hmem

/-- Redactors with the same occurrences redact alike. -/
theorem redact_congr {r r' : Redactor} (hr : r.Reliable) (hr' : r'.Reliable) {input : List Char}
    (hocc : occurrences r.patterns input = occurrences r'.patterns input) :
    r.redact input = r'.redact input := by
  obtain ⟨spans, hmem, heq⟩ := redact_eq_replaceSpans hr input
  obtain ⟨spans', hmem', heq'⟩ := redact_eq_replaceSpans hr' input
  rw [heq, heq']
  rw [← hocc] at hmem'
  exact replaceSpans_congr hmem hmem'

/-- Patterns added later hide what they would have hidden from the start. -/
theorem withAdditional_redact {build : List (List Char) → Option AhoCorasick}
    (hbuild : ReportsAll build) (patterns additional : List (List Char)) (input : List Char) :
    ((new build patterns).withAdditional build additional).redact input =
      (new build (patterns ++ additional)).redact input := by
  refine redact_congr (new_reliable hbuild _) (new_reliable hbuild _) ?_
  rw [occurrences_new, occurrences_new]
  ext s
  simp only [occurrences, new, Set.mem_ofPred_eq, List.mem_eraseDups, List.mem_append,
    List.mem_filter, decide_eq_true_eq, ← or_and_right]
  exact exists_congr fun p => by tauto

/-- **Redaction is exact**: whatever the patterns, what is hidden are the maximal
groups of overlapping occurrences, each behind one marker, and the rest is kept.
The order of the patterns does not matter, nor which search is used. -/
theorem redact_exact (build : List (List Char) → Option AhoCorasick) (hbuild : ReportsAll build)
    (patterns : List (List Char)) (input : List Char) :
    (∃ out, (new build patterns).redact input = some out ∧
      IsRedaction (occurrences patterns input) input out) ∧
    (∀ patterns', (∀ p, p ∈ patterns' ↔ p ∈ patterns) →
      (new build patterns').redact input = (new build patterns).redact input) ∧
    { new build patterns with automaton := none }.redact input =
      (new build patterns).redact input := by
  have hr := new_reliable hbuild patterns
  refine ⟨?_, fun patterns' hsame => ?_, ?_⟩
  · rw [← occurrences_new build]
    exact redact_spec hr input
  · refine redact_congr (new_reliable hbuild patterns') hr ?_
    rw [occurrences_new, occurrences_new]
    simp only [occurrences, hsame]
  · refine redact_congr (fun ac hac => ?_) hr rfl
    exact absurd hac.symm (Option.some_ne_none ac)

/-- An automaton that tries every offset. -/
def tryOffsets (patterns : List (List Char)) : Option AhoCorasick :=
  some ⟨fun input => (List.range (utf8Len input)).flatMap fun a =>
    (patterns.filter fun p => OccursAt input p a).map fun p => (a, a + utf8Len p)⟩

theorem reportsAll_tryOffsets : ReportsAll tryOffsets := by
  intro patterns hne ac hac input s
  obtain rfl := Option.some.inj hac
  simp only [List.mem_flatMap, List.mem_map, List.mem_filter, List.mem_range, decide_eq_true_eq]
  constructor
  · rintro ⟨a, _, p, ⟨hp, hoccurs⟩, rfl⟩
    exact ⟨p, hp, hne p hp, hoccurs, rfl⟩
  · rintro ⟨p, hp, hp', hoccurs, hstop⟩
    refine ⟨s.1, ?_, p, ⟨hp, hoccurs⟩, Prod.ext rfl hstop.symm⟩
    obtain ⟨x, y, rfl, hx⟩ := (occursAt_iff_exists_append hp').1 hoccurs
    have := utf8Len_pos hp'
    simp only [String.utf8Len_append]
    omega

/-- Crossing, nested, self-overlapping and touching values of several bytes a
character. -/
theorem redact_exact_sample :
    (∃ out, (new tryOffsets ["éé".toList, "éab".toList, "c".toList]).redact "xéééabc".toList =
        some out ∧ IsRedaction
          (occurrences ["éé".toList, "éab".toList, "c".toList] "xéééabc".toList)
          "xéééabc".toList out) ∧
      (new tryOffsets ["éé".toList, "éab".toList, "c".toList]).redact "xéééabc".toList =
        some "x[redacted][redacted]".toList :=
  ⟨(redact_exact tryOffsets reportsAll_tryOffsets _ _).1, by decide +kernel⟩

end Redactor

end Mise
