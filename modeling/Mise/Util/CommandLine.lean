/-
# Windows command lines

`split_command_line` of `crates/mise-util/src/env.rs` splits the arguments of a
command line as a native Windows program does.  It counts backslashes, since what
they mean depends on what follows.

The rules are stated on pieces.  A line is a list of them, and every piece says
what it adds to its argument: a separator nothing, `2n` backslashes and a quote
`n` backslashes, `2n+1` and a quote `n` and the quote, any other character
itself.  Every line is well read in some way (`exists_wellRead`), and the function
gives the runs of pieces between separators (`splitCommandLine_eq_iff`).  The
standard quoting of arguments is a line of that kind (`wellRead_quoteArgs`).
-/

import Mathlib.Algebra.Ring.Parity
import Mathlib.Data.List.Basic

namespace Mise.CommandLine

/-! ### The loop -/

/-- The variables of `split_command_line`. -/
structure State where
  args : List (List Char) := []
  current : List Char := []
  inQuotes : Bool := false
  started : Bool := false
  backslashes : ℕ := 0

/-- `flush`. -/
def State.flush (s : State) : State :=
  { s with
    current := s.current ++ List.replicate s.backslashes '\\'
    backslashes := 0 }

/-- The characters between arguments. -/
def isBlank (c : Char) : Prop := c = ' ' ∨ c = '\t'

instance : DecidablePred isBlank := fun _ => inferInstanceAs (Decidable (_ ∨ _))

/-- The turn of the loop for one character. -/
def turn (s : State) (c : Char) : State :=
  if c = '\\' then
    { s with backslashes := s.backslashes + 1, started := true }
  else if c = '"' then
    let current := s.current ++ List.replicate (s.backslashes / 2) '\\'
    if s.backslashes % 2 = 1 then
      { s with current := current ++ ['"'], backslashes := 0, started := true }
    else
      -- an empty quoted run is still an argument
      { s with current := current, inQuotes := !s.inQuotes, backslashes := 0, started := true }
  else if isBlank c ∧ s.inQuotes = false then
    if s.started then
      { s.flush with args := s.args ++ [s.flush.current], current := [], started := false }
    else s.flush
  else
    { s.flush with current := s.flush.current ++ [c], started := true }

/-- The arguments at the end of the line. -/
def State.finish (s : State) : List (List Char) :=
  if s.started then s.args ++ [s.flush.current] else s.args

/-- `split_command_line`. -/
def splitCommandLine (line : List Char) : List (List Char) :=
  (line.foldl turn {}).finish

/-! ### The rules -/

/-- A piece of a line. -/
inductive Piece where
  | separator (c : Char)
  | toggle (n : ℕ)
  | quote (n : ℕ)
  | plain (c : Char)

namespace Piece

/-- The characters of a piece. -/
def source : Piece → List Char
  | separator c => [c]
  | toggle n => List.replicate (2 * n) '\\' ++ ['"']
  | quote n => List.replicate (2 * n + 1) '\\' ++ ['"']
  | plain c => [c]

/-- What a piece adds to its argument. -/
def kept : Piece → List Char
  | separator _ => []
  | toggle n => List.replicate n '\\'
  | quote n => List.replicate n '\\' ++ ['"']
  | plain c => [c]

def isSeparator : Piece → Bool
  | separator _ => true
  | _ => false

end Piece

/-- The characters of a list of pieces. -/
def sourceOf (ps : List Piece) : List Char := ps.flatMap Piece.source

/-- What a list of pieces adds up to. -/
def keptOf (ps : List Piece) : List Char := ps.flatMap Piece.kept

/-- The arguments: what the runs of pieces between separators add up to, and a run
is an argument even where that is nothing. -/
def arguments (ps : List Piece) : List (List Char) :=
  ((ps.splitOnP Piece.isSeparator).filter (!·.isEmpty)).map keptOf

/-- A text in which a quote comes behind backslashes, or at once. -/
def FacesQuote (text : List Char) : Prop :=
  (text.dropWhile (· = '\\')).head? = some '"'

/-- The pieces are those of their line, inside quotes or outside: separators stand
outside, and no plain backslash is one of those in front of a quote. -/
def WellRead : Bool → List Piece → Prop
  | _, [] => True
  | q, .separator c :: ps => q = false ∧ isBlank c ∧ WellRead q ps
  | q, .toggle _ :: ps => WellRead (!q) ps
  | q, .quote _ :: ps => WellRead q ps
  | q, .plain c :: ps => c ≠ '"' ∧ (isBlank c → q = true) ∧
      (c = '\\' → ¬ FacesQuote (sourceOf ps)) ∧ WellRead q ps

/-! ### Every line is read -/

theorem dropWhile_backslashes (k : ℕ) (text : List Char) :
    (List.replicate k '\\' ++ text).dropWhile (· = '\\') = text.dropWhile (· = '\\') := by
  induction k with
  | zero => rfl
  | succ k ih => exact ih

/-- A text that faces a quote: so many backslashes, and the quote. -/
theorem FacesQuote.eq {text : List Char} (h : FacesQuote text) :
    ∃ k rest, text = List.replicate k '\\' ++ '"' :: rest := by
  induction text with
  | nil => exact nomatch h
  | cons c text ih =>
    by_cases hc : c = '\\'
    · rw [FacesQuote, List.dropWhile_cons_of_pos (by simpa using hc)] at h
      obtain ⟨k, rest, rfl⟩ := ih h
      exact ⟨k + 1, rest, by rw [hc]; rfl⟩
    · rw [FacesQuote, List.dropWhile_cons_of_neg (by simpa using hc)] at h
      exact ⟨0, text, by rw [Option.some.inj h]; rfl⟩

/-- **Every line is well read in some way.** -/
theorem exists_wellRead (q : Bool) (line : List Char) :
    ∃ ps, WellRead q ps ∧ sourceOf ps = line := by
  induction hlen : line.length using Nat.strongRecOn generalizing q line with
  | ind n ih =>
    by_cases hquote : FacesQuote line
    · obtain ⟨k, rest, rfl⟩ := hquote.eq
      rw [List.length_append, List.length_cons] at hlen
      obtain ⟨m, rfl | rfl⟩ := Nat.even_or_odd' k
      · obtain ⟨ps, hps, rfl⟩ := ih _ (by omega) (!q) rest rfl
        exact ⟨.toggle m :: ps, hps, List.append_assoc ..⟩
      · obtain ⟨ps, hps, rfl⟩ := ih _ (by omega) q rest rfl
        exact ⟨.quote m :: ps, hps, List.append_assoc ..⟩
    · cases line with
      | nil => exact ⟨[], trivial, rfl⟩
      | cons c line =>
        rw [List.length_cons] at hlen
        by_cases hsep : isBlank c ∧ q = false
        · obtain ⟨ps, hps, rfl⟩ := ih _ (by omega) q line rfl
          exact ⟨.separator c :: ps, ⟨hsep.2, hsep.1, hps⟩, rfl⟩
        · obtain ⟨ps, hps, rfl⟩ := ih _ (by omega) q line rfl
          refine ⟨.plain c :: ps, ⟨?_, fun hblank => ?_, ?_, hps⟩, rfl⟩
          · rintro rfl
            exact hquote rfl
          · cases q with
            | true => rfl
            | false => exact absurd ⟨hblank, rfl⟩ hsep
          · rintro rfl hface
            exact hquote hface

/-! ### What the loop does -/

/-- The loop stands behind some pieces: the arguments that are complete, and the run
of the current one. -/
structure Stands (s : State) (args : List (List Char)) (q : Bool) (run : List Piece) : Prop where
  args_eq : s.args = args
  inQuotes : s.inQuotes = q
  current : s.flush.current = keptOf run
  started : s.started = !run.isEmpty

/-- The arguments with the current one. -/
def complete (args : List (List Char)) (run : List Piece) : List (List Char) :=
  if run.isEmpty then args else args ++ [keptOf run]

theorem Stands.finish {s : State} {args : List (List Char)} {q : Bool} {run : List Piece}
    (h : Stands s args q run) : s.finish = complete args run := by
  rw [State.finish, complete, h.started, h.args_eq, h.current]
  cases run.isEmpty <;> rfl

/-- Backslashes are counted. -/
theorem foldl_backslashes (s : State) (k : ℕ) :
    ∃ started, (List.replicate k '\\').foldl turn s =
      { s with backslashes := s.backslashes + k, started := started } := by
  induction k generalizing s with
  | zero => exact ⟨s.started, rfl⟩
  | succ k ih =>
    obtain ⟨started, h⟩ := ih (turn s '\\')
    refine ⟨started, ?_⟩
    rw [List.replicate_succ, List.foldl_cons, h]
    change State.mk _ _ _ _ (s.backslashes + 1 + k) = State.mk _ _ _ _ _
    rw [Nat.add_assoc, Nat.add_comm 1 k]
    rfl

/-- Backslashes that count already do not belong to a quote that comes. -/
def Ready (s : State) (ps : List Piece) : Prop :=
  s.backslashes ≠ 0 → ¬ FacesQuote (sourceOf ps)

theorem facesQuote_backslashes (k : ℕ) (text : List Char) :
    FacesQuote (List.replicate k '\\' ++ '"' :: text) := by
  rw [FacesQuote, dropWhile_backslashes]
  rfl

theorem keptOf_append_singleton (run : List Piece) (p : Piece) :
    keptOf (run ++ [p]) = keptOf run ++ p.kept := by
  rw [keptOf, List.flatMap_append, List.flatMap_singleton]
  rfl

theorem not_isEmpty_append_singleton (run : List Piece) (p : Piece) :
    true = !(run ++ [p]).isEmpty := by
  cases run <;> rfl

variable {s : State} {args : List (List Char)} {q : Bool} {run ps : List Piece} {n : ℕ} {c : Char}

/-- Without pending backslashes nothing is flushed. -/
theorem Stands.current_of_zero (h : Stands s args q run) (hzero : s.backslashes = 0) :
    s.current = keptOf run := by
  have hcurrent := h.current
  rw [State.flush, hzero, List.replicate_zero, List.append_nil] at hcurrent
  exact hcurrent

/-- An even number of backslashes and a quote. -/
theorem Stands.toggle (h : Stands s args q run) (hzero : s.backslashes = 0) :
    Stands ((Piece.toggle n).source.foldl turn s) args (!q) (run ++ [.toggle n]) ∧
      ((Piece.toggle n).source.foldl turn s).backslashes = 0 := by
  obtain ⟨started, hrun⟩ := foldl_backslashes s (2 * n)
  have hturn : (Piece.toggle n).source.foldl turn s =
      { s with
        current := s.current ++ List.replicate n '\\'
        inQuotes := !s.inQuotes
        backslashes := 0
        started := true } := by
    rw [Piece.source, List.foldl_append, hrun, hzero, Nat.zero_add, List.foldl_cons,
      List.foldl_nil, turn, if_neg (by decide), if_pos rfl]
    dsimp only
    rw [if_neg (by omega), Nat.mul_div_cancel_left n (by decide)]
  rw [hturn]
  refine ⟨⟨h.args_eq, congrArg Bool.not h.inQuotes, ?_, not_isEmpty_append_singleton run _⟩, rfl⟩
  rw [keptOf_append_singleton, ← h.current_of_zero hzero]
  exact List.append_nil _

/-- An odd number of backslashes and a quote. -/
theorem Stands.quote (h : Stands s args q run) (hzero : s.backslashes = 0) :
    Stands ((Piece.quote n).source.foldl turn s) args q (run ++ [.quote n]) ∧
      ((Piece.quote n).source.foldl turn s).backslashes = 0 := by
  obtain ⟨started, hrun⟩ := foldl_backslashes s (2 * n + 1)
  have hturn : (Piece.quote n).source.foldl turn s =
      { s with
        current := s.current ++ List.replicate n '\\' ++ ['"']
        backslashes := 0
        started := true } := by
    rw [Piece.source, List.foldl_append, hrun, hzero, Nat.zero_add, List.foldl_cons,
      List.foldl_nil, turn, if_neg (by decide), if_pos rfl]
    dsimp only
    rw [if_pos (by omega), show (2 * n + 1) / 2 = n by omega]
  rw [hturn]
  refine ⟨⟨h.args_eq, h.inQuotes, ?_, not_isEmpty_append_singleton run _⟩, rfl⟩
  rw [keptOf_append_singleton, ← h.current_of_zero hzero, Piece.kept, ← List.append_assoc]
  exact List.append_nil _

/-- A separator completes the run before it. -/
theorem Stands.separator (h : Stands s args false run) (hc : isBlank c) :
    Stands (turn s c) (complete args run) false [] ∧ (turn s c).backslashes = 0 := by
  have hslash : c ≠ '\\' := by
    rintro rfl
    exact absurd hc (by decide)
  have hquote : c ≠ '"' := by
    rintro rfl
    exact absurd hc (by decide)
  rw [turn, if_neg hslash, if_neg hquote, if_pos ⟨hc, h.inQuotes⟩]
  have hstarted := h.started
  cases hempty : run.isEmpty with
  | true =>
    rw [hempty] at hstarted
    obtain rfl := List.isEmpty_iff.1 hempty
    rw [if_neg (by rw [hstarted]; decide)]
    refine ⟨⟨h.args_eq, h.inQuotes, ?_, hstarted⟩, rfl⟩
    exact (List.append_nil _).trans h.current
  | false =>
    rw [hempty, Bool.not_false] at hstarted
    rw [if_pos hstarted, complete, if_neg (by rw [hempty]; decide)]
    refine ⟨⟨?_, h.inQuotes, rfl, rfl⟩, rfl⟩
    change s.args ++ [s.flush.current] = _
    rw [h.args_eq, h.current]

/-- Any other character is one of its argument. -/
theorem Stands.plain (h : Stands s args q run) (hquote : c ≠ '"') (hblank : isBlank c → q = true) :
    Stands (turn s c) args q (run ++ [.plain c]) ∧
      ((turn s c).backslashes ≠ 0 → c = '\\') := by
  rw [turn]
  by_cases hslash : c = '\\'
  · rw [if_pos hslash]
    refine ⟨⟨h.args_eq, h.inQuotes, ?_, not_isEmpty_append_singleton run _⟩, fun _ => hslash⟩
    rw [keptOf_append_singleton, ← h.current, hslash]
    change s.current ++ List.replicate (s.backslashes + 1) '\\' = _
    rw [List.replicate_succ', ← List.append_assoc]
    rfl
  · have hnot : ¬ (isBlank c ∧ s.inQuotes = false) := by
      rintro ⟨hc, hq⟩
      rw [h.inQuotes, hblank hc] at hq
      exact nomatch hq
    rw [if_neg hslash, if_neg hquote, if_neg hnot]
    refine ⟨⟨h.args_eq, h.inQuotes, ?_, not_isEmpty_append_singleton run _⟩,
      fun hne => absurd rfl hne⟩
    rw [keptOf_append_singleton, ← h.current]
    exact List.append_nil _

/-! ### The arguments -/

theorem arguments_of_run (hrun : ∀ p ∈ run, p.isSeparator = false) :
    arguments run = complete [] run := by
  rw [arguments, List.splitOnP_eq_singleton hrun, complete]
  cases run <;> rfl

theorem arguments_of_separator (hrun : ∀ p ∈ run, p.isSeparator = false) (ps : List Piece) :
    arguments (run ++ .separator c :: ps) = complete [] run ++ arguments ps := by
  rw [arguments, List.splitOnP_append_cons_of_forall_mem hrun _ rfl, complete]
  cases run <;> rfl

theorem complete_eq (args : List (List Char)) (run : List Piece) :
    complete args run = args ++ complete [] run := by
  rw [complete, complete]
  cases run.isEmpty
  · rfl
  · exact (List.append_nil args).symm

/-- From every place the loop gives the arguments of the pieces that are left. -/
theorem finish_foldl (h : Stands s args q run) (hrun : ∀ p ∈ run, p.isSeparator = false)
    (hready : Ready s ps) (hread : WellRead q ps) :
    ((sourceOf ps).foldl turn s).finish = args ++ arguments (run ++ ps) := by
  induction ps generalizing s args q run with
  | nil =>
    rw [List.append_nil, arguments_of_run hrun, ← complete_eq]
    exact h.finish
  | cons p ps ih =>
    have hzero : ∀ k text, sourceOf (p :: ps) = List.replicate k '\\' ++ '"' :: text →
        s.backslashes = 0 := by
      intro k text heq
      by_contra hne
      refine hready hne ?_
      rw [heq]
      exact facesQuote_backslashes k text
    have hmore : p.isSeparator = false → ∀ p' ∈ run ++ [p], p'.isSeparator = false := by
      intro hp p' hp'
      obtain hp' | hp' := List.mem_append.1 hp'
      · exact hrun p' hp'
      · rwa [List.mem_singleton.1 hp']
    have hassoc : run ++ p :: ps = run ++ [p] ++ ps := List.append_cons ..
    have hsource : (sourceOf (p :: ps)).foldl turn s =
        (sourceOf ps).foldl turn (p.source.foldl turn s) := by
      rw [sourceOf, List.flatMap_cons, List.foldl_append]
      rfl
    rw [hsource]
    cases p with
    | separator c =>
      obtain ⟨rfl, hc, hread⟩ := hread
      obtain ⟨h', hback⟩ := h.separator hc
      refine (ih h' nofun (fun hne => absurd hback hne) hread).trans ?_
      rw [arguments_of_separator hrun, complete_eq, List.append_assoc]
      rfl
    | toggle n =>
      obtain ⟨h', hback⟩ := h.toggle (n := n) (hzero (2 * n) _ (List.append_assoc ..))
      rw [hassoc]
      exact ih h' (hmore rfl) (fun hne => absurd hback hne) hread
    | quote n =>
      obtain ⟨h', hback⟩ := h.quote (n := n) (hzero (2 * n + 1) _ (List.append_assoc ..))
      rw [hassoc]
      exact ih h' (hmore rfl) (fun hne => absurd hback hne) hread
    | plain c =>
      obtain ⟨hquote, hblank, hface, hread⟩ := hread
      obtain ⟨h', hback⟩ := h.plain hquote hblank
      rw [hassoc]
      exact ih h' (hmore rfl) (fun hne => hface (hback hne)) hread

/-- **The function follows the rules**: the arguments of a line are those of its
pieces. -/
theorem splitCommandLine_sourceOf (h : WellRead false ps) :
    splitCommandLine (sourceOf ps) = arguments ps := by
  have hstart : Stands {} [] false [] := ⟨rfl, rfl, rfl, rfl⟩
  exact finish_foldl hstart (fun _ hp => nomatch hp) (fun hne => absurd rfl hne) h

theorem flatten_map_keptOf (ps : List Piece) :
    ((ps.splitOnP Piece.isSeparator).map keptOf).flatten = keptOf ps := by
  induction ps with
  | nil => rfl
  | cons p ps ih =>
    rw [List.splitOnP_cons_eq_if_modifyHead, keptOf, List.flatMap_cons, ← keptOf, ← ih]
    obtain ⟨run, runs, hruns⟩ :=
      List.exists_cons_of_ne_nil (List.splitOnP_ne_nil Piece.isSeparator ps)
    rw [hruns]
    cases p with
    | separator => rfl
    | toggle => exact List.append_assoc ..
    | quote => exact List.append_assoc ..
    | plain => rfl

/-- The arguments together are what the pieces add up to. -/
theorem flatten_arguments (ps : List Piece) : (arguments ps).flatten = keptOf ps := by
  rw [← flatten_map_keptOf, arguments]
  induction ps.splitOnP Piece.isSeparator with
  | nil => rfl
  | cons run runs ih =>
    rw [List.map_cons, List.flatten_cons, ← ih]
    cases run <;> rfl

/-- What the rules say: the arguments of the line's pieces. -/
def FollowsRules (line : List Char) (args : List (List Char)) : Prop :=
  ∃ ps, sourceOf ps = line ∧ WellRead false ps ∧ arguments ps = args

/-- The function and the rules agree. -/
theorem splitCommandLine_eq_iff (line : List Char) (args : List (List Char)) :
    splitCommandLine line = args ↔ FollowsRules line args := by
  constructor
  · rintro rfl
    obtain ⟨ps, hread, rfl⟩ := exists_wellRead false line
    exact ⟨ps, rfl, hread, (splitCommandLine_sourceOf hread).symm⟩
  · rintro ⟨ps, rfl, hread, rfl⟩
    exact splitCommandLine_sourceOf hread

/-- Nothing else is lost: the characters of a line are those of its pieces, and the
arguments keep of each what the rules say. -/
theorem exists_flatten_eq (line : List Char) :
    ∃ ps, sourceOf ps = line ∧ WellRead false ps ∧ (splitCommandLine line).flatten = keptOf ps := by
  obtain ⟨ps, hread, rfl⟩ := exists_wellRead false line
  refine ⟨ps, rfl, hread, ?_⟩
  rw [splitCommandLine_sourceOf hread, flatten_arguments]

/-! ### Quoted arguments -/

/-- The text of an argument between quotes, with the closing one, behind `k` of its
backslashes: they are doubled in front of a quote. -/
def escape : ℕ → List Char → List Char
  | k, [] => List.replicate (2 * k) '\\' ++ ['"']
  | k, '\\' :: cs => escape (k + 1) cs
  | k, '"' :: cs => List.replicate (2 * k + 1) '\\' ++ '"' :: escape 0 cs
  | k, c :: cs => List.replicate k '\\' ++ c :: escape 0 cs

/-- The standard quoting of an argument. -/
def quoteArg (arg : List Char) : List Char := '"' :: escape 0 arg

/-- Arguments, each quoted, with a blank between them. -/
def quoteArgs (args : List (List Char)) : List Char :=
  List.intercalate [' '] (args.map quoteArg)

/-- The pieces of an argument's text. -/
def piecesOf : ℕ → List Char → List Piece
  | k, [] => [.toggle k]
  | k, '\\' :: cs => piecesOf (k + 1) cs
  | k, '"' :: cs => .quote k :: piecesOf 0 cs
  | k, c :: cs => List.replicate k (.plain '\\') ++ .plain c :: piecesOf 0 cs

theorem sourceOf_append (ps ps' : List Piece) :
    sourceOf (ps ++ ps') = sourceOf ps ++ sourceOf ps' := List.flatMap_append

theorem sourceOf_replicate (k : ℕ) :
    sourceOf (List.replicate k (.plain '\\')) = List.replicate k '\\' := by
  induction k with
  | zero => rfl
  | succ k ih =>
    rw [List.replicate_succ, List.replicate_succ, ← ih]
    rfl

theorem keptOf_replicate (k : ℕ) :
    keptOf (List.replicate k (.plain '\\')) = List.replicate k '\\' := by
  induction k with
  | zero => rfl
  | succ k ih =>
    rw [List.replicate_succ, List.replicate_succ, ← ih]
    rfl

theorem sourceOf_piecesOf (k : ℕ) (arg : List Char) :
    sourceOf (piecesOf k arg) = escape k arg := by
  fun_induction piecesOf k arg with
  | case1 k => exact List.append_nil _
  | case2 k cs ih => exact ih
  | case3 k cs ih =>
    rw [escape, ← ih]
    exact List.append_assoc ..
  | case4 k c cs hslash hquote ih =>
    rw [escape, sourceOf_append, sourceOf_replicate, ← ih]
    · rfl
    · exact hslash
    · exact hquote

theorem keptOf_piecesOf (k : ℕ) (arg : List Char) :
    keptOf (piecesOf k arg) = List.replicate k '\\' ++ arg := by
  fun_induction piecesOf k arg with
  | case1 k => rfl
  | case2 k cs ih =>
    rw [ih, List.replicate_succ', List.append_assoc]
    rfl
  | case3 k cs ih =>
    rw [keptOf, List.flatMap_cons, ← keptOf, ih]
    exact List.append_assoc ..
  | case4 k c cs hslash hquote ih =>
    rw [keptOf, List.flatMap_append, ← keptOf, keptOf_replicate, List.flatMap_cons, ← keptOf, ih]
    rfl

theorem isSeparator_piecesOf {k : ℕ} {arg : List Char} {p : Piece} (hp : p ∈ piecesOf k arg) :
    p.isSeparator = false := by
  fun_induction piecesOf k arg with
  | case1 k => rw [List.mem_singleton.1 hp]; rfl
  | case2 k cs ih => exact ih hp
  | case3 k cs ih =>
    obtain rfl | hp := List.mem_cons.1 hp
    · rfl
    · exact ih hp
  | case4 k c cs hslash hquote ih =>
    obtain hp | hp := List.mem_append.1 hp
    · rw [List.eq_of_mem_replicate hp]; rfl
    · obtain rfl | hp := List.mem_cons.1 hp
      · rfl
      · exact ih hp

/-- Plain backslashes in front of a character that is neither one of them nor a
quote. -/
theorem wellRead_replicate (k : ℕ) (hslash : c ≠ '\\') (hquote : c ≠ '"')
    (h : WellRead q (.plain c :: ps)) :
    WellRead q (List.replicate k (.plain '\\') ++ .plain c :: ps) := by
  induction k with
  | zero => exact h
  | succ k ih =>
    refine ⟨by decide, fun hblank => absurd hblank (by decide), fun _ hface => ?_, ih⟩
    change FacesQuote (sourceOf (List.replicate k (.plain '\\') ++ .plain c :: ps)) at hface
    rw [sourceOf_append, sourceOf_replicate, FacesQuote, dropWhile_backslashes] at hface
    change (List.dropWhile _ (c :: sourceOf ps)).head? = _ at hface
    rw [List.dropWhile_cons_of_neg (by simpa using hslash)] at hface
    exact hquote (Option.some.inj hface)

/-- The text of an argument between quotes is well read, whatever follows it. -/
theorem wellRead_piecesOf (k : ℕ) (arg : List Char) (h : WellRead false ps) :
    WellRead true (piecesOf k arg ++ ps) := by
  fun_induction piecesOf k arg with
  | case1 k => exact h
  | case2 k cs ih => exact ih
  | case3 k cs ih => exact ih
  | case4 k c cs hslash hquote ih =>
    rw [List.append_assoc, List.cons_append]
    exact wellRead_replicate k hslash hquote
      ⟨hquote, fun _ => rfl, fun hc => absurd hc hslash, ih⟩

/-- The pieces of quoted arguments. -/
def piecesOfArgs : List (List Char) → List Piece
  | [] => []
  | [arg] => .toggle 0 :: piecesOf 0 arg
  | arg :: args => .toggle 0 :: piecesOf 0 arg ++ .separator ' ' :: piecesOfArgs args

theorem sourceOf_piecesOfArgs (args : List (List Char)) :
    sourceOf (piecesOfArgs args) = quoteArgs args := by
  fun_induction piecesOfArgs args with
  | case1 => rfl
  | case2 arg =>
    change '"' :: sourceOf (piecesOf 0 arg) = quoteArg arg ++ []
    rw [sourceOf_piecesOf, List.append_nil, quoteArg]
  | case3 arg args hne ih =>
    obtain ⟨next, rest, rfl⟩ := List.exists_cons_of_ne_nil hne
    change '"' :: sourceOf (piecesOf 0 arg ++ .separator ' ' :: piecesOfArgs (next :: rest)) = _
    rw [sourceOf_append, sourceOf_piecesOf, quoteArgs, List.map_cons, List.map_cons,
      List.intercalate_cons_cons, ← List.map_cons, ← quoteArgs, ← ih, List.append_assoc]
    rfl

theorem wellRead_piecesOfArgs (args : List (List Char)) : WellRead false (piecesOfArgs args) := by
  fun_induction piecesOfArgs args with
  | case1 => trivial
  | case2 arg =>
    have h := @wellRead_piecesOf [] 0 arg trivial
    rwa [List.append_nil] at h
  | case3 arg args hne ih =>
    have hrest : WellRead false (.separator ' ' :: piecesOfArgs args) := ⟨rfl, .inl rfl, ih⟩
    exact wellRead_piecesOf 0 arg hrest

theorem isSeparator_quoted {arg : List Char} {p : Piece} (hp : p ∈ .toggle 0 :: piecesOf 0 arg) :
    p.isSeparator = false := by
  obtain rfl | hp := List.mem_cons.1 hp
  · rfl
  · exact isSeparator_piecesOf hp

theorem complete_quoted (arg : List Char) :
    complete [] (.toggle 0 :: piecesOf 0 arg) = [arg] := by
  change [keptOf (piecesOf 0 arg)] = _
  rw [keptOf_piecesOf]
  rfl

theorem arguments_piecesOfArgs (args : List (List Char)) :
    arguments (piecesOfArgs args) = args := by
  fun_induction piecesOfArgs args with
  | case1 => rfl
  | case2 arg => rw [arguments_of_run fun _ => isSeparator_quoted, complete_quoted]
  | case3 arg args hne ih =>
    rw [arguments_of_separator fun _ => isSeparator_quoted, complete_quoted, ih]
    rfl

/-- Quoted arguments are split into what was quoted. -/
theorem splitCommandLine_quoteArgs (args : List (List Char)) :
    splitCommandLine (quoteArgs args) = args := by
  rw [← sourceOf_piecesOfArgs, splitCommandLine_sourceOf (wellRead_piecesOfArgs args)]
  exact arguments_piecesOfArgs args

/-- **The arguments of a line are those the rules give, those that were quoted, and
all that a line holds** besides separators, toggles and halved backslashes. -/
theorem splitCommandLine_spec :
    (∀ line args, splitCommandLine line = args ↔ FollowsRules line args) ∧
    (∀ args, splitCommandLine (quoteArgs args) = args) ∧
    ∀ line, ∃ ps, sourceOf ps = line ∧ WellRead false ps ∧
      (splitCommandLine line).flatten = keptOf ps :=
  ⟨splitCommandLine_eq_iff, splitCommandLine_quoteArgs, exists_flatten_eq⟩

end Mise.CommandLine
