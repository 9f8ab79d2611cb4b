/-
# Paths and `PATH` lists

`std::path::PathBuf`, `std::env::split_paths` and `std::env::join_paths` as the
unix build of mise uses them (`crates/mise-util/src/env.rs` re-exports them).

A `PathBuf` is a text.  Rust does not compare it as a text: `==`, `HashSet` and
`HashMap` compare `Path::components`, for which `/usr/bin`, `/usr/bin/` and
`/usr/./bin` are one path.  So `==` on `PathBuf` below is the comparison the
code makes and `=` is equality of the spelling; the first is an equivalence and
not the second.  File names that are not valid UTF-8 are outside the model.

A `PATH` value is split at every colon, so it never splits into no entry at
all: the empty value is one empty entry.  Joining refuses an entry that holds a
colon, and is the inverse of splitting otherwise.
-/

import Mathlib.Data.List.Basic

namespace Mise

/-- `std::path::Component` on unix. -/
inductive Component where
  | rootDir
  | curDir
  | parentDir
  | normal (name : List Char)
  deriving DecidableEq

/-- `std::path::PathBuf`, by its spelling. -/
structure PathBuf where
  raw : String
  deriving DecidableEq

namespace PathBuf

/-- The components a path is compared by: a leading slash, or a leading `.` of
a relative path, then the names between slashes, without empty ones and other
`.`s. -/
def components (p : PathBuf) : List Component :=
  let names := p.raw.toList.splitOn '/'
  let lead :=
    if p.raw.toList.head? = some '/' then [.rootDir]
    else if names.head? = some ['.'] then [.curDir]
    else []
  lead ++ (names.filter fun n => n ≠ [] ∧ n ≠ ['.']).map fun n =>
    if n = ['.', '.'] then .parentDir else .normal n

instance : BEq PathBuf := ⟨fun p q => p.components = q.components⟩

theorem beq_iff {p q : PathBuf} : (p == q) = true ↔ p.components = q.components :=
  decide_eq_true_iff

instance : EquivBEq PathBuf where
  rfl := beq_iff.2 rfl
  symm h := beq_iff.2 (beq_iff.1 h).symm
  trans h₁ h₂ := beq_iff.2 ((beq_iff.1 h₁).trans (beq_iff.1 h₂))

/-- Two spellings of one directory are one path. -/
example : (⟨"/usr/bin/"⟩ : PathBuf) == ⟨"/usr/./bin"⟩ := by decide

/-- Whether the path cannot stand in a `PATH` list. -/
def hasSeparator (p : PathBuf) : Bool := p.raw.toList.contains ':'

end PathBuf

/-- `std::env::split_paths`. -/
def splitPaths (s : String) : List PathBuf :=
  (s.toList.splitOn ':').map fun l => ⟨String.ofList l⟩

/-- `std::env::join_paths`; `none` is `JoinPathsError`. -/
def joinPaths (ps : List PathBuf) : Option String :=
  if ps.any PathBuf.hasSeparator then none
  else some (String.ofList ([':'].intercalate (ps.map fun p => p.raw.toList)))

theorem splitPaths_ne_nil (s : String) : splitPaths s ≠ [] := by
  simp [splitPaths, List.splitOn_ne_nil]

/-- The pieces of a list cut at an element do not hold it. -/
theorem notMem_of_mem_splitOn {a : Char} {xs l : List Char} (h : l ∈ xs.splitOn a) : a ∉ l := by
  induction xs generalizing l with
  | nil => simp_all
  | cons x xs ih =>
      rw [List.splitOn_cons_eq_if_modifyHead] at h
      split_ifs at h with hx
      · rcases List.mem_cons.1 h with rfl | h
        · exact List.not_mem_nil
        · exact ih h
      · cases hs : xs.splitOn a with
        | nil => exact absurd hs (List.splitOn_ne_nil a xs)
        | cons y ys =>
            rw [hs] at h ih
            rcases List.mem_cons.1 h with rfl | h
            · have hy := ih (List.mem_cons_self ..)
              have hxa : a ≠ x := fun e => hx (beq_iff_eq.2 e.symm)
              simp [hy, hxa]
            · exact ih (List.mem_cons_of_mem _ h)

/-- The entries of a `PATH` value hold no separator. -/
theorem hasSeparator_of_mem_splitPaths {s : String} {p : PathBuf} (h : p ∈ splitPaths s) :
    p.hasSeparator = false := by
  obtain ⟨l, hl, rfl⟩ := List.mem_map.1 h
  have := notMem_of_mem_splitOn hl
  simpa [PathBuf.hasSeparator] using this

/-- Joining succeeds on entries without a separator. -/
theorem joinPaths_of_hasSeparator {ps : List PathBuf} (h : ∀ p ∈ ps, p.hasSeparator = false) :
    ∃ s, joinPaths ps = some s := by
  have hany : ps.any PathBuf.hasSeparator = false := by
    rw [List.any_eq_false]
    exact fun p hp => by simp [h p hp]
  exact ⟨_, by rw [joinPaths, hany, if_neg Bool.false_ne_true]⟩

/-- A joined list has no entry with a separator. -/
theorem hasSeparator_of_joinPaths {ps : List PathBuf} {s : String} (h : joinPaths ps = some s) :
    ∀ p ∈ ps, p.hasSeparator = false := by
  unfold joinPaths at h
  split_ifs at h with hany
  rw [Bool.not_eq_true, List.any_eq_false] at hany
  exact fun p hp => by simpa using hany p hp

/-- **Splitting undoes joining** on a list with an entry. -/
theorem splitPaths_of_joinPaths {ps : List PathBuf} {s : String} (h : joinPaths ps = some s)
    (hne : ps ≠ []) : splitPaths s = ps := by
  have hsep := hasSeparator_of_joinPaths h
  unfold joinPaths at h
  split_ifs at h
  obtain rfl := Option.some.inj h
  have hl : ∀ l ∈ ps.map fun p => p.raw.toList, ':' ∉ l := by
    intro l hl
    obtain ⟨p, hp, rfl⟩ := List.mem_map.1 hl
    simpa [PathBuf.hasSeparator] using hsep p hp
  rw [splitPaths, String.toList_ofList, List.splitOn_intercalate ':' hl (by simpa using hne),
    List.map_map]
  simp [Function.comp_def, String.ofList_toList]

/-- **Joining undoes splitting.** -/
theorem joinPaths_splitPaths (s : String) : joinPaths (splitPaths s) = some s := by
  obtain ⟨s', hs'⟩ := joinPaths_of_hasSeparator fun p (hp : p ∈ splitPaths s) =>
    hasSeparator_of_mem_splitPaths hp
  have h := hs'
  unfold joinPaths at h
  split_ifs at h
  rw [hs', ← h, splitPaths, List.map_map]
  simp [Function.comp_def, String.toList_ofList, List.intercalate_splitOn]

end Mise
