/-
# Resolving paths through symbolic links

POSIX path resolution over a tree of directories, files and links that stands
under one directory of a larger system.  A path is resolved a component at a
time: a name is looked up in the directory actually reached, a link puts its own
components in front of the rest, and `..` leads to the parent of the directory
reached.  An absolute path and a `..` of the tree's root lead outside.

A resolution stays inside (`stays_inside`) when every link goes up only at its
start, and no more often than the directory it stands in is deep.  The argument
goes step by step: behind a name there is no `..` left, and in front of the
first name the `..`s left are no more than the depth of the directory reached.
-/

import Mathlib.Data.List.Induction

namespace Mise.Lib.Resolution

variable {ν : Type}

/-- A component of a path. -/
inductive Seg (ν : Type) where
  | root
  | here
  | up
  | name (n : ν)
  deriving DecidableEq

/-- What stands at a place of a tree. -/
inductive Kind (ν : Type) where
  | directory
  | file
  | link (target : List (Seg ν))
  deriving DecidableEq

/-- A tree of directories: what stands where, by the names that lead there from
the root.  Whatever stands somewhere stands in a directory. -/
structure FileTree (ν : Type) where
  node : List ν → Option (Kind ν)
  root : node [] = some .directory
  parent : ∀ d n k, node (d ++ [n]) = some k → node d = some .directory

/-- Where a resolution has come to: a directory and the components left, a file,
or out of the tree. -/
inductive Place (ν : Type) where
  | inDir (dir : List ν) (rest : List (Seg ν))
  | atFile (path : List ν)
  | outside
  deriving DecidableEq

/-- One component is resolved.  `none` when the resolution is over, or fails. -/
def step (tree : FileTree ν) : Place ν → Option (Place ν)
  | .inDir _ (.root :: _) => some .outside
  | .inDir d (.here :: rest) => some (.inDir d rest)
  | .inDir d (.up :: rest) => some (if d = [] then .outside else .inDir d.dropLast rest)
  | .inDir d (.name n :: rest) =>
    match tree.node (d ++ [n]) with
    | none => none
    | some .directory => some (.inDir (d ++ [n]) rest)
    | some .file => if rest.isEmpty then some (.atFile (d ++ [n])) else none
    | some (.link target) => some (.inDir d (target ++ rest))
  | _ => none

/-- A number of steps. -/
def walk (tree : FileTree ν) : ℕ → Place ν → Option (Place ν)
  | 0, place => some place
  | n + 1, place => (step tree place).bind (walk tree n)

/-- The place is one of the tree. -/
def Inside (tree : FileTree ν) : Place ν → Prop
  | .inDir d _ => tree.node d = some .directory
  | .atFile path => tree.node path = some .file
  | .outside => False

/-- The components go down or nowhere. -/
def Down (path : List (Seg ν)) : Prop := ∀ s ∈ path, s ≠ .root ∧ s ≠ .up

/-- A path that goes up at most `depth` times, and only at its start. -/
def Low : ℕ → List (Seg ν) → Prop
  | _, [] => True
  | _, .root :: _ => False
  | depth, .here :: rest => Low depth rest
  | 0, .up :: _ => False
  | depth + 1, .up :: rest => Low depth rest
  | _, .name _ :: rest => Down rest

/-- No link of the tree goes up behind a name, or further than it is deep. -/
def Guarded (tree : FileTree ν) : Prop :=
  ∀ d n target, tree.node (d ++ [n]) = some (.link target) → Low d.length target

theorem Down.of_cons {s : Seg ν} {path : List (Seg ν)} (h : Down (s :: path)) : Down path :=
  fun t ht => h t (List.mem_cons_of_mem s ht)

theorem Down.low {path : List (Seg ν)} (h : Down path) (depth : ℕ) : Low depth path := by
  induction path with
  | nil => simp only [Low]
  | cons s path ih =>
    cases s with
    | root => exact absurd rfl (h _ List.mem_cons_self).1
    | here => simpa only [Low] using ih h.of_cons
    | up => exact absurd rfl (h _ List.mem_cons_self).2
    | name n => simpa only [Low] using h.of_cons

/-- What follows a path that does not go up may stand behind any other. -/
theorem Low.append {depth : ℕ} {path rest : List (Seg ν)} (h : Low depth path)
    (hrest : Down rest) : Low depth (path ++ rest) := by
  induction depth, path using Low.induct with
  | case1 depth => exact hrest.low depth
  | case2 => simp only [Low] at h
  | case3 depth path ih =>
    simp only [Low, List.cons_append] at h ⊢
    exact ih h
  | case4 => simp only [Low] at h
  | case5 depth path ih =>
    simp only [Low, List.cons_append] at h ⊢
    exact ih h
  | case6 depth n path =>
    simp only [Low, List.cons_append] at h ⊢
    intro s hs
    rcases List.mem_append.1 hs with hpath | hbehind
    · exact h s hpath
    · exact hrest s hbehind

/-- What a resolution keeps: the directory reached is one of the tree, and what
is left goes up no more often than it is deep. -/
def Held (tree : FileTree ν) : Place ν → Prop
  | .inDir d rest => tree.node d = some .directory ∧ Low d.length rest
  | place => Inside tree place

theorem Held.inside {tree : FileTree ν} {place : Place ν} (h : Held tree place) :
    Inside tree place := by
  cases place with
  | inDir d rest => exact h.1
  | atFile path => exact h
  | outside => exact h

/-- A step keeps the resolution inside. -/
theorem Held.step {tree : FileTree ν} (hguard : Guarded tree) {place next : Place ν}
    (h : Held tree place) (hstep : step tree place = some next) : Held tree next := by
  cases place with
  | atFile path => nomatch hstep
  | outside => nomatch hstep
  | inDir d rest =>
    obtain ⟨hdir, hlow⟩ := h
    cases rest with
    | nil => nomatch hstep
    | cons s rest =>
      cases s with
      | root => simp only [Low] at hlow
      | here =>
        obtain rfl := Option.some.inj hstep
        simp only [Low] at hlow
        exact ⟨hdir, hlow⟩
      | up =>
        obtain rfl := Option.some.inj hstep
        cases d using List.reverseRecOn with
        | nil => simp only [List.length_nil, Low] at hlow
        | append_singleton d n _ =>
          rw [List.length_append, List.length_singleton] at hlow
          simp only [Low] at hlow
          rw [if_neg (List.append_ne_nil_of_right_ne_nil d (List.cons_ne_nil n [])),
            List.dropLast_concat]
          exact ⟨tree.parent d n _ hdir, hlow⟩
      | name n =>
        simp only [Low] at hlow
        rw [Resolution.step] at hstep
        split at hstep
        · nomatch hstep
        · case h_2 hnode =>
          obtain rfl := Option.some.inj hstep
          exact ⟨hnode, hlow.low _⟩
        · case h_3 hnode =>
          split at hstep
          · obtain rfl := Option.some.inj hstep
            exact hnode
          · nomatch hstep
        · case h_4 target hnode =>
          obtain rfl := Option.some.inj hstep
          exact ⟨hdir, (hguard d n target hnode).append hlow⟩

theorem Held.walk {tree : FileTree ν} (hguard : Guarded tree) {steps : ℕ} {place last : Place ν}
    (h : Held tree place) (hwalk : walk tree steps place = some last) : Held tree last := by
  induction steps generalizing place with
  | zero =>
    obtain rfl := Option.some.inj hwalk
    exact h
  | succ steps ih =>
    obtain ⟨next, hstep, hrest⟩ := Option.bind_eq_some_iff.1 hwalk
    exact ih (h.step hguard hstep) hrest

/-- **A resolution stays inside a guarded tree**, however many links it
follows. -/
theorem stays_inside {tree : FileTree ν} (hguard : Guarded tree) {path : List (Seg ν)}
    (hpath : Down path) {steps : ℕ} {last : Place ν}
    (hwalk : walk tree steps (.inDir [] path) = some last) : Inside tree last := by
  have hstart : Held tree (.inDir [] path) := ⟨tree.root, hpath.low 0⟩
  exact (hstart.walk hguard hwalk).inside

end Mise.Lib.Resolution
