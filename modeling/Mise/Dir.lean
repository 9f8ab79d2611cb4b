/-
# Paths by their components

`std::path::Path` compares paths by their components, and most of what is done with
a path is done with these: joining, taking a prefix off, displaying.  Here a path is
the list of its components.  The text of a relative path is read back as the path
(`components_intercalate`).
-/

import Mise.Path

namespace Mise

/-- A path, by its components. -/
abbrev Dir := List Component

namespace Dir

/-- The components of a name that is not absolute, below another path. -/
def names (name : String) : Dir :=
  ((name.toList.splitOn '/').filter fun n => n ≠ [] ∧ n ≠ ['.']).map fun n =>
    if n = ['.', '.'] then .parentDir else .normal n

/-- `Path::join`. -/
def join (p : Dir) (name : String) : Dir :=
  if name.toList.head? = some '/' then (PathBuf.mk name).components else p ++ names name

/-- `Component::as_os_str`. -/
def componentText : Component → List Char
  | .rootDir => ['/']
  | .curDir => ['.']
  | .parentDir => ['.', '.']
  | .normal name => name

/-- `Path::display`. -/
def display (p : Dir) : String :=
  match p with
  | .rootDir :: rest => String.ofList ('/' :: ['/'].intercalate (rest.map componentText))
  | _ => String.ofList (['/'].intercalate (p.map componentText))

/-- A component that a path has below another. -/
def IsSegment (c : Component) : Prop :=
  '/' ∉ componentText c ∧ componentText c ≠ [] ∧ componentText c ≠ ['.'] ∧
    (if componentText c = ['.', '.'] then Component.parentDir else .normal (componentText c)) = c

theorem isSegment_of_mem_names {name : String} {c : Component} (h : c ∈ names name) :
    IsSegment c := by
  obtain ⟨piece, hpiece, rfl⟩ := List.mem_map.1 h
  obtain ⟨hsplit, hkept⟩ := List.mem_filter.1 hpiece
  have hslash := notMem_of_mem_splitOn hsplit
  obtain ⟨hne, hdot⟩ := of_decide_eq_true hkept
  by_cases hdots : piece = ['.', '.']
  · rw [if_pos hdots]
    refine ⟨?_, ?_, ?_, ?_⟩ <;> decide
  · rw [if_neg hdots]
    exact ⟨hslash, hne, hdot, if_neg hdots⟩

/-- **The text of a relative path is read back as the path.** -/
theorem components_intercalate {p : Dir} (hp : ∀ c ∈ p, IsSegment c) :
    (PathBuf.mk (String.ofList (['/'].intercalate (p.map componentText)))).components = p := by
  by_cases hnil : p = []
  · subst hnil
    rfl
  · have hslash : ∀ l ∈ p.map componentText, '/' ∉ l := by
      intro l hl
      obtain ⟨c, hc, rfl⟩ := List.mem_map.1 hl
      exact (hp c hc).1
    have hsplit := List.splitOn_intercalate '/' hslash (by simpa using hnil)
    obtain ⟨c, rest, rfl⟩ := List.exists_cons_of_ne_nil hnil
    have hc := hp c List.mem_cons_self
    have hhead : (['/'].intercalate ((c :: rest).map componentText)).head? ≠ some '/' := by
      obtain ⟨x, xs, htext⟩ := List.exists_cons_of_ne_nil hc.2.1
      have hx : x ≠ '/' := by
        rintro rfl
        exact hc.1 (htext ▸ List.mem_cons_self)
      rw [List.map_cons, htext]
      cases rest with
      | nil => simpa using hx
      | cons d rest => simpa [List.intercalate, List.intersperse] using hx
    have hkept : ((c :: rest).map componentText).filter (fun n => n ≠ [] ∧ n ≠ ['.']) =
        (c :: rest).map componentText := by
      refine List.filter_eq_self.2 fun l hl => ?_
      obtain ⟨d, hd, rfl⟩ := List.mem_map.1 hl
      exact decide_eq_true ⟨(hp d hd).2.1, (hp d hd).2.2.1⟩
    have hback : ((c :: rest).map componentText).map
        (fun n => if n = ['.', '.'] then Component.parentDir else .normal n) = c :: rest := by
      rw [List.map_map]
      exact (List.map_congr_left fun d hd => (hp d hd).2.2.2).trans (List.map_id _)
    have hdot : ((c :: rest).map componentText).head? ≠ some ['.'] := by
      rw [List.map_cons, List.head?_cons]
      exact fun h => hc.2.2.1 (Option.some.inj h)
    rw [PathBuf.components]
    simp only [String.toList_ofList, hsplit, hkept, hback, if_neg hhead, if_neg hdot]
    rfl

/-- A name without slashes is one component, unless it is no name. -/
theorem names_eq_singleton {name : String} (hslash : '/' ∉ name.toList) (hne : name.toList ≠ [])
    (hdot : name.toList ≠ ['.']) (hdots : name.toList ≠ ['.', '.']) :
    names name = [.normal name.toList] := by
  rw [names, List.splitOn_eq_singleton hslash]
  simp [hne, hdot, hdots]

theorem join_of_notMem {name : String} (hslash : '/' ∉ name.toList) (p : Dir) :
    join p name = p ++ names name := by
  rw [join, if_neg fun h => hslash (List.mem_of_head? h)]

end Dir

end Mise
