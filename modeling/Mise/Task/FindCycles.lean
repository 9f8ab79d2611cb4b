/-
# The search for dependency cycles

`find_cycles` in `src/task/deps.rs`: over the strongly connected components of
the graph, and from each node of one in the order of their indices, a search
with an explicit stack of nodes, their dependencies and the number of these
already followed, and with the path to the node on top and the set of nodes on
it. It ends as soon as `limit` cycles are found, if there is a limit.

The search is an enumeration (`searchLoop_frame`): what a frame of the stack
finds before it is popped is what the recursion over the paths finds from it,
and popping it restores the path and the set. So the cycles found are exactly
the elementary ones, each once, from its node of least index
(`findCycles_exact`). The components are a parameter, since `kosaraju_scc` is
petgraph's.
-/

import Mathlib.Data.List.Dedup
import Mathlib.Data.List.Sort
import Mise.Lib.Cycles
import Mise.Lib.SwapGraph

namespace Mise

open Lib Relation

namespace FindCycles

/-! ### The search -/

/-- The nodes of the paths found, by their indices. -/
abbrev Cycles := List (List ℕ)

/-- The state of the search from a node, the stack with its top first. -/
structure Search where
  path : List ℕ
  inPath : List ℕ
  stack : List (ℕ × List ℕ × ℕ)
  cycles : Cycles

section Model

variable {ν : Type} (graph : DiGraph ν) (component : List ℕ) (limit : Option ℕ)

/-- The dependencies of a node in its component, by their indices. -/
def dependenciesOf (node : ℕ) : List ℕ :=
  (((graph.edges.filter fun e => e.1 = node).map Prod.snd).filter
    fun node => node ∈ component).insertionSort (· ≤ ·)

/-- `limit.is_some_and(|limit| cycles.len() >= limit)`. -/
def reached (cycles : Cycles) : Bool := limit.any fun limit => limit ≤ cycles.length

/-- A cycle more; an error where the search returns at once. -/
def pushCycle (cycles : Cycles) (cycle : List ℕ) : Except Cycles Cycles :=
  let cycles := cycles ++ [cycle]
  if reached limit cycles then .error cycles else .ok cycles

/-- One turn of the loop over the stack. -/
def searchStep (start : ℕ) (s : Search) : Except Cycles Search :=
  match s.stack with
  | [] => .ok s
  | (node, dependencies, next) :: stack =>
    match dependencies[next]? with
    | none => .ok { s with path := s.path.dropLast, inPath := s.inPath.erase node, stack }
    | some dependency =>
      let stack := (node, dependencies, next + 1) :: stack
      if dependency = start then
        match pushCycle limit s.cycles (s.path ++ [start]) with
        | .error cycles => .error cycles
        | .ok cycles => .ok { s with stack, cycles }
      else if start ≤ dependency ∧ dependency ∉ s.inPath then
        .ok { s with
          path := s.path ++ [dependency]
          inPath := dependency :: s.inPath
          stack := (dependency, dependenciesOf graph component dependency, 0) :: stack }
      else .ok { s with stack }

/-- The loop over the stack, for at most `fuel` turns; `none` when it has not
ended. -/
def searchLoop (start : ℕ) : ℕ → Search → Option (Except Cycles Cycles)
  | fuel, s =>
    match s.stack with
    | [] => some (.ok s.cycles)
    | _ :: _ =>
      match fuel with
      | 0 => none
      | fuel + 1 =>
        match searchStep graph component limit start s with
        | .error cycles => some (.error cycles)
        | .ok s => searchLoop start fuel s

/-- One search after another, until one of them returns. -/
def forEach {α : Type} (search : α → Cycles → Option (Except Cycles Cycles)) :
    List α → Cycles → Option (Except Cycles Cycles)
  | [], cycles => some (.ok cycles)
  | a :: l, cycles =>
    match search a cycles with
    | some (.ok cycles) => forEach search l cycles
    | r => r

/-- The cycles through a component. -/
def searchComponent (fuel : ℕ) (component : List ℕ) (cycles : Cycles) :
    Option (Except Cycles Cycles) :=
  let component := component.dedup
  match component with
  | [node] =>
    let cycles := if (node, node) ∈ graph.edges then cycles ++ [[node, node]] else cycles
    if reached limit cycles then some (.error cycles) else some (.ok cycles)
  | _ =>
    forEach (fun start cycles =>
      searchLoop graph component limit start fuel
        ⟨[start], [start], [(start, dependenciesOf graph component start, 0)], cycles⟩)
      (component.insertionSort (· ≤ ·)) cycles

/-- `find_cycles`, given the components, each loop for at most `fuel` turns. -/
def findCycles (components : List (List ℕ)) (fuel : ℕ) : Option Cycles :=
  (forEach (searchComponent graph limit fuel) components []).map fun r =>
    match r with
    | .error cycles => cycles
    | .ok cycles => cycles

end Model

/-! ### A frame of the stack -/

section Frames

variable {ν : Type} {graph : DiGraph ν} {component : List ℕ} {limit : Option ℕ} {start : ℕ}

theorem mem_dependenciesOf_iff {a b : ℕ} :
    b ∈ dependenciesOf graph component a ↔ (a, b) ∈ graph.edges ∧ b ∈ component := by
  rw [dependenciesOf, List.mem_insertionSort, List.mem_filter, List.mem_map, decide_eq_true_eq]
  refine and_congr_left fun _ => ?_
  constructor
  · rintro ⟨⟨x, y⟩, hmem, rfl⟩
    obtain ⟨hmem, heq⟩ := List.mem_filter.1 hmem
    rwa [← of_decide_eq_true heq]
  · exact fun hmem => ⟨(a, b), List.mem_filter.2 ⟨hmem, decide_eq_true rfl⟩, rfl⟩

theorem nodup_dependenciesOf (hedges : graph.edges.Nodup) (a : ℕ) :
    (dependenciesOf graph component a).Nodup := by
  refine (List.perm_insertionSort _ _).nodup_iff.2 (List.Nodup.filter _ ?_)
  refine List.Nodup.map_on ?_ (hedges.filter _)
  intro x hx y hy heq
  have hx := of_decide_eq_true (List.mem_filter.1 hx).2
  have hy := of_decide_eq_true (List.mem_filter.1 hy).2
  exact Prod.ext (hx.trans hy.symm) heq

/-- What the search does with the result of one frame. -/
def resume (r : Except Cycles Cycles) (rest : Cycles → Option (Except Cycles Cycles)) :
    Option (Except Cycles Cycles) :=
  match r with
  | .error cycles => some (.error cycles)
  | .ok cycles => rest cycles

theorem searchLoop_succ_of_ok {s s' : Search} (h : s.stack ≠ [])
    (hstep : searchStep graph component limit start s = .ok s') (fuel : ℕ) :
    searchLoop graph component limit start (fuel + 1) s =
      searchLoop graph component limit start fuel s' := by
  obtain ⟨frame, stack, heq⟩ := List.exists_cons_of_ne_nil h
  rw [searchLoop, heq, hstep]

theorem searchLoop_succ_of_error {s : Search} {cycles : Cycles} (h : s.stack ≠ [])
    (hstep : searchStep graph component limit start s = .error cycles) (fuel : ℕ) :
    searchLoop graph component limit start (fuel + 1) s = some (.error cycles) := by
  obtain ⟨frame, stack, heq⟩ := List.exists_cons_of_ne_nil h
  rw [searchLoop, heq, hstep]

theorem resume_foldlM_append (l₁ l₂ : Cycles) (cycles : Cycles)
    (rest : Cycles → Option (Except Cycles Cycles)) :
    resume ((l₁ ++ l₂).foldlM (pushCycle limit) cycles) rest =
      resume (l₁.foldlM (pushCycle limit) cycles) fun cycles =>
        resume (l₂.foldlM (pushCycle limit) cycles) rest := by
  rw [List.foldlM_append]
  cases l₁.foldlM (pushCycle limit) cycles with
  | error e => rfl
  | ok cycles => rfl

/-- The rest of a frame's dependencies, if each one not on the path is searched
as the recursion does. -/
theorem searchLoop_dependencies {n : ℕ} {path inPath dependencies : List ℕ} {v : ℕ}
    {stack : List (ℕ × List ℕ × ℕ)} (hin : ∀ x, x ∈ v :: inPath ↔ x ∈ path ++ [v])
    (hfresh : ∀ d next cycles, d ∈ dependencies → start < d → d ∉ path ++ [v] →
      ∃ turns, ∀ fuel,
        searchLoop graph component limit start (fuel + turns)
            ⟨path ++ [v] ++ [d], d :: v :: inPath,
              (d, dependenciesOf graph component d, 0) :: (v, dependencies, next) :: stack,
              cycles⟩ =
          resume ((extendPath (dependenciesOf graph component) start n (path ++ [v]) d).foldlM
            (pushCycle limit) cycles) fun cycles => searchLoop graph component limit start fuel
              ⟨path ++ [v], v :: inPath, (v, dependencies, next) :: stack, cycles⟩)
    (next : ℕ) (cycles : Cycles) :
    ∃ turns, ∀ fuel,
      searchLoop graph component limit start (fuel + turns)
          ⟨path ++ [v], v :: inPath, (v, dependencies, next) :: stack, cycles⟩ =
        resume (((dependencies.drop next).flatMap (extendPath (dependenciesOf graph component)
          start n (path ++ [v]))).foldlM (pushCycle limit) cycles) fun cycles =>
            searchLoop graph component limit start fuel ⟨path, inPath, stack, cycles⟩ := by
  induction hleft : dependencies.length - next generalizing next cycles with
  | zero =>
    have hnone : dependencies[next]? = none :=
      List.getElem?_eq_none (Nat.sub_eq_zero_iff_le.1 hleft)
    refine ⟨1, fun fuel => ?_⟩
    rw [List.drop_eq_nil_of_le (Nat.sub_eq_zero_iff_le.1 hleft)]
    refine searchLoop_succ_of_ok (List.cons_ne_nil _ _) ?_ fuel
    simp only [searchStep, hnone, List.dropLast_concat, List.erase_cons_head]
  | succ left ihleft =>
    have hlt : next < dependencies.length := by omega
    obtain ⟨turns, hturns⟩ := ihleft (next + 1) cycles (by omega)
    have hsome : dependencies[next]? = some dependencies[next] := List.getElem?_eq_getElem hlt
    rw [List.drop_eq_getElem_cons hlt, List.flatMap_cons]
    generalize hd : dependencies[next] = d at hsome
    by_cases hstart : d = start
    · -- a cycle is closed
      subst hstart
      rw [extendPath_start, List.singleton_append, List.foldlM_cons]
      cases hpush : pushCycle limit cycles (path ++ [v] ++ [d]) with
      | error found =>
        refine ⟨1, fun fuel => searchLoop_succ_of_error (List.cons_ne_nil _ _) ?_ fuel⟩
        simp only [searchStep, hsome, if_pos, hpush]
      | ok cycles' =>
        obtain ⟨turns, hturns⟩ := ihleft (next + 1) cycles' (by omega)
        refine ⟨turns + 1, fun fuel => (searchLoop_succ_of_ok (List.cons_ne_nil _ _) ?_
          (fuel + turns)).trans (hturns fuel)⟩
        simp only [searchStep, hsome, if_pos, hpush]
    · by_cases hgo : start ≤ d ∧ d ∉ path ++ [v]
      · -- the search goes on from the dependency, and comes back
        obtain ⟨turns₁, hturns₁⟩ := hfresh d (next + 1) cycles (hd ▸ List.getElem_mem hlt)
          (lt_of_le_of_ne hgo.1 (Ne.symm hstart)) hgo.2
        have hgo' : start ≤ d ∧ d ∉ v :: inPath := by rwa [hin]
        have hstep : ∀ fuel, searchLoop graph component limit start (fuel + turns₁ + 1)
            ⟨path ++ [v], v :: inPath, (v, dependencies, next) :: stack, cycles⟩ =
              resume ((extendPath (dependenciesOf graph component) start n (path ++ [v]) d).foldlM
                (pushCycle limit) cycles) fun cycles => searchLoop graph component limit start fuel
                  ⟨path ++ [v], v :: inPath, (v, dependencies, next + 1) :: stack, cycles⟩ := by
          refine fun fuel => (searchLoop_succ_of_ok (List.cons_ne_nil _ _) ?_ _).trans
            (hturns₁ fuel)
          simp only [searchStep, hsome, if_neg hstart, if_pos hgo']
        simp only [resume_foldlM_append]
        cases hfound : (extendPath (dependenciesOf graph component) start n (path ++ [v]) d).foldlM
            (pushCycle limit) cycles with
        | error found =>
          refine ⟨turns₁ + 1, fun fuel => (hstep fuel).trans ?_⟩
          rw [hfound]
          rfl
        | ok cycles' =>
          obtain ⟨turns₂, hturns₂⟩ := ihleft (next + 1) cycles' (by omega)
          refine ⟨turns₂ + turns₁ + 1, fun fuel => ?_⟩
          have hrest := hstep (fuel + turns₂)
          rw [hfound] at hrest
          exact (congrArg (searchLoop graph component limit start · _) (by omega)).trans
            (hrest.trans (hturns₂ fuel))
      · rw [extendPath_of_not hstart hgo, List.nil_append]
        refine ⟨turns + 1, fun fuel => (searchLoop_succ_of_ok (List.cons_ne_nil _ _) ?_
          (fuel + turns)).trans (hturns fuel)⟩
        have hgo' : ¬ (start ≤ d ∧ d ∉ v :: inPath) := by rwa [hin]
        simp only [searchStep, hsome, if_neg hstart, if_neg hgo']

/-- A path with another node of the component on it. -/
theorem grown {path : List ℕ} {d : ℕ} (hnodup : path.Nodup) (hpath : ∀ x ∈ path, x ∈ component)
    (hd : d ∈ component) (hnew : d ∉ path) :
    (path ++ [d]).Nodup ∧ ∀ x ∈ path ++ [d], x ∈ component := by
  refine ⟨?_, fun x hx => ?_⟩
  · rw [← List.concat_eq_append]
    exact hnodup.concat hnew
  · rcases List.mem_append.1 hx with hx | hx
    · exact hpath x hx
    · exact List.mem_singleton.1 hx ▸ hd

/-- **Until a frame is popped the search finds what the recursion finds**, and
then has the path and the set it had before. -/
theorem searchLoop_frame (n : ℕ) {path inPath dependencies : List ℕ} {v next : ℕ}
    {stack : List (ℕ × List ℕ × ℕ)} {cycles : Cycles}
    (hin : ∀ x, x ∈ v :: inPath ↔ x ∈ path ++ [v]) (hnodup : (path ++ [v]).Nodup)
    (hpath : ∀ x ∈ path ++ [v], x ∈ component) (hdeps : ∀ x ∈ dependencies, x ∈ component)
    (hn : component.length ≤ (path ++ [v]).length + n) :
    ∃ turns, ∀ fuel,
      searchLoop graph component limit start (fuel + turns)
          ⟨path ++ [v], v :: inPath, (v, dependencies, next) :: stack, cycles⟩ =
        resume (((dependencies.drop next).flatMap (extendPath (dependenciesOf graph component)
          start n (path ++ [v]))).foldlM (pushCycle limit) cycles) fun cycles =>
            searchLoop graph component limit start fuel ⟨path, inPath, stack, cycles⟩ := by
  induction n generalizing path inPath dependencies v next stack cycles with
  | zero =>
    refine searchLoop_dependencies hin (fun d _ _ hd _ hnew => absurd hn ?_) next cycles
    -- the path has all of the component already
    obtain ⟨hgrown, hsub⟩ := grown hnodup hpath (hdeps d hd) hnew
    have hlong := (List.subperm_of_subset hgrown hsub).length_le
    rw [List.length_append, List.length_singleton] at hlong
    omega
  | succ n ih =>
    refine searchLoop_dependencies hin (fun d next cycles hd hlt hnew => ?_) next cycles
    obtain ⟨hgrown, hsub⟩ := grown hnodup hpath (hdeps d hd) hnew
    rw [extendPath_succ_of_lt hlt hnew]
    have hin' : ∀ x, x ∈ d :: v :: inPath ↔ x ∈ path ++ [v] ++ [d] := by
      intro x
      rw [List.mem_cons, hin, List.mem_append (s := path ++ [v]), List.mem_singleton, or_comm]
    have hn' : component.length ≤ (path ++ [v] ++ [d]).length + n := by
      have hlength := @List.length_append _ (path ++ [v]) [d]
      rw [List.length_singleton] at hlength
      omega
    exact ih hin' hgrown hsub (fun x hx => (mem_dependenciesOf_iff.1 hx).2) hn'

end Frames

/-! ### The components -/

section Components

variable {ν : Type} {graph : DiGraph ν} {limit : Option ℕ}

/-- The search from one node of a component ends, with what the recursion finds
from it. -/
theorem searchLoop_start {component : List ℕ} {start : ℕ}
    (hstart : start ∈ component) (cycles : Cycles) :
    ∃ turns, ∀ fuel, turns ≤ fuel →
      searchLoop graph component limit start fuel
          ⟨[start], [start], [(start, dependenciesOf graph component start, 0)], cycles⟩ =
        some (((dependenciesOf graph component start).flatMap (extendPath
          (dependenciesOf graph component) start component.length [start])).foldlM
            (pushCycle limit) cycles) := by
  obtain ⟨turns, hturns⟩ := @searchLoop_frame ν graph component limit start component.length
    [] [] (dependenciesOf graph component start) start 0 [] cycles (fun x => Iff.rfl)
    (List.nodup_singleton start) (fun x hx => List.mem_singleton.1 hx ▸ hstart)
    (fun x hx => (mem_dependenciesOf_iff.1 hx).2) (Nat.le_add_left _ _)
  refine ⟨turns, fun fuel hfuel => ?_⟩
  obtain ⟨fuel, rfl⟩ := Nat.exists_eq_add_of_le' hfuel
  refine (hturns fuel).trans ?_
  rw [List.drop_zero, List.nil_append]
  cases (List.flatMap _ _).foldlM (pushCycle limit) cycles with
  | error found => rfl
  | ok cycles => cases fuel <;> rfl

/-- One search after another ends if each does. -/
theorem forEach_spec {α : Type} {search : ℕ → α → Cycles → Option (Except Cycles Cycles)}
    {found : α → Cycles} {P : Cycles → Prop} {l : List α}
    (hsearch : ∀ a ∈ l, ∀ cycles, P cycles → ∃ turns, ∀ fuel, turns ≤ fuel →
      search fuel a cycles = some ((found a).foldlM (pushCycle limit) cycles))
    (hP : ∀ a ∈ l, ∀ cycles cycles', P cycles →
      (found a).foldlM (pushCycle limit) cycles = .ok cycles' → P cycles')
    {cycles : Cycles} (h : P cycles) :
    ∃ turns, ∀ fuel, turns ≤ fuel → forEach (search fuel) l cycles =
      some ((l.flatMap found).foldlM (pushCycle limit) cycles) := by
  induction l generalizing cycles with
  | nil => exact ⟨0, fun _ _ => rfl⟩
  | cons a l ih =>
    obtain ⟨turns₁, hturns₁⟩ := hsearch a List.mem_cons_self cycles h
    simp only [List.flatMap_cons, List.foldlM_append]
    cases hfound : (found a).foldlM (pushCycle limit) cycles with
    | error e =>
      refine ⟨turns₁, fun fuel hfuel => ?_⟩
      rw [forEach, hturns₁ fuel hfuel, hfound]
      rfl
    | ok cycles' =>
      obtain ⟨turns₂, hturns₂⟩ := ih (fun b hb => hsearch b (List.mem_cons_of_mem a hb))
        (fun b hb => hP b (List.mem_cons_of_mem a hb)) (hP a List.mem_cons_self _ _ h hfound)
      refine ⟨max turns₁ turns₂, fun fuel hfuel => ?_⟩
      rw [forEach, hturns₁ fuel (le_of_max_le_left hfuel), hfound]
      exact hturns₂ fuel (le_of_max_le_right hfuel)

/-- The cycles through a component, as the recursion finds them. -/
def componentCycles (graph : DiGraph ν) (component : List ℕ) : Cycles :=
  match component.dedup with
  | [node] => if (node, node) ∈ graph.edges then [[node, node]] else []
  | component => (component.insertionSort (· ≤ ·)).flatMap fun start =>
    (dependenciesOf graph component start).flatMap
      (extendPath (dependenciesOf graph component) start component.length [start])

/-- Away from the limit a component's search finds what the recursion finds. -/
theorem searchComponent_spec (component : List ℕ) {cycles : Cycles}
    (h : reached limit cycles = false) :
    ∃ turns, ∀ fuel, turns ≤ fuel → searchComponent graph limit fuel component cycles =
      some ((componentCycles graph component).foldlM (pushCycle limit) cycles) := by
  unfold searchComponent componentCycles
  dsimp only
  split
  · rename_i node _
    refine ⟨0, fun _ _ => ?_⟩
    by_cases hedge : (node, node) ∈ graph.edges
    · rw [if_pos hedge, if_pos hedge, List.foldlM_cons, pushCycle]
      split_ifs
      · rfl
      · rfl
    · rw [if_neg hedge, if_neg hedge, h]
      rfl
  · refine forEach_spec (P := fun _ => True) (fun start hstart cycles _ => ?_)
      (fun _ _ _ _ _ _ => trivial) trivial
    exact searchLoop_start ((List.mem_insertionSort _).1 hstart) cycles

/-- What is found before the limit leaves it out of reach. -/
theorem reached_of_foldlM {found cycles cycles' : Cycles} (h : reached limit cycles = false)
    (hfound : found.foldlM (pushCycle limit) cycles = .ok cycles') :
    reached limit cycles' = false := by
  induction found generalizing cycles with
  | nil =>
    obtain rfl := Except.ok.inj hfound
    exact h
  | cons cycle found ih =>
    rw [List.foldlM_cons, pushCycle] at hfound
    split_ifs at hfound with hreached
    · cases hfound
    · exact ih (Bool.eq_false_iff.2 hreached) hfound

/-- The searches of the components end, with what the recursion finds. -/
theorem forEach_searchComponent {cycles : Cycles} (h : reached limit cycles = false)
    (components : List (List ℕ)) :
    ∃ turns, ∀ fuel, turns ≤ fuel →
      forEach (searchComponent graph limit fuel) components cycles =
        some ((components.flatMap (componentCycles graph)).foldlM (pushCycle limit) cycles) :=
  forEach_spec (P := fun cycles => reached limit cycles = false)
    (fun component _ _ hcycles => searchComponent_spec component hcycles)
    (fun _ _ _ _ hcycles hfound => reached_of_foldlM hcycles hfound) h

theorem foldlM_pushCycle_none (found cycles : Cycles) :
    found.foldlM (pushCycle none) cycles = .ok (cycles ++ found) := by
  induction found generalizing cycles with
  | nil => rw [List.append_nil]; rfl
  | cons cycle found ih =>
    have hpush : pushCycle none cycles cycle = .ok (cycles ++ [cycle]) := rfl
    rw [List.foldlM_cons, hpush]
    exact (ih _).trans (by rw [List.append_assoc, List.singleton_append])

/-- **Without a limit the search ends, with all the recursion finds.** -/
theorem findCycles_none (graph : DiGraph ν) (components : List (List ℕ)) :
    ∃ turns, ∀ fuel, turns ≤ fuel → findCycles graph none components fuel =
      some (components.flatMap (componentCycles graph)) := by
  obtain ⟨turns, hturns⟩ := @forEach_searchComponent ν graph none [] rfl components
  refine ⟨turns, fun fuel hfuel => ?_⟩
  rw [findCycles, hturns fuel hfuel, foldlM_pushCycle_none]
  rfl

/-- **With a limit of one it ends, with the first of these.** -/
theorem findCycles_one (graph : DiGraph ν) (components : List (List ℕ)) :
    ∃ turns, ∀ fuel, turns ≤ fuel → findCycles graph (some 1) components fuel =
      some ((components.flatMap (componentCycles graph)).take 1) := by
  obtain ⟨turns, hturns⟩ := @forEach_searchComponent ν graph (some 1) [] rfl components
  refine ⟨turns, fun fuel hfuel => ?_⟩
  rw [findCycles, hturns fuel hfuel]
  cases components.flatMap (componentCycles graph) with
  | nil => rfl
  | cons cycle found => rfl

theorem forEach_ends {α : Type} {search : ℕ → α → Cycles → Option (Except Cycles Cycles)}
    (hsearch : ∀ a cycles, ∃ turns r, ∀ fuel, turns ≤ fuel → search fuel a cycles = some r)
    (l : List α) (cycles : Cycles) :
    ∃ turns r, ∀ fuel, turns ≤ fuel → forEach (search fuel) l cycles = some r := by
  induction l generalizing cycles with
  | nil => exact ⟨0, _, fun _ _ => rfl⟩
  | cons a l ih =>
    obtain ⟨turns₁, r, hturns₁⟩ := hsearch a cycles
    cases r with
    | error found =>
      refine ⟨turns₁, .error found, fun fuel hfuel => ?_⟩
      rw [forEach, hturns₁ fuel hfuel]
    | ok cycles' =>
      obtain ⟨turns₂, r, hturns₂⟩ := ih cycles'
      refine ⟨max turns₁ turns₂, r, fun fuel hfuel => ?_⟩
      rw [forEach, hturns₁ fuel (le_of_max_le_left hfuel)]
      exact hturns₂ fuel (le_of_max_le_right hfuel)

theorem searchComponent_ends (component : List ℕ) (cycles : Cycles) :
    ∃ turns r, ∀ fuel, turns ≤ fuel →
      searchComponent graph limit fuel component cycles = some r := by
  unfold searchComponent
  dsimp only
  split
  · split_ifs <;> exact ⟨0, _, fun _ _ => rfl⟩
  · obtain ⟨turns, hturns⟩ := @forEach_spec limit _ _ _ (fun _ => True) _
      (fun start hstart cycles _ =>
        searchLoop_start ((List.mem_insertionSort (· ≤ ·)).1 hstart) cycles)
      (fun _ _ _ _ _ _ => trivial) cycles trivial
    exact ⟨turns, _, hturns⟩

/-- **The search ends, whatever the limit and the components.** -/
theorem findCycles_ends (graph : DiGraph ν) (limit : Option ℕ) (components : List (List ℕ)) :
    ∃ turns cycles, ∀ fuel, turns ≤ fuel →
      findCycles graph limit components fuel = some cycles := by
  obtain ⟨turns, r, hturns⟩ := forEach_ends searchComponent_ends components []
  exact ⟨turns, _, fun fuel hfuel => by rw [findCycles, hturns fuel hfuel]; rfl⟩

end Components

/-! ### Exactness -/

section Exact

variable {ν : Type} {graph : DiGraph ν} {components : List (List ℕ)}

/-- A graph without parallel edges, as `update_edge` keeps it, whose edges join
its nodes. -/
structure IsSimple (graph : DiGraph ν) : Prop where
  nodup : graph.edges.Nodup
  inside : ∀ e ∈ graph.edges, e.1 < graph.nodes.length ∧ e.2 < graph.nodes.length

/-- An edge of the graph. -/
def Edge (graph : DiGraph ν) (a b : ℕ) : Prop := (a, b) ∈ graph.edges

/-- The strongly connected components: every node is in one of them, once, with
the nodes that it reaches and that reach it. -/
structure IsScc (graph : DiGraph ν) (components : List (List ℕ)) : Prop where
  nodes : components.flatten.Perm (List.range graph.nodes.length)
  connected : ∀ component ∈ components, ∀ a ∈ component, ∀ b, b ∈ component ↔
    ReflTransGen (Edge graph) a b ∧ ReflTransGen (Edge graph) b a

theorem IsScc.nodup (h : IsScc graph components) {component : List ℕ}
    (hmem : component ∈ components) : component.Nodup :=
  (List.nodup_flatten.1 (h.nodes.nodup_iff.2 List.nodup_range)).1 component hmem

/-- A cycle stays in the component of its start. -/
theorem IsScc.mem_of_isElementary (h : IsScc graph components) {component : List ℕ}
    (hmem : component ∈ components) {a : ℕ} (ha : a ∈ component) {us : List ℕ}
    (hus : IsElementary (Edge graph) a us) {u : ℕ} (hu : u ∈ us) : u ∈ component :=
  (h.connected component hmem a ha u).2 (hus.reaches hu)

/-- The vertices of a cycle in a component are no more than it has. -/
theorem length_le_of_isElementary {component us : List ℕ} {a : ℕ}
    (hus : IsElementary (Edge graph) a us) (hin : ∀ x ∈ a :: us, x ∈ component) :
    us.length + 1 ≤ component.length :=
  (List.subperm_of_subset hus.nodup hin).length_le

/-- The cycles of a component are those from its nodes. -/
theorem mem_componentCycles_iff (h : IsScc graph components) {component : List ℕ}
    (hmem : component ∈ components) {cycle : List ℕ} :
    cycle ∈ componentCycles graph component ↔
      ∃ a us, cycle = a :: (us ++ [a]) ∧ a ∈ component ∧ IsElementary (Edge graph) a us ∧
        ∀ u ∈ us, a < u := by
  have hin : ∀ a ∈ component, ∀ us, IsElementary (Edge graph) a us →
      ∀ x ∈ a :: us, x ∈ component := fun a ha us hus =>
    List.forall_mem_cons.2 ⟨ha, fun u hu => h.mem_of_isElementary hmem ha hus hu⟩
  unfold componentCycles
  rw [List.dedup_eq_self.2 (h.nodup hmem)]
  split
  · rename_i node
    -- a component of one node has only its loop
    have hiff : (∃ a us, cycle = a :: (us ++ [a]) ∧ a ∈ [node] ∧
        IsElementary (Edge graph) a us ∧ ∀ u ∈ us, a < u) ↔
          (node, node) ∈ graph.edges ∧ cycle = [node, node] := by
      constructor
      · rintro ⟨a, us, rfl, ha, hus, -⟩
        have hlength := length_le_of_isElementary hus (hin a ha us hus)
        obtain rfl := List.length_eq_zero_iff.1 (Nat.le_zero.1 (Nat.le_of_succ_le_succ hlength))
        obtain rfl := List.mem_singleton.1 ha
        exact ⟨List.isChain_pair.1 hus.walk, rfl⟩
      · rintro ⟨hedge, rfl⟩
        exact ⟨node, [], rfl, List.mem_cons_self,
          ⟨List.nodup_singleton node, List.isChain_pair.2 hedge⟩, nofun⟩
    rw [hiff]
    split_ifs with hedge
    · rw [List.mem_singleton]
      exact (and_iff_right hedge).symm
    · exact iff_of_false List.not_mem_nil fun hcycle => hedge hcycle.1
  · rw [List.mem_flatMap]
    constructor
    · rintro ⟨a, ha, hcycle⟩
      obtain ⟨us, rfl, hus, hlt, -⟩ := mem_flatMap_extendPath_iff.1 hcycle
      exact ⟨a, us, rfl, (List.mem_insertionSort _).1 ha,
        hus.imp fun _ _ _ _ hxy => (mem_dependenciesOf_iff.1 hxy).1, hlt⟩
    · rintro ⟨a, us, rfl, ha, hus, hlt⟩
      refine ⟨a, (List.mem_insertionSort _).2 ha, mem_flatMap_extendPath_iff.2 ⟨us, rfl,
        hus.imp fun _ y _ hy hxy => mem_dependenciesOf_iff.2 ⟨hxy, hin a ha us hus y hy⟩, hlt, ?_⟩⟩
      exact Nat.le_of_succ_le (length_le_of_isElementary hus (hin a ha us hus))

/-- The components' cycles are the graph's, from the nodes of least index. -/
theorem mem_flatMap_componentCycles_iff (hgraph : IsSimple graph) (h : IsScc graph components)
    {cycle : List ℕ} :
    cycle ∈ components.flatMap (componentCycles graph) ↔ IsRootedCycle (Edge graph) cycle := by
  rw [List.mem_flatMap]
  constructor
  · rintro ⟨component, hmem, hcycle⟩
    obtain ⟨a, us, rfl, -, hus, hlt⟩ := (mem_componentCycles_iff h hmem).1 hcycle
    exact ⟨a, us, rfl, hus, hlt⟩
  · rintro ⟨a, us, rfl, hus, hlt⟩
    -- the start has an edge, so that it is one of the nodes
    obtain ⟨b, hedge, -⟩ := TransGen.head'_iff.1 hus.transGen
    have hnode : a ∈ components.flatten :=
      h.nodes.mem_iff.2 (List.mem_range.2 (hgraph.inside _ hedge).1)
    obtain ⟨component, hmem, ha⟩ := List.mem_flatten.1 hnode
    exact ⟨component, hmem, (mem_componentCycles_iff h hmem).2 ⟨a, us, rfl, ha, hus, hlt⟩⟩

theorem nodup_componentCycles (hgraph : IsSimple graph) (component : List ℕ) :
    (componentCycles graph component).Nodup := by
  unfold componentCycles
  split
  · split_ifs
    · exact List.nodup_singleton _
    · exact List.nodup_nil
  · have hdeps : ∀ a, (dependenciesOf graph component.dedup a).Nodup :=
      nodup_dependenciesOf hgraph.nodup
    refine List.nodup_flatMap.2 ⟨fun a _ => ?_, ?_⟩
    · exact nodup_flatMap_extendPath (hdeps a) fun d => nodup_extendPath hdeps _ _ d
    · have hstarts : (component.dedup.insertionSort (· ≤ ·)).Nodup :=
        (List.perm_insertionSort _ _).nodup_iff.2 (List.nodup_dedup component)
      refine hstarts.imp fun {a b} hab cycle ha hb => ?_
      obtain ⟨us, rfl, -⟩ := mem_flatMap_extendPath_iff.1 ha
      obtain ⟨vs, heq, -⟩ := mem_flatMap_extendPath_iff.1 hb
      exact hab (List.cons.inj heq).1

theorem nodup_flatMap_componentCycles (hgraph : IsSimple graph) (h : IsScc graph components) :
    (components.flatMap (componentCycles graph)).Nodup := by
  have hdisjoint := (List.nodup_flatten.1 (h.nodes.nodup_iff.2 List.nodup_range)).2
  refine List.nodup_flatMap.2 ⟨fun component _ => nodup_componentCycles hgraph component, ?_⟩
  refine hdisjoint.imp_of_mem fun {l₁ l₂} h₁ h₂ hdis cycle hc₁ hc₂ => ?_
  obtain ⟨a, us, rfl, ha, -⟩ := (mem_componentCycles_iff h h₁).1 hc₁
  obtain ⟨b, vs, heq, hb, -⟩ := (mem_componentCycles_iff h h₂).1 hc₂
  exact hdis ha ((List.cons.inj heq).1 ▸ hb)

/-- **`find_cycles` is exact.** It ends, whatever the limit. Without one it finds
every elementary cycle once, along edges of the graph from its node of least
index and back, and nothing else. With a limit of one it finds nothing exactly
if the graph has no cycle. -/
theorem findCycles_exact (hgraph : IsSimple graph) (h : IsScc graph components) :
    (∀ limit, ∃ turns cycles, ∀ fuel, turns ≤ fuel →
      findCycles graph limit components fuel = some cycles) ∧
    (∃ turns cycles, (∀ fuel, turns ≤ fuel →
        findCycles graph none components fuel = some cycles) ∧
      cycles.Nodup ∧ (∀ cycle, cycle ∈ cycles ↔ IsRootedCycle (Edge graph) cycle) ∧
      ∀ a us, IsElementary (Edge graph) a us → ∃! cycle, cycle ∈ cycles ∧
        ∃ b vs, cycle = b :: (vs ++ [b]) ∧ (b :: vs).IsRotated (a :: us)) ∧
    ∃ turns cycles, (∀ fuel, turns ≤ fuel →
        findCycles graph (some 1) components fuel = some cycles) ∧
      (cycles = [] ↔ graph.Acyclic) := by
  refine ⟨fun limit => findCycles_ends graph limit components, ?_, ?_⟩
  · obtain ⟨turns, hturns⟩ := findCycles_none graph components
    refine ⟨turns, _, hturns, nodup_flatMap_componentCycles hgraph h,
      fun _ => mem_flatMap_componentCycles_iff hgraph h, fun a us hus => ?_⟩
    obtain ⟨b, vs, hrot, hvs, hlt⟩ := hus.exists_rooted
    refine ⟨b :: (vs ++ [b]), ⟨(mem_flatMap_componentCycles_iff hgraph h).2
      ⟨b, vs, rfl, hvs, hlt⟩, b, vs, rfl, hrot⟩, ?_⟩
    rintro cycle ⟨hcycle, b', vs', rfl, hrot'⟩
    obtain ⟨root, ws, heq, -, hlt'⟩ := (mem_flatMap_componentCycles_iff hgraph h).1 hcycle
    obtain ⟨rfl, htail⟩ := List.cons.inj heq
    obtain rfl := List.append_cancel_right htail
    obtain ⟨rfl, rfl⟩ := eq_of_isRotated_of_rooted (hrot'.trans hrot.symm) hlt hlt'
    rfl
  · obtain ⟨turns, hturns⟩ := findCycles_one graph components
    refine ⟨turns, _, hturns, ?_⟩
    rw [List.take_eq_nil_iff, or_iff_right one_ne_zero, List.eq_nil_iff_forall_not_mem]
    have hacyclic : graph.Acyclic ↔ ¬ ∃ a us, IsElementary (Edge graph) a us := by
      rw [exists_isElementary_iff, not_exists]
      rfl
    rw [hacyclic]
    constructor
    · rintro hnone ⟨a, us, hus⟩
      obtain ⟨b, vs, -, hvs, hlt⟩ := hus.exists_rooted
      exact hnone _ ((mem_flatMap_componentCycles_iff hgraph h).2 ⟨b, vs, rfl, hvs, hlt⟩)
    · rintro hnone cycle hcycle
      obtain ⟨a, us, -, hus, -⟩ := (mem_flatMap_componentCycles_iff hgraph h).1 hcycle
      exact hnone ⟨a, us, hus⟩

/-- Two tasks that depend on each other. -/
def mutualTasks : DiGraph String := ⟨["a", "b"], [(0, 1), (1, 0)]⟩

theorem isSimple_mutualTasks : IsSimple mutualTasks := ⟨by decide, by decide⟩

theorem isScc_mutualTasks : IsScc mutualTasks [[1, 0]] := by
  have h01 : ReflTransGen (Edge mutualTasks) 0 1 := .single (by decide : (0, 1) ∈ mutualTasks.edges)
  have h10 : ReflTransGen (Edge mutualTasks) 1 0 := .single (by decide : (1, 0) ∈ mutualTasks.edges)
  -- no edge leaves the two nodes
  have hclosed : ∀ a ∈ [1, 0], ∀ b, ReflTransGen (Edge mutualTasks) a b → b ∈ [1, 0] := by
    intro a ha b hab
    induction hab with
    | refl => exact ha
    | @tail x y _ hxy _ =>
      have hall : ∀ e ∈ mutualTasks.edges, e.2 ∈ [1, 0] := by decide
      exact hall (x, y) hxy
  refine ⟨by decide, fun component hmem a ha b => ?_⟩
  obtain rfl := List.mem_singleton.1 hmem
  refine ⟨fun hb => ?_, fun h => hclosed a ha b h.1⟩
  simp only [List.mem_cons, List.not_mem_nil, or_false] at ha hb
  rcases ha with rfl | rfl <;> rcases hb with rfl | rfl
  · exact ⟨.refl, .refl⟩
  · exact ⟨h10, h01⟩
  · exact ⟨h01, h10⟩
  · exact ⟨.refl, .refl⟩

theorem findCycles_exact_mutualTasks :
    ∃ turns cycles, (∀ fuel, turns ≤ fuel → findCycles mutualTasks none [[1, 0]] fuel = some cycles) ∧
      cycles.Nodup ∧ (∀ cycle, cycle ∈ cycles ↔ IsRootedCycle (Edge mutualTasks) cycle) ∧
      ∀ a us, IsElementary (Edge mutualTasks) a us → ∃! cycle, cycle ∈ cycles ∧
        ∃ b vs, cycle = b :: (vs ++ [b]) ∧ (b :: vs).IsRotated (a :: us) :=
  (findCycles_exact isSimple_mutualTasks isScc_mutualTasks).2.1

example : findCycles mutualTasks none [[1, 0]] 10 = some [[0, 1, 0]] := by decide

end Exact

end FindCycles

end Mise
