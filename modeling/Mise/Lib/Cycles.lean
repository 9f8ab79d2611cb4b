/-
# Elementary cycles

A cycle is elementary if it passes through no vertex twice. Every cycle
contains an elementary one (`exists_isElementary`), and every elementary cycle
can be turned so that it starts at its least vertex, in just one way
(`IsElementary.exists_rooted`, `eq_of_isRotated_of_rooted`).

`extendPath` enumerates the elementary cycles that start at their least vertex and
go on from a path: exactly these (`mem_extendPath_iff`), and each once
(`nodup_extendPath`).
-/

import Mathlib.Data.List.Chain
import Mathlib.Data.List.Nodup
import Mathlib.Data.List.Rotate
import Mathlib.Data.Finset.Max
import Mathlib.Data.Finset.Dedup

namespace Mise.Lib

open Relation

/-! ### Elementary cycles -/

section Elementary

variable {α : Type} {r : α → α → Prop} {a : α} {us : List α}

/-- A cycle from `a` through `us` back to `a`, without a vertex twice. -/
structure IsElementary (r : α → α → Prop) (a : α) (us : List α) : Prop where
  nodup : (a :: us).Nodup
  walk : List.IsChain r (a :: (us ++ [a]))

/-- A walk from a vertex to another passes from one to the other by steps. -/
theorem reflTransGen_of_isChain {b : α} {l : List α} (h : List.IsChain r (a :: l))
    (hb : b ∈ a :: l) : ReflTransGen r a b := by
  induction l generalizing a with
  | nil => exact List.mem_singleton.1 hb ▸ .refl
  | cons x l ih =>
    obtain ⟨hstep, hrest⟩ := List.isChain_cons_cons.1 h
    rcases List.mem_cons.1 hb with rfl | hb
    · exact .refl
    · exact (ih hrest hb).head hstep

theorem transGen_of_isChain {b : α} {l : List α} (h : List.IsChain r (a :: l)) (hb : b ∈ l) :
    TransGen r a b := by
  cases l with
  | nil => exact absurd hb List.not_mem_nil
  | cons x l =>
    obtain ⟨hstep, hrest⟩ := List.isChain_cons_cons.1 h
    exact .head' hstep (reflTransGen_of_isChain hrest hb)

theorem IsElementary.transGen (h : IsElementary r a us) : TransGen r a a :=
  transGen_of_isChain h.walk (List.mem_append_right us List.mem_cons_self)

theorem IsElementary.imp {s : α → α → Prop} (h : IsElementary r a us)
    (hrs : ∀ x y, x ∈ a :: us → y ∈ a :: us → r x y → s x y) : IsElementary s a us := by
  have hvertex : ∀ x ∈ a :: (us ++ [a]), x ∈ a :: us := by
    intro x hx
    rcases List.mem_cons.1 hx with rfl | hx
    · exact List.mem_cons_self
    · rcases List.mem_append.1 hx with hx | hx
      · exact List.mem_cons_of_mem a hx
      · exact List.mem_singleton.1 hx ▸ List.mem_cons_self
  exact ⟨h.nodup, h.walk.imp_of_mem_imp fun x y hx hy => hrs x y (hvertex x hx) (hvertex y hy)⟩

/-- The vertices of a cycle are reached from its start, and reach it. -/
theorem IsElementary.reaches (h : IsElementary r a us) {u : α} (hu : u ∈ us) :
    ReflTransGen r a u ∧ ReflTransGen r u a := by
  obtain ⟨front, back, rfl⟩ := List.append_of_mem hu
  have hwalk := h.walk
  refine ⟨reflTransGen_of_isChain hwalk (by simp), ?_⟩
  have hback : List.IsChain r (u :: (back ++ [a])) := by
    refine hwalk.suffix ⟨a :: front, ?_⟩
    rw [List.cons_append, List.append_assoc, List.cons_append]
  exact reflTransGen_of_isChain hback (by simp)

/-- A list with an element twice. -/
theorem exists_split_of_not_nodup {l : List α} (h : ¬ l.Nodup) :
    ∃ front x mid back, l = front ++ x :: (mid ++ x :: back) := by
  induction l with
  | nil => exact absurd List.nodup_nil h
  | cons y l ih =>
    by_cases hy : y ∈ l
    · obtain ⟨mid, back, rfl⟩ := List.append_of_mem hy
      exact ⟨[], y, mid, back, rfl⟩
    · obtain ⟨front, x, mid, back, rfl⟩ := ih fun hl => h (List.nodup_cons.2 ⟨hy, hl⟩)
      exact ⟨y :: front, x, mid, back, rfl⟩

/-- Every closed walk passes along an elementary cycle. -/
theorem exists_isElementary_of_isChain (n : ℕ) {us : List α} (hn : us.length ≤ n)
    (h : List.IsChain r (a :: (us ++ [a]))) : ∃ b vs, IsElementary r b vs := by
  induction n generalizing a us with
  | zero =>
    obtain rfl := List.length_eq_zero_iff.1 (Nat.le_zero.1 hn)
    exact ⟨a, [], List.nodup_singleton a, h⟩
  | succ n ih =>
    by_cases hnodup : (a :: us).Nodup
    · exact ⟨a, us, hnodup, h⟩
    · -- between two passes of a vertex there is a shorter closed walk
      obtain ⟨front, x, mid, back, heq⟩ := exists_split_of_not_nodup hnodup
      have hlength := congrArg List.length heq
      simp only [List.length_cons, List.length_append] at hlength
      have hinner : List.IsChain r (x :: (mid ++ [x])) := by
        refine h.infix ⟨front, back ++ [a], ?_⟩
        rw [show a :: (us ++ [a]) = (a :: us) ++ [a] from rfl, heq]
        simp only [List.append_assoc, List.cons_append, List.nil_append]
      exact ih (by omega) hinner

theorem exists_isChain_of_transGen {b : α} (h : TransGen r a b) :
    ∃ us, List.IsChain r (a :: (us ++ [b])) := by
  induction h using TransGen.head_induction_on with
  | single hstep => exact ⟨[], List.isChain_pair.2 hstep⟩
  | @head x y hstep _ ih =>
    obtain ⟨us, hchain⟩ := ih
    exact ⟨y :: us, List.isChain_cons_cons.2 ⟨hstep, hchain⟩⟩

/-- **A relation without elementary cycles has no cycles.** -/
theorem exists_isElementary_iff : (∃ b vs, IsElementary r b vs) ↔ ∃ b, TransGen r b b := by
  constructor
  · rintro ⟨b, vs, h⟩
    exact ⟨b, h.transGen⟩
  · rintro ⟨b, h⟩
    obtain ⟨us, hchain⟩ := exists_isChain_of_transGen h
    exact exists_isElementary_of_isChain us.length le_rfl hchain

/-- A cycle can be started at any of its vertices. -/
theorem IsElementary.rotate {b : α} {front back : List α} (h : IsElementary r a us)
    (heq : a :: us = front ++ b :: back) : IsElementary r b (back ++ front) := by
  refine ⟨?_, ?_⟩
  · have hnodup := h.nodup
    rw [heq] at hnodup
    exact (@List.perm_append_comm _ front (b :: back)).nodup_iff.1 hnodup
  · have hwalk := h.walk
    rw [← List.cons_append, heq] at hwalk
    cases front with
    | nil =>
      obtain ⟨rfl, rfl⟩ := List.cons.inj heq
      rwa [List.append_nil]
    | cons x front =>
      obtain ⟨rfl, -⟩ := List.cons.inj heq
      have hparts := (@List.isChain_split _ r b (a :: front) (back ++ [a])).1 (by
        simpa only [List.append_assoc, List.cons_append] using hwalk)
      have hturned := (@List.isChain_split _ r a (b :: back) (front ++ [b])).2
        ⟨hparts.2, hparts.1⟩
      simpa only [List.append_assoc, List.cons_append] using hturned

end Elementary

/-! ### Starting at the least vertex -/

section Rooted

variable {α : Type} [LinearOrder α] {r : α → α → Prop} {a : α} {us : List α}

/-- A cycle, written from its least vertex back to it. -/
def IsRootedCycle (r : α → α → Prop) (cycle : List α) : Prop :=
  ∃ a us, cycle = a :: (us ++ [a]) ∧ IsElementary r a us ∧ ∀ u ∈ us, a < u

/-- Every elementary cycle can be written from its least vertex. -/
theorem IsElementary.exists_rooted (h : IsElementary r a us) :
    ∃ b vs, (b :: vs).IsRotated (a :: us) ∧ IsElementary r b vs ∧ ∀ v ∈ vs, b < v := by
  obtain ⟨b, hb, hmin⟩ := (a :: us).toFinset.exists_min_image id ⟨a, by simp⟩
  obtain ⟨front, back, heq⟩ := List.append_of_mem (List.mem_toFinset.1 hb)
  have hrotated := h.rotate heq
  refine ⟨b, back ++ front, ?_, hrotated, fun v hv => ?_⟩
  · rw [heq, ← List.cons_append]
    exact List.isRotated_append
  · refine lt_of_le_of_ne (hmin v (List.mem_toFinset.2 ?_)) ?_
    · rw [heq]
      rcases List.mem_append.1 hv with hv | hv
      · exact List.mem_append_right front (List.mem_cons_of_mem b hv)
      · exact List.mem_append_left _ hv
    · rintro rfl
      exact (List.nodup_cons.1 hrotated.nodup).1 hv

/-- The least vertex decides how a cycle is written. -/
theorem eq_of_isRotated_of_rooted {b : α} {vs : List α} (hrot : (b :: vs).IsRotated (a :: us))
    (ha : ∀ u ∈ us, a < u) (hb : ∀ v ∈ vs, b < v) :
    b = a ∧ vs = us := by
  have hab : a = b := by
    have h₁ : a ∈ b :: vs := hrot.mem_iff.2 List.mem_cons_self
    have h₂ : b ∈ a :: us := hrot.mem_iff.1 List.mem_cons_self
    rcases List.mem_cons.1 h₁ with h | h₁
    · exact h
    · rcases List.mem_cons.1 h₂ with h | h₂
      · exact h.symm
      · exact absurd (hb a h₁) (ha b h₂).asymm
  subst hab
  refine ⟨rfl, ?_⟩
  obtain ⟨n, hn, heq⟩ := List.isRotated_iff_mod.1 hrot
  cases n with
  | zero => exact (List.cons.inj ((List.rotate_zero _).symm.trans heq)).2
  | succ n =>
    rw [List.rotate_eq_drop_append_take hn, List.drop_succ_cons, List.take_succ_cons] at heq
    cases hdrop : vs.drop n with
    | nil =>
      rw [hdrop] at heq
      have htake : vs.take n = vs := List.take_of_length_le (List.drop_eq_nil_iff.1 hdrop)
      rw [← htake]
      exact (List.cons.inj heq).2
    | cons v rest =>
      -- the turned cycle would start elsewhere
      rw [hdrop] at heq
      have hv : v ∈ vs := List.mem_of_mem_drop (hdrop ▸ List.mem_cons_self)
      exact absurd (hb v hv) ((List.cons.inj heq).1 ▸ lt_irrefl v)

end Rooted

/-! ### Enumeration -/

section Enumeration

variable {α : Type} [LinearOrder α] {next : α → List α} {start : α}

/-- The cycles back to `start` that go on from a path to the vertex `d`, with
at most `n` vertices more than the path. -/
def extendPath (next : α → List α) (start : α) : ℕ → List α → α → List (List α)
  | 0, path, d => if d = start then [path ++ [start]] else []
  | n + 1, path, d =>
    if d = start then [path ++ [start]]
    else if start ≤ d ∧ d ∉ path then
      (next d).flatMap (extendPath next start n (path ++ [d]))
    else []

theorem extendPath_start (n : ℕ) (path : List α) :
    extendPath next start n path start = [path ++ [start]] := by
  cases n with
  | zero => rw [extendPath, if_pos rfl]
  | succ n => rw [extendPath, if_pos rfl]

theorem extendPath_succ_of_lt {n : ℕ} {path : List α} {d : α} (hd : start < d) (hpath : d ∉ path) :
    extendPath next start (n + 1) path d =
      (next d).flatMap (extendPath next start n (path ++ [d])) := by
  rw [extendPath, if_neg hd.ne', if_pos ⟨hd.le, hpath⟩]

theorem extendPath_of_not {n : ℕ} {path : List α} {d : α} (hd : d ≠ start)
    (hpath : ¬ (start ≤ d ∧ d ∉ path)) : extendPath next start n path d = [] := by
  cases n with
  | zero => rw [extendPath, if_neg hd]
  | succ n => rw [extendPath, if_neg hd, if_neg hpath]

/-- The rest of a cycle that goes on to `d`. -/
structure GoesOn (next : α → List α) (start : α) (n : ℕ) (path : List α) (d : α)
    (us : List α) : Prop where
  head : (us ++ [start]).head? = some d
  length : us.length ≤ n
  nodup : us.Nodup
  fresh : ∀ u ∈ us, start < u ∧ u ∉ path
  walk : List.IsChain (fun a b => b ∈ next a) (us ++ [start])

theorem GoesOn.eq_nil {n : ℕ} {path us : List α} (h : GoesOn next start n path start us) :
    us = [] := by
  cases us with
  | nil => rfl
  | cons u us =>
    have hu : u = start := Option.some.inj h.head
    exact absurd (h.fresh u List.mem_cons_self).1 (hu ▸ lt_irrefl u)

theorem GoesOn.ne_nil {n : ℕ} {path us : List α} {d : α} (h : GoesOn next start n path d us)
    (hd : d ≠ start) : us ≠ [] := by
  rintro rfl
  exact hd (Option.some.inj h.head).symm

theorem mem_extendPath_start_iff {n : ℕ} {path cycle : List α} :
    cycle ∈ extendPath next start n path start ↔
      ∃ us, cycle = path ++ (us ++ [start]) ∧ GoesOn next start n path start us := by
  rw [extendPath_start, List.mem_singleton]
  constructor
  · rintro rfl
    exact ⟨[], rfl, rfl, Nat.zero_le n, List.nodup_nil, nofun, List.isChain_singleton _⟩
  · rintro ⟨us, rfl, hus⟩
    rw [hus.eq_nil, List.nil_append]

theorem goesOn_cons_iff {n : ℕ} {path us : List α} {d e : α} :
    GoesOn next start (n + 1) path d (e :: us) ↔
      e = d ∧ (start < d ∧ d ∉ path) ∧ ∃ d' ∈ next d, GoesOn next start n (path ++ [d]) d' us := by
  constructor
  · intro h
    obtain rfl : e = d := Option.some.inj h.head
    obtain ⟨hstep, hwalk⟩ := List.isChain_cons.1 h.walk
    obtain ⟨hnew, hnodup⟩ := List.nodup_cons.1 h.nodup
    obtain ⟨d', hhead⟩ := Option.isSome_iff_exists.1
      (List.isSome_head?.2 (List.append_ne_nil_of_right_ne_nil us (List.cons_ne_nil start [])))
    refine ⟨rfl, h.fresh e List.mem_cons_self, d', hstep d' hhead, hhead, ?_, hnodup,
      fun u hu => ?_, hwalk⟩
    · exact Nat.le_of_succ_le_succ h.length
    · obtain ⟨hlt, hpath⟩ := h.fresh u (List.mem_cons_of_mem e hu)
      refine ⟨hlt, fun hmem => ?_⟩
      rcases List.mem_append.1 hmem with hmem | hmem
      · exact hpath hmem
      · exact hnew (List.mem_singleton.1 hmem ▸ hu)
  · rintro ⟨rfl, hfresh, d', hd', h⟩
    refine ⟨rfl, Nat.succ_le_succ h.length, List.nodup_cons.2 ⟨fun hmem => ?_, h.nodup⟩,
      List.forall_mem_cons.2 ⟨hfresh, fun u hu => ?_⟩, List.isChain_cons.2 ⟨fun y hy => ?_, h.walk⟩⟩
    · exact (h.fresh e hmem).2 (List.mem_append_right path List.mem_cons_self)
    · exact ⟨(h.fresh u hu).1, fun hmem => (h.fresh u hu).2 (List.mem_append_left _ hmem)⟩
    · rwa [← Option.some.inj (h.head.symm.trans hy)]

/-- **What the enumeration finds.** -/
theorem mem_extendPath_iff {n : ℕ} {path : List α} {d : α} {cycle : List α} :
    cycle ∈ extendPath next start n path d ↔
      ∃ us, cycle = path ++ (us ++ [start]) ∧ GoesOn next start n path d us := by
  induction n generalizing path d with
  | zero =>
    by_cases hd : d = start
    · subst hd
      exact mem_extendPath_start_iff
    · rw [extendPath, if_neg hd]
      refine iff_of_false List.not_mem_nil ?_
      rintro ⟨us, -, hus⟩
      exact hus.ne_nil hd (List.length_eq_zero_iff.1 (Nat.le_zero.1 hus.length))
  | succ n ih =>
    by_cases hd : d = start
    · subst hd
      exact mem_extendPath_start_iff
    · by_cases hfresh : start ≤ d ∧ d ∉ path
      · have hlt := lt_of_le_of_ne hfresh.1 (Ne.symm hd)
        rw [extendPath_succ_of_lt hlt hfresh.2, List.mem_flatMap]
        constructor
        · rintro ⟨d', hd', hcycle⟩
          obtain ⟨us, rfl, hus⟩ := ih.1 hcycle
          refine ⟨d :: us, ?_, goesOn_cons_iff.2 ⟨rfl, ⟨hlt, hfresh.2⟩, d', hd', hus⟩⟩
          rw [List.append_assoc, List.cons_append, List.cons_append, List.nil_append]
        · rintro ⟨us, rfl, hus⟩
          obtain ⟨e, us, rfl⟩ := List.exists_cons_of_ne_nil (hus.ne_nil hd)
          obtain ⟨rfl, -, d', hd', hus⟩ := goesOn_cons_iff.1 hus
          refine ⟨d', hd', ih.2 ⟨us, ?_, hus⟩⟩
          rw [List.append_assoc, List.cons_append, List.cons_append, List.nil_append]
      · rw [extendPath_of_not hd hfresh]
        refine iff_of_false List.not_mem_nil ?_
        rintro ⟨us, -, hus⟩
        obtain ⟨e, us, rfl⟩ := List.exists_cons_of_ne_nil (hus.ne_nil hd)
        obtain ⟨rfl, hlt, -⟩ := goesOn_cons_iff.1 hus
        exact hfresh ⟨hlt.1.le, hlt.2⟩

/-- **From the path of one vertex the enumeration finds the cycles that have it
as their least.** -/
theorem mem_flatMap_extendPath_iff {n : ℕ} {cycle : List α} :
    cycle ∈ (next start).flatMap (extendPath next start n [start]) ↔
      ∃ us, cycle = start :: (us ++ [start]) ∧ IsElementary (fun a b => b ∈ next a) start us ∧
        (∀ u ∈ us, start < u) ∧ us.length ≤ n := by
  rw [List.mem_flatMap]
  constructor
  · rintro ⟨d, hd, hcycle⟩
    obtain ⟨us, rfl, hus⟩ := mem_extendPath_iff.1 hcycle
    have hlt : ∀ u ∈ us, start < u := fun u hu => (hus.fresh u hu).1
    refine ⟨us, rfl, ⟨List.nodup_cons.2 ⟨fun h => (hlt start h).false, hus.nodup⟩,
      List.isChain_cons.2 ⟨fun y hy => ?_, hus.walk⟩⟩, hlt, hus.length⟩
    rwa [← Option.some.inj (hus.head.symm.trans hy)]
  · rintro ⟨us, rfl, hus, hlt, hn⟩
    obtain ⟨hstep, hwalk⟩ := List.isChain_cons.1 hus.walk
    obtain ⟨d, hhead⟩ := Option.isSome_iff_exists.1
      (List.isSome_head?.2 (List.append_ne_nil_of_right_ne_nil us (List.cons_ne_nil start [])))
    refine ⟨d, hstep d hhead, mem_extendPath_iff.2 ⟨us, rfl, hhead, hn,
      (List.nodup_cons.1 hus.nodup).2, fun u hu => ⟨hlt u hu, fun h => ?_⟩, hwalk⟩⟩
    exact (hlt u hu).ne' (List.mem_singleton.1 h)

/-- Where the path goes on to different vertices the cycles differ. -/
theorem nodup_flatMap_extendPath {n : ℕ} {path ds : List α} (hds : ds.Nodup)
    (h : ∀ d, (extendPath next start n path d).Nodup) :
    (ds.flatMap (extendPath next start n path)).Nodup := by
  refine List.nodup_flatMap.2 ⟨fun d _ => h d, hds.imp fun {d e} hde => ?_⟩
  intro cycle hd he
  obtain ⟨us, rfl, hus⟩ := mem_extendPath_iff.1 hd
  obtain ⟨vs, heq, hvs⟩ := mem_extendPath_iff.1 he
  have hhead := congrArg List.head? (List.append_cancel_left heq)
  rw [hus.head, hvs.head] at hhead
  exact hde (Option.some.inj hhead)

/-- Each cycle is found once. -/
theorem nodup_extendPath (hnext : ∀ v, (next v).Nodup) (n : ℕ) (path : List α) (d : α) :
    (extendPath next start n path d).Nodup := by
  induction n generalizing path d with
  | zero =>
    rw [extendPath]
    split_ifs
    · exact List.nodup_singleton _
    · exact List.nodup_nil
  | succ n ih =>
    by_cases hd : d = start
    · rw [hd, extendPath_start]
      exact List.nodup_singleton _
    · by_cases hfresh : start ≤ d ∧ d ∉ path
      · rw [extendPath_succ_of_lt (lt_of_le_of_ne hfresh.1 (Ne.symm hd)) hfresh.2]
        exact nodup_flatMap_extendPath (hnext d) fun e => ih (path ++ [d]) e
      · rw [extendPath_of_not hd hfresh]
        exact List.nodup_nil

end Enumeration

end Mise.Lib
