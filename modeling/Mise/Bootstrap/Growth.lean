/-
# How a plan grows

A plan is built by inserting resources that wait for nothing and by letting one resource
wait for one more.  `Grows` says what such steps add together; a plan that grows by fresh
resources that wait for what was there, or for fresh ones of a lower rank, stays without
cycles.
-/

import Mise.Bootstrap.Plan

namespace Mise.Bootstrap

open Lib Relation

namespace BootstrapPlan

/-- The resources of a plan, each with its phase. -/
def heads (p : BootstrapPlan) : List (ResourceId × Option ManagedFilePhase) :=
  p.resources.map fun r => (r.id, r.phase)

/-- What is inserted, and what then waits for what besides. -/
structure Grows (p p' : BootstrapPlan) (new : List (ResourceId × Option ManagedFilePhase))
    (edge : ResourceId → ResourceId → Prop) : Prop where
  heads : p'.heads = p.heads ++ new
  waits : ∀ a b, p'.Waits a b ↔ p.Waits a b ∨ edge a b

variable {p p' p'' : BootstrapPlan} {new new' : List (ResourceId × Option ManagedFilePhase)}
  {edge edge' : ResourceId → ResourceId → Prop} {r : ResourcePlan} {id other : ResourceId}

theorem map_fst_heads (p : BootstrapPlan) : p.heads.map Prod.fst = p.ids := by
  rw [heads, ids, List.map_map]
  rfl

theorem Grows.ids_eq (h : Grows p p' new edge) : p'.ids = p.ids ++ new.map Prod.fst := by
  rw [← map_fst_heads, h.heads, List.map_append, map_fst_heads]

theorem Grows.refl (p : BootstrapPlan) : Grows p p [] fun _ _ => False :=
  ⟨(List.append_nil _).symm, fun _ _ => (or_iff_left id).symm⟩

theorem Grows.trans (h : Grows p p' new edge) (h' : Grows p' p'' new' edge') :
    Grows p p'' (new ++ new') fun a b => edge a b ∨ edge' a b := by
  refine ⟨?_, fun a b => ?_⟩
  · rw [h'.heads, h.heads, List.append_assoc]
  · rw [h'.waits, h.waits, or_assoc]

theorem Grows.congr (h : Grows p p' new edge) (hnew : new' = new)
    (hedge : ∀ a b, edge' a b ↔ edge a b) : Grows p p' new' edge' :=
  ⟨hnew ▸ h.heads, fun a b => by rw [h.waits, hedge]⟩

theorem grows_insert (hr : r.waits = []) (h : p.insert r = .ok p') :
    Grows p p' [(r.id, r.phase)] fun _ _ => False := by
  unfold insert at h
  split at h
  · cases h
  · obtain rfl := Except.ok.inj h
    refine ⟨List.map_append, fun a b => ?_⟩
    simp [Waits, hr]

/-- A resource is changed to wait for one more. -/
theorem grows_modify {change : ResourcePlan → ResourcePlan} {hid : ∀ r, (change r).id = r.id}
    (hphase : ∀ r, (change r).phase = r.phase)
    (hwaits : ∀ r b, b ∈ (change r).waits ↔ b ∈ r.waits ∨ b = other) (hmem : id ∈ p.ids) :
    Grows p (p.modify id change hid) [] fun a b => a = id ∧ b = other := by
  refine ⟨?_, fun a b => ?_⟩
  · rw [List.append_nil, heads, heads, modify, List.map_map]
    refine List.map_congr_left fun r _ => ?_
    rw [Function.comp_apply]
    split
    · rw [hid, hphase]
    · rfl
  · obtain ⟨r, hr, rfl⟩ := mem_ids.1 hmem
    simp only [Waits, modify, List.mem_map, exists_exists_and_eq_and]
    constructor
    · rintro ⟨s, hs, rfl, hb⟩
      split at hb
      · case isTrue heq =>
        rcases (hwaits s b).1 hb with hb | rfl
        · exact .inl ⟨s, hs, by rw [if_pos heq, hid], hb⟩
        · exact .inr ⟨by rw [if_pos heq, hid, heq], rfl⟩
      · case isFalse hne => exact .inl ⟨s, hs, by rw [if_neg hne], hb⟩
    · rintro (⟨s, hs, rfl, hb⟩ | ⟨rfl, rfl⟩)
      · refine ⟨s, hs, ?_, ?_⟩
        · split
          · exact hid s
          · rfl
        · split
          · exact (hwaits s b).2 (.inl hb)
          · exact hb
      · refine ⟨r, hr, ?_, ?_⟩
        · rw [if_pos rfl, hid]
        · rw [if_pos rfl]
          exact (hwaits r _).2 (.inr rfl)

theorem mem_pushNew {l : List ResourceId} {b : ResourceId} :
    b ∈ pushNew l id ↔ b ∈ l ∨ b = id := by
  unfold pushNew
  split
  · case isTrue hmem =>
    refine ⟨.inl, ?_⟩
    rintro (hb | rfl)
    · exact hb
    · exact hmem
  · rw [List.mem_append, List.mem_singleton]

theorem grows_addDependency (h : p.addDependency id other = .ok p') :
    Grows p p' [] fun a b => a = id ∧ b = other := by
  unfold addDependency at h
  split at h
  · case isTrue hmem =>
    obtain rfl := Except.ok.inj h
    refine grows_modify (fun _ => rfl) (fun r b => ?_) hmem
    simp only [ResourcePlan.waits, List.mem_append, mem_pushNew]
    tauto
  · cases h

theorem grows_addOrdering (h : p.addOrdering id other = .ok p') :
    Grows p p' [] fun a b => a = id ∧ b = other := by
  unfold addOrdering at h
  split at h
  · case isTrue hmem =>
    obtain rfl := Except.ok.inj h
    refine grows_modify (fun _ => rfl) (fun r b => ?_) hmem
    simp only [ResourcePlan.waits, List.mem_append, mem_pushNew]
    tauto
  · cases h

/-- What a loop adds. -/
theorem grows_foldlM {α : Type} {f : BootstrapPlan → α → Except String BootstrapPlan}
    (newOf : α → List (ResourceId × Option ManagedFilePhase))
    (edgeOf : α → ResourceId → ResourceId → Prop) {l : List α}
    (hf : ∀ x ∈ l, ∀ p p', f p x = .ok p' → Grows p p' (newOf x) (edgeOf x))
    (h : l.foldlM f p = .ok p') :
    Grows p p' (l.flatMap newOf) fun a b => ∃ x ∈ l, edgeOf x a b := by
  induction l generalizing p with
  | nil =>
    obtain rfl := Except.ok.inj h
    exact (Grows.refl p).congr rfl fun a b => by simp
  | cons x l ih =>
    rw [List.foldlM_cons] at h
    obtain ⟨q, hq, h⟩ := bind_eq_ok h
    have hfirst := hf x List.mem_cons_self p q hq
    have hrest := ih (fun y hy => hf y (List.mem_cons_of_mem x hy)) h
    exact (hfirst.trans hrest).congr List.flatMap_cons fun a b => by simp

/-! ### Cycles -/

/-- No resource comes after itself. -/
def Acyclic (p : BootstrapPlan) : Prop := ∀ id, ¬ TransGen p.Waits id id

theorem Acyclic.not_reachesCycle (h : p.Acyclic) (id : ResourceId) :
    ¬ ReachesCycle p.Waits id := fun ⟨c, _, hc⟩ => h c hc

theorem Waits.mem_ids {a b : ResourceId} (h : p.Waits a b) : a ∈ p.ids := by
  obtain ⟨r, hr, rfl, -⟩ := h
  exact List.mem_map_of_mem hr

/-- **Growing by what waits for older ones makes no cycle.** -/
theorem Grows.acyclic {β : Type} [Preorder β] (rank : ResourceId → β) (h : Grows p p' new edge)
    (hclosed : p.Closed) (hacyclic : p.Acyclic)
    (hedge : ∀ a b, edge a b → a ∈ new.map Prod.fst ∧
      (b ∈ p.ids ∨ b ∈ new.map Prod.fst ∧ rank b < rank a)) :
    p'.Closed ∧ p'.Acyclic := by
  have hids := h.ids_eq
  have hfresh : ∀ a ∈ new.map Prod.fst, a ∉ p.ids := fun a ha hold => by
    have hnodup : p'.ids.Nodup := p'.nodup
    rw [hids] at hnodup
    exact List.disjoint_of_nodup_append hnodup hold ha
  refine ⟨fun a b hab => ?_, fun id hcycle => ?_⟩
  · rw [hids, List.mem_append]
    rcases (h.waits a b).1 hab with hab | hab
    · exact .inl (hclosed a b hab)
    · exact (hedge a b hab).2.imp_right And.left
  · -- what an old resource leads to is old, and it led there before
    have hold : ∀ a b, TransGen p'.Waits a b → a ∈ p.ids → b ∈ p.ids ∧ TransGen p.Waits a b := by
      intro a b hab ha
      have hstep : ∀ x y, x ∈ p.ids → p'.Waits x y → y ∈ p.ids ∧ p.Waits x y := fun x y hx hxy => by
        rcases (h.waits x y).1 hxy with hxy | hxy
        · exact ⟨hclosed x y hxy, hxy⟩
        · exact absurd hx (hfresh x (hedge x y hxy).1)
      induction hab with
      | single hab => exact (hstep a _ ha hab).imp_right .single
      | tail _ hbc ih => exact (hstep _ _ ih.1 hbc).imp_right ih.2.tail
    -- what a fresh one leads to is old or of a lower rank
    have hnew : ∀ a b, TransGen p'.Waits a b → a ∉ p.ids → b ∈ p.ids ∨ rank b < rank a := by
      intro a b hab ha
      have hstep : ∀ x y, x ∉ p.ids → p'.Waits x y → y ∈ p.ids ∨ rank y < rank x :=
        fun x y hx hxy => by
          rcases (h.waits x y).1 hxy with hxy | hxy
          · exact absurd hxy.mem_ids hx
          · exact (hedge x y hxy).2.imp_right And.right
      induction hab with
      | single hab => exact hstep a _ ha hab
      | @tail b c _ hbc ih =>
        by_cases hb : b ∈ p.ids
        · exact .inl (hold b c (.single hbc) hb).1
        · exact (hstep b c hb hbc).imp_right fun hlt => hlt.trans (ih.resolve_left hb)
    by_cases hid : id ∈ p.ids
    · exact hacyclic id (hold id id hcycle hid).2
    · rcases hnew id id hcycle hid with hmem | hlt
      · exact hid hmem
      · exact lt_irrefl _ hlt

end BootstrapPlan

end Mise.Bootstrap
