/-
# Computations that may fail

What a computation in `Except` returns, taken apart step by step: a sequence
that returns has a first step that returned, and a mapped result comes from a
result.  A loop that returns has returned on every turn.
-/

import Mathlib.Data.List.Basic

namespace Mise.Lib

variable {ε α β : Type}

@[simp] theorem ok_bind (a : α) (f : α → Except ε β) : (Except.ok a >>= f) = f a := rfl

/-- A sequence of steps returns what its rest makes of the first step's result. -/
theorem bind_eq_ok {x : Except ε α} {f : α → Except ε β} {y : β} (h : (x >>= f) = .ok y) :
    ∃ a, x = .ok a ∧ f a = .ok y := by
  cases x with
  | error e => nomatch h
  | ok a => exact ⟨a, rfl, h⟩

/-- A mapped result is the image of a result. -/
theorem map_eq_ok {x : Except ε α} {f : α → β} {y : β} (h : x.map f = .ok y) :
    ∃ a, x = .ok a ∧ f a = y := by
  cases x with
  | error e => nomatch h
  | ok a => exact ⟨a, rfl, Except.ok.inj h⟩

/-- The results of a list of computations are what each of them returns. -/
theorem mem_of_mapM {f : α → Except ε β} {l : List α} {r : List β} (h : l.mapM f = .ok r) :
    (∀ a ∈ l, ∃ b ∈ r, f a = .ok b) ∧ ∀ b ∈ r, ∃ a ∈ l, f a = .ok b := by
  induction l generalizing r with
  | nil =>
    obtain rfl := Except.ok.inj h
    exact ⟨nofun, nofun⟩
  | cons a l ih =>
    rw [List.mapM_cons] at h
    obtain ⟨b, hb, h⟩ := bind_eq_ok h
    obtain ⟨rest, hrest, h⟩ := bind_eq_ok h
    obtain rfl := Except.ok.inj h
    obtain ⟨hleft, hright⟩ := ih hrest
    constructor
    · intro a' ha'
      rcases List.mem_cons.1 ha' with rfl | ha'
      · exact ⟨b, List.mem_cons_self, hb⟩
      · obtain ⟨b', hb', h⟩ := hleft a' ha'
        exact ⟨b', List.mem_cons_of_mem b hb', h⟩
    · intro b' hb'
      rcases List.mem_cons.1 hb' with rfl | hb'
      · exact ⟨a, List.mem_cons_self, hb⟩
      · obtain ⟨a', ha', h⟩ := hright b' hb'
        exact ⟨a', List.mem_cons_of_mem a ha', h⟩

/-- What each result shows of its source, all of them show in order. -/
theorem map_of_mapM {γ : Type} {f : α → Except ε β} {g : β → γ} {k : α → γ} {l : List α}
    {r : List β} (h : l.mapM f = .ok r) (hg : ∀ a ∈ l, ∀ b, f a = .ok b → g b = k a) :
    r.map g = l.map k := by
  induction l generalizing r with
  | nil =>
    obtain rfl := Except.ok.inj h
    rfl
  | cons a l ih =>
    rw [List.mapM_cons] at h
    obtain ⟨b, hb, h⟩ := bind_eq_ok h
    obtain ⟨rest, hrest, h⟩ := bind_eq_ok h
    obtain rfl := Except.ok.inj h
    rw [List.map_cons, List.map_cons, hg a List.mem_cons_self b hb,
      ih hrest fun a ha => hg a (List.mem_cons_of_mem _ ha)]

/-- Computations that all return return together. -/
theorem mapM_eq_ok {f : α → Except ε β} {l : List α} (h : ∀ a ∈ l, ∃ b, f a = .ok b) :
    ∃ r, l.mapM f = .ok r := by
  induction l with
  | nil => exact ⟨[], rfl⟩
  | cons a l ih =>
    obtain ⟨b, hb⟩ := h a List.mem_cons_self
    obtain ⟨rest, hrest⟩ := ih fun a ha => h a (List.mem_cons_of_mem _ ha)
    refine ⟨b :: rest, ?_⟩
    rw [List.mapM_cons, hb, hrest]
    rfl

/-- Checks that all pass pass together, and one by one. -/
theorem forM_eq_ok {f : α → Except ε Unit} {l : List α} :
    l.forM f = .ok () ↔ ∀ a ∈ l, f a = .ok () := by
  induction l with
  | nil => exact ⟨nofun, fun _ => rfl⟩
  | cons a l ih =>
    rw [List.forall_mem_cons, ← ih]
    change (f a >>= fun _ => l.forM f) = .ok () ↔ _
    constructor
    · intro h
      obtain ⟨⟨⟩, ha, hl⟩ := bind_eq_ok h
      exact ⟨ha, hl⟩
    · rintro ⟨ha, hl⟩
      rw [ha]
      exact hl

/-- **A loop that returns keeps what each of its turns keeps**, about the part of
the list gone through. -/
theorem foldlM_induction {σ : Type} {f : σ → α → Except ε σ} (P : List α → σ → Prop)
    (hstep : ∀ done s a s', P done s → f s a = .ok s' → P (done ++ [a]) s')
    {l : List α} {s s' : σ} (h : l.foldlM f s = .ok s') {done : List α} (hs : P done s) :
    P (done ++ l) s' := by
  induction l generalizing s done with
  | nil =>
    obtain rfl := Except.ok.inj h
    rwa [List.append_nil]
  | cons a l ih =>
    rw [List.foldlM_cons] at h
    obtain ⟨t, ht, hrest⟩ := bind_eq_ok h
    have := ih hrest (hstep done s a t hs ht)
    rwa [List.append_assoc, List.singleton_append] at this

end Mise.Lib
