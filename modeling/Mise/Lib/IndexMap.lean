/-
# Insertion-ordered maps, and folds that touch one key at a time

An `IndexMap` is a list of key-value entries with distinct keys.  Inserting at
a key the map already holds replaces the value in place; inserting at a new key
appends.  The entries are therefore both the iteration order and the contents,
and `mem_entries` says that the two views agree.

The second half is the one rule every map-transforming loop below is proved
with.  A loop over a list of items, each of which reads and writes a single key
of the state, leaves at a key what the item of that key makes of the value
found there, and leaves every other key alone (`get_foldl_of_nodup`): the order
of the items does not matter and no item sees another's write.
-/

import Mathlib.Data.List.Induction
import Mathlib.Data.List.Nodup
import Mathlib.Data.List.Pairwise

namespace Mise.Lib

/-- A map that remembers the order its keys were first inserted in. -/
structure IndexMap (κ ν : Type) where
  /-- The entries in iteration order. -/
  entries : List (κ × ν)
  nodup : (entries.map Prod.fst).Nodup

namespace IndexMap

variable {κ ν ν' : Type} [DecidableEq κ]

/-- The map without entries. -/
def empty : IndexMap κ ν := ⟨[], List.nodup_nil⟩

/-- The value stored at a key. -/
def get (m : IndexMap κ ν) (k : κ) : Option ν := m.entries.lookup k

/-- Whether the map holds a key. -/
def containsKey (m : IndexMap κ ν) (k : κ) : Bool := (m.get k).isSome

/-- The keys in iteration order. -/
def keys (m : IndexMap κ ν) : List κ := m.entries.map Prod.fst

/-- The entry list after inserting at a key: the value is replaced where the
key stands, or a new entry is appended. -/
def insertEntry (k : κ) (v : ν) : List (κ × ν) → List (κ × ν)
  | [] => [(k, v)]
  | e :: rest => if e.1 = k then (k, v) :: rest else e :: insertEntry k v rest

theorem mem_keys_insertEntry (k k' : κ) (v : ν) (l : List (κ × ν)) :
    k' ∈ (insertEntry k v l).map Prod.fst ↔ k' = k ∨ k' ∈ l.map Prod.fst := by
  induction l with
  | nil => simp [insertEntry]
  | cons e rest ih =>
      by_cases h : e.1 = k
      · simp [insertEntry, h]
      · simp only [insertEntry, h, if_false, List.map_cons, List.mem_cons, ih]
        tauto

theorem nodup_insertEntry (k : κ) (v : ν) (l : List (κ × ν))
    (h : (l.map Prod.fst).Nodup) : ((insertEntry k v l).map Prod.fst).Nodup := by
  induction l with
  | nil => simp [insertEntry]
  | cons e rest ih =>
      rw [List.map_cons, List.nodup_cons] at h
      by_cases he : e.1 = k
      · rw [insertEntry, if_pos he, List.map_cons, List.nodup_cons]
        exact ⟨he ▸ h.1, h.2⟩
      · rw [insertEntry, if_neg he, List.map_cons, List.nodup_cons]
        refine ⟨fun hm => ?_, ih h.2⟩
        rcases (mem_keys_insertEntry k e.1 v rest).1 hm with h' | h'
        · exact he h'
        · exact h.1 h'

/-- Insert a value, replacing the one the key already has. -/
def insert (m : IndexMap κ ν) (k : κ) (v : ν) : IndexMap κ ν :=
  ⟨insertEntry k v m.entries, nodup_insertEntry k v m.entries m.nodup⟩

/-- One step of `List.lookup`, as a decision on the keys. -/
theorem lookup_cons_ite (k ke : κ) (ve : ν) (l : List (κ × ν)) :
    ((ke, ve) :: l).lookup k = if k = ke then some ve else l.lookup k := by
  rw [List.lookup_cons]
  by_cases h : k = ke
  · rw [if_pos h, beq_iff_eq.2 h]
  · rw [if_neg h, beq_eq_false_iff_ne.2 h]

theorem lookup_insertEntry (k k' : κ) (v : ν) (l : List (κ × ν)) :
    (insertEntry k v l).lookup k' = if k' = k then some v else l.lookup k' := by
  induction l with
  | nil => rw [insertEntry, lookup_cons_ite]
  | cons e rest ih =>
      obtain ⟨ke, ve⟩ := e
      by_cases he : ke = k
      · rw [insertEntry, if_pos he, lookup_cons_ite, lookup_cons_ite, he]
        split_ifs <;> rfl
      · rw [insertEntry, if_neg he, lookup_cons_ite, lookup_cons_ite, ih]
        by_cases hk : k' = ke
        · rw [if_pos hk, if_neg (fun h => he (hk ▸ h)), if_pos hk]
        · rw [if_neg hk, if_neg hk]

/-- A new key goes to the end. -/
theorem insertEntry_of_notMem {k : κ} {l : List (κ × ν)} (h : k ∉ l.map Prod.fst) (v : ν) :
    insertEntry k v l = l ++ [(k, v)] := by
  induction l with
  | nil => rfl
  | cons e rest ih =>
      rw [List.map_cons, List.mem_cons, not_or] at h
      rw [insertEntry, if_neg (Ne.symm h.1), ih h.2]
      rfl

@[simp] theorem get_empty (k : κ) : (empty : IndexMap κ ν).get k = none := rfl

/-- **An insertion changes exactly one key.** -/
@[simp] theorem get_insert (m : IndexMap κ ν) (k k' : κ) (v : ν) :
    (m.insert k v).get k' = if k' = k then some v else m.get k' :=
  lookup_insertEntry k k' v m.entries

omit [DecidableEq κ] in
theorem eq_of_entries {m m' : IndexMap κ ν} (h : m.entries = m'.entries) : m = m' := by
  cases m
  cases m'
  subst h
  rfl

theorem insertEntry_insertEntry (k : κ) (v w : ν) (l : List (κ × ν)) :
    insertEntry k w (insertEntry k v l) = insertEntry k w l := by
  induction l with
  | nil => simp [insertEntry]
  | cons e rest ih =>
      by_cases he : e.1 = k
      · simp [insertEntry, he]
      · simp [insertEntry, he, ih]

/-- The last insertion at a key is the one that counts. -/
theorem insert_insert (m : IndexMap κ ν) (k : κ) (v w : ν) :
    (m.insert k v).insert k w = m.insert k w :=
  eq_of_entries (insertEntry_insertEntry k v w m.entries)

/-- A list with distinct keys is looked up by membership. -/
theorem lookup_eq_some_iff_mem {l : List (κ × ν)} (hl : (l.map Prod.fst).Nodup) {k : κ} {v : ν} :
    l.lookup k = some v ↔ (k, v) ∈ l := by
  induction l with
  | nil => simp
  | cons e rest ih =>
      obtain ⟨ke, ve⟩ := e
      rw [List.map_cons, List.nodup_cons] at hl
      rw [lookup_cons_ite, List.mem_cons, Prod.mk.injEq]
      by_cases hk : k = ke
      · have hrest : (k, v) ∉ rest := fun h =>
          hl.1 (List.mem_map.2 ⟨(k, v), h, hk⟩)
        simp [hk, hk ▸ hrest, eq_comm]
      · simp [hk, ih hl.2]

/-- **The entries are the contents.** -/
theorem mem_entries (m : IndexMap κ ν) {k : κ} {v : ν} :
    (k, v) ∈ m.entries ↔ m.get k = some v :=
  (lookup_eq_some_iff_mem m.nodup).symm

theorem mem_keys (m : IndexMap κ ν) {k : κ} : k ∈ m.keys ↔ ∃ v, m.get k = some v := by
  simp only [keys, List.mem_map, Prod.exists, mem_entries]
  exact ⟨fun ⟨a, v, h, e⟩ => ⟨v, e ▸ h⟩, fun ⟨v, h⟩ => ⟨k, v, h, rfl⟩⟩

/-- The entries of a key, in a list of distinct keys. -/
theorem filter_eq_toList_lookup {l : List (κ × ν)}
    (hl : (l.map Prod.fst).Nodup) (k : κ) :
    (l.filter fun e => e.1 = k) = ((l.lookup k).map (k, ·)).toList := by
  induction l with
  | nil => rfl
  | cons e rest ih =>
    obtain ⟨ke, ve⟩ := e
    rw [List.map_cons, List.nodup_cons] at hl
    rw [List.filter_cons, lookup_cons_ite]
    by_cases h : ke = k
    · subst h
      have hrest : (rest.filter fun e => e.1 = ke) = [] :=
        List.filter_eq_nil_iff.2 fun e he hek =>
          hl.1 (List.mem_map.2 ⟨e, he, of_decide_eq_true hek⟩)
      rw [if_pos (decide_eq_true rfl), if_pos rfl, hrest]
      rfl
    · rw [if_neg (by simpa using h), if_neg (Ne.symm h)]
      exact ih hl.2

/-- The entries of a key. -/
theorem filter_entries (m : IndexMap κ ν) (k : κ) :
    (m.entries.filter fun e => e.1 = k) = ((m.get k).map (k, ·)).toList :=
  filter_eq_toList_lookup m.nodup k

/-- A loop that only the entry of one key adds to. -/
theorem flatMap_entries_of_key {β : Type} (m : IndexMap κ ν) {k : κ} {f : κ × ν → List β}
    (h : ∀ e ∈ m.entries, e.1 ≠ k → f e = []) :
    m.entries.flatMap f = (m.get k).elim [] fun v => f (k, v) := by
  have hsame : ∀ l : List (κ × ν), (∀ e ∈ l, e.1 ≠ k → f e = []) →
      l.flatMap f = (l.filter fun e => e.1 = k).flatMap f := by
    intro l
    induction l with
    | nil => exact fun _ => rfl
    | cons e l ih =>
      intro hl
      rw [List.forall_mem_cons] at hl
      rw [List.flatMap_cons, List.filter_cons, ih hl.2]
      by_cases he : e.1 = k
      · rw [if_pos (decide_eq_true he), List.flatMap_cons]
      · rw [if_neg (by simpa using he), hl.1 he, List.nil_append]
  rw [hsame m.entries h, filter_entries]
  cases m.get k with
  | none => rfl
  | some v => exact List.flatMap_singleton f (k, v)

/-- The entries whose key satisfies a predicate. -/
def filterKeys (m : IndexMap κ ν) (p : κ → Bool) : IndexMap κ ν :=
  ⟨m.entries.filter fun e => p e.1, m.nodup.sublist (List.filter_sublist.map _)⟩

@[simp] theorem get_filterKeys (m : IndexMap κ ν) (p : κ → Bool) (k : κ) :
    (m.filterKeys p).get k = if p k then m.get k else none := by
  ext v
  rw [← mem_entries]
  by_cases hp : p k <;> simp [filterKeys, hp, mem_entries]

/-- The map with every value replaced by its image. -/
def mapValues (m : IndexMap κ ν) (f : ν → ν') : IndexMap κ ν' :=
  ⟨m.entries.map fun e => (e.1, f e.2), by
    rw [List.map_map]; exact m.nodup⟩

@[simp] theorem get_mapValues (m : IndexMap κ ν) (f : ν → ν') (k : κ) :
    (m.mapValues f).get k = (m.get k).map f := by
  ext v
  rw [← mem_entries, Option.map_eq_some_iff]
  simp only [mapValues, List.mem_map, Prod.mk.injEq, ← mem_entries, Prod.exists]
  exact ⟨fun ⟨a, b, h, ha, hb⟩ => ⟨b, ha ▸ h, hb⟩, fun ⟨b, h, hb⟩ => ⟨k, b, h, rfl, hb⟩⟩

theorem mapValues_insert (m : IndexMap κ ν) (f : ν → ν') (k : κ) (v : ν) :
    (m.insert k v).mapValues f = (m.mapValues f).insert k (f v) := by
  have hentries : ∀ l : List (κ × ν), (insertEntry k v l).map (fun e => (e.1, f e.2)) =
      insertEntry k (f v) (l.map fun e => (e.1, f e.2)) := by
    intro l
    induction l with
    | nil => rfl
    | cons e rest ih =>
        by_cases he : e.1 = k
        · simp [insertEntry, he]
        · simp [insertEntry, he, ih]
  exact eq_of_entries (hentries m.entries)

/-- The map with every value replaced by its image, which may depend on the key. -/
def mapWithKey (m : IndexMap κ ν) (f : κ → ν → ν') : IndexMap κ ν' :=
  ⟨m.entries.map fun e => (e.1, f e.1 e.2), by
    rw [List.map_map]; exact m.nodup⟩

@[simp] theorem get_mapWithKey (m : IndexMap κ ν) (f : κ → ν → ν') (k : κ) :
    (m.mapWithKey f).get k = (m.get k).map (f k) := by
  ext v
  rw [← mem_entries, Option.map_eq_some_iff]
  simp only [mapWithKey, List.mem_map, Prod.mk.injEq, ← mem_entries, Prod.exists]
  constructor
  · rintro ⟨a, b, h, rfl, hb⟩
    exact ⟨b, h, hb⟩
  · rintro ⟨b, h, hb⟩
    exact ⟨k, b, h, rfl, hb⟩

/-- The map with every value replaced by its image, where that is there. -/
def filterMapWithKey (m : IndexMap κ ν) (f : κ → ν → Option ν') : IndexMap κ ν' :=
  ⟨m.entries.filterMap fun e => (f e.1 e.2).map (e.1, ·), by
    have hkeys : ∀ l : List (κ × ν), ((l.filterMap fun e => (f e.1 e.2).map (e.1, ·)).map
        Prod.fst).Sublist (l.map Prod.fst) := by
      intro l
      induction l with
      | nil => exact .refl _
      | cons e rest ih =>
        rw [List.filterMap_cons]
        cases f e.1 e.2 with
        | none => exact ih.cons _
        | some w => exact ih.cons_cons _
    exact m.nodup.sublist (hkeys m.entries)⟩

@[simp] theorem get_filterMapWithKey (m : IndexMap κ ν) (f : κ → ν → Option ν') (k : κ) :
    (m.filterMapWithKey f).get k = (m.get k).bind (f k) := by
  ext v
  rw [← mem_entries, Option.bind_eq_some_iff]
  simp only [filterMapWithKey, List.mem_filterMap, Option.map_eq_some_iff, Prod.mk.injEq,
    ← mem_entries, Prod.exists]
  constructor
  · rintro ⟨a, b, h, w, hw, rfl, rfl⟩
    exact ⟨b, h, hw⟩
  · rintro ⟨b, h, hb⟩
    exact ⟨k, b, h, v, hb, rfl, rfl⟩

/-- Remove a key; the entries behind it move up. -/
def shiftRemove (m : IndexMap κ ν) (k : κ) : IndexMap κ ν := m.filterKeys fun k' => k' ≠ k

@[simp] theorem get_shiftRemove (m : IndexMap κ ν) (k k' : κ) :
    (m.shiftRemove k).get k' = if k' = k then none else m.get k' := by
  rw [shiftRemove, get_filterKeys]
  by_cases h : k' = k <;> simp [h]

/-- Insert a value at a position; a key the map already holds moves there. -/
def shiftInsert (m : IndexMap κ ν) (idx : ℕ) (k : κ) (v : ν) : IndexMap κ ν :=
  ⟨(m.shiftRemove k).entries.insertIdx idx (k, v), by
    by_cases hidx : idx ≤ (m.shiftRemove k).entries.length
    · have hperm := (List.perm_insertIdx (k, v) (m.shiftRemove k).entries hidx).map Prod.fst
      refine hperm.nodup_iff.2 (List.nodup_cons.2 ⟨fun hk => ?_, (m.shiftRemove k).nodup⟩)
      obtain ⟨v', hv'⟩ := (m.shiftRemove k).mem_keys.1 hk
      rw [get_shiftRemove, if_pos rfl] at hv'
      exact absurd hv'.symm (Option.some_ne_none _)
    · rw [List.insertIdx_of_length_lt (by omega)]
      exact (m.shiftRemove k).nodup⟩

theorem get_shiftInsert (m : IndexMap κ ν) {idx : ℕ} (k k' : κ) (v : ν)
    (hidx : idx ≤ (m.shiftRemove k).entries.length) :
    (m.shiftInsert idx k v).get k' = if k' = k then some v else m.get k' := by
  ext w
  rw [← mem_entries, shiftInsert, List.mem_insertIdx hidx, mem_entries, get_shiftRemove]
  by_cases h : k' = k
  · simp [h, eq_comm]
  · simp [h]

/-- The position of a key. -/
def indexOf (m : IndexMap κ ν) (k : κ) : Option ℕ := m.entries.findIdx? fun e => e.1 = k

/-- The first entry. -/
def first (m : IndexMap κ ν) : Option (κ × ν) := m.entries.head?

theorem indexOf_eq_none {m : IndexMap κ ν} {k : κ} (h : m.indexOf k = none) : m.get k = none := by
  rw [indexOf, List.findIdx?_eq_none_iff] at h
  refine Option.eq_none_iff_forall_not_mem.2 fun v hv => ?_
  have hmem := h (k, v) (m.mem_entries.2 hv)
  exact of_decide_eq_false hmem rfl

theorem lt_of_indexOf {m : IndexMap κ ν} {k : κ} {idx : ℕ} (h : m.indexOf k = some idx) :
    idx < m.entries.length :=
  (List.findIdx?_eq_some_iff_getElem.1 h).1

/-- Removing a key the map does not hold leaves it alone. -/
theorem shiftRemove_of_get_eq_none {m : IndexMap κ ν} {k : κ} (h : m.get k = none) :
    (m.shiftRemove k).entries = m.entries :=
  List.filter_eq_self.2 fun e he => decide_eq_true fun hek => by
    have hget : m.get k = some e.2 := m.mem_entries.1 (hek ▸ he)
    exact absurd (hget.symm.trans h) (Option.some_ne_none _)

/-- Entries with distinct keys that are inserted one after another. -/
theorem entries_foldl_insert {l : List (κ × ν)} (hl : (l.map Prod.fst).Nodup) :
    (l.foldl (fun m e => m.insert e.1 e.2) (empty : IndexMap κ ν)).entries = l := by
  induction l using List.reverseRecOn with
  | nil => rfl
  | append_singleton init e ih =>
      rw [List.map_append, List.nodup_append] at hl
      have hnot : e.1 ∉ init.map Prod.fst := fun hmem => hl.2.2 e.1 hmem e.1 (by simp) rfl
      have hstep : insertEntry e.1 e.2
          (init.foldl (fun m e => m.insert e.1 e.2) (empty : IndexMap κ ν)).entries =
            init ++ [e] := by
        rw [ih hl.1, insertEntry_of_notMem hnot]
      rw [List.foldl_append]
      exact hstep

/-- A map is what its entries make of the empty one. -/
theorem foldl_insert_entries (m : IndexMap κ ν) :
    m.entries.foldl (fun m e => m.insert e.1 e.2) empty = m :=
  eq_of_entries (entries_foldl_insert m.nodup)

end IndexMap

/-! ### Loops whose items each touch one key -/

section PointwiseFold

variable {σ ε κ γ : Type} [DecidableEq κ] (get : σ → κ → γ) (key : ε → κ)
  (step : σ → ε → σ) (f : ε → γ → γ)

/-- Items of other keys leave a key alone. -/
theorem get_foldl_of_notMem (hstep : ∀ s e k, get (step s e) k =
      if key e = k then f e (get s k) else get s k)
    (l : List ε) (s : σ) (k : κ) (hk : k ∉ l.map key) :
    get (l.foldl step s) k = get s k := by
  induction l generalizing s with
  | nil => rfl
  | cons e rest ih =>
      rw [List.map_cons, List.mem_cons, not_or] at hk
      rw [List.foldl_cons, ih _ hk.2, hstep, if_neg (fun h => hk.1 h.symm)]

/-- **A loop over items of distinct keys acts key by key.**  At the key of an
item the loop leaves what that item makes of the value the state started with. -/
theorem get_foldl_of_nodup (hstep : ∀ s e k, get (step s e) k =
      if key e = k then f e (get s k) else get s k)
    (l : List ε) (hl : (l.map key).Nodup) (s : σ) {e : ε} (he : e ∈ l) :
    get (l.foldl step s) (key e) = f e (get s (key e)) := by
  induction l generalizing s with
  | nil => simp at he
  | cons a rest ih =>
      rw [List.map_cons, List.nodup_cons] at hl
      rw [List.foldl_cons]
      rcases List.mem_cons.1 he with rfl | he
      · rw [get_foldl_of_notMem get key step f hstep rest _ _ hl.1, hstep, if_pos rfl]
      · have hne : key a ≠ key e := fun h => hl.1 (h ▸ List.mem_map_of_mem he)
        rw [ih hl.2 _ he, hstep, if_neg hne]

end PointwiseFold

/-- **Inserting all entries of another map**: its values win. -/
theorem IndexMap.get_foldl_insert {κ ν : Type} [DecidableEq κ] (m other : IndexMap κ ν) (k : κ) :
    (other.entries.foldl (fun m e => m.insert e.1 e.2) m).get k = (other.get k).or (m.get k) := by
  have hstep : ∀ (m : IndexMap κ ν) (e : κ × ν) (k : κ),
      (m.insert e.1 e.2).get k = if e.1 = k then some e.2 else m.get k := by
    intro m e k
    rw [IndexMap.get_insert]
    exact ite_congr (propext eq_comm) (fun _ => rfl) fun _ => rfl
  cases hk : other.get k with
  | none =>
    have hnot : k ∉ other.entries.map Prod.fst := by
      intro hmem
      obtain ⟨v, hv⟩ := other.mem_keys.1 hmem
      exact nomatch hk.symm.trans hv
    exact get_foldl_of_notMem IndexMap.get Prod.fst _ (fun e _ => some e.2) hstep _ m k hnot
  | some v =>
    exact get_foldl_of_nodup IndexMap.get Prod.fst _ (fun e _ => some e.2) hstep _ other.nodup m
      (other.mem_entries.2 hk)

end Mise.Lib
