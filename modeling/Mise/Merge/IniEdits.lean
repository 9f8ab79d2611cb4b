/-
# What a merge writes where

The edits of a merge in closed form: which entries are replaced and by what
(`exists_of_replace`, `replace_ne_none`), and which lines are inserted before a line
(`insert_presentEdits`).  The lines of the merged file are then those of the target's parts,
each with what replaces its key and with the keys that are added behind it
(`apply_presentEdits`), and at the end the sections that the target lacks.
-/

import Mise.Merge.IniWrite

namespace Mise.Ini

open Lib String

/-! ### Closed forms -/

/-- What one step of a loop brings about and the others keep holds after the loop. -/
theorem foldl_of_mem {α β : Type} {step : β → α → β} {P : β → Prop} {a : α} {l : List α}
    (ha : a ∈ l) (hmakes : ∀ b, P (step b a)) (hkeeps : ∀ b x, P b → P (step b x)) (b : β) :
    P (l.foldl step b) := by
  obtain ⟨l₁, l₂, rfl⟩ := List.append_of_mem ha
  rw [List.foldl_append, List.foldl_cons]
  exact List.foldlRecOn _ _ (hmakes _) fun b hb x _ => hkeeps b x hb

variable {t s : Doc}

/-- What a merge replaces. -/
def Replacing (t s : Doc) (e : Edits) : Prop :=
  ∀ i r, e.replace i = some r → ∃ name key existing entry, t.get name key = some existing ∧
    s.get name key = some entry ∧ existing.value ≠ entry.value ∧ existing.start = i ∧
      r = (existing.stop, replacement t existing s entry)

theorem get_of_mem_effective {sec : Option Line × IndexMap Line Entry}
    (hsec : sec ∈ s.effective.entries) {setting : Line × Entry}
    (hsetting : setting ∈ sec.2.entries) : s.get sec.1 setting.1 = some setting.2 := by
  rw [get_effective, s.effective.mem_entries.1 hsec]
  exact sec.2.mem_entries.1 hsetting

theorem hasSection_of_mem_effective (hs : Titled s.sections)
    {sec : Option Line × IndexMap Line Entry} (hsec : sec ∈ s.effective.entries) :
    s.hasSection sec.1 = true := by
  obtain ⟨_ | name, keys⟩ := sec
  · rfl
  · have hkeys : s.effective.get (some name) = some keys := s.effective.mem_entries.1 hsec
    rw [Doc.hasSection, ← containsKey_effective hs, IndexMap.containsKey, hkeys]
    rfl

/-- **What replaces lines sets a key of the target to the value of the source.** -/
theorem exists_of_replace (t s : Doc) : Replacing t s (presentEdits t s) :=
  of_replace fun sec hsec setting hsetting existing hget hvalue =>
    ⟨sec.1, setting.1, existing, setting.2, hget, get_of_mem_effective hsec hsetting, hvalue, rfl,
      rfl⟩

theorem hasSection_of_get {d : Doc} {name : Option Line} {key : Line} {e : Entry}
    (h : d.get name key = some e) : d.hasSection name = true := by
  obtain ⟨sec, hsec, hname, -⟩ := mem_of_get h
  rw [Doc.hasSection, Bool.or_eq_true, List.any_eq_true]
  exact .inr ⟨sec, hsec, decide_eq_true hname⟩

/-- **Every key with another value is replaced.** -/
theorem replace_ne_none {name : Option Line} {key : Line} {existing entry : Entry}
    (ht : t.get name key = some existing) (hs : s.get name key = some entry)
    (hne : existing.value ≠ entry.value) : (presentEdits t s).replace existing.start ≠ none := by
  rw [get_effective] at hs
  obtain ⟨keys, hkeys, hentry⟩ := Option.bind_eq_some_iff.1 hs
  have hkept : ∀ (name : Option Line) (place : ℕ × Line) (e : Edits) (setting : Line × Entry),
      e.replace existing.start ≠ none →
        (mergeKey t s name place e setting).replace existing.start ≠ none := by
    intro name place e setting he
    rw [mergeKey]
    split
    · split
      · exact he
      · simp only [ne_eq, Function.update_apply]
        split
        · exact Option.some_ne_none _
        · exact he
    · exact he
  have hsec : (name, keys) ∈ s.effective.entries.filter fun sec => t.hasSection sec.1 :=
    List.mem_filter.2 ⟨s.effective.mem_entries.2 hkeys, hasSection_of_get ht⟩
  refine foldl_of_mem (P := fun e : Edits => e.replace existing.start ≠ none) hsec
    (fun e => ?_) (fun e sec he => ?_) _
  · rw [replace_mergeSection]
    refine foldl_of_mem (P := fun e : Edits => e.replace existing.start ≠ none)
      (keys.mem_entries.2 hentry) (fun e => ?_) (fun e setting => hkept name _ e setting) e
    rw [mergeKey, ht]
    show (if existing.value = entry.value then e else _ : Edits).replace _ ≠ none
    rw [if_neg hne]
    simp
  · rw [replace_mergeSection]
    exact List.foldlRecOn (motive := fun e : Edits => e.replace existing.start ≠ none) _ _ he
      fun e he setting _ => hkept sec.1 _ e setting he

/-- The lines of the keys that a merge adds to a section that the target has. -/
def absentLines (t s : Doc) (name : Option Line) (keys : IndexMap Line Entry) : List Line :=
  (keys.entries.filter fun setting => (t.get name setting.1).isNone).flatMap fun setting =>
    s.entryLines setting.2 (t.insertPoint name).2

/-- Whether a blank line parts keys from the header below them. -/
def isAboveHeader (t : Doc) (name : Option Line) : Bool :=
  name.isNone && t.sections.head?.any (·.entries.isEmpty) &&
    (t.insertPoint name).1 < t.lines.length &&
      !isBlank (t.lines.getD (t.insertPoint name).1 [])

/-- All that a merge inserts for a section that the target has. -/
def addition (t s : Doc) (name : Option Line) (keys : IndexMap Line Entry) : List Line :=
  absentLines t s name keys ++
    if isAboveHeader t name && !(absentLines t s name keys).isEmpty then [[]] else []

theorem insert_mergeKeys (t s : Doc) (name : Option Line) (place : ℕ × Line)
    (settings : List (Line × Entry)) (e : Edits) (j : ℕ) :
    (settings.foldl (mergeKey t s name place) e).insert j = e.insert j ++
      if place.1 = j then (settings.filter fun setting =>
        (t.get name setting.1).isNone).flatMap fun setting => s.entryLines setting.2 place.2
      else [] := by
  induction settings generalizing e with
  | nil => simp
  | cons setting settings ih =>
    rw [List.foldl_cons, ih, mergeKey, List.filter_cons]
    cases hget : t.get name setting.1 with
    | some existing =>
      simp only [Option.isNone_some, Bool.false_eq_true, if_false]
      split
      · rfl
      · rfl
    | none =>
      by_cases hj : place.1 = j
      · subst hj
        simp [Edits.extend]
      · simp [Edits.extend, Function.update_of_ne (Ne.symm hj), hj]

/-- A section adds its absent keys at its insert point, and nothing elsewhere. -/
theorem insert_mergeSection (t s : Doc) (e : Edits) (name : Option Line)
    (keys : IndexMap Line Entry) (j : ℕ) :
    (mergeSection t s e name keys).insert j = e.insert j ++
      if (t.insertPoint name).1 = j then addition t s name keys else [] := by
  have hkeys := insert_mergeKeys t s name (t.insertPoint name) keys.entries e
  have hlength : (e.insert (t.insertPoint name).1).length <
      ((keys.entries.foldl (mergeKey t s name (t.insertPoint name)) e).insert
        (t.insertPoint name).1).length ↔ (absentLines t s name keys).isEmpty = false := by
    rw [hkeys, if_pos rfl, ← absentLines, List.length_append, List.isEmpty_eq_false_iff,
      ← List.length_pos_iff]
    omega
  have hadd : (isAboveHeader t name && decide ((e.insert (t.insertPoint name).1).length <
      ((keys.entries.foldl (mergeKey t s name (t.insertPoint name)) e).insert
        (t.insertPoint name).1).length)) =
      (isAboveHeader t name && !(absentLines t s name keys).isEmpty) := by
    simp only [hlength, Bool.decide_eq_false]
  rw [mergeSection, addition]
  show (if (isAboveHeader t name && decide _) = true then _ else _ : Edits).insert j = _
  rw [hadd]
  by_cases hj : (t.insertPoint name).1 = j
  · subst hj
    split
    · simp only [Edits.extend, Function.update_self, hkeys, if_true]
      rw [← absentLines, List.append_assoc]
    · rw [hkeys, if_pos rfl, if_pos rfl, ← absentLines, List.append_nil]
  · rw [if_neg hj, List.append_nil]
    split
    · simp only [Edits.extend, Function.update_of_ne (Ne.symm hj), hkeys, if_neg hj,
        List.append_nil]
    · rw [hkeys, if_neg hj, List.append_nil]

/-- **What is inserted before a line**, for the sections that the target has. -/
theorem insert_presentEdits (t s : Doc) (j : ℕ) :
    (presentEdits t s).insert j =
      (s.effective.entries.filter fun sec => t.hasSection sec.1).flatMap fun sec =>
        if (t.insertPoint sec.1).1 = j then addition t s sec.1 sec.2 else [] := by
  have hfold : ∀ (secs : List (Option Line × IndexMap Line Entry)) (e : Edits),
      (secs.foldl (fun e sec => mergeSection t s e sec.1 sec.2) e).insert j = e.insert j ++
        secs.flatMap fun sec =>
          if (t.insertPoint sec.1).1 = j then addition t s sec.1 sec.2 else [] := by
    intro secs
    induction secs with
    | nil => simp
    | cons sec secs ih =>
      intro e
      rw [List.foldl_cons, ih, insert_mergeSection, List.flatMap_cons, List.append_assoc]
  exact hfold _ _

/-- Nothing is inserted where no section ends. -/
theorem insert_eq_nil {j : ℕ}
    (h : ∀ name, t.hasSection name = true → (t.insertPoint name).1 ≠ j) :
    (presentEdits t s).insert j = [] := by
  rw [insert_presentEdits, List.flatMap_eq_nil_iff]
  intro sec hsec
  rw [if_neg (h sec.1 (List.mem_filter.1 hsec).2)]

/-- Where one section ends, what is added to it is inserted. -/
theorem insert_eq_addition {name : Option Line} {j : ℕ} (hname : t.hasSection name = true)
    (h : ∀ name', t.hasSection name' = true → ((t.insertPoint name').1 = j ↔ name' = name)) :
    (presentEdits t s).insert j = (s.effective.get name).elim [] (addition t s name) := by
  have hfilter : ∀ (l : List (Option Line × IndexMap Line Entry)),
      ((l.filter fun sec => t.hasSection sec.1).flatMap fun sec =>
        if (t.insertPoint sec.1).1 = j then addition t s sec.1 sec.2 else []) =
      l.flatMap fun sec => if t.hasSection sec.1 = true ∧ (t.insertPoint sec.1).1 = j then
        addition t s sec.1 sec.2 else [] := by
    intro l
    induction l with
    | nil => rfl
    | cons sec l ih =>
      rw [List.flatMap_cons, ← ih, List.filter_cons]
      by_cases hsec : t.hasSection sec.1 = true
      · simp [hsec]
      · simp [hsec]
  rw [insert_presentEdits, hfilter, IndexMap.flatMap_entries_of_key (k := name)]
  · have hself := (h name hname).2 rfl
    simp only [hname, hself, and_self, if_true]
  · intro sec _ hne
    rw [if_neg fun hsec => hne ((h sec.1 hsec.1).1 hsec.2)]

/-! ### Where parts stand -/

section Places

variable {d : Doc} {lead : List Line} {parts pre post : List Part} {p q : Part}

/-- The number of the line behind a part. -/
def Part.next (p : Part) : ℕ := p.mark.start + p.lines.length

theorem Part.start_lt_stop (p : Part) : p.mark.start < p.stop := by
  rw [stop]
  omega

theorem Part.stop_le_next (p : Part) : p.stop ≤ p.next := by
  rw [next, stop_add]
  omega

theorem next_eq (p : Part) : p.next = p.stop + p.rest.length := stop_add p

theorem Layout.before (h : Layout d lead (pre ++ p :: post)) :
    (∀ q ∈ pre, q.next ≤ p.mark.start) ∧ (∀ q ∈ post, p.next ≤ q.mark.start) ∧
      lead.length ≤ p.mark.start := by
  have hp := h.split.1.start
  refine ⟨fun q hq => ?_, fun q hq => ?_, by omega⟩
  · obtain ⟨a, b, rfl⟩ := List.append_of_mem hq
    rw [List.append_assoc, List.cons_append] at h
    have hqstart := h.split.1.start
    rw [List.flatMap_append, List.flatMap_cons, List.length_append, List.length_append] at hp
    rw [Part.next]
    omega
  · obtain ⟨a, b, rfl⟩ := List.append_of_mem hq
    rw [← List.cons_append, ← List.append_assoc] at h
    have hqstart := h.split.1.start
    rw [List.flatMap_append, List.flatMap_cons, List.length_append, List.length_append] at hqstart
    rw [Part.next]
    omega

/-- Of two parts one stands before the other. -/
theorem Layout.trichotomy (h : Layout d lead parts) (hp : p ∈ parts) (hq : q ∈ parts) :
    p = q ∨ p.next ≤ q.mark.start ∨ q.next ≤ p.mark.start := by
  obtain ⟨pre, post, rfl⟩ := List.append_of_mem hp
  rcases List.mem_append.1 hq with hq | hq
  · exact .inr (.inr (h.before.1 q hq))
  · rcases List.mem_cons.1 hq with rfl | hq
    · exact .inl rfl
    · exact .inr (.inl (h.before.2.1 q hq))

theorem Layout.length_lead_le (h : Layout d lead parts) (hp : p ∈ parts) :
    lead.length ≤ p.mark.start := by
  obtain ⟨pre, post, rfl⟩ := List.append_of_mem hp
  exact h.before.2.2

theorem exists_last_of_mem {α : Type} {P : α → Prop} {l : List α} (h : ∃ a ∈ l, P a) :
    ∃ pre a post, l = pre ++ a :: post ∧ P a ∧ ∀ b ∈ post, ¬P b := by
  induction l using List.reverseRecOn with
  | nil =>
    obtain ⟨a, ha, -⟩ := h
    exact nomatch ha
  | append_singleton l a ih =>
    by_cases ha : P a
    · exact ⟨l, a, [], rfl, ha, nofun⟩
    · obtain ⟨b, hb, hPb⟩ := h
      have hb : b ∈ l := (List.mem_append.1 hb).resolve_right fun hb =>
        ha (List.mem_singleton.1 hb ▸ hPb)
      obtain ⟨pre, c, post, rfl, hc, hpost⟩ := ih ⟨b, hb, hPb⟩
      refine ⟨pre, c, post ++ [a], by simp, hc, fun b hb => ?_⟩
      rcases List.mem_append.1 hb with hb | hb
      · exact hpost b hb
      · rwa [List.mem_singleton.1 hb]

/-- A section ends behind its last part, or there is none of it yet. -/
theorem Layout.place (h : Layout d lead parts) (hd : Headed d.sections) {name : Option Line}
    (hname : d.hasSection name = true) :
    (∃ pre p post, parts = pre ++ p :: post ∧ p.mark.name = name ∧
      (∀ q ∈ post, q.mark.name ≠ name) ∧ d.insertPoint name = (p.stop, p.indent)) ∨
    name = none ∧ (∀ p ∈ parts, p.mark.name ≠ none) ∧ (d.insertPoint none).1 ≤ lead.length ∧
      (d.insertPoint none).2 = [] := by
  by_cases hsome : ∃ p ∈ parts, p.mark.name = name
  · obtain ⟨pre, p, post, rfl, rfl, hlast⟩ := exists_last_of_mem hsome
    exact .inl ⟨pre, p, post, rfl, rfl, hlast, h.insertPoint_last hd hlast⟩
  · have hnone := ((h.hasSection_iff hd.titled name).1 hname).resolve_right hsome
    subst hnone
    have hall : ∀ p ∈ parts, p.mark.name ≠ none := fun p hp heq => hsome ⟨p, hp, heq⟩
    exact .inr ⟨rfl, hall, h.insertPoint_top hd hall⟩

end Places

section Insert

variable {lead : List Line} {parts pre post : List Part} {p : Part}

/-- Behind the last part of a section stand the keys that are added to it. -/
theorem insert_stop_of_last (h : Layout t lead (pre ++ p :: post)) (hd : Headed t.sections)
    (hlast : ∀ q ∈ post, q.mark.name ≠ p.mark.name) :
    (presentEdits t s).insert p.stop =
      (s.effective.get p.mark.name).elim [] (addition t s p.mark.name) := by
  have hp : p ∈ pre ++ p :: post := by simp
  have hplace := h.insertPoint_last hd hlast
  have hname : t.hasSection p.mark.name = true :=
    (h.hasSection_iff hd.titled _).2 (.inr ⟨p, hp, rfl⟩)
  refine insert_eq_addition hname fun name' hname' => ⟨fun hj => ?_, fun heq => ?_⟩
  · rcases h.place hd hname' with ⟨pre', q, post', heq, rfl, -, hq⟩ | ⟨rfl, -, htop, -⟩
    · have hqmem : q ∈ pre ++ p :: post := by
        rw [heq]
        simp
      rw [hq] at hj
      have := p.start_lt_stop
      have := q.start_lt_stop
      have := p.stop_le_next
      have := q.stop_le_next
      rcases h.trichotomy hp hqmem with rfl | hlt | hlt
      · rfl
      · omega
      · omega
    · have := h.length_lead_le hp
      have := p.start_lt_stop
      omega
  · rw [heq, hplace]

/-- Behind another part of the section nothing is added. -/
theorem insert_stop_of_not_last (h : Layout t lead (pre ++ p :: post)) (hd : Headed t.sections)
    (hmore : ∃ q ∈ post, q.mark.name = p.mark.name) : (presentEdits t s).insert p.stop = [] := by
  have hp : p ∈ pre ++ p :: post := by simp
  refine insert_eq_nil fun name' hname' hj => ?_
  have := p.start_lt_stop
  have := p.stop_le_next
  rcases h.place hd hname' with ⟨pre', q', post', heq, rfl, hlast, hq'⟩ | ⟨rfl, -, htop, -⟩
  · have hq'mem : q' ∈ pre ++ p :: post := by
      rw [heq]
      simp
    rw [hq'] at hj
    have := q'.start_lt_stop
    have := q'.stop_le_next
    rcases h.trichotomy hp hq'mem with rfl | hlt | hlt
    · obtain ⟨q, hq, hname⟩ := hmore
      have hafter := h.before.2.1 q hq
      have := q.start_lt_stop
      have := q.stop_le_next
      have hqmem : q ∈ pre' ++ p :: post' := heq ▸ List.mem_append_right _ (.tail _ hq)
      rw [heq] at h
      rcases List.mem_append.1 hqmem with hq | hq
      · have := h.before.1 q hq
        omega
      · rcases List.mem_cons.1 hq with rfl | hq
        · omega
        · exact hlast q hq hname
    · omega
    · omega
  · have := h.length_lead_le hp
    omega

/-- Nothing is inserted within a part but behind its header or key. -/
theorem insert_within (h : Layout t lead parts) (hd : Headed t.sections) (hp : p ∈ parts) {j : ℕ}
    (hstart : p.mark.start < j) (hnext : j ≤ p.next) (hne : j ≠ p.stop) :
    (presentEdits t s).insert j = [] := by
  refine insert_eq_nil fun name' hname' hj => ?_
  rcases h.place hd hname' with ⟨pre', q', post', heq, rfl, hlast, hq'⟩ | ⟨rfl, -, htop, -⟩
  · have hq'mem : q' ∈ parts := by
      rw [heq]
      simp
    rw [hq'] at hj
    have := q'.start_lt_stop
    have := q'.stop_le_next
    rcases h.trichotomy hp hq'mem with rfl | hlt | hlt
    · exact hne hj.symm
    · omega
    · omega
  · have := h.length_lead_le hp
    omega

/-- In front of all parts, nothing is inserted but the keys of no section. -/
theorem insert_lead (h : Layout t lead parts) (hd : Headed t.sections) {j : ℕ}
    (hj : j ≤ lead.length)
    (hne : (∀ p ∈ parts, p.mark.name ≠ none) → j ≠ (t.insertPoint none).1) :
    (presentEdits t s).insert j = [] := by
  refine insert_eq_nil fun name' hname' hplace => ?_
  rcases h.place hd hname' with ⟨pre', q', post', heq, rfl, hlast, hq'⟩ | ⟨rfl, hnone, htop, -⟩
  · have hq'mem : q' ∈ parts := by
      rw [heq]
      simp
    have := h.length_lead_le hq'mem
    have := q'.start_lt_stop
    rw [hq'] at hplace
    omega
  · exact hne hnone hplace.symm

/-- The keys of no section are inserted in front of all parts, where there is none of them. -/
theorem insert_top (h : Layout t lead parts) (hd : Headed t.sections)
    (hnone : ∀ p ∈ parts, p.mark.name ≠ none) :
    (presentEdits t s).insert (t.insertPoint none).1 =
      (s.effective.get none).elim [] (addition t s none) := by
  refine insert_eq_addition rfl fun name' hname' => ⟨fun hj => ?_, fun heq => by rw [heq]⟩
  rcases h.place hd hname' with ⟨pre', q', post', heq, rfl, hlast, hq'⟩ | ⟨rfl, -, -, -⟩
  · have hq'mem : q' ∈ parts := by
      rw [heq]
      simp
    have := h.length_lead_le hq'mem
    have := q'.start_lt_stop
    have := (h.insertPoint_top hd hnone).1
    rw [hq'] at hj
    omega
  · rfl

/-- Only a key's first line is replaced, along with the others of its entry. -/
theorem exists_part_of_replace (h : Layout t lead parts) {j : ℕ} {r : ℕ × List Line}
    (hr : (presentEdits t s).replace j = some r) : ∃ p ∈ parts, p.mark.start = j ∧
      ∃ existing entry, p.mark.entry = some existing ∧
        t.get p.mark.name existing.key = some existing ∧
        s.get p.mark.name existing.key = some entry ∧
        r = (p.stop, replacement t existing s entry) := by
  obtain ⟨name, key, existing, entry, ht, hs, -, hstart, rfl⟩ := exists_of_replace t s j r hr
  obtain ⟨p, hp, rfl, hentry, rfl⟩ := h.mem_of_get ht
  obtain ⟨-, hpstart, hstop, -⟩ := (h.sound hp).key existing hentry
  exact ⟨p, hp, hpstart.symm.trans hstart, existing, entry, hentry, ht, hs, by rw [hstop]⟩

end Insert

/-! ### Writing part by part -/

/-- The lines that are written from line `i` on, but for those inserted before it. -/
def Edits.applyRest (e : Edits) : ℕ → List Line → List Line
  | _, [] => []
  | i, line :: rest =>
    match e.replace i with
    | some (stop, replaced) => replaced ++ e.apply (i + 1) (stop - (i + 1)) rest
    | none => line :: e.apply (i + 1) 0 rest

theorem apply_zero (e : Edits) (i : ℕ) (ls : List Line) :
    e.apply i 0 ls = e.insert i ++ e.applyRest i ls := by
  cases ls with
  | nil => exact (List.append_nil _).symm
  | cons line ls => rfl

theorem apply_skip (e : Edits) (i : ℕ) (ls more : List Line) :
    e.apply i ls.length (ls ++ more) = e.apply (i + ls.length) 0 more := by
  induction ls generalizing i with
  | nil => rfl
  | cons line ls ih =>
    rw [List.length_cons, List.cons_append, Edits.apply, ih]
    congr 1
    omega

/-- Lines where nothing is replaced or inserted are kept. -/
theorem applyRest_noise {e : Edits} {i : ℕ} {ls : List Line}
    (hreplace : ∀ j, i ≤ j → j < i + ls.length → e.replace j = none)
    (hinsert : ∀ j, i < j → j ≤ i + ls.length → e.insert j = []) (more : List Line) :
    e.applyRest i (ls ++ more) = ls ++ e.applyRest (i + ls.length) more := by
  induction ls generalizing i with
  | nil => rfl
  | cons line ls ih =>
    rw [List.length_cons] at hreplace hinsert
    rw [List.cons_append, Edits.applyRest, hreplace i le_rfl (by omega)]
    show line :: e.apply (i + 1) 0 (ls ++ more) = _
    rw [apply_zero, hinsert (i + 1) (by omega) (by omega), List.nil_append,
      ih (fun j hij hj => hreplace j (by omega) (by omega))
        fun j hij hj => hinsert j (by omega) (by omega), List.length_cons, List.cons_append]
    congr 3
    omega

/-- Lines that are kept, with what is inserted behind them. -/
theorem applyRest_kept {e : Edits} {i : ℕ} {line : Line} {body : List Line}
    (hreplace : ∀ j, i ≤ j → j < i + (body.length + 1) → e.replace j = none)
    (hinsert : ∀ j, i < j → j < i + (body.length + 1) → e.insert j = []) (more : List Line) :
    e.applyRest i (line :: body ++ more) = line :: body ++ e.insert (i + (body.length + 1)) ++
      e.applyRest (i + (body.length + 1)) more := by
  induction body generalizing i line with
  | nil =>
    rw [List.singleton_append, Edits.applyRest, hreplace i le_rfl (by simp)]
    show line :: e.apply (i + 1) 0 more = _
    rw [apply_zero]
    rfl
  | cons line' body ih =>
    rw [List.length_cons] at hreplace hinsert
    rw [List.cons_append, Edits.applyRest, hreplace i le_rfl (by omega)]
    show line :: e.apply (i + 1) 0 (line' :: body ++ more) = _
    have hnext : i + 1 + (body.length + 1) = i + (body.length + 1 + 1) := by omega
    rw [apply_zero, hinsert (i + 1) (by omega) (by omega), List.nil_append,
      ih (fun j hij hj => hreplace j (by omega) (by omega))
        fun j hij hj => hinsert j (by omega) (by omega), hnext, List.length_cons]
    simp

/-- Lines that are replaced, with what is inserted behind them. -/
theorem applyRest_replaced {e : Edits} {i : ℕ} {line : Line} {body replaced : List Line}
    (hreplace : e.replace i = some (i + (body.length + 1), replaced)) (more : List Line) :
    e.applyRest i (line :: body ++ more) = replaced ++ e.insert (i + (body.length + 1)) ++
      e.applyRest (i + (body.length + 1)) more := by
  have hskip : i + (body.length + 1) - (i + 1) = body.length := by omega
  have hnext : i + 1 + body.length = i + (body.length + 1) := by omega
  rw [List.cons_append, Edits.applyRest, hreplace]
  show replaced ++ e.apply (i + 1) (i + (body.length + 1) - (i + 1)) (body ++ more) = _
  rw [hskip, apply_skip, hnext, apply_zero, List.append_assoc]

/-- The lines of a part's header or key in the merged file. -/
def writtenHead (t s : Doc) (p : Part) : List Line :=
  match (presentEdits t s).replace p.mark.start with
  | some (_, replaced) => replaced
  | none => p.line :: p.body

/-- The lines of a part in the merged file, with what is inserted behind its key. -/
def written (t s : Doc) (p : Part) : List Line :=
  writtenHead t s p ++ (presentEdits t s).insert p.stop ++ p.rest

/-- **The target's parts are written one after another.** -/
theorem applyRest_parts {lead : List Line} {parts : List Part} (h : Layout t lead parts)
    (hd : Headed t.sections) (s : Doc) {pre post : List Part} (hparts : parts = pre ++ post) :
    (presentEdits t s).applyRest (lead.length + (pre.flatMap Part.lines).length)
      (post.flatMap Part.lines) = post.flatMap (written t s) := by
  induction post generalizing pre with
  | nil => rfl
  | cons p post ih =>
    subst hparts
    have hp : p ∈ pre ++ p :: post := by simp
    have hstart := h.split.1.start
    have hnext : lead.length + ((pre ++ [p]).flatMap Part.lines).length = p.next := by
      rw [List.flatMap_append, List.flatMap_singleton, List.length_append, Part.next]
      omega
    have ih := ih (show pre ++ p :: post = (pre ++ [p]) ++ post by simp)
    rw [hnext, next_eq] at ih
    have hreplace : ∀ j, p.mark.start < j → j < p.next →
        (presentEdits t s).replace j = none := by
      intro j hlow hhigh
      by_contra hne
      obtain ⟨r, hr⟩ := Option.ne_none_iff_exists'.1 hne
      obtain ⟨q, hq, rfl, -⟩ := exists_part_of_replace h hr
      have := q.start_lt_stop
      have := q.stop_le_next
      rcases h.trichotomy hp hq with rfl | hlt | hlt
      · omega
      · omega
      · omega
    have hstop := p.start_lt_stop
    have hle := next_eq p
    have hrest : (presentEdits t s).applyRest p.stop (p.rest ++ post.flatMap Part.lines) =
        p.rest ++ post.flatMap (written t s) := by
      rw [applyRest_noise (fun j hlow hhigh => hreplace j (by omega) (by omega))
        fun j hlow hhigh => insert_within h hd hp (by omega) (by omega) (by omega), ih]
    rw [← hstart, List.flatMap_cons, List.flatMap_cons, Part.lines, written, writtenHead,
      List.append_assoc]
    cases hr : (presentEdits t s).replace p.mark.start with
    | none =>
      rw [applyRest_kept (fun j hlow hhigh => ?_) fun j hlow hhigh =>
        insert_within h hd hp (by omega) (by rw [Part.stop] at *; omega)
          (by rw [Part.stop]; omega)]
      · rw [← Part.stop, hrest]
        simp
      · rcases hlow.eq_or_lt with rfl | hlow
        · exact hr
        · exact hreplace j hlow (by rw [Part.stop] at *; omega)
    | some r =>
      obtain ⟨q, hq, hqstart, existing, entry, -, -, -, rfl⟩ := exists_part_of_replace h hr
      have hqp : q = p := by
        have := q.start_lt_stop
        have := q.stop_le_next
        have := p.stop_le_next
        rcases h.trichotomy hp hq with rfl | hlt | hlt
        · rfl
        · omega
        · omega
      subst hqp
      rw [applyRest_replaced hr, ← Part.stop, hrest]
      simp

/-- The keys that are added in front of all parts. -/
def topAddition (t s : Doc) (parts : List Part) : List Line :=
  if parts.any (·.mark.name = none) then [] else (s.effective.get none).elim [] (addition t s none)

/-- **The target with the keys that are added to its sections.** -/
theorem apply_presentEdits {lead : List Line} {parts : List Part} (h : Layout t lead parts)
    (hd : Headed t.sections) (s : Doc) : ∃ a b, lead = a ++ b ∧
      (topAddition t s parts ≠ [] → a.length = (t.insertPoint none).1) ∧
      (presentEdits t s).apply 0 0 t.lines =
        a ++ topAddition t s parts ++ b ++ parts.flatMap (written t s) := by
  have hreplace : ∀ j, j < lead.length → (presentEdits t s).replace j = none := by
    intro j hj
    by_contra hne
    obtain ⟨r, hr⟩ := Option.ne_none_iff_exists'.1 hne
    obtain ⟨p, hp, rfl, -⟩ := exists_part_of_replace h hr
    have := h.length_lead_le hp
    omega
  have hparts := applyRest_parts h hd s (show parts = [] ++ parts from rfl)
  rw [List.flatMap_nil, List.length_nil, Nat.add_zero] at hparts
  rw [apply_zero, h.lines]
  by_cases hnone : ∀ p ∈ parts, p.mark.name ≠ none
  · have htop : topAddition t s parts = (presentEdits t s).insert (t.insertPoint none).1 := by
      rw [insert_top h hd hnone, topAddition, if_neg]
      simpa using hnone
    have hle := (h.insertPoint_top hd hnone).1
    have hlead := lead.take_append_drop (t.insertPoint none).1
    have hlen := lead.length_take_of_le hle
    refine ⟨_, _, hlead.symm, fun _ => hlen, ?_⟩
    rw [htop]
    have hdrop : (presentEdits t s).applyRest (t.insertPoint none).1
        (lead.drop (t.insertPoint none).1 ++ parts.flatMap Part.lines) =
        lead.drop (t.insertPoint none).1 ++ parts.flatMap (written t s) := by
      have hnext : (t.insertPoint none).1 + (lead.drop (t.insertPoint none).1).length =
          lead.length := by
        rw [List.length_drop]
        omega
      rw [applyRest_noise (fun j hlow hhigh => hreplace j (by omega)) fun j hlow hhigh =>
        insert_lead h hd (by omega) fun _ => by omega, hnext, hparts]
    conv_lhs => rw [← hlead]
    cases htake : lead.take (t.insertPoint none).1 with
    | nil =>
      rw [htake, List.length_nil] at hlen
      rw [← hlen] at hdrop ⊢
      rw [List.nil_append, hdrop, List.nil_append, List.append_assoc]
    | cons line body =>
      rw [htake, List.length_cons] at hlen
      have hzero : (presentEdits t s).insert 0 = [] :=
        insert_lead h hd (by omega) fun _ => by omega
      have hkept := @applyRest_kept (presentEdits t s) 0 line body
        (fun j _ hhigh => hreplace j (by omega))
        (fun j hlow hhigh => insert_lead h hd (by omega) fun _ => by omega)
        (lead.drop (t.insertPoint none).1 ++ parts.flatMap Part.lines)
      rw [Nat.zero_add, hlen, hdrop] at hkept
      rw [hzero, List.nil_append, List.append_assoc, hkept]
      simp
  · have htop : topAddition t s parts = [] := by
      rw [topAddition, if_pos]
      simpa using hnone
    have hinsert : ∀ j, j ≤ lead.length → (presentEdits t s).insert j = [] :=
      fun j hj => insert_lead h hd hj fun hall => absurd hall hnone
    refine ⟨[], lead, rfl, fun hne => absurd htop hne, ?_⟩
    rw [htop, hinsert 0 (Nat.zero_le _), List.nil_append, List.nil_append, List.nil_append,
      applyRest_noise (fun j _ hhigh => hreplace j (by omega))
        fun j _ hhigh => hinsert j (by omega), Nat.zero_add, hparts]

/-! ### Added sections -/

/-- The lines of the sections that the target lacks, behind the lines written so far. -/
def sectionLines (t s : Doc) : List Line → List (Option Line × IndexMap Line Entry) → List Line
  | _, [] => []
  | before, (none, _) :: secs => sectionLines t s before secs
  | before, (some name, keys) :: secs =>
    let blank := if (before.getLast?.or t.lines.getLast?).any (!isBlank ·) then [[]] else []
    let added := blank ++ s.headerLine name ::
      keys.entries.flatMap fun setting => s.entryLines setting.2 []
    added ++ sectionLines t s (before ++ added) secs

theorem insert_addSections (t s : Doc) (secs : List (Option Line × IndexMap Line Entry))
    (e : Edits) (j : ℕ) :
    (secs.foldl (fun e sec => addSection t s e sec.1 sec.2) e).insert j =
      e.insert j ++ if j = t.lines.length then
        sectionLines t s (e.insert t.lines.length) secs else [] := by
  induction secs generalizing e with
  | nil => simp [sectionLines]
  | cons sec secs ih =>
    obtain ⟨name, keys⟩ := sec
    rw [List.foldl_cons, ih]
    cases name with
    | none => rfl
    | some name =>
      by_cases hj : j = t.lines.length
      · subst hj
        simp [addSection, Edits.extend, sectionLines]
      · simp [addSection, Edits.extend, hj]

/-- Lines that are written at the end of a file follow all others. -/
theorem apply_append {e e' : Edits} {n : ℕ} {more : List Line} (hreplace : e'.replace = e.replace)
    (hinsert : ∀ j, j ≠ n → e'.insert j = e.insert j) (hlast : e'.insert n = e.insert n ++ more)
    (hstop : ∀ i r, e.replace i = some r → r.1 ≤ n) {i skip : ℕ} {ls : List Line}
    (hlen : i + ls.length = n) (hskip : skip ≤ ls.length) :
    e'.apply i skip ls = e.apply i skip ls ++ more := by
  induction ls generalizing i skip with
  | nil =>
    obtain rfl : skip = 0 := by simpa using hskip
    obtain rfl : i = n := by simpa using hlen
    exact hlast
  | cons line ls ih =>
    rw [List.length_cons] at hlen hskip
    cases skip with
    | succ skip => exact ih (by omega) (by omega)
    | zero =>
      rw [Edits.apply, Edits.apply, hinsert i (by omega), hreplace]
      cases hr : e.replace i with
      | none =>
        show _ ++ (line :: e'.apply (i + 1) 0 ls) = _ ++ (line :: e.apply (i + 1) 0 ls) ++ more
        rw [ih (by omega) (Nat.zero_le _)]
        simp
      | some r =>
        have := hstop i r hr
        show _ ++ (r.2 ++ e'.apply (i + 1) (r.1 - (i + 1)) ls) =
          _ ++ (r.2 ++ e.apply (i + 1) (r.1 - (i + 1)) ls) ++ more
        rw [ih (by omega) (by omega)]
        simp

/-- **The merged file**: the target with what is added to its sections, and the sections that
it lacks. -/
theorem apply_edits {lead : List Line} {parts : List Part} (h : Layout t lead parts) (s : Doc) :
    (edits t s).apply 0 0 t.lines = (presentEdits t s).apply 0 0 t.lines ++
      sectionLines t s ((presentEdits t s).insert t.lines.length)
        (s.effective.entries.filter fun sec => !t.hasSection sec.1) := by
  have hinsert := insert_addSections t s
    (s.effective.entries.filter fun sec => !t.hasSection sec.1) (presentEdits t s)
  refine apply_append (replace_edits t s) (n := t.lines.length) (fun j hj => ?_) ?_ ?_
    (Nat.zero_add _) (Nat.zero_le _)
  · rw [edits, hinsert, if_neg hj, List.append_nil]
  · rw [edits, hinsert, if_pos rfl]
  · intro i r hr
    obtain ⟨p, hp, -, existing, entry, -, -, -, rfl⟩ := exists_part_of_replace h hr
    obtain ⟨pre, post, rfl⟩ := List.append_of_mem hp
    have hlines := congrArg List.length h.split.2
    rw [List.length_drop, List.length_append, length_lines] at hlines
    rw [Part.stop]
    omega

end Mise.Ini
