/-
# What in-place replacement makes of the strings of a binary

A pass of `replaceInBinary` goes on behind the whole string that it rewrote, so
in every string it replaces the first occurrence of its placeholder and no other
(`replaceRest_append_append`, `replaceRest_lay`).  What `replaceText` makes of a
string stands in its slot exactly where one occurrence of each kind was all
there was at its turn (`relocated_iff`).
-/

import Mise.Relocation.Binary

namespace Mise.Relocation

open Lib

variable {r : Replacement} {rest : List UInt8}

/-! ### One string -/

theorem replaceRest_of_none (h : memmem rest r.placeholder = none) :
    replaceRest r rest = .ok (rest, false) := by
  rw [replaceRest]
  split
  · rfl
  · rename_i hsome
    rw [h] at hsome
    cases hsome

/-- The string at the first placeholder is rewritten, and then what is behind. -/
theorem replaceRest_of_some {start : ℕ} (h : memmem rest r.placeholder = some start)
    {t behind : List UInt8} {n : ℕ} (ht : frontText 0 (rest.drop start) = t)
    (hpad : frontPad 0 (rest.drop start) = List.replicate n 0)
    (hbehind : behindFront 0 (rest.drop start) = behind) :
    replaceRest r rest =
      if (r.value ++ t.drop r.placeholder.length).length + 1 > t.length + n then
        .error ⟨r.placeholder, (r.value ++ t.drop r.placeholder.length).length + 1, t.length + n⟩
      else (replaceRest r (List.replicate
          (t.length + n - (r.value ++ t.drop r.placeholder.length).length) 0 ++ behind)).map
        fun p => (rest.take start ++ (r.value ++ t.drop r.placeholder.length) ++ p.1, true) := by
  rw [replaceRest]
  split
  · rename_i hnone
    rw [h] at hnone
    cases hnone
  · rename_i start' hsome
    obtain rfl := Option.some.inj (h.symm.trans hsome)
    rw [ht, hpad, hbehind, List.length_replicate]
    refine if_congr Iff.rfl rfl ?_
    cases replaceRest r (List.replicate
      (t.length + n - (r.value ++ t.drop r.placeholder.length).length) 0 ++ behind) with
    | error e => rfl
    | ok p => rfl

@[simp] theorem replaceRest_nil : replaceRest r [] = .ok ([], false) := replaceRest_of_none rfl

/-- What is in front of everything that is found stays. -/
theorem replaceRest_append {front : List UInt8}
    (h : memmem (front ++ rest) r.placeholder =
      (memmem rest r.placeholder).map (· + front.length)) :
    replaceRest r (front ++ rest) =
      (replaceRest r rest).map fun p => (front ++ p.1, p.2) := by
  cases hrest : memmem rest r.placeholder with
  | none =>
    rw [hrest, Option.map_none] at h
    rw [replaceRest_of_none h, replaceRest_of_none hrest]
    rfl
  | some start =>
    rw [hrest, Option.map_some] at h
    have hdrop : (front ++ rest).drop (start + front.length) = rest.drop start := by
      rw [Nat.add_comm, List.drop_length_add_append]
    have htake : (front ++ rest).take (start + front.length) = front ++ rest.take start := by
      rw [Nat.add_comm, List.take_length_add_append]
    rw [replaceRest_of_some h rfl (frontPad_eq_replicate 0 _) rfl, hdrop, htake,
      replaceRest_of_some hrest rfl (frontPad_eq_replicate 0 _) rfl]
    split
    · rfl
    · cases replaceRest r (List.replicate _ 0 ++ behindFront 0 (rest.drop start)) with
      | error e => rfl
      | ok p =>
        refine congrArg Except.ok (Prod.ext ?_ rfl)
        simp only [List.append_assoc]

/-- A string with one placeholder replaced. -/
abbrev Replacement.first (r : Replacement) (text : List UInt8) : List UInt8 :=
  replaceFirst r.placeholder r.value text

/-- **One pass over a string and what is behind it:** the first placeholder of
the string is replaced, what is left of the slot is NUL, and the pass goes on
behind the slot. -/
theorem replaceRest_append_append {t : List UInt8} {n : ℕ} {content : List UInt8}
    {changed : Bool} (ht : 0 ∉ t) (hrest : rest.head? ≠ some 0) (hn : rest = [] ∨ 0 < n)
    (h : replaceRest r (t ++ (List.replicate n 0 ++ rest)) = .ok (content, changed)) :
    ∃ behind replaced, replaceRest r rest = .ok (behind, replaced) ∧
      (r.first t = t ∨ (r.first t).length < t.length + n) ∧
      content = r.first t ++
        (List.replicate (t.length + n - (r.first t).length) 0 ++ behind) := by
  have hzeros (m : ℕ) : replaceRest r (List.replicate m 0 ++ rest) =
      (replaceRest r rest).map fun p => (List.replicate m 0 ++ p.1, p.2) := by
    refine replaceRest_append ?_
    rw [memmem_replicate_append r.placeholder_ne r.placeholder_text, List.length_replicate]
  cases hfound : memmem t r.placeholder with
  | none =>
    have hfirst : r.first t = t := replaceFirst_of_none hfound
    have hsearch : memmem (t ++ (List.replicate n 0 ++ rest)) r.placeholder =
        (memmem (List.replicate n 0 ++ rest) r.placeholder).map (· + t.length) := by
      cases n with
      | zero =>
        obtain rfl := hn.resolve_right (Nat.lt_irrefl 0)
        rw [List.replicate_zero, List.append_nil, List.append_nil, hfound]
        rfl
      | succ m =>
        have hnul := memmem_append_cons r.placeholder_ne r.placeholder_text
          (rfl : memmem [] r.placeholder = none) (List.replicate m 0 ++ rest)
        rw [List.nil_append] at hnul
        rw [List.replicate_succ, List.cons_append, hnul,
          memmem_append_cons r.placeholder_ne r.placeholder_text hfound, Option.map_map]
        refine congrArg (Option.map · _) (funext fun i => ?_)
        simp only [Function.comp_apply, List.length_nil]
        omega
    rw [replaceRest_append hsearch, hzeros] at h
    cases hr : replaceRest r rest with
    | error e =>
      rw [hr] at h
      exact nomatch h
    | ok p =>
      rw [hr] at h
      obtain ⟨rfl, -⟩ := Prod.mk.inj (Except.ok.inj h)
      refine ⟨p.1, p.2, rfl, .inl hfirst, ?_⟩
      rw [hfirst, Nat.add_sub_cancel_left]
  | some start =>
    have hle := add_length_le_of_memmem hfound
    have hdrop : (t ++ (List.replicate n 0 ++ rest)).drop start =
        t.drop start ++ (List.replicate n 0 ++ rest) :=
      List.drop_append_of_le_length (by omega)
    obtain ⟨hold, hpad, hbehind⟩ :=
      front_eq (fun hmem => ht (List.mem_of_mem_drop hmem) : 0 ∉ t.drop start) hrest hn
    rw [← hdrop] at hold hpad hbehind
    have htake : (t ++ (List.replicate n 0 ++ rest)).take start = t.take start :=
      List.take_append_of_le_length (by omega)
    rw [replaceRest_of_some (memmem_append_of_some hfound _) hold hpad hbehind, htake,
      List.drop_drop] at h
    have hfirst : r.first t =
        t.take start ++ (r.value ++ t.drop (start + r.placeholder.length)) := by
      rw [Replacement.first, replaceFirst_of_some hfound, List.append_assoc]
    have hlength := congrArg List.length hfirst
    rw [List.length_append, List.length_take] at hlength
    split at h
    · exact nomatch h
    · rename_i hfits
      rw [List.length_drop] at hfits h
      rw [hzeros] at h
      cases hr : replaceRest r rest with
      | error e =>
        rw [hr] at h
        exact nomatch h
      | ok p =>
        rw [hr] at h
        obtain ⟨rfl, -⟩ := Prod.mk.inj (Except.ok.inj h)
        refine ⟨p.1, p.2, rfl, .inr (by omega), ?_⟩
        have hroom : t.length + n - (r.first t).length = t.length - start + n -
            (r.value ++ t.drop (start + r.placeholder.length)).length := by omega
        rw [hroom, hfirst]

/-! ### The slots of the content -/

variable {f : List UInt8 → List UInt8} {t : List UInt8} {room : ℕ}
  {behind : List (Slot UInt8)} {content : List UInt8} {changed : Bool}

theorem nul_notMem_first (hvalue : 0 ∉ r.value) (ht : 0 ∉ t) : 0 ∉ r.first t := fun h =>
  (List.mem_append.1 (replaceFirst_subset h)).elim ht hvalue

/-- What is laid out of a string is not read as terminators. -/
theorem head?_lay_ne (hne : t ≠ []) (ht : 0 ∉ t) : (lay 0 f t room behind).head? ≠ some 0 := by
  obtain ⟨b, t, rfl⟩ := List.exists_cons_of_ne_nil hne
  have hb : (lay 0 f (b :: t) room behind).head? = some b := by
    induction behind generalizing room with
    | nil => rfl
    | cons slot behind ih =>
      by_cases hnil : f slot.text = []
      · rw [lay_cons_of_nil hnil, ih]
      · rw [lay_cons_of_ne_nil hnil]
        rfl
  rw [hb]
  exact fun h => ht (Option.some.inj h ▸ List.mem_cons_self)

/-- **One pass over the slots:** in every string the first placeholder is
replaced. -/
theorem replaceRest_lay (ht : 0 ∉ t) (hnul : ∀ slot ∈ behind, 0 ∉ f slot.text)
    (hroomy : Roomy f t room behind)
    (h : replaceRest r (lay 0 f t room behind) = .ok (content, changed)) :
    content = lay 0 (r.first ∘ f) (r.first t) room behind ∧
      Roomy (r.first ∘ f) (r.first t) room behind := by
  induction behind generalizing t room content changed with
  | nil =>
    have hle : t.length ≤ room := hroomy
    rw [lay, ← List.append_nil (List.replicate _ _)] at h
    have hnil : ([] : List UInt8).head? ≠ some 0 := (Option.some_ne_none 0).symm
    obtain ⟨tail, replaced, htail, hfirst, rfl⟩ :=
      replaceRest_append_append ht hnil (.inl rfl) h
    rw [replaceRest_nil] at htail
    obtain ⟨rfl, -⟩ := Prod.mk.inj (Except.ok.inj htail)
    rw [lay, List.append_nil, Nat.add_sub_cancel' hle]
    refine ⟨rfl, ?_⟩
    rcases hfirst with hfirst | hfirst
    · rwa [Roomy, hfirst]
    · exact (hfirst.trans_le (Nat.add_sub_cancel' hle).le).le
  | cons slot behind ih =>
    have hbehind : ∀ s ∈ behind, 0 ∉ f s.text := fun s hs => hnul s (List.mem_cons_of_mem _ hs)
    by_cases hnil : f slot.text = []
    · have hnil' : (r.first ∘ f) slot.text = [] := by
        rw [Function.comp_apply, hnil]
        exact replaceFirst_nil
      rw [lay_cons_of_nil hnil] at h
      rw [lay_cons_of_nil hnil', roomy_cons_of_nil hnil']
      exact ih ht hbehind ((roomy_cons_of_nil hnil).1 hroomy) h
    · obtain ⟨hlt, hroomy⟩ := (roomy_cons_of_ne_nil hnil).1 hroomy
      have hslot := hnul slot List.mem_cons_self
      rw [lay_cons_of_ne_nil hnil] at h
      obtain ⟨tail, replaced, htail, hfirst, rfl⟩ :=
        replaceRest_append_append ht (head?_lay_ne hnil hslot) (.inr (Nat.sub_pos_of_lt hlt)) h
      obtain ⟨rfl, hrooms⟩ := ih hslot hbehind hroomy htail
      rw [Nat.add_sub_cancel' hlt.le] at hfirst ⊢
      have hlt' : (r.first t).length < room := by
        rcases hfirst with hfirst | hfirst
        · rwa [hfirst]
        · exact hfirst
      exact ⟨(lay_cons hlt'.le).symm, roomy_cons hlt' hrooms⟩

/-- Replacing one occurrence of each kind, kind after kind. -/
def replaceFirsts (content : List UInt8) (replacements : List Replacement) : List UInt8 :=
  replacements.foldl (fun out r => r.first out) content

theorem replaceKind_eq_ok {state state' : List UInt8 × Bool}
    (h : replaceKind state r = .ok state') :
    ∃ replaced, replaceRest r state.1 = .ok (state'.1, replaced) := by
  rw [replaceKind] at h
  cases hr : replaceRest r state.1 with
  | error e =>
    rw [hr] at h
    exact nomatch h
  | ok p =>
    rw [hr] at h
    obtain rfl := Except.ok.inj h
    exact ⟨p.2, rfl⟩

/-- **A run of `replaceInBinary`:** in every string one placeholder of each kind
is replaced, kind after kind. -/
theorem foldlM_replaceKind_laid {replacements : List Replacement}
    (hvalue : ∀ r ∈ replacements, 0 ∉ r.value) {slots : List (Slot UInt8)}
    (hnul : ∀ slot ∈ slots, 0 ∉ f slot.text) (hroomy : AllRoomy f slots)
    {state state' : List UInt8 × Bool} (hstate : state.1 = laid 0 f slots)
    (h : replacements.foldlM replaceKind state = .ok state') :
    state'.1 = laid 0 (fun text => replaceFirsts (f text) replacements) slots ∧
      AllRoomy (fun text => replaceFirsts (f text) replacements) slots ∧
      ∀ slot ∈ slots, 0 ∉ replaceFirsts (f slot.text) replacements := by
  induction replacements generalizing state f with
  | nil =>
    obtain rfl := Except.ok.inj h
    exact ⟨hstate, hroomy, hnul⟩
  | cons r replacements ih =>
    rw [List.foldlM_cons] at h
    cases hkind : replaceKind state r with
    | error e =>
      rw [hkind] at h
      exact nomatch h
    | ok next =>
      rw [hkind] at h
      obtain ⟨replaced, hrest⟩ := replaceKind_eq_ok hkind
      have hr := hvalue r List.mem_cons_self
      have hpass : next.1 = laid 0 (r.first ∘ f) slots ∧ AllRoomy (r.first ∘ f) slots := by
        rw [hstate] at hrest
        cases slots with
        | nil =>
          rw [laid, replaceRest_nil] at hrest
          exact ⟨(Prod.mk.inj (Except.ok.inj hrest)).1.symm, trivial⟩
        | cons slot slots =>
          exact replaceRest_lay (hnul slot List.mem_cons_self)
            (fun s hs => hnul s (List.mem_cons_of_mem _ hs)) hroomy hrest
      exact ih (fun r' hr' => hvalue r' (List.mem_cons_of_mem _ hr'))
        (fun slot hslot => nul_notMem_first hr (hnul slot hslot)) hpass.2 hpass.1 h

/-- A string without placeholders stays. -/
theorem replaceFirsts_of_not_contains {text : List UInt8} {replacements : List Replacement}
    (h : ¬ containsAnyPlaceholder text replacements) : replaceFirsts text replacements = text := by
  induction replacements with
  | nil => rfl
  | cons r replacements ih =>
    rw [containsAnyPlaceholder, List.any_cons, Bool.or_eq_true, not_or] at h
    have hfirst : r.first text = text :=
      replaceFirst_of_none (Option.not_isSome_iff_eq_none.1 h.1)
    rw [replaceFirsts, List.foldl_cons, hfirst]
    exact ih h.2

/-! ### Complete and local -/

variable {replacements : List Replacement} {content' : List UInt8}

/-- The content is relocated in place: it is as long as before, no placeholder
is left, every string that held one now reads as `replaceText` makes it, with a
terminator in its slot, and what is not in the slot of such a string is as
before. -/
structure Relocated (replacements : List Replacement) (content content' : List UInt8) : Prop where
  length : content'.length = content.length
  complete : containsAnyPlaceholder content' replacements = false
  replaced : ∀ slot ∈ slots 0 0 content, containsAnyPlaceholder slot.text replacements →
    replaceText slot.text replacements ++ [0] <+: slot.cut content'
  elsewhere : ∀ i, (∀ slot ∈ slots 0 0 content, containsAnyPlaceholder slot.text replacements →
    ¬ (slot.start ≤ i ∧ i < slot.start + slot.width)) → content'[i]? = content[i]?

/-- A string can be relocated in place: no kind of placeholder stands in it again
behind its first (one occurrence of each replaced, kind after kind, is all of
them replaced), what is put in makes no placeholder with what stands around it,
and the string fits its own slot. -/
structure Relocatable (replacements : List Replacement) (slot : Slot UInt8) : Prop where
  once : replaceFirsts slot.text replacements = replaceText slot.text replacements
  gone : containsAnyPlaceholder (replaceText slot.text replacements) replacements = false
  fits : (replaceText slot.text replacements).length < slot.width

theorem containsAnyPlaceholder_eq_false_iff : containsAnyPlaceholder content replacements = false ↔
    ∀ r ∈ replacements, memmem content r.placeholder = none := by
  simp only [containsAnyPlaceholder, List.any_eq_false, Option.not_isSome_iff_eq_none]

theorem replaceKind_of_none {r : Replacement} {state : List UInt8 × Bool}
    (h : memmem state.1 r.placeholder = none) : replaceKind state r = .ok state := by
  rw [replaceKind, replaceRest_of_none h]
  exact congrArg Except.ok (Prod.ext rfl (Bool.or_false _))

/-- Content without placeholders is left as it is. -/
theorem foldlM_replaceKind_of_not_contains {state : List UInt8 × Bool}
    (h : containsAnyPlaceholder state.1 replacements = false) :
    replacements.foldlM replaceKind state = .ok state := by
  have h := containsAnyPlaceholder_eq_false_iff.1 h
  induction replacements with
  | nil => rfl
  | cons r replacements ih =>
    rw [List.foldlM_cons, replaceKind_of_none (h r List.mem_cons_self)]
    have hrest := fun r' hr' => h r' (List.mem_cons_of_mem r hr')
    exact ih (containsAnyPlaceholder_eq_false_iff.2 hrest) hrest

/-- Where no later kind of placeholder is left, the first pass is all there is. -/
theorem replaceInBinary_cons {r : Replacement} {content content' : List UInt8} {changed : Bool}
    (h : replaceRest r content = .ok (content', changed))
    (hrest : containsAnyPlaceholder content' replacements = false) :
    replaceInBinary content (r :: replacements) = .ok (content', changed) := by
  have hkind : replaceKind (content, false) r = .ok (content', changed) := by
    rw [replaceKind, h]
    rfl
  rw [replaceInBinary, List.foldlM_cons, hkind]
  exact foldlM_replaceKind_of_not_contains hrest

theorem nul_notMem_replaceText (hvalue : ∀ r ∈ replacements, 0 ∉ r.value) (ht : 0 ∉ t) :
    0 ∉ replaceText t replacements := by
  induction replacements generalizing t with
  | nil => exact ht
  | cons r replacements ih =>
    refine ih (fun r' hr' => hvalue r' (List.mem_cons_of_mem _ hr')) fun h => ?_
    exact (List.mem_append.1 (replaceAll_subset h)).elim ht (hvalue r List.mem_cons_self)

theorem memmem_append_gap (ht : memmem t r.placeholder = none)
    (hrest : memmem rest r.placeholder = none) (n : ℕ) :
    memmem (t ++ (List.replicate (n + 1) 0 ++ rest)) r.placeholder = none := by
  rw [List.replicate_succ, List.cons_append,
    memmem_append_cons r.placeholder_ne r.placeholder_text ht,
    memmem_replicate_append r.placeholder_ne r.placeholder_text, hrest]
  rfl

/-- What occurs in no string does not occur in the buffer. -/
theorem memmem_lay (ht : memmem t r.placeholder = none)
    (hslots : ∀ slot ∈ behind, memmem (f slot.text) r.placeholder = none)
    (hroomy : Roomy f t room behind) :
    memmem (lay 0 f t room behind) r.placeholder = none := by
  induction behind generalizing t room with
  | nil =>
    rw [lay]
    cases room - t.length with
    | zero => rwa [List.replicate_zero, List.append_nil]
    | succ n =>
      rw [← List.append_nil (List.replicate (n + 1) 0)]
      exact memmem_append_gap ht rfl n
  | cons slot behind ih =>
    have hbehind := fun s hs => hslots s (List.mem_cons_of_mem slot hs)
    by_cases hnil : f slot.text = []
    · rw [lay_cons_of_nil hnil]
      exact ih ht hbehind ((roomy_cons_of_nil hnil).1 hroomy)
    · obtain ⟨hlt, hroomy⟩ := (roomy_cons_of_ne_nil hnil).1 hroomy
      obtain ⟨n, hn⟩ := Nat.exists_eq_succ_of_ne_zero (Nat.sub_pos_of_lt hlt).ne'
      rw [lay_cons_of_ne_nil hnil, hn]
      exact memmem_append_gap ht (ih (hslots slot List.mem_cons_self) hbehind hroomy) n

/-- **What a run leaves:** the content with one placeholder of each kind replaced
in every string, kind after kind. -/
theorem replaceInBinary_eq_ok (hvalue : ∀ r ∈ replacements, 0 ∉ r.value)
    (h : replaceInBinary content replacements = .ok (content', changed)) :
    content' = laid 0 (fun text => replaceFirsts text replacements) (slots 0 0 content) ∧
      AllRoomy (fun text => replaceFirsts text replacements) (slots 0 0 content) ∧
      ∀ slot ∈ slots 0 0 content, 0 ∉ replaceFirsts slot.text replacements := by
  obtain ⟨hlaid, hroomy⟩ := laid_slots 0 0 content
  exact foldlM_replaceKind_laid hvalue (fun _ hslot => nul_notMem_of_mem hslot) hroomy
    hlaid.symm h

/-- Every string of a relocated content fits its slot. -/
theorem length_replaceFirsts_le {slot : Slot UInt8} (hslot : slot ∈ slots 0 0 content)
    (h : containsAnyPlaceholder slot.text replacements → Relocatable replacements slot) :
    (replaceFirsts slot.text replacements).length ≤ slot.width := by
  by_cases hcontains : containsAnyPlaceholder slot.text replacements
  · rw [(h hcontains).once]
    exact (h hcontains).fits.le
  · rw [replaceFirsts_of_not_contains hcontains]
    rcases length_lt_width_or hslot with hlt | ⟨heq, -⟩
    · exact hlt.le
    · exact heq.le

/-- A placeholder that is in no string is not in the buffer. -/
theorem memmem_laid {slots : List (Slot UInt8)} (hroomy : AllRoomy f slots)
    (h : ∀ slot ∈ slots, memmem (f slot.text) r.placeholder = none) :
    memmem (laid 0 f slots) r.placeholder = none := by
  cases slots with
  | nil => rfl
  | cons slot slots =>
    exact memmem_lay (h slot List.mem_cons_self)
      (fun s hs => h s (List.mem_cons_of_mem _ hs)) hroomy

/-- The content of a slot, from the strings as they are. -/
theorem cut_content {slot : Slot UInt8} (hslot : slot ∈ slots 0 0 content) :
    slot.cut content = slot.text ++ List.replicate (slot.width - slot.text.length) 0 := by
  have hcut := @cut_laid UInt8 0 id slot [] (slots 0 0 content) (consecutive_slots 0 0 content)
    (fun s hs => (length_lt_width_or hs).elim Nat.le_of_lt fun h => h.1.le) hslot
  rwa [List.nil_append, (laid_slots 0 0 content).1] at hcut

/-- Strings that fit their slots are all replaced. -/
theorem relocated_of_relocatable (hvalue : ∀ r ∈ replacements, 0 ∉ r.value)
    (h : replaceInBinary content replacements = .ok (content', changed))
    (hslots : ∀ slot ∈ slots 0 0 content, containsAnyPlaceholder slot.text replacements →
      Relocatable replacements slot) : Relocated replacements content content' := by
  obtain ⟨rfl, hroomy, hnul⟩ := replaceInBinary_eq_ok hvalue h
  obtain ⟨hlaid, hroomy'⟩ := laid_slots 0 0 content
  have hlength : (laid 0 (fun text => replaceFirsts text replacements)
      (slots 0 0 content)).length = content.length := by
    rw [length_laid hroomy]
    exact (length_laid hroomy').symm.trans (congrArg List.length hlaid)
  have hcut {slot : Slot UInt8} (hslot : slot ∈ slots 0 0 content) :=
    @cut_laid UInt8 0 (fun text => replaceFirsts text replacements) slot [] _
      (consecutive_slots 0 0 content) (fun s hs => length_replaceFirsts_le hs (hslots s hs)) hslot
  refine ⟨hlength, ?_, fun slot hslot hcontains => ?_, fun i hi => ?_⟩
  · refine containsAnyPlaceholder_eq_false_iff.2 fun r hr =>
      memmem_laid hroomy fun slot hslot => ?_
    by_cases hcontains : containsAnyPlaceholder slot.text replacements
    · obtain ⟨honce, hgone, -⟩ := hslots slot hslot hcontains
      rw [honce]
      exact containsAnyPlaceholder_eq_false_iff.1 hgone r hr
    · rw [replaceFirsts_of_not_contains hcontains]
      exact containsAnyPlaceholder_eq_false_iff.1 (Bool.eq_false_iff.2 hcontains) r hr
  · -- the string, and at least one terminator of its slot
    obtain ⟨honce, -, hfits⟩ := hslots slot hslot hcontains
    have hcut := hcut hslot
    rw [List.nil_append, honce] at hcut
    obtain ⟨n, hn⟩ := Nat.exists_eq_succ_of_ne_zero (Nat.sub_pos_of_lt hfits).ne'
    rw [hcut, hn, List.replicate_succ]
    exact ⟨List.replicate n 0, by rw [List.append_assoc, List.singleton_append]⟩
  · by_cases hlt : i < content.length
    · obtain ⟨slot, hslot, hstart, hend⟩ := @exists_slot UInt8 _ 0 0 content i
        (Nat.zero_le i) (by rwa [Nat.zero_add])
      have hcontains : ¬ containsAnyPlaceholder slot.text replacements := fun hc =>
        hi slot hslot hc ⟨hstart, hend⟩
      have hcut := hcut hslot
      rw [List.nil_append, replaceFirsts_of_not_contains hcontains, ← cut_content hslot] at hcut
      rw [← getElem?_cut hstart hend, hcut, getElem?_cut hstart hend]
    · rw [List.getElem?_eq_none (by omega), List.getElem?_eq_none (by omega)]

/-- What the strings of a relocated content read, at the starts of their slots. -/
theorem frontText_of_relocated (hvalue : ∀ r ∈ replacements, 0 ∉ r.value)
    (h : Relocated replacements content content') {slot : Slot UInt8}
    (hslot : slot ∈ slots 0 0 content) :
    frontText 0 (content'.drop slot.start) =
        (if containsAnyPlaceholder slot.text replacements then
          replaceText slot.text replacements else slot.text) ∧
      (if containsAnyPlaceholder slot.text replacements then
        replaceText slot.text replacements else slot.text).length ≤ slot.width := by
  have hnul := nul_notMem_of_mem hslot
  have hread {t : List UInt8} (ht : 0 ∉ t) (hfront : t ++ [0] <+: slot.cut content') :
      frontText 0 (content'.drop slot.start) = t ∧ t.length ≤ slot.width := by
    have hle := hfront.length_le
    rw [Slot.cut, List.length_append, List.length_take] at hle
    have htake : slot.cut content' <+: content'.drop slot.start := List.take_prefix _ _
    obtain ⟨rest, hrest⟩ := hfront.trans htake
    rw [← hrest, List.append_assoc]
    exact ⟨frontText_append ht (.inr rfl), by omega⟩
  split_ifs with hcontains
  · exact hread (nul_notMem_replaceText hvalue hnul) (h.replaced slot hslot hcontains)
  · have hcut : slot.cut content' = slot.cut content := by
      refine List.ext_getElem? fun j => ?_
      by_cases hj : j < slot.width
      · have hread (buf : List UInt8) : (slot.cut buf)[j]? = buf[slot.start + j]? := by
          rw [← getElem?_cut (Nat.le_add_right slot.start j) (by omega), Nat.add_sub_cancel_left]
        rw [hread content', hread content]
        refine h.elsewhere _ fun other hother hc hin => hcontains ?_
        rwa [eq_of_mem_slots hslot hother ⟨Nat.le_add_right slot.start j, by omega⟩ hin]
      · rw [Slot.cut, Slot.cut, List.getElem?_take_eq_none (by omega),
          List.getElem?_take_eq_none (by omega)]
    rw [cut_content hslot] at hcut
    rcases length_lt_width_or hslot with hlt | ⟨hwidth, hend⟩
    · refine hread hnul ?_
      obtain ⟨n, hn⟩ := Nat.exists_eq_succ_of_ne_zero (Nat.sub_pos_of_lt hlt).ne'
      rw [hcut, hn, List.replicate_succ]
      exact ⟨List.replicate n 0, by rw [List.append_assoc, List.singleton_append]⟩
    · -- the last string, without a terminator
      rw [hwidth, Nat.sub_self, List.replicate_zero, List.append_nil, Slot.cut,
        List.take_of_length_le (by rw [List.length_drop, h.length]; omega)] at hcut
      have htext := @frontText_append UInt8 0 slot.text _ [] hnul (.inl rfl)
      rw [List.append_nil] at htext
      rw [hcut]
      exact ⟨htext, hwidth.le⟩

/-- A string that is replaced fits its slot. -/
theorem relocatable_of_relocated (hvalue : ∀ r ∈ replacements, 0 ∉ r.value)
    (h : replaceInBinary content replacements = .ok (content', changed))
    (hrelocated : Relocated replacements content content') {slot : Slot UInt8}
    (hslot : slot ∈ slots 0 0 content)
    (hcontains : containsAnyPlaceholder slot.text replacements) :
    Relocatable replacements slot := by
  obtain ⟨hcontent, hroomy, hnul⟩ := replaceInBinary_eq_ok hvalue h
  have hread := fun s hs => @frontText_of_relocated _ _ _ hvalue hrelocated s hs
  have honce : replaceFirsts slot.text replacements = replaceText slot.text replacements := by
    rw [hcontent] at hread
    have heq := @eq_of_reads UInt8 0 (fun text => replaceFirsts text replacements) slot _
      (fun s => if containsAnyPlaceholder s.text replacements then
        replaceText s.text replacements else s.text) [] _ (consecutive_slots 0 0 content)
      (fun s hs => width_pos_of_mem hs) hnul hroomy hread hslot
    rwa [if_pos hcontains] at heq
  have hreplaced := hrelocated.replaced slot hslot hcontains
  refine ⟨honce, containsAnyPlaceholder_eq_false_iff.2 fun r hr => ?_, ?_⟩
  · have hcomplete := containsAnyPlaceholder_eq_false_iff.1 hrelocated.complete r hr
    rw [memmem_eq_none_iff r.placeholder_ne] at hcomplete ⊢
    intro hin
    have htake : slot.cut content' <+: content'.drop slot.start := List.take_prefix _ _
    have hcut : slot.cut content' <:+: content' :=
      htake.isInfix.trans (List.drop_suffix _ _).isInfix
    exact hcomplete (((hin.trans (List.prefix_append _ [0]).isInfix).trans
      hreplaced.isInfix).trans hcut)
  · have hle := hreplaced.length_le
    rw [Slot.cut, List.length_append, List.length_take, List.length_singleton] at hle
    omega

/-- **In-place relocation is complete and local exactly where every string that
holds a placeholder can be relocated:** no kind stands in it again behind its
first, what is put in makes no placeholder with what is around it, and it fits
its own slot. -/
theorem relocated_iff
    (hvalue : ∀ r ∈ replacements, 0 ∉ r.value ∧ containsAnyPlaceholder r.value replacements = false)
    (h : replaceInBinary content replacements = .ok (content', changed)) :
    Relocated replacements content content' ↔
      ∀ slot ∈ slots 0 0 content, containsAnyPlaceholder slot.text replacements →
        Relocatable replacements slot :=
  ⟨fun hrelocated _ => relocatable_of_relocated (fun r hr => (hvalue r hr).1) h hrelocated,
    relocated_of_relocatable (fun r hr => (hvalue r hr).1) h⟩

/-- The replacements of an installation under `/opt/homebrew`. -/
def optHomebrew : List Replacement :=
  standardReplacements (ascii "/opt/homebrew".toList) (ascii "/opt/homebrew".toList) false

theorem relocated_iff_bin : Relocated optHomebrew
    (ascii "@@HOMEBREW_PREFIX@@/bin".toList ++ [0])
    (ascii "/opt/homebrew/bin".toList ++ List.replicate 7 0) ↔
      ∀ slot ∈ slots 0 0 (ascii "@@HOMEBREW_PREFIX@@/bin".toList ++ [0]),
        containsAnyPlaceholder slot.text optHomebrew → Relocatable optHomebrew slot := by
  have hrun : replaceInBinary (ascii "@@HOMEBREW_PREFIX@@/bin".toList ++ [0]) optHomebrew =
      .ok (ascii "/opt/homebrew/bin".toList ++ List.replicate 7 0, true) := by
    refine replaceInBinary_cons ?_ (by decide +kernel)
    rw [@replaceRest_of_some _ _ 0 (by decide +kernel) _ _ 1 rfl (by decide +kernel) rfl,
      if_neg (by decide +kernel), replaceRest_of_none (by decide +kernel)]
    decide +kernel
  exact relocated_iff (by decide +kernel) hrun

/-- **A path list in a binary:** the second placeholder of the string is left. -/
theorem second_placeholder_left :
    (∀ r ∈ optHomebrew, 0 ∉ r.value ∧ containsAnyPlaceholder r.value optHomebrew = false) ∧
    replaceInBinary
        (ascii "@@HOMEBREW_PREFIX@@/lib:@@HOMEBREW_PREFIX@@/bin".toList ++ [0]) optHomebrew =
      .ok (ascii "/opt/homebrew/lib:@@HOMEBREW_PREFIX@@/bin".toList ++ List.replicate 7 0, true) ∧
    ¬ Relocated optHomebrew
      (ascii "@@HOMEBREW_PREFIX@@/lib:@@HOMEBREW_PREFIX@@/bin".toList ++ [0])
      (ascii "/opt/homebrew/lib:@@HOMEBREW_PREFIX@@/bin".toList ++ List.replicate 7 0) := by
  refine ⟨by decide +kernel, ?_, fun h => ?_⟩
  · refine replaceInBinary_cons ?_ (by decide +kernel)
    rw [@replaceRest_of_some _ _ 0 (by decide +kernel) _ _ 1 rfl (by decide +kernel) rfl,
      if_neg (by decide +kernel), replaceRest_of_none (by decide +kernel)]
    decide +kernel
  · exact absurd h.complete (by decide +kernel)

end Mise.Relocation
