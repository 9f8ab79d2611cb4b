/-
# Lists read up to an equivalence, and which occurrences a loop keeps

Entries of a search path are compared by an equivalence `==` that need not be
equality of the entries.  This file has the three ways a program edits such a
list by counting occurrences:

* `dropMarked` deletes the first occurrence of every marked entry, except of
  entries it is told to keep;
* `keepFirst` keeps of every entry as many occurrences, from the left, as a
  quota allows;
* `dropLasts` deletes of every entry as many occurrences, from the right, as
  another list has.

Each comes with what it leaves of an entry (`count_dropMarked`,
`count_keepFirst`) and with the cases in which the order of what is left can be
told.  `keepFirst_append_self` puts the last two together: keeping of `l ++ r`
as much as `r` has moves the entries the two share from their last places in
`r` to its front.
-/

import Mathlib.Data.List.Lattice

namespace Mise.Lib

variable {α : Type} [BEq α]

/-- A function of entries that does not tell equivalent entries apart. -/
def Respects {β : Type} (f : α → β) : Prop := ∀ a b, a == b → f a = f b

/-! ### Counting up to an equivalence -/

section Count

variable [EquivBEq α]

theorem count_respects (l : List α) : Respects fun a => l.count a := by
  intro a b h
  refine List.countP_congr fun x _ => ?_
  exact ⟨fun hx => PartialEquivBEq.trans hx h,
    fun hx => PartialEquivBEq.trans hx (PartialEquivBEq.symm h)⟩

theorem contains_respects (l : List α) : Respects fun a => l.contains a :=
  fun _ _ h => List.contains_congr h

theorem contains_iff_count_pos {l : List α} {a : α} : l.contains a = true ↔ 0 < l.count a := by
  rw [List.contains_iff_exists_mem_beq, List.count, List.countP_pos_iff]
  exact ⟨fun ⟨b, hb, h⟩ => ⟨b, hb, PartialEquivBEq.symm h⟩,
    fun ⟨b, hb, h⟩ => ⟨b, hb, PartialEquivBEq.symm h⟩⟩

theorem contains_of_mem {l : List α} {a : α} (h : a ∈ l) : l.contains a = true :=
  List.contains_iff_exists_mem_beq.2 ⟨a, h, ReflBEq.rfl⟩

theorem count_pos_of_mem {l : List α} {a : α} (h : a ∈ l) : 0 < l.count a :=
  contains_iff_count_pos.1 (contains_of_mem h)

theorem count_eq_zero_iff {l : List α} {a : α} : l.count a = 0 ↔ l.contains a = false := by
  rw [← Bool.not_eq_true, contains_iff_count_pos, Nat.pos_iff_ne_zero, not_not]

omit [EquivBEq α] in
/-- A filter keeps all or none of the occurrences of an entry. -/
theorem count_filter_respects {p : α → Bool} (hp : Respects p) (l : List α) (a : α) :
    (l.filter p).count a = if p a then l.count a else 0 := by
  induction l with
  | nil => simp
  | cons x l ih =>
      by_cases hxa : x == a
      · have := hp x a hxa
        by_cases hx : p a <;> simp [List.count_cons, this, hx, hxa, ih]
      · by_cases hx : p x <;> simp [hx, List.count_cons, hxa, ih]

theorem count_erase_respects (l : List α) (a b : α) :
    (l.erase a).count b = if a == b then l.count b - 1 else l.count b := by
  induction l with
  | nil => simp
  | cons x l ih =>
      by_cases hxa : x == a
      · have hab : (a == b) = (x == b) := (BEq.congr_left hxa).symm
        by_cases hxb : x == b <;> simp [List.erase_cons, hxa, hab, hxb, List.count_cons]
      · by_cases hab : a == b
        · have hxb : (x == b) = false := by
            rw [Bool.eq_false_iff]
            exact fun h => hxa (PartialEquivBEq.trans h (PartialEquivBEq.symm hab))
          simp [hxa, List.count_cons, hxb, ih, hab]
        · simp [hxa, List.count_cons, ih, hab]

end Count

/-! ### Dropping the first occurrence of every marked entry -/

/-- Delete the first occurrence of every entry of `marked`, except of the
entries `keep` holds for. -/
def dropMarked (keep : α → Bool) : List α → List α → List α
  | _, [] => []
  | marked, a :: l =>
      if keep a then a :: dropMarked keep marked l
      else if marked.contains a then dropMarked keep (marked.filter fun b => !(b == a)) l
      else a :: dropMarked keep marked l

section DropMarked

variable [EquivBEq α] {keep : α → Bool}

/-- Unmarking an entry unmarks exactly the entries equivalent to it. -/
theorem contains_filter_not_beq (marked : List α) (a b : α) :
    (marked.filter fun c => !(c == a)).contains b = (marked.contains b && !(b == a)) := by
  have hp : Respects fun c : α => !(c == a) := fun x y h => by
    simp only [BEq.congr_left h]
  rw [Bool.eq_iff_iff, contains_iff_count_pos, count_filter_respects hp, Bool.and_eq_true,
    contains_iff_count_pos]
  by_cases hb : b == a <;> simp [hb]

omit [EquivBEq α] in
theorem dropMarked_sublist (marked l : List α) : (dropMarked keep marked l).Sublist l := by
  induction l generalizing marked with
  | nil => exact List.Sublist.refl _
  | cons a l ih =>
      rw [dropMarked]
      split_ifs
      · exact (ih _).cons_cons a
      · exact (ih _).cons a
      · exact (ih _).cons_cons a

/-- **What is left of an entry**: everything of a kept or unmarked one, all but
one occurrence of the others. -/
theorem count_dropMarked (hkeep : Respects keep) (marked l : List α) (a : α) :
    (dropMarked keep marked l).count a =
      if keep a = false ∧ marked.contains a = true then l.count a - 1 else l.count a := by
  induction l generalizing marked with
  | nil => simp [dropMarked]
  | cons x l ih =>
      rw [dropMarked]
      by_cases hxa : x == a
      · have hk := hkeep x a hxa
        have hm : marked.contains x = marked.contains a := contains_respects marked x a hxa
        have hax : (a == x) = true := PartialEquivBEq.symm hxa
        by_cases hka : keep a = true
        · simp [hk, hka, List.count_cons, hxa, ih]
        · by_cases hma : marked.contains a = true
          · simp only [hk, hka, hm, hma, if_true, Bool.false_eq_true, if_false]
            rw [ih, contains_filter_not_beq]
            simp [hax, List.count_cons, hxa, hka]
          · simp [hk, hka, hm, hma, List.count_cons, hxa, ih]
      · have hax : (a == x) = false := by
          rw [Bool.eq_false_iff]
          exact fun h => hxa (PartialEquivBEq.symm h)
        by_cases hk : keep x = true
        · rw [if_pos hk, List.count_cons, ih, List.count_cons]; simp [hxa]
        · rw [if_neg hk]
          by_cases hm : marked.contains x = true
          · rw [if_pos hm, ih, contains_filter_not_beq, List.count_cons]; simp [hxa, hax]
          · rw [if_neg hm, List.count_cons, ih, List.count_cons]; simp [hxa]

omit [EquivBEq α] in
/-- A list of kept and unmarked entries is left alone. -/
theorem dropMarked_eq_self {marked l : List α}
    (h : ∀ a ∈ l, keep a = true ∨ marked.contains a = false) : dropMarked keep marked l = l := by
  induction l with
  | nil => rfl
  | cons a l ih =>
      have ih := ih fun b hb => h b (List.mem_cons_of_mem _ hb)
      rcases h a (List.mem_cons_self ..) with hk | hm
      · rw [dropMarked, if_pos hk, ih]
      · rw [dropMarked, if_neg (c := marked.contains a = true) (by simp [hm]), ite_self, ih]

/-- **A marked prefix goes**: when every entry of `front` is marked, none is to
be kept and none occurs twice, exactly `front` is dropped, provided nothing
marked is left for the rest of the list. -/
theorem dropMarked_append_eq_right {marked front l : List α}
    (hfront : ∀ a ∈ front, keep a = false ∧ marked.contains a = true)
    (hone : ∀ a ∈ front, front.count a = 1)
    (hl : ∀ a ∈ l, keep a = true ∨ marked.contains a = false ∨ front.contains a = true) :
    dropMarked keep marked (front ++ l) = l := by
  induction front generalizing marked with
  | nil => exact dropMarked_eq_self fun a ha => by simpa using hl a ha
  | cons x front ih =>
      have hx := hfront x (List.mem_cons_self ..)
      have hxf : front.contains x = false := by
        rw [← count_eq_zero_iff]
        have := hone x (List.mem_cons_self ..)
        rw [List.count_cons, if_pos ReflBEq.rfl] at this
        omega
      have hne : ∀ a ∈ front, (a == x) = false := by
        intro a ha
        rw [Bool.eq_false_iff]
        intro h
        rw [← List.contains_congr h, contains_of_mem ha] at hxf
        exact Bool.noConfusion hxf
      rw [List.cons_append, dropMarked, if_neg (by simp [hx.1]), if_pos hx.2]
      refine ih (fun a ha => ?_) (fun a ha => ?_) (fun a ha => ?_)
      · have := hfront a (List.mem_cons_of_mem _ ha)
        rw [contains_filter_not_beq, hne a ha]
        exact ⟨this.1, by simp [this.2]⟩
      · have := hone a (List.mem_cons_of_mem _ ha)
        have hxa : (x == a) = false := by
          rw [Bool.eq_false_iff]
          intro h
          have hax := hne a ha
          rw [Bool.eq_false_iff] at hax
          exact hax (PartialEquivBEq.symm h)
        rwa [List.count_cons, hxa, if_neg Bool.false_ne_true, Nat.add_zero] at this
      · rw [contains_filter_not_beq]
        rcases hl a ha with h | h | h
        · exact Or.inl h
        · exact Or.inr (Or.inl (by simp [h]))
        · rw [List.contains_cons] at h
          by_cases hax : a == x
          · exact Or.inr (Or.inl (by simp [hax]))
          · exact Or.inr (Or.inr (by simpa [hax] using h))

/-- **Marked entries that occur once are filtered out.** -/
theorem dropMarked_eq_filter {marked l : List α}
    (h : ∀ a ∈ l, marked.contains a = true → keep a = false ∧ l.count a = 1) :
    dropMarked keep marked l = l.filter fun a => !marked.contains a := by
  induction l generalizing marked with
  | nil => rfl
  | cons x l ih =>
      rw [dropMarked]
      have hstep : ∀ a ∈ l, marked.contains a = true → keep a = false ∧ l.count a = 1 := by
        intro a ha hm
        obtain ⟨hk, hc⟩ := h a (List.mem_cons_of_mem _ ha) hm
        have := count_pos_of_mem ha
        rw [List.count_cons] at hc
        exact ⟨hk, by omega⟩
      by_cases hm : marked.contains x = true
      · obtain ⟨hk, hc⟩ := h x (List.mem_cons_self ..) hm
        have hxl : ∀ a ∈ l, (a == x) = false := by
          intro a ha
          rw [Bool.eq_false_iff]
          intro hax
          have := count_pos_of_mem ha
          rw [show l.count a = l.count x from count_respects l a x hax] at this
          rw [List.count_cons, if_pos ReflBEq.rfl] at hc
          omega
        rw [if_neg (by simp [hk]), if_pos hm, List.filter_cons_of_neg (by simp [hm]), ih]
        · refine List.filter_congr fun a ha => ?_
          rw [contains_filter_not_beq, hxl a ha, Bool.not_false, Bool.and_true]
        · intro a ha hma
          rw [contains_filter_not_beq] at hma
          exact hstep a ha (by simpa using And.left (by simpa using hma))
      · rw [List.filter_cons_of_pos (by simpa using hm)]
        split_ifs
        · rw [ih hstep]
        · rw [ih hstep]

end DropMarked

/-! ### Keeping the first occurrences a quota allows -/

/-- Keep of every entry as many occurrences, from the left, as `quota` allows. -/
def keepFirst (quota : α → ℕ) : List α → List α
  | [] => []
  | a :: l =>
      if 0 < quota a then a :: keepFirst (fun b => if b == a then quota b - 1 else quota b) l
      else keepFirst quota l

/-- Delete of every entry as many occurrences, from the right, as `other` has. -/
def dropLasts (other : List α) : List α → List α
  | [] => []
  | a :: l => if l.count a < other.count a then dropLasts other l else a :: dropLasts other l

section KeepFirst

@[simp] theorem dropLasts_nil (l : List α) : dropLasts [] l = l := by
  induction l with
  | nil => rfl
  | cons a l ih => rw [dropLasts, if_neg (by simp), ih]

theorem keepFirst_congr {q r : α → ℕ} (h : ∀ a, q a = r a) (l : List α) :
    keepFirst q l = keepFirst r l := by
  rw [funext h]

/-- Only the quotas of the entries of the list matter. -/
theorem keepFirst_congr_of_mem {q r : α → ℕ} {l : List α} (h : ∀ a ∈ l, q a = r a) :
    keepFirst q l = keepFirst r l := by
  induction l generalizing q r with
  | nil => rfl
  | cons a l ih =>
      have ha := h a (List.mem_cons_self ..)
      have hl : ∀ b ∈ l, q b = r b := fun b hb => h b (List.mem_cons_of_mem _ hb)
      have hdec : ∀ b ∈ l, (if b == a then q b - 1 else q b) = if b == a then r b - 1 else r b :=
        fun b hb => by rw [hl b hb]
      rw [keepFirst, keepFirst, ha, ih hl, ih hdec]

theorem keepFirst_sublist (q : α → ℕ) (l : List α) : (keepFirst q l).Sublist l := by
  induction l generalizing q with
  | nil => exact List.Sublist.refl _
  | cons a l ih =>
      rw [keepFirst]
      split_ifs
      · exact (ih _).cons_cons a
      · exact (ih _).cons a

/-- The quota left over after keeping what it allows of `l`. -/
def leftover (q : α → ℕ) (l : List α) : α → ℕ := fun a => q a - (keepFirst q l).count a

variable [EquivBEq α]

theorem keepFirst_append (q : α → ℕ) (l r : List α) :
    keepFirst q (l ++ r) = keepFirst q l ++ keepFirst (leftover q l) r := by
  induction l generalizing q with
  | nil => exact keepFirst_congr (fun a => by simp [leftover, keepFirst]) r
  | cons a l ih =>
      by_cases h : 0 < q a
      · have hhead : keepFirst q (a :: l)
            = a :: keepFirst (fun b => if b == a then q b - 1 else q b) l := by
          rw [keepFirst, if_pos h]
        rw [List.cons_append, keepFirst, if_pos h, ih, hhead, List.cons_append]
        congr 2
        refine keepFirst_congr (fun b => ?_) r
        by_cases hb : b == a
        · have hab : (a == b) = true := PartialEquivBEq.symm hb
          simp only [leftover, hhead, hb, if_true, List.count_cons, hab]
          omega
        · have hab : (a == b) = false := by
            rw [Bool.eq_false_iff]
            exact fun h => hb (PartialEquivBEq.symm h)
          simp [leftover, hhead, hb, List.count_cons, hab]
      · have hhead : keepFirst q (a :: l) = keepFirst q l := by rw [keepFirst, if_neg h]
        rw [List.cons_append, keepFirst, if_neg h, ih, hhead]
        congr 1
        exact keepFirst_congr (fun b => by rw [leftover, leftover, hhead]) r

/-- A quota that covers the list keeps it. -/
theorem keepFirst_eq_self {q : α → ℕ} {l : List α} (h : ∀ a ∈ l, l.count a ≤ q a) :
    keepFirst q l = l := by
  induction l generalizing q with
  | nil => rfl
  | cons a l ih =>
      have ha := h a (List.mem_cons_self ..)
      rw [List.count_cons, if_pos ReflBEq.rfl] at ha
      rw [keepFirst, if_pos (by omega), ih]
      intro b hb
      have hb' := h b (List.mem_cons_of_mem _ hb)
      rw [List.count_cons] at hb'
      by_cases hba : b == a
      · have hab : (a == b) = true := PartialEquivBEq.symm hba
        rw [hab, if_pos rfl] at hb'
        simp only [hba, if_true]
        omega
      · simp only [hba]
        split_ifs at hb' <;> simp <;> omega

/-- **How much a quota keeps:** as much as it allows or there is. -/
theorem count_keepFirst {q : α → ℕ} (hq : Respects q) (l : List α) (a : α) :
    (keepFirst q l).count a = min (q a) (l.count a) := by
  induction l generalizing q with
  | nil => simp [keepFirst]
  | cons x l ih =>
      have hdec : Respects fun b => if b == x then q b - 1 else q b := fun b c h => by
        simp only [hq b c h, BEq.congr_left h]
      by_cases hxa : x == a
      · have hax : (a == x) = true := PartialEquivBEq.symm hxa
        have hqx := hq x a hxa
        rw [keepFirst, hqx]
        split_ifs with h0
        · rw [List.count_cons, ih hdec, List.count_cons, if_pos hxa, if_pos hax]
          omega
        · rw [ih hq, List.count_cons]
          omega
      · have hax : (a == x) = false := by
          rw [Bool.eq_false_iff]
          exact fun h => hxa (PartialEquivBEq.symm h)
        rw [keepFirst]
        split_ifs with h0
        · rw [List.count_cons, ih hdec, List.count_cons, if_neg hxa, hax]
          simp
        · rw [ih hq, List.count_cons, if_neg hxa]
          rfl

omit [EquivBEq α] in
/-- Only a quota that allows every entry keeps the list. -/
theorem quota_pos_of_keepFirst_eq_self {q : α → ℕ} {l : List α} (h : keepFirst q l = l) :
    ∀ a ∈ l, 0 < q a := by
  induction l generalizing q with
  | nil => exact fun a ha => absurd ha List.not_mem_nil
  | cons x l ih =>
      rw [keepFirst] at h
      split_ifs at h with h0
      · intro a ha
        rcases List.mem_cons.1 ha with rfl | ha
        · exact h0
        · have := ih (List.cons.inj h).2 a ha
          split_ifs at this <;> omega
      · have hlen := (keepFirst_sublist q l).length_le
        rw [h, List.length_cons] at hlen
        omega

omit [EquivBEq α] in
/-- Filtering before or after makes no difference. -/
theorem filter_keepFirst {p : α → Bool} (hp : Respects p) (q : α → ℕ) (l : List α) :
    (keepFirst q l).filter p = keepFirst q (l.filter p) := by
  induction l generalizing q with
  | nil => rfl
  | cons a l ih =>
      by_cases hpa : p a = true
      · rw [List.filter_cons_of_pos hpa, keepFirst, keepFirst]
        split_ifs
        · rw [List.filter_cons_of_pos hpa, ih]
        · exact ih q
      · rw [List.filter_cons_of_neg hpa, keepFirst]
        split_ifs with h
        · rw [List.filter_cons_of_neg hpa, ih]
          refine keepFirst_congr_of_mem fun b hb => ?_
          have hba : (b == a) = false := by
            rw [Bool.eq_false_iff]
            intro h'
            exact hpa (hp b a h' ▸ (List.mem_filter.1 hb).2)
          simp [hba]
        · exact ih q

/-- Keeping of `l` what `r` has is their intersection with multiplicity. -/
theorem keepFirst_count_eq_bagInter (l r : List α) :
    keepFirst (fun a => r.count a) l = l.bagInter r := by
  induction l generalizing r with
  | nil => cases r <;> rfl
  | cons a l ih =>
      have herase : ∀ b, (if b == a then r.count b - 1 else r.count b) = (r.erase a).count b := by
        intro b
        rw [count_erase_respects, BEq.comm]
      rw [keepFirst, keepFirst_congr herase, ih, ih]
      cases r with
      | nil => cases l <;> simp [List.bagInter]
      | cons b r =>
          have hiff : 0 < (b :: r).count a ↔ (b :: r).elem a = true :=
            contains_iff_count_pos.symm
          simp only [List.bagInter, hiff]

/-- Keeping of `l` what another list does not have drops the last occurrences. -/
theorem keepFirst_sub_eq_dropLasts (other l : List α) :
    keepFirst (fun a => l.count a - other.count a) l = dropLasts other l := by
  induction l with
  | nil => rfl
  | cons a l ih =>
      have hself : (a :: l).count a = l.count a + 1 := by
        rw [List.count_cons, if_pos ReflBEq.rfl]
      by_cases h : l.count a < other.count a
      · rw [dropLasts, if_pos h, keepFirst, if_neg (by rw [hself]; omega), ← ih]
        refine keepFirst_congr_of_mem fun b _ => ?_
        by_cases hab : a == b
        · have hl : l.count a = l.count b := count_respects l a b hab
          have ho : other.count a = other.count b := count_respects other a b hab
          simp only [List.count_cons, hab, if_true]
          omega
        · simp [List.count_cons, hab]
      · rw [dropLasts, if_neg h, keepFirst, if_pos (by rw [hself]; omega), ← ih]
        congr 1
        refine keepFirst_congr (fun b => ?_) l
        by_cases hba : b == a
        · have hab : (a == b) = true := PartialEquivBEq.symm hba
          have hl : l.count a = l.count b := count_respects l a b hab
          have ho : other.count a = other.count b := count_respects other a b hab
          simp only [List.count_cons, hba, hab, if_true]
          omega
        · have hab : (a == b) = false := by
            rw [Bool.eq_false_iff]
            exact fun h => hba (PartialEquivBEq.symm h)
          simp [List.count_cons, hba, hab]

/-- **Keeping of `l ++ r` as much as `r` has** puts the entries `l` shares with
`r` in front of `r` without their last occurrences. -/
theorem keepFirst_append_self (l r : List α) :
    keepFirst (fun a => r.count a) (l ++ r) = l.bagInter r ++ dropLasts (l.bagInter r) r := by
  rw [keepFirst_append, keepFirst_count_eq_bagInter, ← keepFirst_sub_eq_dropLasts]
  congr 1
  refine keepFirst_congr (fun a => ?_) r
  rw [leftover, keepFirst_count_eq_bagInter]

end KeepFirst

end Mise.Lib
