/-
# Lanes

A list of tagged values is an interleaving of its lanes: the lane of a tag is
what carries that tag, in order.  Slots that hold the values of distinct tags
are read back lane by lane.
-/

import Mise.Lib.IndexMap

namespace Mise.Lib

/-- The values that carry a tag. -/
def lane {κ ν : Type} [DecidableEq κ] (k : κ) (tagged : List (κ × ν)) : List ν :=
  (tagged.filter (·.1 = k)).map Prod.snd

/-- The values of some slots, tagged with the slot's key. -/
def tagSlots {κ ν : Type} (slots : List (κ × List ν)) : List (κ × ν) :=
  slots.flatMap fun slot => slot.2.map (slot.1, ·)

theorem map_snd_tagSlots {κ ν : Type} (slots : List (κ × List ν)) :
    (tagSlots slots).map Prod.snd = slots.flatMap Prod.snd := by
  rw [tagSlots, List.map_flatMap]
  refine List.flatMap_congr fun slot _ => ?_
  rw [List.map_map]
  exact List.map_id _

theorem tagSlots_append {κ ν : Type} (a b : List (κ × List ν)) :
    tagSlots (a ++ b) = tagSlots a ++ tagSlots b :=
  List.flatMap_append

variable {κ ν : Type} [DecidableEq κ]

@[simp] theorem lane_nil (k : κ) : lane k ([] : List (κ × ν)) = [] := rfl

@[simp] theorem lane_append (k : κ) (a b : List (κ × ν)) :
    lane k (a ++ b) = lane k a ++ lane k b := by
  rw [lane, List.filter_append, List.map_append]
  rfl

/-- Values that all carry one tag. -/
theorem lane_map_pair (k k' : κ) (vs : List ν) :
    lane k (vs.map (k', ·)) = if k' = k then vs else [] := by
  induction vs with
  | nil => rw [List.map_nil, lane_nil, ite_self]
  | cons v vs ih =>
    rw [List.map_cons, lane, List.filter_cons]
    split
    · case isTrue h =>
      rw [List.map_cons, ← lane, ih, if_pos (of_decide_eq_true h), if_pos (of_decide_eq_true h)]
    · case isFalse h =>
      rw [← lane, ih, if_neg fun hk => h (decide_eq_true hk),
        if_neg fun hk => h (decide_eq_true hk)]

/-- **A slot's values are the lane of its key.** -/
theorem lane_tagSlots {slots : List (κ × List ν)} (hslots : (slots.map Prod.fst).Nodup) (k : κ) :
    lane k (tagSlots slots) = (slots.lookup k).getD [] := by
  induction slots with
  | nil => rfl
  | cons slot slots ih =>
    obtain ⟨k', vs⟩ := slot
    rw [List.map_cons, List.nodup_cons] at hslots
    have hcons : tagSlots ((k', vs) :: slots) = vs.map (k', ·) ++ tagSlots slots := rfl
    rw [hcons, lane_append, lane_map_pair, ih hslots.2, IndexMap.lookup_cons_ite]
    by_cases hk : k' = k
    · have hnone : slots.lookup k = none := by
        refine List.lookup_eq_none_iff.2 fun p hp => ?_
        have hne : k ≠ p.1 := fun h => hslots.1 (List.mem_map.2 ⟨p, hp, by rw [hk, h]⟩)
        simpa using hne
      rw [if_pos hk, if_pos hk.symm, hnone]
      exact List.append_nil _
    · rw [if_neg hk, if_neg (Ne.symm hk), List.nil_append]

end Mise.Lib
