/-
# Plans of resources

`crates/mise-bootstrap/src/plan.rs`, `resource.rs` and `policy.rs`: the resources of a
bootstrap in the order of their declarations, what each waits for, and the order in which
they come out.

A plan is an `IndexMap` whose keys are the ids of its resources: here a list of resources
whose ids are distinct.  The origins of resources, which are told and decide nothing, are
left out.
-/

import Mise.Lib.Kahn
import Mise.Lib.Fallible

namespace Mise.Bootstrap

open Lib

/-- `ResourceId`. -/
structure ResourceId where
  kind : String
  name : String
  deriving DecidableEq

/-- `Display` of `ResourceId`. -/
def ResourceId.display (id : ResourceId) : String := id.kind ++ ":" ++ id.name

/-- `ResourceAction`. -/
inductive ResourceAction where
  | create
  | update
  | remove
  | noop
  | unknown
  deriving DecidableEq

/-- `AccountState`. -/
inductive AccountState where
  | present
  | absent
  deriving DecidableEq

/-- `ManagedState`. -/
inductive ManagedState where
  | present
  | absent
  deriving DecidableEq

/-- `ManagedFilePhase`. -/
inductive ManagedFilePhase where
  | prePackages
  | postPackages
  deriving DecidableEq

/-- `ManagedFilePhase::as_str`. -/
def ManagedFilePhase.asStr : ManagedFilePhase → String
  | prePackages => "pre-packages"
  | postPackages => "post-packages"

/-- `ResourcePlan`. -/
structure ResourcePlan where
  id : ResourceId
  current : String
  desired : String
  action : ResourceAction
  dependsOn : List ResourceId := []
  orderAfter : List ResourceId := []
  phase : Option ManagedFilePhase := none
  deriving DecidableEq

/-- What a resource comes after. -/
def ResourcePlan.waits (r : ResourcePlan) : List ResourceId := r.dependsOn ++ r.orderAfter

/-- `PlanSummary`. -/
structure PlanSummary where
  create : ℕ := 0
  update : ℕ := 0
  remove : ℕ := 0
  unchanged : ℕ := 0
  unknown : ℕ := 0
  deriving DecidableEq

/-- `PlanSummary::add`. -/
def PlanSummary.add (s : PlanSummary) : ResourceAction → PlanSummary
  | .create => { s with create := s.create + 1 }
  | .update => { s with update := s.update + 1 }
  | .remove => { s with remove := s.remove + 1 }
  | .noop => { s with unchanged := s.unchanged + 1 }
  | .unknown => { s with unknown := s.unknown + 1 }

/-- `BootstrapPlanOutput`. -/
structure BootstrapPlanOutput where
  resources : List ResourcePlan
  summary : PlanSummary
  deriving DecidableEq

/-- `BootstrapPlan`. -/
structure BootstrapPlan where
  resources : List ResourcePlan
  nodup : (resources.map ResourcePlan.id).Nodup

namespace BootstrapPlan

/-- `BootstrapPlan::default`. -/
def empty : BootstrapPlan := ⟨[], List.nodup_nil⟩

/-- `BootstrapPlan::ids`. -/
def ids (p : BootstrapPlan) : List ResourceId := p.resources.map ResourcePlan.id

/-- `BootstrapPlan::contains`. -/
def contains (p : BootstrapPlan) (id : ResourceId) : Bool := p.ids.contains id

/-- `BootstrapPlan::get`. -/
def get (p : BootstrapPlan) (id : ResourceId) : Option ResourcePlan :=
  p.resources.find? fun r => r.id = id

/-- `BootstrapPlan::insert`. -/
def insert (p : BootstrapPlan) (r : ResourcePlan) : Except String BootstrapPlan :=
  if h : r.id ∈ p.resources.map ResourcePlan.id then
    .error ("bootstrap resource '" ++ r.id.display ++ "' is declared more than once")
  else .ok ⟨p.resources ++ [r], by
    rw [List.map_append]
    exact p.nodup.append (List.nodup_singleton _) fun _ hid hr =>
      h (List.mem_singleton.1 hr ▸ hid)⟩

/-- A resource is changed in its place. -/
def modify (p : BootstrapPlan) (id : ResourceId) (change : ResourcePlan → ResourcePlan)
    (hid : ∀ r, (change r).id = r.id) : BootstrapPlan :=
  ⟨p.resources.map fun r => if r.id = id then change r else r, by
    rw [List.map_map]
    convert p.nodup using 2
    funext r
    rw [Function.comp_apply]
    split
    · exact hid r
    · rfl⟩

/-- A name is pushed, unless it is there. -/
def pushNew (l : List ResourceId) (id : ResourceId) : List ResourceId :=
  if id ∈ l then l else l ++ [id]

/-- `BootstrapPlan::add_dependency`. -/
def addDependency (p : BootstrapPlan) (resource dependency : ResourceId) :
    Except String BootstrapPlan :=
  if resource ∈ p.ids then
    .ok (p.modify resource (fun r => { r with dependsOn := pushNew r.dependsOn dependency })
      fun _ => rfl)
  else .error ("cannot add dependency to missing bootstrap resource '" ++ resource.display ++ "'")

/-- `BootstrapPlan::add_ordering`. -/
def addOrdering (p : BootstrapPlan) (resource predecessor : ResourceId) :
    Except String BootstrapPlan :=
  if resource ∈ p.ids then
    .ok (p.modify resource (fun r => { r with orderAfter := pushNew r.orderAfter predecessor })
      fun _ => rfl)
  else .error ("cannot order missing bootstrap resource '" ++ resource.display ++ "'")

/-- What a resource of the plan waits for: `incoming` counts it. -/
def waits (p : BootstrapPlan) (id : ResourceId) : List ResourceId :=
  ((p.get id).map ResourcePlan.waits).getD []

/-- What waits for a resource, once for each time that it is named: `outgoing`. -/
def outgoing (p : BootstrapPlan) (id : ResourceId) : List ResourceId :=
  p.resources.flatMap fun r => (r.waits.filter (· = id)).map fun _ => r.id

/-- The first pair of a resource and what it names and the plan has not. -/
def missing (p : BootstrapPlan) : Option (ResourceId × ResourceId) :=
  p.resources.findSome? fun r => (r.waits.find? fun d => !p.contains d).map (r.id, ·)

/-- `BootstrapPlan::ordered`. -/
def ordered (p : BootstrapPlan) : Except String (List ResourcePlan) :=
  match p.missing with
  | some (resource, dependency) =>
    .error ("bootstrap resource '" ++ resource.display ++ "' depends on missing resource '" ++
      dependency.display ++ "'")
  | none =>
    let done := Kahn.run p.waits p.outgoing p.ids
    if done.ordered.length ≠ p.resources.length then
      let cycle := (p.ids.filter fun id => 0 < done.incoming id).map ResourceId.display
      .error ("bootstrap resource dependency cycle: " ++ ", ".intercalate cycle)
    else .ok (done.ordered.filterMap p.get)

/-- `BootstrapPlan::output`. -/
def output (p : BootstrapPlan) : Except String BootstrapPlanOutput := do
  let resources ← p.ordered
  .ok ⟨resources, resources.foldl (fun s r => s.add r.action) {}⟩

/-- The ids of a phase. -/
def ofPhase (p : BootstrapPlan) (phase : ManagedFilePhase) : List ResourceId :=
  (p.resources.filter fun r => r.phase = some phase).map ResourcePlan.id

/-- One resource is ordered after several. -/
def orderAfterAll (p : BootstrapPlan) (resource : ResourceId) (predecessors : List ResourceId) :
    Except String BootstrapPlan :=
  predecessors.foldlM (fun p predecessor => p.addOrdering resource predecessor) p

/-- `BootstrapPlan::add_file_phase_ordering`. -/
def addFilePhaseOrdering (p : BootstrapPlan) (packages : List ResourceId) :
    Except String BootstrapPlan := do
  let early := p.ofPhase .prePackages
  let late := p.ofPhase .postPackages
  let p ← packages.foldlM (fun p package => p.orderAfterAll package early) p
  let p ← late.foldlM (fun p file => p.orderAfterAll file (packages ++ early)) p
  let plugins := p.ids.filter fun id => id.kind = "package" ∧ id ∉ packages
  plugins.foldlM (fun p package => p.orderAfterAll package (early ++ late ++ packages)) p

/-- An owner or a group that is declared has to be there. -/
def requirePrincipal (p : BootstrapPlan) (resource : ResourceId) (kind principal : String)
    (states : String → Option AccountState) : Option String → Except String BootstrapPlan
  | none => .ok p
  | some name =>
    match states name with
    | some .present => p.addDependency resource ⟨kind, name⟩
    | some .absent => .error ("bootstrap resource '" ++ resource.display ++ "' requires " ++
        principal ++ " '" ++ name ++ "', but that " ++ kind ++ " is absent")
    | none => .ok p

/-- `BootstrapPlan::add_account_dependencies`; the states are those of the declared
accounts. -/
def addAccountDependencies (p : BootstrapPlan) (resource : ResourceId) (state : ManagedState)
    (owner group : Option String) (userStates groupStates : String → Option AccountState) :
    Except String BootstrapPlan :=
  if state ≠ .present then .ok p
  else do
    let p ← p.requirePrincipal resource "user" "owner" userStates owner
    p.requirePrincipal resource "group" "group" groupStates group

/-- `BootstrapPlan::add_managed_parent_dependency`. -/
def addManagedParentDependency (p : BootstrapPlan) (child : ResourceId) (childPath : String)
    (childState : ManagedState) (parentPath : String) (parentState : ManagedState) :
    Except String BootstrapPlan :=
  let parent : ResourceId := ⟨"directory", parentPath⟩
  match childState, parentState with
  | .present, .present => p.addDependency child parent
  | .absent, .absent => p.addDependency parent child
  | .present, .absent => .error (child.kind ++ " '" ++ childPath ++
      "' cannot be present while managed parent '" ++ parentPath ++ "' is absent")
  | .absent, .present => .ok p

/-! ### The order -/

/-- One resource comes after another. -/
def Waits (p : BootstrapPlan) (a b : ResourceId) : Prop :=
  ∃ r ∈ p.resources, r.id = a ∧ b ∈ r.waits

/-- Everything that is waited for is in the plan. -/
def Closed (p : BootstrapPlan) : Prop := ∀ a b, p.Waits a b → b ∈ p.ids

variable {p : BootstrapPlan}

theorem mem_ids {id : ResourceId} : id ∈ p.ids ↔ ∃ r ∈ p.resources, r.id = id := List.mem_map

theorem get_eq_some {id : ResourceId} {r : ResourcePlan} :
    p.get id = some r ↔ r ∈ p.resources ∧ r.id = id := by
  constructor
  · intro h
    unfold get at h
    exact ⟨List.mem_of_find?_eq_some h, by simpa using List.find?_some h⟩
  · rintro ⟨hr, rfl⟩
    cases h : p.get r.id with
    | none => simpa using List.find?_eq_none.1 h r hr
    | some r' =>
      unfold get at h
      have hid : r'.id = r.id := by simpa using List.find?_some h
      rw [List.inj_on_of_nodup_map p.nodup (List.mem_of_find?_eq_some h) hr hid]

theorem mem_waits {a b : ResourceId} : b ∈ p.waits a ↔ p.Waits a b := by
  unfold waits Waits
  cases h : p.get a with
  | none =>
    simp only [Option.map_none, Option.getD_none, List.not_mem_nil, false_iff]
    rintro ⟨r, hr, hid, -⟩
    rw [get_eq_some.2 ⟨hr, hid⟩] at h
    cases h
  | some r =>
    simp only [Option.map_some, Option.getD_some]
    constructor
    · exact fun hb => ⟨r, (get_eq_some.1 h).1, (get_eq_some.1 h).2, hb⟩
    · rintro ⟨r', hr', hid, hb⟩
      rw [get_eq_some.2 ⟨hr', hid⟩] at h
      exact Option.some.inj h ▸ hb

/-- Edges count as often as a resource waits for another. -/
theorem count_outgoing (l : List ResourcePlan) (hl : (l.map ResourcePlan.id).Nodup)
    (a b : ResourceId) :
    (l.flatMap fun r => (r.waits.filter (· = a)).map fun _ => r.id).count b =
      (((l.find? fun r => r.id = b).map ResourcePlan.waits).getD []).count a := by
  induction l with
  | nil => rfl
  | cons r l ih =>
    rw [List.map_cons, List.nodup_cons] at hl
    have hlength : (r.waits.filter (· = a)).length = r.waits.count a := by
      rw [List.count_eq_length_filter]
      congr 2
    rw [List.flatMap_cons, List.count_append, List.map_const', List.count_replicate, hlength,
      List.find?_cons]
    by_cases hb : r.id = b
    · subst hb
      have hrest : (l.flatMap fun r => (r.waits.filter (· = a)).map fun _ => r.id).count r.id =
          0 := by
        refine List.count_eq_zero.2 fun hmem => hl.1 ?_
        obtain ⟨r', hr', hid⟩ := List.mem_flatMap.1 hmem
        obtain ⟨-, -, heq⟩ := List.mem_map.1 hid
        exact heq ▸ List.mem_map_of_mem hr'
      rw [hrest, if_pos (beq_self_eq_true _)]
      simp
    · rw [ih hl.2]
      simp [hb]

theorem missing_eq_none : p.missing = none ↔ p.Closed := by
  unfold missing Closed Waits contains
  rw [List.findSome?_eq_none_iff]
  simp only [Option.map_eq_none_iff, List.find?_eq_none]
  constructor
  · rintro h a b ⟨r, hr, rfl, hb⟩
    simpa using h r hr b hb
  · intro h r hr b hb
    simpa using h r.id b ⟨r, hr, rfl, hb⟩

theorem waits_of_missing {a b : ResourceId} (h : p.missing = some (a, b)) :
    p.Waits a b ∧ b ∉ p.ids := by
  obtain ⟨r, hr, hfind⟩ := List.exists_of_findSome?_eq_some h
  obtain ⟨d, hd, heq⟩ := Option.map_eq_some_iff.1 hfind
  obtain ⟨rfl, rfl⟩ := Prod.mk.inj heq
  refine ⟨⟨r, hr, rfl, List.mem_of_find?_eq_some hd⟩, ?_⟩
  simpa [contains] using List.find?_some hd

/-- What the loop of `ordered` makes of a plan that names only what it has. -/
theorem run_spec (h : p.Closed) :
    (Kahn.run p.waits p.outgoing p.ids).ordered.Nodup ∧
      Kahn.Before p.waits (Kahn.run p.waits p.outgoing p.ids).ordered ∧
      (∀ b, b ∈ (Kahn.run p.waits p.outgoing p.ids).ordered ↔
        b ∈ p.ids ∧ ¬ ReachesCycle p.Waits b) ∧
      ∀ b ∈ p.ids, 0 < (Kahn.run p.waits p.outgoing p.ids).incoming b ↔
        ReachesCycle p.Waits b := by
  have hwaits : (fun b a => a ∈ p.waits b) = p.Waits := by
    funext a b
    exact propext mem_waits
  rw [← hwaits]
  refine Kahn.run_spec p.nodup (fun b _ a ha => h b a (mem_waits.1 ha))
    (fun a b _ => count_outgoing p.resources p.nodup a b) fun a b hb => ?_
  obtain ⟨r, hr, hid⟩ := List.mem_flatMap.1 hb
  obtain ⟨-, -, rfl⟩ := List.mem_map.1 hid
  exact List.mem_map_of_mem hr

/-- The resources of some ids. -/
theorem map_id_filterMap_get {l : List ResourceId} (hl : l ⊆ p.ids) :
    (l.filterMap p.get).map ResourcePlan.id = l := by
  induction l with
  | nil => rfl
  | cons id l ih =>
    obtain ⟨r, hr, hid⟩ := mem_ids.1 (hl List.mem_cons_self)
    rw [List.filterMap_cons_some (get_eq_some.2 ⟨hr, hid⟩), List.map_cons, hid,
      ih fun _ h => hl (List.mem_cons_of_mem _ h)]

theorem filterMap_get_ids : p.ids.filterMap p.get = p.resources := by
  have hget : ∀ r ∈ p.resources, (p.get ∘ ResourcePlan.id) r = some r := fun r hr =>
    get_eq_some.2 ⟨hr, rfl⟩
  rw [ids, List.filterMap_map, List.filterMap_congr hget, List.filterMap_some]

/-- All ids are put out just where none leads into a cycle. -/
theorem length_ordered_eq_iff (h : p.Closed) :
    (Kahn.run p.waits p.outgoing p.ids).ordered.length = p.resources.length ↔
      ∀ id ∈ p.ids, ¬ ReachesCycle p.Waits id := by
  obtain ⟨hnodup, -, hmem, -⟩ := run_spec h
  have hsub : (Kahn.run p.waits p.outgoing p.ids).ordered ⊆ p.ids := fun b hb =>
    ((hmem b).1 hb).1
  constructor
  · intro hlen id hid
    have hperm := (List.subperm_of_subset hnodup hsub).perm_of_length_le (by
      rw [hlen, ids, List.length_map])
    exact ((hmem id).1 (hperm.mem_iff.2 hid)).2
  · intro hall
    have hperm : (Kahn.run p.waits p.outgoing p.ids).ordered.Perm p.ids :=
      (List.perm_ext_iff_of_nodup hnodup p.nodup).2 fun b =>
        ⟨fun hb => hsub hb, fun hb => (hmem b).2 ⟨hb, hall b hb⟩⟩
    rw [hperm.length_eq, ids, List.length_map]

/-- What comes out in order. -/
theorem ordered_of_length (h : p.Closed)
    (hlen : (Kahn.run p.waits p.outgoing p.ids).ordered.length = p.resources.length) :
    ((Kahn.run p.waits p.outgoing p.ids).ordered.filterMap p.get).Perm p.resources ∧
      ∀ l₁ r l₂, (Kahn.run p.waits p.outgoing p.ids).ordered.filterMap p.get = l₁ ++ r :: l₂ →
        ∀ d ∈ r.waits, d ∈ l₁.map ResourcePlan.id := by
  obtain ⟨hnodup, hbefore, hmem, -⟩ := run_spec h
  have hsub : (Kahn.run p.waits p.outgoing p.ids).ordered ⊆ p.ids := fun b hb =>
    ((hmem b).1 hb).1
  have hperm := (List.subperm_of_subset hnodup hsub).perm_of_length_le (by
    rw [hlen, ids, List.length_map])
  have hresources : ((Kahn.run p.waits p.outgoing p.ids).ordered.filterMap p.get).Perm
      p.resources := by
    have := hperm.filterMap p.get
    rwa [filterMap_get_ids] at this
  refine ⟨hresources, fun l₁ r l₂ heq d hd => ?_⟩
  have hids := map_id_filterMap_get hsub
  rw [heq, List.map_append, List.map_cons] at hids
  refine hbefore _ _ _ hids.symm d (mem_waits.2 ⟨r, ?_, rfl, hd⟩)
  exact hresources.mem_iff.1 (heq ▸ List.mem_append_right _ List.mem_cons_self)

/-- **A plan comes out in order exactly if it can**: if all that its resources wait for is
there and no cycle is.  Then every resource comes out once, after all that it waits for;
and where there are cycles, those that lead into one are named. -/
theorem ordered_spec (p : BootstrapPlan) :
    ((∃ l, p.ordered = .ok l) ↔ p.Closed ∧ ∀ id ∈ p.ids, ¬ ReachesCycle p.Waits id) ∧
      (∀ l, p.ordered = .ok l → l.Perm p.resources ∧
        ∀ l₁ r l₂, l = l₁ ++ r :: l₂ → ∀ d ∈ r.waits, d ∈ l₁.map ResourcePlan.id) ∧
      (p.Closed → ∀ e, p.ordered = .error e → ∃ stuck : List ResourceId, stuck.Sublist p.ids ∧
        (∀ id, id ∈ stuck ↔ id ∈ p.ids ∧ ReachesCycle p.Waits id) ∧
        e = "bootstrap resource dependency cycle: " ++
          ", ".intercalate (stuck.map ResourceId.display)) := by
  cases hmissing : p.missing with
  | some pair =>
    obtain ⟨hwaits, hnot⟩ := waits_of_missing hmissing
    have hopen : ¬ p.Closed := fun h => hnot (h _ _ hwaits)
    unfold ordered
    rw [hmissing]
    refine ⟨⟨?_, fun h => absurd h.1 hopen⟩, ?_, fun h => absurd h hopen⟩
    · rintro ⟨l, hl⟩
      cases hl
    · intro l hl
      cases hl
  | none =>
    have hclosed := missing_eq_none.1 hmissing
    unfold ordered
    rw [hmissing]
    dsimp only
    by_cases hlen :
        (Kahn.run p.waits p.outgoing p.ids).ordered.length = p.resources.length
    · rw [if_neg (not_not.2 hlen)]
      refine ⟨⟨fun _ => ⟨hclosed, (length_ordered_eq_iff hclosed).1 hlen⟩, fun _ => ⟨_, rfl⟩⟩,
        fun l hl => ?_, fun _ e he => ?_⟩
      · obtain rfl := Except.ok.inj hl
        exact ordered_of_length hclosed hlen
      · cases he
    · rw [if_pos hlen]
      refine ⟨⟨?_, fun h => absurd ((length_ordered_eq_iff hclosed).2 h.2) hlen⟩, ?_, ?_⟩
      · rintro ⟨l, hl⟩
        cases hl
      · intro l hl
        cases hl
      · intro _ e he
        refine ⟨_, List.filter_sublist, fun id => ?_, (Except.error.inj he).symm⟩
        rw [List.mem_filter, decide_eq_true_eq]
        exact and_congr_right fun hid => (run_spec hclosed).2.2.2 id hid

end BootstrapPlan

end Mise.Bootstrap
