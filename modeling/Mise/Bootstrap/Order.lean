/-
# The order of a configuration

What comes after what in the plan of a configuration (`Requests.Comes`), and that its
last check, for cycles, never fails: `validate_requests` accepts only phases that agree
with the directories.

`tier` orders the accounts, the paths before the packages, the packages, the paths after
them, and the packages of plugins; among the paths of one phase, what is created by its
depth, and what is removed by its depth the other way.
-/

import Mathlib.Data.Prod.Lex
import Mathlib.Tactic.Linarith
import Mise.Bootstrap.Growth
import Mise.Bootstrap.Resources

namespace Mise.Bootstrap

open Lib BootstrapPlan

namespace Requests

/-! ### What comes after what -/

/-- The packages of all managers. -/
def packageIds (cfg : Requests) : List ResourceId :=
  (cfg.packages.flatMap fun packages => packages.requests.map (packageId packages.manager)) ++
    cfg.pending.flatMap fun pending => pending.requests.map (packageId pending.manager)

/-- The managed paths, each with its phase, its state and its depth. -/
def paths (cfg : Requests) : List (ResourceId × ManagedFilePhase × ManagedState × ℕ) :=
  (cfg.directories.map fun d => (d.id, d.phase, d.state, d.path.length)) ++
    (cfg.files.map fun f => (f.id, f.phase, f.state, f.path.length)) ++
    cfg.unavailable.map fun f => (⟨"file", f.path.text⟩, f.phase, f.state, f.path.length)

/-- The managed paths of a phase. -/
def ofPhase (cfg : Requests) (phase : ManagedFilePhase) : List ResourceId :=
  (cfg.paths.filter fun x => x.2.1 = phase).map Prod.fst

/-- The declared principals that a present path has. -/
def AccountOf (cfg : Requests) (state : ManagedState) (owner group : Option String)
    (b : ResourceId) : Prop :=
  state = .present ∧ ((∃ name ∈ owner, cfg.userState name = some .present ∧ b = userId name) ∨
    ∃ name ∈ group, cfg.groupState name = some .present ∧ b = groupId name)

/-- A path and the nearest declared directory above it: created after it, removed before. -/
inductive ParentOf (cfg : Requests) (id : ResourceId) (path : ManagedPath) :
    ManagedState → ResourceId → ResourceId → Prop
  | created {parent} : cfg.parent path = some parent → parent.state = .present →
      ParentOf cfg id path .present id parent.id
  | removed {parent} : cfg.parent path = some parent → parent.state = .absent →
      ParentOf cfg id path .absent parent.id id

/-- What accounts, packages and paths come after.  A file whose secret is unavailable is
planned without its owner, its group and its directory. -/
inductive Rests (cfg : Requests) : ResourceId → ResourceId → Prop
  | member {user name} : user ∈ cfg.users → name ∈ cfg.groupsOf user →
      Rests cfg (userId user.name) (groupId name)
  | left {group user} : group ∈ cfg.groups → user ∈ cfg.leavers group →
      Rests cfg (groupId group.name) (userId user.name)
  | directoryAccount {d b} : d ∈ cfg.directories → cfg.AccountOf d.state d.owner d.group b →
      Rests cfg d.id b
  | directoryParent {d a b} : d ∈ cfg.directories → cfg.ParentOf d.id d.path d.state a b →
      Rests cfg a b
  | fileAccount {f b} : f ∈ cfg.files → cfg.AccountOf f.state f.owner f.group b →
      Rests cfg f.id b
  | fileParent {f a b} : f ∈ cfg.files → cfg.ParentOf f.id f.path f.state a b → Rests cfg a b
  | package {a b} : a ∈ cfg.builtinPackages → b ∈ cfg.ofPhase .prePackages → Rests cfg a b
  | late {a b} : a ∈ cfg.ofPhase .postPackages →
      b ∈ cfg.builtinPackages ++ cfg.ofPhase .prePackages → Rests cfg a b
  | plugin {a b} : a ∈ cfg.packageIds → a ∉ cfg.builtinPackages →
      b ∈ cfg.ofPhase .prePackages ++ cfg.ofPhase .postPackages ++ cfg.builtinPackages →
      Rests cfg a b

/-- What a resource of the plan comes after. -/
inductive Comes (cfg : Requests) : ResourceId → ResourceId → Prop
  | rests {a b} : cfg.Rests a b → Comes cfg a b
  | service {s b} : s ∈ cfg.services → b ∈ cfg.packageIds ++ cfg.paths.map Prod.fst →
      Comes cfg ⟨"service", s.name⟩ b
  | rule {firewall rule b} : cfg.firewall = some firewall → rule ∈ firewall.rules →
      b ∈ cfg.packageIds ++ cfg.paths.map Prod.fst ++
        cfg.services.map (fun s => ⟨"service", s.name⟩) → Comes cfg (ruleId rule.name) b
  | policy {firewall rule} : cfg.firewall = some firewall → rule ∈ firewall.rules →
      Comes cfg policyId (ruleId rule.name)
  | project {request b} : request ∈ cfg.compose → b ∈ request.explicitDependencies →
      Comes cfg ⟨"compose", request.name⟩ b

/-! ### What the steps of the plan add -/

variable {p p' : BootstrapPlan} {cfg : Requests} {id a b : ResourceId} {path : ManagedPath}
  {state : ManagedState} {owner group : Option String}

theorem grows_insertAll {resources : List ResourcePlan} (hr : ∀ r ∈ resources, r.waits = [])
    (h : p.insertAll resources = .ok p') :
    Grows p p' (resources.map fun r => (r.id, r.phase)) fun _ _ => False := by
  unfold insertAll at h
  refine (grows_foldlM (fun r => [(r.id, r.phase)]) (fun _ _ _ => False)
    (fun r hmem _ _ => grows_insert (hr r hmem)) h).congr ?_ fun a b => ?_
  · rw [← List.map_eq_flatMap]
  · simp

theorem grows_dependOnAll {dependencies : List ResourceId}
    (h : p.dependOnAll id dependencies = .ok p') :
    Grows p p' [] fun a b => a = id ∧ b ∈ dependencies := by
  unfold dependOnAll at h
  refine (grows_foldlM (fun _ => []) (fun d a b => a = id ∧ b = d)
    (fun _ _ _ _ => grows_addDependency) h).congr ?_ fun a b => ?_
  · simp
  · simp [and_comm]

theorem grows_orderAfterAll {predecessors : List ResourceId}
    (h : p.orderAfterAll id predecessors = .ok p') :
    Grows p p' [] fun a b => a = id ∧ b ∈ predecessors := by
  unfold orderAfterAll at h
  refine (grows_foldlM (fun _ => []) (fun d a b => a = id ∧ b = d)
    (fun _ _ _ _ => grows_addOrdering) h).congr ?_ fun a b => ?_
  · simp
  · simp [and_comm]

/-- The groups and users. -/
def accountHeads (cfg : Requests) : List (ResourceId × Option ManagedFilePhase) :=
  cfg.groups.map (fun group => (groupId group.name, none)) ++
    cfg.users.map fun user => (userId user.name, none)

theorem grows_planAccounts (h : cfg.planAccounts p = .ok p') :
    Grows p p' cfg.accountHeads fun a b =>
      (∃ user ∈ cfg.users, a = userId user.name ∧ ∃ name ∈ cfg.groupsOf user, b = groupId name) ∨
      ∃ group ∈ cfg.groups, a = groupId group.name ∧
        ∃ user ∈ cfg.leavers group, b = userId user.name := by
  obtain ⟨p₁, h₁, h⟩ := bind_eq_ok h
  obtain ⟨p₂, h₂, h₃⟩ := bind_eq_ok h
  have hgroups := grows_insertAll (by simp [Report.plan, ResourcePlan.waits]) h₁
  have husers := grows_foldlM (fun user : UserRequest => [(userId user.name, none)])
    (fun user a b => a = userId user.name ∧ b ∈ (cfg.groupsOf user).map groupId)
    (fun user _ q q' hq => by
      obtain ⟨r, hr, hq⟩ := bind_eq_ok hq
      exact ((grows_insert rfl hr).trans (grows_dependOnAll hq)).congr rfl fun a b => by simp) h₂
  have hleft := grows_foldlM (fun _ => [])
    (fun group a b => a = groupId group.name ∧
      b ∈ (cfg.leavers group).map fun user => userId user.name)
    (fun _ _ _ _ => grows_dependOnAll) h₃
  refine ((hgroups.trans husers).trans hleft).congr ?_ fun a b => ?_
  · rw [← List.map_eq_flatMap, List.map_map]
    simp [accountHeads, Function.comp_def, Report.plan]
  · simp [eq_comm]

theorem resource_spec (packages : ManagerPackages) (request : PackageRequest) :
    (packages.resource request).id = packageId packages.manager request ∧
      (packages.resource request).phase = none ∧ (packages.resource request).waits = [] := by
  generalize hresource : packages.resource request = resource
  unfold ManagerPackages.resource at hresource
  dsimp only at hresource
  split at hresource
  · exact hresource ▸ ⟨rfl, rfl, rfl⟩
  · exact hresource ▸ ⟨rfl, rfl, rfl⟩

theorem grows_planPackages (h : cfg.planPackages p = .ok p') :
    Grows p p' (cfg.packageIds.map fun id => (id, none)) fun _ _ => False := by
  obtain ⟨p₁, h₁, h₂⟩ := bind_eq_ok h
  have hpackages := grows_insertAll (fun r hr => by
    obtain ⟨packages, -, hr⟩ := List.mem_flatMap.1 hr
    obtain ⟨request, -, rfl⟩ := List.mem_map.1 hr
    exact (resource_spec packages request).2.2) h₁
  have hpending := grows_insertAll (fun r hr => by
    obtain ⟨pending, -, hr⟩ := List.mem_flatMap.1 hr
    obtain ⟨request, -, rfl⟩ := List.mem_map.1 hr
    rfl) h₂
  refine (hpackages.trans hpending).congr ?_ fun a b => by simp
  rw [packageIds, List.map_append, List.map_flatMap, List.map_flatMap, List.map_flatMap,
    List.map_flatMap]
  congr 1
  · refine List.flatMap_congr fun packages _ => ?_
    rw [List.map_map, List.map_map]
    refine List.map_congr_left fun request _ => ?_
    obtain ⟨hid, hphase, -⟩ := resource_spec packages request
    rw [Function.comp_apply, Function.comp_apply, hid, hphase]
  · refine List.flatMap_congr fun pending _ => ?_
    rw [List.map_map, List.map_map]
    rfl

theorem grows_requirePrincipal {kind principal : String} {states : String → Option AccountState}
    {name? : Option String}
    (h : p.requirePrincipal id kind principal states name? = .ok p') :
    Grows p p' [] fun a b =>
      a = id ∧ ∃ name ∈ name?, states name = some .present ∧ b = ⟨kind, name⟩ := by
  unfold requirePrincipal at h
  split at h
  · obtain rfl := Except.ok.inj h
    exact (Grows.refl p).congr rfl fun a b => by simp
  · case h_2 name =>
    split at h
    · case h_1 hstate =>
      exact (grows_addDependency h).congr rfl fun a b => by simp [hstate]
    · cases h
    · case h_3 hstate =>
      obtain rfl := Except.ok.inj h
      exact (Grows.refl p).congr rfl fun a b => by simp [hstate]

theorem grows_addAccountDependencies
    (h : p.addAccountDependencies id state owner group cfg.userState cfg.groupState = .ok p') :
    Grows p p' [] fun a b => a = id ∧ cfg.AccountOf state owner group b := by
  unfold addAccountDependencies at h
  split at h
  · case isTrue hstate =>
    obtain rfl := Except.ok.inj h
    exact (Grows.refl p).congr rfl fun a b => by simp [AccountOf, hstate]
  · case isFalse hstate =>
    obtain ⟨p₁, h₁, h₂⟩ := bind_eq_ok h
    refine ((grows_requirePrincipal h₁).trans (grows_requirePrincipal h₂)).congr rfl fun a b => ?_
    rw [AccountOf, and_iff_right (not_not.1 hstate), and_or_left]
    rfl

/-- A path waits for its nearest managed parent. -/
theorem grows_planParent (h : cfg.planParent p id path state = .ok p') :
    Grows p p' [] (cfg.ParentOf id path state) := by
  unfold planParent at h
  split at h
  · case h_1 hnone =>
    obtain rfl := Except.ok.inj h
    refine (Grows.refl p).congr rfl fun a b => iff_of_false ?_ not_false
    rintro (⟨hparent, -⟩ | ⟨hparent, -⟩) <;>
    · rw [hnone] at hparent
      cases hparent
  · case h_2 parent hparent =>
    unfold addManagedParentDependency at h
    split at h
    · case h_1 hstate =>
      refine (grows_addDependency h).congr rfl fun a b => ?_
      constructor
      · rintro (⟨hother, -⟩)
        rw [hparent] at hother
        exact ⟨rfl, Option.some.inj hother ▸ rfl⟩
      · rintro ⟨rfl, rfl⟩
        exact .created hparent hstate
    · case h_2 hstate =>
      refine (grows_addDependency h).congr rfl fun a b => ?_
      constructor
      · rintro (_ | ⟨hother, -⟩)
        rw [hparent] at hother
        exact ⟨Option.some.inj hother ▸ rfl, rfl⟩
      · rintro ⟨rfl, rfl⟩
        exact .removed hparent hstate
    · cases h
    · case h_4 hstate =>
      obtain rfl := Except.ok.inj h
      refine (Grows.refl p).congr rfl fun a b => iff_of_false ?_ not_false
      rintro (_ | ⟨hother, habsent⟩)
      rw [hparent] at hother
      rw [← Option.some.inj hother, hstate] at habsent
      cases habsent

/-- The heads of managed paths. -/
def pathHeads (cfg : Requests) : List (ResourceId × Option ManagedFilePhase) :=
  cfg.paths.map fun x => (x.1, some x.2.1)

/-- Paths wait for their owners and their parents. -/
theorem grows_planPaths (h : (cfg.planDirectories p >>= cfg.planFiles) = .ok p') :
    Grows p p' cfg.pathHeads fun a b =>
      ((∃ d ∈ cfg.directories, a = d.id ∧ cfg.AccountOf d.state d.owner d.group b) ∨
        ∃ d ∈ cfg.directories, cfg.ParentOf d.id d.path d.state a b) ∨
      ∃ f ∈ cfg.files, (a = f.id ∧ cfg.AccountOf f.state f.owner f.group b) ∨
        cfg.ParentOf f.id f.path f.state a b := by
  obtain ⟨p₂, h₂, h⟩ := bind_eq_ok h
  obtain ⟨p₁, h₁, h₂⟩ := bind_eq_ok h₂
  obtain ⟨p₃, h₃, h₄⟩ := bind_eq_ok h
  have hdirectories := grows_foldlM
    (fun d : ManagedDirectoryRequest => [(d.id, some d.phase)])
    (fun d a b => a = d.id ∧ cfg.AccountOf d.state d.owner d.group b)
    (fun d _ q q' hq => by
      obtain ⟨r, hr, hq⟩ := bind_eq_ok hq
      exact ((grows_insert rfl hr).trans (grows_addAccountDependencies hq)).congr rfl
        fun a b => by simp) h₁
  have hparents := grows_foldlM (fun _ => []) (fun d a b => cfg.ParentOf d.id d.path d.state a b)
    (fun _ _ _ _ => grows_planParent) h₂
  have hfiles := grows_foldlM
    (fun f : ManagedFileRequest => [(f.id, some f.phase)])
    (fun f a b => (a = f.id ∧ cfg.AccountOf f.state f.owner f.group b) ∨
      cfg.ParentOf f.id f.path f.state a b)
    (fun f _ q q' hq => by
      obtain ⟨r, hr, hq⟩ := bind_eq_ok hq
      obtain ⟨t, ht, hq⟩ := bind_eq_ok hq
      exact (((grows_insert rfl hr).trans (grows_addAccountDependencies ht)).trans
        (grows_planParent hq)).congr rfl fun a b => by simp) h₃
  have hunavailable := grows_insertAll (fun r hr => by
    obtain ⟨f, -, rfl⟩ := List.mem_map.1 hr
    rfl) h₄
  refine (((hdirectories.trans hparents).trans hfiles).trans hunavailable).congr ?_ fun a b => ?_
  · rw [← List.map_eq_flatMap, ← List.map_eq_flatMap]
    simp [pathHeads, paths, Function.comp_def]
  · simp

theorem grows_addFilePhaseOrdering {packages : List ResourceId}
    (h : p.addFilePhaseOrdering packages = .ok p') :
    Grows p p' [] fun a b =>
      (a ∈ packages ∧ b ∈ p.ofPhase .prePackages) ∨
      (a ∈ p.ofPhase .postPackages ∧ b ∈ packages ++ p.ofPhase .prePackages) ∨
      (a ∈ p.ids ∧ a.kind = "package" ∧ a ∉ packages) ∧
        b ∈ p.ofPhase .prePackages ++ p.ofPhase .postPackages ++ packages := by
  obtain ⟨p₁, h₁, h⟩ := bind_eq_ok h
  obtain ⟨p₂, h₂, h₃⟩ := bind_eq_ok h
  have hpackages := grows_foldlM (fun _ => []) (fun x a b => a = x ∧ b ∈ p.ofPhase .prePackages)
    (fun _ _ _ _ => grows_orderAfterAll) h₁
  have hlate := grows_foldlM (fun _ => [])
    (fun x a b => a = x ∧ b ∈ packages ++ p.ofPhase .prePackages)
    (fun _ _ _ _ => grows_orderAfterAll) h₂
  have hplugins := grows_foldlM (fun _ => [])
    (fun x a b => a = x ∧ b ∈ p.ofPhase .prePackages ++ p.ofPhase .postPackages ++ packages)
    (fun _ _ _ _ => grows_orderAfterAll) h₃
  have hids : p₂.ids = p.ids := by
    rw [hlate.ids_eq, hpackages.ids_eq]
    simp
  refine ((hpackages.trans hlate).trans hplugins).congr (by simp) fun a b => ?_
  simp [hids, or_assoc, and_assoc]

/-- All accounts, packages and paths. -/
def firstHeads (cfg : Requests) : List (ResourceId × Option ManagedFilePhase) :=
  cfg.accountHeads ++ cfg.packageIds.map (fun id => (id, none)) ++ cfg.pathHeads

theorem ofPhase_eq (hheads : p.heads = cfg.firstHeads) (phase : ManagedFilePhase) :
    p.ofPhase phase = cfg.ofPhase phase := by
  have hfilter : p.ofPhase phase =
      (p.heads.filter fun x => x.2 = some phase).map Prod.fst := by
    rw [BootstrapPlan.ofPhase, heads, List.filter_map, List.map_map]
    rfl
  have haccounts : cfg.accountHeads.filter (fun x => x.2 = some phase) = [] := by
    simp [accountHeads]
  have hpackages : (cfg.packageIds.map fun id => (id, none)).filter
      (fun x : ResourceId × Option ManagedFilePhase => x.2 = some phase) = [] := by
    simp
  rw [hfilter, hheads, firstHeads, List.filter_append, List.filter_append, haccounts, hpackages,
    List.nil_append, List.nil_append, pathHeads, List.filter_map, List.map_map, ofPhase]
  simp [Function.comp_def]

theorem kind_of_mem_packageIds (h : id ∈ cfg.packageIds) : id.kind = "package" := by
  rcases List.mem_append.1 h with h | h <;>
  · obtain ⟨_, -, h⟩ := List.mem_flatMap.1 h
    obtain ⟨_, -, rfl⟩ := List.mem_map.1 h
    rfl

theorem kind_of_mem_paths (h : id ∈ cfg.paths.map Prod.fst) :
    id.kind = "directory" ∨ id.kind = "file" := by
  obtain ⟨x, hx, rfl⟩ := List.mem_map.1 h
  rw [paths, List.mem_append, List.mem_append, List.mem_map, List.mem_map, List.mem_map] at hx
  rcases hx with (⟨_, -, rfl⟩ | ⟨_, -, rfl⟩) | ⟨_, -, rfl⟩
  · exact .inl rfl
  · exact .inr rfl
  · exact .inr rfl

theorem kind_of_mem_accountHeads (h : id ∈ cfg.accountHeads.map Prod.fst) :
    id.kind = "group" ∨ id.kind = "user" := by
  obtain ⟨x, hx, rfl⟩ := List.mem_map.1 h
  rw [accountHeads, List.mem_append, List.mem_map, List.mem_map] at hx
  rcases hx with ⟨_, -, rfl⟩ | ⟨_, -, rfl⟩
  · exact .inl rfl
  · exact .inr rfl

theorem mem_firstIds : id ∈ cfg.firstHeads.map Prod.fst ↔
    id ∈ cfg.accountHeads.map Prod.fst ∨ id ∈ cfg.packageIds ∨ id ∈ cfg.paths.map Prod.fst := by
  have hpackages : (cfg.packageIds.map fun id => (id, (none : Option ManagedFilePhase))).map
      Prod.fst = cfg.packageIds := by simp [Function.comp_def]
  have hpaths : cfg.pathHeads.map Prod.fst = cfg.paths.map Prod.fst := by
    simp [pathHeads]
  rw [firstHeads, List.map_append, List.map_append, List.mem_append, List.mem_append, hpackages,
    hpaths, or_assoc]

/-- **What the plan of accounts, packages and paths has.** -/
theorem grows_first {p₁ p₂ p₃ p₄ : BootstrapPlan} (h₁ : cfg.planAccounts .empty = .ok p₁)
    (h₂ : cfg.planPackages p₁ = .ok p₂) (h₃ : (cfg.planDirectories p₂ >>= cfg.planFiles) = .ok p₃)
    (h₄ : p₃.addFilePhaseOrdering cfg.builtinPackages = .ok p₄) :
    Grows .empty p₄ cfg.firstHeads cfg.Rests := by
  have hfirst := ((grows_planAccounts h₁).trans (grows_planPackages h₂)).trans (grows_planPaths h₃)
  have hheads : p₃.heads = cfg.firstHeads := hfirst.heads
  have hplugins : ∀ a, a ∈ p₃.ids ∧ a.kind = "package" ↔ a ∈ cfg.packageIds := by
    intro a
    rw [← map_fst_heads, hheads, mem_firstIds]
    constructor
    · rintro ⟨ha | ha | ha, hkind⟩
      · rcases kind_of_mem_accountHeads ha with h | h <;>
        · rw [h] at hkind
          simp at hkind
      · exact ha
      · rcases kind_of_mem_paths ha with h | h <;>
        · rw [h] at hkind
          simp at hkind
    · exact fun ha => ⟨.inr (.inl ha), kind_of_mem_packageIds ha⟩
  refine (hfirst.trans (grows_addFilePhaseOrdering h₄)).congr (List.append_nil _).symm
    fun a b => ?_
  rw [ofPhase_eq hheads, ofPhase_eq hheads, ← and_assoc (a := a ∈ p₃.ids), hplugins]
  constructor
  · rintro (⟨hu, hg⟩ | ⟨hg, hu⟩ | ⟨hd, ha⟩ | ⟨hd, ha⟩ | ⟨hf, ha⟩ | ⟨hf, ha⟩ | ⟨ha, hb⟩ | ⟨ha, hb⟩ |
      ⟨ha, hnot, hb⟩)
    · exact .inl (.inl (.inl (.inl ⟨_, hu, rfl, _, hg, rfl⟩)))
    · exact .inl (.inl (.inl (.inr ⟨_, hg, rfl, _, hu, rfl⟩)))
    · exact .inl (.inr (.inl (.inl ⟨_, hd, rfl, ha⟩)))
    · exact .inl (.inr (.inl (.inr ⟨_, hd, ha⟩)))
    · exact .inl (.inr (.inr ⟨_, hf, .inl ⟨rfl, ha⟩⟩))
    · exact .inl (.inr (.inr ⟨_, hf, .inr ha⟩))
    · exact .inr (.inl ⟨ha, hb⟩)
    · exact .inr (.inr (.inl ⟨ha, hb⟩))
    · exact .inr (.inr (.inr ⟨⟨ha, hnot⟩, hb⟩))
  · rintro ((((⟨u, hu, rfl, n, hn, rfl⟩ | ⟨g, hg, rfl, u, hu, rfl⟩) | hfalse) |
      (⟨d, hd, rfl, ha⟩ | ⟨d, hd, ha⟩) | ⟨f, hf, ⟨rfl, ha⟩ | ha⟩) | ⟨ha, hb⟩ | ⟨ha, hb⟩ |
      ⟨⟨ha, hnot⟩, hb⟩)
    · exact .member hu hn
    · exact .left hg hu
    · exact hfalse.elim
    · exact .directoryAccount hd ha
    · exact .directoryParent hd ha
    · exact .fileAccount hf ha
    · exact .fileParent hf ha
    · exact .package ha hb
    · exact .late ha hb
    · exact .plugin ha hnot hb

/-! ### What the checks of managed paths rule out -/

theorem directory_eq_some {d : ManagedDirectoryRequest} (h : cfg.directory path = some d) :
    d ∈ cfg.directories ∧ d.path = path :=
  ⟨List.mem_of_find?_eq_some h, by
    unfold directory at h
    simpa using List.find?_some h⟩

/-- The nearest declared directory above a path is above it. -/
theorem parent_spec {parent : ManagedDirectoryRequest} (h : cfg.parent path = some parent) :
    parent ∈ cfg.directories ∧ parent.path ∈ path.above ∧ cfg.directory parent.path = some parent ∧
      parent.path <+: path ∧ parent.path.length < path.length := by
  obtain ⟨above, habove, hparent⟩ := List.exists_of_findSome?_eq_some h
  obtain ⟨hmem, rfl⟩ := directory_eq_some hparent
  refine ⟨hmem, habove, hparent, ?_⟩
  obtain ⟨n, hn, hpath⟩ := List.mem_map.1 habove
  rw [List.mem_reverse, List.mem_range] at hn
  rw [← hpath, List.length_take, Nat.min_eq_left hn.le]
  exact ⟨List.take_prefix n path, hn⟩

theorem phases_of_validatePhase {phase : ManagedFilePhase} {parent : ManagedDirectoryRequest}
    (h : cfg.validatePhase path state phase = .ok ()) (hparent : cfg.parent path = some parent) :
    invalidPhases state phase parent = false := by
  obtain ⟨hmem, -, -, hle, hlt⟩ := parent_spec hparent
  unfold validatePhase at h
  dsimp only at h
  split at h
  · cases h
  · case h_2 hnone =>
    have hnot := List.find?_eq_none.1 hnone parent hmem
    have hne : path ≠ parent.path := fun heq => by
      rw [heq] at hlt
      exact lt_irrefl _ hlt
    simpa [hne, hle] using hnot

theorem present_of_validatePresentAncestors {parent : ManagedDirectoryRequest}
    (h : cfg.validatePresentAncestors path .present = .ok ())
    (hparent : cfg.parent path = some parent) : parent.state = .present := by
  obtain ⟨-, habove, hdirectory, -⟩ := parent_spec hparent
  unfold validatePresentAncestors at h
  rw [if_neg (by simp)] at h
  split at h
  · cases h
  · case h_2 hnone =>
    have hnot := List.find?_eq_none.1 hnone _ habove
    cases hstate : parent.state with
    | present => rfl
    | absent => simp [hdirectory, hstate] at hnot

/-- What `validate` has seen. -/
theorem phases_of_validate (h : cfg.validate = .ok ()) :
    (∀ d ∈ cfg.directories, ∀ parent, cfg.parent d.path = some parent →
      invalidPhases d.state d.phase parent = false) ∧
    ∀ f ∈ cfg.files, ∀ parent, cfg.parent f.path = some parent → parent.state = f.state →
      invalidPhases f.state f.phase parent = false := by
  obtain ⟨_, -, h⟩ := bind_eq_ok h
  obtain ⟨_, hfiles, h⟩ := bind_eq_ok h
  obtain ⟨_, -, h⟩ := bind_eq_ok h
  obtain ⟨_, hphases, hdirectories⟩ := bind_eq_ok h
  refine ⟨fun d hd parent => phases_of_validatePhase (forM_eq_ok.1 hdirectories d hd),
    fun f hf parent hparent hstate => ?_⟩
  have hphase := phases_of_validatePhase (forM_eq_ok.1 hphases f hf) hparent
  have hfile := forM_eq_ok.1 hfiles f hf
  unfold validateFile at hfile
  split at hfile
  · cases hfile
  · -- a file that renders to nothing is declared present, so the directory stays
    unfold ManagedFileRequest.declaredState at hphase hfile
    split at hphase
    · case isTrue hempty =>
      rw [if_pos hempty] at hfile
      have hpresent := present_of_validatePresentAncestors hfile hparent
      rwa [← hstate, hpresent]
    · exact hphase

/-! ### The tiers -/

/-- Where a path stands. -/
def pathTier (phase : ManagedFilePhase) (state : ManagedState) (depth : ℕ) : ℕ ×ₗ ℤ :=
  toLex (match phase with | .prePackages => 3 | .postPackages => 5,
    match state with | .present => (depth : ℤ) | .absent => -(depth : ℤ))

/-- Where a resource stands: all that it comes after stands lower. -/
def tier (cfg : Requests) (id : ResourceId) : ℕ ×ₗ ℤ :=
  if id.kind = "group" then toLex (if cfg.groupState id.name = some .absent then 2 else 0, 0)
  else if id.kind = "user" then toLex (1, 0)
  else if id.kind = "package" then toLex (if id ∈ cfg.builtinPackages then 4 else 6, 0)
  else
    match cfg.paths.find? fun x => x.1 = id with
    | some (_, phase, state, depth) => pathTier phase state depth
    | none => toLex (0, 0)

theorem tier_path (hnodup : (cfg.paths.map Prod.fst).Nodup) {phase : ManagedFilePhase} {depth : ℕ}
    (h : (id, phase, state, depth) ∈ cfg.paths) : cfg.tier id = pathTier phase state depth := by
  have hkind := kind_of_mem_paths (List.mem_map_of_mem (f := Prod.fst) h)
  have hfind : (cfg.paths.find? fun x => x.1 = id) = some (id, phase, state, depth) := by
    cases hfind : cfg.paths.find? fun x => x.1 = id with
    | none => simpa using List.find?_eq_none.1 hfind _ h
    | some x =>
      have hid : x.1 = id := by simpa using List.find?_some hfind
      rw [List.inj_on_of_nodup_map hnodup (List.mem_of_find?_eq_some hfind) h hid]
  unfold tier
  rw [hfind]
  rcases hkind with hkind | hkind <;>
  · rw [hkind]
    rfl

theorem exists_of_mem_ofPhase {phase : ManagedFilePhase} (h : id ∈ cfg.ofPhase phase) :
    ∃ state depth, (id, phase, state, depth) ∈ cfg.paths := by
  obtain ⟨⟨_, phase', state, depth⟩, hx, rfl⟩ := List.mem_map.1 h
  obtain ⟨hmem, hphase⟩ := List.mem_filter.1 hx
  have heq : phase' = phase := by simpa using hphase
  exact ⟨state, depth, heq ▸ hmem⟩

/-- A path and its directory stand in their order. -/
theorem ParentOf.tier_lt (hnodup : (cfg.paths.map Prod.fst).Nodup) {phase : ManagedFilePhase}
    (hx : (id, phase, state, path.length) ∈ cfg.paths)
    (hvalid : ∀ parent, cfg.parent path = some parent → parent.state = state →
      invalidPhases state phase parent = false) (h : cfg.ParentOf id path state a b) :
    a ∈ cfg.paths.map Prod.fst ∧ b ∈ cfg.paths.map Prod.fst ∧ cfg.tier b < cfg.tier a := by
  have hmem : ∀ d ∈ cfg.directories, (d.id, d.phase, d.state, d.path.length) ∈ cfg.paths :=
    fun d hd => List.mem_append_left _ (List.mem_append_left _ (List.mem_map.2 ⟨d, hd, rfl⟩))
  have hself : id ∈ cfg.paths.map Prod.fst := List.mem_map.2 ⟨_, hx, rfl⟩
  cases h with
  | @created parent hparent hstate =>
    obtain ⟨hd, -, -, -, hlt⟩ := parent_spec hparent
    have hphases := hvalid parent hparent hstate
    refine ⟨hself, List.mem_map.2 ⟨_, hmem parent hd, rfl⟩, ?_⟩
    rw [tier_path hnodup hx, tier_path hnodup (hmem parent hd), hstate]
    unfold pathTier
    rw [Prod.Lex.toLex_lt_toLex]
    simp only [invalidPhases, hstate] at hphases
    cases phase with
    | prePackages =>
      cases hp : parent.phase with
      | prePackages => exact .inr ⟨rfl, by simpa using hlt⟩
      | postPackages => simp [hp] at hphases
    | postPackages =>
      cases hp : parent.phase with
      | prePackages => exact .inl (by simp)
      | postPackages => exact .inr ⟨rfl, by simpa using hlt⟩
  | @removed parent hparent hstate =>
    obtain ⟨hd, -, -, -, hlt⟩ := parent_spec hparent
    have hphases := hvalid parent hparent hstate
    refine ⟨List.mem_map.2 ⟨_, hmem parent hd, rfl⟩, hself, ?_⟩
    rw [tier_path hnodup hx, tier_path hnodup (hmem parent hd), hstate]
    unfold pathTier
    rw [Prod.Lex.toLex_lt_toLex]
    simp only [invalidPhases, hstate] at hphases
    cases phase with
    | prePackages =>
      cases hp : parent.phase with
      | prePackages => exact .inr ⟨rfl, by simpa using hlt⟩
      | postPackages => exact .inl (by simp)
    | postPackages =>
      cases hp : parent.phase with
      | prePackages => simp [hp] at hphases
      | postPackages => exact .inr ⟨rfl, by simpa using hlt⟩

theorem tier_user (name : String) : cfg.tier (userId name) = toLex (1, 0) := by
  simp [tier, userId]

theorem tier_group (name : String) : cfg.tier (groupId name) =
    toLex (if cfg.groupState name = some .absent then 2 else 0, 0) := by
  unfold tier groupId
  rw [if_pos rfl]

theorem tier_package (h : id ∈ cfg.packageIds) :
    cfg.tier id = toLex (if id ∈ cfg.builtinPackages then 4 else 6, 0) := by
  unfold tier
  rw [kind_of_mem_packageIds h]
  simp

theorem mem_of_groupState {name : String} {account : AccountState}
    (h : cfg.groupState name = some account) : groupId name ∈ cfg.accountHeads.map Prod.fst := by
  obtain ⟨group, hgroup, -⟩ := Option.map_eq_some_iff.1 h
  have hname : group.name = name := by simpa using List.find?_some hgroup
  refine List.mem_map.2 ⟨(groupId name, none), List.mem_append_left _ (List.mem_map.2 ?_), rfl⟩
  exact ⟨group, List.mem_of_find?_eq_some hgroup, by rw [hname]⟩

theorem mem_user {user : UserRequest} (h : user ∈ cfg.users) :
    userId user.name ∈ cfg.accountHeads.map Prod.fst :=
  List.mem_map.2 ⟨(userId user.name, none),
    List.mem_append_right _ (List.mem_map.2 ⟨user, h, rfl⟩), rfl⟩

theorem mem_of_userState {name : String} {account : AccountState}
    (h : cfg.userState name = some account) : userId name ∈ cfg.accountHeads.map Prod.fst := by
  obtain ⟨user, huser, -⟩ := Option.map_eq_some_iff.1 h
  have hname : user.name = name := by simpa using List.find?_some huser
  exact hname ▸ mem_user (List.mem_of_find?_eq_some huser)

theorem groupState_of_mem {group : GroupRequest} (h : group ∈ cfg.groups) :
    cfg.groupState group.name = some group.state := by
  unfold groupState
  cases hfind : cfg.groups.find? fun other => other.name = group.name with
  | none => simpa using List.find?_eq_none.1 hfind _ h
  | some other =>
    have hname : other.name = group.name := by simpa using List.find?_some hfind
    rw [List.inj_on_of_nodup_map cfg.groups_nodup (List.mem_of_find?_eq_some hfind) h hname]
    rfl

theorem mem_packageIds_of_builtin (h : id ∈ cfg.builtinPackages) : id ∈ cfg.packageIds := by
  obtain ⟨packages, hpackages, h⟩ := List.mem_flatMap.1 h
  exact List.mem_append_left _ (List.mem_flatMap.2 ⟨packages, (List.mem_filter.1 hpackages).1, h⟩)

/-- The first part of a tier decides. -/
theorem tier_lt_of_fst {m n : ℕ} {x y : ℤ} (h : m < n) :
    (toLex (m, x) : ℕ ×ₗ ℤ) < toLex (n, y) :=
  Prod.Lex.toLex_lt_toLex.2 (.inl h)

/-- Accounts stand below paths. -/
theorem AccountOf.tier_lt (hnodup : (cfg.paths.map Prod.fst).Nodup) {phase : ManagedFilePhase}
    {depth : ℕ} (hx : (id, phase, state, depth) ∈ cfg.paths)
    (h : cfg.AccountOf state owner group b) :
    b ∈ cfg.accountHeads.map Prod.fst ∧ cfg.tier b < cfg.tier id := by
  rw [tier_path hnodup hx]
  obtain ⟨-, ⟨name, -, hstate, rfl⟩ | ⟨name, -, hstate, rfl⟩⟩ := h
  · refine ⟨mem_of_userState hstate, ?_⟩
    rw [tier_user]
    cases phase <;> exact tier_lt_of_fst (by decide)
  · refine ⟨mem_of_groupState hstate, ?_⟩
    rw [tier_group, hstate, if_neg (by simp)]
    cases phase <;> exact tier_lt_of_fst (by decide)

/-- **What accounts, packages and paths come after stands lower.** -/
theorem Rests.tier_lt (hvalidate : cfg.validate = .ok ())
    (hnodup : (cfg.firstHeads.map Prod.fst).Nodup) (h : cfg.Rests a b) :
    a ∈ cfg.firstHeads.map Prod.fst ∧ b ∈ cfg.firstHeads.map Prod.fst ∧
      cfg.tier b < cfg.tier a := by
  have hpaths : (cfg.paths.map Prod.fst).Nodup := by
    rw [firstHeads, List.map_append] at hnodup
    have := hnodup.of_append_right
    rwa [pathHeads, List.map_map] at this
  have hpath : ∀ {id : ResourceId} {phase state depth}, (id, phase, state, depth) ∈ cfg.paths →
      id ∈ cfg.firstHeads.map Prod.fst := fun hx =>
    mem_firstIds.2 (.inr (.inr (List.mem_map.2 ⟨_, hx, rfl⟩)))
  have hdirectory : ∀ d ∈ cfg.directories, (d.id, d.phase, d.state, d.path.length) ∈ cfg.paths :=
    fun d hd => List.mem_append_left _ (List.mem_append_left _ (List.mem_map.2 ⟨d, hd, rfl⟩))
  have hfile : ∀ f ∈ cfg.files, (f.id, f.phase, f.state, f.path.length) ∈ cfg.paths :=
    fun f hf => List.mem_append_left _ (List.mem_append_right _ (List.mem_map.2 ⟨f, hf, rfl⟩))
  have hbuiltin : ∀ {id}, id ∈ cfg.builtinPackages →
      id ∈ cfg.firstHeads.map Prod.fst ∧ cfg.tier id = toLex (4, 0) := fun {id} hid => by
    have hmem := mem_packageIds_of_builtin hid
    exact ⟨mem_firstIds.2 (.inr (.inl hmem)), by rw [tier_package hmem, if_pos hid]⟩
  have hearly : ∀ {id}, id ∈ cfg.ofPhase .prePackages →
      id ∈ cfg.firstHeads.map Prod.fst ∧ ∃ n : ℤ, cfg.tier id = toLex (3, n) := fun hid => by
    obtain ⟨state, depth, hx⟩ := exists_of_mem_ofPhase hid
    exact ⟨hpath hx, _, tier_path hpaths hx⟩
  have hlate : ∀ {id}, id ∈ cfg.ofPhase .postPackages →
      id ∈ cfg.firstHeads.map Prod.fst ∧ ∃ n : ℤ, cfg.tier id = toLex (5, n) := fun hid => by
    obtain ⟨state, depth, hx⟩ := exists_of_mem_ofPhase hid
    exact ⟨hpath hx, _, tier_path hpaths hx⟩
  obtain ⟨hvalidDirectories, hvalidFiles⟩ := phases_of_validate hvalidate
  cases h with
  | @member user name hu hn =>
    unfold groupsOf at hn
    split at hn
    · have hstate : cfg.groupState name = some .present := by
        simpa using (List.mem_filter.1 hn).2
      refine ⟨mem_firstIds.2 (.inl (mem_user hu)), mem_firstIds.2 (.inl (mem_of_groupState hstate)),
        ?_⟩
      rw [tier_user, tier_group, hstate, if_neg (by simp)]
      exact tier_lt_of_fst (by omega)
    · cases hn
  | @left group user hg hu =>
    unfold leavers at hu
    split at hu
    · case isTrue habsent =>
      have hstate := groupState_of_mem hg
      refine ⟨mem_firstIds.2 (.inl (mem_of_groupState hstate)),
        mem_firstIds.2 (.inl (mem_user (List.mem_filter.1 hu).1)), ?_⟩
      rw [tier_user, tier_group, hstate, habsent, if_pos rfl]
      exact tier_lt_of_fst (by omega)
    · cases hu
  | directoryAccount hd ha =>
    obtain ⟨hb, hlt⟩ := ha.tier_lt hpaths (hdirectory _ hd)
    exact ⟨hpath (hdirectory _ hd), mem_firstIds.2 (.inl hb), hlt⟩
  | directoryParent hd ha =>
    obtain ⟨haMem, hbMem, hlt⟩ := ha.tier_lt hpaths (hdirectory _ hd)
      fun parent hparent _ => hvalidDirectories _ hd parent hparent
    exact ⟨mem_firstIds.2 (.inr (.inr haMem)), mem_firstIds.2 (.inr (.inr hbMem)), hlt⟩
  | fileAccount hf ha =>
    obtain ⟨hb, hlt⟩ := ha.tier_lt hpaths (hfile _ hf)
    exact ⟨hpath (hfile _ hf), mem_firstIds.2 (.inl hb), hlt⟩
  | fileParent hf ha =>
    obtain ⟨haMem, hbMem, hlt⟩ := ha.tier_lt hpaths (hfile _ hf) (hvalidFiles _ hf)
    exact ⟨mem_firstIds.2 (.inr (.inr haMem)), mem_firstIds.2 (.inr (.inr hbMem)), hlt⟩
  | package ha hb =>
    obtain ⟨haMem, htier⟩ := hbuiltin ha
    obtain ⟨hbMem, n, htier'⟩ := hearly hb
    refine ⟨haMem, hbMem, ?_⟩
    rw [htier, htier']
    exact tier_lt_of_fst (by omega)
  | late ha hb =>
    obtain ⟨haMem, n, htier⟩ := hlate ha
    rw [htier]
    rcases List.mem_append.1 hb with hb | hb
    · obtain ⟨hbMem, htier'⟩ := hbuiltin hb
      rw [htier']
      exact ⟨haMem, hbMem, tier_lt_of_fst (by omega)⟩
    · obtain ⟨hbMem, m, htier'⟩ := hearly hb
      rw [htier']
      exact ⟨haMem, hbMem, tier_lt_of_fst (by omega)⟩
  | plugin ha hnot hb =>
    rw [tier_package ha, if_neg hnot]
    refine ⟨mem_firstIds.2 (.inr (.inl ha)), ?_⟩
    rcases List.mem_append.1 hb with hb | hb
    · rcases List.mem_append.1 hb with hb | hb
      · obtain ⟨hbMem, n, htier⟩ := hearly hb
        rw [htier]
        exact ⟨hbMem, tier_lt_of_fst (by omega)⟩
      · obtain ⟨hbMem, n, htier⟩ := hlate hb
        rw [htier]
        exact ⟨hbMem, tier_lt_of_fst (by omega)⟩
    · obtain ⟨hbMem, htier⟩ := hbuiltin hb
      rw [htier]
      exact ⟨hbMem, tier_lt_of_fst (by omega)⟩

end Requests

end Mise.Bootstrap
