/-
# The whole plan of a configuration

Services, the firewall and the compose projects are added to the plan of accounts,
packages and paths, each waiting only for what is there.  So the plan of every
configuration comes out in order: `plan` is `build`, its last check has nothing to find.
-/

import Mise.Bootstrap.Order

namespace Mise.Bootstrap

open Lib BootstrapPlan

namespace Requests

variable {p p' : BootstrapPlan} {cfg : Requests} {id a b : ResourceId}

/-- The ids of the firewall. -/
def firewallIds (cfg : Requests) : List ResourceId :=
  match cfg.firewall with
  | none => []
  | some firewall => policyId :: firewall.rules.map fun rule => ruleId rule.name

/-- All that a configuration requests, in the order of its declarations. -/
def ids (cfg : Requests) : List ResourceId :=
  cfg.firstHeads.map Prod.fst ++ cfg.services.map (fun s => ⟨"service", s.name⟩) ++
    cfg.userServices.map (fun s => ⟨"user-service", s.name⟩) ++ cfg.firewallIds ++
    cfg.compose.map fun request => ⟨"compose", request.name⟩

/-- What is kept up while the plan grows. -/
structure Sound (p : BootstrapPlan) : Prop where
  closed : p.Closed
  acyclic : p.Acyclic

theorem sound_empty : Sound .empty where
  closed a b h := by
    obtain ⟨r, hr, -⟩ := h
    cases hr
  acyclic id h := by
    obtain ⟨b, hb, -⟩ := Relation.TransGen.head'_iff.1 h
    obtain ⟨r, hr, -⟩ := hb
    cases hr

theorem mem_ofKinds {kinds : List String} : id ∈ p.ofKinds kinds ↔ id ∈ p.ids ∧ id.kind ∈ kinds := by
  rw [ofKinds, List.mem_filter, decide_eq_true_eq]

theorem kind_of_mem_firstIds (h : id ∈ cfg.firstHeads.map Prod.fst) :
    id.kind ∈ ["group", "user", "package", "directory", "file"] := by
  rcases mem_firstIds.1 h with h | h | h
  · rcases kind_of_mem_accountHeads h with h | h <;> simp [h]
  · simp [kind_of_mem_packageIds h]
  · rcases kind_of_mem_paths h with h | h <;> simp [h]

/-- The packages and paths, by their kinds. -/
theorem mem_ofKinds_of_first {kinds : List String} (hids : ∀ id ∈ cfg.firstHeads.map Prod.fst,
      id ∈ p.ids) (hkinds : ["package", "file", "directory"] ⊆ kinds)
    (h : id ∈ cfg.packageIds ++ cfg.paths.map Prod.fst) : id ∈ p.ofKinds kinds := by
  rw [mem_ofKinds]
  rcases List.mem_append.1 h with h | h
  · refine ⟨hids id (mem_firstIds.2 (.inr (.inl h))), hkinds ?_⟩
    simp [kind_of_mem_packageIds h]
  · refine ⟨hids id (mem_firstIds.2 (.inr (.inr h))), hkinds ?_⟩
    rcases kind_of_mem_paths h with hkind | hkind <;> simp [hkind]

/-- The ids of the services that are already there. -/
def serviceIds (cfg : Requests) : List ResourceId :=
  cfg.services.map fun s => ⟨"service", s.name⟩

theorem grows_planServices (h : cfg.planServices p = .ok p') :
    Grows p p' (cfg.serviceIds.map fun id => (id, none)) fun a b =>
      a ∈ cfg.serviceIds ∧ b ∈ p.ofKinds ["package", "file", "directory"] := by
  unfold planServices at h
  refine (grows_foldlM (fun s : ServiceRequest => [((⟨"service", s.name⟩ : ResourceId), none)])
    (fun s a b => a = ⟨"service", s.name⟩ ∧ b ∈ p.ofKinds ["package", "file", "directory"])
    (fun s _ q q' hq => ?_) h).congr ?_ fun a b => ?_
  · obtain ⟨r, hr, hq⟩ := bind_eq_ok hq
    exact ((grows_insert rfl hr).trans (grows_dependOnAll hq)).congr rfl fun a b => by simp
  · rw [← List.map_eq_flatMap, serviceIds, List.map_map]
    rfl
  · simp only [serviceIds, List.mem_map, eq_comm (a := a)]
    grind

theorem grows_planUserServices (h : cfg.planUserServices p = .ok p') :
    Grows p p' (cfg.userServices.map fun s => (⟨"user-service", s.name⟩, none))
      fun _ _ => False := by
  refine (grows_insertAll (fun r hr => ?_) h).congr ?_ fun a b => Iff.rfl
  · obtain ⟨s, -, rfl⟩ := List.mem_map.1 hr
    rfl
  · rw [List.map_map]
    rfl

/-- The firewall waits for what is planned before it. -/
theorem grows_planFirewall {firewall : FirewallRequest} (hfirewall : cfg.firewall = some firewall)
    (hkinds : ∀ id ∈ p.ids, id.kind ≠ "firewall-rule") (h : cfg.planFirewall p = .ok p') :
    Grows p p' (cfg.firewallIds.map fun id => (id, none)) fun a b =>
      (∃ rule ∈ firewall.rules, (a = ruleId rule.name ∧
        b ∈ p.ofKinds ["package", "file", "directory", "service"]) ∨
        a = policyId ∧ b = ruleId rule.name) ∨
      a = policyId ∧ b ∈ p.ofKinds ["package", "file", "directory", "service"] := by
  unfold planFirewall at h
  rw [hfirewall] at h
  obtain ⟨p₁, h₁, h⟩ := bind_eq_ok h
  obtain ⟨p₂, h₂, h₃⟩ := bind_eq_ok h
  have hinsert := grows_insertAll (by simp [Report.plan, ResourcePlan.waits]) h₁
  have hrules := grows_foldlM (fun _ => [])
    (fun x a b => (a = x ∧ b ∈ p.ofKinds ["package", "file", "directory", "service"]) ∨
      a = policyId ∧ b = x)
    (fun x _ q q' hq => by
      obtain ⟨r, hr, hq⟩ := bind_eq_ok hq
      exact (grows_dependOnAll hr).trans (grows_addDependency hq)) h₂
  have hids : ∀ id, id ∈ p₁.ofKinds ["firewall-rule"] ↔
      ∃ rule ∈ firewall.rules, id = ruleId rule.name := by
    intro id
    rw [mem_ofKinds, hinsert.ids_eq]
    simp only [List.map_cons, List.map_map, List.mem_append, List.mem_cons, List.mem_map,
      List.not_mem_nil, or_false]
    constructor
    · rintro ⟨hid | rfl | ⟨rule, hrule, rfl⟩, hkind⟩
      · exact absurd hkind (hkinds id hid)
      · simp [Report.plan, policyId] at hkind
      · exact ⟨rule, hrule, rfl⟩
    · rintro ⟨rule, hrule, rfl⟩
      exact ⟨.inr (.inr ⟨rule, hrule, rfl⟩), rfl⟩
  refine ((hinsert.trans hrules).trans (grows_dependOnAll h₃)).congr ?_ fun a b => ?_
  · simp [firewallIds, hfirewall, Report.plan, Function.comp_def]
  · simp only [hids, false_or]
    grind

/-- The firewall comes after what is there, and its policy after its rules. -/
theorem planFirewall_spec (hsound : Sound p) (hkinds : ∀ id ∈ p.ids, id.kind ≠ "firewall-rule")
    (h : cfg.planFirewall p = .ok p') :
    Sound p' ∧ p'.ids = p.ids ++ cfg.firewallIds ∧ (∀ a b, p.Waits a b → p'.Waits a b) ∧
      ∀ firewall, cfg.firewall = some firewall → ∀ rule ∈ firewall.rules,
        p'.Waits policyId (ruleId rule.name) ∧
          ∀ b ∈ p.ofKinds ["package", "file", "directory", "service"],
            p'.Waits (ruleId rule.name) b := by
  cases hfirewall : cfg.firewall with
  | none =>
    unfold planFirewall at h
    rw [hfirewall] at h
    obtain rfl := Except.ok.inj h
    exact ⟨hsound, by simp [firewallIds, hfirewall], fun _ _ hab => hab, nofun⟩
  | some firewall =>
    have hgrows := grows_planFirewall hfirewall hkinds h
    have hnew : (cfg.firewallIds.map fun id => (id, (none : Option ManagedFilePhase))).map
        Prod.fst = cfg.firewallIds := by simp [Function.comp_def]
    have hids : cfg.firewallIds =
        policyId :: firewall.rules.map fun rule => ruleId rule.name := by
      rw [firewallIds, hfirewall]
    obtain ⟨hclosed, hacyclic⟩ := hgrows.acyclic (fun id => if id = policyId then 1 else 0)
      hsound.closed hsound.acyclic fun a b hab => by
        rw [hnew, hids]
        rcases hab with ⟨rule, hrule, ⟨rfl, hb⟩ | ⟨rfl, rfl⟩⟩ | ⟨rfl, hb⟩
        · exact ⟨List.mem_cons_of_mem _ (List.mem_map.2 ⟨rule, hrule, rfl⟩),
            .inl (mem_ofKinds.1 hb).1⟩
        · refine ⟨List.mem_cons_self, .inr ⟨List.mem_cons_of_mem _
            (List.mem_map.2 ⟨rule, hrule, rfl⟩), ?_⟩⟩
          rw [if_pos rfl, if_neg (by simp [ruleId, policyId])]
          exact Nat.one_pos
        · exact ⟨List.mem_cons_self, .inl (mem_ofKinds.1 hb).1⟩
    refine ⟨⟨hclosed, hacyclic⟩, by rw [hgrows.ids_eq, hnew],
      fun a b hab => (hgrows.waits a b).2 (.inl hab), ?_⟩
    rintro other ⟨⟩ rule hrule
    exact ⟨(hgrows.waits _ _).2 (.inr (.inl ⟨rule, hrule, .inr ⟨rfl, rfl⟩⟩)), fun b hb =>
      (hgrows.waits _ _).2 (.inr (.inl ⟨rule, hrule, .inl ⟨rfl, hb⟩⟩))⟩

theorem composeResource_spec (request : ComposeRequest) (changed : Bool) :
    (composeResource request changed).id = ⟨"compose", request.name⟩ ∧
      (composeResource request changed).phase = none ∧
      (composeResource request changed).waits = [] := by
  unfold composeResource
  dsimp only
  split
  · split <;> exact ⟨rfl, rfl, rfl⟩
  · exact ⟨rfl, rfl, rfl⟩

theorem mem_foldl_pushNew {l acc : List ResourceId} :
    b ∈ l.foldl pushNew acc ↔ b ∈ acc ∨ b ∈ l := by
  induction l generalizing acc with
  | nil => simp
  | cons c l ih => rw [List.foldl_cons, ih, mem_pushNew, List.mem_cons, or_assoc]

/-- A project waits for what is there, and for all that it names. -/
theorem grows_planProject {request : ComposeRequest} (h : planProject p request = .ok p') :
    ∃ dependencies : List ResourceId, (∀ b ∈ dependencies, b ∈ p.ids) ∧
      request.explicitDependencies ⊆ dependencies ∧
      Grows p p' [(⟨"compose", request.name⟩, none)] fun a b =>
        a = ⟨"compose", request.name⟩ ∧ b ∈ dependencies := by
  obtain ⟨⟨⟩, hexplicit, h⟩ := bind_eq_ok h
  obtain ⟨p₁, h₁, h₂⟩ := bind_eq_ok h
  have hthere : ∀ b ∈ request.explicitDependencies, b ∈ p.ids := fun b hb => by
    have hcheck := forM_eq_ok.1 hexplicit b hb
    split at hcheck
    · case isTrue hcontains => simpa [contains] using hcontains
    · cases hcheck
  obtain ⟨hid, hphase, hwaits⟩ := composeResource_spec request
    (dependencyChanged p (projectDependencies p request))
  refine ⟨projectDependencies p request, fun b hb => ?_, fun b hb => ?_,
    ((grows_insert hwaits h₁).trans (grows_dependOnAll h₂)).congr ?_ fun a b => by simp⟩
  · rw [projectDependencies, mem_foldl_pushNew, List.mem_append, List.mem_append,
      List.mem_filter] at hb
    rcases hb with hb | (⟨-, hb⟩ | hb) | hb
    · cases hb
    · simpa [contains] using hb
    · split at hb
      · case isTrue hcontains =>
        obtain rfl := List.mem_singleton.1 hb
        simpa [contains] using hcontains
      · cases hb
    · exact hthere b hb
  · exact mem_foldl_pushNew.2 (.inr (List.mem_append_right _ hb))
  · rw [hid, hphase]
    rfl

/-- The compose projects, one by one. -/
theorem foldlM_planProject_spec {l : List ComposeRequest} (hsound : Sound p)
    (h : l.foldlM planProject p = .ok p') :
    Sound p' ∧ p'.ids = p.ids ++ l.map (fun request => ⟨"compose", request.name⟩) ∧
      (∀ a b, p.Waits a b → p'.Waits a b) ∧
      ∀ request ∈ l, ∀ b ∈ request.explicitDependencies,
        p'.Waits ⟨"compose", request.name⟩ b := by
  induction l generalizing p with
  | nil =>
    obtain rfl := Except.ok.inj h
    exact ⟨hsound, by simp, fun _ _ hab => hab, nofun⟩
  | cons request l ih =>
    rw [List.foldlM_cons] at h
    obtain ⟨q, hq, h⟩ := bind_eq_ok h
    obtain ⟨dependencies, hthere, hexplicit, hgrows⟩ := grows_planProject hq
    obtain ⟨hclosed, hacyclic⟩ := hgrows.acyclic (fun _ => 0) hsound.closed hsound.acyclic
      fun a b hab => ⟨by simp [hab.1], .inl (hthere b hab.2)⟩
    obtain ⟨hsound', hids, hkept, hnamed⟩ := ih ⟨hclosed, hacyclic⟩ h
    refine ⟨hsound', ?_, fun a b hab => hkept a b ((hgrows.waits a b).2 (.inl hab)), ?_⟩
    · rw [hids, hgrows.ids_eq]
      simp
    · intro other hother b hb
      rcases List.mem_cons.1 hother with rfl | hother
      · exact hkept _ b ((hgrows.waits _ b).2 (.inr ⟨rfl, hexplicit hb⟩))
      · exact hnamed other hother b hb

/-- **What `build` returns**: all that is requested, in the order of its declarations,
with no cycle, and with all that should come before each. -/
theorem build_spec (h : cfg.build = .ok p) :
    Sound p ∧ p.ids = cfg.ids ∧ ∀ a b, cfg.Comes a b → p.Waits a b := by
  obtain ⟨p₁, h₁, h⟩ := bind_eq_ok h
  obtain ⟨p₂, h₂, h⟩ := bind_eq_ok h
  obtain ⟨⟨⟩, hvalidate, h⟩ := bind_eq_ok h
  obtain ⟨p₃, h₃, h⟩ := bind_eq_ok h
  obtain ⟨p₄, h₄, h⟩ := bind_eq_ok h
  obtain ⟨p₅, h₅, h⟩ := bind_eq_ok h
  obtain ⟨p₆, h₆, h⟩ := bind_eq_ok h
  obtain ⟨p₇, h₇, h⟩ := bind_eq_ok h
  obtain ⟨p₈, h₈, h⟩ := bind_eq_ok h
  -- accounts, packages and paths: each comes after what stands on a lower tier
  have hfirst := grows_first h₁ h₂ (by rw [h₃]; exact h₄) h₅
  have hids₅ : p₅.ids = cfg.firstHeads.map Prod.fst := hfirst.ids_eq
  have hnodup : (cfg.firstHeads.map Prod.fst).Nodup := hids₅ ▸ p₅.nodup
  have hsound₅ : Sound p₅ := by
    obtain ⟨hclosed, hacyclic⟩ := hfirst.acyclic cfg.tier sound_empty.closed sound_empty.acyclic
      fun a b hab => by
        obtain ⟨ha, hb, hlt⟩ := hab.tier_lt hvalidate hnodup
        exact ⟨ha, .inr ⟨hb, hlt⟩⟩
    exact ⟨hclosed, hacyclic⟩
  -- services and user services
  have hservices := grows_planServices h₆
  have hids₆ : p₆.ids = cfg.firstHeads.map Prod.fst ++ cfg.serviceIds := by
    rw [hservices.ids_eq, hids₅]
    simp [Function.comp_def]
  have hsound₆ : Sound p₆ := by
    obtain ⟨hclosed, hacyclic⟩ := hservices.acyclic (fun _ => 0) hsound₅.closed hsound₅.acyclic
      fun a b hab => ⟨by simpa [Function.comp_def] using hab.1, .inl (mem_ofKinds.1 hab.2).1⟩
    exact ⟨hclosed, hacyclic⟩
  have huser := grows_planUserServices h₇
  have hids₇ : p₇.ids = cfg.firstHeads.map Prod.fst ++ cfg.serviceIds ++
      cfg.userServices.map fun s => ⟨"user-service", s.name⟩ := by
    rw [huser.ids_eq, hids₆]
    simp [Function.comp_def]
  have hsound₇ : Sound p₇ := by
    obtain ⟨hclosed, hacyclic⟩ := huser.acyclic (fun _ => 0) hsound₆.closed hsound₆.acyclic
      fun _ _ hab => hab.elim
    exact ⟨hclosed, hacyclic⟩
  -- the firewall
  have hkinds : ∀ id ∈ p₇.ids, id.kind ≠ "firewall-rule" := by
    intro id hid
    rw [hids₇, List.mem_append, List.mem_append] at hid
    rcases hid with (hid | hid) | hid
    · have hkind := kind_of_mem_firstIds hid
      intro heq
      rw [heq] at hkind
      simp at hkind
    · obtain ⟨s, -, rfl⟩ := List.mem_map.1 hid
      simp
    · obtain ⟨s, -, rfl⟩ := List.mem_map.1 hid
      simp
  have hservices₇ : ∀ b ∈ cfg.packageIds ++ cfg.paths.map Prod.fst ++ cfg.serviceIds,
      b ∈ p₇.ofKinds ["package", "file", "directory", "service"] := by
    intro b hb
    rcases List.mem_append.1 hb with hb | hb
    · refine mem_ofKinds_of_first (fun id hid => ?_) (by simp) hb
      rw [hids₇]
      exact List.mem_append_left _ (List.mem_append_left _ hid)
    · rw [mem_ofKinds, hids₇]
      refine ⟨List.mem_append_left _ (List.mem_append_right _ hb), ?_⟩
      obtain ⟨s, -, rfl⟩ := List.mem_map.1 hb
      simp
  obtain ⟨hsound₈, hids₈, hkept₈, hrules⟩ := planFirewall_spec hsound₇ hkinds h₈
  obtain ⟨hsound, hids, hkept, hnamed⟩ := foldlM_planProject_spec hsound₈ h
  refine ⟨hsound, ?_, fun a b hab => ?_⟩
  · rw [hids, hids₈, hids₇]
    rfl
  · cases hab with
    | rests hab =>
      exact hkept _ _ (hkept₈ _ _ ((huser.waits _ _).2 (.inl ((hservices.waits _ _).2
        (.inl ((hfirst.waits _ _).2 (.inr hab)))))))
    | @service s b hs hb =>
      exact hkept _ _ (hkept₈ _ _ ((huser.waits _ _).2 (.inl ((hservices.waits _ _).2
        (.inr ⟨List.mem_map.2 ⟨s, hs, rfl⟩,
          mem_ofKinds_of_first (fun _ hid => hids₅ ▸ hid) (by simp) hb⟩)))))
    | rule hfw hrule hb => exact hkept _ _ ((hrules _ hfw _ hrule).2 _ (hservices₇ _ hb))
    | policy hfw hrule => exact hkept _ _ (hrules _ hfw _ hrule).1
    | project hrequest hb => exact hnamed _ hrequest _ hb

/-- A sound plan comes out. -/
theorem Sound.ordered (h : Sound p) : ∃ l, p.ordered = .ok l :=
  (ordered_spec p).1.2 ⟨h.closed, fun id _ => h.acyclic.not_reachesCycle id⟩

/-- **The last check of a plan finds nothing**: what the checks of managed paths have let
through has no cycle, and names nothing that is missing. -/
theorem plan_eq_build (cfg : Requests) : cfg.plan = cfg.build := by
  unfold plan
  cases h : cfg.build with
  | error e => rfl
  | ok p =>
    obtain ⟨l, hl⟩ := (build_spec h).1.ordered
    have houtput : p.output = .ok ⟨l, l.foldl (fun s r => s.add r.action) {}⟩ := by
      rw [output, hl]
      rfl
    rw [ok_bind, houtput]
    rfl

end Requests

end Mise.Bootstrap
