/-
# Paths of the setup branch

`crates/mise-system/src/history/sync/layout.rs`: a file of this machine is known on
the setup branch by a portable path, `config/…` below the configuration directory and
`home/…` below home, with an `@variant` behind the root where the entry has one.
`branch_path` goes one way and takes the configuration directory first; `locate` goes
the other way, over whatever a branch holds.

A portable path is a text, and a path of this machine its components.
-/

import Mathlib.Data.List.Infix
import Mise.Dir
import Mise.Text

namespace Mise.Layout

open Dir

/-- `Roots`; both are absolute. -/
structure Roots where
  home : PathBuf
  configDir : PathBuf
  absoluteHome : home.components.head? = some .rootDir
  absoluteConfigDir : configDir.components.head? = some .rootDir

/-- A component that `is_safe_branch_path` lets by. -/
def isSafeComponent (component : List Char) : Bool :=
  component ≠ [] && component ≠ ['.'] && component ≠ ['.', '.'] &&
    component.map Char.toLower ≠ ".git".toList && !component.contains '\\' &&
      !component.contains ':' && !component.any isControl

/-- `is_safe_branch_path`. -/
def isSafeBranchPath (path : List Char) : Bool :=
  path ≠ [] && (path.splitOn '/').all isSafeComponent

/-- `slash`. -/
def slash (path : Dir) : List Char := ['/'].intercalate (path.map componentText)

/-- `Path::strip_prefix`. -/
def stripPrefix (base path : Dir) : Option Dir :=
  if base.isPrefixOf path then some (path.drop base.length) else none

/-- `Roots::branch_path`. -/
def Roots.branchPath (roots : Roots) (path : PathBuf) (variant : Option (List Char)) :
    Option (List Char) :=
  if variant.any fun name => name.contains '@' || !isSafeBranchPath name || name.contains '/' then
    none
  else
    let found := match stripPrefix roots.configDir.components path.components with
      | some relative => some ("config".toList, relative)
      | none => (stripPrefix roots.home.components path.components).map ("home".toList, ·)
    found.bind fun (root, relative) =>
      let stem := variant.elim root fun name => root ++ '@' :: name
      let path := if relative = [] then stem else stem ++ '/' :: slash relative
      if isSafeBranchPath path then some path else none

/-- `Roots::root_of`. -/
def Roots.rootOf (roots : Roots) (path : PathBuf) : Option PathBuf :=
  if roots.configDir.components.isPrefixOf path.components then some roots.configDir
  else if roots.home.components.isPrefixOf path.components then some roots.home
  else none

/-- `Located`. -/
inductive Located where
  | config (path : Dir)
  | tracked (path : Dir) (variant : Option (List Char))
  | marker
  | unmapped
  deriving DecidableEq

/-- `Located::path`. -/
def Located.path : Located → Option Dir
  | .config path => some path
  | .tracked path _ => some path
  | .marker => none
  | .unmapped => none

/-- The variant of a located path. -/
def Located.variant : Located → Option (List Char)
  | .tracked _ variant => variant
  | _ => none

/-- The end of `Roots::locate`, for what is before and behind the first slash. -/
def Roots.locateBelow (roots : Roots) (stem relative : List Char) : Located :=
  let (root, variant) := match splitOnce '@' stem with
    | some (root, variant) => (root, some variant)
    | none => (stem, none)
  if variant.any fun name => name = [] || name.contains '@' then .unmapped
  else
    let base :=
      if root = "home".toList then some roots.home
      else if root = "config".toList then some roots.configDir
      else none
    match base with
    | none => .unmapped
    | some base =>
      let path := join base.components (String.ofList relative)
      if root = "config".toList ∧ variant = none then .config path else .tracked path variant

/-- `Roots::locate`. -/
def Roots.locate (roots : Roots) (branchPath : List Char) : Located :=
  if isSafeBranchPath branchPath = false then .unmapped
  else if ".mise-history/".toList.isPrefixOf branchPath then .marker
  else
    let (stem, relative) := (splitOnce '/' branchPath).getD (branchPath, [])
    roots.locateBelow stem relative

/-! ### Portable paths -/

/-- The two roots of the branch. -/
inductive Root where
  | home
  | config
  deriving DecidableEq

/-- The name of a root. -/
def Root.name : Root → List Char
  | home => "home".toList
  | config => "config".toList

/-- The directory of a root. -/
def Roots.base (roots : Roots) : Root → Dir
  | .home => roots.home.components
  | .config => roots.configDir.components

/-- A component of a path of this machine that may be on the branch. -/
def SafeName (c : Component) : Prop := ∃ name, c = .normal name ∧ isSafeComponent name = true ∧
  '/' ∉ name

/-- A variant that may be on the branch. -/
def SafeVariant (variant : Option (List Char)) : Prop :=
  ∀ name ∈ variant, name ≠ [] ∧ '@' ∉ name ∧ '/' ∉ name

/-- The portable path of what is at `relative` below a root. -/
def portable (root : Root) (variant : Option (List Char)) (relative : Dir) : List Char :=
  let stem := variant.elim root.name fun name => root.name ++ '@' :: name
  if relative = [] then stem else stem ++ '/' :: slash relative

/-- A root with its variant. -/
def stemOf (root : Root) (variant : Option (List Char)) : List Char :=
  variant.elim root.name fun name => root.name ++ '@' :: name

theorem notMem_stemOf {root : Root} {variant : Option (List Char)} (h : SafeVariant variant) :
    '/' ∉ stemOf root variant := by
  have hname : '/' ∉ root.name := by cases root <;> decide
  cases variant with
  | none => exact hname
  | some name =>
    obtain ⟨-, -, hslash⟩ := h name rfl
    simp [stemOf, hname, hslash]

theorem notMem_componentText {relative : Dir} (h : ∀ c ∈ relative, SafeName c) :
    ∀ l ∈ relative.map componentText, '/' ∉ l := by
  intro l hl
  obtain ⟨c, hc, rfl⟩ := List.mem_map.1 hl
  obtain ⟨name, rfl, -, hslash⟩ := h c hc
  exact hslash

theorem portable_eq (root : Root) (variant : Option (List Char)) (relative : Dir) :
    portable root variant relative =
      ['/'].intercalate (stemOf root variant :: relative.map componentText) := by
  rw [portable]
  by_cases hnil : relative = []
  · subst hnil
    rw [List.map_nil, List.intercalate_singleton]
    rfl
  · rw [if_neg hnil, List.intercalate_cons_of_ne_nil (by simpa using hnil), List.append_assoc]
    rfl

/-- The pieces of a portable path. -/
theorem splitOn_portable {root : Root} {variant : Option (List Char)} {relative : Dir}
    (hvariant : SafeVariant variant) (hrelative : ∀ l ∈ relative.map componentText, '/' ∉ l) :
    (portable root variant relative).splitOn '/' =
      stemOf root variant :: relative.map componentText := by
  rw [portable_eq]
  exact List.splitOn_intercalate '/'
    (List.forall_mem_cons.2 ⟨notMem_stemOf hvariant, hrelative⟩) (List.cons_ne_nil _ _)

theorem componentText_ne {name : List Char} (h : isSafeComponent name = true) :
    name ≠ [] ∧ name ≠ ['.'] ∧ name ≠ ['.', '.'] := by
  simp only [isSafeComponent, Bool.and_eq_true, decide_eq_true_eq] at h
  exact ⟨h.1.1.1.1.1.1, h.1.1.1.1.1.2, h.1.1.1.1.2⟩

/-- What is below a root is read back from its text. -/
theorem names_slash {relative : Dir} (h : ∀ c ∈ relative, SafeName c) :
    names (String.ofList (slash relative)) = relative := by
  by_cases hnil : relative = []
  · subst hnil
    rfl
  · have hkept : (relative.map componentText).filter (fun n => n ≠ [] ∧ n ≠ ['.']) =
        relative.map componentText := by
      refine List.filter_eq_self.2 fun l hl => ?_
      obtain ⟨c, hc, rfl⟩ := List.mem_map.1 hl
      obtain ⟨name, rfl, hsafe, -⟩ := h c hc
      exact decide_eq_true ⟨(componentText_ne hsafe).1, (componentText_ne hsafe).2.1⟩
    rw [names, String.toList_ofList, slash,
      List.splitOn_intercalate '/' (notMem_componentText h) (by simpa using hnil), hkept,
      List.map_map]
    refine (List.map_congr_left fun c hc => ?_).trans (List.map_id _)
    obtain ⟨name, rfl, hsafe, -⟩ := h c hc
    exact if_neg (componentText_ne hsafe).2.2

theorem head_slash {relative : Dir} (h : ∀ c ∈ relative, SafeName c) :
    (String.ofList (slash relative)).toList.head? ≠ some '/' := by
  rw [String.toList_ofList, slash]
  cases relative with
  | nil => exact fun h => nomatch h
  | cons c relative =>
    obtain ⟨name, rfl, hsafe, hslash⟩ := h c List.mem_cons_self
    obtain ⟨x, xs, rfl⟩ := List.exists_cons_of_ne_nil (componentText_ne hsafe).1
    rw [List.map_cons, componentText]
    cases relative.map componentText with
    | nil =>
      rw [List.intercalate_singleton]
      rintro ⟨⟩
      exact hslash List.mem_cons_self
    | cons l ls =>
      rw [List.intercalate_cons_cons]
      rintro ⟨⟩
      exact hslash List.mem_cons_self

/-- Where a portable path is located. -/
def locatedAt (roots : Roots) (root : Root) (variant : Option (List Char)) (relative : Dir) :
    Located :=
  if root = .config ∧ variant = none then .config (roots.base root ++ relative)
  else .tracked (roots.base root ++ relative) variant

@[simp] theorem path_locatedAt (roots : Roots) (root : Root) (variant : Option (List Char))
    (relative : Dir) :
    (locatedAt roots root variant relative).path = some (roots.base root ++ relative) := by
  rw [locatedAt]
  split <;> rfl

@[simp] theorem variant_locatedAt (roots : Roots) (root : Root) (variant : Option (List Char))
    (relative : Dir) : (locatedAt roots root variant relative).variant = variant := by
  rw [locatedAt]
  split
  · case isTrue h => exact h.2.symm
  · rfl

/-- **A portable path is located below its root.** -/
theorem locate_portable (roots : Roots) {root : Root} {variant : Option (List Char)}
    {relative : Dir} (hvariant : SafeVariant variant) (hrelative : ∀ c ∈ relative, SafeName c)
    (hsafe : isSafeBranchPath (portable root variant relative) = true) :
    roots.locate (portable root variant relative) = locatedAt roots root variant relative := by
  have hstem : stemOf root variant ≠ [] ∧ (stemOf root variant).head? ≠ some '.' := by
    cases root <;> cases variant <;> simp [stemOf, Root.name]
  have hmarker : ".mise-history/".toList.isPrefixOf (portable root variant relative) = false := by
    obtain ⟨c, rest, hcons⟩ := List.exists_cons_of_ne_nil hstem.1
    have hc : c ≠ '.' := fun h => hstem.2 (by rw [hcons, h]; rfl)
    have hhead : ∃ rest', portable root variant relative = c :: rest' := by
      rw [portable, ← stemOf, hcons]
      split
      · exact ⟨_, rfl⟩
      · exact ⟨_, rfl⟩
    obtain ⟨rest', hhead⟩ := hhead
    rw [hhead]
    exact Bool.eq_false_iff.2 fun h => hc (List.cons_prefix_cons.1
      (List.isPrefixOf_iff_prefix.1 h)).1.symm
  have hsplit : (splitOnce '/' (portable root variant relative)).getD
      (portable root variant relative, []) = (stemOf root variant, slash relative) := by
    rw [portable, ← stemOf]
    split
    · case isTrue h =>
      rw [splitOnce_eq_none.2 (notMem_stemOf hvariant), h]
      rfl
    · rw [splitOnce_append (notMem_stemOf hvariant)]
      rfl
  have hat : '@' ∉ root.name := by cases root <;> decide
  have hjoin : join (roots.base root) (String.ofList (slash relative)) =
      roots.base root ++ relative := by
    rw [join, if_neg (head_slash hrelative), names_slash hrelative]
  have hroot : splitOnce '@' (stemOf root variant) = variant.map (root.name, ·) := by
    cases variant with
    | none => exact splitOnce_eq_none.2 hat
    | some name => exact splitOnce_append hat name
  have hvalid : variant.any (fun name => name = [] || name.contains '@') = false := by
    cases variant with
    | none => rfl
    | some name =>
      obtain ⟨hne, hname, -⟩ := hvariant name rfl
      simp [hne, hname]
  have hbase : ∃ base, (if root.name = "home".toList then some roots.home
      else if root.name = "config".toList then some roots.configDir else none) = some base ∧
        base.components = roots.base root := by
    cases root
    · exact ⟨_, if_pos rfl, rfl⟩
    · exact ⟨roots.configDir, by rw [if_neg (by decide)]; exact if_pos rfl, rfl⟩
  obtain ⟨base, hbase, hcomponents⟩ := hbase
  have hconfig : root.name = "config".toList ↔ root = .config := by
    cases root <;> decide
  rw [Roots.locate, hsafe, if_neg (by decide), hmarker, if_neg (by decide), hsplit]
  dsimp only
  rw [Roots.locateBelow, hroot]
  have hfound : (match variant.map (root.name, ·) with
      | some (root, variant) => (root, some variant)
      | none => (stemOf root variant, none)) = (root.name, variant) := by
    cases variant <;> rfl
  rw [hfound]
  dsimp only
  rw [hvalid, if_neg (by decide), hbase]
  dsimp only
  rw [hcomponents, hjoin, locatedAt]
  exact if_congr (and_congr_left' hconfig) rfl rfl

/-- The part of a branch path that `locate` reads the root from. -/
theorem exists_stemOf {roots : Roots} {stem relative : List Char} {d : Dir} (hslash : '/' ∉ stem)
    (h : (roots.locateBelow stem relative).path = some d) :
    ∃ root variant, SafeVariant variant ∧ stem = stemOf root variant := by
  have hname : ∀ {name : List Char} {variant : Option (List Char)},
      (match (if name = "home".toList then some roots.home
          else if name = "config".toList then some roots.configDir else none) with
        | none => Located.unmapped
        | some base =>
          if name = "config".toList ∧ variant = none then
            .config (join base.components (String.ofList relative))
          else .tracked (join base.components (String.ofList relative)) variant).path = some d →
        ∃ root : Root, name = root.name := by
    intro name variant h
    by_cases hhome : name = "home".toList
    · exact ⟨.home, hhome⟩
    · rw [if_neg hhome] at h
      by_cases hconfig : name = "config".toList
      · exact ⟨.config, hconfig⟩
      · rw [if_neg hconfig] at h
        exact nomatch h
  rw [Roots.locateBelow] at h
  cases hat : splitOnce '@' stem with
  | none =>
    rw [hat] at h
    obtain ⟨root, hroot⟩ := hname h
    exact ⟨root, none, (fun _ h => nomatch h), hroot⟩
  | some parts =>
    obtain ⟨name, variant⟩ := parts
    rw [hat] at h
    dsimp only [Option.any_some] at h
    split at h
    · exact nomatch h
    · case isFalse hvalid =>
      obtain ⟨root, rfl⟩ := hname h
      simp only [Bool.or_eq_true, decide_eq_true_eq, List.contains_iff_mem, not_or] at hvalid
      have hstem := splitOnce_eq_some hat
      refine ⟨root, some variant, ?_, hstem⟩
      rintro _ ⟨⟩
      exact ⟨hvalid.1, hvalid.2, fun hmem => hslash (by rw [hstem]; simp [hmem])⟩

/-- **Whatever is located has a portable path.** -/
theorem exists_portable {roots : Roots} {p : List Char} {d : Dir}
    (h : (roots.locate p).path = some d) : ∃ root variant relative, SafeVariant variant ∧
      (∀ c ∈ relative, SafeName c) ∧ isSafeBranchPath p = true ∧
        p = portable root variant relative := by
  rw [Roots.locate] at h
  split at h
  · exact nomatch h
  split at h
  · exact nomatch h
  case isFalse.isFalse hunsafe hmarker =>
    have hsafe : isSafeBranchPath p = true := (Bool.not_eq_false _).mp hunsafe
    cases hsplit : splitOnce '/' p with
    | none =>
      rw [hsplit] at h
      obtain ⟨root, variant, hvariant, hstem⟩ := exists_stemOf (splitOnce_eq_none.1 hsplit) h
      exact ⟨root, variant, [], hvariant, (fun _ h => nomatch h), hsafe, hstem⟩
    | some parts =>
      obtain ⟨stem, relative⟩ := parts
      rw [hsplit] at h
      have hslash := notMem_of_splitOnce hsplit
      obtain ⟨root, variant, hvariant, hstem⟩ := exists_stemOf hslash h
      have hp := splitOnce_eq_some hsplit
      have hpieces : p.splitOn '/' = stem :: relative.splitOn '/' := by
        rw [hp]
        exact List.splitOn_append_cons_self_of_not_mem hslash _
      have htexts : ((relative.splitOn '/').map Component.normal).map componentText =
          relative.splitOn '/' := by
        rw [List.map_map]
        exact List.map_id _
      refine ⟨root, variant, (relative.splitOn '/').map .normal, hvariant, ?_, hsafe, ?_⟩
      · intro c hc
        obtain ⟨name, hname, rfl⟩ := List.mem_map.1 hc
        rw [isSafeBranchPath, hpieces, List.all_cons] at hsafe
        simp only [Bool.and_eq_true] at hsafe
        exact ⟨name, rfl, List.all_eq_true.1 hsafe.2.2 name hname, notMem_of_mem_splitOn hname⟩
      · rw [portable_eq, htexts, List.intercalate_cons_of_ne_nil (List.splitOn_ne_nil _ _),
          List.intercalate_splitOn, ← hstem, hp, List.append_assoc]
        rfl

/-! ### Paths of this machine -/

/-- Below an absolute directory, components are names. -/
theorem isSegment_of_components {path : PathBuf} {base relative : Dir}
    (hbase : base.head? = some .rootDir) (h : path.components = base ++ relative) :
    ∀ c ∈ relative, IsSegment c := by
  obtain ⟨b, rfl⟩ : ∃ b, base = .rootDir :: b := by
    cases base with
    | nil => cases hbase
    | cons c b => exact ⟨b, by rw [Option.some.inj hbase]⟩
  rw [PathBuf.components] at h
  intro c hc
  -- what is in front of the names is at most one component
  have hmem : ∀ lead : Dir, lead.length ≤ 1 →
      lead ++ names path.raw = .rootDir :: (b ++ relative) → c ∈ names path.raw := by
    intro lead hlead heq
    cases lead with
    | nil =>
      rw [List.nil_append] at heq
      rw [heq]
      exact List.mem_cons_of_mem _ (List.mem_append_right _ hc)
    | cons d lead =>
      obtain rfl := List.length_eq_zero_iff.1 (Nat.le_zero.1 (Nat.le_of_succ_le_succ hlead))
      have hnames : names path.raw = b ++ relative := (List.cons.inj heq).2
      rw [hnames]
      exact List.mem_append_right _ hc
  refine isSegment_of_mem_names (hmem _ ?_ h)
  split
  · exact le_rfl
  · split
    · exact le_rfl
    · exact Nat.zero_le _

theorem stripPrefix_eq_some {base path relative : Dir} :
    stripPrefix base path = some relative ↔ path = base ++ relative := by
  rw [stripPrefix]
  constructor
  · intro h
    split at h
    · case isTrue hprefix =>
      obtain ⟨rest, rfl⟩ := List.isPrefixOf_iff_prefix.1 hprefix
      rw [List.drop_left] at h
      rw [Option.some.inj h]
    · exact nomatch h
  · rintro rfl
    rw [if_pos (List.isPrefixOf_iff_prefix.2 (List.prefix_append _ _)), List.drop_left]

/-- **A path of this machine has the portable path below its root.** -/
theorem branchPath_eq_some {roots : Roots} {path : PathBuf} {variant : Option (List Char)}
    {p : List Char} (h : roots.branchPath path variant = some p) :
    ∃ root relative, SafeVariant variant ∧ (∀ c ∈ relative, SafeName c) ∧
      isSafeBranchPath p = true ∧ p = portable root variant relative ∧
        path.components = roots.base root ++ relative := by
  rw [Roots.branchPath] at h
  split at h
  · exact nomatch h
  case isFalse hnames =>
    have hvariant : SafeVariant variant := by
      rintro name ⟨⟩
      simp only [Option.any_some, Bool.or_eq_true, List.contains_iff_mem, not_or,
        Bool.not_eq_true', Bool.not_eq_false] at hnames
      refine ⟨?_, hnames.1.1, hnames.2⟩
      rintro rfl
      exact absurd hnames.1.2 (by decide)
    obtain ⟨⟨name, relative⟩, hfound, h⟩ := Option.bind_eq_some_iff.1 h
    change (if isSafeBranchPath (if relative = [] then variant.elim name fun v => name ++ '@' :: v
      else (variant.elim name fun v => name ++ '@' :: v) ++ '/' :: slash relative) = true then _
      else none) = some p at h
    by_cases hsafe : isSafeBranchPath (if relative = [] then
        variant.elim name fun v => name ++ '@' :: v
      else (variant.elim name fun v => name ++ '@' :: v) ++ '/' :: slash relative) = true
    · rw [if_pos hsafe] at h
      obtain rfl := Option.some.inj h
      have hroot : ∃ root : Root, name = root.name ∧
          path.components = roots.base root ++ relative := by
        split at hfound
        · case h_1 relative' hstrip =>
          obtain ⟨rfl, rfl⟩ := Prod.mk.inj (Option.some.inj hfound)
          exact ⟨.config, rfl, stripPrefix_eq_some.1 hstrip⟩
        · obtain ⟨relative', hstrip, heq⟩ := Option.map_eq_some_iff.1 hfound
          obtain ⟨rfl, rfl⟩ := Prod.mk.inj heq
          exact ⟨.home, rfl, stripPrefix_eq_some.1 hstrip⟩
      obtain ⟨root, rfl, hcomponents⟩ := hroot
      have hbase : (roots.base root).head? = some .rootDir := by
        cases root
        · exact roots.absoluteHome
        · exact roots.absoluteConfigDir
      have hsegments := isSegment_of_components hbase hcomponents
      have htexts : ∀ l ∈ relative.map componentText, '/' ∉ l := by
        intro l hl
        obtain ⟨c, hc, rfl⟩ := List.mem_map.1 hl
        exact (hsegments c hc).1
      have hpieces : (portable root variant relative).splitOn '/' =
          stemOf root variant :: relative.map componentText := splitOn_portable hvariant htexts
      refine ⟨root, relative, hvariant, fun c hc => ?_, hsafe, rfl, hcomponents⟩
      have hall := hsafe
      rw [isSafeBranchPath, Bool.and_eq_true] at hall
      have hname := List.all_eq_true.1 (hpieces ▸ hall.2) (componentText c)
        (List.mem_cons_of_mem _ (List.mem_map_of_mem hc))
      obtain ⟨hslash, -, -, hc'⟩ := hsegments c hc
      rw [if_neg (componentText_ne hname).2.2] at hc'
      exact ⟨componentText c, hc'.symm, hname, hslash⟩
    · rw [if_neg hsafe] at h
      exact nomatch h

/-! ### Both ways -/

/-- **The mapping is a bijection of safe paths**: it leads back, it never leaves the roots, and
no file of this machine has two portable paths of one variant. -/
structure Bijection (roots : Roots) : Prop where
  back : ∀ path variant p, roots.branchPath path variant = some p →
    (roots.locate p).path = some path.components ∧ (roots.locate p).variant = variant
  inside : ∀ p, roots.locate p = .unmapped ∨ roots.locate p = .marker ∨ ∃ root relative,
    (roots.locate p).path = some (roots.base root ++ relative) ∧ ∀ c ∈ relative, SafeName c
  injective : ∀ p q d, (roots.locate p).path = some d → (roots.locate q).path = some d →
    (roots.locate p).variant = (roots.locate q).variant → p = q

/-- One root is the other or is below it, by names that may be on the branch. -/
def Roots.Nested (roots : Roots) : Prop :=
  ∃ relative : Dir, (∀ c ∈ relative, SafeName c) ∧
    (roots.configDir.components = roots.home.components ++ relative ∨
      roots.home.components = roots.configDir.components ++ relative)

theorem path_eq_none {l : Located} (h : l.path = none) : l = .unmapped ∨ l = .marker := by
  cases l with
  | config => exact nomatch h
  | tracked => exact nomatch h
  | marker => exact .inr rfl
  | unmapped => exact .inl rfl

theorem isSafeBranchPath_portable {root : Root} {relative : Dir}
    (h : ∀ c ∈ relative, SafeName c) : isSafeBranchPath (portable root none relative) = true := by
  have hvariant : SafeVariant none := nofun
  have hpieces : (portable root none relative).splitOn '/' =
      stemOf root none :: relative.map componentText :=
    splitOn_portable hvariant (notMem_componentText h)
  have hne : portable root none relative ≠ [] := by
    intro hnil
    rw [hnil] at hpieces
    cases root <;> exact absurd (List.cons.inj hpieces).1 (by decide)
  rw [isSafeBranchPath, hpieces]
  refine Bool.and_eq_true_iff.2 ⟨decide_eq_true hne, List.all_eq_true.2 ?_⟩
  refine List.forall_mem_cons.2 ⟨?_, fun l hl => ?_⟩
  · cases root <;> decide
  · obtain ⟨c, hc, rfl⟩ := List.mem_map.1 hl
    obtain ⟨name, rfl, hsafe, -⟩ := h c hc
    exact hsafe

/-- The portable paths of the two roots differ. -/
theorem portable_config_ne_home (r r' : Dir) :
    portable .config none r ≠ portable .home none r' := by
  intro h
  have hhead : ∀ root r, (portable root none r).head? = (Root.name root).head? := by
    intro root r
    rw [portable]
    split <;> cases root <;> rfl
  have hboth : Root.config.name.head? = Root.home.name.head? := by
    rw [← hhead .config r, h, hhead .home r']
  exact absurd hboth (by decide)

theorem nested_of_append_eq {roots : Roots} {r r' : Dir} (hr : ∀ c ∈ r, SafeName c)
    (hr' : ∀ c ∈ r', SafeName c)
    (h : roots.home.components ++ r = roots.configDir.components ++ r') : roots.Nested := by
  rcases List.append_eq_append_iff.1 h with ⟨t, hconfig, hrel⟩ | ⟨t, hhome, hrel⟩
  · exact ⟨t, fun c hc => hr c (hrel ▸ List.mem_append_left _ hc), .inl hconfig⟩
  · exact ⟨t, fun c hc => hr' c (hrel ▸ List.mem_append_left _ hc), .inr hhome⟩

/-- **The mapping is a bijection of safe paths exactly when neither root is inside the other.** -/
theorem bijection_iff (roots : Roots) : Bijection roots ↔ ¬roots.Nested := by
  constructor
  · rintro h ⟨relative, hrelative, hnested⟩
    have hlocate : ∀ root relative, (∀ c ∈ relative, SafeName c) →
        (roots.locate (portable root none relative)).path = some (roots.base root ++ relative) ∧
          (roots.locate (portable root none relative)).variant = none := by
      intro root relative hrelative
      have hvariant : SafeVariant none := nofun
      rw [locate_portable roots hvariant hrelative (isSafeBranchPath_portable hrelative)]
      exact ⟨path_locatedAt .., variant_locatedAt ..⟩
    have hnil : ∀ c ∈ ([] : Dir), SafeName c := nofun
    rcases hnested with hconfig | hhome
    · have hroot := hlocate .config [] hnil
      have hbelow := hlocate .home relative hrelative
      rw [Roots.base, List.append_nil, hconfig] at hroot
      exact portable_config_ne_home _ _
        (h.injective _ _ _ hroot.1 hbelow.1 (hroot.2.trans hbelow.2.symm))
    · have hroot := hlocate .home [] hnil
      have hbelow := hlocate .config relative hrelative
      rw [Roots.base, List.append_nil, hhome] at hroot
      exact portable_config_ne_home _ _
        (h.injective _ _ _ hbelow.1 hroot.1 (hbelow.2.trans hroot.2.symm))
  · intro h
    constructor
    · intro path variant p hp
      obtain ⟨root, relative, hvariant, hrelative, hsafe, rfl, hcomponents⟩ := branchPath_eq_some hp
      rw [locate_portable roots hvariant hrelative hsafe, path_locatedAt, variant_locatedAt,
        hcomponents]
      exact ⟨rfl, rfl⟩
    · intro p
      cases hpath : (roots.locate p).path with
      | none => exact (path_eq_none hpath).imp_right .inl
      | some d =>
        obtain ⟨root, variant, relative, hvariant, hrelative, hsafe, rfl⟩ := exists_portable hpath
        rw [locate_portable roots hvariant hrelative hsafe, path_locatedAt] at hpath
        exact .inr (.inr ⟨root, relative, hpath.symm, hrelative⟩)
    · intro p q d hp hq hvariants
      obtain ⟨root, variant, r, hvariant, hr, hsafe, rfl⟩ := exists_portable hp
      obtain ⟨root', variant', r', hvariant', hr', hsafe', rfl⟩ := exists_portable hq
      rw [locate_portable roots hvariant hr hsafe] at hp hvariants
      rw [locate_portable roots hvariant' hr' hsafe'] at hq hvariants
      rw [variant_locatedAt, variant_locatedAt] at hvariants
      rw [path_locatedAt] at hp hq
      have heq := Option.some.inj (hp.trans hq.symm)
      subst hvariants
      cases root <;> cases root'
      · rw [List.append_cancel_left heq]
      · exact absurd (nested_of_append_eq hr hr' heq) h
      · exact absurd (nested_of_append_eq hr' hr heq.symm) h
      · rw [List.append_cancel_left heq]

/-- The roots of a machine whose configuration directory is below home. -/
def nestedRoots : Roots where
  home := ⟨"/home/u"⟩
  configDir := ⟨"/home/u/.config/mise"⟩
  absoluteHome := by decide
  absoluteConfigDir := by decide

/-- Two portable paths of one file of this machine. -/
theorem locate_config_twice :
    (nestedRoots.locate "config/config.toml".toList).path =
        (nestedRoots.locate "home/.config/mise/config.toml".toList).path ∧
      (nestedRoots.locate "config/config.toml".toList).path ≠ none ∧
      (nestedRoots.locate "config/config.toml".toList).variant =
        (nestedRoots.locate "home/.config/mise/config.toml".toList).variant ∧
      "config/config.toml".toList ≠ "home/.config/mise/config.toml".toList := by
  decide

end Mise.Layout
