/-
# Lockfiles that are not trusted

`Lockfile::drop_what_needs_trust` reduces a lockfile whose config is not trusted
to its pins: what names a place to download from is cleared, and so are the
dependency graphs, except for an `aube` graph that resolves every package from
the registry by integrity (`aube_graph_names_only_registry`).

That a backend may not be named without trust (`locked_backend_needs_trust`,
which looks into the registry and the installed tools) and the reading of a
graph's file are parameters.

The two-run statement is `Lockfile.DifferOnly.drop`: lockfiles that differ only
in locations are reduced to one lockfile.  The URL of SLSA provenance is part of
the recorded provenance, which stays.
-/

import Mise.Lockfile.Basic
import Mise.Text

namespace Mise

open Lib
open Std (ExtTreeMap)

/-! ### Texts -/

/-- `split(c).next()`. -/
def before (c : Char) (cs : List Char) : List Char := cs.takeWhile (· ≠ c)

/-- ASCII letters, digits and the characters given. -/
def plainChar (more : List Char) (c : Char) : Bool := c.isAlphanum || c ∈ more

/-- `part_ok`. -/
def partOk (s : List Char) : Bool := !s.isEmpty && s.all (plainChar ['.', '_', '~', '-'])

/-- `name_ok`. -/
def nameOk (name : List Char) : Bool :=
  match name with
  | '@' :: rest => (splitOnce '/' rest).any fun p => partOk p.1 && partOk p.2
  | _ => partOk name

/-- `version_ok`: the release, then an optional peer suffix. -/
def versionOk (version : List Char) : Bool :=
  let p := (splitOnce '(' version).getD (version, [])
  p.1.head?.any Char.isDigit && p.1.all (plainChar ['.', '+', '-']) &&
    p.2.all (plainChar ['.', '_', '~', '-', '@', '/', '+', '(', ')', ' '])

/-- `specifier_ok`. -/
def specifierOk (specifier : List Char) : Bool :=
  !specifier.isEmpty &&
    specifier.all (plainChar ['.', '^', '~', '<', '>', '=', '|', '*', '+', '-', ' '])

/-! ### The graph -/

/-- `package_key`: `name@version` with the peer suffix dropped. -/
def packageKey (name version : List Char) : Option String :=
  if nameOk name && versionOk version then
    some (String.ofList (name ++ '@' :: before '(' version))
  else none

/-- `has_package`. -/
def hasPackage (packages : TomlTable) (name version : List Char) : Bool :=
  (packageKey name version).any fun key => (packages.lookup key).isSome

/-- `split_key`. -/
def splitKey (key : List Char) : Option (List Char × List Char) := do
  let release := before '(' key
  let (name, version) ← rsplitOnce '@' release
  let peers := key.drop release.length
  if versionOk (version ++ peers) then some (name, version) else none

/-- The sections a registry graph may have. -/
def graphSections : List String :=
  ["lockfileVersion", "settings", "importers", "packages", "snapshots", "time"]

/-- The sections that list dependencies. -/
def dependencySections : List String :=
  ["dependencies", "devDependencies", "optionalDependencies", "peerDependencies"]

/-- The resolution of a package is one non-empty integrity, and it is no alias. -/
def packageOk (package : TomlValue) : Bool :=
  (package.get "aliasOf").isNone &&
    ((package.get "resolution").bind TomlValue.asTable).any fun resolution =>
      resolution.length == 1 &&
        ((resolution.lookup "integrity").bind TomlValue.asStr).any fun integrity =>
          !integrity.isEmpty

/-- The key of an entry of `packages` or `snapshots` names a package. -/
def keyOk (packages : TomlTable) (key : String) : Bool :=
  (splitKey key.toList).any fun p => hasPackage packages p.1 p.2

/-- Every dependency that an importer or a snapshot lists passes a check. -/
def dependenciesOk (ok : String → TomlValue → Bool) (owner : TomlValue) : Bool :=
  dependencySections.all fun sec =>
    (owner.get sec).all fun deps =>
      deps.asTable.any fun entries => entries.all fun e => ok e.1 e.2

/-- The check of an importer's dependency. -/
def importerDependencyOk (packages : TomlTable) (name : String) (dep : TomlValue) : Bool :=
  ((dep.get "specifier").bind TomlValue.asStr).any (specifierOk ·.toList) &&
    ((dep.get "version").bind TomlValue.asStr).any fun version =>
      hasPackage packages name.toList version.toList

/-- The check of a snapshot's dependency. -/
def snapshotDependencyOk (packages : TomlTable) (name : String) (version : TomlValue) : Bool :=
  version.asStr.any fun version => hasPackage packages name.toList version.toList

/-- `aube_graph_names_only_registry`. -/
def aubeGraphNamesOnlyRegistry (lock : AubeLock) : Bool :=
  let table := fun name => (lock.graph.lookup name).bind TomlValue.asTable
  match table "importers", table "packages" with
  | some importers, some packages =>
    lock.graph.all (fun e => e.1 ∈ graphSections) &&
    packages.all (fun e => keyOk packages e.1 && packageOk e.2) &&
    importers.all (fun e => dependenciesOk (importerDependencyOk packages) e.2) &&
    (table "snapshots").all fun snapshots => snapshots.all fun e =>
      keyOk packages e.1 && dependenciesOk (snapshotDependencyOk packages) e.2
  | _, _ => false

/-! ### The reduction -/

/-- The artifact without the places it is downloaded from. -/
def ArtifactInfo.withoutUrls (a : ArtifactInfo) : ArtifactInfo :=
  { a with url := "", urlApi := none }

/-- The platform's record without the places to download from. -/
def PlatformInfo.withoutUrls (info : PlatformInfo) : PlatformInfo :=
  { info with
    url := none
    urlApi := none
    condaDeps := none
    additionalArtifacts := info.additionalArtifacts.map (·.withoutUrls) }

section Trust

variable (needsTrust : String → String → Bool)
  (read : String → String → String → Option AubeLock)

/-- The graph stays without trust. -/
def aubeAccepted (graph : GraphRef AubeLock) : Bool :=
  (graph.load read).any aubeGraphNamesOnlyRegistry

/-- What is left of an entry. -/
def LockfileTool.dropWhatNeedsTrust (short : String) (entry : LockfileTool) :
    Option LockfileTool :=
  if entry.backend.any (needsTrust short) then none
  else some { entry with
    uv := none
    aube := entry.aube.filter (aubeAccepted read)
    platforms := entry.platforms.map fun _ info => info.withoutUrls }

/-- `Lockfile::drop_what_needs_trust`. -/
def Lockfile.dropWhatNeedsTrust (l : Lockfile) : Lockfile :=
  { l with
    tools := (l.tools.map fun short entries =>
      entries.filterMap (LockfileTool.dropWhatNeedsTrust needsTrust read short)).filter
        fun _ entries => !entries.isEmpty
    condaPackages := ∅ }

end Trust

/-! ### What may differ -/

section Differ

variable (R : Option ProvenanceType → Option ProvenanceType → Prop)

/-- Artifacts that differ in their URLs alone, and in provenance as `R` allows. -/
def ArtifactInfo.DifferOnly (a b : ArtifactInfo) : Prop :=
  ∃ url urlApi provenance, R a.provenance provenance ∧
    b = { a with url := url, urlApi := urlApi, provenance := provenance }

/-- Platform records that differ in URLs and conda dependencies alone, and in
provenance as `R` allows. -/
def PlatformInfo.DifferOnly (a b : PlatformInfo) : Prop :=
  ∃ url urlApi condaDeps provenance additionalArtifacts, R a.provenance provenance ∧
    List.Forall₂ (ArtifactInfo.DifferOnly R) a.additionalArtifacts additionalArtifacts ∧
    b = { a with
      url := url
      urlApi := urlApi
      condaDeps := condaDeps
      provenance := provenance
      additionalArtifacts := additionalArtifacts }

/-- The two maps have the same keys, with related values. -/
def MapsRelate {ν : Type} (S : ν → ν → Prop) (m m' : BTreeMap String ν) : Prop :=
  ∀ k : String, Option.Rel S m[k]? m'[k]?

variable (read : String → String → String → Option AubeLock)

/-- Entries that differ only where a location is named: in their platforms'
records, the `uv` graph and an `aube` graph that is not accepted. -/
def LockfileTool.DifferOnly (a b : LockfileTool) : Prop :=
  ∃ platforms aube uv, MapsRelate (PlatformInfo.DifferOnly R) a.platforms platforms ∧
    (aube = a.aube ∨
      (a.aube.all fun g => !aubeAccepted read g) ∧ aube.all fun g => !aubeAccepted read g) ∧
    b = { a with platforms := platforms, aube := aube, uv := uv }

/-- **Lockfiles that differ only in places naming a download location.** -/
def Lockfile.DifferOnly (l l' : Lockfile) : Prop :=
  ∃ tools condaPackages,
    MapsRelate (List.Forall₂ (LockfileTool.DifferOnly R read)) l.tools tools ∧
    l' = { l with tools := tools, condaPackages := condaPackages }

end Differ

/-- Provenance that differs in the URL of SLSA provenance alone. -/
def SameButSlsaUrl (p q : Option ProvenanceType) : Prop :=
  p = q ∨ ∃ url url', p = some (.slsa url) ∧ q = some (.slsa url')

/-- Provenance without the URL. -/
def ProvenanceType.withoutUrl : ProvenanceType → ProvenanceType
  | slsa _ => slsa none
  | p => p

/-! ### Provenance aside -/

section MapProvenance

variable (f : Option ProvenanceType → Option ProvenanceType)

/-- Change the provenance of an artifact. -/
def ArtifactInfo.mapProvenance (a : ArtifactInfo) : ArtifactInfo :=
  { a with provenance := f a.provenance }

/-- Change the provenance of a platform and of its further artifacts. -/
def PlatformInfo.mapProvenance (info : PlatformInfo) : PlatformInfo :=
  { info with
    provenance := f info.provenance
    additionalArtifacts := info.additionalArtifacts.map (·.mapProvenance f) }

/-- Change the provenance of every artifact. -/
def LockfileTool.mapProvenance (tool : LockfileTool) : LockfileTool :=
  { tool with platforms := tool.platforms.map fun _ info => info.mapProvenance f }

/-- Change the provenance of every artifact in the file. -/
def Lockfile.mapProvenance (l : Lockfile) : Lockfile :=
  { l with tools := l.tools.map fun _ entries => entries.map (·.mapProvenance f) }

theorem Lockfile.mapProvenance_id (l : Lockfile) : l.mapProvenance id = l := by
  have hinfo : ∀ info : PlatformInfo, info.mapProvenance id = info := by
    intro info
    have hart : (fun a : ArtifactInfo => a.mapProvenance id) = id := rfl
    simp only [PlatformInfo.mapProvenance, hart, id, List.map_id']
  have htool : ∀ t : LockfileTool, t.mapProvenance id = t := by
    intro t
    have hplatforms : t.platforms.map (fun _ info => info.mapProvenance id) = t.platforms := by
      refine ExtTreeMap.ext_getElem? fun k => ?_
      rw [ExtTreeMap.getElem?_map]
      cases t.platforms[k]? with
      | none => rfl
      | some info => exact congrArg some (hinfo info)
    simp only [LockfileTool.mapProvenance, hplatforms]
  have htools : l.tools.map (fun _ entries => entries.map (·.mapProvenance id)) = l.tools := by
    refine ExtTreeMap.ext_getElem? fun k => ?_
    rw [ExtTreeMap.getElem?_map]
    cases l.tools[k]? with
    | none => rfl
    | some entries =>
      have hlist : entries.map (·.mapProvenance id) = entries := by
        conv_rhs => rw [← List.map_id entries]
        exact List.map_congr_left fun t _ => htool t
      exact congrArg some hlist
  simp only [Lockfile.mapProvenance, htools]

variable {f} {R : Option ProvenanceType → Option ProvenanceType → Prop}

theorem ArtifactInfo.DifferOnly.withoutUrls (hR : ∀ p q, R p q → f p = f q) {a b : ArtifactInfo}
    (h : DifferOnly R a b) : a.withoutUrls.mapProvenance f = b.withoutUrls.mapProvenance f := by
  obtain ⟨url, urlApi, provenance, hprov, rfl⟩ := h
  simp only [ArtifactInfo.withoutUrls, mapProvenance, hR _ _ hprov]

theorem PlatformInfo.DifferOnly.withoutUrls (hR : ∀ p q, R p q → f p = f q) {a b : PlatformInfo}
    (h : DifferOnly R a b) : a.withoutUrls.mapProvenance f = b.withoutUrls.mapProvenance f := by
  obtain ⟨url, urlApi, condaDeps, provenance, arts, hprov, harts, rfl⟩ := h
  have hmap : a.additionalArtifacts.map (fun x => x.withoutUrls.mapProvenance f) =
      arts.map fun x => x.withoutUrls.mapProvenance f := by
    generalize a.additionalArtifacts = old at harts
    induction harts with
    | nil => rfl
    | cons hab _ ih => rw [List.map_cons, List.map_cons, hab.withoutUrls hR, ih]
  simp only [PlatformInfo.withoutUrls, mapProvenance, hR _ _ hprov, List.map_map,
    Function.comp_def, hmap]

/-- Maps with related values have the same image under a function that cannot
tell related values apart. -/
theorem MapsRelate.map_eq {ν ν' : Type} {S : ν → ν → Prop} {g : String → ν → ν'}
    {m m' : BTreeMap String ν} (h : MapsRelate S m m') (hg : ∀ k a b, S a b → g k a = g k b) :
    m.map g = m'.map g := by
  refine ExtTreeMap.ext_getElem? fun k => ?_
  have hk := h k
  rw [ExtTreeMap.getElem?_map, ExtTreeMap.getElem?_map]
  generalize m[k]? = v at hk
  generalize m'[k]? = v' at hk
  cases hk with
  | none => rfl
  | some hab => exact congrArg some (hg k _ _ hab)

variable {read : String → String → String → Option AubeLock}

theorem LockfileTool.DifferOnly.drop (hR : ∀ p q, R p q → f p = f q)
    (needsTrust : String → String → Bool) (short : String) {a b : LockfileTool}
    (h : DifferOnly R read a b) :
    (a.dropWhatNeedsTrust needsTrust read short).map (·.mapProvenance f) =
      (b.dropWhatNeedsTrust needsTrust read short).map (·.mapProvenance f) := by
  obtain ⟨platforms, aube, uv, hplatforms, haube, rfl⟩ := h
  have hgraph : aube.filter (aubeAccepted read) = a.aube.filter (aubeAccepted read) := by
    rcases haube with rfl | ⟨hold, hnew⟩
    · rfl
    · have hreject : ∀ o : Option (GraphRef AubeLock),
          (o.all fun g => !aubeAccepted read g) = true → o.filter (aubeAccepted read) = none := by
        intro o ho
        cases o with
        | none => rfl
        | some g =>
          rw [Option.all_some, Bool.not_eq_true'] at ho
          simp only [Option.filter_some, ho, Bool.false_eq_true, if_false]
      rw [hreject _ hold, hreject _ hnew]
  have hmaps : (a.platforms.map fun _ info => info.withoutUrls).map
        (fun _ info => info.mapProvenance f) =
      (platforms.map fun _ info => info.withoutUrls).map fun _ info => info.mapProvenance f := by
    rw [ExtTreeMap.map_map, ExtTreeMap.map_map]
    exact hplatforms.map_eq fun _ _ _ hab => hab.withoutUrls hR
  simp only [LockfileTool.dropWhatNeedsTrust]
  split
  · rfl
  · simp only [Option.map_some, LockfileTool.mapProvenance, hgraph, hmaps]

/-- **Two runs**: lockfiles that differ only in locations are reduced to files that
agree up to what `f` forgets of provenance. -/
theorem Lockfile.DifferOnly.drop (hR : ∀ p q, R p q → f p = f q)
    (needsTrust : String → String → Bool) {l l' : Lockfile} (h : DifferOnly R read l l') :
    (l.dropWhatNeedsTrust needsTrust read).mapProvenance f =
      (l'.dropWhatNeedsTrust needsTrust read).mapProvenance f := by
  obtain ⟨tools, condaPackages, htools, rfl⟩ := h
  have hentries : ∀ (short : String) (es es' : List LockfileTool),
      List.Forall₂ (LockfileTool.DifferOnly R read) es es' →
        (es.filterMap (LockfileTool.dropWhatNeedsTrust needsTrust read short)).map
            (·.mapProvenance f) =
          (es'.filterMap (LockfileTool.dropWhatNeedsTrust needsTrust read short)).map
            (·.mapProvenance f) := by
    intro short es es' hes
    induction hes with
    | nil => rfl
    | cons hab _ ih =>
      rw [List.map_filterMap, List.map_filterMap] at ih ⊢
      rw [List.filterMap_cons, List.filterMap_cons, hab.drop hR needsTrust short, ih]
  -- dropping a tool without entries commutes with the change of its entries' provenance
  have hcommute : ∀ m : BTreeMap String (List LockfileTool),
      (m.filter fun _ es => !es.isEmpty).map (fun _ es => es.map (·.mapProvenance f)) =
        (m.map fun _ es => es.map (·.mapProvenance f)).filter fun _ es => !es.isEmpty := by
    intro m
    refine ExtTreeMap.ext_getElem? fun k => ?_
    simp only [ExtTreeMap.getElem?_map, ExtTreeMap.getElem?_filter, Option.pfilter_eq_filter]
    cases m[k]? with
    | none => rfl
    | some es => cases es <;> rfl
  simp only [Lockfile.mapProvenance, Lockfile.dropWhatNeedsTrust, hcommute, ExtTreeMap.map_map]
  rw [htools.map_eq hentries]

end MapProvenance

/-! ### What an accepted graph names -/

/-- One part of a plain name. -/
def IsPart (s : List Char) : Prop := s ≠ [] ∧ ∀ c ∈ s, plainChar ['.', '_', '~', '-'] c

/-- `name` or `@scope/name`. -/
def IsPlainName (name : List Char) : Prop :=
  IsPart name ∨ ∃ scope rest, IsPart scope ∧ IsPart rest ∧ name = '@' :: (scope ++ '/' :: rest)

/-- A release that begins with a digit, and perhaps a peer suffix. -/
def IsPlainVersion (version : List Char) : Prop :=
  ∃ release peers, (version = release ∨ version = release ++ '(' :: peers) ∧
    (∃ d rest, release = d :: rest ∧ d.isDigit) ∧
    (∀ c ∈ release, plainChar ['.', '+', '-'] c) ∧
    ∀ c ∈ peers, plainChar ['.', '_', '~', '-', '@', '/', '+', '(', ')', ' '] c

/-- The resolution of a package is exactly one non-empty integrity. -/
def ResolvedByIntegrity (package : TomlValue) : Prop :=
  ∃ integrity, integrity ≠ "" ∧
    package.get "resolution" = some (.table [("integrity", .string integrity)])

/-- **A package of the registry**: a plain name and version with an entry that is
resolved by integrity alone. -/
def IsRegistryPackage (packages : TomlTable) (name version : List Char) : Prop :=
  IsPlainName name ∧ IsPlainVersion version ∧
    ∃ package, packages.lookup (String.ofList (name ++ '@' :: before '(' version)) =
      some package ∧ ResolvedByIntegrity package

theorem isPart_of_partOk {s : List Char} (h : partOk s = true) : IsPart s := by
  rw [partOk, Bool.and_eq_true, Bool.not_eq_true', List.isEmpty_eq_false_iff, List.all_eq_true] at h
  exact h

theorem isPlainName_of_nameOk {name : List Char} (h : nameOk name = true) : IsPlainName name := by
  unfold nameOk at h
  split at h
  · case h_1 rest =>
    obtain ⟨⟨scope, part⟩, hsplit, hok⟩ := (Option.any_eq_true _ _).1 h
    rw [Bool.and_eq_true] at hok
    refine .inr ⟨scope, part, isPart_of_partOk hok.1, isPart_of_partOk hok.2, ?_⟩
    rw [splitOnce_eq_some hsplit]
  · exact .inl (isPart_of_partOk h)

theorem isPlainVersion_of_versionOk {version : List Char} (h : versionOk version = true) :
    IsPlainVersion version := by
  unfold versionOk at h
  simp only [Bool.and_eq_true, List.all_eq_true] at h
  obtain ⟨⟨hdigit, hrelease⟩, hpeers⟩ := h
  obtain ⟨d, hd, hd'⟩ := (Option.any_eq_true _ _).1 hdigit
  have hhead : ∃ d rest, ((splitOnce '(' version).getD (version, [])).1 = d :: rest ∧ d.isDigit := by
    obtain ⟨rest, hrest⟩ := List.head?_eq_some_iff.1 hd
    exact ⟨d, rest, hrest, hd'⟩
  refine ⟨_, _, ?_, hhead, hrelease, hpeers⟩
  cases hsplit : splitOnce '(' version with
  | none => exact .inl rfl
  | some p => exact .inr (splitOnce_eq_some hsplit)

theorem resolvedByIntegrity_of_packageOk {package : TomlValue} (h : packageOk package = true) :
    ResolvedByIntegrity package := by
  rw [packageOk, Bool.and_eq_true] at h
  obtain ⟨resolution, hres, hone⟩ := (Option.any_eq_true _ _).1 h.2
  rw [Bool.and_eq_true, beq_iff_eq] at hone
  obtain ⟨integrity, hint, hne⟩ := (Option.any_eq_true _ _).1 hone.2
  obtain ⟨value, hvalue, hstr⟩ := Option.bind_eq_some_iff.1 hint
  obtain ⟨table, htable, hentries⟩ := Option.bind_eq_some_iff.1 hres
  refine ⟨integrity, fun hempty => ?_, ?_⟩
  · rw [hempty] at hne
    exact absurd hne (by decide)
  · -- one entry, and `integrity` is a key of it
    obtain ⟨⟨key, v⟩, rfl⟩ := List.length_eq_one_iff.1 hone.1
    rw [htable]
    have hkey : ("integrity" : String) = key ∧ v = value := by
      rw [List.lookup_cons] at hvalue
      split at hvalue
      · case h_1 heq => exact ⟨beq_iff_eq.1 heq, Option.some.inj hvalue⟩
      · exact absurd hvalue.symm (Option.some_ne_none _)
    obtain ⟨rfl, rfl⟩ := hkey
    cases v <;> cases table <;> simp_all [TomlValue.asStr, TomlValue.asTable]

section Graph

variable {packages : TomlTable} (hpackages : ∀ e ∈ packages, packageOk e.2 = true)

/-- A list is looked up by membership. -/
theorem mem_of_lookup {α : Type} {l : List (String × α)} {k : String} {v : α}
    (h : l.lookup k = some v) : (k, v) ∈ l := by
  induction l with
  | nil => exact absurd h.symm (Option.some_ne_none v)
  | cons e l ih =>
    rw [IndexMap.lookup_cons_ite k e.1 e.2 l] at h
    split at h
    · case isTrue hk =>
      obtain rfl := Option.some.inj h
      rw [hk]
      exact List.mem_cons_self
    · exact List.mem_cons_of_mem e (ih h)

include hpackages in
theorem isRegistryPackage_of_hasPackage {name version : List Char}
    (h : hasPackage packages name version = true) : IsRegistryPackage packages name version := by
  obtain ⟨key, hkey, hfound⟩ := (Option.any_eq_true _ _).1 h
  rw [packageKey] at hkey
  split at hkey
  · case isTrue hok =>
    rw [Bool.and_eq_true] at hok
    obtain rfl := Option.some.inj hkey
    obtain ⟨package, hpackage⟩ := Option.isSome_iff_exists.1 hfound
    exact ⟨isPlainName_of_nameOk hok.1, isPlainVersion_of_versionOk hok.2, package, hpackage,
      resolvedByIntegrity_of_packageOk (hpackages _ (mem_of_lookup hpackage))⟩
  · exact absurd hkey.symm (Option.some_ne_none key)

/-- What follows the text before the first `c`. -/
theorem drop_length_before (c : Char) (cs : List Char) :
    cs.drop (before c cs).length = cs.dropWhile (· ≠ c) := by
  have h : (before c cs ++ cs.dropWhile (· ≠ c)).drop (before c cs).length = cs.dropWhile (· ≠ c) :=
    List.drop_left
  rwa [before, List.takeWhile_append_dropWhile] at h

theorem before_append_of_notMem {c : Char} {x y : List Char} (hx : c ∉ x)
    (hy : ∀ d ∈ y.head?, d = c) : before c (x ++ y) = x := by
  have hall : ∀ d ∈ x, (decide (d ≠ c)) = true := by
    intro d hd
    exact decide_eq_true fun heq => hx (heq ▸ hd)
  rw [before, List.takeWhile_append_of_pos hall]
  cases y with
  | nil => rw [List.takeWhile_nil, List.append_nil]
  | cons d y =>
    have hd : d = c := hy d rfl
    rw [List.takeWhile_cons, hd]
    simp

include hpackages in
/-- The key of an entry is a name and a version of the registry. -/
theorem isRegistryPackage_of_keyOk {key : String} (h : keyOk packages key = true) :
    ∃ name version, key.toList = name ++ '@' :: version ∧
      IsRegistryPackage packages name version := by
  obtain ⟨⟨name, version⟩, hsplit, hhas⟩ := (Option.any_eq_true _ _).1 h
  rw [splitKey] at hsplit
  obtain ⟨⟨name', version'⟩, hrsplit, hok⟩ := Option.bind_eq_some_iff.1 hsplit
  simp only at hok
  split at hok
  · case isTrue hversion =>
    obtain ⟨rfl, rfl⟩ := Prod.mk.inj (Option.some.inj hok)
    obtain ⟨hname, _, package, hpackage, hres⟩ := isRegistryPackage_of_hasPackage hpackages hhas
    have hrelease := rsplitOnce_eq_some hrsplit
    refine ⟨name', version' ++ key.toList.drop (before '(' key.toList).length, ?_, hname,
      isPlainVersion_of_versionOk hversion, package, ?_, hres⟩
    · rw [← List.cons_append, ← List.append_assoc, ← hrelease, drop_length_before, before,
        List.takeWhile_append_dropWhile]
    · -- the version in the key has no peers, so dropping them again changes nothing
      have hnot : '(' ∉ version' := by
        intro hmem
        have hin : '(' ∈ before '(' key.toList := by
          rw [hrelease]
          exact List.mem_append_right _ (List.mem_cons_of_mem _ hmem)
        have := List.mem_takeWhile_imp hin
        exact absurd this (by decide)
      have hpeers : ∀ d ∈ (key.toList.drop (before '(' key.toList).length).head?, d = '(' := by
        intro d hd
        rw [drop_length_before] at hd
        have hstop := List.head?_dropWhile_not (fun c : Char => decide (c ≠ '(')) key.toList
        rw [Option.mem_def.1 hd] at hstop
        simpa using hstop
      have hself : before '(' version' = version' := by
        have := before_append_of_notMem (y := []) hnot (fun d hd => absurd hd (by simp))
        rwa [List.append_nil] at this
      rw [before_append_of_notMem hnot hpeers]
      rwa [hself] at hpackage
  · exact absurd hok.symm (Option.some_ne_none _)

end Graph

/-- **Everything an accepted graph names is in the registry.** -/
structure NamesOnlyRegistry (lock : AubeLock) (packages : TomlTable) : Prop where
  packagesSection : lock.graph.lookup "packages" = some (.table packages)
  package : ∀ key package, (key, package) ∈ packages → ResolvedByIntegrity package ∧
    ∃ name version, key.toList = name ++ '@' :: version ∧ IsRegistryPackage packages name version
  importerDependency : ∀ importers, lock.graph.lookup "importers" = some (.table importers) →
    ∀ path importer, (path, importer) ∈ importers → ∀ sec ∈ dependencySections, ∀ deps,
      importer.get sec = some deps → ∃ entries, deps = .table entries ∧
        ∀ name dep, (name, dep) ∈ entries → ∃ version, dep.get "version" = some (.string version) ∧
          IsRegistryPackage packages name.toList version.toList
  snapshot : ∀ snapshots, lock.graph.lookup "snapshots" = some (.table snapshots) →
    ∀ key snapshot, (key, snapshot) ∈ snapshots →
      (∃ name version, key.toList = name ++ '@' :: version ∧
        IsRegistryPackage packages name version) ∧
      ∀ sec ∈ dependencySections, ∀ deps, snapshot.get sec = some deps →
        ∃ entries, deps = .table entries ∧ ∀ name dep, (name, dep) ∈ entries →
          ∃ version, dep = .string version ∧
            IsRegistryPackage packages name.toList version.toList

theorem eq_table_of_asTable {v : TomlValue} {entries : TomlTable}
    (h : v.asTable = some entries) : v = .table entries := by
  cases v <;> simp_all [TomlValue.asTable]

theorem eq_string_of_asStr {v : TomlValue} {s : String} (h : v.asStr = some s) : v = .string s := by
  cases v <;> simp_all [TomlValue.asStr]

theorem dependenciesOk_spec {ok : String → TomlValue → Bool} {owner : TomlValue}
    (h : dependenciesOk ok owner = true) {sec : String} (hsec : sec ∈ dependencySections)
    {deps : TomlValue} (hdeps : owner.get sec = some deps) :
    ∃ entries, deps = .table entries ∧ ∀ name dep, (name, dep) ∈ entries → ok name dep = true := by
  have hall := List.all_eq_true.1 h sec hsec
  rw [hdeps, Option.all_some] at hall
  obtain ⟨entries, htable, hentries⟩ := (Option.any_eq_true _ _).1 hall
  refine ⟨entries, eq_table_of_asTable htable, fun name dep hmem => ?_⟩
  exact List.all_eq_true.1 hentries (name, dep) hmem

/-- A graph that is accepted names only packages of the registry. -/
theorem namesOnlyRegistry_of_accepted {lock : AubeLock}
    (h : aubeGraphNamesOnlyRegistry lock = true) : ∃ packages, NamesOnlyRegistry lock packages := by
  unfold aubeGraphNamesOnlyRegistry at h
  simp only at h
  split at h
  · case h_1 importers packages himporters hpackages =>
    simp only [Bool.and_eq_true] at h
    obtain ⟨⟨⟨_, hpkgs⟩, himps⟩, hsnaps⟩ := h
    obtain ⟨v, hv, htable⟩ := Option.bind_eq_some_iff.1 hpackages
    obtain rfl := eq_table_of_asTable htable
    have hok : ∀ e ∈ packages, keyOk packages e.1 = true ∧ packageOk e.2 = true := by
      intro e he
      exact Bool.and_eq_true_iff.1 (List.all_eq_true.1 hpkgs e he)
    have hres : ∀ e ∈ packages, packageOk e.2 = true := fun e he => (hok e he).2
    refine ⟨packages, hv, fun key package hmem => ?_, fun imps himps' path importer hmem sec hsec
      deps hdeps => ?_, fun snaps hsnaps' key snapshot hmem => ?_⟩
    · exact ⟨resolvedByIntegrity_of_packageOk (hok _ hmem).2,
        isRegistryPackage_of_keyOk hres (hok _ hmem).1⟩
    · rw [himps', Option.bind_some, TomlValue.asTable] at himporters
      obtain rfl := Option.some.inj himporters
      obtain ⟨entries, rfl, hentries⟩ :=
        dependenciesOk_spec (List.all_eq_true.1 himps _ hmem) hsec hdeps
      refine ⟨entries, rfl, fun name dep hdep => ?_⟩
      obtain ⟨version, hversion, hhas⟩ :=
        (Option.any_eq_true _ _).1 (Bool.and_eq_true_iff.1 (hentries name dep hdep)).2
      obtain ⟨w, hw, hstr⟩ := Option.bind_eq_some_iff.1 hversion
      obtain rfl := eq_string_of_asStr hstr
      exact ⟨version, hw, isRegistryPackage_of_hasPackage hres hhas⟩
    · rw [hsnaps', Option.bind_some, TomlValue.asTable, Option.all_some] at hsnaps
      have hsnap := Bool.and_eq_true_iff.1 (List.all_eq_true.1 hsnaps _ hmem)
      refine ⟨isRegistryPackage_of_keyOk hres hsnap.1, fun sec hsec deps hdeps => ?_⟩
      obtain ⟨entries, rfl, hentries⟩ := dependenciesOk_spec hsnap.2 hsec hdeps
      refine ⟨entries, rfl, fun name dep hdep => ?_⟩
      obtain ⟨version, hversion, hhas⟩ := (Option.any_eq_true _ _).1 (hentries name dep hdep)
      exact ⟨version, eq_string_of_asStr hversion, isRegistryPackage_of_hasPackage hres hhas⟩
  · exact absurd h Bool.false_ne_true

/-! ### The whole -/

/-- **An untrusted lockfile does not choose where to download from.**  Lockfiles
that differ only in locations are reduced to one lockfile; if they also differ in
the URL of SLSA provenance, to lockfiles that differ in that URL at most; and a
graph that stays names nothing but packages of the registry. -/
theorem untrusted_names_no_location (needsTrust : String → String → Bool)
    (read : String → String → String → Option AubeLock) :
    (∀ l l' : Lockfile, Lockfile.DifferOnly Eq read l l' →
      l.dropWhatNeedsTrust needsTrust read = l'.dropWhatNeedsTrust needsTrust read) ∧
    (∀ l l' : Lockfile, Lockfile.DifferOnly SameButSlsaUrl read l l' →
      (l.dropWhatNeedsTrust needsTrust read).mapProvenance (·.map ProvenanceType.withoutUrl) =
        (l'.dropWhatNeedsTrust needsTrust read).mapProvenance
          (·.map ProvenanceType.withoutUrl)) ∧
    ∀ lock, aubeGraphNamesOnlyRegistry lock = true → ∃ packages, NamesOnlyRegistry lock packages := by
  refine ⟨fun l l' h => ?_, fun l l' h => ?_, fun lock => namesOnlyRegistry_of_accepted⟩
  · have hdrop := h.drop (f := id) (fun p q hpq => hpq) needsTrust
    rwa [Lockfile.mapProvenance_id, Lockfile.mapProvenance_id] at hdrop
  · refine h.drop (fun p q hpq => ?_) needsTrust
    rcases hpq with rfl | ⟨url, url', rfl, rfl⟩
    · rfl
    · rfl

/-- A lockfile with one entry of `gh`, locked on one platform. -/
def ghLocked (url : String) (provenance : ProvenanceType) : Lockfile where
  lockfileVersion := 1
  tools := (∅ : BTreeMap String (List LockfileTool)).insert "gh"
    [{ version := "2.40.0"
       backend := some "aqua:cli/cli"
       platforms := (∅ : BTreeMap String PlatformInfo).insert "linux-x64"
         { checksum := some "sha256:aa", url := some url, provenance := some provenance } }]

/-- Maps with one key relate when their values do. -/
theorem mapsRelate_insert {ν : Type} {S : ν → ν → Prop} (k : String) {v v' : ν} (h : S v v') :
    MapsRelate S ((∅ : BTreeMap String ν).insert k v) ((∅ : BTreeMap String ν).insert k v') := by
  intro k'
  rw [BTreeMap.get_insert, BTreeMap.get_insert]
  split
  · exact .some h
  · rw [ExtTreeMap.getElem?_empty]
    exact .none

theorem ghLocked_differOnly {R : Option ProvenanceType → Option ProvenanceType → Prop}
    (read : String → String → String → Option AubeLock) (url url' : String) (p p' : ProvenanceType)
    (hR : R (some p) (some p')) :
    Lockfile.DifferOnly R read (ghLocked url p) (ghLocked url' p') := by
  refine ⟨(ghLocked url' p').tools, ∅, mapsRelate_insert "gh" (.cons ?_ .nil), rfl⟩
  refine ⟨_, none, none, mapsRelate_insert "linux-x64" ?_, .inl rfl, rfl⟩
  exact ⟨some url', none, none, some p', [], hR, .nil, rfl⟩

/-- The URL of the SLSA provenance is still there afterwards. -/
theorem untrusted_keeps_slsa_url :
    ¬∀ l l' : Lockfile, Lockfile.DifferOnly SameButSlsaUrl (fun _ _ _ => none) l l' →
      l.dropWhatNeedsTrust (fun _ _ => false) (fun _ _ _ => none) =
        l'.dropWhatNeedsTrust (fun _ _ => false) (fun _ _ _ => none) := by
  intro h
  have hsame := h _ _ (ghLocked_differOnly (fun _ _ _ => none) "https://a.example/gh"
    "https://a.example/gh" (.slsa (some "https://a.example/gh.intoto.jsonl"))
    (.slsa (some "https://b.example/gh.intoto.jsonl")) (.inr ⟨_, _, rfl, rfl⟩))
  have hprov := congrArg (fun l : Lockfile =>
    (l.entries "gh").map fun t => t.platforms["linux-x64"]?.map (·.provenance)) hsame
  exact absurd hprov (by decide +kernel)

/-- Two places to download `gh` from, reduced to the same pin. -/
theorem untrusted_names_no_location_sample :
    (ghLocked "https://a.example/gh" .githubAttestations).dropWhatNeedsTrust (fun _ _ => false)
        (fun _ _ _ => none) =
      (ghLocked "https://b.example/gh" .githubAttestations).dropWhatNeedsTrust (fun _ _ => false)
        (fun _ _ _ => none) ∧
      aubeGraphNamesOnlyRegistry
        { graph := [("importers", .table [(".", .table [("dependencies", .table [("cli",
              .table [("specifier", .string "1.0.0"), ("version", .string "1.0.0")])])])]),
            ("packages", .table [("cli@1.0.0",
              .table [("resolution", .table [("integrity", .string "sha512-abc")])])])] } = true :=
  ⟨(untrusted_names_no_location _ _).1 _ _ (ghLocked_differOnly _ _ _ _ _ rfl), by decide +kernel⟩

end Mise
