/-
# Migrating a subproject's lockfile

`merge_lockfile_preserving_root`: the entries and conda packages of a lockfile
are moved into the one at the root of a monorepo, which is saved before the
other file is deleted.  An entry the root has already (by version and options)
takes over the specifiers and, from the same backend, graphs and provenance it
lacks.  Its platforms are not merged, so that what only the subproject recorded
for one of them is lost; `migration_complete_iff` says exactly when nothing is.

`state_short`, which names a tool without the credentials of a URL in it, is a
parameter: every result holds for any such function.
-/

import Mise.Lib.FirstMatch
import Mise.Lockfile.Basic

namespace Mise

open Lib
open Std (ExtTreeMap ExtTreeSet)

namespace LockfileTool

/-- What `merge_lockfile_preserving_root` does to an entry that is already there. -/
def takeOver (existing tool : LockfileTool) : LockfileTool :=
  let sameBackend := existing.backend.isSome && existing.backend = tool.backend
  { existing with
    specifiers := existing.specifiers ∪ tool.specifiers
    uv := if existing.uv.isNone && sameBackend then tool.uv else existing.uv
    aube := if existing.aube.isNone && sameBackend then tool.aube else existing.aube
    provenance :=
      if existing.provenance.isNone && sameBackend then tool.provenance else existing.provenance }

end LockfileTool

/-- Whether an entry is the one of a version and options. -/
def LockfileTool.isFor (version : String) (options : LockOptions) (tool : LockfileTool) : Bool :=
  tool.version = version && tool.options = options

/-- The body of the inner loop: the root's entries of a tool and the keys seen. -/
def absorb (state : List LockfileTool × List LockfileToolKey) (tool : LockfileTool) :
    List LockfileTool × List LockfileToolKey :=
  match state.1.findIdx? (·.isFor tool.version tool.options) with
  | some i => (state.1.modify i (·.takeOver tool), state.2)
  | none => if tool.key ∈ state.2 then state else (state.1 ++ [tool], tool.key :: state.2)

namespace Lockfile

variable (stateShort : String → String)

/-- `tool_key`. -/
def toolKey (l : Lockfile) (short : String) : Option String :=
  if stateShort short ∈ l.tools then some (stateShort short) else none

/-- The body of the outer loop: the entries of one tool. -/
def absorbTools (root : Lockfile) (short : String) (tools : List LockfileTool) : Lockfile :=
  let key := (root.toolKey stateShort short).getD (stateShort short)
  let rootTools := root.entries key
  { root with
    tools := root.tools.insert key (tools.foldl absorb (rootTools, rootTools.map (·.key))).1 }

/-- The last loop: packages the root does not have. -/
def absorbPackages (root : Lockfile) (platform : String)
    (packages : BTreeMap String CondaPackageInfo) : Lockfile :=
  let rootPackages := root.condaPackages[platform]?.getD ∅
  { root with
    condaPackages := root.condaPackages.insert platform
      (packages.foldl (fun acc basename info => acc.insertIfNew basename info) rootPackages) }

/-- `merge_lockfile_preserving_root`. -/
def mergePreservingRoot (root other : Lockfile) : Lockfile :=
  other.condaPackages.foldl absorbPackages (other.tools.foldl (absorbTools stateShort) root)

end Lockfile

/-! ### One entry -/

theorem LockfileTool.isFor_iff (version : String) (options : LockOptions) (e : LockfileTool) :
    e.isFor version options = true ↔ e.key = (version, options) := by
  simp [isFor, key]

/-- What an entry keeps when others are merged into it. -/
structure Keeps (e e' : LockfileTool) : Prop where
  version : e'.version = e.version
  options : e'.options = e.options
  backend : e'.backend = e.backend
  platforms : e'.platforms = e.platforms
  specifiers : ∀ s ∈ e.specifiers, s ∈ e'.specifiers
  uv : ∀ g, e.uv = some g → e'.uv = some g
  aube : ∀ g, e.aube = some g → e'.aube = some g
  provenance : ∀ p, e.provenance = some p → e'.provenance = some p

theorem Keeps.refl (e : LockfileTool) : Keeps e e :=
  ⟨rfl, rfl, rfl, rfl, fun _ h => h, fun _ h => h, fun _ h => h, fun _ h => h⟩

theorem Keeps.trans {a b c : LockfileTool} (hab : Keeps a b) (hbc : Keeps b c) : Keeps a c where
  version := hbc.version.trans hab.version
  options := hbc.options.trans hab.options
  backend := hbc.backend.trans hab.backend
  platforms := hbc.platforms.trans hab.platforms
  specifiers s hs := hbc.specifiers s (hab.specifiers s hs)
  uv g hg := hbc.uv g (hab.uv g hg)
  aube g hg := hbc.aube g (hab.aube g hg)
  provenance p hp := hbc.provenance p (hab.provenance p hp)

theorem Keeps.key {e e' : LockfileTool} (h : Keeps e e') : e'.key = e.key := by
  rw [LockfileTool.key, LockfileTool.key, h.version, h.options]

theorem keeps_takeOver (e t : LockfileTool) : Keeps e (e.takeOver t) where
  version := rfl
  options := rfl
  backend := rfl
  platforms := rfl
  specifiers s hs := ExtTreeSet.mem_union_iff.2 (.inl hs)
  uv g hg := by simp [LockfileTool.takeOver, hg]
  aube g hg := by simp [LockfileTool.takeOver, hg]
  provenance p hp := by simp [LockfileTool.takeOver, hp]

/-! ### The entries of one tool -/

/-- `absorb` on the entries alone. -/
def absorbEntry (l : List LockfileTool) (tool : LockfileTool) : List LockfileTool :=
  match l.findIdx? (·.isFor tool.version tool.options) with
  | some i => l.modify i (·.takeOver tool)
  | none => l ++ [tool]

/-- What one entry of the other lockfile does. -/
theorem absorbEntry_cases (l : List LockfileTool) (t : LockfileTool) :
    (∃ l₁ e l₂, l = l₁ ++ e :: l₂ ∧ e.key = t.key ∧ (∀ x ∈ l₁, x.key ≠ t.key) ∧
      absorbEntry l t = l₁ ++ e.takeOver t :: l₂) ∨
    ((∀ x ∈ l, x.key ≠ t.key) ∧ absorbEntry l t = l ++ [t]) := by
  cases hfind : l.findIdx? (·.isFor t.version t.options) with
  | some i =>
    obtain ⟨l₁, e, l₂, rfl, he, hbefore, hmodify⟩ := findIdx?_split hfind
    refine .inl ⟨l₁, e, l₂, rfl, (LockfileTool.isFor_iff _ _ e).1 he, fun x hx hkey => ?_, ?_⟩
    · exact hbefore x hx ((LockfileTool.isFor_iff _ _ x).2 hkey)
    · simp only [absorbEntry, hfind, hmodify]
  | none =>
    refine .inr ⟨fun x hx hkey => ?_, by simp only [absorbEntry, hfind]⟩
    have hnot := List.findIdx?_eq_none_iff.1 hfind x hx
    rw [(LockfileTool.isFor_iff _ _ x).2 hkey] at hnot
    exact Bool.noConfusion hnot

/-- The set of keys never keeps an entry out: it holds only keys of entries. -/
theorem foldl_absorb_fst (ts l : List LockfileTool) (keys : List LockfileToolKey)
    (hkeys : ∀ k ∈ keys, k ∈ l.map (·.key)) :
    (ts.foldl absorb (l, keys)).1 = ts.foldl absorbEntry l := by
  induction ts generalizing l keys with
  | nil => rfl
  | cons t ts ih =>
    rw [List.foldl_cons, List.foldl_cons]
    cases hfind : l.findIdx? (·.isFor t.version t.options) with
    | some i =>
      have hstep : absorb (l, keys) t = (absorbEntry l t, keys) := by
        simp only [absorb, absorbEntry, hfind]
      rw [hstep]
      refine ih _ _ fun k hk => ?_
      obtain ⟨l₁, e, l₂, rfl, _, _, hmodify⟩ := findIdx?_split hfind
      have := hkeys k hk
      simpa only [absorbEntry, hfind, hmodify, List.map_append, List.map_cons,
        (keeps_takeOver e t).key] using this
    | none =>
      have hnew : t.key ∉ keys := by
        intro hmem
        obtain ⟨e, he, hkey⟩ := List.mem_map.1 (hkeys _ hmem)
        have hnot := List.findIdx?_eq_none_iff.1 hfind e he
        rw [(LockfileTool.isFor_iff _ _ e).2 hkey] at hnot
        exact Bool.noConfusion hnot
      have hstep : absorb (l, keys) t = (absorbEntry l t, t.key :: keys) := by
        simp only [absorb, absorbEntry, hfind, if_neg hnew]
      rw [hstep]
      refine ih _ _ fun k hk => ?_
      simp only [absorbEntry, hfind, List.map_append, List.mem_append, List.map_cons]
      rcases List.mem_cons.1 hk with rfl | hk
      · exact .inr List.mem_cons_self
      · exact .inl (hkeys k hk)

/-- Each entry of the first list is kept at its place in the second. -/
def ExtendsEntries (l l' : List LockfileTool) : Prop :=
  ∀ (i : ℕ) e, l[i]? = some e → ∃ e', l'[i]? = some e' ∧ Keeps e e'

namespace ExtendsEntries

theorem refl (l : List LockfileTool) : ExtendsEntries l l :=
  fun _ e he => ⟨e, he, Keeps.refl e⟩

theorem trans {a b c : List LockfileTool} (hab : ExtendsEntries a b) (hbc : ExtendsEntries b c) :
    ExtendsEntries a c := by
  intro i e he
  obtain ⟨e', he', hkeeps⟩ := hab i e he
  obtain ⟨e'', he'', hkeeps'⟩ := hbc i e' he'
  exact ⟨e'', he'', hkeeps.trans hkeeps'⟩

theorem exists_mem {l l' : List LockfileTool} (h : ExtendsEntries l l') {e : LockfileTool}
    (he : e ∈ l) : ∃ e' ∈ l', Keeps e e' := by
  obtain ⟨i, hi⟩ := List.mem_iff_getElem?.1 he
  obtain ⟨e', he', hkeeps⟩ := h i e hi
  exact ⟨e', List.mem_iff_getElem?.2 ⟨i, he'⟩, hkeeps⟩

theorem count_le {l l' : List LockfileTool} (h : ExtendsEntries l l') (k : LockfileToolKey) :
    (l.map (·.key)).count k ≤ (l'.map (·.key)).count k := by
  have hpre : l.map (·.key) <+: l'.map (·.key) := by
    rw [List.prefix_iff_getElem?]
    intro i hi
    rw [List.length_map] at hi
    obtain ⟨e', he', hkeeps⟩ := h i l[i] (List.getElem?_eq_getElem hi)
    rw [List.getElem?_map, he', List.getElem_map, Option.map_some, hkeeps.key]
  exact hpre.sublist.count_le k

end ExtendsEntries

theorem extendsEntries_absorbEntry (l : List LockfileTool) (t : LockfileTool) :
    ExtendsEntries l (absorbEntry l t) := by
  intro i e he
  rcases absorbEntry_cases l t with ⟨l₁, x, l₂, rfl, _, _, heq⟩ | ⟨_, heq⟩
  · rw [heq]
    rcases Nat.lt_trichotomy i l₁.length with hi | rfl | hi
    · rw [List.getElem?_append_left hi] at he ⊢
      exact ⟨e, he, Keeps.refl e⟩
    · rw [List.getElem?_append_right le_rfl, Nat.sub_self] at he ⊢
      obtain rfl := Option.some.inj he
      exact ⟨x.takeOver t, rfl, keeps_takeOver x t⟩
    · rw [List.getElem?_append_right hi.le] at he ⊢
      obtain ⟨j, hj⟩ : ∃ j, i - l₁.length = j + 1 := ⟨i - l₁.length - 1, by omega⟩
      rw [hj, List.getElem?_cons_succ] at he ⊢
      exact ⟨e, he, Keeps.refl e⟩
  · rw [heq, List.getElem?_append_left (List.getElem?_eq_some_iff.1 he).1]
    exact ⟨e, he, Keeps.refl e⟩

theorem count_absorbEntry (l : List LockfileTool) (t : LockfileTool) (k : LockfileToolKey) :
    ((absorbEntry l t).map (·.key)).count k =
      if t.key = k then max 1 ((l.map (·.key)).count k) else (l.map (·.key)).count k := by
  rcases absorbEntry_cases l t with ⟨l₁, x, l₂, rfl, hkey, _, heq⟩ | ⟨hnone, heq⟩
  · have hsame : (l₁ ++ x.takeOver t :: l₂).map (·.key) = (l₁ ++ x :: l₂).map (·.key) := by
      simp only [List.map_append, List.map_cons, (keeps_takeOver x t).key]
    rw [heq, hsame]
    split
    · case isTrue htk =>
      have hpos : 0 < ((l₁ ++ x :: l₂).map (·.key)).count k := by
        refine List.count_pos_iff.2 (List.mem_map.2 ⟨x, ?_, hkey.trans htk⟩)
        exact List.mem_append_right _ List.mem_cons_self
      omega
    · rfl
  · rw [heq, List.map_append, List.count_append]
    split
    · case isTrue htk =>
      have hzero : (l.map (·.key)).count k = 0 := by
        refine List.count_eq_zero.2 fun hmem => ?_
        obtain ⟨x, hx, hxk⟩ := List.mem_map.1 hmem
        exact hnone x hx (hxk.trans htk.symm)
      rw [hzero, List.map_singleton, htk, List.count_singleton_self]
      rfl
    · case isFalse htk => rw [List.map_singleton, List.count_singleton, if_neg (by simpa using htk)]; rfl

/-- After its turn, an entry of the other lockfile is found with its specifiers. -/
theorem exists_mem_absorbEntry (l : List LockfileTool) (t : LockfileTool) :
    ∃ e ∈ absorbEntry l t, e.key = t.key ∧ ∀ s ∈ t.specifiers, s ∈ e.specifiers := by
  rcases absorbEntry_cases l t with ⟨l₁, x, l₂, rfl, hkey, _, heq⟩ | ⟨_, heq⟩
  · refine ⟨x.takeOver t, ?_, (keeps_takeOver x t).key.trans hkey, fun s hs => ?_⟩
    · rw [heq]
      exact List.mem_append_right _ List.mem_cons_self
    · exact ExtTreeSet.mem_union_iff.2 (.inr hs)
  · refine ⟨t, ?_, rfl, fun s hs => hs⟩
    rw [heq]
    exact List.mem_append_right _ List.mem_cons_self

section Fold

variable (ts l : List LockfileTool)

theorem extendsEntries_foldl : ExtendsEntries l (ts.foldl absorbEntry l) := by
  induction ts generalizing l with
  | nil => exact ExtendsEntries.refl l
  | cons t ts ih => exact (extendsEntries_absorbEntry l t).trans (ih (absorbEntry l t))

theorem count_foldl (k : LockfileToolKey) :
    ((ts.foldl absorbEntry l).map (·.key)).count k =
      if ∃ t ∈ ts, t.key = k then max 1 ((l.map (·.key)).count k)
      else (l.map (·.key)).count k := by
  induction ts generalizing l with
  | nil => simp
  | cons t ts ih =>
    rw [List.foldl_cons, ih, count_absorbEntry]
    by_cases hk : t.key = k
    · simp only [hk, List.mem_cons, exists_eq_or_imp, true_or, if_true]
      split <;> omega
    · simp only [hk, List.mem_cons, exists_eq_or_imp, false_or, if_false]

theorem exists_mem_foldl {t : LockfileTool} (ht : t ∈ ts) :
    ∃ e ∈ ts.foldl absorbEntry l, e.key = t.key ∧ ∀ s ∈ t.specifiers, s ∈ e.specifiers := by
  induction ts generalizing l with
  | nil => exact absurd ht List.not_mem_nil
  | cons u ts ih =>
    rw [List.foldl_cons]
    rcases List.mem_cons.1 ht with rfl | ht
    · obtain ⟨e, he, hkey, hspec⟩ := exists_mem_absorbEntry l t
      obtain ⟨e', he', hkeeps⟩ := (extendsEntries_foldl ts (absorbEntry l t)).exists_mem he
      exact ⟨e', he', hkeeps.key.trans hkey, fun s hs => hkeeps.specifiers s (hspec s hs)⟩
    · exact ih (absorbEntry l u) ht

end Fold

/-! ### The whole lockfile -/

namespace Lockfile

variable (stateShort : String → String)

theorem toolKey_getD (l : Lockfile) (short : String) :
    (l.toolKey stateShort short).getD (stateShort short) = stateShort short := by
  rw [toolKey]
  split <;> rfl

theorem entries_absorbTools (root : Lockfile) (short : String) (tools : List LockfileTool)
    (k : String) :
    (root.absorbTools stateShort short tools).entries k =
      if stateShort short = k then tools.foldl absorbEntry (root.entries k)
      else root.entries k := by
  simp only [absorbTools, toolKey_getD, entries, BTreeMap.get_insert]
  split
  · case isTrue hk =>
    subst hk
    rw [Option.getD_some, foldl_absorb_fst _ _ _ fun _ h => h]
  · rfl

/-- The entries of the other lockfile whose tool is recorded under a key. -/
def incoming (other : Lockfile) (k : String) : List LockfileTool :=
  (other.tools.toList.filter fun e => stateShort e.1 = k).flatMap (·.2)

theorem mem_incoming (other : Lockfile) (k : String) (t : LockfileTool) :
    t ∈ other.incoming stateShort k ↔
      ∃ short tools, other.tools[short]? = some tools ∧ stateShort short = k ∧ t ∈ tools := by
  simp only [incoming, List.mem_flatMap, List.mem_filter, Prod.exists, decide_eq_true_eq,
    ExtTreeMap.mem_toList_iff_getElem?_eq_some, and_assoc]

/-- **The entries under a key**: those of the root, then one by one those of the
other lockfile. -/
theorem entries_mergePreservingRoot (root other : Lockfile) (k : String) :
    (root.mergePreservingRoot stateShort other).entries k =
      (other.incoming stateShort k).foldl absorbEntry (root.entries k) := by
  have htools : ∀ (ts : List (String × List LockfileTool)) (r : Lockfile),
      (ts.foldl (fun r e => absorbTools stateShort r e.1 e.2) r).entries k =
        ((ts.filter fun e => stateShort e.1 = k).flatMap (·.2)).foldl absorbEntry
          (r.entries k) := by
    intro ts
    induction ts with
    | nil => exact fun r => rfl
    | cons e ts ih =>
      intro r
      rw [List.foldl_cons, ih, entries_absorbTools, List.filter_cons]
      by_cases hk : stateShort e.1 = k
      · simp only [hk, decide_true, if_true, List.flatMap_cons, List.foldl_append]
      · simp only [hk, decide_false, if_false, Bool.false_eq_true]
  have hpackages : ∀ (ps : List (String × BTreeMap String CondaPackageInfo)) (r : Lockfile),
      (ps.foldl (fun r e => absorbPackages r e.1 e.2) r).entries k = r.entries k := by
    intro ps
    induction ps with
    | nil => exact fun r => rfl
    | cons e ps ih =>
      intro r
      rw [List.foldl_cons, ih]
      rfl
  rw [mergePreservingRoot, ExtTreeMap.foldl_eq_foldl_toList, hpackages,
    ExtTreeMap.foldl_eq_foldl_toList, htools]
  rfl

/-- Packages are added where the root has none. -/
theorem getElem?_foldl_insertIfNew (packages acc : BTreeMap String CondaPackageInfo)
    (b : String) :
    (packages.foldl (fun acc basename info => acc.insertIfNew basename info) acc)[b]? =
      acc[b]?.or packages[b]? := by
  have hstep : ∀ (m : BTreeMap String CondaPackageInfo) (a : String) (v : CondaPackageInfo)
      (k : String), (m.insertIfNew a v)[k]? = if a = k then m[k]?.or (some v) else m[k]? := by
    intro m a v k
    simp only [ExtTreeMap.getElem?_insertIfNew, Std.compare_eq_iff_eq]
    by_cases hk : a = k
    · subst hk
      by_cases hmem : a ∈ m
      · obtain ⟨w, hw⟩ := Option.isSome_iff_exists.1 (ExtTreeMap.isSome_getElem?_iff_mem.2 hmem)
        simp only [hmem, hw, not_true, and_false, if_false, if_true, Option.some_or]
      · simp only [hmem, not_false_eq_true, and_true, if_true, ExtTreeMap.getElem?_eq_none hmem,
          Option.none_or]
    · simp only [hk, false_and, if_false]
  rw [BTreeMap.get_foldl (fun (m : BTreeMap String CondaPackageInfo) k => m[k]?)
    (fun m a v => m.insertIfNew a v) (fun _ v old => old.or (some v)) hstep]
  cases packages[b]? with
  | none => exact Option.or_none.symm
  | some info => rfl

/-- **Conda packages of both sides are present, with the root winning.** -/
theorem getCondaPackage_mergePreservingRoot (root other : Lockfile) (platform basename : String) :
    (root.mergePreservingRoot stateShort other).getCondaPackage platform basename =
      (root.getCondaPackage platform basename).or (other.getCondaPackage platform basename) := by
  have htools : (other.tools.foldl (absorbTools stateShort) root).condaPackages =
      root.condaPackages := by
    rw [ExtTreeMap.foldl_eq_foldl_toList]
    generalize other.tools.toList = ts
    induction ts generalizing root with
    | nil => rfl
    | cons e ts ih => exact ih (absorbTools stateShort root e.1 e.2)
  have hstep : ∀ (l : Lockfile) (a : String) (v : BTreeMap String CondaPackageInfo) (k : String),
      (l.absorbPackages a v).condaPackages[k]? = if a = k then
        some (v.foldl (fun acc b info => acc.insertIfNew b info) (l.condaPackages[k]?.getD ∅))
      else l.condaPackages[k]? := by
    intro l a v k
    rw [absorbPackages, BTreeMap.get_insert]
    split
    · case isTrue hk => rw [hk]
    · rfl
  rw [mergePreservingRoot, getCondaPackage,
    BTreeMap.get_foldl (fun (l : Lockfile) k => l.condaPackages[k]?) absorbPackages
      (fun _ v old => some (v.foldl (fun acc b info => acc.insertIfNew b info) (old.getD ∅))) hstep,
    htools]
  simp only [getCondaPackage]
  cases other.condaPackages[platform]? with
  | none => exact Option.or_none.symm
  | some packages =>
    simp only [Option.elim_some, Option.bind_some]
    rw [getElem?_foldl_insertIfNew]
    cases root.condaPackages[platform]? with
    | none => simp
    | some rootPackages => rfl

/-! ### What is lost -/

/-- **Nothing is lost**: the root's entries keep what they have, every entry of
the other lockfile is there once with its specifiers, an entry both have holds
every platform of either, and so do the conda packages. -/
structure LosesNothing (root other result : Lockfile) : Prop where
  rootKept : ∀ k, ExtendsEntries (root.entries k) (result.entries k)
  otherFound : ∀ k, ∀ t ∈ other.incoming stateShort k,
    ((result.entries k).map (·.key)).count t.key = 1 ∧
      ∀ e ∈ result.entries k, e.key = t.key → ∀ s ∈ t.specifiers, s ∈ e.specifiers
  platformsFound : ∀ k, ∀ t ∈ other.incoming stateShort k, ∀ e ∈ root.entries k,
    e.key = t.key → e.backend = t.backend → ∀ (platform : String) info,
      t.platforms[platform]? = some info → e.platforms[platform]? = none →
        ∃ e' ∈ result.entries k, e'.key = t.key ∧ e'.platforms[platform]? = some info
  packagesFound : ∀ platform basename, result.getCondaPackage platform basename =
    (root.getCondaPackage platform basename).or (other.getCondaPackage platform basename)

/-- The root has at most one entry for a version and options of the other
lockfile, and no platform of the latter's entry is missing from it if the two
have the same backend. -/
def PlatformsCovered (root other : Lockfile) : Prop :=
  ∀ k, ∀ t ∈ other.incoming stateShort k, ((root.entries k).map (·.key)).count t.key ≤ 1 ∧
    ∀ e ∈ root.entries k, e.key = t.key → e.backend = t.backend →
      ∀ platform : String, t.platforms[platform]?.isSome → e.platforms[platform]?.isSome

theorem extendsEntries_mergePreservingRoot (root other : Lockfile) (k : String) :
    ExtendsEntries (root.entries k) ((root.mergePreservingRoot stateShort other).entries k) := by
  rw [entries_mergePreservingRoot]
  exact extendsEntries_foldl _ _

/-- An element of which there is one is the only one. -/
theorem eq_of_count_key_eq_one {l : List LockfileTool} {k : LockfileToolKey}
    (hone : (l.map (·.key)).count k = 1) {e e' : LockfileTool} (he : e ∈ l) (he' : e' ∈ l)
    (hek : e.key = k) (hek' : e'.key = k) : e = e' := by
  induction l with
  | nil => exact absurd he List.not_mem_nil
  | cons a l ih =>
    rw [List.map_cons, List.count_cons] at hone
    have hmem : ∀ x ∈ l, x.key = k → 0 < (l.map (·.key)).count k := fun x hx hxk =>
      List.count_pos_iff.2 (List.mem_map.2 ⟨x, hx, hxk⟩)
    rcases List.mem_cons.1 he with heq | hel <;> rcases List.mem_cons.1 he' with heq' | hel'
    · rw [heq, heq']
    · have := hmem e' hel' hek'
      simp only [← heq, hek, beq_self_eq_true, if_true] at hone
      omega
    · have := hmem e hel hek
      simp only [← heq', hek', beq_self_eq_true, if_true] at hone
      omega
    · refine ih ?_ hel hel'
      have := hmem e hel hek
      split at hone <;> omega

theorem losesNothing_of_platformsCovered {root other : Lockfile}
    (hcovered : PlatformsCovered stateShort root other) :
    LosesNothing stateShort root other (root.mergePreservingRoot stateShort other) where
  rootKept := extendsEntries_mergePreservingRoot stateShort root other
  otherFound := by
    intro k t ht
    have hone : (((root.mergePreservingRoot stateShort other).entries k).map (·.key)).count t.key =
        1 := by
      rw [entries_mergePreservingRoot, count_foldl, if_pos ⟨t, ht, rfl⟩]
      have := (hcovered k t ht).1
      omega
    refine ⟨hone, fun e he hek => ?_⟩
    obtain ⟨e', he', hkey, hspec⟩ := exists_mem_foldl _ (root.entries k) ht
    rw [← entries_mergePreservingRoot] at he'
    obtain rfl := eq_of_count_key_eq_one hone he he' hek hkey
    exact hspec
  platformsFound := by
    intro k t ht e he hkey hbackend platform info hinfo hnone
    have := (hcovered k t ht).2 e he hkey hbackend platform (by rw [hinfo]; rfl)
    rw [hnone] at this
    exact Bool.noConfusion this
  packagesFound := getCondaPackage_mergePreservingRoot stateShort root other

theorem platformsCovered_of_losesNothing {root other : Lockfile}
    (h : LosesNothing stateShort root other (root.mergePreservingRoot stateShort other)) :
    PlatformsCovered stateShort root other := by
  intro k t ht
  have hone := (h.otherFound k t ht).1
  refine ⟨hone ▸ (h.rootKept k).count_le t.key, fun e he hkey hbackend platform hplatform => ?_⟩
  -- a platform the root lacks would be in the one entry of the result, which has the root's
  obtain ⟨info, hinfo⟩ := Option.isSome_iff_exists.1 hplatform
  by_contra hnone
  obtain ⟨e', he', hkey', hfound⟩ := h.platformsFound k t ht e he hkey hbackend platform info hinfo
    (Option.not_isSome_iff_eq_none.1 hnone)
  obtain ⟨e'', he'', hkeeps⟩ := (h.rootKept k).exists_mem he
  obtain rfl := eq_of_count_key_eq_one hone he' he'' hkey' (hkeeps.key.trans hkey)
  rw [hkeeps.platforms] at hfound
  rw [hfound] at hnone
  exact hnone rfl

/-- **Migration loses nothing exactly when every platform is already covered.** -/
theorem migration_complete_iff (root other : Lockfile) :
    LosesNothing stateShort root other (root.mergePreservingRoot stateShort other) ↔
      PlatformsCovered stateShort root other :=
  ⟨platformsCovered_of_losesNothing stateShort, losesNothing_of_platformsCovered stateShort⟩

/-- A lockfile with one entry of `node`, locked on one platform. -/
def nodeLocked (platform checksum : String) : Lockfile where
  lockfileVersion := 1
  tools := (∅ : BTreeMap String (List LockfileTool)).insert "node"
    [{ version := "20.0.0"
       backend := some "core:node"
       platforms := (∅ : BTreeMap String PlatformInfo).insert platform
         { checksum := some checksum } }]

/-- The checksum for a platform that only the subproject locked is lost. -/
theorem migration_drops_platform :
    ¬LosesNothing id (nodeLocked "linux-x64" "sha256:aa") (nodeLocked "macos-arm64" "sha256:bb")
      ((nodeLocked "linux-x64" "sha256:aa").mergePreservingRoot id
        (nodeLocked "macos-arm64" "sha256:bb")) := by
  intro h
  have hcovered := platformsCovered_of_losesNothing id h
  have htool : (nodeLocked "macos-arm64" "sha256:bb").tools["node"]? = some
      ((nodeLocked "macos-arm64" "sha256:bb").entries "node") := by
    simp [nodeLocked, entries]
  have hmissing := (hcovered "node" _ ((mem_incoming id _ "node" _).2
    ⟨"node", _, htool, rfl, List.mem_cons_self⟩)).2 _ List.mem_cons_self rfl rfl "macos-arm64"
  exact absurd (hmissing (by decide +kernel)) (by decide +kernel)

end Lockfile

end Mise
