/-
# When two graphs get one directory

Each graph has its turn: the directories that are referenced before it decide its
name (`Turn`).  A plain name is taken only when it is free, so two graphs can meet in
a directory only where one takes its suffixed name (`meets_iff`): that name is not
looked up anywhere.

Whatever has a directory is referenced at the end, so garbage collection leaves it
alone, and what the lockfile records of a directory leads back to it as long as the
names on the way there do.
-/

import Mathlib.Data.List.Infix
import Mise.Lib.Fallible
import Mise.Lockfile.Sidecar

namespace Mise.Sidecar

open Lib Dir

/-! ### Names -/

/-- What a plain file name is. -/
theorem isPlainFileName_iff {name : String} : isPlainFileName name = true ↔
    '/' ∉ name.toList ∧ '\\' ∉ name.toList ∧ name.toList ≠ [] ∧ name.toList ≠ ['.'] ∧
      name.toList ≠ ['.', '.'] := by
  by_cases hslash : '/' ∈ name.toList
  · simp [isPlainFileName, hslash]
  · by_cases hback : '\\' ∈ name.toList
    · simp [isPlainFileName, hback]
    · have hhead : name.toList.head? ≠ some '/' := fun h => hslash (List.mem_of_head? h)
      rw [isPlainFileName, PathBuf.components]
      simp only [List.splitOn_eq_singleton hslash, hhead, hslash, hback]
      by_cases hne : name.toList = []
      · simp [hne]
      · by_cases hdot : name.toList = ['.']
        · simp [hdot]
        · by_cases hdots : name.toList = ['.', '.']
          · simp [hdots]
          · simp [hne, hdot, hdots, hslash, hback]

/-! ### One turn -/

section Turns

variable {T : Type} (sha256 : List UInt8 → String) (toolDirectoryName : String → String)
  (disk : Disk) (root : Dir)

/-- A graph whose turn it is, with the directories that are referenced before. -/
structure Turn (T : Type) where
  use : Use T
  referenced : List Dir

/-- Whether the graph is in a directory that cannot be read; it is then preserved there. -/
def Use.unavailable (u : Use T) : Bool :=
  match u.graph, u.graph.load sha256 disk u.native with
  | .sidecar .., .error _ => true
  | _, _ => false

namespace Turn

/-- The graph has no directory below the root yet, and gets one. -/
def Moves (t : Turn T) : Prop :=
  t.use.recorded root = none ∧ t.use.unavailable sha256 disk = false

/-- The graph takes its suffixed name. -/
def TakesSuffix (t : Turn T) : Prop :=
  t.use.takesSuffix toolDirectoryName root t.referenced = true

/-- The directory that is referenced for a graph. -/
def place (t : Turn T) : Dir := t.use.place sha256 toolDirectoryName root t.referenced

/-- The directory that a graph has after its turn. -/
def dir (t : Turn T) : Option Dir :=
  if t.use.recorded root = none ∧ t.use.unavailable sha256 disk = true then t.use.graph.dir
  else some (t.place sha256 toolDirectoryName root)

/-- **One graph is in the way of another**: the suffixed name that the other one takes is
recorded for it, or is the plain name that it takes, or the two are of one variant of one
version (no backend counts as an empty one) and it takes that name too. -/
def Blocks (p q : Turn T) : Prop :=
  q.Moves sha256 disk root ∧ q.TakesSuffix toolDirectoryName root ∧
    (p.use.recorded root = some (q.use.suffixed sha256 toolDirectoryName root) ∨
      p.Moves sha256 disk root ∧
        (¬p.TakesSuffix toolDirectoryName root ∧
            p.use.plain toolDirectoryName root = q.use.suffixed sha256 toolDirectoryName root ∨
          p.TakesSuffix toolDirectoryName root ∧ p.use.short = q.use.short ∧
            p.use.version = q.use.version ∧
            p.use.backend.getD "" = q.use.backend.getD "" ∧ p.use.options = q.use.options))

end Turn

/-- The turns of all graphs, from the directories that are referenced at first. -/
def turns : List Dir → List (Use T) → List (Turn T)
  | _, [] => []
  | referenced, u :: uses =>
    ⟨u, referenced⟩ ::
      turns (u.place sha256 toolDirectoryName root referenced :: referenced) uses

/-! ### Names of directories -/

/-- What is known of the names that come from outside: `to_kebab_case` leaves neither
separators nor dots, and a hash is written with 64 hexadecimal digits. -/
structure Named (sha256 : List UInt8 → String) (toolDirectoryName : String → String) : Prop where
  tool : ∀ short, ∀ c ∈ (toolDirectoryName short).toList, c ≠ '/' ∧ c ≠ '\\' ∧ c ≠ '.'
  length : ∀ bytes, (sha256 bytes).toList.length = 64
  digits : ∀ bytes, ∀ c ∈ (sha256 bytes).toList, GraphRef.isAsciiHexdigit c = true

theorem not_isAsciiHexdigit {c : Char} (h : GraphRef.isAsciiHexdigit c = true) :
    c ≠ '/' ∧ c ≠ '\\' := by
  refine ⟨?_, ?_⟩
  · rintro rfl
    exact absurd h (by decide)
  · rintro rfl
    exact absurd h (by decide)

section Named

variable {sha256 toolDirectoryName} (hnamed : Named sha256 toolDirectoryName)
include hnamed

theorem Named.toList_suffix (backend : Option String) (options : LockOptions) :
    (variantSuffix sha256 backend options).toList.length = 8 ∧
      ∀ c ∈ (variantSuffix sha256 backend options).toList,
        GraphRef.isAsciiHexdigit c = true := by
  rw [variantSuffix, String.toList_ofList, List.length_take, hnamed.length]
  exact ⟨rfl, fun c hc => hnamed.digits _ c (List.mem_of_mem_take hc)⟩

/-- The name with a suffix is a plain file name when the version is. -/
theorem Named.isPlainFileName_suffixed {u : Use T} (hu : isPlainFileName u.version = true) :
    isPlainFileName (u.version ++ "~" ++ variantSuffix sha256 u.backend u.options) = true := by
  obtain ⟨hslash, hback, hne, -, -⟩ := isPlainFileName_iff.1 hu
  obtain ⟨hlength, hdigits⟩ := hnamed.toList_suffix u.backend u.options
  have htilde : '~' ∈ u.version.toList ++ ['~'] ++
      (variantSuffix sha256 u.backend u.options).toList := by simp
  refine isPlainFileName_iff.2 ?_
  rw [String.toList_append, String.toList_append]
  refine ⟨?_, ?_, ?_, ?_, ?_⟩
  · simp only [List.mem_append, not_or]
    exact ⟨⟨hslash, by decide⟩, fun h => (not_isAsciiHexdigit (hdigits _ h)).1 rfl⟩
  · simp only [List.mem_append, not_or]
    exact ⟨⟨hback, by decide⟩, fun h => (not_isAsciiHexdigit (hdigits _ h)).2 rfl⟩
  · simp [hne]
  · exact fun h => absurd (h ▸ htilde) (by decide)
  · exact fun h => absurd (h ▸ htilde) (by decide)

theorem Named.names_tool (short : String) : names (toolDirectoryName short) =
    if (toolDirectoryName short).toList = [] then []
    else [.normal (toolDirectoryName short).toList] := by
  have hchars := hnamed.tool short
  split
  · case isTrue h =>
    rw [names, h]
    rfl
  · case isFalse h =>
    refine names_eq_singleton (fun hmem => (hchars _ hmem).1 rfl) h (fun hdot => ?_) fun hdots => ?_
    · exact (hchars '.' (hdot ▸ List.mem_cons_self)).2.2 rfl
    · exact (hchars '.' (hdots ▸ List.mem_cons_self)).2.2 rfl

theorem Named.names_tool_injective {a b : String}
    (h : names (toolDirectoryName a) = names (toolDirectoryName b)) :
    toolDirectoryName a = toolDirectoryName b := by
  rw [hnamed.names_tool, hnamed.names_tool] at h
  split at h
  · case isTrue ha =>
    split at h
    · case isTrue hb => exact String.toList_injective (ha.trans hb.symm)
    · exact nomatch h
  · split at h
    · exact nomatch h
    · injection h with h
      injection h with h
      exact String.toList_injective h

/-- The parent of a tool's directories. -/
theorem Named.join_tool (short name : String) (hname : isPlainFileName name = true) :
    join (join root (toolDirectoryName short)) name =
      root ++ names (toolDirectoryName short) ++ [.normal name.toList] := by
  obtain ⟨hslash, -, hne, hdot, hdots⟩ := isPlainFileName_iff.1 hname
  rw [join_of_notMem (fun h => (hnamed.tool short _ h).1 rfl), join_of_notMem hslash,
    names_eq_singleton hslash hne hdot hdots]

theorem Named.plain_eq {u : Use T} (hu : isPlainFileName u.version = true) :
    u.plain toolDirectoryName root =
      root ++ names (toolDirectoryName u.short) ++ [.normal u.version.toList] :=
  hnamed.join_tool root u.short u.version hu

theorem Named.suffixed_eq {u : Use T} (hu : isPlainFileName u.version = true) :
    u.suffixed sha256 toolDirectoryName root = root ++ names (toolDirectoryName u.short) ++
      [.normal (u.version ++ "~" ++ variantSuffix sha256 u.backend u.options).toList] :=
  hnamed.join_tool root u.short _ (hnamed.isPlainFileName_suffixed hu)

/-- **Two suffixed names are one for one variant of one version.** -/
theorem Named.suffixed_inj {u v : Use T} (hu : isPlainFileName u.version = true)
    (hv : isPlainFileName v.version = true)
    (h : u.suffixed sha256 toolDirectoryName root = v.suffixed sha256 toolDirectoryName root) :
    toolDirectoryName u.short = toolDirectoryName v.short ∧ u.version = v.version ∧
      variantSuffix sha256 u.backend u.options = variantSuffix sha256 v.backend v.options := by
  rw [hnamed.suffixed_eq root hu, hnamed.suffixed_eq root hv] at h
  obtain ⟨hparent, hname⟩ := List.append_inj' h
    (by rw [List.length_singleton, List.length_singleton])
  injection hname with hname
  injection hname with hname
  rw [String.toList_append, String.toList_append, String.toList_append, String.toList_append]
    at hname
  have hlength := (hnamed.toList_suffix u.backend u.options).1.trans
    (hnamed.toList_suffix v.backend v.options).1.symm
  obtain ⟨hversion, hsuffix⟩ := List.append_inj' hname hlength
  exact ⟨hnamed.names_tool_injective (List.append_cancel_left hparent),
    String.toList_injective (List.append_cancel_right hversion),
    String.toList_injective hsuffix⟩

end Named

/-! ### Meeting in a directory -/

section Meet

variable {sha256 toolDirectoryName} {disk root} {p q : Turn T}

theorem Turn.dir_of_recorded {t : Turn T} {d : Dir} (h : t.use.recorded root = some d) :
    t.dir sha256 toolDirectoryName disk root = some d := by
  rw [dir, h, if_neg (by simp), place, Use.place, h]

theorem Turn.dir_of_takesSuffix {t : Turn T} (hmoves : t.Moves sha256 disk root)
    (h : t.TakesSuffix toolDirectoryName root) : t.dir sha256 toolDirectoryName disk root =
      some (t.use.suffixed sha256 toolDirectoryName root) := by
  rw [dir, hmoves.2, if_neg (by simp), place, Use.place, hmoves.1]
  exact congrArg some (if_pos h)

theorem Turn.dir_of_not_takesSuffix {t : Turn T} (hmoves : t.Moves sha256 disk root)
    (h : ¬t.TakesSuffix toolDirectoryName root) : t.dir sha256 toolDirectoryName disk root =
      some (t.use.plain toolDirectoryName root) := by
  rw [dir, hmoves.2, if_neg (by simp), place, Use.place, hmoves.1]
  exact congrArg some (if_neg h)

/-- A plain name is taken only when it is free. -/
theorem Turn.plain_notMem {t : Turn T} (h : ¬t.TakesSuffix toolDirectoryName root) :
    t.use.plain toolDirectoryName root ∉ t.referenced := by
  intro hmem
  refine h ?_
  rw [TakesSuffix, Use.takesSuffix, List.contains_iff_mem.2 hmem, Bool.or_true]

/-- A graph that does not move stays where it is. -/
theorem Turn.dir_of_not_moves {t : Turn T} (h : ¬t.Moves sha256 disk root) :
    ∃ d, t.use.graph.dir = some d ∧ t.dir sha256 toolDirectoryName disk root = some d ∧
      (root.isPrefixOf d = true → t.use.recorded root = some d) := by
  cases hrecorded : t.use.recorded root with
  | some d =>
    exact ⟨d, (Option.filter_eq_some_iff.1 hrecorded).1, dir_of_recorded hrecorded, fun _ => rfl⟩
  | none =>
    have hunavailable : t.use.unavailable sha256 disk = true := by
      by_contra hne
      exact h ⟨hrecorded, (Bool.not_eq_true _).mp hne⟩
    have hdir : ∃ d, t.use.graph.dir = some d := by
      have hsidecar := hunavailable
      unfold Use.unavailable at hsidecar
      cases hgraph : t.use.graph with
      | inline graph dir digest =>
        rw [hgraph] at hsidecar
        exact nomatch hsidecar
      | sidecar d base digest cell => exact ⟨d, rfl⟩
    obtain ⟨d, hd⟩ := hdir
    refine ⟨d, hd, ?_, fun hbelow => ?_⟩
    · rw [dir, hrecorded, hunavailable, if_pos ⟨rfl, rfl⟩, hd]
    · rw [Use.recorded, hd, Option.filter_some, if_pos hbelow] at hrecorded
      exact nomatch hrecorded

/-- A graph that moves goes below the root. -/
theorem Turn.dir_of_moves (hnamed : Named sha256 toolDirectoryName) {t : Turn T}
    (hversion : isPlainFileName t.use.version = true) (h : t.Moves sha256 disk root) :
    ∃ d, t.dir sha256 toolDirectoryName disk root = some d ∧
      d = t.place sha256 toolDirectoryName root ∧ root.isPrefixOf d = true := by
  have hbelow : ∀ l l' : Dir, root.isPrefixOf (root ++ l ++ l') = true := fun l l' =>
    List.isPrefixOf_iff_prefix.2 (by rw [List.append_assoc]; exact List.prefix_append root _)
  refine ⟨_, by rw [dir, h.2, if_neg (by simp)], rfl, ?_⟩
  rw [place, Use.place, h.1]
  split
  · exact nomatch ‹none = some _›
  · split
    · rw [hnamed.suffixed_eq root hversion]
      exact hbelow _ _
    · rw [hnamed.plain_eq root hversion]
      exact hbelow _ _

/-- A graph that is in the way of another has its directory. -/
theorem Turn.Blocks.dir_eq (h : p.Blocks sha256 toolDirectoryName disk root q) :
    p.dir sha256 toolDirectoryName disk root = q.dir sha256 toolDirectoryName disk root := by
  obtain ⟨hmoves, hsuffix, hway⟩ := h
  rw [dir_of_takesSuffix hmoves hsuffix]
  rcases hway with hrecorded | ⟨hmoves', ⟨hplain, heq⟩ | ⟨hsuffix', hshort, hversion, hbackend,
    hoptions⟩⟩
  · exact dir_of_recorded hrecorded
  · rw [dir_of_not_takesSuffix hmoves' hplain, heq]
  · rw [dir_of_takesSuffix hmoves' hsuffix', Use.suffixed, Use.suffixed, variantSuffix,
      variantSuffix, hshort, hversion, hbackend, hoptions]

variable (sha256 toolDirectoryName root) in
/-- What holds of two graphs of a lockfile, the first one prepared before the second. -/
structure Turn.Ordered (p q : Turn T) : Prop where
  version : isPlainFileName p.use.version = true
  version' : isPlainFileName q.use.version = true
  short : toolDirectoryName p.use.short = toolDirectoryName q.use.short →
    p.use.short = q.use.short
  variant : variantSuffix sha256 p.use.backend p.use.options =
      variantSuffix sha256 q.use.backend q.use.options →
    p.use.backend.getD "" = q.use.backend.getD "" ∧ p.use.options = q.use.options
  distinct : ∀ d, p.use.graph.dir = some d → q.use.graph.dir ≠ some d
  reserved : ∀ d, q.use.recorded root = some d → d ∈ p.referenced
  reserved' : ∀ d, p.use.recorded root = some d → d ∈ q.referenced
  before : p.place sha256 toolDirectoryName root ∈ q.referenced

/-- **Two graphs meet in a directory exactly where one is in the way of the other.** -/
theorem Turn.dir_eq_iff (hnamed : Named sha256 toolDirectoryName)
    (h : Turn.Ordered sha256 toolDirectoryName root p q) :
    p.dir sha256 toolDirectoryName disk root = q.dir sha256 toolDirectoryName disk root ↔
      p.Blocks sha256 toolDirectoryName disk root q ∨
        q.Blocks sha256 toolDirectoryName disk root p := by
  constructor
  · intro heq
    by_cases hp : p.Moves sha256 disk root
    · obtain ⟨d, hd, hplace, hbelow⟩ := dir_of_moves hnamed h.version hp
      by_cases hq : q.Moves sha256 disk root
      · -- the later one is in a directory that was referenced before its turn
        have hsuffix : q.TakesSuffix toolDirectoryName root := by
          by_contra hplain
          rw [hd, dir_of_not_takesSuffix hq hplain] at heq
          exact plain_notMem hplain (Option.some.inj heq ▸ hplace ▸ h.before)
        refine .inl ⟨hq, hsuffix, .inr ⟨hp, ?_⟩⟩
        rw [dir_of_takesSuffix hq hsuffix] at heq
        by_cases hsuffix' : p.TakesSuffix toolDirectoryName root
        · rw [dir_of_takesSuffix hp hsuffix'] at heq
          obtain ⟨hshort, hversion, hvariant⟩ :=
            hnamed.suffixed_inj root h.version h.version' (Option.some.inj heq)
          exact .inr ⟨hsuffix', h.short hshort, hversion, h.variant hvariant⟩
        · rw [dir_of_not_takesSuffix hp hsuffix'] at heq
          exact .inl ⟨hsuffix', Option.some.inj heq⟩
      · obtain ⟨d', -, hd', hrecorded⟩ := dir_of_not_moves hq
        obtain rfl : d = d' := Option.some.inj (hd.symm.trans (heq.trans hd'))
        have hrecorded := hrecorded hbelow
        have hsuffix : p.TakesSuffix toolDirectoryName root := by
          by_contra hplain
          rw [dir_of_not_takesSuffix hp hplain] at hd
          exact plain_notMem hplain (Option.some.inj hd ▸ h.reserved d hrecorded)
        rw [dir_of_takesSuffix hp hsuffix] at hd
        exact .inr ⟨hp, hsuffix, .inl (hrecorded.trans hd.symm)⟩
    · obtain ⟨d, hgraph, hd, hrecorded⟩ := dir_of_not_moves hp
      by_cases hq : q.Moves sha256 disk root
      · obtain ⟨d', hd', -, hbelow⟩ := dir_of_moves hnamed h.version' hq
        obtain rfl : d = d' := Option.some.inj (hd.symm.trans (heq.trans hd'))
        have hrecorded := hrecorded hbelow
        have hsuffix : q.TakesSuffix toolDirectoryName root := by
          by_contra hplain
          rw [dir_of_not_takesSuffix hq hplain] at hd'
          exact plain_notMem hplain (Option.some.inj hd' ▸ h.reserved' d hrecorded)
        rw [dir_of_takesSuffix hq hsuffix] at hd'
        exact .inl ⟨hq, hsuffix, .inl (hrecorded.trans hd'.symm)⟩
      · obtain ⟨d', hgraph', hd', -⟩ := dir_of_not_moves hq
        obtain rfl : d = d' := Option.some.inj (hd.symm.trans (heq.trans hd'))
        exact absurd hgraph' (h.distinct d hgraph)
  · rintro (hblocks | hblocks)
    · exact hblocks.dir_eq
    · exact hblocks.dir_eq.symm

end Meet

/-! ### Preparing one graph -/

section Prepare

variable {sha256 toolDirectoryName} {disk}

/-- A digest that is written may be recorded. -/
theorem Named.isDigest_digestText (hnamed : Named sha256 toolDirectoryName) (text : String) :
    GraphRef.isDigest (digestText sha256 text) = true := by
  have htext : (digestText sha256 text).toList = "sha256:".toList ++
      (sha256 (normalizeNewlines text).toUTF8.toList).toList := by
    rw [digestText, digestBytes, String.toList_append]
  have hprefix : "sha256:".toList.isPrefixOf (digestText sha256 text).toList = true :=
    List.isPrefixOf_iff_prefix.2 (htext ▸ List.prefix_append _ _)
  have hdrop : (digestText sha256 text).toList.drop 7 =
      (sha256 (normalizeNewlines text).toUTF8.toList).toList := by
    rw [htext]
    exact List.drop_left' rfl
  rw [GraphRef.isDigest, if_pos hprefix, hdrop]
  exact Bool.and_eq_true_iff.2
    ⟨decide_eq_true (hnamed.length _), List.all_eq_true.2 (hnamed.digits _)⟩

/-- The digest of a graph that has one is valid. -/
def GraphRef.Recordable (graph : GraphRef T) : Prop :=
  ∀ dir base digest cell, graph = .sidecar dir base digest cell →
    GraphRef.isDigest digest = true

variable (sha256 toolDirectoryName disk) in
/-- What a turn does: its directory is referenced, and the graph is a pointer from then on. -/
structure Prepared (w w' : SidecarWrites) (u : Use T) (graph : GraphRef T) : Prop where
  referenced : w'.referenced =
    u.place sha256 toolDirectoryName w.root w.referenced :: w.referenced
  dir : w'.dir = w.dir
  root : w'.root = w.root
  remove : w'.remove = w.remove
  graphDir : graph.dir =
    (Turn.mk u w.referenced).dir sha256 toolDirectoryName disk w.root
  pointer : ∃ dir base digest cell, graph = .sidecar dir base digest cell
  recordable : u.graph.Recordable → graph.Recordable

/-- Storing a graph that is at hand records it under its directory. -/
theorem store_eq_ok (hnamed : Named sha256 toolDirectoryName) {w w' : SidecarWrites} {u : Use T}
    {graph : GraphRef T} {dir : Dir} (h : w.store sha256 disk u dir = .ok (w', graph)) :
    (w'.referenced = w.referenced ∧ w'.dir = w.dir ∧ w'.root = w.root ∧ w'.remove = w.remove) ∧
      (graph.dir = if u.unavailable sha256 disk then u.graph.dir else some dir) ∧
        (∃ dir base digest cell, graph = .sidecar dir base digest cell) ∧
          (u.graph.Recordable → graph.Recordable) := by
  rw [SidecarWrites.store] at h
  cases hload : u.graph.load sha256 disk u.native with
  | error e =>
    rw [hload] at h
    cases hgraph : u.graph with
    | inline body dir digest =>
      rw [hgraph] at h
      exact nomatch h
    | sidecar old base digest cell =>
      have hunavailable : u.unavailable sha256 disk = true := by
        rw [Use.unavailable, hload, hgraph]
      have hcell : ∃ cell', (GraphRef.sidecar old base digest cell).loaded sha256 disk u.native =
          .sidecar old base digest cell' := ⟨_, rfl⟩
      obtain ⟨cell', hcell⟩ := hcell
      rw [hgraph] at h
      simp only [Except.ok.injEq, Prod.mk.injEq] at h
      obtain ⟨rfl, rfl⟩ := h
      rw [hunavailable, if_pos rfl, hcell]
      refine ⟨⟨rfl, rfl, rfl, rfl⟩, rfl, ⟨_, _, _, _, rfl⟩, fun hdigest => ?_⟩
      rintro _ _ _ _ heq
      injection heq with _ _ hd _
      exact hd ▸ hdigest _ _ _ _ rfl
  | ok body =>
    have hunavailable : u.unavailable sha256 disk = false := by
      rw [Use.unavailable, hload]
      cases u.graph <;> rfl
    rw [hload] at h
    obtain ⟨files, -, h⟩ := bind_eq_ok h
    obtain ⟨text, -, h⟩ := bind_eq_ok h
    obtain ⟨rfl, rfl⟩ := Prod.mk.inj (Except.ok.inj h)
    rw [hunavailable, if_neg Bool.false_ne_true]
    refine ⟨⟨rfl, rfl, rfl, rfl⟩, rfl, ⟨_, _, _, _, rfl⟩, fun _ => ?_⟩
    rintro _ _ _ _ heq
    injection heq with _ _ hd _
    exact hd ▸ hnamed.isDigest_digestText text

/-- A graph below the root is there whether it can be read or not. -/
theorem Turn.dir_eq_ite (t : Turn T) : t.dir sha256 toolDirectoryName disk root =
    if t.use.unavailable sha256 disk then t.use.graph.dir
    else some (t.place sha256 toolDirectoryName root) := by
  rw [dir]
  cases hrecorded : t.use.recorded root with
  | none => simp
  | some d =>
    have hplace : t.place sha256 toolDirectoryName root = d := by
      rw [place, Use.place, hrecorded]
    rw [if_neg (by simp), hplace, (Option.filter_eq_some_iff.1 hrecorded).1, ite_self]

/-- **What one turn does.** -/
theorem prepare_eq_ok (hnamed : Named sha256 toolDirectoryName) {w w' : SidecarWrites} {u : Use T}
    {graph : GraphRef T} (h : w.prepare sha256 toolDirectoryName disk u = .ok (w', graph)) :
    isPlainFileName u.version = true ∧
      Prepared sha256 toolDirectoryName disk w w' u graph := by
  rw [SidecarWrites.prepare] at h
  split at h
  · exact nomatch h
  · case isFalse hversion =>
    refine ⟨by simpa using hversion, ?_⟩
    have hstored : ∀ {w'' : SidecarWrites}, SidecarWrites.store sha256 disk
        { w with referenced := u.place sha256 toolDirectoryName w.root w.referenced ::
          w.referenced } u (u.place sha256 toolDirectoryName w.root w.referenced) =
            .ok (w'', graph) → Prepared sha256 toolDirectoryName disk w w'' u graph := by
      intro w'' hstore
      obtain ⟨⟨href, hdir, hroot, hremove⟩, hgraph, hpointer, hrecord⟩ :=
        store_eq_ok hnamed hstore
      refine ⟨href, hdir, hroot, hremove, ?_, hpointer, hrecord⟩
      rw [Turn.dir_eq_ite, hgraph]
      rfl
    cases hgraph : u.graph with
    | inline body dir digest =>
      rw [hgraph] at h
      exact hstored h
    | sidecar source base digest cell =>
      rw [hgraph] at h
      dsimp only at h
      split at h
      · case isTrue hsource =>
        obtain ⟨hsource, -⟩ := hsource
        -- the graph is where it belongs
        have hdir : some source =
            (Turn.mk u w.referenced).dir sha256 toolDirectoryName disk w.root := by
          rw [Turn.dir_eq_ite, Turn.place, ← hsource, hgraph]
          exact (ite_self _).symm
        have hkept : Prepared sha256 toolDirectoryName disk w
            { w with referenced := u.place sha256 toolDirectoryName w.root w.referenced ::
              w.referenced } u u.graph := by
          refine ⟨rfl, rfl, rfl, rfl, ?_, ⟨_, _, _, _, hgraph⟩, id⟩
          rw [← hdir, hgraph]
          rfl
        rw [hgraph] at hkept
        cases cell with
        | none =>
          obtain ⟨rfl, rfl⟩ := Prod.mk.inj (Except.ok.inj h)
          exact hkept
        | some result =>
          cases result with
          | error e =>
            obtain ⟨rfl, rfl⟩ := Prod.mk.inj (Except.ok.inj h)
            exact hkept
          | ok loaded =>
            obtain ⟨text, -, h⟩ := bind_eq_ok h
            split at h
            · obtain ⟨rfl, rfl⟩ := Prod.mk.inj (Except.ok.inj h)
              refine ⟨rfl, rfl, rfl, rfl, ?_, ⟨_, _, _, _, rfl⟩, fun _ => ?_⟩
              · rw [← hdir, hsource]
                rfl
              · rintro _ _ _ _ heq
                injection heq with _ _ hd _
                exact hd ▸ hnamed.isDigest_digestText text
            · obtain ⟨rfl, rfl⟩ := Prod.mk.inj (Except.ok.inj h)
              exact hkept
      · exact hstored h

end Prepare

/-! ### Preparing all graphs -/

section Run

variable {sha256 toolDirectoryName} {disk root}

theorem map_use_turns (referenced : List Dir) (uses : List (Use T)) :
    (turns sha256 toolDirectoryName root referenced uses).map Turn.use = uses := by
  induction uses generalizing referenced with
  | nil => rfl
  | cons u uses ih => rw [turns, List.map_cons, ih]

/-- What is referenced stays so. -/
theorem mem_referenced_of_mem_turns {referenced : List Dir} {uses : List (Use T)} {t : Turn T}
    (h : t ∈ turns sha256 toolDirectoryName root referenced uses) {d : Dir}
    (hd : d ∈ referenced) : d ∈ t.referenced := by
  induction uses generalizing referenced with
  | nil => exact absurd h List.not_mem_nil
  | cons u uses ih =>
    rcases List.mem_cons.1 h with rfl | h
    · exact hd
    · exact ih h (List.mem_cons_of_mem _ hd)

/-- **The directory of an earlier graph is referenced at every later turn.** -/
theorem pairwise_turns (referenced : List Dir) (uses : List (Use T)) :
    (turns sha256 toolDirectoryName root referenced uses).Pairwise fun p q =>
      p.place sha256 toolDirectoryName root ∈ q.referenced := by
  induction uses generalizing referenced with
  | nil => exact .nil
  | cons u uses ih =>
    refine .cons (fun q hq => ?_) (ih _)
    exact mem_referenced_of_mem_turns hq List.mem_cons_self

variable (sha256 toolDirectoryName disk) in
/-- What all turns leave. -/
structure PreparedAll (w w' : SidecarWrites) (ts : List (Turn T)) (graphs : List (GraphRef T)) :
    Prop where
  version : ∀ t ∈ ts, isPlainFileName t.use.version = true
  dirs : graphs.map GraphRef.dir = ts.map (Turn.dir sha256 toolDirectoryName disk w.root)
  dir : w'.dir = w.dir
  root : w'.root = w.root
  remove : w'.remove = w.remove
  referenced : ∀ d ∈ w.referenced, d ∈ w'.referenced
  places : ∀ t ∈ ts, t.place sha256 toolDirectoryName w.root ∈ w'.referenced
  pointer : ∀ graph ∈ graphs, ∃ dir base digest cell, graph = .sidecar dir base digest cell
  recordable : (∀ t ∈ ts, t.use.graph.Recordable) → ∀ graph ∈ graphs, graph.Recordable

/-- Uses are prepared one after another, each with what is referenced by then. -/
theorem prepareAll_eq_ok (hnamed : Named sha256 toolDirectoryName) {w w' : SidecarWrites}
    {uses : List (Use T)} {graphs : List (GraphRef T)}
    (h : prepareAll sha256 toolDirectoryName disk w uses = .ok (w', graphs)) :
    PreparedAll sha256 toolDirectoryName disk w w'
      (turns sha256 toolDirectoryName w.root w.referenced uses) graphs := by
  induction uses generalizing w graphs with
  | nil =>
    obtain ⟨rfl, rfl⟩ := Prod.mk.inj (Except.ok.inj h)
    constructor <;> simp [turns]
  | cons u uses ih =>
    rw [prepareAll] at h
    obtain ⟨⟨w₁, graph⟩, hfirst, h⟩ := bind_eq_ok h
    obtain ⟨⟨w₂, rest⟩, hrest, h⟩ := bind_eq_ok h
    obtain ⟨rfl, rfl⟩ := Prod.mk.inj (Except.ok.inj h)
    obtain ⟨hversion, hone⟩ := prepare_eq_ok hnamed hfirst
    have hall := ih hrest
    have hturns : turns sha256 toolDirectoryName w.root w.referenced (u :: uses) =
        ⟨u, w.referenced⟩ :: turns sha256 toolDirectoryName w₁.root w₁.referenced uses := by
      rw [turns, hone.root, hone.referenced]
    rw [hturns]
    constructor
    · exact List.forall_mem_cons.2 ⟨hversion, hall.version⟩
    · rw [List.map_cons, List.map_cons, hone.graphDir, hall.dirs, hone.root]
    · exact hall.dir.trans hone.dir
    · exact hall.root.trans hone.root
    · exact hall.remove.trans hone.remove
    · intro d hd
      refine hall.referenced d ?_
      rw [hone.referenced]
      exact List.mem_cons_of_mem _ hd
    · refine List.forall_mem_cons.2 ⟨hall.referenced _ ?_, ?_⟩
      · rw [hone.referenced]
        exact List.mem_cons_self
      · exact hone.root ▸ hall.places
    · exact List.forall_mem_cons.2 ⟨hone.pointer, hall.pointer⟩
    · intro hrecord
      obtain ⟨hfirst, hrest⟩ := List.forall_mem_cons.1 hrecord
      exact List.forall_mem_cons.2 ⟨hone.recordable hfirst, hall.recordable hrest⟩

/-- What reserving the directories of graphs leaves. -/
structure Reserved (w w' : SidecarWrites) (uses : List (Use T)) : Prop where
  referenced : ∀ d, d ∈ w'.referenced ↔
    d ∈ w.referenced ∨ ∃ u ∈ uses, u.recorded w.root = some d
  dir : w'.dir = w.dir
  root : w'.root = w.root
  remove : w'.remove = w.remove

theorem reserved_reserve (w : SidecarWrites) (u : Use T) : Reserved w (w.reserve u.graph) [u] := by
  rw [SidecarWrites.reserve, ← Use.recorded]
  cases hrecorded : u.recorded w.root with
  | none => exact ⟨by simp [hrecorded], rfl, rfl, rfl⟩
  | some dir =>
    refine ⟨fun d => ?_, rfl, rfl, rfl⟩
    simp [hrecorded, or_comm, eq_comm]

theorem reserved_foldl (w : SidecarWrites) (uses : List (Use T)) :
    Reserved w (uses.foldl (fun w u => w.reserve u.graph) w) uses := by
  induction uses generalizing w with
  | nil => exact ⟨by simp, rfl, rfl, rfl⟩
  | cons u uses ih =>
    have hone := reserved_reserve w u
    have hall := ih (w.reserve u.graph)
    refine ⟨fun d => ?_, hall.dir.trans hone.dir, hall.root.trans hone.root,
      hall.remove.trans hone.remove⟩
    rw [List.foldl_cons, hall.referenced, hone.referenced, hone.root]
    simp [or_assoc]

/-- **The directories that are referenced at first are those that graphs keep.** -/
theorem reserved_reserveAll (place : Place) (uses : List (Use T)) :
    Reserved (.new place) (reserveAll place uses) uses :=
  reserved_foldl (.new place) uses

/-- **What garbage collection removes is below the root and not referenced.** -/
theorem mem_collectGarbage {w : SidecarWrites} {d : Dir}
    (h : d ∈ (w.collectGarbage disk).remove) :
    d ∈ w.remove ∨ d ∉ w.referenced ∧ w.root.isPrefixOf d = true := by
  rw [SidecarWrites.collectGarbage] at h
  split at h
  · exact .inl h
  · split at h
    · exact .inl h
    · case h_2 tools _ =>
      rcases List.mem_append.1 h with h | h
      · exact .inl h
      · obtain ⟨tool, -, h⟩ := List.mem_flatMap.1 h
        rw [SidecarWrites.garbageOf] at h
        split at h
        · exact absurd h List.not_mem_nil
        · obtain ⟨hmem, hkept⟩ := List.mem_filter.1 h
          obtain ⟨version, -, rfl⟩ := List.mem_map.1 hmem
          simp only [Bool.and_eq_true, Bool.not_eq_true'] at hkept
          refine .inr ⟨fun href => ?_, ?_⟩
          · exact Bool.false_ne_true (hkept.1.2.symm.trans (List.contains_iff_mem.2 href))
          · rw [List.append_assoc]
            exact List.isPrefixOf_iff_prefix.2 (List.prefix_append _ _)

end Run

/-! ### What the lockfile records -/

section Pointers

variable {sha256 : List UInt8 → String} {toolDirectoryName : String → String} {disk : Disk}

/-- The pointer of a graph leads back to it. -/
def GraphRef.Resolves (sha256 : List UInt8 → String) (base : Dir) (graph : GraphRef T) : Prop :=
  ∀ native : NativeGraph T, ∃ p, graph.pointer sha256 native base = .ok p ∧
    ∃ graph' : GraphRef T, (GraphRef.parse p >>= GraphRef.resolvePath base) = .ok graph' ∧
      graph'.dir = graph.dir ∧ graph'.identity sha256 native = graph.identity sha256 native

/-- **The pointer of a directory leads back to it exactly when all names are plain.** -/
theorem GraphRef.resolves_iff {base rel old : Dir} {digest : String}
    {cell : Option (Except String T)} (hrel : ∀ c ∈ rel, IsSegment c)
    (hdigest : isDigest digest = true) (native : NativeGraph T) :
    (sidecar (base ++ rel) old digest cell).Resolves sha256 base ↔ rel.all isPlain = true := by
  have hpointer : ∀ native : NativeGraph T,
      (sidecar (base ++ rel) old digest cell).pointer sha256 native base =
        .ok (String.ofList (['/'].intercalate (rel.map componentText)), digest) := by
    intro native
    rw [pointer, dir]
    dsimp only
    rw [if_pos (List.isPrefixOf_iff_prefix.2 (List.prefix_append _ _)), List.drop_left, identity]
    rfl
  have hparse : (parse (String.ofList (['/'].intercalate (rel.map componentText)), digest) :
      Except String (GraphRef T)) = .ok (sidecar rel [] digest none) := by
    rw [parse, if_pos hdigest, components_intercalate hrel]
  constructor
  · intro h
    obtain ⟨p, hp, graph', hresolve, -⟩ := h native
    rw [hpointer] at hp
    rw [← Except.ok.inj hp, hparse] at hresolve
    change resolvePath base (sidecar rel [] digest none) = _ at hresolve
    rw [resolvePath] at hresolve
    split at hresolve
    · assumption
    · exact nomatch hresolve
  · intro h native
    refine ⟨_, hpointer native, sidecar (base ++ rel) base digest none, ?_, rfl, rfl⟩
    rw [hparse]
    change resolvePath base (sidecar rel [] digest none) = _
    rw [resolvePath, if_pos h]

/-- The components of the root below the lockfile's directory. -/
def Place.below (place : Place) : Dir :=
  place.locks.flatMap names ++
    if place.name = "mise.lock".toList then [] else names (String.ofList (fileStem place.name))

theorem notMem_fileStem {name : List Char} (h : '/' ∉ name) : '/' ∉ fileStem name := by
  rw [fileStem]
  cases hsplit : rsplitOnce '.' name with
  | none => exact h
  | some parts =>
    obtain ⟨before, after⟩ := parts
    dsimp only
    split
    · exact h
    · rw [rsplitOnce_eq_some hsplit] at h
      exact fun hmem => h (List.mem_append_left _ hmem)

theorem Place.root_eq (place : Place) : place.root = place.base ++ place.below := by
  have hlocks : place.locks.foldl join place.base = place.base ++ place.locks.flatMap names := by
    rw [locks]
    split
    · rfl
    · split
      · rfl
      · split
        · rfl
        · split
          · exact List.append_assoc _ _ _
          · exact List.append_assoc _ _ _
  rw [root, below, hlocks]
  split
  · rw [List.append_nil]
  · have hstem : '/' ∉ (String.ofList (fileStem place.name)).toList := by
      rw [String.toList_ofList]
      exact notMem_fileStem place.noSlash
    rw [join_of_notMem hstem, List.append_assoc]

theorem Place.isSegment_below (place : Place) : ∀ c ∈ place.below, IsSegment c := by
  intro c hc
  rcases List.mem_append.1 hc with hc | hc
  · obtain ⟨name, -, hc⟩ := List.mem_flatMap.1 hc
    exact isSegment_of_mem_names hc
  · split at hc
    · exact absurd hc List.not_mem_nil
    · exact isSegment_of_mem_names hc

/-- A graph as it is read from a lockfile: its directory was resolved there, and its digest was
accepted. -/
structure GraphRef.ReadAt (place : Place) (graph : GraphRef T) : Prop where
  dir : ∀ d, graph.dir = some d → ∃ path : String,
    d = place.base ++ (PathBuf.mk path).components ∧
      (PathBuf.mk path).components.all isPlain = true
  recordable : graph.Recordable

/-- The names of a path without a root or a dot in front are segments. -/
theorem isSegment_of_isPlain {path : String} {c : Component} (h : c ∈ (PathBuf.mk path).components)
    (hc : GraphRef.isPlain c = true) : IsSegment c := by
  rw [PathBuf.components] at h
  rcases List.mem_append.1 h with h | h
  · split at h
    · rw [List.mem_singleton.1 h] at hc
      cases hc
    · split at h
      · rw [List.mem_singleton.1 h] at hc
        cases hc
      · exact absurd h List.not_mem_nil
  · exact isSegment_of_mem_names h

/-- Where a graph that moves goes, below the lockfile's directory. -/
theorem Turn.place_eq (hnamed : Named sha256 toolDirectoryName) {place : Place} {t : Turn T}
    (hversion : isPlainFileName t.use.version = true) (h : t.Moves sha256 disk place.root) :
    ∃ rel, t.place sha256 toolDirectoryName place.root = place.base ++ rel ∧
      (∀ c ∈ rel, IsSegment c) ∧ (rel.all GraphRef.isPlain = place.below.all GraphRef.isPlain) := by
  have hname : ∃ name, isPlainFileName name = true ∧
      t.place sha256 toolDirectoryName place.root =
        place.root ++ names (toolDirectoryName t.use.short) ++ [.normal name.toList] := by
    rw [Turn.place, Use.place, h.1]
    dsimp only
    split
    · exact ⟨_, hnamed.isPlainFileName_suffixed hversion, hnamed.suffixed_eq place.root hversion⟩
    · exact ⟨_, hversion, hnamed.plain_eq place.root hversion⟩
  obtain ⟨name, hplain, hplace⟩ := hname
  obtain ⟨hslash, hback, hne, hdot, hdots⟩ := isPlainFileName_iff.1 hplain
  refine ⟨place.below ++ names (toolDirectoryName t.use.short) ++ [.normal name.toList], ?_, ?_, ?_⟩
  · rw [hplace, place.root_eq]
    simp only [List.append_assoc]
  · intro c hc
    rcases List.mem_append.1 hc with hc | hc
    · rcases List.mem_append.1 hc with hc | hc
      · exact place.isSegment_below c hc
      · exact isSegment_of_mem_names hc
    · rw [List.mem_singleton.1 hc]
      exact ⟨hslash, hne, hdot, if_neg hdots⟩
  · have htool : (names (toolDirectoryName t.use.short)).all GraphRef.isPlain = true := by
      rw [hnamed.names_tool]
      split
      · rfl
      · have hchars := hnamed.tool t.use.short
        simpa [GraphRef.isPlain] using fun hmem => (hchars _ hmem).2.1 rfl
    have hlast : [Component.normal name.toList].all GraphRef.isPlain = true := by
      simpa [GraphRef.isPlain] using hback
    rw [List.all_append, List.all_append, htool, hlast, Bool.and_true, Bool.and_true]

/-- **Sidecar directories are kept apart**: no two graphs have one directory, garbage collection
removes none that a graph has, and what the lockfile records leads back to each. -/
structure Apart (sha256 : List UInt8 → String) (disk : Disk) (place : Place) (w : SidecarWrites)
    (graphs : List (GraphRef T)) : Prop where
  apart : (graphs.map GraphRef.dir).Nodup
  uncollected : ∀ graph ∈ graphs, ∀ d, graph.dir = some d →
    d ∉ (w.collectGarbage disk).remove
  resolves : ∀ graph ∈ graphs, graph.Resolves sha256 place.base

/-- All graphs of a list of entries. -/
def usesOf (uvNative aubeNative : NativeGraph T) (entries : List (Entry T)) : List (Use T) :=
  entries.flatMap (Entry.uses uvNative aubeNative)

theorem mem_uses {uvNative aubeNative : NativeGraph T} {e : Entry T} {u : Use T}
    (h : u ∈ e.uses uvNative aubeNative) :
    u.short = e.short ∧ u.backend = e.backend ∧ u.options = e.options := by
  rcases List.mem_append.1 h with h | h
  · obtain ⟨graph, -, rfl⟩ := Option.map_eq_some_iff.1 (Option.mem_toList.1 h)
    exact ⟨rfl, rfl, rfl⟩
  · obtain ⟨graph, -, rfl⟩ := Option.map_eq_some_iff.1 (Option.mem_toList.1 h)
    exact ⟨rfl, rfl, rfl⟩

section Theorem

variable {place : Place} {uses order : List (Use T)} {w : SidecarWrites}
  {graphs : List (GraphRef T)} (hnamed : Named sha256 toolDirectoryName)
  (hread : ∀ u ∈ uses, u.graph.ReadAt place)
  (hdistinct : (uses.filterMap fun u => u.graph.dir).Nodup)
  (hshort : ∀ u ∈ uses, ∀ v ∈ uses,
    toolDirectoryName u.short = toolDirectoryName v.short → u.short = v.short)
  (hvariant : ∀ u ∈ uses, ∀ v ∈ uses,
    variantSuffix sha256 u.backend u.options = variantSuffix sha256 v.backend v.options →
      u.backend.getD "" = v.backend.getD "" ∧ u.options = v.options)
  (horder : order.Perm uses)
  (hrun : prepareAll sha256 toolDirectoryName disk (reserveAll place uses) order = .ok (w, graphs))
include hnamed hrun

/-- What all turns of a write leave. -/
theorem preparedAll_write : PreparedAll sha256 toolDirectoryName disk (reserveAll place uses) w
    (turns sha256 toolDirectoryName place.root (reserveAll place uses).referenced order)
    graphs := by
  have h := prepareAll_eq_ok hnamed hrun
  rwa [(reserved_reserveAll place uses).root] at h

omit hnamed hrun in
include horder in
theorem use_mem {t : Turn T} (ht : t ∈ turns sha256 toolDirectoryName place.root
    (reserveAll place uses).referenced order) : t.use ∈ uses := by
  have hmem := List.mem_map_of_mem (f := Turn.use) ht
  rw [map_use_turns] at hmem
  exact horder.mem_iff.1 hmem

include horder hdistinct hshort hvariant in
/-- Any two turns of a write are those of two graphs of the lockfile, one after the other. -/
theorem ordered_turns :
    (turns sha256 toolDirectoryName place.root (reserveAll place uses).referenced order).Pairwise
      (Turn.Ordered sha256 toolDirectoryName place.root) := by
  have hall := preparedAll_write hnamed hrun
  have hbefore : (turns sha256 toolDirectoryName place.root (reserveAll place uses).referenced
      order).Pairwise fun p q => p.place sha256 toolDirectoryName place.root ∈ q.referenced :=
    pairwise_turns _ order
  have hgraphs : order.Pairwise fun u v => ∀ d, u.graph.dir = some d → v.graph.dir ≠ some d := by
    have hnodup := (horder.filterMap fun u => u.graph.dir).nodup_iff.2 hdistinct
    refine (List.pairwise_filterMap.1 hnodup).imp fun h d hd hd' => ?_
    exact h d hd d hd' rfl
  have hdirs : (turns sha256 toolDirectoryName place.root (reserveAll place uses).referenced
      order).Pairwise fun p q => ∀ d, p.use.graph.dir = some d → q.use.graph.dir ≠ some d := by
    rw [← List.pairwise_map (f := Turn.use)
      (R := fun u v : Use T => ∀ d, u.graph.dir = some d → v.graph.dir ≠ some d), map_use_turns]
    exact hgraphs
  have hreserved : ∀ p ∈ turns sha256 toolDirectoryName place.root
      (reserveAll place uses).referenced order, ∀ q ∈ turns sha256 toolDirectoryName place.root
        (reserveAll place uses).referenced order, ∀ d,
          q.use.recorded place.root = some d → d ∈ p.referenced := by
    intro p hp q hq d hd
    refine mem_referenced_of_mem_turns hp ?_
    exact ((reserved_reserveAll place uses).referenced d).2 (.inr ⟨q.use, use_mem horder hq, hd⟩)
  refine (hbefore.and hdirs).imp_of_mem fun {p q} hp hq h => ?_
  exact
    { version := hall.version p hp
      version' := hall.version q hq
      short := hshort _ (use_mem horder hp) _ (use_mem horder hq)
      variant := hvariant _ (use_mem horder hp) _ (use_mem horder hq)
      distinct := h.2
      reserved := hreserved p hp q hq
      reserved' := hreserved q hq p hp
      before := h.1 }

include horder in
/-- Every graph that has a directory has a referenced one, or one away from the root. -/
theorem mem_referenced_of_mem {graph : GraphRef T} (hgraph : graph ∈ graphs) {d : Dir}
    (hd : graph.dir = some d) (hbelow : place.root.isPrefixOf d = true) : d ∈ w.referenced := by
  have hall := preparedAll_write hnamed hrun
  have hroot : (reserveAll place uses).root = place.root := (reserved_reserveAll place uses).root
  have hmem := List.mem_map_of_mem (f := GraphRef.dir) hgraph
  rw [hall.dirs, hroot] at hmem
  obtain ⟨t, ht, hdir⟩ := List.mem_map.1 hmem
  rw [hd] at hdir
  by_cases hmoves : t.Moves sha256 disk place.root
  · obtain ⟨d', hd', hplace, -⟩ := t.dir_of_moves hnamed (hall.version t ht) hmoves
    obtain rfl : d = d' := Option.some.inj (hdir.symm.trans hd')
    rw [hplace, ← hroot]
    exact hall.places t ht
  · obtain ⟨d', -, hd', hrecorded⟩ := Turn.dir_of_not_moves hmoves
    obtain rfl : d = d' := Option.some.inj (hdir.symm.trans hd')
    refine hall.referenced d (((reserved_reserveAll place uses).referenced d).2 (.inr ?_))
    exact ⟨t.use, use_mem horder ht, hrecorded hbelow⟩

include hread horder in
/-- The pointer of a graph leads back to it unless it moved below a root without a plain name. -/
theorem resolves_iff_of_mem {graph : GraphRef T} (hgraph : graph ∈ graphs) {t : Turn T}
    (ht : t ∈ turns sha256 toolDirectoryName place.root (reserveAll place uses).referenced order)
    (hdir : graph.dir = t.dir sha256 toolDirectoryName disk place.root) :
    graph.Resolves sha256 place.base ↔
      (t.Moves sha256 disk place.root → place.below.all GraphRef.isPlain = true) := by
  have hall := preparedAll_write hnamed hrun
  obtain ⟨dir, old, digest, cell, rfl⟩ := hall.pointer graph hgraph
  have hdigest : GraphRef.isDigest digest = true :=
    hall.recordable (fun t ht => (hread _ (use_mem horder ht)).recordable) _ hgraph _ _ _ _ rfl
  by_cases hmoves : t.Moves sha256 disk place.root
  · obtain ⟨d, hd, hplace, -⟩ := t.dir_of_moves hnamed (hall.version t ht) hmoves
    obtain rfl : dir = d := Option.some.inj (hdir.trans hd)
    obtain ⟨rel, hrel, hsegments, hplain⟩ := Turn.place_eq hnamed (hall.version t ht) hmoves
    rw [hplace, hrel, GraphRef.resolves_iff hsegments hdigest t.use.native, hplain]
    exact ⟨fun h _ => h, fun h => h hmoves⟩
  · obtain ⟨d, hd', hd, -⟩ := Turn.dir_of_not_moves hmoves
    obtain rfl : dir = d := Option.some.inj (hdir.trans hd)
    obtain ⟨path, rfl, hplain⟩ := (hread _ (use_mem horder ht)).dir dir hd'
    have hsegments : ∀ c ∈ (PathBuf.mk path).components, IsSegment c := fun c hc =>
      isSegment_of_isPlain hc (List.all_eq_true.1 hplain c hc)
    rw [GraphRef.resolves_iff hsegments hdigest t.use.native]
    exact iff_of_true hplain fun h => absurd h hmoves

include hread horder hdistinct hshort hvariant in
/-- **When sidecar directories are kept apart.** -/
theorem apart_iff : Apart sha256 disk place w graphs ↔
    (turns sha256 toolDirectoryName place.root (reserveAll place uses).referenced
        order).Pairwise (fun p q => ¬p.Blocks sha256 toolDirectoryName disk place.root q ∧
          ¬q.Blocks sha256 toolDirectoryName disk place.root p) ∧
      ((∃ u ∈ uses, u.recorded place.root = none ∧ u.unavailable sha256 disk = false) →
        place.below.all GraphRef.isPlain = true) := by
  have hall := preparedAll_write hnamed hrun
  have hroot : (reserveAll place uses).root = place.root := (reserved_reserveAll place uses).root
  have hordered := ordered_turns hnamed hdistinct hshort hvariant horder hrun
  have hapart : (graphs.map GraphRef.dir).Nodup ↔
      (turns sha256 toolDirectoryName place.root (reserveAll place uses).referenced
        order).Pairwise (fun p q => ¬p.Blocks sha256 toolDirectoryName disk place.root q ∧
          ¬q.Blocks sha256 toolDirectoryName disk place.root p) := by
    rw [hall.dirs, hroot, List.Nodup, List.pairwise_map]
    constructor
    · intro h
      refine (hordered.and h).imp fun {p q} hpq => ?_
      have hne := hpq.2
      rw [Ne, Turn.dir_eq_iff hnamed hpq.1, not_or] at hne
      exact hne
    · intro h
      refine (hordered.and h).imp fun {p q} hpq => ?_
      rw [Ne, Turn.dir_eq_iff hnamed hpq.1, not_or]
      exact hpq.2
  constructor
  · intro h
    refine ⟨hapart.1 h.apart, fun ⟨u, hu, hmoves⟩ => ?_⟩
    have hturn : u ∈ (turns sha256 toolDirectoryName place.root (reserveAll place uses).referenced
        order).map Turn.use := by
      rw [map_use_turns]
      exact horder.mem_iff.2 hu
    obtain ⟨t, ht, rfl⟩ := List.mem_map.1 hturn
    have hdir : t.dir sha256 toolDirectoryName disk place.root ∈ graphs.map GraphRef.dir := by
      rw [hall.dirs, hroot]
      exact List.mem_map_of_mem ht
    obtain ⟨graph, hgraph, hdir⟩ := List.mem_map.1 hdir
    exact (resolves_iff_of_mem hnamed hread horder hrun hgraph ht hdir).1
      (h.resolves graph hgraph) hmoves
  · rintro ⟨hblocks, hplain⟩
    refine ⟨hapart.2 hblocks, fun graph hgraph d hd hremoved => ?_, fun graph hgraph => ?_⟩
    · rcases mem_collectGarbage hremoved with hmem | ⟨hnot, hbelow⟩
      · rw [hall.remove, (reserved_reserveAll place uses).remove] at hmem
        exact absurd hmem List.not_mem_nil
      · rw [hall.root, hroot] at hbelow
        exact hnot (mem_referenced_of_mem hnamed horder hrun hgraph hd hbelow)
    · have hmem := List.mem_map_of_mem (f := GraphRef.dir) hgraph
      rw [hall.dirs, hroot] at hmem
      obtain ⟨t, ht, hdir⟩ := List.mem_map.1 hmem
      rw [resolves_iff_of_mem hnamed hread horder hrun hgraph ht hdir.symm]
      exact fun hmoves => hplain ⟨t.use, use_mem horder ht, hmoves⟩

end Theorem

/-- The turns of the graphs of all entries, the entries being prepared in the order `order`. -/
def entryTurns (sha256 : List UInt8 → String) (toolDirectoryName : String → String)
    (uvNative aubeNative : NativeGraph T) (place : Place) (entries order : List (Entry T)) :
    List (Turn T) :=
  turns sha256 toolDirectoryName place.root
    (reserveAll place (usesOf uvNative aubeNative entries)).referenced
    (usesOf uvNative aubeNative order)

/-- **Sidecar directories are kept apart exactly when no suffixed name is in the way.**  The
entries are those of a lockfile whose recorded directories are distinct; its tools have
different directory names, and its variants different suffixes.  A new graph whose name gets a
suffix must not find that name recorded for another graph, taken as the plain name of another
version, or taken by the other graph of its variant; and a new graph is found again only below
a root whose names are plain. -/
theorem sidecars_apart_iff (hnamed : Named sha256 toolDirectoryName)
    {uvNative aubeNative : NativeGraph T} {place : Place} {entries order : List (Entry T)}
    {w : SidecarWrites} {graphs : List (GraphRef T)} (horder : order.Perm entries)
    (hread : ∀ u ∈ usesOf uvNative aubeNative entries, u.graph.ReadAt place)
    (hdistinct : ((usesOf uvNative aubeNative entries).filterMap fun u => u.graph.dir).Nodup)
    (hshort : ∀ e ∈ entries, ∀ e' ∈ entries,
      toolDirectoryName e.short = toolDirectoryName e'.short → e.short = e'.short)
    (hvariant : ∀ e ∈ entries, ∀ e' ∈ entries,
      variantSuffix sha256 e.backend e.options = variantSuffix sha256 e'.backend e'.options →
        e.backend.getD "" = e'.backend.getD "" ∧ e.options = e'.options)
    (hrun : prepareAll sha256 toolDirectoryName disk
      (reserveAll place (usesOf uvNative aubeNative entries))
      (usesOf uvNative aubeNative order) = .ok (w, graphs)) :
    Apart sha256 disk place w graphs ↔
      (entryTurns sha256 toolDirectoryName uvNative aubeNative place entries order).Pairwise
          (fun p q => ¬p.Blocks sha256 toolDirectoryName disk place.root q ∧
            ¬q.Blocks sha256 toolDirectoryName disk place.root p) ∧
        ((∃ u ∈ usesOf uvNative aubeNative entries,
            u.recorded place.root = none ∧ u.unavailable sha256 disk = false) →
          place.below.all GraphRef.isPlain = true) := by
  have hentry : ∀ u ∈ usesOf uvNative aubeNative entries, ∃ e ∈ entries,
      u.short = e.short ∧ u.backend = e.backend ∧ u.options = e.options := by
    intro u hu
    obtain ⟨e, he, hu⟩ := List.mem_flatMap.1 hu
    exact ⟨e, he, mem_uses hu⟩
  refine apart_iff hnamed hread hdistinct ?_ ?_ (horder.flatMap_right _) hrun
  · intro u hu v hv heq
    obtain ⟨e, he, hshort₁, -⟩ := hentry u hu
    obtain ⟨e', he', hshort₂, -⟩ := hentry v hv
    rw [hshort₁, hshort₂] at heq ⊢
    exact hshort e he e' he' heq
  · intro u hu v hv heq
    obtain ⟨e, he, -, hbackend₁, hoptions₁⟩ := hentry u hu
    obtain ⟨e', he', -, hbackend₂, hoptions₂⟩ := hentry v hv
    rw [hbackend₁, hoptions₁, hbackend₂, hoptions₂] at heq ⊢
    exact hvariant e he e' he' heq

end Pointers

end Turns

/-! ### Two extras of one version -/

/-- The hash, on what a lockfile with two extras of one tool hashes. -/
def extrasHash (bytes : List UInt8) : String :=
  if bytes.length = 94 then "1c6da794576cb92be7be16b1fe0f7004c983058fc59a81962b0d907007fc9356"
  else if bytes.length = 100 then
    "0421c14c7a95f715229a65d718926591a1470d030ea05d62059b08bbc70beb52"
  else "dbab12665d98aef021ba64953c61b0ed8a908cfb56a1c01e2fcb4b052b71a2a1"

/-- Dashes between the words of a name in small letters. -/
def kebab (short : String) : String :=
  String.ofList (short.toList.map fun c => if c.isAlphanum then c else '-')

/-- Graphs that are their text. -/
def textGraph : NativeGraph String where
  graphFile := "uv.lock"
  graphText := .ok
  files text := .ok [("uv.lock", text), ("pyproject.toml", "")]
  read _ _ text := .ok text

/-- The lockfile of a project. -/
def projectLockfile : Place where
  base := (PathBuf.mk "/home/user/project").components
  layout := (PathBuf.mk "/home/user/project").components
  isGlobal := false
  name := "mise.lock".toList
  noSlash := by decide

/-- A directory that was chosen for the extra `jupyter`. -/
def jupyterDir : Dir :=
  projectLockfile.base ++ (PathBuf.mk ".mise/locks/pypi-black/24.1.0~0421c14c").components

/-- A disk that has one sidecar directory. -/
def oneSidecar (dir : Dir) : Disk where
  isSymlink _ := false
  isDir p := p = dir
  isFile _ := false
  readToString _ := .error "not found"
  readDir _ := none

/-- An entry that was locked with the extra `jupyter` and keeps its directory with the extra
`d`. -/
def keptEntry : Entry String :=
  { short := "pypi:black", version := "24.1.0", backend := some "pypi:black",
    options := (∅ : BTreeMap String String).insert "extras" "d",
    uv := some (.sidecar jupyterDir projectLockfile.base
      "sha256:d1472b7507b6aa5478e8580fc8fdef95dbf67a81eadf9181c0e677d30db0b75b" none) }

/-- A new entry, with the extra `jupyter`. -/
def newEntry (version : String) : Entry String :=
  { short := "pypi:black", version, backend := some "pypi:black",
    options := (∅ : BTreeMap String String).insert "extras" "jupyter",
    uv := some (.inline "version = 1\n" none none) }

theorem isAsciiHexdigit_extrasHash (bytes : List UInt8) :
    (extrasHash bytes).toList.length = 64 ∧
      (extrasHash bytes).toList.all GraphRef.isAsciiHexdigit = true := by
  rw [extrasHash]
  by_cases hd : bytes.length = 94
  · rw [if_pos hd]
    decide +kernel
  · rw [if_neg hd]
    by_cases hjupyter : bytes.length = 100
    · rw [if_pos hjupyter]
      decide +kernel
    · rw [if_neg hjupyter]
      decide +kernel

theorem named_extrasHash : Named extrasHash kebab where
  tool short c hc := by
    rw [kebab, String.toList_ofList] at hc
    obtain ⟨a, -, rfl⟩ := List.mem_map.1 hc
    by_cases halphanum : a.isAlphanum = true
    · rw [if_pos halphanum]
      refine ⟨?_, ?_, ?_⟩ <;> (rintro rfl; exact absurd halphanum (by decide))
    · rw [if_neg halphanum]
      decide
  length bytes := (isAsciiHexdigit_extrasHash bytes).1
  digits bytes := List.all_eq_true.1 (isAsciiHexdigit_extrasHash bytes).2

theorem readAt_keptEntry (version : String) :
    ∀ u ∈ usesOf textGraph textGraph [keptEntry, newEntry version],
      u.graph.ReadAt projectLockfile := by
  refine List.forall_mem_cons.2 ⟨⟨?_, ?_⟩, List.forall_mem_singleton.2 ⟨?_, ?_⟩⟩
  · rintro d hd
    exact ⟨".mise/locks/pypi-black/24.1.0~0421c14c", (Option.some.inj hd).symm, by decide +kernel⟩
  · rintro _ _ _ _ hgraph
    injection hgraph with _ _ hdigest _
    rw [← hdigest]
    decide +kernel
  · exact fun d hd => nomatch hd
  · exact fun _ _ _ _ hgraph => nomatch hgraph

theorem variant_keptEntry (version : String) :
    ∀ e ∈ [keptEntry, newEntry version], ∀ e' ∈ [keptEntry, newEntry version],
      variantSuffix extrasHash e.backend e.options =
        variantSuffix extrasHash e'.backend e'.options →
          e.backend.getD "" = e'.backend.getD "" ∧ e.options = e'.options := by
  have hne : variantSuffix extrasHash keptEntry.backend keptEntry.options ≠
      variantSuffix extrasHash (newEntry version).backend (newEntry version).options := by
    have hkept : variantSuffix extrasHash keptEntry.backend keptEntry.options = "1c6da794" := by
      decide +kernel
    have hnew : variantSuffix extrasHash (newEntry version).backend (newEntry version).options =
        "0421c14c" := by
      change variantSuffix extrasHash (newEntry "").backend (newEntry "").options = _
      decide +kernel
    rw [hkept, hnew]
    decide
  intro e he e' he' heq
  rcases List.mem_pair.1 he with rfl | rfl <;> rcases List.mem_pair.1 he' with rfl | rfl
  · exact ⟨rfl, rfl⟩
  · exact absurd heq hne
  · exact absurd heq.symm hne
  · exact ⟨rfl, rfl⟩

/-- Where the new entry is of another version, the two are kept apart. -/
theorem sidecars_apart_versions :
    ∃ w graphs, prepareAll extrasHash kebab (oneSidecar jupyterDir)
      (reserveAll projectLockfile (usesOf textGraph textGraph [keptEntry, newEntry "24.2.0"]))
      (usesOf textGraph textGraph [keptEntry, newEntry "24.2.0"]) = .ok (w, graphs) ∧
        Apart extrasHash (oneSidecar jupyterDir) projectLockfile w graphs := by
  have hrun : ∃ w graphs, prepareAll extrasHash kebab (oneSidecar jupyterDir)
      (reserveAll projectLockfile (usesOf textGraph textGraph [keptEntry, newEntry "24.2.0"]))
      (usesOf textGraph textGraph [keptEntry, newEntry "24.2.0"]) = .ok (w, graphs) :=
    ⟨_, _, rfl⟩
  obtain ⟨w, graphs, hrun⟩ := hrun
  refine ⟨w, graphs, hrun, (sidecars_apart_iff named_extrasHash (.refl _) (readAt_keptEntry _)
    (List.nodup_singleton _) ?_ (variant_keptEntry _) hrun).2 ⟨?_, fun _ => ?_⟩⟩
  · intro e he e' he' _
    rcases List.mem_pair.1 he with rfl | rfl <;> rcases List.mem_pair.1 he' with rfl | rfl <;> rfl
  · refine List.pairwise_pair.2 ⟨?_, ?_⟩
    · rintro ⟨-, -, hrecorded | ⟨⟨hnone, -⟩, -⟩⟩
      · exact absurd hrecorded (by decide +kernel)
      · exact absurd hnone (by decide +kernel)
    · rintro ⟨⟨hnone, -⟩, -⟩
      exact absurd hnone (by decide +kernel)
  · decide +kernel

/-- The new entry of the same version gets the directory that the first entry kept. -/
theorem shared_sidecar :
    ([keptEntry, newEntry "24.1.0"].map fun e =>
        (e.short, e.version, e.backend, e.options)).Nodup ∧
      ((usesOf textGraph textGraph [keptEntry, newEntry "24.1.0"]).filterMap
        fun u => u.graph.dir).Nodup ∧
      (∀ u ∈ usesOf textGraph textGraph [keptEntry, newEntry "24.1.0"],
        u.graph.ReadAt projectLockfile) ∧
      variantSuffix extrasHash keptEntry.backend keptEntry.options ≠
        variantSuffix extrasHash (newEntry "24.1.0").backend (newEntry "24.1.0").options ∧
      ∃ w graphs, prepareAll extrasHash kebab (oneSidecar jupyterDir)
        (reserveAll projectLockfile (usesOf textGraph textGraph [keptEntry, newEntry "24.1.0"]))
        (usesOf textGraph textGraph [keptEntry, newEntry "24.1.0"]) = .ok (w, graphs) ∧
          ¬(graphs.map GraphRef.dir).Nodup := by
  have hoptions : keptEntry.options ≠ (newEntry "24.1.0").options := by
    intro h
    have hget := congrArg (fun m : BTreeMap String String => m["extras"]?) h
    simp [keptEntry, newEntry] at hget
  refine ⟨List.nodup_cons.2 ⟨fun hmem => ?_, List.nodup_singleton _⟩, List.nodup_singleton _,
    readAt_keptEntry _, by decide +kernel, _, _, rfl, by decide +kernel⟩
  rw [List.map_singleton, List.mem_singleton] at hmem
  simp only [Prod.mk.injEq] at hmem
  exact hoptions hmem.2.2.2

end Mise.Sidecar
