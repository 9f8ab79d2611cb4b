/-
# The walk over a tree of blobs

What `materialize_remote_tree` makes of the tree that a digest stands for.  A
directory object is its rows, each a name and what it names.  The loop comes to
every directory of the tree, and once (`eq_of_reached`); it returns when each of
them is sound and none is an ancestor of itself; and the nodes it returns are
the rows of the directories it came to, under their paths (`restored_iff`).  With
finitely many blobs it always ends (`walk_terminates`).
-/

import Mathlib.Data.Finset.Card
import Mise.Task.CacheTree

namespace Mise.TaskCache

open Lib

/-! ### What the checks say -/

/-- A name of one component of a path. -/
structure IsName (name : List Char) : Prop where
  ne_nil : name ≠ []
  ne_dot : name ≠ ['.']
  ne_dots : name ≠ ['.', '.']
  noSlash : '/' ∉ name
  noNul : '\x00' ∉ name

/-- The path below another with a name. -/
abbrev below (path : Dir) (name : String) : Dir := path ++ [.normal name.toList]

theorem IsName.isSegment {name : List Char} (h : IsName name) : Dir.IsSegment (.normal name) :=
  ⟨h.noSlash, h.ne_nil, h.ne_dot, if_neg h.ne_dots⟩

theorem IsName.join {name : String} (h : IsName name.toList) (path : Dir) :
    Dir.join path name = below path name := by
  rw [Dir.join_of_notMem h.noSlash, Dir.names_eq_singleton h.noSlash h.ne_nil h.ne_dot h.ne_dots]

theorem IsName.components {name : String} (h : IsName name.toList) :
    (PathBuf.mk name).components = [.normal name.toList] := by
  have hsegment : ∀ c ∈ [Component.normal name.toList], Dir.IsSegment c := by
    intro c hc
    rw [List.mem_singleton.1 hc]
    exact h.isSegment
  have hread := Dir.components_intercalate hsegment
  simpa [Dir.componentText] using hread

theorem validateCachePath_eq_ok_iff {path : Dir} :
    validateCachePath path = .ok () ↔ path ≠ [] ∧ ∀ c ∈ path, c ≠ .parentDir ∧ c ≠ .rootDir := by
  unfold validateCachePath
  split_ifs with hrel hany
  · refine ⟨nofun, fun ⟨hne, hall⟩ => ?_⟩
    rcases hrel with hnil | hhead
    · exact absurd hnil hne
    · exact absurd rfl (hall _ (List.mem_of_head? hhead)).2
  · refine ⟨nofun, fun ⟨_, hall⟩ => ?_⟩
    obtain ⟨c, hc, hbad⟩ := List.any_eq_true.1 hany
    rcases of_decide_eq_true hbad with rfl | rfl
    · exact absurd rfl (hall _ hc).1
    · exact absurd rfl (hall _ hc).2
  · refine ⟨fun _ => ⟨fun hnil => hrel (.inl hnil), fun c hc => ?_⟩, fun _ => rfl⟩
    rw [List.any_eq_true] at hany
    exact ⟨fun h => hany ⟨c, hc, decide_eq_true (.inl h)⟩,
      fun h => hany ⟨c, hc, decide_eq_true (.inr h)⟩⟩

theorem cacheName_eq_ok_iff {path : Dir} {name : String} :
    cacheName path = .ok name ↔ path.getLast? = some (.normal name.toList) ∧ IsName name.toList := by
  unfold cacheName
  split
  · case h_1 text hlast =>
    split_ifs with hbad
    · refine ⟨nofun, fun ⟨hname, h⟩ => ?_⟩
      obtain rfl := Component.normal.inj (Option.some.inj (hlast.symm.trans hname))
      rcases hbad with h' | h' | h' | h' | h'
      · exact absurd h' h.ne_nil
      · exact absurd h' h.ne_dot
      · exact absurd h' h.ne_dots
      · exact absurd h' h.noSlash
      · exact absurd h' h.noNul
    · simp only [not_or] at hbad
      constructor
      · intro h
        obtain rfl := Except.ok.inj h
        rw [String.toList_ofList]
        exact ⟨hlast, hbad.1, hbad.2.1, hbad.2.2.1, hbad.2.2.2.1, hbad.2.2.2.2⟩
      · rintro ⟨hname, _⟩
        rw [Component.normal.inj (Option.some.inj (hlast.symm.trans hname)), String.ofList_toList]
  · case h_2 hlast => exact ⟨nofun, fun ⟨hname, _⟩ => absurd hname (hlast _)⟩

theorem validateCacheName_eq_ok_iff {name : String} :
    validateCacheName name = .ok () ↔ IsName name.toList ∧ '\\' ∉ name.toList := by
  unfold validateCacheName
  split_ifs with hbad
  · refine ⟨nofun, fun ⟨h, hback⟩ => ?_⟩
    rcases hbad with h' | h' | h' | h' | h' | h' | h' | h'
    · exact absurd (congrArg String.toList h') h.ne_nil
    · exact absurd (congrArg String.toList h') h.ne_dot
    · exact absurd (congrArg String.toList h') h.ne_dots
    · exact absurd h' h.noSlash
    · exact absurd h' hback
    · exact absurd h' h.noNul
    · exact absurd (by rw [h.components]; rfl) h'
    · rw [h.components] at h'
      exact absurd h' (by simp [isNormal])
  · simp only [not_or] at hbad
    obtain ⟨hnil, hdot, hdots, hslash, hback, hnul, -⟩ := hbad
    exact ⟨fun _ => ⟨⟨fun h => hnil (String.toList_inj.1 h), fun h => hdot (String.toList_inj.1 h),
      fun h => hdots (String.toList_inj.1 h), hslash, hnul⟩, hback⟩, fun _ => rfl⟩

/-! ### A directory object by its rows -/

/-- What a directory object says of a name. -/
inductive Row where
  | directory (digest : CacheDigest) (mode : UInt32)
  | file (digest : CacheDigest) (executable : Bool) (mode : UInt32)
  | symlink (mode : UInt32) (target : String)
  deriving DecidableEq

/-- The node a row becomes. -/
def Row.node : Row → RestoredNode
  | .directory _ mode => .directory mode
  | .file digest executable mode => .file digest executable mode
  | .symlink mode target => .symlink mode ⟨target⟩

/-- The rows of a directory object. -/
def CacheDirectory.rows (directory : CacheDirectory) : List (String × Row) :=
  directory.directories.map (fun d => (d.name, .directory d.digest d.mode)) ++
    directory.files.map (fun f => (f.name, .file f.digest f.executable f.mode)) ++
    directory.symlinks.map fun s => (s.name, .symlink s.mode s.target)

section

variable {directory : CacheDirectory} {name : String}

theorem mem_rows {r : String × Row} : r ∈ directory.rows ↔
    (∃ d ∈ directory.directories, (d.name, Row.directory d.digest d.mode) = r) ∨
      (∃ f ∈ directory.files, (f.name, Row.file f.digest f.executable f.mode) = r) ∨
      ∃ s ∈ directory.symlinks, (s.name, Row.symlink s.mode s.target) = r := by
  simp only [CacheDirectory.rows, List.mem_append, List.mem_map, or_assoc]

theorem directory_mem_rows {digest : CacheDigest} {mode : UInt32} :
    (name, Row.directory digest mode) ∈ directory.rows ↔
      ⟨digest, mode, name⟩ ∈ directory.directories := by
  rw [mem_rows]
  constructor
  · rintro (⟨d, hd, heq⟩ | ⟨f, _, heq⟩ | ⟨s, _, heq⟩)
    · simp only [Prod.mk.injEq, Row.directory.injEq] at heq
      obtain ⟨rfl, rfl, rfl⟩ := heq
      exact hd
    · nomatch (Prod.mk.inj heq).2
    · nomatch (Prod.mk.inj heq).2
  · exact fun h => .inl ⟨_, h, rfl⟩

theorem symlink_mem_rows {mode : UInt32} {target : String} :
    (name, Row.symlink mode target) ∈ directory.rows ↔
      ⟨mode, name, target⟩ ∈ directory.symlinks := by
  rw [mem_rows]
  constructor
  · rintro (⟨d, _, heq⟩ | ⟨f, _, heq⟩ | ⟨s, hs, heq⟩)
    · nomatch (Prod.mk.inj heq).2
    · nomatch (Prod.mk.inj heq).2
    · simp only [Prod.mk.injEq, Row.symlink.injEq] at heq
      obtain ⟨rfl, rfl, rfl⟩ := heq
      exact hs
  · exact fun h => .inr (.inr ⟨_, h, rfl⟩)

theorem map_fst_rows (directory : CacheDirectory) :
    directory.rows.map Prod.fst = directory.directories.map CacheDirectoryNode.name ++
      directory.files.map CacheFileNode.name ++ directory.symlinks.map CacheSymlinkNode.name := by
  rw [CacheDirectory.rows, List.map_append, List.map_append, List.map_map, List.map_map,
    List.map_map]
  rfl

end

/-- The rows of a directory object are accepted below a path. -/
structure Sound (path : Dir) (directory : CacheDirectory) : Prop where
  name : ∀ r ∈ directory.rows, IsName r.1.toList ∧ '\\' ∉ r.1.toList
  nodup : (directory.rows.map Prod.fst).Nodup
  target : ∀ name mode target, (name, .symlink mode target) ∈ directory.rows →
    validateCacheSymlinkTarget (below path name) ⟨target⟩ = .ok ()

section

variable {α β : Type} {path : Dir} {name : α → String} {check : Dir → α → Except String Unit}
  {make : Dir → α → β}

/-- What the entries of one kind are checked for. -/
def Checked (path : Dir) (name : α → String) (check : Dir → α → Except String Unit) (entry : α) :
    Prop :=
  (IsName (name entry).toList ∧ '\\' ∉ (name entry).toList) ∧
    validateCachePath (below path (name entry)) = .ok () ∧
    check (below path (name entry)) entry = .ok ()

/-- Entries that are taken are valid and bear new names. -/
theorem takeEntries_eq_ok {names : Finset String} {l : List α} {r : List β × Finset String}
    (h : takeEntries path name check make names l = .ok r) :
    (∀ e ∈ l, Checked path name check e) ∧ (l.map name).Nodup ∧ (∀ e ∈ l, name e ∉ names) ∧
      r = (l.map fun e => make (below path (name e)) e, names ∪ (l.map name).toFinset) := by
  induction l generalizing names r with
  | nil =>
    obtain rfl := Except.ok.inj h
    simp
  | cons e l ih =>
    rw [takeEntries] at h
    obtain ⟨_, hname, h⟩ := bind_eq_ok h
    have hvalid := validateCacheName_eq_ok_iff.1 hname
    split at h
    · nomatch h
    · case isFalse hnew =>
      rw [hvalid.1.join] at h
      obtain ⟨_, hpath, h⟩ := bind_eq_ok h
      obtain ⟨_, hcheck, h⟩ := bind_eq_ok h
      obtain ⟨⟨made, names'⟩, hrest, h⟩ := bind_eq_ok h
      obtain rfl := Except.ok.inj h
      obtain ⟨hall, hnodup, hfresh, heq⟩ := ih hrest
      obtain ⟨rfl, rfl⟩ := Prod.mk.inj heq
      refine ⟨?_, ?_, ?_, ?_⟩
      · intro e' he'
        rcases List.mem_cons.1 he' with rfl | he'
        · exact ⟨hvalid, hpath, hcheck⟩
        · exact hall e' he'
      · rw [List.map_cons, List.nodup_cons]
        refine ⟨fun hmem => ?_, hnodup⟩
        obtain ⟨e', he', heq'⟩ := List.mem_map.1 hmem
        exact hfresh e' he' (heq' ▸ Finset.mem_insert_self (name e) names)
      · intro e' he'
        rcases List.mem_cons.1 he' with rfl | he'
        · exact hnew
        · exact fun hmem => hfresh e' he' (Finset.mem_insert_of_mem hmem)
      · rw [List.map_cons, List.map_cons, List.toFinset_cons, Finset.insert_union,
          Finset.union_insert]

theorem takeEntries_of_checked {names : Finset String} {l : List α}
    (hall : ∀ e ∈ l, Checked path name check e) (hnodup : (l.map name).Nodup)
    (hfresh : ∀ e ∈ l, name e ∉ names) :
    takeEntries path name check make names l =
      .ok (l.map fun e => make (below path (name e)) e, names ∪ (l.map name).toFinset) := by
  induction l generalizing names with
  | nil => simp [takeEntries]
  | cons e l ih =>
    obtain ⟨hvalid, hpath, hcheck⟩ := hall e List.mem_cons_self
    rw [List.map_cons, List.nodup_cons] at hnodup
    have hlater : ∀ e' ∈ l, name e' ∉ insert (name e) names := by
      intro e' he' hmem
      rcases Finset.mem_insert.1 hmem with heq | hmem
      · exact hnodup.1 (heq ▸ List.mem_map_of_mem he')
      · exact hfresh e' (List.mem_cons_of_mem e he') hmem
    have hrest := ih (fun e' he' => hall e' (List.mem_cons_of_mem e he')) hnodup.2 hlater
    rw [takeEntries, validateCacheName_eq_ok_iff.2 hvalid, ok_bind,
      if_neg (hfresh e List.mem_cons_self), hvalid.1.join]
    show (validateCachePath (below path (name e)) >>= fun _ => _) = _
    rw [hpath, ok_bind, hcheck, ok_bind, hrest, ok_bind, List.map_cons, List.map_cons,
      List.toFinset_cons, Finset.insert_union, Finset.union_insert]
    rfl

end

/-! ### One directory -/

variable {json : Json} {hashes : Hashes} {server : CacheDigest → Except String Bytes}

/-- The directories below one. -/
def children (path : Dir) (ancestors : Finset CacheDigest) (directory : CacheDirectory) :
    List Pending :=
  directory.directories.map fun d => ⟨below path d.name, d.digest, ancestors⟩

/-- The nodes of a directory's rows. -/
def inserted (path : Dir) (directory : CacheDirectory) : List (Dir × RestoredNode) :=
  directory.rows.map fun r => (below path r.1, r.2.node)

theorem mem_children {path : Dir} {ancestors : Finset CacheDigest} {directory : CacheDirectory}
    {item : Pending} (h : item ∈ children path ancestors directory) :
    ∃ name mode, (name, .directory item.digest mode) ∈ directory.rows ∧
      item.path = below path name ∧ item.ancestors = ancestors := by
  obtain ⟨d, hd, rfl⟩ := List.mem_map.1 h
  exact ⟨d.name, d.mode, directory_mem_rows.2 hd, rfl, rfl⟩

theorem mem_children_of_row {path : Dir} {ancestors : Finset CacheDigest}
    {directory : CacheDirectory} {name : String} {digest : CacheDigest} {mode : UInt32}
    (h : (name, .directory digest mode) ∈ directory.rows) :
    ⟨below path name, digest, ancestors⟩ ∈ children path ancestors directory :=
  List.mem_map.2 ⟨_, directory_mem_rows.1 h, rfl⟩

theorem inserted_eq (path : Dir) (directory : CacheDirectory) :
    inserted path directory =
      directory.directories.map (fun d => (below path d.name, RestoredNode.directory d.mode)) ++
        directory.files.map
          (fun f => (below path f.name, RestoredNode.file f.digest f.executable f.mode)) ++
        directory.symlinks.map fun s => (below path s.name, RestoredNode.symlink s.mode ⟨s.target⟩) := by
  rw [inserted, CacheDirectory.rows, List.map_append, List.map_append, List.map_map, List.map_map,
    List.map_map]
  rfl

/-- **A directory that is taken is sound**, and is not its own ancestor. -/
theorem takeDirectory_eq_ok {item : Pending} {cs : List Pending} {out : List (Dir × RestoredNode)}
    (h : takeDirectory json hashes server item = .ok (cs, out)) :
    item.digest ∉ item.ancestors ∧
      ∃ directory, readDirectory json hashes server item.digest = .ok directory ∧
        Sound item.path directory ∧
        cs = children item.path (insert item.digest item.ancestors) directory ∧
        out = inserted item.path directory := by
  rw [takeDirectory] at h
  split at h
  · nomatch h
  · case isFalse hcycle =>
    obtain ⟨directory, hread, h⟩ := bind_eq_ok h
    obtain ⟨⟨directories, names⟩, hdirs, h⟩ := bind_eq_ok h
    obtain ⟨⟨files, names'⟩, hfiles, h⟩ := bind_eq_ok h
    obtain ⟨⟨symlinks, names''⟩, hlinks, h⟩ := bind_eq_ok h
    obtain ⟨rfl, rfl⟩ := Prod.mk.inj (Except.ok.inj h)
    obtain ⟨hdall, hdnodup, -, hdeq⟩ := takeEntries_eq_ok hdirs
    obtain ⟨rfl, rfl⟩ := Prod.mk.inj hdeq
    obtain ⟨hfall, hfnodup, hffresh, hfeq⟩ := takeEntries_eq_ok hfiles
    obtain ⟨rfl, rfl⟩ := Prod.mk.inj hfeq
    obtain ⟨hsall, hsnodup, hsfresh, hseq⟩ := takeEntries_eq_ok hlinks
    obtain ⟨rfl, rfl⟩ := Prod.mk.inj hseq
    refine ⟨hcycle, directory, hread, ⟨?_, ?_, ?_⟩, ?_, ?_⟩
    · intro r hr
      rcases mem_rows.1 hr with ⟨d, hd, rfl⟩ | ⟨f, hf, rfl⟩ | ⟨s, hs, rfl⟩
      · exact (hdall d hd).1
      · exact (hfall f hf).1
      · exact (hsall s hs).1
    · rw [map_fst_rows, List.nodup_append, List.nodup_append]
      refine ⟨⟨hdnodup, hfnodup, ?_⟩, hsnodup, ?_⟩
      · rintro n hn _ hm rfl
        obtain ⟨f, hf, rfl⟩ := List.mem_map.1 hm
        exact hffresh f hf (by simpa using hn)
      · rintro n hn _ hm rfl
        obtain ⟨s, hs, rfl⟩ := List.mem_map.1 hm
        exact hsfresh s hs (by simpa using hn)
    · intro name mode target hrow
      exact (hsall _ (symlink_mem_rows.1 hrow)).2.2
    · rw [List.map_map]
      rfl
    · rw [inserted_eq, List.map_map]
      rfl

/-- **A sound directory is taken**, where it is not its own ancestor. -/
theorem takeDirectory_of_sound {item : Pending} {directory : CacheDirectory}
    (hpath : ∀ c ∈ item.path, c ≠ .parentDir ∧ c ≠ .rootDir)
    (hcycle : item.digest ∉ item.ancestors)
    (hread : readDirectory json hashes server item.digest = .ok directory)
    (hsound : Sound item.path directory) :
    takeDirectory json hashes server item =
      .ok (children item.path (insert item.digest item.ancestors) directory,
        inserted item.path directory) := by
  have hbelow : ∀ name, validateCachePath (below item.path name) = .ok () := by
    intro name
    refine validateCachePath_eq_ok_iff.2 ⟨List.append_ne_nil_of_right_ne_nil _ nofun, ?_⟩
    intro c hc
    rcases List.mem_append.1 hc with hc | hc
    · exact hpath c hc
    · obtain rfl := List.mem_singleton.1 hc
      exact ⟨nofun, nofun⟩
  have hvalid := fun r hr => hsound.name r (mem_rows.2 hr)
  have hnodup := hsound.nodup
  rw [map_fst_rows, List.nodup_append, List.nodup_append] at hnodup
  obtain ⟨⟨hdnodup, hfnodup, hdf⟩, hsnodup, hdfs⟩ := hnodup
  have hdall : ∀ d ∈ directory.directories,
      Checked item.path CacheDirectoryNode.name (fun _ _ => .ok ()) d :=
    fun d hd => ⟨hvalid _ (.inl ⟨d, hd, rfl⟩), hbelow _, rfl⟩
  have hfall : ∀ f ∈ directory.files,
      Checked item.path CacheFileNode.name (fun _ _ => .ok ()) f :=
    fun f hf => ⟨hvalid _ (.inr (.inl ⟨f, hf, rfl⟩)), hbelow _, rfl⟩
  have hsall : ∀ s ∈ directory.symlinks, Checked item.path CacheSymlinkNode.name
      (fun child entry => validateCacheSymlinkTarget child ⟨entry.target⟩) s :=
    fun s hs => ⟨hvalid _ (.inr (.inr ⟨s, hs, rfl⟩)), hbelow _,
      hsound.target s.name s.mode s.target (symlink_mem_rows.2 hs)⟩
  rw [takeDirectory, if_neg hcycle]
  show (readDirectory json hashes server item.digest >>= fun _ => _) = _
  rw [hread, ok_bind, takeEntries_of_checked hdall hdnodup fun _ _ => Finset.notMem_empty _,
    ok_bind]
  show (takeEntries _ _ _ _ _ directory.files >>= fun _ => _) = _
  rw [takeEntries_of_checked hfall hfnodup, ok_bind]
  · show (takeEntries _ _ _ _ _ directory.symlinks >>= fun _ => _) = _
    rw [takeEntries_of_checked hsall hsnodup, ok_bind, inserted_eq]
    · show Except.ok (List.map _ (List.map _ _), List.map _ (List.map _ _) ++ _ ++ _) = _
      rw [List.map_map, List.map_map]
      rfl
    · intro s hs hmem
      refine hdfs s.name ?_ s.name (List.mem_map_of_mem hs) rfl
      simpa using hmem
  · intro f hf hmem
    refine hdf f.name ?_ f.name (List.mem_map_of_mem hf) rfl
    simpa using hmem

/-! ### The walk -/

variable {root : CacheDigest} {item : Pending}

/-- The directories that the walk over the tree of `root` comes to. -/
abbrev Comes (json : Json) (hashes : Hashes) (server : CacheDigest → Except String Bytes)
    (root : CacheDigest) : Pending → Prop :=
  Worklist.Reached (takeDirectory json hashes server) [⟨[], root, ∅⟩]

/-- A path of names that are accepted. -/
def Named (path : Dir) : Prop :=
  ∀ c ∈ path, ∃ name, c = .normal name ∧ IsName name ∧ '\\' ∉ name

theorem Named.below {path : Dir} (h : Named path) {name : String} (hname : IsName name.toList)
    (hback : '\\' ∉ name.toList) : Named (below path name) := by
  intro c hc
  rcases List.mem_append.1 hc with hc | hc
  · exact h c hc
  · exact ⟨name.toList, List.mem_singleton.1 hc, hname, hback⟩

/-- The walk comes to a path by names. -/
theorem named_of_comes (h : Comes json hashes server root item) : Named item.path := by
  induction h with
  | start hstart =>
    obtain rfl := List.mem_singleton.1 hstart
    exact fun c hc => absurd hc List.not_mem_nil
  | child _ htake hmem ih =>
    obtain ⟨-, directory, -, hsound, rfl, -⟩ := takeDirectory_eq_ok htake
    obtain ⟨name, mode, hrow, hpath, -⟩ := mem_children hmem
    obtain ⟨hname, hback⟩ := hsound.name _ hrow
    rw [hpath]
    exact ih.below hname hback

/-- A row is settled by its name. -/
theorem Sound.eq_of_row {path : Dir} {directory : CacheDirectory} (h : Sound path directory)
    {name : String} {row row' : Row} (hrow : (name, row) ∈ directory.rows)
    (hrow' : (name, row') ∈ directory.rows) : row = row' := by
  have := List.inj_on_of_nodup_map h.nodup hrow hrow' rfl
  exact (Prod.mk.inj this).2

/-- **The walk comes to a path once.** -/
theorem eq_of_comes {item' : Pending} (h : Comes json hashes server root item)
    (h' : Comes json hashes server root item') (hpath : item.path = item'.path) :
    item = item' := by
  induction h generalizing item' with
  | start hstart =>
    obtain rfl := List.mem_singleton.1 hstart
    cases h' with
    | start hstart' => exact (List.mem_singleton.1 hstart').symm
    | child _ htake hmem =>
      obtain ⟨-, directory, -, -, rfl, -⟩ := takeDirectory_eq_ok htake
      obtain ⟨name, mode, -, hbelow, -⟩ := mem_children hmem
      exact absurd (hpath.trans hbelow).symm (List.append_ne_nil_of_right_ne_nil _ nofun)
  | @child i j _ _ _ htake hmem ih =>
    obtain ⟨-, directory, hread, hsound, rfl, -⟩ := takeDirectory_eq_ok htake
    obtain ⟨name, mode, hrow, hbelow, hanc⟩ := mem_children hmem
    cases h' with
    | start hstart' =>
      obtain rfl := List.mem_singleton.1 hstart'
      exact absurd (hbelow.symm.trans hpath) (List.append_ne_nil_of_right_ne_nil _ nofun)
    | @child i' _ _ _ hparent' htake' hmem' =>
      obtain ⟨-, directory', hread', -, rfl, -⟩ := takeDirectory_eq_ok htake'
      obtain ⟨name', mode', hrow', hbelow', hanc'⟩ := mem_children hmem'
      have heq : below i.path name = below i'.path name' := hbelow.symm.trans (hpath.trans hbelow')
      obtain ⟨hparents, hlast⟩ := List.append_inj' heq rfl
      obtain rfl := ih hparent' hparents
      obtain rfl := Except.ok.inj (hread.symm.trans hread')
      obtain rfl : name = name' :=
        String.toList_inj.1 (Component.normal.inj (List.head_eq_of_cons_eq hlast))
      have hdigest := (Row.directory.inj (hsound.eq_of_row hrow hrow')).1
      cases j
      cases item'
      simp only at hpath hanc hanc' hdigest
      rw [hpath, hanc, hanc', hdigest]

/-- The tree of `root` has the node at the path. -/
def Yields (json : Json) (hashes : Hashes) (server : CacheDigest → Except String Bytes)
    (root : CacheDigest) (path : Dir) (node : RestoredNode) : Prop :=
  ∃ item directory name row, Comes json hashes server root item ∧
    readDirectory json hashes server item.digest = .ok directory ∧
    (name, row) ∈ directory.rows ∧ path = below item.path name ∧ node = row.node

/-- The walk takes every directory it comes to. -/
def Walks (json : Json) (hashes : Hashes) (server : CacheDigest → Except String Bytes)
    (root : CacheDigest) : Prop :=
  ∀ item, Comes json hashes server root item →
    item.digest ∉ item.ancestors ∧ ∃ directory,
      readDirectory json hashes server item.digest = .ok directory ∧ Sound item.path directory

theorem walks_of_run {turns : ℕ} {out : List (Dir × RestoredNode)}
    (h : Worklist.run (takeDirectory json hashes server) turns [⟨[], root, ∅⟩] = some (.ok out)) :
    Walks json hashes server root := by
  intro item hitem
  obtain ⟨cs, outs, htake, -⟩ := Worklist.expand_of_run h hitem
  obtain ⟨hcycle, directory, hread, hsound, -⟩ := takeDirectory_eq_ok htake
  exact ⟨hcycle, directory, hread, hsound⟩

/-- The walk takes a directory with all its rows. -/
theorem Walks.take (hwalks : Walks json hashes server root)
    (h : Comes json hashes server root item) : ∃ directory,
      readDirectory json hashes server item.digest = .ok directory ∧ Sound item.path directory ∧
      takeDirectory json hashes server item =
        .ok (children item.path (insert item.digest item.ancestors) directory,
          inserted item.path directory) := by
  obtain ⟨hcycle, directory, hread, hsound⟩ := hwalks item h
  refine ⟨directory, hread, hsound, takeDirectory_of_sound (fun c hc => ?_) hcycle hread hsound⟩
  obtain ⟨name, rfl, -⟩ := named_of_comes h c hc
  exact ⟨nofun, nofun⟩

/-- What is inserted is the tree. -/
theorem mem_iff_yields {turns : ℕ} {out : List (Dir × RestoredNode)}
    (h : Worklist.run (takeDirectory json hashes server) turns [⟨[], root, ∅⟩] = some (.ok out))
    {path : Dir} {node : RestoredNode} :
    (path, node) ∈ out ↔ Yields json hashes server root path node := by
  constructor
  · intro hmem
    obtain ⟨item, cs, outs, hitem, htake, hin⟩ := Worklist.mem_of_run h hmem
    obtain ⟨-, directory, hread, -, -, rfl⟩ := takeDirectory_eq_ok htake
    obtain ⟨⟨name, row⟩, hrow, heq⟩ := List.mem_map.1 hin
    obtain ⟨rfl, rfl⟩ := Prod.mk.inj heq
    exact ⟨item, directory, name, row, hitem, hread, hrow, rfl, rfl⟩
  · rintro ⟨item, directory, name, row, hitem, hread, hrow, rfl, rfl⟩
    obtain ⟨cs, outs, htake, hsub⟩ := Worklist.expand_of_run h hitem
    obtain ⟨-, directory', hread', -, -, rfl⟩ := takeDirectory_eq_ok htake
    obtain rfl := Except.ok.inj (hread.symm.trans hread')
    exact hsub (List.mem_map.2 ⟨(name, row), hrow, rfl⟩)

/-- **A tree has one node at a path.** -/
theorem Yields.unique (hwalks : Walks json hashes server root) {path : Dir}
    {node node' : RestoredNode} (h : Yields json hashes server root path node)
    (h' : Yields json hashes server root path node') : node = node' := by
  obtain ⟨item, directory, name, row, hitem, hread, hrow, rfl, rfl⟩ := h
  obtain ⟨item', directory', name', row', hitem', hread', hrow', heq, rfl⟩ := h'
  obtain ⟨hparents, hlast⟩ := List.append_inj' heq rfl
  obtain rfl := eq_of_comes hitem hitem' hparents
  obtain rfl := Except.ok.inj (hread.symm.trans hread')
  obtain rfl : name = name' :=
    String.toList_inj.1 (Component.normal.inj (List.head_eq_of_cons_eq hlast))
  obtain ⟨-, sound, hread', hsound⟩ := hwalks item hitem
  obtain rfl := Except.ok.inj (hread.symm.trans hread')
  rw [hsound.eq_of_row hrow hrow']

theorem Yields.named (hwalks : Walks json hashes server root) {path : Dir} {node : RestoredNode}
    (h : Yields json hashes server root path node) : Named path := by
  obtain ⟨item, directory, name, row, hitem, hread, hrow, rfl, rfl⟩ := h
  obtain ⟨-, sound, hread', hsound⟩ := hwalks item hitem
  obtain rfl := Except.ok.inj (hread.symm.trans hread')
  obtain ⟨hname, hback⟩ := hsound.name _ hrow
  exact (named_of_comes hitem).below hname hback

/-- **The nodes that are returned are the tree.** -/
theorem restored_iff {turns : ℕ} {out : List (Dir × RestoredNode)}
    (h : Worklist.run (takeDirectory json hashes server) turns [⟨[], root, ∅⟩] = some (.ok out))
    {path : Dir} {node : RestoredNode} :
    (restoredNodes out)[path]? = some node ↔ Yields json hashes server root path node := by
  have hwalks := walks_of_run h
  rw [restoredNodes, BTreeMap.get_foldl_insert fun p n n' hn hn' =>
    ((mem_iff_yields h).1 hn).unique hwalks ((mem_iff_yields h).1 hn'), mem_iff_yields h]

/-- The path of a restored entry is that of its node. -/
theorem components_of_restored {path : Dir} {node : RestoredNode} {e : Entry}
    (hpath : Named path) (h : restoredEntry hashes server path node = .ok e) : e.path.components = path := by
  have hdisplay : (PathBuf.mk path.display).components = path := by
    have htext : path.display = String.ofList (['/'].intercalate (path.map Dir.componentText)) := by
      cases path with
      | nil => rfl
      | cons c rest =>
        obtain ⟨name, rfl, -⟩ := hpath _ List.mem_cons_self
        rfl
    rw [htext]
    refine Dir.components_intercalate fun c hc => ?_
    obtain ⟨name, rfl, hname, -⟩ := hpath c hc
    exact hname.isSegment
  cases node with
  | directory mode =>
    obtain rfl := Except.ok.inj h
    exact hdisplay
  | file digest executable mode =>
    obtain ⟨data, -, h⟩ := bind_eq_ok h
    obtain rfl := Except.ok.inj h
    exact hdisplay
  | symlink mode target =>
    obtain rfl := Except.ok.inj h
    exact hdisplay

/-- The entries that are written are those of the tree's nodes. -/
theorem restored_of_materialize {turns : ℕ} {out : List Entry}
    (h : materializeRemoteTree json hashes server turns root = some (.ok out)) :
    Walks json hashes server root ∧
      (∀ path node, Yields json hashes server root path node →
        ∃ e ∈ out, restoredEntry hashes server path node = .ok e) ∧
      ∀ e ∈ out, ∃ path node, Yields json hashes server root path node ∧
        restoredEntry hashes server path node = .ok e := by
  obtain ⟨walked, hrun, h⟩ := Option.map_eq_some_iff.1 h
  obtain ⟨outs, rfl, h⟩ := bind_eq_ok h
  obtain ⟨hwritten, hsource⟩ := mem_of_mapM h
  refine ⟨walks_of_run hrun, fun path node hyields => ?_, fun e he => ?_⟩
  · have hmem := Std.ExtTreeMap.mem_toList_iff_getElem?_eq_some.2 ((restored_iff hrun).2 hyields)
    exact hwritten (path, node) hmem
  · obtain ⟨⟨path, node⟩, hmem, hentry⟩ := hsource e he
    have hget := Std.ExtTreeMap.mem_toList_iff_getElem?_eq_some.1 hmem
    exact ⟨path, node, (restored_iff hrun).1 hget, hentry⟩

/-- An archive of a tree has each path once. -/
theorem nodup_of_materialize {turns : ℕ} {out : List Entry}
    (h : materializeRemoteTree json hashes server turns root = some (.ok out)) :
    (out.map fun o => o.path.components).Nodup := by
  obtain ⟨walked, hrun, h⟩ := Option.map_eq_some_iff.1 h
  obtain ⟨outs, rfl, h⟩ := bind_eq_ok h
  rw [map_of_mapM h fun entry hentry o ho => ?_]
  · exact BTreeMap.nodup_map_fst_toList _
  · have hget := Std.ExtTreeMap.mem_toList_iff_getElem?_eq_some.1 hentry
    exact components_of_restored (((restored_iff hrun).1 hget).named (walks_of_run hrun)) ho

/-- **The walk ends**, whatever a server returns, when it returns something for
finitely many digests only. -/
theorem walk_terminates (hfinite : {digest | ∃ bytes, server digest = .ok bytes}.Finite)
    (root : CacheDigest) : ∃ turns result,
      Worklist.run (takeDirectory json hashes server) turns [⟨[], root, ∅⟩] = some result := by
  -- a directory below another has one more of the known digests above it
  let left : Pending → ℕ := fun item => (hfinite.toFinset \ item.ancestors).card
  refine Worklist.run_terminates fun item _ => ?_
  have hwf : WellFounded (Worklist.Below (takeDirectory json hashes server)) := by
    refine Subrelation.wf (fun {j i} hbelow => ?_) (measure left).wf
    obtain ⟨cs, out, htake, hj⟩ := hbelow
    obtain ⟨hcycle, directory, hread, -, rfl, -⟩ := takeDirectory_eq_ok htake
    obtain ⟨-, -, -, -, hanc⟩ := mem_children hj
    obtain ⟨bytes, hblob, -⟩ := bind_eq_ok hread
    obtain ⟨-, -, hblob⟩ := bind_eq_ok hblob
    obtain ⟨reply, hreply, -⟩ := bind_eq_ok hblob
    refine Finset.card_lt_card ⟨?_, fun hsub => ?_⟩
    · rw [hanc]
      exact Finset.sdiff_subset_sdiff (Finset.Subset.refl _) (Finset.subset_insert _ _)
    · have hmem : i.digest ∈ hfinite.toFinset \ i.ancestors :=
        Finset.mem_sdiff.2 ⟨hfinite.mem_toFinset.2 ⟨reply, hreply⟩, hcycle⟩
      have hnot := (Finset.mem_sdiff.1 (hsub hmem)).2
      rw [hanc] at hnot
      exact hnot (Finset.mem_insert_self _ _)
  exact hwf.apply item

end Mise.TaskCache
