/-
# Trees of blobs stay inside their root

Every link that `archive_to_cas` accepts and every one that
`materialize_remote_tree` writes has passed `validate_cache_symlink_target` at
its own path.  What it checks is lexical: the target is relative, goes up only
at its start, and no more often than the link's directory is deep.  That is
enough for paths resolved through any number of links, since an entry stands at
its own path only where its parents are real directories
(`Lib.Resolution.stays_inside`).

`MadeOf` says what a tree on disk may hold of an archive put into an empty
directory: its entries at their own paths, and parents that have no entry.  The
unpacker writes through no link, so an entry below a link or a file is not put
anywhere; `unpack` is the tree that holds all the others.
-/

import Mise.Lib.Resolution
import Mise.Task.CacheRoundTrip
import Mise.Task.CacheTreeWalk

namespace Mise.TaskCache

open Lib
open Lib.Resolution (Seg Kind FileTree Place Low Down Inside Guarded walk)

/-! ### The tree of an archive -/

/-- A component, as it is resolved. -/
def seg : Component → Seg (List Char)
  | .rootDir => .root
  | .curDir => .here
  | .parentDir => .up
  | .normal name => .name name

/-- What an entry puts at its path. -/
def Entry.kind (entry : Entry) : Option (Kind (List Char)) :=
  match entry.entryType with
  | .directory => some .directory
  | .file => some .file
  | .symlink => entry.linkName.map fun target => .link (target.components.map seg)
  | .other => none

/-- A tree in an otherwise empty root that holds entries of an archive at their
own paths, and their parents. -/
def MadeOf (tree : FileTree (List Char)) (entries : List Entry) : Prop :=
  ∀ path kind, tree.node path = some kind →
    (∃ e ∈ entries, e.path.components = path.map .normal ∧ e.kind = some kind) ∨
      kind = .directory ∧ ∃ rest, path = [] ∨ ∃ e ∈ entries, e.path.components = path.map .normal ++ rest

/-- What an archive has at a path. -/
def nodeOf (entries : List Entry) (path : List (List Char)) : Option (Kind (List Char)) :=
  if path = [] then some .directory
  else
    match entries.find? fun e => e.path.components = path.map .normal with
    | some e => e.kind
    | none =>
      if entries.any fun e => (path.map Component.normal).isPrefixOf e.path.components then
        some .directory
      else none

/-- The tree of an archive: what it has in directories. -/
def unpack (entries : List Entry) : FileTree (List Char) where
  node path :=
    if ∀ depth < path.length, nodeOf entries (path.take depth) = some .directory then
      nodeOf entries path
    else none
  root := rfl
  parent d n k h := by
    split_ifs at h with hparents
    rw [List.length_append, List.length_singleton] at hparents
    have htake : ∀ depth ≤ d.length, nodeOf entries (d.take depth) = some .directory := by
      intro depth hdepth
      have := hparents depth (Nat.lt_succ_of_le hdepth)
      rwa [List.take_append_of_le_length hdepth] at this
    rw [if_pos fun depth hdepth => htake depth hdepth.le]
    have := htake d.length le_rfl
    rwa [List.take_length] at this

theorem madeOf_unpack (entries : List Entry) : MadeOf (unpack entries) entries := by
  intro path kind h
  simp only [unpack] at h
  split_ifs at h
  unfold nodeOf at h
  split at h
  · case isTrue hnil => exact .inr ⟨(Option.some.inj h).symm, [], .inl hnil⟩
  · split at h
    · case h_1 e hfind =>
      have hpath := List.find?_some hfind
      exact .inl ⟨e, List.mem_of_find?_eq_some hfind, of_decide_eq_true hpath, h⟩
    · split_ifs at h with hany
      obtain ⟨e, he, hprefix⟩ := List.any_eq_true.1 hany
      obtain ⟨rest, hrest⟩ := List.isPrefixOf_iff_prefix.1 hprefix
      exact .inr ⟨(Option.some.inj h).symm, rest, .inr ⟨e, he, hrest.symm⟩⟩

/-- No path of an archive's tree leads out of it, through any number of links:
not that of an entry, and no path of names. -/
def StaysInside (entries : List Entry) : Prop :=
  ∀ tree, MadeOf tree entries → ∀ path : Dir,
    (∃ e ∈ entries, e.path.components = path) ∨ (∃ names : List (List Char), path = names.map .normal) →
      ∀ steps last, walk tree steps (.inDir [] (path.map seg)) = some last → Inside tree last

/-! ### What is checked of a link -/

theorem countDepth_append (names : List (List Char)) (depth : ℕ) (rest : Dir) :
    countDepth depth (names.map .normal ++ rest) = countDepth (depth + names.length) rest := by
  induction names generalizing depth with
  | nil => rfl
  | cons name names ih =>
    rw [List.map_cons, List.cons_append, countDepth, ih, List.length_cons]
    congr 1
    omega

/-- Names and no `..` go down, where the depth is counted. -/
theorem down_of_countDepth {depth : ℕ} {path : Dir} (h : countDepth depth path = .ok ())
    (hup : Component.parentDir ∉ path) : Down (path.map seg) := by
  induction depth, path using countDepth.induct with
  | case1 => exact fun s hs => absurd hs List.not_mem_nil
  | case2 depth name rest ih =>
    rw [countDepth] at h
    intro s hs
    rcases List.mem_cons.1 hs with rfl | hs
    · exact ⟨nofun, nofun⟩
    · exact ih h (fun hmem => hup (List.mem_cons_of_mem _ hmem)) s hs
  | case3 => exact absurd List.mem_cons_self hup
  | case4 => exact absurd List.mem_cons_self hup
  | case5 depth rest ih =>
    rw [countDepth] at h
    intro s hs
    rcases List.mem_cons.1 hs with rfl | hs
    · exact ⟨nofun, nofun⟩
    · exact ih h (fun hmem => hup (List.mem_cons_of_mem _ hmem)) s hs
  | case6 =>
    rw [countDepth] at h
    nomatch h

/-- A target whose depth counts, and that goes up only in front of its names. -/
theorem low_of_countDepth {depth : ℕ} {path : Dir} (h : countDepth depth path = .ok ())
    (hup : (path.dropWhile fun c => !isNormal c).any (· = .parentDir) = false) :
    Low depth (path.map seg) := by
  induction depth, path using countDepth.induct with
  | case1 => simp only [List.map_nil, Low]
  | case2 depth name rest ih =>
    rw [countDepth] at h
    have hrest : Component.parentDir ∉ rest := by
      intro hmem
      rw [List.dropWhile_cons_of_neg (by simp [isNormal]), List.any_eq_false] at hup
      exact hup _ (List.mem_cons_of_mem _ hmem) (decide_eq_true rfl)
    simpa only [List.map_cons, seg, Low] using down_of_countDepth h hrest
  | case3 =>
    rw [countDepth] at h
    cases h
  | case4 depth rest ih =>
    rw [countDepth] at h
    simpa only [List.map_cons, seg, Low] using ih h hup
  | case5 depth rest ih =>
    rw [countDepth] at h
    simpa only [List.map_cons, seg, Low] using ih h hup
  | case6 =>
    rw [countDepth] at h
    cases h

/-- The components of a relative path are its names, behind a `.` or not. -/
theorem components_of_relative {path : PathBuf} (h : path.raw.toList.head? ≠ some '/') :
    path.components = Dir.names path.raw ∨ path.components = .curDir :: Dir.names path.raw := by
  rw [PathBuf.components, if_neg h]
  split
  · exact .inr rfl
  · exact .inl rfl

/-- **What the check of a link is worth**: it goes up only at its start, and no
more often than its directory is deep. -/
theorem low_of_validate {d : List (List Char)} {name : List Char} {target : PathBuf}
    (h : validateCacheSymlinkTarget ((d ++ [name]).map .normal) target = .ok ()) :
    Low d.length (target.components.map seg) := by
  unfold validateCacheSymlinkTarget at h
  split_ifs at h with hroot hup
  have hrel : target.raw.toList.head? ≠ some '/' := by
    intro habs
    rw [PathBuf.components, if_pos habs] at hroot
    exact hroot rfl
  rw [List.map_append, List.map_singleton, List.dropLast_concat, Dir.join, if_neg hrel,
    countDepth_append, Nat.zero_add] at h
  rw [Bool.not_eq_true] at hup
  rcases components_of_relative hrel with heq | heq
  · rw [heq] at hup ⊢
    exact low_of_countDepth h hup
  · rw [heq] at hup ⊢
    have := low_of_countDepth h hup
    simpa only [List.map_cons, seg, Low] using this

/-! ### Containment -/

/-- The links of an archive are checked at their own paths, and its paths are
relative ones. -/
def LinksChecked (entries : List Entry) : Prop :=
  ∀ e ∈ entries, (∀ c ∈ e.path.components, c ≠ .parentDir ∧ c ≠ .rootDir) ∧
    ∀ target, e.entryType = .symlink → e.linkName = some target →
      validateCacheSymlinkTarget e.path.components target = .ok ()

theorem down_of_relative {path : Dir} (h : ∀ c ∈ path, c ≠ .parentDir ∧ c ≠ .rootDir) :
    Down (path.map seg) := by
  intro s hs
  obtain ⟨c, hc, rfl⟩ := List.mem_map.1 hs
  cases c with
  | rootDir => exact absurd rfl (h _ hc).2
  | parentDir => exact absurd rfl (h _ hc).1
  | curDir => exact ⟨nofun, nofun⟩
  | normal name => exact ⟨nofun, nofun⟩

theorem guarded_of_linksChecked {entries : List Entry} (h : LinksChecked entries)
    {tree : FileTree (List Char)} (htree : MadeOf tree entries) : Guarded tree := by
  intro d name target hnode
  rcases htree _ _ hnode with ⟨e, he, hpath, hkind⟩ | ⟨hdir, -⟩
  · unfold Entry.kind at hkind
    split at hkind
    · nomatch hkind
    · nomatch hkind
    · case h_3 htype =>
      obtain ⟨link, hlink, heq⟩ := Option.map_eq_some_iff.1 hkind
      obtain rfl := Kind.link.inj heq
      have hvalid := (h e he).2 link htype hlink
      rw [hpath] at hvalid
      exact low_of_validate hvalid
    · nomatch hkind
  · nomatch hdir

theorem staysInside_of_linksChecked {entries : List Entry} (h : LinksChecked entries) :
    StaysInside entries := by
  intro tree htree path hpath steps last hwalk
  have hdown : Down (path.map seg) := by
    rcases hpath with ⟨e, he, rfl⟩ | ⟨names, rfl⟩
    · exact down_of_relative (h e he).1
    · refine down_of_relative fun c hc => ?_
      obtain ⟨name, -, rfl⟩ := List.mem_map.1 hc
      exact ⟨nofun, nofun⟩
  exact Resolution.stays_inside (guarded_of_linksChecked h htree) hdown hwalk

variable {json : Json} {hashes : Hashes} {server : CacheDigest → Except String Bytes}

theorem linksChecked_of_materialize {turns : ℕ} {root : CacheDigest} {out : List Entry}
    (h : materializeRemoteTree json hashes server turns root = some (.ok out)) :
    LinksChecked out := by
  obtain ⟨hwalks, -, hsource⟩ := restored_of_materialize h
  intro e he
  obtain ⟨path, node, hyields, hentry⟩ := hsource e he
  have hnames := hyields.named hwalks
  rw [components_of_restored hnames hentry]
  refine ⟨fun c hc => ?_, fun target htype hlink => ?_⟩
  · obtain ⟨name, rfl, -⟩ := hnames c hc
    exact ⟨nofun, nofun⟩
  · obtain ⟨item, directory, name, row, hitem, hread, hrow, rfl, rfl⟩ := hyields
    obtain ⟨-, sound, hread', hsound⟩ := hwalks item hitem
    obtain rfl := Except.ok.inj (hread.symm.trans hread')
    cases row with
    | directory digest mode =>
      obtain rfl := Except.ok.inj hentry
      nomatch htype
    | file digest executable mode =>
      obtain ⟨data, -, hentry⟩ := bind_eq_ok hentry
      obtain rfl := Except.ok.inj hentry
      nomatch htype
    | symlink mode text =>
      obtain rfl := Except.ok.inj hentry
      obtain rfl := Option.some.inj hlink
      exact hsound.target name mode text hrow

theorem linksChecked_of_archiveToCas {entries : List Entry}
    {made : CacheDigest × List BlobUpload} (h : archiveToCas json hashes entries = .ok made) :
    LinksChecked entries := by
  obtain ⟨nodes, hnodes, -⟩ := bind_eq_ok h
  have hall := foldlM_induction (fun done _ => LinksChecked done) ?_ hnodes
    (fun e he => absurd he List.not_mem_nil : LinksChecked [])
  · exact hall
  · intro done nodes e nodes' hdone hadd e' he'
    rcases List.mem_append.1 he' with he' | he'
    · exact hdone e' he'
    · obtain rfl := List.mem_singleton.1 he'
      obtain ⟨_, hpath, hadd⟩ := bind_eq_ok hadd
      obtain ⟨node, hnode, -⟩ := bind_eq_ok hadd
      refine ⟨(validateCachePath_eq_ok_iff.1 hpath).2, fun target htype hlink => ?_⟩
      simp only [archiveNode, htype, hlink] at hnode
      obtain ⟨_, hvalid, -⟩ := bind_eq_ok hnode
      exact hvalid

/-- **Trees of blobs cannot escape their root.**  Whatever finitely many blobs a
server returns, the tree is walked to an end.  In an archive that is made of it,
or that is cut into blobs, every path resolved through any number of links stays
in the tree or resolves to nothing. -/
theorem trees_stay_inside (json : Json) (hashes : Hashes) :
    (∀ server : CacheDigest → Except String Bytes,
      {digest | ∃ bytes, server digest = .ok bytes}.Finite → ∀ root, ∃ turns result, ∀ more ≥ turns,
        materializeRemoteTree json hashes server more root = some result) ∧
    (∀ server root turns out,
      materializeRemoteTree json hashes server turns root = some (.ok out) → StaysInside out) ∧
    ∀ entries made, archiveToCas json hashes entries = .ok made → StaysInside entries := by
  refine ⟨fun server hfinite root => ?_, fun server root turns out h => ?_,
    fun entries made h => ?_⟩
  · obtain ⟨turns, result, hrun⟩ := @walk_terminates json hashes server hfinite root
    exact ⟨turns, _, fun more hmore => congrArg _ (Worklist.run_mono hrun hmore)⟩
  · exact staysInside_of_linksChecked (linksChecked_of_materialize h)
  · exact staysInside_of_linksChecked (linksChecked_of_archiveToCas h)

/-- A directory with a file, and a link to the file: its blobs are walked to an end, and
no path leads out of the archive or of what the blobs are made into. -/
theorem dist_stays_inside :
    (∃ turns result, ∀ more ≥ turns,
      materializeRemoteTree sampleJson sampleHashes sampleServer more rootDigest = some result) ∧
    (∃ out, materializeRemoteTree sampleJson sampleHashes sampleServer 2 rootDigest =
      some (.ok out) ∧ out.length = 3 ∧ StaysInside out) ∧
    StaysInside distArchive := by
  obtain ⟨hends, hmade, hcut⟩ := trees_stay_inside sampleJson sampleHashes
  have hfinite : {digest | ∃ bytes, sampleServer digest = .ok bytes}.Finite := by
    refine Set.Finite.subset
      (Set.toFinite {helloDigest, distDigest, rootDigest, runDigest}) ?_
    rintro digest ⟨bytes, h⟩
    simp only [sampleServer] at h
    simp only [Set.mem_insert_iff, Set.mem_singleton_iff]
    split_ifs at h <;> simp_all
  have hout : ∃ out, materializeRemoteTree sampleJson sampleHashes sampleServer 2 rootDigest =
      some (.ok out) ∧ out.length = 3 :=
    ⟨[⟨⟨"dist"⟩, 0o755, .directory, none, []⟩, ⟨⟨"dist/app"⟩, 0o755, .file, none, ascii "hello"⟩,
      ⟨⟨"latest"⟩, 0o777, .symlink, some ⟨"dist/app"⟩, []⟩], by decide +kernel, rfl⟩
  obtain ⟨out, hout, hlength⟩ := hout
  exact ⟨hends sampleServer hfinite rootDigest, ⟨out, hout, hlength, hmade _ _ _ _ hout⟩,
    hcut distArchive (rootDigest, distUploads) (by decide +kernel)⟩

/-- A link that leads through another, which goes up from the directory that is
reached. -/
example :
    walk (unpack [⟨⟨"dist"⟩, 0o755, .directory, none, []⟩,
      ⟨⟨"dist/up"⟩, 0o777, .symlink, some ⟨".."⟩, []⟩,
      ⟨⟨"latest"⟩, 0o777, .symlink, some ⟨"dist/up/dist"⟩, []⟩]) 5
        (.inDir [] [.name "latest".toList]) = some (.inDir ["dist".toList] []) := by
  decide

end Mise.TaskCache
