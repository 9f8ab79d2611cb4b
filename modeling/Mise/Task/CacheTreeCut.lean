/-
# Cutting an archive into blobs

What `archive_to_cas` makes of an archive it accepts.  Its nodes are the entries
at their paths, and the parents that have no entry (`Cuts`).  The digest it
returns is that of a directory object whose rows are the nodes in the root; where
such a node is a directory, its row has the digest of the object built for it
(`Built`).  Every object and every file is among the uploads.
-/

import Mise.Task.CacheTreeWalk

namespace Mise.TaskCache

open Lib

/-! ### The nodes -/

theorem mem_parents {path parent : Dir} :
    parent ∈ parents path ↔ parent <+: path ∧ parent ≠ path := by
  rw [parents, List.map_reverse, List.mem_reverse, List.mem_map]
  constructor
  · rintro ⟨k, hk, rfl⟩
    have hlt := List.mem_range.1 hk
    refine ⟨List.take_prefix k path, fun heq => ?_⟩
    have := congrArg List.length heq
    rw [List.length_take] at this
    omega
  · rintro ⟨hparent, hne⟩
    refine ⟨parent.length, List.mem_range.2 ?_, (List.prefix_iff_eq_take.1 hparent).symm⟩
    exact lt_of_le_of_ne hparent.length_le fun hlen => hne (hparent.eq_of_length hlen)

/-- Parents are put in where nothing is. -/
theorem get_addParents (l : List Dir) (nodes : BTreeMap Dir ArchiveNode) (path : Dir) :
    (l.foldl (fun nodes parent => nodes.insertIfNew parent (.directory 0o755)) nodes)[path]? =
      nodes[path]?.or (if path ∈ l then some (.directory 0o755) else none) := by
  induction l generalizing nodes with
  | nil => simp
  | cons parent l ih =>
    rw [List.foldl_cons, ih, BTreeMap.get_insertIfNew, Option.or_assoc]
    congr 1
    by_cases heq : parent = path
    · subst heq
      rw [if_pos rfl, Option.some_or, if_pos List.mem_cons_self]
    · rw [if_neg heq, Option.none_or]
      exact if_congr (by rw [List.mem_cons, or_iff_right (Ne.symm heq)]) rfl rfl

/-- A link that becomes a node was checked. -/
theorem target_of_archiveNode {hashes : Hashes} {e : Entry} {mode : UInt32} {target : PathBuf}
    (h : archiveNode hashes e = .ok (.symlink mode target)) :
    validateCacheSymlinkTarget e.path.components target = .ok () := by
  unfold archiveNode at h
  split at h
  · nomatch h
  · nomatch h
  · split at h
    · obtain ⟨_, hvalid, h⟩ := bind_eq_ok h
      obtain ⟨-, rfl⟩ := ArchiveNode.symlink.inj (Except.ok.inj h)
      exact hvalid
    · nomatch h
  · nomatch h

/-- The nodes of an archive's entries. -/
structure Cuts (hashes : Hashes) (entries : List Entry) (nodes : BTreeMap Dir ArchiveNode) :
    Prop where
  entry : ∀ e ∈ entries, validateCachePath e.path.components = .ok () ∧
    ∃ node, archiveNode hashes e = .ok node ∧ nodes[e.path.components]? = some node
  node : ∀ (path : Dir) (node : ArchiveNode), nodes[path]? = some node →
    (∃ e ∈ entries, e.path.components = path ∧ archiveNode hashes e = .ok node) ∨
      node = .directory 0o755 ∧ (∀ e ∈ entries, e.path.components ≠ path) ∧
        (path = [] ∨ ∃ e ∈ entries, path <+: e.path.components)
  parent : ∀ e ∈ entries, ∀ path, path <+: e.path.components → ∃ node, nodes[path]? = some node
  root : nodes[([] : Dir)]? = some (.directory 0o755)

variable {json : Json} {hashes : Hashes}

/-- One more entry is taken. -/
theorem Cuts.add {entries : List Entry} {nodes nodes' : BTreeMap Dir ArchiveNode} {e : Entry}
    (h : Cuts hashes entries nodes) (hadd : addEntry hashes nodes e = .ok nodes') :
    Cuts hashes (entries ++ [e]) nodes' := by
  obtain ⟨_, hpath, hadd⟩ := bind_eq_ok hadd
  obtain ⟨new, hnew, hadd⟩ := bind_eq_ok hadd
  split at hadd
  · nomatch hadd
  · case isFalse hfresh =>
    obtain rfl := Except.ok.inj hadd
    -- what the new map holds at a path
    have hget : ∀ path : Dir,
        ((parents e.path.components).foldl
          (fun nodes parent => nodes.insertIfNew parent (.directory 0o755))
          (nodes.insert e.path.components new))[path]? =
        if e.path.components = path then some new
        else nodes[path]?.or
          (if path <+: e.path.components then some (.directory 0o755) else none) := by
      intro path
      rw [get_addParents, BTreeMap.get_insert]
      by_cases heq : e.path.components = path
      · rw [if_pos heq, if_pos heq, Option.some_or]
      · rw [if_neg heq, if_neg heq]
        congr 1
        exact if_congr (by rw [mem_parents, and_iff_left (Ne.symm heq)]) rfl rfl
    have hkeep : ∀ (path : Dir) (node : ArchiveNode), nodes[path]? = some node →
        e.path.components ≠ path := by
      rintro path node hnode rfl
      exact hfresh (Std.ExtTreeMap.isSome_getElem?_iff_mem.1 (hnode ▸ rfl))
    refine ⟨?_, ?_, ?_, ?_⟩
    · intro e' he'
      rcases List.mem_append.1 he' with he' | he'
      · obtain ⟨hvalid, node, hnode, hin⟩ := h.entry e' he'
        refine ⟨hvalid, node, hnode, ?_⟩
        rw [hget, if_neg (hkeep _ node hin), hin, Option.some_or]
      · obtain rfl := List.mem_singleton.1 he'
        refine ⟨hpath, new, hnew, ?_⟩
        rw [hget, if_pos rfl]
    · intro path node hnode
      rw [hget] at hnode
      by_cases heq : e.path.components = path
      · rw [if_pos heq] at hnode
        obtain rfl := Option.some.inj hnode
        exact .inl ⟨e, List.mem_append_right _ List.mem_cons_self, heq, hnew⟩
      · rw [if_neg heq] at hnode
        cases hold : nodes[path]? with
        | some node' =>
          rw [hold, Option.some_or] at hnode
          obtain rfl := Option.some.inj hnode
          rcases h.node path node' hold with ⟨e', he', hpath', hnode'⟩ | ⟨rfl, hno, hparent⟩
          · exact .inl ⟨e', List.mem_append_left _ he', hpath', hnode'⟩
          · refine .inr ⟨rfl, fun e' he' => ?_, ?_⟩
            · rcases List.mem_append.1 he' with he' | he'
              · exact hno e' he'
              · obtain rfl := List.mem_singleton.1 he'
                exact heq
            · exact hparent.imp_right fun ⟨e', he', hpre⟩ => ⟨e', List.mem_append_left _ he', hpre⟩
        | none =>
          rw [hold, Option.none_or] at hnode
          split_ifs at hnode with hpre
          obtain rfl := Option.some.inj hnode
          refine .inr ⟨rfl, fun e' he' => ?_,
            .inr ⟨e, List.mem_append_right _ List.mem_cons_self, hpre⟩⟩
          rcases List.mem_append.1 he' with he' | he'
          · rintro rfl
            obtain ⟨-, node', -, hin⟩ := h.entry e' he'
            exact nomatch hold.symm.trans hin
          · obtain rfl := List.mem_singleton.1 he'
            exact heq
    · intro e' he' path hpre
      rw [hget]
      by_cases heq : e.path.components = path
      · exact ⟨new, if_pos heq⟩
      · rw [if_neg heq]
        rcases List.mem_append.1 he' with he' | he'
        · obtain ⟨node, hnode⟩ := h.parent e' he' path hpre
          exact ⟨node, by rw [hnode, Option.some_or]⟩
        · obtain rfl := List.mem_singleton.1 he'
          cases hold : nodes[path]? with
          | some node => exact ⟨node, Option.some_or⟩
          | none => exact ⟨.directory 0o755, by rw [if_pos hpre, Option.none_or]⟩
    · have hne := (validateCachePath_eq_ok_iff.1 hpath).1
      rw [hget, if_neg hne, h.root, Option.some_or]

theorem cuts_of_archiveNodes {entries : List Entry} {nodes : BTreeMap Dir ArchiveNode}
    (h : archiveNodes hashes entries = .ok nodes) : Cuts hashes entries nodes := by
  have hstart : Cuts hashes [] ((∅ : BTreeMap Dir ArchiveNode).insert [] (.directory 0o755)) := by
    refine ⟨nofun, ?_, nofun, ?_⟩
    · intro path node hnode
      rw [BTreeMap.get_insert] at hnode
      split_ifs at hnode with heq
      · exact .inr ⟨(Option.some.inj hnode).symm, nofun, .inl heq.symm⟩
      · exact nomatch hnode
    · rw [BTreeMap.get_insert, if_pos rfl]
  exact foldlM_induction (Cuts hashes) (fun _ _ _ _ => Cuts.add) h hstart

/-! ### The objects -/

/-- A row says what a node is, up to the digest of a directory. -/
def Fits : ArchiveNode → Row → Prop
  | .directory mode, .directory _ mode' => mode' = mode
  | .file digest executable mode _, row => row = .file digest executable mode
  | .symlink mode target, row => row = .symlink mode target.raw
  | _, _ => False

/-- A directory object with one more row. -/
def CacheDirectory.addRow (directory : CacheDirectory) (name : String) : Row → CacheDirectory
  | .directory digest mode =>
    { directory with directories := directory.directories ++ [⟨digest, mode, name⟩] }
  | .file digest executable mode =>
    { directory with files := directory.files ++ [⟨digest, executable, mode, name⟩] }
  | .symlink mode target =>
    { directory with symlinks := directory.symlinks ++ [⟨mode, name, target⟩] }

theorem rows_addRow (directory : CacheDirectory) (name : String) (row : Row) :
    (directory.addRow name row).rows.Perm ((name, row) :: directory.rows) := by
  cases row with
  | directory digest mode =>
    simp only [CacheDirectory.addRow, CacheDirectory.rows, List.map_append, List.map_singleton,
      List.append_assoc]
    exact List.perm_middle
  | file digest executable mode =>
    simp only [CacheDirectory.addRow, CacheDirectory.rows, List.map_append, List.map_singleton,
      List.append_assoc, List.singleton_append]
    rw [← List.append_assoc, ← List.append_assoc]
    exact List.perm_middle
  | symlink mode target =>
    simp only [CacheDirectory.addRow, CacheDirectory.rows, List.map_append, List.map_singleton]
    rw [← List.append_assoc]
    exact List.perm_append_singleton _ _

theorem addRow_version (directory : CacheDirectory) (name : String) (row : Row) :
    (directory.addRow name row).version = directory.version := by
  cases row <;> rfl

/-- **What a turn of `build_directory` does**: nothing at a node that is not in
the directory; else it adds the node's row, after building a directory below. -/
theorem addChild_cases
    {build : Dir → List BlobUpload → Except String (CacheDigest × List BlobUpload)} {path : Dir}
    {directory directory' : CacheDirectory} {uploads uploads' : List BlobUpload}
    {entry : Dir × ArchiveNode}
    (h : addChild build path (directory, uploads) entry = .ok (directory', uploads')) :
    (¬(entry.1 ≠ [] ∧ entry.1.dropLast = path) ∧ directory' = directory ∧ uploads' = uploads) ∨
    ∃ name row, entry.1 = below path name ∧ IsName name.toList ∧ Fits entry.2 row ∧
      directory' = directory.addRow name row ∧
      ((∃ digest mode, row = .directory digest mode ∧ build entry.1 uploads = .ok (digest, uploads')) ∨
        (∀ digest mode, row ≠ .directory digest mode) ∧ uploads' = uploads) := by
  obtain ⟨q, n⟩ := entry
  rw [addChild] at h
  split at h
  · case isTrue hother =>
    obtain ⟨rfl, rfl⟩ := Prod.mk.inj (Except.ok.inj h)
    refine .inl ⟨fun hin => ?_, rfl, rfl⟩
    rcases hother with hnil | hne
    · exact hin.1 hnil
    · exact hne hin.2
  · case isFalse hin =>
    simp only [not_or, not_not] at hin
    obtain ⟨name, hname, h⟩ := bind_eq_ok h
    obtain ⟨hlast, hisName⟩ := cacheName_eq_ok_iff.1 hname
    have hq : q = below path name := by
      rw [below, ← hin.2]
      exact (List.dropLast_append_getLast? _ hlast).symm
    cases n with
    | directory mode =>
      obtain ⟨⟨digest, uploads''⟩, hbuild, h⟩ := bind_eq_ok h
      obtain ⟨rfl, rfl⟩ := Prod.mk.inj (Except.ok.inj h)
      exact .inr ⟨name, .directory digest mode, hq, hisName, rfl, rfl,
        .inl ⟨digest, mode, rfl, hbuild⟩⟩
    | file digest executable mode file =>
      obtain ⟨rfl, rfl⟩ := Prod.mk.inj (Except.ok.inj h)
      exact .inr ⟨name, .file digest executable mode, hq, hisName, rfl, rfl, .inr ⟨nofun, rfl⟩⟩
    | symlink mode target =>
      obtain ⟨rfl, rfl⟩ := Prod.mk.inj (Except.ok.inj h)
      exact .inr ⟨name, .symlink mode target.raw, hq, hisName, rfl, rfl, .inr ⟨nofun, rfl⟩⟩

/-- The digest is that of the object built for the nodes in the directory, and
so are those in its rows for the directories below. -/
inductive Built (json : Json) (hashes : Hashes) (nodes : BTreeMap Dir ArchiveNode)
    (uploads : List BlobUpload) : Dir → CacheDigest → Prop
  | intro {path : Dir} {directory : CacheDirectory}
    (version : directory.version = 1)
    (upload : ⟨.blake3 hashes (json.encode directory), .bytes (json.encode directory)⟩ ∈ uploads)
    (nodup : (directory.rows.map Prod.fst).Nodup)
    (row : ∀ name row, (name, row) ∈ directory.rows → IsName name.toList ∧
      ∃ node, nodes[below path name]? = some node ∧ Fits node row)
    (all : ∀ c node, nodes[path ++ [c]]? = some node → ∃ name row,
      c = .normal name.toList ∧ (name, row) ∈ directory.rows ∧ Fits node row)
    (sub : ∀ name digest mode, (name, .directory digest mode) ∈ directory.rows →
      Built json hashes nodes uploads (below path name) digest) :
    Built json hashes nodes uploads path (.blake3 hashes (json.encode directory))

variable {nodes : BTreeMap Dir ArchiveNode}

theorem Built.mono {uploads uploads' : List BlobUpload} {path : Dir} {digest : CacheDigest}
    (h : Built json hashes nodes uploads path digest) (hsub : uploads ⊆ uploads') :
    Built json hashes nodes uploads' path digest := by
  induction h with
  | intro version upload nodup row all _ ih => exact .intro version (hsub upload) nodup row all ih

/-- What the loop of `build_directory` has made of the nodes it is through. -/
structure Collected (json : Json) (hashes : Hashes) (nodes : BTreeMap Dir ArchiveNode)
    (path : Dir) (before : List BlobUpload) (done : List (Dir × ArchiveNode))
    (state : CacheDirectory × List BlobUpload) : Prop where
  version : state.1.version = 1
  uploads : before ⊆ state.2
  nodup : (state.1.rows.map Prod.fst).Nodup
  row : ∀ name row, (name, row) ∈ state.1.rows → IsName name.toList ∧
    ∃ node, (below path name, node) ∈ done ∧ Fits node row
  all : ∀ c node, (path ++ [c], node) ∈ done → ∃ name row,
    c = .normal name.toList ∧ (name, row) ∈ state.1.rows ∧ Fits node row
  sub : ∀ name digest mode, (name, .directory digest mode) ∈ state.1.rows →
    Built json hashes nodes state.2 (below path name) digest

/-- One more node is gone through. -/
theorem Collected.add
    {build : Dir → List BlobUpload → Except String (CacheDigest × List BlobUpload)}
    (hbuild : ∀ path uploads digest uploads', build path uploads = .ok (digest, uploads') →
      uploads ⊆ uploads' ∧ Built json hashes nodes uploads' path digest)
    {path : Dir} {before : List BlobUpload} {done : List (Dir × ArchiveNode)}
    {state state' : CacheDirectory × List BlobUpload} {entry : Dir × ArchiveNode}
    (hnew : entry.1 ∉ done.map Prod.fst) (h : Collected json hashes nodes path before done state)
    (hadd : addChild build path state entry = .ok state') :
    Collected json hashes nodes path before (done ++ [entry]) state' := by
  obtain ⟨directory, uploads⟩ := state
  obtain ⟨directory', uploads'⟩ := state'
  rcases addChild_cases hadd with ⟨hother, rfl, rfl⟩ | ⟨name, row, hpath, hname, hfits, rfl, hups⟩
  · refine ⟨h.version, h.uploads, h.nodup, fun name row hrow => ?_, fun c node hmem => ?_, h.sub⟩
    · obtain ⟨hname, node, hmem, hfits⟩ := h.row name row hrow
      exact ⟨hname, node, List.mem_append_left _ hmem, hfits⟩
    · rcases List.mem_append.1 hmem with hmem | hmem
      · exact h.all c node hmem
      · obtain rfl := List.mem_singleton.1 hmem
        exact absurd ⟨List.append_ne_nil_of_right_ne_nil _ nofun, List.dropLast_concat⟩ hother
  · have hperm := rows_addRow directory name row
    have hsub : uploads ⊆ uploads' := by
      rcases hups with ⟨digest, mode, -, hbuilt⟩ | ⟨-, rfl⟩
      · exact (hbuild _ _ _ _ hbuilt).1
      · exact fun _ hu => hu
    refine ⟨(addRow_version directory name row).trans h.version, fun u hu => hsub (h.uploads hu),
      ?_, fun name' row' hrow' => ?_, fun c node hmem => ?_, fun name' digest mode hrow' => ?_⟩
    · rw [(hperm.map Prod.fst).nodup_iff, List.map_cons, List.nodup_cons]
      refine ⟨fun hmem => ?_, h.nodup⟩
      obtain ⟨⟨_, row'⟩, hrow', rfl⟩ := List.mem_map.1 hmem
      obtain ⟨-, node, hdone, -⟩ := h.row _ _ hrow'
      exact hnew (hpath ▸ List.mem_map_of_mem hdone)
    · rcases List.mem_cons.1 (hperm.mem_iff.1 hrow') with heq | hold
      · obtain ⟨rfl, rfl⟩ := Prod.mk.inj heq
        refine ⟨hname, entry.2, List.mem_append_right _ ?_, hfits⟩
        rw [← hpath]
        exact List.mem_cons_self
      · obtain ⟨hname', node, hmem, hfits'⟩ := h.row name' row' hold
        exact ⟨hname', node, List.mem_append_left _ hmem, hfits'⟩
    · rcases List.mem_append.1 hmem with hmem | hmem
      · obtain ⟨name', row', hc, hold, hfits'⟩ := h.all c node hmem
        exact ⟨name', row', hc, hperm.mem_iff.2 (List.mem_cons_of_mem _ hold), hfits'⟩
      · obtain rfl := List.mem_singleton.1 hmem
        have hc := List.head_eq_of_cons_eq (List.append_cancel_left hpath)
        exact ⟨name, row, hc, hperm.mem_iff.2 List.mem_cons_self, hfits⟩
    · rcases List.mem_cons.1 (hperm.mem_iff.1 hrow') with heq | hold
      · obtain ⟨rfl, rfl⟩ := Prod.mk.inj heq
        rcases hups with ⟨digest', mode', hrow'', hbuilt⟩ | ⟨hne, -⟩
        · obtain ⟨rfl, -⟩ := Row.directory.inj hrow''
          rw [← hpath]
          exact (hbuild _ _ _ _ hbuilt).2
        · exact absurd rfl (hne digest mode)
      · exact (h.sub name' digest mode hold).mono hsub

/-- **`build_directory` builds the object of a directory**, and those below. -/
theorem built_of_buildDirectory {depth : ℕ} {path : Dir} {uploads uploads' : List BlobUpload}
    {digest : CacheDigest}
    (h : buildDirectory json hashes nodes depth path uploads = .ok (digest, uploads')) :
    uploads ⊆ uploads' ∧ Built json hashes nodes uploads' path digest := by
  induction depth generalizing path uploads uploads' digest with
  | zero => nomatch h
  | succ depth ih =>
    rw [buildDirectory] at h
    obtain ⟨⟨directory, uploads''⟩, hloop, h⟩ := bind_eq_ok h
    obtain ⟨rfl, rfl⟩ := Prod.mk.inj (Except.ok.inj h)
    have hstart : Collected json hashes nodes path uploads [] (⟨[], [], [], 1⟩, uploads) :=
      ⟨rfl, fun _ hu => hu, List.nodup_nil, nofun, nofun, nofun⟩
    have hcollected := foldlM_induction
      (fun done state => (done.map Prod.fst).Nodup →
        Collected json hashes nodes path uploads done state)
      (fun done state entry state' hdone hadd hnodup => by
        rw [List.map_append, List.map_singleton, List.nodup_append] at hnodup
        have hnew : entry.1 ∉ done.map Prod.fst :=
          fun hmem => hnodup.2.2 _ hmem _ List.mem_cons_self rfl
        exact (hdone hnodup.1).add (fun _ _ _ _ => ih) hnew hadd)
      hloop (fun _ => hstart) (BTreeMap.nodup_map_fst_toList nodes)
    have hmem : ∀ (q : Dir) (n : ArchiveNode), (q, n) ∈ [] ++ nodes.toList ↔ nodes[q]? = some n :=
      fun _ _ => Std.ExtTreeMap.mem_toList_iff_getElem?_eq_some
    have hsub : uploads'' ⊆ uploads'' ++ [⟨.blake3 hashes (json.encode directory),
        .bytes (json.encode directory)⟩] := fun _ hu => List.mem_append_left _ hu
    refine ⟨fun u hu => hsub (hcollected.uploads hu), .intro hcollected.version
      (List.mem_append_right _ List.mem_cons_self) hcollected.nodup (fun name row hrow => ?_)
      (fun c node hnode => hcollected.all c node ((hmem _ _).2 hnode))
      fun name digest mode hrow => (hcollected.sub name digest mode hrow).mono hsub⟩
    obtain ⟨hname, node, hin, hfits⟩ := hcollected.row name row hrow
    exact ⟨hname, node, (hmem _ _).1 hin, hfits⟩

/-! ### The depth of the recursion -/

/-! ### The uploads -/

/-- **What `archive_to_cas` returns**: the digest of the object built for the
root, and every object and file among the uploads. -/
theorem archiveToCas_eq_ok {entries : List Entry} {root : CacheDigest} {uploads : List BlobUpload}
    (h : archiveToCas json hashes entries = .ok (root, uploads)) :
    ∃ nodes, Cuts hashes entries nodes ∧ Built json hashes nodes uploads [] root ∧
      ∀ (path : Dir) digest executable mode file,
        nodes[path]? = some (.file digest executable mode file) →
          ⟨digest, .file file⟩ ∈ uploads := by
  obtain ⟨nodes, hnodes, h⟩ := bind_eq_ok h
  obtain ⟨⟨root', built⟩, hbuild, h⟩ := bind_eq_ok h
  obtain ⟨rfl, rfl⟩ := Prod.mk.inj (Except.ok.inj h)
  refine ⟨nodes, cuts_of_archiveNodes hnodes,
    (built_of_buildDirectory hbuild).2.mono fun _ hu => List.mem_append_left _ hu,
    fun path digest executable mode file hfile => List.mem_append_right _ ?_⟩
  exact List.mem_filterMap.2
    ⟨_, Std.ExtTreeMap.mem_toList_iff_getElem?_eq_some.2 hfile, rfl⟩

end Mise.TaskCache
