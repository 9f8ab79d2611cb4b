/-
# The round trip of an archive through blobs

An archive that `archive_to_cas` accepts is made of the blobs again by
`materialize_remote_tree`, when these are stored as they were uploaded.  The walk
then comes to the directories that were built and takes each of them
(`walks_of_representable`): none is above itself, since an object has the
digests of those below it.

The archive that results is the first one, with directories for the parents it
has no entries for, exactly when the archive is `Representable`
(`restores_iff`): nothing stands below a file or a link, no file may be executed
by some and not by others, and no name has a backslash.  An entry below a link
is dropped, as `build_directory` never comes to it.  Of the execute bits of a
file only whether there is one is kept, beside its mode, and all are set then.
A backslash is let through by `cache_name` and refused by `validate_cache_name`.
-/

import Mise.Task.CacheTreeCut

namespace Mise.TaskCache

open Lib

/-! ### The statement -/

/-- The entry `o` is the entry `e`: its path, kind, permission bits, and content
or target. -/
structure Same (e o : Entry) : Prop where
  path : o.path.components = e.path.components
  entryType : o.entryType = e.entryType
  mode : o.mode &&& 0o7777 = e.mode &&& 0o7777
  data : e.entryType = .file → o.data = e.data
  linkName : e.entryType = .symlink → o.linkName = e.linkName

/-- The entry is a directory that has no entry and that some entry is in. -/
structure MissingParent (entries : List Entry) (o : Entry) : Prop where
  entryType : o.entryType = .directory
  missing : ∀ e ∈ entries, e.path.components ≠ o.path.components
  parent : ∃ e ∈ entries, o.path.components <+: e.path.components

/-- The archive `out` has the entries of another, and missing parents. -/
structure Restores (entries out : List Entry) : Prop where
  kept : ∀ e ∈ entries, ∃ o ∈ out, Same e o
  only : ∀ o ∈ out, (∃ e ∈ entries, Same e o) ∨ MissingParent entries o
  once : (out.map fun o => o.path.components).Nodup

/-- The archive can be told from its blobs. -/
structure Representable (entries : List Entry) : Prop where
  parent : ∀ e ∈ entries, ∀ e' ∈ entries, e'.path.components <+: e.path.components →
    e'.path.components ≠ e.path.components → e'.entryType = .directory
  mode : ∀ e ∈ entries, e.entryType = .file → e.mode &&& 0o111 = 0 ∨ e.mode &&& 0o111 = 0o111
  name : ∀ e ∈ entries, ∀ name, .normal name ∈ e.path.components → '\\' ∉ name

/-! ### Permission bits -/

theorem and_and_of_and_eq {bits mask : UInt32} (h : bits &&& mask = mask) (x : UInt32) :
    (x &&& bits) &&& mask = x &&& mask := by
  rw [UInt32.and_assoc, h]

theorem or_and_mask (x mask : UInt32) : (x ||| mask) &&& mask = mask := by
  rw [← UInt32.toBitVec_inj]
  ext i hi
  simp only [UInt32.toBitVec_and, UInt32.toBitVec_or, BitVec.getElem_and, BitVec.getElem_or]
  cases x.toBitVec[i] <;> cases mask.toBitVec[i] <;> rfl

theorem andNot_and_mask (x mask : UInt32) : (x &&& ~~~mask) &&& mask = 0 := by
  rw [← UInt32.toBitVec_inj]
  ext i hi
  simp

theorem or_eq_self {x mask : UInt32} (h : x &&& mask = mask) : x ||| mask = x := by
  rw [← UInt32.toBitVec_inj] at h ⊢
  ext i hi
  have hbit := congrArg (·[i]) h
  simp only [UInt32.toBitVec_and, UInt32.toBitVec_or, BitVec.getElem_and,
    BitVec.getElem_or] at hbit ⊢
  revert hbit
  cases x.toBitVec[i] <;> cases mask.toBitVec[i] <;> simp

theorem andNot_eq_self {x mask : UInt32} (h : x &&& mask = 0) : x &&& ~~~mask = x := by
  rw [← UInt32.toBitVec_inj] at h ⊢
  ext i hi
  have hbit := congrArg (·[i]) h
  simp at hbit ⊢
  exact hbit

/-- The node that is restored for one of an archive. -/
def ArchiveNode.restored : ArchiveNode → RestoredNode
  | .directory mode => .directory mode
  | .file digest executable mode _ => .file digest executable mode
  | .symlink mode target => .symlink mode target

/-! ### What a restored archive is like -/

section

variable {json : Json} {hashes : Hashes} {server : CacheDigest → Except String Bytes}
  {root : CacheDigest}

/-- Above a directory that the walk comes to there are directories. -/
theorem yields_of_prefix_of_comes {item : Pending} (h : Comes json hashes server root item)
    {path : Dir} (hpath : path <+: item.path) (hne : path ≠ []) :
    ∃ mode, Yields json hashes server root path (.directory mode) := by
  induction h with
  | start hstart =>
    obtain rfl := List.mem_singleton.1 hstart
    exact absurd (List.prefix_nil.1 hpath) hne
  | @child i j _ _ hparent htake hmem ih =>
    obtain ⟨-, directory, hread, -, rfl, -⟩ := takeDirectory_eq_ok htake
    obtain ⟨name, mode, hrow, hbelow, -⟩ := mem_children hmem
    rw [hbelow] at hpath
    rcases List.prefix_concat_iff.1 hpath with heq | hpre
    · exact ⟨mode, i, directory, name, _, hparent, hread, hrow, heq, rfl⟩
    · exact ih hpre

/-- **Above a node of a tree there are directories.** -/
theorem Yields.parent {path parent : Dir} {node : RestoredNode}
    (h : Yields json hashes server root path node) (hparent : parent <+: path)
    (hpath : parent ≠ path) (hne : parent ≠ []) :
    ∃ mode, Yields json hashes server root parent (.directory mode) := by
  obtain ⟨item, directory, name, row, hitem, -, -, rfl, -⟩ := h
  rcases List.prefix_concat_iff.1 hparent with heq | hpre
  · exact absurd heq hpath
  · exact yields_of_prefix_of_comes hitem hpre hne

/-- The execute bits of a restored file are all there or none. -/
theorem mode_of_restored {path : Dir} {node : RestoredNode} {o : Entry}
    (h : restoredEntry hashes server path node = .ok o) (htype : o.entryType = .file) :
    o.mode &&& 0o111 = 0 ∨ o.mode &&& 0o111 = 0o111 := by
  cases node with
  | directory mode =>
    obtain rfl := Except.ok.inj h
    nomatch htype
  | file digest executable mode =>
    obtain ⟨data, -, h⟩ := bind_eq_ok h
    obtain rfl := Except.ok.inj h
    cases executable with
    | true => exact .inr (or_and_mask mode 0o111)
    | false => exact .inl (andNot_and_mask mode 0o111)
  | symlink mode target =>
    obtain rfl := Except.ok.inj h
    nomatch htype

/-- What an archive that is restored must be like. -/
theorem representable_of_restores {turns : ℕ} {entries out : List Entry}
    (hne : ∀ e ∈ entries, e.path.components ≠ [])
    (h : materializeRemoteTree json hashes server turns root = some (.ok out))
    (hout : Restores entries out) : Representable entries := by
  obtain ⟨hwalks, -, hsource⟩ := restored_of_materialize h
  refine ⟨fun e he e' he' hpre hpath => ?_, fun e he htype => ?_, fun e he name hname hback => ?_⟩
  · obtain ⟨o, ho, hsame⟩ := hout.kept e he
    obtain ⟨o', ho', hsame'⟩ := hout.kept e' he'
    obtain ⟨path, node, hyields, hentry⟩ := hsource o ho
    obtain ⟨path', node', hyields', hentry'⟩ := hsource o' ho'
    have hp := (components_of_restored (hyields.named hwalks) hentry).symm.trans hsame.path
    have hp' := (components_of_restored (hyields'.named hwalks) hentry').symm.trans hsame'.path
    rw [← hp, ← hp'] at hpre hpath
    obtain ⟨mode, hdir⟩ := hyields.parent hpre hpath (hp' ▸ hne e' he')
    rw [hyields'.unique hwalks hdir] at hentry'
    obtain rfl := Except.ok.inj hentry'
    exact hsame'.entryType.symm
  · obtain ⟨o, ho, hsame⟩ := hout.kept e he
    obtain ⟨path, node, -, hentry⟩ := hsource o ho
    have hbits : e.mode &&& 0o111 = o.mode &&& 0o111 := by
      have hmask : (0o7777 : UInt32) &&& 0o111 = 0o111 := by decide
      rw [← and_and_of_and_eq hmask e.mode, ← hsame.mode, and_and_of_and_eq hmask]
    rw [hbits]
    exact mode_of_restored hentry (hsame.entryType.trans htype)
  · obtain ⟨o, ho, hsame⟩ := hout.kept e he
    obtain ⟨path, node, hyields, hentry⟩ := hsource o ho
    rw [← hsame.path, components_of_restored (hyields.named hwalks) hentry] at hname
    obtain ⟨name', heq, -, hnot⟩ := hyields.named hwalks _ hname
    obtain rfl := Component.normal.inj heq
    exact hnot hback

end

/-! ### The walk over what was uploaded -/

/-- The hash is written in 64 digits. -/
def IsHex (hash : Bytes → String) : Prop :=
  ∀ bytes, (hash bytes).toList.length = 64 ∧ (hash bytes).toList.all isLowerHex = true

/-- The JSON of the objects that were uploaded is read as these objects. -/
def Lossless (json : Json) (uploads : List BlobUpload) : Prop :=
  ∀ directory digest, ⟨digest, .bytes (json.encode directory)⟩ ∈ uploads →
    json.decode (json.encode directory) = .ok directory

/-- The server has what was uploaded. -/
def Stored (server : CacheDigest → Except String Bytes) (uploads : List BlobUpload) : Prop :=
  ∀ u ∈ uploads, server u.digest = .ok u.source.content

section

variable {json : Json} {hashes : Hashes} {server : CacheDigest → Except String Bytes}
  {entries : List Entry} {nodes : BTreeMap Dir ArchiveNode} {uploads : List BlobUpload}
  {root : CacheDigest}

/-- A blob that was stored under its digest is returned. -/
theorem getBlob_blake3 (hhex : IsHex hashes.blake3) {bytes : Bytes}
    (h : server (.blake3 hashes bytes) = .ok bytes) :
    getBlob hashes server (.blake3 hashes bytes) = .ok bytes := by
  have hvalid : (CacheDigest.blake3 hashes bytes).validate = .ok () := by
    obtain ⟨hlen, hall⟩ := hhex bytes
    unfold CacheDigest.validate
    rw [if_neg fun halg => halg.1 rfl, if_neg]
    rintro (hbad | hbad)
    · exact hbad hlen
    · exact Bool.noConfusion (hbad.symm.trans hall)
  have hmatches : (CacheDigest.blake3 hashes bytes).matchesBytes hashes bytes = .ok true := by
    unfold CacheDigest.matchesBytes
    rw [hvalid, ok_bind, if_neg fun hne => hne rfl]
    exact congrArg Except.ok (decide_eq_true (if_pos rfl).symm)
  have hsize : ¬(CacheDigest.blake3 hashes bytes).size < .ofNat bytes.length :=
    UInt64.lt_irrefl _
  unfold getBlob
  rw [hvalid, ok_bind, h, ok_bind, if_neg hsize, hmatches, ok_bind, if_neg Bool.noConfusion]
  rfl

variable (hjson : Lossless json uploads)
  (hhex : IsHex hashes.blake3) (hstored : Stored server uploads)

include hjson hhex hstored

/-- An object that was uploaded is read. -/
theorem readDirectory_encode {directory : CacheDirectory} (version : directory.version = 1)
    (upload : ⟨.blake3 hashes (json.encode directory), .bytes (json.encode directory)⟩ ∈ uploads) :
    readDirectory json hashes server (.blake3 hashes (json.encode directory)) = .ok directory := by
  unfold readDirectory
  rw [getBlob_blake3 hhex (hstored _ upload), ok_bind, hjson _ _ upload, ok_bind,
    if_neg fun hne => hne rfl, if_neg fun hne => hne version]
  rfl

omit hjson hhex hstored in
/-- A directory object has the digest of another in its rows. -/
def Refers (json : Json) (hashes : Hashes) (server : CacheDigest → Except String Bytes)
    (child parent : CacheDigest) : Prop :=
  ∃ directory name mode, readDirectory json hashes server parent = .ok directory ∧
    (name, .directory child mode) ∈ directory.rows

/-- An object that was built is read, and has the nodes of its directory for
rows. -/
theorem read_of_built {path : Dir} {digest : CacheDigest}
    (h : Built json hashes nodes uploads path digest) : ∃ directory,
      readDirectory json hashes server digest = .ok directory ∧
      (directory.rows.map Prod.fst).Nodup ∧
      (∀ name row, (name, row) ∈ directory.rows → IsName name.toList ∧
        ∃ node, nodes[below path name]? = some node ∧ Fits node row) ∧
      (∀ c node, nodes[path ++ [c]]? = some node → ∃ name row,
        c = .normal name.toList ∧ (name, row) ∈ directory.rows ∧ Fits node row) ∧
      ∀ name child mode, (name, .directory child mode) ∈ directory.rows →
        Built json hashes nodes uploads (below path name) child := by
  cases h with
  | @intro _ directory version upload nodup row all sub =>
    exact ⟨directory, readDirectory_encode hjson hhex hstored version upload, nodup, row, all, sub⟩

/-- Objects that were built refer to one another without end nowhere. -/
theorem acc_of_built {path : Dir} {digest : CacheDigest}
    (h : Built json hashes nodes uploads path digest) :
    Acc (Refers json hashes server) digest := by
  induction h with
  | @intro path directory version upload _ _ _ _ ih =>
    refine ⟨_, fun child hrefers => ?_⟩
    obtain ⟨directory', name, mode, hread, hrow⟩ := hrefers
    have hread' := readDirectory_encode hjson hhex hstored version upload
    obtain rfl := Except.ok.inj (hread'.symm.trans hread)
    exact ih name child mode hrow

omit hjson hhex hstored in
theorem refers_of_below {item item' : Pending}
    (h : Worklist.Below (takeDirectory json hashes server) item item') :
    Refers json hashes server item.digest item'.digest := by
  obtain ⟨cs, out, htake, hmem⟩ := h
  obtain ⟨-, directory, hread, -, rfl, -⟩ := takeDirectory_eq_ok htake
  obtain ⟨name, mode, hrow, -⟩ := mem_children hmem
  exact ⟨directory, name, mode, hread, hrow⟩

/-- **The walk over built objects ends.** -/
theorem walk_built_terminates (hroot : Built json hashes nodes uploads [] root) :
    ∃ turns result,
      Worklist.run (takeDirectory json hashes server) turns [⟨[], root, ∅⟩] = some result := by
  refine Worklist.run_terminates fun item hitem => ?_
  obtain rfl := List.mem_singleton.1 hitem
  have hacc := acc_of_built hjson hhex hstored hroot
  have hsub : Subrelation (Worklist.Below (takeDirectory json hashes server))
      (InvImage (Refers json hashes server) Pending.digest) := fun h => refers_of_below h
  exact hsub.accessible (InvImage.accessible _ hacc)

/-- What the walk comes to was built, and is below its ancestors. -/
theorem built_of_comes (hroot : Built json hashes nodes uploads [] root) {item : Pending}
    (h : Comes json hashes server root item) :
    Built json hashes nodes uploads item.path item.digest ∧
      ∀ a ∈ item.ancestors, Relation.TransGen (Refers json hashes server) item.digest a := by
  induction h with
  | start hstart =>
    obtain rfl := List.mem_singleton.1 hstart
    exact ⟨hroot, fun a ha => absurd ha (Finset.notMem_empty a)⟩
  | @child i j _ _ _ htake hmem ih =>
    obtain ⟨hbuilt, habove⟩ := ih
    have hrefers := refers_of_below ⟨_, _, htake, hmem⟩
    obtain ⟨-, directory, hread, -, rfl, -⟩ := takeDirectory_eq_ok htake
    obtain ⟨name, mode, hrow, hpath, hanc⟩ := mem_children hmem
    constructor
    · rw [hpath]
      obtain ⟨directory', hread', -, -, -, hsub⟩ := read_of_built hjson hhex hstored hbuilt
      obtain rfl := Except.ok.inj (hread.symm.trans hread')
      exact hsub name j.digest mode hrow
    · intro a ha
      rw [hanc] at ha
      rcases Finset.mem_insert.1 ha with rfl | ha
      · exact .single hrefers
      · exact .head hrefers (habove a ha)

/-- Nothing refers to itself through others. -/
theorem not_mem_ancestors (hroot : Built json hashes nodes uploads [] root) {item : Pending}
    (h : Comes json hashes server root item) : item.digest ∉ item.ancestors := by
  intro hmem
  obtain ⟨hbuilt, habove⟩ := built_of_comes hjson hhex hstored hroot h
  have hacc := (acc_of_built hjson hhex hstored hbuilt).transGen
  have hloop := habove _ hmem
  generalize item.digest = digest at hacc hloop
  induction hacc with
  | intro digest _ ih => exact ih digest hloop hloop

variable (hcuts : Cuts hashes entries nodes) (hrep : Representable entries)

include hcuts hrep

omit hjson hhex hstored in
/-- Every node is at the path of an entry or above it, so its names are
accepted. -/
theorem noBackslash_of_node {path : Dir} {name : String} {node : ArchiveNode}
    (h : nodes[below path name]? = some node) : '\\' ∉ name.toList := by
  have hmem : Component.normal name.toList ∈ below path name :=
    List.mem_append_right _ List.mem_cons_self
  rcases hcuts.node _ _ h with ⟨e, he, hpath, -⟩ | ⟨-, -, hnil | ⟨e, he, hpre⟩⟩
  · exact hrep.name e he _ (hpath ▸ hmem)
  · exact absurd hnil (List.append_ne_nil_of_right_ne_nil _ nofun)
  · exact hrep.name e he _ (hpre.subset hmem)

/-- **The walk takes every directory that was built.** -/
theorem walks_of_representable (hroot : Built json hashes nodes uploads [] root) :
    Walks json hashes server root := by
  intro item hitem
  refine ⟨not_mem_ancestors hjson hhex hstored hroot hitem, ?_⟩
  obtain ⟨hbuilt, -⟩ := built_of_comes hjson hhex hstored hroot hitem
  obtain ⟨directory, hread, hnodup, hrow, -, -⟩ := read_of_built hjson hhex hstored hbuilt
  refine ⟨directory, hread, ⟨fun r hr => ?_, hnodup, fun name mode target hmem => ?_⟩⟩
  · obtain ⟨hname, node, hnode, -⟩ := hrow r.1 r.2 hr
    exact ⟨hname, noBackslash_of_node hcuts hrep hnode⟩
  · obtain ⟨-, node, hnode, hfits⟩ := hrow name _ hmem
    cases node with
    | directory mode => exact absurd hfits id
    | file digest executable mode file => nomatch hfits
    | symlink mode' link =>
      obtain ⟨rfl, rfl⟩ := Row.symlink.inj hfits
      rcases hcuts.node _ _ hnode with ⟨e, he, hpath, hmade⟩ | ⟨hdir, -⟩
      · rw [← hpath]
        exact target_of_archiveNode hmade
      · nomatch hdir

/-! ### The archive that results -/

omit hjson hhex hstored in
/-- **Above a node there are directories** in an archive that can be told from
its blobs. -/
theorem directory_of_prefix {path parent : Dir} {node : ArchiveNode}
    (h : nodes[path]? = some node) (hparent : parent <+: path) (hne : parent ≠ path) :
    ∃ mode, nodes[parent]? = some (.directory mode) := by
  have hbelow : ∃ e ∈ entries, path <+: e.path.components := by
    rcases hcuts.node _ _ h with ⟨e, he, rfl, -⟩ | ⟨-, -, rfl | ⟨e, he, hpre⟩⟩
    · exact ⟨e, he, List.prefix_rfl⟩
    · exact absurd (List.prefix_nil.1 hparent) hne
    · exact ⟨e, he, hpre⟩
  obtain ⟨e, he, hpath⟩ := hbelow
  have hproper : parent ≠ e.path.components := by
    rintro rfl
    exact hne (hparent.eq_of_length_le hpath.length_le)
  obtain ⟨above, habove⟩ := hcuts.parent e he parent (hparent.trans hpath)
  rcases hcuts.node _ _ habove with ⟨e', he', rfl, hmade⟩ | ⟨rfl, -⟩
  · have htype := hrep.parent e he e' he' (hparent.trans hpath) hproper
    unfold archiveNode at hmade
    rw [htype] at hmade
    exact ⟨_, habove.trans (congrArg some (Except.ok.inj hmade).symm)⟩
  · exact ⟨_, habove⟩

/-- The walk comes to every directory of the nodes. -/
theorem comes_of_directory (hroot : Built json hashes nodes uploads [] root) {path : Dir}
    {mode : UInt32} (h : nodes[path]? = some (.directory mode)) :
    ∃ item, Comes json hashes server root item ∧ item.path = path := by
  induction path using List.reverseRecOn generalizing mode with
  | nil => exact ⟨⟨[], root, ∅⟩, .start List.mem_cons_self, rfl⟩
  | append_singleton path c ih =>
    have hne : path ≠ path ++ [c] := by simp
    obtain ⟨mode', hparent⟩ :=
      directory_of_prefix hcuts hrep h (List.prefix_append path [c]) hne
    obtain ⟨item, hitem, rfl⟩ := ih hparent
    have hwalks := walks_of_representable hjson hhex hstored hcuts hrep hroot
    obtain ⟨directory, hread, -, htake⟩ := hwalks.take hitem
    obtain ⟨hbuilt, -⟩ := built_of_comes hjson hhex hstored hroot hitem
    obtain ⟨directory', hread', -, -, hall, -⟩ := read_of_built hjson hhex hstored hbuilt
    obtain rfl := Except.ok.inj (hread.symm.trans hread')
    obtain ⟨name, row, rfl, hrow, hfits⟩ := hall c _ h
    cases row with
    | directory digest mode'' =>
      exact ⟨_, .child hitem htake (mem_children_of_row hrow), rfl⟩
    | file digest executable mode'' => exact absurd hfits id
    | symlink mode'' target => exact absurd hfits id

omit hjson hhex hstored hcuts hrep in
theorem Fits.node_eq {node : ArchiveNode} {row : Row} (h : Fits node row) :
    row.node = node.restored := by
  cases node with
  | directory mode =>
    cases row with
    | directory digest mode' => exact congrArg RestoredNode.directory h
    | file digest executable mode' => exact absurd h id
    | symlink mode' target => exact absurd h id
  | file digest executable mode file =>
    obtain rfl : row = .file digest executable mode := by
      cases row <;> exact h
    rfl
  | symlink mode target =>
    obtain rfl : row = .symlink mode target.raw := by
      cases row <;> exact h
    rfl

/-- **The tree is that of the nodes.** -/
theorem yields_iff (hroot : Built json hashes nodes uploads [] root) {path : Dir}
    {restored : RestoredNode} :
    Yields json hashes server root path restored ↔
      path ≠ [] ∧ ∃ node, nodes[path]? = some node ∧ node.restored = restored := by
  constructor
  · rintro ⟨item, directory, name, row, hitem, hread, hrow, rfl, rfl⟩
    obtain ⟨hbuilt, -⟩ := built_of_comes hjson hhex hstored hroot hitem
    obtain ⟨directory', hread', -, hrows, -, -⟩ := read_of_built hjson hhex hstored hbuilt
    obtain rfl := Except.ok.inj (hread.symm.trans hread')
    obtain ⟨-, node, hnode, hfits⟩ := hrows name row hrow
    exact ⟨List.append_ne_nil_of_right_ne_nil _ nofun, node, hnode, hfits.node_eq.symm⟩
  · rintro ⟨hne, node, hnode, rfl⟩
    obtain ⟨path, c, rfl⟩ := (List.eq_nil_or_concat' path).resolve_left hne
    obtain ⟨mode, hparent⟩ :=
      directory_of_prefix hcuts hrep hnode (List.prefix_append path [c]) (by simp)
    obtain ⟨item, hitem, rfl⟩ := comes_of_directory hjson hhex hstored hcuts hrep hroot hparent
    obtain ⟨hbuilt, -⟩ := built_of_comes hjson hhex hstored hroot hitem
    obtain ⟨directory, hread, -, -, hall, -⟩ := read_of_built hjson hhex hstored hbuilt
    obtain ⟨name, row, rfl, hrow, hfits⟩ := hall c _ hnode
    exact ⟨item, directory, name, row, hitem, hread, hrow, rfl, hfits.node_eq.symm⟩

omit hjson hcuts in
/-- **A node is written as the entry that it came from.** -/
theorem same_of_restored (huploads : ∀ (path : Dir) digest executable mode file,
      nodes[path]? = some (.file digest executable mode file) → ⟨digest, .file file⟩ ∈ uploads)
    {e : Entry} (he : e ∈ entries) (hnamed : Named e.path.components) {node : ArchiveNode}
    (hmade : archiveNode hashes e = .ok node) (hnode : nodes[e.path.components]? = some node) :
    ∃ o, restoredEntry hashes server e.path.components node.restored = .ok o ∧ Same e o := by
  have hbits : ∀ mode : UInt32, (mode &&& 0o7777) &&& 0o7777 = mode &&& 0o7777 :=
    and_and_of_and_eq (by decide)
  have hpath : ∀ o, restoredEntry hashes server e.path.components node.restored = .ok o →
      o.path.components = e.path.components := fun o ho => components_of_restored hnamed ho
  unfold archiveNode at hmade
  split at hmade
  · case h_1 htype =>
    obtain rfl := Except.ok.inj hmade
    exact ⟨_, rfl, hpath _ rfl, htype.symm, hbits _, fun h => (nomatch htype.symm.trans h),
      fun h => (nomatch htype.symm.trans h)⟩
  · case h_2 htype =>
    obtain rfl := Except.ok.inj hmade
    have hblob := hstored _ (huploads _ _ _ _ _ hnode)
    have hget : getBlobFile hashes server (.blake3 hashes e.data) = .ok e.data :=
      getBlob_blake3 hhex hblob
    have hkept : (if decide ((e.mode &&& 0o7777) &&& 0o111 ≠ 0) = true then
        (e.mode &&& 0o7777) ||| 0o111 else (e.mode &&& 0o7777) &&& ~~~0o111) =
        e.mode &&& 0o7777 := by
      have hmask : (0o7777 : UInt32) &&& 0o111 = 0o111 := by decide
      have hexec := hrep.mode e he htype
      rw [← and_and_of_and_eq hmask] at hexec
      rcases hexec with hnone | hall
      · rw [if_neg (by simp [hnone]), andNot_eq_self hnone]
      · rw [if_pos (by rw [hall]; decide), or_eq_self hall]
    have hentry : restoredEntry hashes server e.path.components
        (ArchiveNode.restored (.file (.blake3 hashes e.data)
          ((e.mode &&& 0o7777) &&& 0o111 ≠ 0) (e.mode &&& 0o7777) e.data)) =
        .ok ⟨⟨Dir.display e.path.components⟩, e.mode &&& 0o7777, .file, none, e.data⟩ := by
      simp only [restoredEntry, ArchiveNode.restored]
      rw [hget, ok_bind, hkept]
      rfl
    exact ⟨_, hentry, hpath _ hentry, htype.symm, hbits _, fun _ => rfl,
      fun h => (nomatch htype.symm.trans h)⟩
  · case h_3 htype =>
    split at hmade
    · case h_1 target hlink =>
      obtain ⟨_, -, hmade⟩ := bind_eq_ok hmade
      obtain rfl := Except.ok.inj hmade
      exact ⟨_, rfl, hpath _ rfl, htype.symm, hbits _, fun h => (nomatch htype.symm.trans h),
        fun _ => hlink.symm⟩
    · nomatch hmade
  · nomatch hmade

omit hjson in
/-- A node is written as an entry or as a missing parent. -/
theorem written_of_node (huploads : ∀ (path : Dir) digest executable mode file,
      nodes[path]? = some (.file digest executable mode file) → ⟨digest, .file file⟩ ∈ uploads)
    {path : Dir} (hne : path ≠ []) (hnamed : Named path) {node : ArchiveNode}
    (h : nodes[path]? = some node) :
    ∃ o, restoredEntry hashes server path node.restored = .ok o ∧
      ((∃ e ∈ entries, Same e o) ∨ MissingParent entries o) := by
  rcases hcuts.node path node h with ⟨e, he, rfl, hmade⟩ | ⟨rfl, hmissing, habove⟩
  · obtain ⟨o, hentry, hsame⟩ := same_of_restored hhex hstored hrep huploads he hnamed hmade h
    exact ⟨o, hentry, .inl ⟨e, he, hsame⟩⟩
  · have hpath := components_of_restored hnamed
      (rfl : restoredEntry hashes server path (.directory 0o755) = _)
    refine ⟨_, rfl, .inr ⟨rfl, fun e he => ?_, ?_⟩⟩
    · rw [hpath]
      exact hmissing e he
    · rw [hpath]
      exact habove.resolve_left hne

/-- **The archive that results is the one that was cut.** -/
theorem restores_of_representable (hroot : Built json hashes nodes uploads [] root)
    (huploads : ∀ (path : Dir) digest executable mode file,
      nodes[path]? = some (.file digest executable mode file) → ⟨digest, .file file⟩ ∈ uploads) :
    ∃ turns out, materializeRemoteTree json hashes server turns root = some (.ok out) ∧
      Restores entries out := by
  have hwalks := walks_of_representable hjson hhex hstored hcuts hrep hroot
  have htree := @yields_iff _ _ _ _ _ _ _ hjson hhex hstored hcuts hrep hroot
  obtain ⟨turns, result, hrun⟩ := walk_built_terminates hjson hhex hstored hroot
  obtain ⟨walked, rfl⟩ := Worklist.run_eq_ok hrun fun item hitem => by
    obtain ⟨directory, -, -, htake⟩ := hwalks.take hitem
    exact ⟨_, htake⟩
  -- every node of the tree is one of the archive, and is written as such
  have hwritten : ∀ path restored, Yields json hashes server root path restored →
      ∃ o, restoredEntry hashes server path restored = .ok o ∧
        ((∃ e ∈ entries, Same e o) ∨ MissingParent entries o) := by
    intro path restored hyields
    obtain ⟨hne, node, hnode, rfl⟩ := htree.1 hyields
    exact written_of_node hhex hstored hcuts hrep huploads hne (hyields.named hwalks) hnode
  obtain ⟨out, hout⟩ := mapM_eq_ok (f := fun entry : Dir × RestoredNode =>
      restoredEntry hashes server entry.1 entry.2) (l := (restoredNodes walked).toList)
    fun entry hentry => by
      have hget := Std.ExtTreeMap.mem_toList_iff_getElem?_eq_some.1 hentry
      obtain ⟨o, ho, -⟩ := hwritten _ _ ((restored_iff hrun).1 hget)
      exact ⟨o, ho⟩
  have hmaterialize : materializeRemoteTree json hashes server turns root = some (.ok out) := by
    rw [materializeRemoteTree, hrun]
    exact congrArg some hout
  obtain ⟨-, hkept, hsource⟩ := restored_of_materialize hmaterialize
  refine ⟨turns, out, hmaterialize, fun e he => ?_, fun o ho => ?_,
    nodup_of_materialize hmaterialize⟩
  · obtain ⟨hvalid, node, hmade, hnode⟩ := hcuts.entry e he
    have hne := (validateCachePath_eq_ok_iff.1 hvalid).1
    have hyields := htree.2 ⟨hne, node, hnode, rfl⟩
    obtain ⟨o, ho, hentry⟩ := hkept _ _ hyields
    obtain ⟨o', hentry', hsame⟩ :=
      same_of_restored hhex hstored hrep huploads he (hyields.named hwalks) hmade hnode
    obtain rfl := Except.ok.inj (hentry.symm.trans hentry')
    exact ⟨o, ho, hsame⟩
  · obtain ⟨path, restored, hyields, hentry⟩ := hsource o ho
    obtain ⟨o', hentry', h⟩ := hwritten path restored hyields
    obtain rfl := Except.ok.inj (hentry.symm.trans hentry')
    exact h

end

/-- An archive that is accepted has relative paths. -/
theorem ne_nil_of_accepted {json : Json} {hashes : Hashes} {entries : List Entry}
    {made : CacheDigest × List BlobUpload} (h : archiveToCas json hashes entries = .ok made) :
    ∀ e ∈ entries, e.path.components ≠ [] := by
  obtain ⟨nodes, hcuts, -⟩ := archiveToCas_eq_ok h
  intro e he
  exact (validateCachePath_eq_ok_iff.1 (hcuts.entry e he).1).1

/-! ### Two archives -/

/-- A text of ASCII characters, as bytes. -/
def ascii (text : String) : Bytes := text.toList.map fun c => .ofNat c.toNat

/-- The digest of a file with the text `hello`. -/
def helloDigest : CacheDigest :=
  ⟨"blake3", "ea8f163db38682925e4491c5e58d4bb3506ef8c14eb78a86e908c5624a67200f", 5⟩

/-- The object of a directory with an executable file `app`. -/
def distObject : CacheDirectory := ⟨[], [⟨helloDigest, true, 0o755, "app"⟩], [], 1⟩

/-- Its JSON. -/
def distText : Bytes :=
    ascii "\x7b\"directories\":[],\"files\":[\x7b\"digest\":\x7b\"algorithm\":\"blake3\"," ++
    ascii "\"hash\":\"ea8f163db38682925e4491c5e58d4bb3506ef8c14eb78a86e908c5624a67200f\"," ++
    ascii "\"size\":5\x7d,\"executable\":true,\"mode\":493,\"name\":\"app\"\x7d],\"symlin" ++
    ascii "ks\":[],\"version\":1\x7d"

/-- Its digest. -/
def distDigest : CacheDigest :=
  ⟨"blake3", "ea13fa4267d8ca74e6a3ef5bf9b779acb49dbb1263a52c082409d0c3ddcd0aa0", 213⟩

/-- The object of a root with this directory and a link to the file. -/
def rootObject : CacheDirectory :=
  ⟨[⟨distDigest, 0o755, "dist"⟩], [], [⟨0o777, "latest", "dist/app"⟩], 1⟩

/-- Its JSON. -/
def rootText : Bytes :=
    ascii "\x7b\"directories\":[\x7b\"digest\":\x7b\"algorithm\":\"blake3\",\"hash\":\"ea" ++
    ascii "13fa4267d8ca74e6a3ef5bf9b779acb49dbb1263a52c082409d0c3ddcd0aa0\",\"size\":213" ++
    ascii "\x7d,\"mode\":493,\"name\":\"dist\"\x7d],\"files\":[],\"symlinks\":[\x7b\"mode" ++
    ascii "\":511,\"name\":\"latest\",\"target\":\"dist/app\"\x7d],\"version\":1\x7d"

/-- Its digest. -/
def rootDigest : CacheDigest :=
  ⟨"blake3", "d9efc3d8daef8c1247dba48cf4e90c124707019a5d0189f2bed433f3e867a139", 246⟩

/-- The object of a root with a file that its owner alone may execute. -/
def runObject : CacheDirectory := ⟨[], [⟨helloDigest, true, 0o744, "run"⟩], [], 1⟩

/-- Its JSON. -/
def runText : Bytes :=
    ascii "\x7b\"directories\":[],\"files\":[\x7b\"digest\":\x7b\"algorithm\":\"blake3\"," ++
    ascii "\"hash\":\"ea8f163db38682925e4491c5e58d4bb3506ef8c14eb78a86e908c5624a67200f\"," ++
    ascii "\"size\":5\x7d,\"executable\":true,\"mode\":484,\"name\":\"run\"\x7d],\"symlin" ++
    ascii "ks\":[],\"version\":1\x7d"

/-- Its digest. -/
def runDigest : CacheDigest :=
  ⟨"blake3", "d2bf370b74ae7d6cb3f9d130c4b10b2ef48908ea71e3b9a69bb8e20b4715fcaf", 213⟩

/-- The JSON of these objects. -/
def sampleJson : Json where
  encode directory :=
    if directory = distObject then distText
    else if directory = rootObject then rootText
    else if directory = runObject then runText
    else []
  decode bytes :=
    if bytes = distText then .ok distObject
    else if bytes = rootText then .ok rootObject
    else if bytes = runText then .ok runObject
    else .error "not a directory"

/-- The digests of these texts. -/
def sampleHashes : Hashes where
  blake3 bytes :=
    if bytes = ascii "hello" then helloDigest.hash
    else if bytes = distText then distDigest.hash
    else if bytes = rootText then rootDigest.hash
    else if bytes = runText then runDigest.hash
    else String.ofList (List.replicate 64 '0')
  sha256 _ := String.ofList (List.replicate 64 '0')

/-- A server with these blobs. -/
def sampleServer (digest : CacheDigest) : Except String Bytes :=
  if digest = helloDigest then .ok (ascii "hello")
  else if digest = distDigest then .ok distText
  else if digest = rootDigest then .ok rootText
  else if digest = runDigest then .ok runText
  else .error "404 Not Found"

/-- A directory with a file, and a link to the file. -/
def distArchive : List Entry :=
  [⟨⟨"dist"⟩, 0o40755, .directory, none, []⟩, ⟨⟨"dist/app"⟩, 0o100755, .file, none, ascii "hello"⟩,
    ⟨⟨"latest"⟩, 0o120777, .symlink, some ⟨"dist/app"⟩, []⟩]

/-- Its blobs. -/
def distUploads : List BlobUpload :=
  [⟨distDigest, .bytes distText⟩, ⟨rootDigest, .bytes rootText⟩, ⟨helloDigest, .file (ascii "hello")⟩]

/-- A file that its owner alone may execute. -/
def runArchive : List Entry := [⟨⟨"run"⟩, 0o100744, .file, none, ascii "hello"⟩]

/-- Its blobs. -/
def runUploads : List BlobUpload :=
  [⟨runDigest, .bytes runText⟩, ⟨helloDigest, .file (ascii "hello")⟩]

theorem isHex_sampleHashes : IsHex sampleHashes.blake3 := by
  intro bytes
  simp only [sampleHashes]
  split_ifs <;> decide +kernel

theorem sampleJson_lossless {uploads : List BlobUpload}
    (h : ∀ u ∈ uploads, u.source ≠ .bytes []) : Lossless sampleJson uploads := by
  intro directory digest hmem
  have hne := h _ hmem
  simp only [sampleJson] at hne ⊢
  split_ifs at hne with hdist hroot hrun
  · subst hdist
    decide +kernel
  · subst hroot
    decide +kernel
  · subst hrun
    decide +kernel
  · exact absurd rfl hne

/-- **An archive makes the round trip through its blobs** exactly when nothing
stands below a file or a link of it, the execute bits of each file are all set or
none, and no name has a backslash. -/
theorem round_trip_iff {json : Json} {hashes : Hashes}
    {entries : List Entry} {root : CacheDigest} {uploads : List BlobUpload}
    (hjson : Lossless json uploads) (hhex : IsHex hashes.blake3)
    (haccepted : archiveToCas json hashes entries = .ok (root, uploads))
    {server : CacheDigest → Except String Bytes} (hstored : Stored server uploads) :
    (∃ turns out, materializeRemoteTree json hashes server turns root = some (.ok out) ∧
      Restores entries out) ↔ Representable entries := by
  constructor
  · rintro ⟨turns, out, hout, hrestores⟩
    exact representable_of_restores (ne_nil_of_accepted haccepted) hout hrestores
  · intro hrep
    obtain ⟨nodes, hcuts, hroot, huploads⟩ := archiveToCas_eq_ok haccepted
    exact restores_of_representable hjson hhex hstored hcuts hrep hroot huploads

/-- The round trip of `distArchive`. -/
theorem round_trip_iff_dist : ∃ turns out,
    materializeRemoteTree sampleJson sampleHashes sampleServer turns rootDigest = some (.ok out) ∧
      Restores distArchive out := by
  have hstored : Stored sampleServer distUploads := by
    unfold Stored
    decide +kernel
  have hnames : ∀ e ∈ distArchive, ∀ c ∈ e.path.components, '\\' ∉ Dir.componentText c := by
    decide +kernel
  have hrep : Representable distArchive :=
    ⟨by decide +kernel, by decide +kernel, fun e he name hname => hnames e he _ hname⟩
  exact (round_trip_iff (@sampleJson_lossless distUploads (by decide +kernel)) isHex_sampleHashes
    (by decide +kernel) hstored).2 hrep

/-- The file of `runArchive` is accepted, and comes back as one that all may
execute. -/
theorem run_not_restored :
    archiveToCas sampleJson sampleHashes runArchive = .ok (runDigest, runUploads) ∧
    Lossless sampleJson runUploads ∧ IsHex sampleHashes.blake3 ∧ Stored sampleServer runUploads ∧
    materializeRemoteTree sampleJson sampleHashes sampleServer 1 runDigest =
      some (.ok [⟨⟨"run"⟩, 0o755, .file, none, ascii "hello"⟩]) ∧
    ¬∃ turns out, materializeRemoteTree sampleJson sampleHashes sampleServer turns runDigest =
      some (.ok out) ∧ Restores runArchive out := by
  refine ⟨by decide +kernel, sampleJson_lossless (by decide +kernel), isHex_sampleHashes, ?_,
    by decide +kernel, ?_⟩
  · unfold Stored
    decide +kernel
  · rintro ⟨turns, out, hout, hrestores⟩
    have hrep := representable_of_restores (by decide +kernel) hout hrestores
    exact absurd (hrep.mode _ List.mem_cons_self rfl) (by decide +kernel)

end Mise.TaskCache
