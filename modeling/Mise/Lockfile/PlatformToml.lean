/-
# Platform records as TOML

`TryFrom<toml::Value> for PlatformInfo`, `From<PlatformInfo> for toml::Value` and
the serialization of `ArtifactInfo` and `ProvenanceType` in `src/lockfile.rs`.
The reader and the writer are written by hand in opposite directions; the reader
also takes older spellings (a bare checksum, `provenance_url`) and rejects values
it does not know.

What the derived `Deserialize` of `ChecksumSource` makes of a value is a
parameter: the reader relies on it taking the name that the writer writes.  Every
key is removed from a table once, so a removal is a lookup.
-/

import Mise.Lib.Fallible
import Mise.Lockfile.Operations

namespace Mise

open Lib

/-! ### Values -/

/-- `Value::as_bool`. -/
def TomlValue.asBool : TomlValue → Option Bool
  | boolean b => some b
  | _ => none

/-- The string at a key, and nothing where another value stands. -/
def stringAt (t : TomlTable) (key : String) : Option String := (t.lookup key).bind TomlValue.asStr

/-- An entry that is written only where there is a value. -/
def optEntry (key : String) (value : Option TomlValue) : TomlTable := (value.map (key, ·)).toList

/-- Why `PlatformInfo::try_from` fails. -/
inductive PlatformInfoError where
  /-- `unrecognized install {s:?} in lockfile`. -/
  | install (s : String)
  /-- `unrecognized checksum_source in lockfile: {e}`. -/
  | checksumSource
  /-- The size does not fit. -/
  | size
  /-- `unrecognized github_attestations status {s:?} in lockfile`. -/
  | githubAttestations (s : String)
  /-- `unrecognized provenance type {s:?} in lockfile`. -/
  | provenance (s : String)
  /-- `unrecognized provenance table format in lockfile: {:?}`. -/
  | provenanceTable (keys : List String)
  /-- `unrecognized attested_by {s:?} in lockfile`. -/
  | attestedBy (s : String)
  /-- `flat repository_id and repository_owner_id lockfile fields are unsupported; use
  repository_ids in lockfile revision 3`. -/
  | flatRepositoryId
  /-- An ID is not a string. -/
  | repositoryId
  /-- `unrecognized repository_ids fields in lockfile: {:?}`. -/
  | repositoryIdsFields (keys : List String)
  /-- `repository_ids requires a repository ID`. -/
  | repositoryIdsRequired
  /-- `repository_ids must be a table in lockfile`. -/
  | repositoryIdsTable
  /-- An additional artifact that serde does not read. -/
  | artifact
  /-- `additional_artifacts must be an array in lockfile`. -/
  | artifactsArray
  /-- `unsupported asset info format`. -/
  | format

/-! ### Provenance -/

namespace ProvenanceType

/-- `from_str`. -/
def fromStr (s : String) : Option ProvenanceType :=
  if s = "minisign" then some minisign
  else if s = "cosign" then some cosign
  else if s = "slsa" then some (slsa none)
  else if s = "github-attestations" then some githubAttestations
  else none

/-- `to_string`. -/
def toStr : ProvenanceType → String
  | minisign => "minisign"
  | cosign => "cosign"
  | slsa _ => "slsa"
  | githubAttestations => "github-attestations"

/-- `Serialize::serialize`, and the arm of `From<PlatformInfo>`. -/
def toToml : ProvenanceType → TomlValue
  | slsa (some url) => .table [("slsa", .table [("url", .string url)])]
  | p => .string p.toStr

/-- The derived `Deserialize` of `SlsaInner`: a table, or the one field in an array. -/
def slsaInner : TomlValue → Option (Option String)
  | .table t =>
    match t.lookup "url" with
    | none => some none
    | some (.string url) => some (some url)
    | some _ => none
  | .array [.string url] => some (some url)
  | _ => none

/-- `Deserialize::deserialize`: the first key of a table decides. -/
def deserialize : TomlValue → Option ProvenanceType
  | .string s => fromStr s
  | .table ((key, value) :: _) => if key = "slsa" then (slsaInner value).map slsa else none
  | _ => none

end ProvenanceType

/-! ### Additional artifacts -/

namespace ChecksumSource

/-- `to_string`. -/
def toStr : ChecksumSource → String
  | versionsHost => "mise-versions"

end ChecksumSource

/-- The derived reading of an optional field: an absent one is `none`, and another
kind of value fails. -/
def optional {α : Type} (read : TomlValue → Option α) : Option TomlValue → Option (Option α)
  | none => some none
  | some value => (read value).map some

/-- `u64` from a TOML integer. -/
def readSize : TomlValue → Option UInt64
  | .integer i => if 0 ≤ i then some (UInt64.ofNat i.toNat) else none
  | _ => none

namespace ArtifactInfo

variable (readSource : TomlValue → Option ChecksumSource)

/-- The fields of an artifact, each read by its own reader; the URL is required. -/
def ofFields (checksum source size url urlApi provenance verified : Option TomlValue) :
    Option ArtifactInfo := do
  let checksum ← optional TomlValue.asStr checksum
  let checksumSource ← optional readSource source
  let size ← optional readSize size
  let url ← url.bind TomlValue.asStr
  let urlApi ← optional TomlValue.asStr urlApi
  let provenance ← optional ProvenanceType.deserialize provenance
  let provenanceVerified ← optional TomlValue.asBool verified
  return { checksum, checksumSource, size, url, urlApi, provenance, provenanceVerified }

/-- The derived `Deserialize`: a table by its keys, or an array by position, whose last
field may be left out. -/
def deserialize : TomlValue → Option ArtifactInfo
  | .table t =>
    ofFields readSource (t.lookup "checksum") (t.lookup "checksum_source") (t.lookup "size")
      (t.lookup "url") (t.lookup "url_api") (t.lookup "provenance")
      (t.lookup "provenance_verified")
  | .array [checksum, source, size, url, urlApi, provenance] =>
    ofFields readSource (some checksum) (some source) (some size) (some url) (some urlApi)
      (some provenance) none
  | .array [checksum, source, size, url, urlApi, provenance, verified] =>
    ofFields readSource (some checksum) (some source) (some size) (some url) (some urlApi)
      (some provenance) (some verified)
  | _ => none

/-- The derived `Serialize`, which skips the size. -/
def toToml (a : ArtifactInfo) : TomlValue :=
  .table <|
    optEntry "checksum" (a.checksum.map .string) ++
    optEntry "checksum_source" (a.checksumSource.map fun s => .string s.toStr) ++
    optEntry "url" (some (.string a.url)) ++
    optEntry "url_api" (a.urlApi.map .string) ++
    optEntry "provenance" (a.provenance.map ProvenanceType.toToml) ++
    optEntry "provenance_verified" (a.provenanceVerified.map .boolean)

end ArtifactInfo

/-! ### Records -/

namespace PlatformInfo

variable (readSource : TomlValue → Option ChecksumSource)

/-- The field `install`. -/
def readInstall (t : TomlTable) : Except PlatformInfoError (Option String) :=
  match stringAt t "install" with
  | some s => if s = "source" then .ok (some s) else .error (.install s)
  | none => .ok none

/-- The field `checksum_source`. -/
def readChecksumSource (t : TomlTable) : Except PlatformInfoError (Option ChecksumSource) :=
  match t.lookup "checksum_source" with
  | some value =>
    match readSource value with
    | some source => .ok (some source)
    | none => .error .checksumSource
  | none => .ok none

/-- The field `size`. -/
def readSize (t : TomlTable) : Except PlatformInfoError (Option UInt64) :=
  match t.lookup "size" with
  | some (.integer i) => if 0 ≤ i then .ok (some (UInt64.ofNat i.toNat)) else .error .size
  | _ => .ok none

/-- The field `conda_deps`. -/
def readCondaDeps (t : TomlTable) : Option (List String) :=
  match t.lookup "conda_deps" with
  | some (.array deps) => some (deps.filterMap TomlValue.asStr)
  | _ => none

/-- The field `github_attestations`. -/
def readGithubAttestations (t : TomlTable) :
    Except PlatformInfoError (Option GithubAttestationsStatus) :=
  match stringAt t "github_attestations" with
  | some s =>
    if s = "unavailable" then .ok (some .unavailable) else .error (.githubAttestations s)
  | none => .ok none

/-- The field `provenance`; `legacy` is what an old lockfile has as `provenance_url`. -/
def readProvenance (t : TomlTable) (legacy : Option String) :
    Except PlatformInfoError (Option ProvenanceType) :=
  match t.lookup "provenance" with
  | some (.string s) =>
    match ProvenanceType.fromStr s with
    | some (.slsa _) => .ok (some (.slsa legacy))
    | some provenance => .ok (some provenance)
    | none => .error (.provenance s)
  | some (.table provTable) =>
    match provTable.lookup "slsa" with
    | some (.table slsaTable) => .ok (some (.slsa (stringAt slsaTable "url")))
    | some _ => .ok (some (.slsa none))
    | none => .error (.provenanceTable (provTable.map Prod.fst))
  | _ => .ok none

/-- The field `attested_by`. -/
def readAttestedBy (t : TomlTable) : Except PlatformInfoError (Option String) :=
  match stringAt t "attested_by" with
  | some s => if s = "repackager" then .ok (some s) else .error (.attestedBy s)
  | none => .ok none

/-- An ID within `repository_ids`. -/
def readId (ids : TomlTable) (key : String) : Except PlatformInfoError (Option String) :=
  match ids.lookup key with
  | some (.string s) => .ok (some s)
  | some _ => .error .repositoryId
  | none => .ok none

/-- The field `repository_ids`. -/
def readRepositoryIds (t : TomlTable) :
    Except PlatformInfoError (Option String × Option String) :=
  match t.lookup "repository_ids" with
  | some (.table ids) => do
    let repositoryId ← readId ids "repository"
    let ownerId ← readId ids "owner"
    let others := ids.filter fun e => e.1 ≠ "repository" ∧ e.1 ≠ "owner"
    if others ≠ [] then .error (.repositoryIdsFields (others.map Prod.fst))
    else if repositoryId.isNone then .error .repositoryIdsRequired
    else .ok (repositoryId, ownerId)
  | some _ => .error .repositoryIdsTable
  | none => .ok (none, none)

/-- The artifacts of an array. -/
def readArtifacts : List TomlValue → Except PlatformInfoError (List ArtifactInfo)
  | [] => .ok []
  | value :: values =>
    match ArtifactInfo.deserialize readSource value with
    | none => .error .artifact
    | some artifact => do return artifact :: (← readArtifacts values)

/-- The field `additional_artifacts`. -/
def readAdditionalArtifacts (t : TomlTable) : Except PlatformInfoError (List ArtifactInfo) :=
  match t.lookup "additional_artifacts" with
  | some (.array values) => readArtifacts readSource values
  | some _ => .error .artifactsArray
  | none => .ok []

/-- The arm of `try_from` for a table. -/
def tryFromTable (t : TomlTable) : Except PlatformInfoError PlatformInfo := do
  let install ← readInstall t
  let checksumSource ← readChecksumSource readSource t
  let size ← readSize t
  let githubAttestations ← readGithubAttestations t
  let provenance ← readProvenance t (stringAt t "provenance_url")
  let attestedBy ← readAttestedBy t
  if (t.lookup "repository_id").isSome ∨ (t.lookup "repository_owner_id").isSome then
    .error .flatRepositoryId
  let ids ← readRepositoryIds t
  let additionalArtifacts ← readAdditionalArtifacts readSource t
  return {
    install
    checksum := stringAt t "checksum"
    checksumSource
    size
    url := stringAt t "url"
    urlApi := stringAt t "url_api"
    condaDeps := readCondaDeps t
    provenance
    provenanceVerified := (t.lookup "provenance_verified").bind TomlValue.asBool
    githubAttestations := if provenance.isSome then none else githubAttestations
    signer := stringAt t "signer"
    attestedBy
    repositoryId := ids.1
    repositoryOwnerId := ids.2
    additionalArtifacts }

/-- `try_from`. -/
def tryFrom : TomlValue → Except PlatformInfoError PlatformInfo
  | .string checksum => .ok { checksum := some checksum }
  | .table t => tryFromTable readSource t
  | _ => .error .format

/-- The table `repository_ids`. -/
def idsTable (info : PlatformInfo) : Option TomlValue :=
  info.repositoryId.map fun id =>
    .table (optEntry "repository" (some (.string id)) ++
      optEntry "owner" (info.repositoryOwnerId.map .string))

/-- `From<PlatformInfo>::from`. -/
def toToml (info : PlatformInfo) : TomlValue :=
  .table <|
    optEntry "install" (info.install.map .string) ++
    optEntry "checksum" (info.checksum.map .string) ++
    optEntry "checksum_source" (info.checksumSource.map fun s => .string s.toStr) ++
    optEntry "url" (info.url.map .string) ++
    optEntry "url_api" (info.urlApi.map .string) ++
    optEntry "conda_deps" (info.condaDeps.map fun deps => .array (deps.map .string)) ++
    optEntry "additional_artifacts" (if info.additionalArtifacts = [] then none
      else some (.array (info.additionalArtifacts.map ArtifactInfo.toToml))) ++
    optEntry "provenance" (info.provenance.map ProvenanceType.toToml) ++
    optEntry "provenance_verified" (info.provenanceVerified.map .boolean) ++
    optEntry "signer" (info.signer.map .string) ++
    optEntry "attested_by" (info.attestedBy.map .string) ++
    optEntry "repository_ids" info.idsTable

end PlatformInfo

/-! ### What was written is read back -/

/-- A written entry is found under its key, and hides nothing under another. -/
@[simp] theorem lookup_optEntry_append (key k : String) (value : Option TomlValue) (t : TomlTable) :
    (optEntry key value ++ t).lookup k = if k = key then value.or (t.lookup k) else t.lookup k := by
  cases value with
  | none => simp [optEntry]
  | some v =>
    show ((key, v) :: t).lookup k = _
    rw [IndexMap.lookup_cons_ite]
    rfl

@[simp] theorem lookup_optEntry (key k : String) (value : Option TomlValue) :
    (optEntry key value).lookup k = if k = key then value else none := by
  have h := lookup_optEntry_append key k value []
  rwa [List.append_nil, List.lookup_nil, Option.or_none] at h

namespace ProvenanceType

@[simp] theorem fromStr_toStr (p : ProvenanceType) :
    fromStr p.toStr = some (match p with | slsa _ => slsa none | p => p) := by
  cases p <;> rfl

@[simp] theorem deserialize_toToml (p : ProvenanceType) : deserialize p.toToml = some p := by
  cases p with
  | slsa url =>
    cases url with
    | none => rfl
    | some url =>
      show Option.map slsa (slsaInner (.table [("url", .string url)])) = _
      simp [slsaInner]
  | minisign => rfl
  | cosign => rfl
  | githubAttestations => rfl

end ProvenanceType

section RoundTrip

variable {readSource : TomlValue → Option ChecksumSource}

/-- The written name of a source is read back. -/
def ReadsSources (readSource : TomlValue → Option ChecksumSource) : Prop :=
  ∀ source : ChecksumSource, readSource (.string source.toStr) = some source

@[simp] theorem optional_map {α : Type} {read : TomlValue → Option α} {write : α → TomlValue}
    (h : ∀ a, read (write a) = some a) (value : Option α) :
    optional read (value.map write) = some value := by
  cases value with
  | none => rfl
  | some a => simp [optional, h]

/-- An artifact is read back, without its size. -/
theorem ArtifactInfo.deserialize_toToml (hsource : ReadsSources readSource) (a : ArtifactInfo) :
    deserialize readSource a.toToml = some { a with size := none } := by
  have hchecksum : ∀ s : String, TomlValue.asStr (.string s) = some s := fun _ => rfl
  have hbool : ∀ b : Bool, TomlValue.asBool (.boolean b) = some b := fun _ => rfl
  have hlookup : deserialize readSource a.toToml = ofFields readSource
      (a.checksum.map .string) (a.checksumSource.map fun s => .string s.toStr) none
      (some (.string a.url)) (a.urlApi.map .string) (a.provenance.map ProvenanceType.toToml)
      (a.provenanceVerified.map .boolean) := by
    simp [toToml, deserialize]
  rw [hlookup, ofFields, optional_map hchecksum, optional_map hsource, optional_map hchecksum,
    optional_map ProvenanceType.deserialize_toToml, optional_map hbool]
  rfl

namespace PlatformInfo

/-- What is written of a record: all but sizes, download headers and the attestation
status. -/
def written (info : PlatformInfo) : PlatformInfo :=
  { info with
    size := none
    downloadHeaders := none
    githubAttestations := none
    additionalArtifacts := info.additionalArtifacts.map fun a => { a with size := none } }

/-- A record that the reader returns. -/
structure Readable (info : PlatformInfo) : Prop where
  install : ∀ s, info.install = some s → s = "source"
  attestedBy : ∀ s, info.attestedBy = some s → s = "repackager"
  ownerId : info.repositoryOwnerId.isSome → info.repositoryId.isSome

/-- The fields of a written record, by their keys. -/
theorem lookup_toToml (info : PlatformInfo) : ∃ t, info.toToml = .table t ∧
    t.lookup "install" = info.install.map .string ∧
    t.lookup "checksum" = info.checksum.map .string ∧
    t.lookup "checksum_source" = info.checksumSource.map (fun s => .string s.toStr) ∧
    t.lookup "size" = none ∧
    t.lookup "url" = info.url.map .string ∧
    t.lookup "url_api" = info.urlApi.map .string ∧
    t.lookup "conda_deps" = info.condaDeps.map (fun deps => .array (deps.map .string)) ∧
    t.lookup "github_attestations" = none ∧
    t.lookup "provenance_url" = none ∧
    t.lookup "provenance" = info.provenance.map ProvenanceType.toToml ∧
    t.lookup "provenance_verified" = info.provenanceVerified.map .boolean ∧
    t.lookup "signer" = info.signer.map .string ∧
    t.lookup "attested_by" = info.attestedBy.map .string ∧
    t.lookup "repository_id" = none ∧
    t.lookup "repository_owner_id" = none ∧
    t.lookup "repository_ids" = info.idsTable ∧
    t.lookup "additional_artifacts" = (if info.additionalArtifacts = [] then none
      else some (.array (info.additionalArtifacts.map ArtifactInfo.toToml))) :=
  ⟨_, rfl, by simp⟩

theorem stringAt_of_lookup {t : TomlTable} {key : String} {value : Option String}
    (h : t.lookup key = value.map .string) : stringAt t key = value := by
  rw [stringAt, h]
  cases value <;> rfl

theorem readArtifacts_toToml (hsource : ReadsSources readSource) (artifacts : List ArtifactInfo) :
    readArtifacts readSource (artifacts.map ArtifactInfo.toToml) =
      .ok (artifacts.map fun a => { a with size := none }) := by
  induction artifacts with
  | nil => rfl
  | cons a artifacts ih =>
    rw [List.map_cons, readArtifacts, ArtifactInfo.deserialize_toToml hsource, ih]
    rfl

theorem readRepositoryIds_idsTable {info : PlatformInfo} (hinfo : info.Readable) {t : TomlTable}
    (h : t.lookup "repository_ids" = info.idsTable) :
    readRepositoryIds t = .ok (info.repositoryId, info.repositoryOwnerId) := by
  unfold readRepositoryIds
  rw [h, idsTable]
  cases hid : info.repositoryId with
  | none =>
    have howner : info.repositoryOwnerId = none := by
      cases ho : info.repositoryOwnerId with
      | none => rfl
      | some owner =>
        have hsome := hinfo.ownerId (by rw [ho]; rfl)
        rw [hid] at hsome
        exact absurd hsome Bool.false_ne_true
    rw [howner]
    rfl
  | some id =>
    cases info.repositoryOwnerId with
    | none => rfl
    | some owner => rfl

theorem readProvenance_toToml {t : TomlTable} {provenance : Option ProvenanceType}
    (h : t.lookup "provenance" = provenance.map ProvenanceType.toToml) :
    readProvenance t none = .ok provenance := by
  unfold readProvenance
  rw [h]
  cases provenance with
  | none => rfl
  | some p =>
    cases p with
    | slsa url => cases url <;> rfl
    | minisign => rfl
    | cosign => rfl
    | githubAttestations => rfl

/-- **A record that can be read is written so that it is read back.** -/
theorem tryFrom_toToml (hsource : ReadsSources readSource) {info : PlatformInfo}
    (hinfo : info.Readable) : tryFrom readSource info.toToml = .ok info.written := by
  obtain ⟨t, ht, hinstall, hchecksum, hcs, hsize, hurl, hurlApi, hdeps, hgithub, hlegacy, hprov,
    hverified, hsigner, hattested, hflat, hflat', hids, hartifacts⟩ := lookup_toToml info
  have hreadInstall : readInstall t = .ok info.install := by
    rw [readInstall, stringAt_of_lookup hinstall]
    cases hi : info.install with
    | none => rfl
    | some s => exact if_pos (hinfo.install s hi)
  have hreadAttested : readAttestedBy t = .ok info.attestedBy := by
    rw [readAttestedBy, stringAt_of_lookup hattested]
    cases hi : info.attestedBy with
    | none => rfl
    | some s => exact if_pos (hinfo.attestedBy s hi)
  have hreadSource : readChecksumSource readSource t = .ok info.checksumSource := by
    rw [readChecksumSource, hcs]
    cases hs : info.checksumSource with
    | none => rfl
    | some source =>
      simp only [Option.map_some, hsource source]
  have hreadSize : readSize t = .ok none := by rw [readSize, hsize]
  have hreadGithub : readGithubAttestations t = .ok none := by
    rw [readGithubAttestations, stringAt, hgithub]
    rfl
  have hreadLegacy : stringAt t "provenance_url" = none := by rw [stringAt, hlegacy]; rfl
  have hreadDeps : readCondaDeps t = info.condaDeps := by
    rw [readCondaDeps, hdeps]
    cases info.condaDeps with
    | none => rfl
    | some deps =>
      refine congrArg some ?_
      rw [List.filterMap_map]
      exact List.filterMap_some
  have hreadVerified : (t.lookup "provenance_verified").bind TomlValue.asBool =
      info.provenanceVerified := by
    rw [hverified]
    cases info.provenanceVerified <;> rfl
  have hreadArtifacts : readAdditionalArtifacts readSource t =
      .ok (info.additionalArtifacts.map fun a => { a with size := none }) := by
    rw [readAdditionalArtifacts, hartifacts]
    split
    · case h_1 values h =>
      split at h
      · nomatch h
      · obtain rfl := TomlValue.array.inj (Option.some.inj h)
        exact readArtifacts_toToml hsource info.additionalArtifacts
    · case h_2 value hne h =>
      split at h
      · nomatch h
      · exact absurd (Option.some.inj h).symm (hne _)
    · case h_3 h =>
      split at h
      · case isTrue hnil => rw [hnil]; rfl
      · nomatch h
  rw [ht, tryFrom, tryFromTable, hreadInstall, hreadSource, hreadSize, hreadGithub, hreadLegacy,
    readProvenance_toToml hprov, hreadAttested, hflat, hflat',
    readRepositoryIds_idsTable hinfo hids, hreadArtifacts, stringAt_of_lookup hchecksum,
    stringAt_of_lookup hurl, stringAt_of_lookup hurlApi, hreadDeps, hreadVerified, stringAt_of_lookup hsigner]
  have hstatus : (if info.provenance.isSome then none else none) =
      (none : Option GithubAttestationsStatus) := ite_self _
  simp only [Option.isSome_none, Bool.false_eq_true, or_self, if_false]
  show Except.ok (PlatformInfo.mk info.install info.checksum info.checksumSource none info.url
    info.urlApi none info.condaDeps info.provenance info.provenanceVerified
    (if info.provenance.isSome then none else none) info.signer info.attestedBy info.repositoryId
    info.repositoryOwnerId (info.additionalArtifacts.map fun a => { a with size := none })) = _
  rw [hstatus]
  rfl

/-- A field that takes one text only. -/
theorem eq_of_readOnly {value read : Option String} {only : String}
    {err : String → PlatformInfoError} (h : (match value with
      | some s => if s = only then .ok (some s) else .error (err s)
      | none => .ok none) = Except.ok read) : ∀ s, read = some s → s = only := by
  rintro s rfl
  split at h
  · split at h
    · case isTrue hs =>
      cases h
      exact hs
    · cases h
  · cases h

/-- An owner is read only beside a repository. -/
theorem of_readRepositoryIds {t : TomlTable} {ids : Option String × Option String}
    (h : readRepositoryIds t = .ok ids) : ids.2.isSome → ids.1.isSome := by
  unfold readRepositoryIds at h
  split at h
  · obtain ⟨repositoryId, -, h⟩ := bind_eq_ok h
    obtain ⟨ownerId, -, h⟩ := bind_eq_ok h
    simp only at h
    split at h
    · nomatch h
    · split at h
      · nomatch h
      · case isFalse hid =>
        obtain rfl := Except.ok.inj h
        intro _
        cases repositoryId with
        | none => exact absurd rfl hid
        | some id => rfl
  · nomatch h
  · obtain rfl := Except.ok.inj h
    exact id

/-- Whatever the reader accepts is a readable record. -/
theorem readable_of_tryFrom {v : TomlValue} {info : PlatformInfo}
    (h : tryFrom readSource v = .ok info) : info.Readable := by
  unfold tryFrom at h
  split at h
  · obtain rfl := Except.ok.inj h
    exact ⟨fun _ hs => (nomatch hs), fun _ hs => (nomatch hs), fun hs => hs⟩
  · case h_2 t =>
    obtain ⟨install, hinstall, h⟩ := bind_eq_ok h
    obtain ⟨checksumSource, -, h⟩ := bind_eq_ok h
    obtain ⟨size, -, h⟩ := bind_eq_ok h
    obtain ⟨githubAttestations, -, h⟩ := bind_eq_ok h
    obtain ⟨provenance, -, h⟩ := bind_eq_ok h
    obtain ⟨attestedBy, hattested, h⟩ := bind_eq_ok h
    simp only at h
    split at h
    · nomatch h
    · obtain ⟨ids, hids, h⟩ := bind_eq_ok h
      obtain ⟨artifacts, -, h⟩ := bind_eq_ok h
      obtain rfl := Except.ok.inj h
      exact ⟨eq_of_readOnly hinstall, eq_of_readOnly hattested, of_readRepositoryIds hids⟩
  · nomatch h

/-- What is left out of a written record is not written. -/
theorem toToml_written (info : PlatformInfo) : info.written.toToml = info.toToml := by
  have hartifact : (info.additionalArtifacts.map fun a => { a with size := none }).map
      ArtifactInfo.toToml = info.additionalArtifacts.map ArtifactInfo.toToml := by
    rw [List.map_map]
    rfl
  unfold toToml written idsTable
  simp only [hartifact, List.map_eq_nil_iff]

/-- **A platform entry that is read is written and read back with every written field, and
a second round trip writes the same value.** -/
theorem tryFrom_roundTrip (hsource : ReadsSources readSource) {v : TomlValue}
    {info : PlatformInfo} (h : tryFrom readSource v = .ok info) :
    ∃ again, tryFrom readSource info.toToml = .ok again ∧
      again.install = info.install ∧
      again.checksum = info.checksum ∧
      again.checksumSource = info.checksumSource ∧
      again.url = info.url ∧
      again.urlApi = info.urlApi ∧
      again.condaDeps = info.condaDeps ∧
      again.provenance = info.provenance ∧
      again.provenanceVerified = info.provenanceVerified ∧
      again.signer = info.signer ∧
      again.attestedBy = info.attestedBy ∧
      again.repositoryId = info.repositoryId ∧
      again.repositoryOwnerId = info.repositoryOwnerId ∧
      again.additionalArtifacts =
        info.additionalArtifacts.map (fun a => { a with size := none }) ∧
      again.toToml = info.toToml := by
  refine ⟨info.written, tryFrom_toToml hsource (readable_of_tryFrom h), ?_⟩
  refine ⟨rfl, rfl, rfl, rfl, rfl, rfl, rfl, rfl, rfl, rfl, rfl, rfl, rfl, ?_⟩
  exact toToml_written info

end PlatformInfo

end RoundTrip

/-- The reader of `ChecksumSource` on the names that the writer writes. -/
def ChecksumSource.ofName : TomlValue → Option ChecksumSource
  | .string s => if s = "mise-versions" then some .versionsHost else none
  | _ => none

/-- An entry in older spellings. -/
def legacyEntry : TomlTable :=
  [("checksum", .string "sha256:aa"), ("checksum_source", .string "mise-versions"),
    ("provenance", .string "slsa"), ("provenance_url", .string "u"), ("size", .integer 3)]

/-- The older spelling of an SLSA URL is written in the newer one, and read back. -/
theorem PlatformInfo.tryFrom_roundTrip_legacy :
    ∃ again, tryFrom ChecksumSource.ofName
        (.table [("checksum", .string "sha256:aa"), ("checksum_source", .string "mise-versions"),
          ("provenance", .table [("slsa", .table [("url", .string "u")])])]) = .ok again ∧
      again.provenance = some (.slsa (some "u")) := by
  have hsource : ReadsSources ChecksumSource.ofName := fun
    | .versionsHost => rfl
  have hread : tryFrom ChecksumSource.ofName (.table legacyEntry) = .ok
      { checksum := some "sha256:aa", checksumSource := some .versionsHost, size := some 3,
        provenance := some (.slsa (some "u")) } := rfl
  obtain ⟨again, hagain, -, -, -, -, -, -, hprovenance, -⟩ := tryFrom_roundTrip hsource hread
  exact ⟨again, hagain, hprovenance⟩

end Mise
