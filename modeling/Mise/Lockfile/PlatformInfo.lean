/-
# Merging what is known of an artifact

`PlatformInfo::merge_with` and the functions it calls.  Of two records of one
platform the first wins: its URL, checksum and provenance stay (`Takes`), except
that a sha256 checksum is preferred and that provenance of a higher priority is
kept, both only while the two records can be of one artifact.
-/

import Mise.Lockfile.Basic
import Mise.Text

namespace Mise

/-! ### Provenance and checksums -/

namespace ProvenanceType

/-- `ordinal`. -/
def ordinal : ProvenanceType → ℕ
  | minisign => 1
  | cosign => 2
  | slsa _ => 3
  | githubAttestations => 4

/-- `ProvenanceType::merge`; `max` gives its second argument where both are equal. -/
def merge (self other : ProvenanceType) : ProvenanceType :=
  match self, other with
  | slsa a, slsa b => slsa (a.or b)
  | _, _ => if other.ordinal < self.ordinal then self else other

end ProvenanceType

/-- `same_checksum_source`. -/
def sameChecksumSource (a : Option String) (aSource : Option ChecksumSource) (b : Option String)
    (bSource : Option ChecksumSource) : Option (Option ChecksumSource) :=
  if a.isSome && a = b then some (if aSource.isSome then bSource else none) else none

/-- `str::eq_ignore_ascii_case`. -/
def eqIgnoreAsciiCase (a b : List Char) : Bool := a.map Char.toLower = b.map Char.toLower

/-- `checksum_changed`. -/
def checksumChanged (old new : Option String) : Bool :=
  match old.bind (splitOnce ':' ·.toList), new.bind (splitOnce ':' ·.toList) with
  | some (oldAlgo, oldHash), some (newAlgo, newHash) =>
    eqIgnoreAsciiCase oldAlgo newAlgo && !eqIgnoreAsciiCase oldHash newHash
  | _, _ => false

/-- `merge_provenance_state`. -/
def mergeProvenanceState (current : Option ProvenanceType) (currentVerified : Option Bool)
    (other : Option ProvenanceType) (otherVerified : Option Bool) :
    Option ProvenanceType × Option Bool :=
  match current, other with
  | some current, some other => (some (current.merge other), currentVerified.or otherVerified)
  | some current, none => (some current, currentVerified)
  | none, some other => (some other, otherVerified)
  | none, none => (none, currentVerified.or otherVerified)

/-- The checksum is a sha256 one. -/
def isSha256 (checksum : String) : Bool := startsWith checksum "sha256:"

/-- The checksum that is kept, and its source: a sha256 one is preferred to
another, else the first. -/
def preferSha256 (self : Option String) (selfSource : Option ChecksumSource)
    (other : Option String) (otherSource : Option ChecksumSource) :
    Option String × Option ChecksumSource :=
  match self, other with
  | some selfCs, some otherCs =>
    if !isSha256 selfCs && isSha256 otherCs then (some otherCs, otherSource)
    else (some selfCs, selfSource)
  | some cs, none => (some cs, selfSource)
  | none, some cs => (some cs, otherSource)
  | none, none => (none, none)

/-! ### Merging -/

/-- `ArtifactInfo::merge_with`. -/
def ArtifactInfo.mergeWith (self other : ArtifactInfo) : ArtifactInfo :=
  if self.url ≠ other.url then self
  else
    let kept := preferSha256 self.checksum self.checksumSource other.checksum other.checksumSource
    let provenance :=
      if checksumChanged other.checksum self.checksum then
        (self.provenance, self.provenanceVerified)
      else mergeProvenanceState self.provenance self.provenanceVerified other.provenance
        other.provenanceVerified
    { checksum := kept.1
      checksumSource := (sameChecksumSource self.checksum self.checksumSource other.checksum
        other.checksumSource).getD kept.2
      size := self.size.or other.size
      url := self.url
      urlApi := self.urlApi.or other.urlApi
      provenance := provenance.1
      provenanceVerified := provenance.2 }

/-- `merge_additional_artifacts`. -/
def mergeAdditionalArtifacts (current other : List ArtifactInfo) : List ArtifactInfo :=
  List.zipWith ArtifactInfo.mergeWith current other ++
    (if other.length < current.length then current.drop other.length
    else other.drop current.length)

namespace PlatformInfo

/-- `is_empty`. -/
def isEmpty (info : PlatformInfo) : Bool :=
  info.install.isNone && info.checksum.isNone && info.checksumSource.isNone && info.url.isNone &&
    info.urlApi.isNone && info.condaDeps.isNone && info.provenance.isNone &&
    info.provenanceVerified.isNone && info.signer.isNone && info.attestedBy.isNone &&
    info.repositoryId.isNone && info.repositoryOwnerId.isNone && info.additionalArtifacts.isEmpty

/-- The records are of different artifacts, as far as `merge_with` can tell. -/
def artifactChanged (self other : PlatformInfo) : Bool :=
  (self.url.isSome && other.url.isSome && self.url ≠ other.url) ||
    (self.install.isSome && self.install ≠ other.install) ||
    (self.url.isSome && other.install = some "source")

/-- `PlatformInfo::merge_with`. -/
def mergeWith (self other : PlatformInfo) : PlatformInfo :=
  let changed := self.artifactChanged other
  let kept :=
    if changed then (self.checksum, self.checksumSource)
    else preferSha256 self.checksum self.checksumSource other.checksum other.checksumSource
  let provenance :=
    if changed || checksumChanged other.checksum self.checksum then
      (self.provenance, self.provenanceVerified)
    else mergeProvenanceState self.provenance self.provenanceVerified other.provenance
      other.provenanceVerified
  { downloadHeaders := none
    install := self.install.or (if self.url.isSome then none else other.install)
    checksum := kept.1
    checksumSource :=
      if changed then kept.2
      else (sameChecksumSource self.checksum self.checksumSource other.checksum
        other.checksumSource).getD kept.2
    size := if changed then self.size else self.size.or other.size
    url := if changed then self.url else self.url.or other.url
    urlApi := if changed then self.urlApi else self.urlApi.or other.urlApi
    condaDeps := self.condaDeps.or other.condaDeps
    provenance := provenance.1
    provenanceVerified := provenance.2
    githubAttestations := none
    signer := self.signer.or other.signer
    attestedBy := if self.signer.isSome then self.attestedBy else other.attestedBy
    repositoryId := if self.signer.isSome then self.repositoryId else other.repositoryId
    repositoryOwnerId :=
      if self.signer.isSome then self.repositoryOwnerId else other.repositoryOwnerId
    additionalArtifacts :=
      if changed then self.additionalArtifacts
      else mergeAdditionalArtifacts self.additionalArtifacts other.additionalArtifacts }

end PlatformInfo

/-! ### What the first record keeps -/

/-- The provenance is kept, or has given way to one of a higher priority; an SLSA
record without a URL may have been given one. -/
def ProvenanceType.KeptAs (p q : ProvenanceType) : Prop :=
  q = p ∨ p.ordinal < q.ordinal ∨ p = .slsa none ∧ ∃ url, q = .slsa url

/-- **What `r` takes from `f`**: the URL, the checksum unless it gave way to a
sha256 one, and the provenance unless it gave way to one of a higher priority. -/
structure Takes (f r : PlatformInfo) : Prop where
  url : f.url.isSome → r.url = f.url
  checksum : ∀ c, f.checksum = some c →
    r.checksum = some c ∨ isSha256 c = false ∧ ∃ c', r.checksum = some c' ∧ isSha256 c' = true
  provenance : ∀ p, f.provenance = some p → ∃ q, r.provenance = some q ∧ p.KeptAs q

theorem ProvenanceType.KeptAs.trans {p q s : ProvenanceType} (hpq : p.KeptAs q)
    (hqs : q.KeptAs s) : p.KeptAs s := by
  rcases hpq with rfl | hlt | ⟨rfl, url, rfl⟩
  · exact hqs
  · rcases hqs with rfl | hlt' | ⟨rfl, url, rfl⟩
    · exact .inr (.inl hlt)
    · exact .inr (.inl (hlt.trans hlt'))
    · exact .inr (.inl hlt)
  · rcases hqs with rfl | hlt' | ⟨_, url', rfl⟩
    · exact .inr (.inr ⟨rfl, url, rfl⟩)
    · exact .inr (.inl hlt')
    · exact .inr (.inr ⟨rfl, url', rfl⟩)

theorem ProvenanceType.keptAs_merge (p q : ProvenanceType) : p.KeptAs (p.merge q) := by
  cases p with
  | slsa a =>
    cases q with
    | slsa b =>
      cases a with
      | none => exact .inr (.inr ⟨rfl, b, rfl⟩)
      | some url => exact .inl rfl
    | minisign => exact .inl rfl
    | cosign => exact .inl rfl
    | githubAttestations => exact .inr (.inl (by simp [merge, ordinal]))
  | minisign => cases q <;> first | exact .inl rfl | exact .inr (.inl (by simp [merge, ordinal]))
  | cosign => cases q <;> first | exact .inl rfl | exact .inr (.inl (by simp [merge, ordinal]))
  | githubAttestations => cases q <;> exact .inl rfl

theorem Takes.refl (f : PlatformInfo) : Takes f f where
  url _ := rfl
  checksum _ hc := .inl hc
  provenance p hp := ⟨p, hp, .inl rfl⟩

theorem Takes.trans {f r s : PlatformInfo} (hfr : Takes f r) (hrs : Takes r s) : Takes f s where
  url hf := by
    have hr := hfr.url hf
    rw [hrs.url (hr ▸ hf), hr]
  checksum c hc := by
    rcases hfr.checksum c hc with hr | ⟨hnot, c', hr, hsha⟩
    · exact hrs.checksum c hr
    · rcases hrs.checksum c' hr with hs | ⟨hnot', _⟩
      · exact .inr ⟨hnot, c', hs, hsha⟩
      · rw [hsha] at hnot'
        exact Bool.noConfusion hnot'
  provenance p hp := by
    obtain ⟨q, hq, hpq⟩ := hfr.provenance p hp
    obtain ⟨s', hs, hqs⟩ := hrs.provenance q hq
    exact ⟨s', hs, hpq.trans hqs⟩

/-- **The first record of a merge wins.** -/
theorem takes_mergeWith (self other : PlatformInfo) : Takes self (self.mergeWith other) where
  url hself := by
    obtain ⟨url, hurl⟩ := Option.isSome_iff_exists.1 hself
    simp only [PlatformInfo.mergeWith, hurl]
    split <;> rfl
  checksum c hc := by
    simp only [PlatformInfo.mergeWith, hc]
    split
    · exact .inl rfl
    · cases other.checksum with
      | none => exact .inl rfl
      | some c' =>
        simp only [preferSha256]
        split
        · case isTrue hprefer =>
          rw [Bool.and_eq_true, Bool.not_eq_true'] at hprefer
          exact .inr ⟨hprefer.1, c', rfl, hprefer.2⟩
        · exact .inl rfl
  provenance p hp := by
    simp only [PlatformInfo.mergeWith, hp]
    split
    · exact ⟨p, rfl, .inl rfl⟩
    · cases other.provenance with
      | none => exact ⟨p, rfl, .inl rfl⟩
      | some q => exact ⟨p.merge q, rfl, p.keptAs_merge q⟩

/-- The record has gone into the other, directly or through merges. -/
inductive MergedInto (info : PlatformInfo) : PlatformInfo → Prop
  | self : MergedInto info info
  | left (r other : PlatformInfo) : MergedInto info r → MergedInto info (r.mergeWith other)
  | right (r other : PlatformInfo) : MergedInto info other → MergedInto info (r.mergeWith other)

end Mise
