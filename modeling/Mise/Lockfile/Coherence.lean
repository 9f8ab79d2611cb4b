/-
# One platform's record under merges

`PlatformInfo::merge_with` and the merge of `set_platform_info` are two
separately written ways to put a new record over an old one.  Both take every
field that describes an artifact from the new record when the URLs disagree, and
both keep the source of a checksum with the checksum, so that a checksum counts
as confirmed only where some record confirmed it (`Confirmed`).

Provenance vouches for the bytes a checksum names.  Digests of different
algorithms cannot be compared, so what a run of merges guarantees is a chain:
provenance that was recorded with a checksum reaches a result only along
checksums no two neighbours of which name different bytes (`Linked`,
`run_provenance_eq`).
-/

import Mise.Lockfile.Operations

namespace Mise

open Lib

/-! ### Checksums -/

theorem splitOnce_of_isSha256 {c : String} (h : isSha256 c = true) :
    ∃ hash, splitOnce ':' c.toList = some ("sha256".toList, hash) := by
  obtain ⟨hash, hhash⟩ := List.isPrefixOf_iff_prefix.1 h
  have happend : c.toList = "sha256".toList ++ ':' :: hash := hhash.symm
  exact ⟨hash, by rw [happend]; exact splitOnce_append (by decide) hash⟩

@[simp] theorem checksumChanged_self (c : Option String) : checksumChanged c c = false := by
  unfold checksumChanged
  split
  · case h_1 h₁ h₂ =>
    obtain ⟨rfl, rfl⟩ := Prod.mk.inj (Option.some.inj (h₁.symm.trans h₂))
    simp [eqIgnoreAsciiCase]
  · rfl

@[simp] theorem checksumChanged_none_left (c : Option String) : checksumChanged none c = false := rfl

@[simp] theorem checksumChanged_none_right (c : Option String) :
    checksumChanged c none = false := by
  unfold checksumChanged
  split
  · case h_1 h => nomatch h
  · rfl

theorem checksumChanged_comm (c d : Option String) : checksumChanged c d = checksumChanged d c := by
  have heq : ∀ a b : List Char, eqIgnoreAsciiCase a b = eqIgnoreAsciiCase b a := fun a b =>
    decide_eq_decide.2 eq_comm
  unfold checksumChanged
  cases c.bind (splitOnce ':' ·.toList) with
  | none => cases d.bind (splitOnce ':' ·.toList) <;> rfl
  | some p =>
    cases d.bind (splitOnce ':' ·.toList) with
    | none => rfl
    | some q =>
      show (eqIgnoreAsciiCase p.1 q.1 && !eqIgnoreAsciiCase p.2 q.2) =
        (eqIgnoreAsciiCase q.1 p.1 && !eqIgnoreAsciiCase q.2 p.2)
      rw [heq p.1, heq p.2]

/-- A sha256 checksum is spelled `sha256:`, as every backend writes it. -/
def Spelled (c : String) : Prop :=
  ∀ algo hash, splitOnce ':' c.toList = some (algo, hash) →
    eqIgnoreAsciiCase algo "sha256".toList = true → isSha256 c = true

/-- Checksums that name different bytes are both sha256 ones or neither is. -/
theorem isSha256_of_checksumChanged {c d : String} (hc : Spelled c)
    (h : checksumChanged (some d) (some c) = true) (hd : isSha256 d = true) :
    isSha256 c = true := by
  obtain ⟨hash, hsplit⟩ := splitOnce_of_isSha256 hd
  unfold checksumChanged at h
  split at h
  · case h_1 oldAlgo oldHash newAlgo newHash hold hnew =>
    obtain ⟨rfl, rfl⟩ := Prod.mk.inj (Option.some.inj (hsplit.symm.trans hold))
    rw [Bool.and_eq_true] at h
    have hsame := of_decide_eq_true h.1
    exact hc newAlgo newHash hnew (decide_eq_true hsame.symm)
  · nomatch h

/-- The checksum a merge keeps, and its source: that of a side, or of both where
they hold the same checksum. -/
def keptChecksum (self : Option String) (selfSource : Option ChecksumSource)
    (other : Option String) (otherSource : Option ChecksumSource) :
    Option String × Option ChecksumSource :=
  let kept := preferSha256 self selfSource other otherSource
  (kept.1, (sameChecksumSource self selfSource other otherSource).getD kept.2)

/-- The provenance a merge keeps, which for other bytes is only the first side's. -/
def keptProvenance (self : Option String) (provenance : Option ProvenanceType × Option Bool)
    (other : Option String) (otherProvenance : Option ProvenanceType × Option Bool) :
    Option ProvenanceType × Option Bool :=
  if checksumChanged other self then provenance
  else mergeProvenanceState provenance.1 provenance.2 otherProvenance.1 otherProvenance.2

section Kept

variable (self other : Option String) (selfSource otherSource : Option ChecksumSource)

/-- The result of `preferSha256` is one of the sides, with its source. -/
theorem preferSha256_cases :
    preferSha256 self selfSource other otherSource = (self, selfSource) ∧ self.isSome ∨
      preferSha256 self selfSource other otherSource = (other, otherSource) ∧ other.isSome ∨
        self = none ∧ other = none ∧ preferSha256 self selfSource other otherSource = (none, none) := by
  unfold preferSha256
  split
  · split
    · exact .inr (.inl ⟨rfl, rfl⟩)
    · exact .inl ⟨rfl, rfl⟩
  · exact .inl ⟨rfl, rfl⟩
  · exact .inr (.inl ⟨rfl, rfl⟩)
  · exact .inr (.inr ⟨rfl, rfl, rfl⟩)

/-- A checksum that both sides hold. -/
theorem keptChecksum_same (c : String) :
    keptChecksum (some c) selfSource (some c) otherSource =
      (some c, if selfSource.isSome then otherSource else none) := by
  have hfirst : (preferSha256 (some c) selfSource (some c) otherSource).1 = some c := by
    rw [preferSha256]
    split <;> rfl
  rw [keptChecksum, hfirst, sameChecksumSource]
  simp

/-- Two checksums. -/
theorem keptChecksum_ne {c d : String} (h : c ≠ d) :
    keptChecksum (some c) selfSource (some d) otherSource =
      if !isSha256 c && isSha256 d then (some d, otherSource) else (some c, selfSource) := by
  rw [keptChecksum, sameChecksumSource]
  simp only [Option.isSome_some, Bool.true_and, Option.some.injEq, h, decide_false,
    Bool.false_eq_true, if_false, Option.getD_none]
  rfl

/-- **Merging the other side in again changes nothing.** -/
theorem keptChecksum_idem :
    keptChecksum (keptChecksum self selfSource other otherSource).1
        (keptChecksum self selfSource other otherSource).2 other otherSource =
      keptChecksum self selfSource other otherSource := by
  cases self with
  | none =>
    cases other with
    | none => rfl
    | some d =>
      show keptChecksum (some d) otherSource (some d) otherSource = (some d, otherSource)
      rw [keptChecksum_same]
      cases otherSource <;> rfl
  | some c =>
    cases other with
    | none => rfl
    | some d =>
      by_cases h : c = d
      · subst h
        rw [keptChecksum_same, keptChecksum_same]
        cases selfSource <;> cases otherSource <;> rfl
      · rw [keptChecksum_ne _ _ h]
        split
        · rw [keptChecksum_same]
          cases otherSource <;> rfl
        · case isFalse hprefer => rw [keptChecksum_ne _ _ h, if_neg hprefer]

/-- The checksum kept is that of the first side, unless the other's is preferred. -/
theorem keptChecksum_fst :
    (keptChecksum self selfSource other otherSource).1 = self ∨
      (keptChecksum self selfSource other otherSource).1 = other ∧
        ∀ c, self = some c → isSha256 c = false ∧ ∃ d, other = some d ∧ isSha256 d = true := by
  cases self with
  | none => cases other <;> exact .inr ⟨rfl, nofun⟩
  | some c =>
    cases other with
    | none => exact .inl rfl
    | some d =>
      have hkept : (keptChecksum (some c) selfSource (some d) otherSource).1 =
          if !isSha256 c && isSha256 d then some d else some c := by
        show (preferSha256 (some c) selfSource (some d) otherSource).1 = _
        rw [preferSha256]
        split <;> rfl
      rw [hkept]
      split
      · case isTrue hprefer =>
        rw [Bool.and_eq_true, Bool.not_eq_true'] at hprefer
        refine .inr ⟨rfl, fun c' hc' => ?_⟩
        obtain rfl := Option.some.inj hc'
        exact ⟨hprefer.1, d, rfl, hprefer.2⟩
      · exact .inl rfl

/-- A merge keeps a checksum if there is one. -/
theorem keptChecksum_eq_none {self other : Option String}
    {selfSource otherSource : Option ChecksumSource}
    (h : (keptChecksum self selfSource other otherSource).1 = none) :
    self = none ∧ other = none := by
  have hfst : (preferSha256 self selfSource other otherSource).1 = none := h
  rcases preferSha256_cases self other selfSource otherSource with ⟨hp, hsome⟩ | ⟨hp, hsome⟩ | hnone
  · rw [hp] at hfst
    rw [show self = none from hfst] at hsome
    exact absurd hsome Bool.false_ne_true
  · rw [hp] at hfst
    rw [show other = none from hfst] at hsome
    exact absurd hsome Bool.false_ne_true
  · exact ⟨hnone.1, hnone.2.1⟩

end Kept

theorem ProvenanceType.merge_idem (p q : ProvenanceType) : (p.merge q).merge q = p.merge q := by
  cases p with
  | slsa a =>
    cases q with
    | slsa b => cases a <;> cases b <;> rfl
    | minisign => rfl
    | cosign => rfl
    | githubAttestations => rfl
  | minisign => cases q <;> first | rfl | (rename_i b; cases b <;> rfl)
  | cosign => cases q <;> first | rfl | (rename_i b; cases b <;> rfl)
  | githubAttestations => cases q <;> rfl

theorem mergeProvenanceState_idem (p q : Option ProvenanceType) (v w : Option Bool) :
    mergeProvenanceState (mergeProvenanceState p v q w).1 (mergeProvenanceState p v q w).2 q w =
      mergeProvenanceState p v q w := by
  cases p with
  | none =>
    cases q with
    | none => cases v <;> cases w <;> rfl
    | some q =>
      show (some (q.merge q), w.or w) = (some q, w)
      have hself : q.merge q = q := by
        cases q with
        | slsa url => cases url <;> rfl
        | minisign => rfl
        | cosign => rfl
        | githubAttestations => rfl
      rw [hself, Option.or_self]
  | some p =>
    cases q with
    | none => rfl
    | some q =>
      show (some ((p.merge q).merge q), (v.or w).or w) = (some (p.merge q), v.or w)
      rw [p.merge_idem q, Option.or_assoc, Option.or_self]

/-- The provenance kept is settled once the checksum is the first side's, or is not of
other bytes. -/
theorem keptProvenance_again {self other c : Option String}
    (hc : c = self ∨ checksumChanged other c = false ∧ checksumChanged other self = false)
    (p q : Option ProvenanceType × Option Bool) :
    keptProvenance c (keptProvenance self p other q) other q = keptProvenance self p other q := by
  have hmerged : ∀ c, checksumChanged other c = false → checksumChanged other self = false →
      keptProvenance c (keptProvenance self p other q) other q = keptProvenance self p other q := by
    intro c hc hs
    rw [keptProvenance, if_neg (by rw [hc]; exact Bool.false_ne_true), keptProvenance,
      if_neg (by rw [hs]; exact Bool.false_ne_true), mergeProvenanceState_idem]
  rcases hc with rfl | ⟨hc, hs⟩
  · cases hchanged : checksumChanged other c with
    | false => exact hmerged c hchanged hchanged
    | true => rw [keptProvenance, if_pos hchanged]
  · exact hmerged c hc hs

/-- A preferred checksum is not of other bytes than the one it is preferred to. -/
theorem keptChecksum_not_changed {self other : Option String}
    (selfSource otherSource : Option ChecksumSource) (hself : ∀ c, self = some c → Spelled c) :
    (keptChecksum self selfSource other otherSource).1 = self ∨
      (keptChecksum self selfSource other otherSource).1 = other ∧
        checksumChanged other self = false := by
  rcases keptChecksum_fst self other selfSource otherSource with hfst | ⟨hfst, hprefer⟩
  · exact .inl hfst
  · refine .inr ⟨hfst, ?_⟩
    cases self with
    | none => exact checksumChanged_none_right other
    | some c =>
      obtain ⟨hnot, d, rfl, hd⟩ := hprefer c rfl
      cases hchanged : checksumChanged (some d) (some c) with
      | false => rfl
      | true =>
        have hc := isSha256_of_checksumChanged (hself c rfl) hchanged hd
        rw [hnot] at hc
        exact absurd hc Bool.false_ne_true

/-- The provenance kept does not change either, when sha256 is spelled alike. -/
theorem keptProvenance_idem {self other : Option String}
    {selfSource otherSource : Option ChecksumSource} (hself : ∀ c, self = some c → Spelled c)
    (p q : Option ProvenanceType × Option Bool) :
    keptProvenance (keptChecksum self selfSource other otherSource).1
      (keptProvenance self p other q) other q = keptProvenance self p other q :=
  keptProvenance_again
    ((keptChecksum_not_changed selfSource otherSource hself).imp_right fun ⟨hfst, hchanged⟩ =>
      ⟨hfst.symm ▸ checksumChanged_self other, hchanged⟩) p q

/-! ### Merging the same record twice -/

/-- A record as backends write it: sha256 is spelled alike, and a source comes with
a checksum. -/
structure ArtifactInfo.Regular (a : ArtifactInfo) : Prop where
  spelled : ∀ c, a.checksum = some c → Spelled c
  sourced : a.checksumSource.isSome → a.checksum.isSome

@[inherit_doc ArtifactInfo.Regular]
structure PlatformInfo.Regular (info : PlatformInfo) : Prop where
  spelled : ∀ c, info.checksum = some c → Spelled c
  artifacts : ∀ a ∈ info.additionalArtifacts, a.Regular

namespace ArtifactInfo

theorem mergeWith_of_url_eq {self other : ArtifactInfo} (h : self.url = other.url) :
    self.mergeWith other =
      { checksum :=
          (keptChecksum self.checksum self.checksumSource other.checksum other.checksumSource).1
        checksumSource :=
          (keptChecksum self.checksum self.checksumSource other.checksum other.checksumSource).2
        size := self.size.or other.size
        url := self.url
        urlApi := self.urlApi.or other.urlApi
        provenance := (keptProvenance self.checksum (self.provenance, self.provenanceVerified)
          other.checksum (other.provenance, other.provenanceVerified)).1
        provenanceVerified := (keptProvenance self.checksum
          (self.provenance, self.provenanceVerified) other.checksum
          (other.provenance, other.provenanceVerified)).2 } := by
  rw [mergeWith, if_neg (not_not.2 h)]
  rfl

theorem mergeWith_idem {self other : ArtifactInfo} (hself : self.Regular) :
    (self.mergeWith other).mergeWith other = self.mergeWith other := by
  by_cases h : self.url = other.url
  · have hurl : (self.mergeWith other).url = other.url := by rw [mergeWith_of_url_eq h, h]
    rw [mergeWith_of_url_eq hurl, mergeWith_of_url_eq h]
    simp only [keptChecksum_idem, Option.or_assoc, Option.or_self, Prod.mk.eta,
      keptProvenance_idem hself.spelled]
  · have hself : self.mergeWith other = self := by rw [mergeWith, if_pos h]
    rw [hself, hself]

theorem mergeWith_self {a : ArtifactInfo} (ha : a.Regular) : a.mergeWith a = a := by
  rw [mergeWith_of_url_eq rfl]
  have hchecksum : keptChecksum a.checksum a.checksumSource a.checksum a.checksumSource =
      (a.checksum, a.checksumSource) := by
    cases hc : a.checksum with
    | none =>
      have hsource : a.checksumSource = none := by
        cases hs : a.checksumSource with
        | none => rfl
        | some source =>
          have hsome := ha.sourced (by rw [hs]; rfl)
          rw [hc] at hsome
          exact absurd hsome Bool.false_ne_true
      rw [hsource]
      rfl
    | some c =>
      rw [keptChecksum_same]
      cases a.checksumSource <;> rfl
  have hprovenance : keptProvenance a.checksum (a.provenance, a.provenanceVerified) a.checksum
      (a.provenance, a.provenanceVerified) = (a.provenance, a.provenanceVerified) := by
    rw [keptProvenance, checksumChanged_self, if_neg Bool.false_ne_true]
    cases a.provenance with
    | none => exact Prod.ext rfl (Option.or_self)
    | some p =>
      refine Prod.ext (congrArg some ?_) (Option.or_self)
      cases p with
      | slsa url => cases url <;> rfl
      | minisign => rfl
      | cosign => rfl
      | githubAttestations => rfl
  rw [hchecksum, hprovenance, Option.or_self, Option.or_self]

end ArtifactInfo

@[simp] theorem mergeAdditionalArtifacts_nil (other : List ArtifactInfo) :
    mergeAdditionalArtifacts [] other = other := by
  simp [mergeAdditionalArtifacts]

@[simp] theorem mergeAdditionalArtifacts_cons (a o : ArtifactInfo)
    (current other : List ArtifactInfo) :
    mergeAdditionalArtifacts (a :: current) (o :: other) =
      a.mergeWith o :: mergeAdditionalArtifacts current other := by
  simp [mergeAdditionalArtifacts]

theorem mergeAdditionalArtifacts_self {artifacts : List ArtifactInfo}
    (h : ∀ a ∈ artifacts, a.Regular) : mergeAdditionalArtifacts artifacts artifacts = artifacts := by
  induction artifacts with
  | nil => rfl
  | cons a artifacts ih =>
    rw [mergeAdditionalArtifacts_cons, ArtifactInfo.mergeWith_self (h a (List.mem_cons_self ..)),
      ih fun a' ha' => h a' (List.mem_cons_of_mem _ ha')]

theorem mergeAdditionalArtifacts_idem {current other : List ArtifactInfo}
    (hcurrent : ∀ a ∈ current, a.Regular) (hother : ∀ a ∈ other, a.Regular) :
    mergeAdditionalArtifacts (mergeAdditionalArtifacts current other) other =
      mergeAdditionalArtifacts current other := by
  induction current generalizing other with
  | nil =>
    rw [mergeAdditionalArtifacts_nil]
    exact mergeAdditionalArtifacts_self hother
  | cons a current ih =>
    cases other with
    | nil => rfl
    | cons o other =>
      rw [mergeAdditionalArtifacts_cons, mergeAdditionalArtifacts_cons,
        ArtifactInfo.mergeWith_idem (hcurrent a (List.mem_cons_self ..)),
        ih (fun a' ha' => hcurrent a' (List.mem_cons_of_mem _ ha'))
          fun o' ho' => hother o' (List.mem_cons_of_mem _ ho')]

namespace PlatformInfo

attribute [ext] PlatformInfo

/-- The records are of one artifact. -/
theorem mergeWith_of_same {self other : PlatformInfo} (h : self.artifactChanged other = false) :
    self.mergeWith other =
      { downloadHeaders := none
        install := self.install.or (if self.url.isSome then none else other.install)
        checksum :=
          (keptChecksum self.checksum self.checksumSource other.checksum other.checksumSource).1
        checksumSource :=
          (keptChecksum self.checksum self.checksumSource other.checksum other.checksumSource).2
        size := self.size.or other.size
        url := self.url.or other.url
        urlApi := self.urlApi.or other.urlApi
        condaDeps := self.condaDeps.or other.condaDeps
        provenance := (keptProvenance self.checksum (self.provenance, self.provenanceVerified)
          other.checksum (other.provenance, other.provenanceVerified)).1
        provenanceVerified := (keptProvenance self.checksum
          (self.provenance, self.provenanceVerified) other.checksum
          (other.provenance, other.provenanceVerified)).2
        githubAttestations := none
        signer := self.signer.or other.signer
        attestedBy := if self.signer.isSome then self.attestedBy else other.attestedBy
        repositoryId := if self.signer.isSome then self.repositoryId else other.repositoryId
        repositoryOwnerId :=
          if self.signer.isSome then self.repositoryOwnerId else other.repositoryOwnerId
        additionalArtifacts :=
          mergeAdditionalArtifacts self.additionalArtifacts other.additionalArtifacts } := by
  rw [mergeWith, h]
  rfl

/-- The records are of different artifacts. -/
theorem mergeWith_of_changed {self other : PlatformInfo} (h : self.artifactChanged other = true) :
    self.mergeWith other =
      { self with
        downloadHeaders := none
        install := self.install.or (if self.url.isSome then none else other.install)
        condaDeps := self.condaDeps.or other.condaDeps
        githubAttestations := none
        signer := self.signer.or other.signer
        attestedBy := if self.signer.isSome then self.attestedBy else other.attestedBy
        repositoryId := if self.signer.isSome then self.repositoryId else other.repositoryId
        repositoryOwnerId :=
          if self.signer.isSome then self.repositoryOwnerId else other.repositoryOwnerId } := by
  rw [mergeWith, h]
  rfl

/-- What follows the signer is settled by the first merge. -/
theorem follows_signer {α : Type} (s o : Option String) (x y : α) :
    (if (s.or o).isSome then (if s.isSome then x else y) else y) = if s.isSome then x else y := by
  cases s <;> cases o <;> rfl

theorem or_or_self {α : Type} (x y : Option α) : (x.or y).or y = x.or y := by
  rw [Option.or_assoc, Option.or_self]

/-- Different artifacts stay different. -/
theorem artifactChanged_mergeWith {self other : PlatformInfo}
    (h : self.artifactChanged other = true) :
    (self.mergeWith other).artifactChanged other = true := by
  have hurl : (self.mergeWith other).url = self.url := by rw [mergeWith_of_changed h]
  have hinstall : self.install.isSome → (self.mergeWith other).install = self.install := by
    intro hsome
    obtain ⟨i, hi⟩ := Option.isSome_iff_exists.1 hsome
    show self.install.or _ = _
    rw [hi]
    rfl
  unfold artifactChanged at h ⊢
  rw [hurl]
  simp only [Bool.or_eq_true, Bool.and_eq_true, decide_eq_true_eq] at h ⊢
  rcases h with (h | ⟨hsome, hne⟩) | h
  · exact .inl (.inl h)
  · rw [hinstall hsome]
    exact .inl (.inr ⟨hsome, hne⟩)
  · exact .inr h

/-- A merge that has taken in a record of another artifact takes in nothing more. -/
theorem mergeWith_idem_of_changed {self other : PlatformInfo}
    (h : (self.mergeWith other).artifactChanged other = true) :
    (self.mergeWith other).mergeWith other = self.mergeWith other := by
  have hinstall : (self.mergeWith other).install.or
      (if (self.mergeWith other).url.isSome then none else other.install) =
        (self.mergeWith other).install := by
    cases hi : (self.mergeWith other).install with
    | some i => rfl
    | none =>
      have hsome : (self.mergeWith other).url.isSome = true := by
        unfold artifactChanged at h
        rw [hi] at h
        simp only [Option.isSome_none, Bool.false_and, Bool.or_false, Bool.or_eq_true,
          Bool.and_eq_true] at h
        exact h.elim (fun h => h.1.1) And.left
      rw [hsome]
      rfl
  rw [mergeWith_of_changed h]
  ext1
  · exact hinstall
  · rfl
  · rfl
  · rfl
  · rfl
  · rfl
  · rfl
  · exact or_or_self _ _
  · rfl
  · rfl
  · rfl
  · exact or_or_self _ _
  · exact follows_signer _ _ _ _
  · exact follows_signer _ _ _ _
  · exact follows_signer _ _ _ _
  · rfl

/-- **Merging the same old record in a second time changes nothing.** -/
theorem mergeWith_idem {self other : PlatformInfo} (hself : self.Regular) (hother : other.Regular) :
    (self.mergeWith other).mergeWith other = self.mergeWith other := by
  cases h : (self.mergeWith other).artifactChanged other with
  | true => exact mergeWith_idem_of_changed h
  | false =>
    have hsame : self.artifactChanged other = false := by
      cases hs : self.artifactChanged other with
      | false => rfl
      | true => rw [artifactChanged_mergeWith hs] at h; exact absurd h.symm Bool.false_ne_true
    rw [mergeWith_of_same h, mergeWith_of_same hsame]
    ext1
    · show (self.install.or _).or (if (self.url.or other.url).isSome then _ else _) = _
      cases hi : self.install with
      | some i => rfl
      | none =>
        cases hu : self.url with
        | some u => rfl
        | none => cases other.url <;> simp
    · exact congrArg Prod.fst (keptChecksum_idem _ _ _ _)
    · exact congrArg Prod.snd (keptChecksum_idem _ _ _ _)
    · exact or_or_self _ _
    · exact or_or_self _ _
    · exact or_or_self _ _
    · rfl
    · exact or_or_self _ _
    · exact congrArg Prod.fst (keptProvenance_idem hself.spelled _ _)
    · exact congrArg Prod.snd (keptProvenance_idem hself.spelled _ _)
    · rfl
    · exact or_or_self _ _
    · exact follows_signer _ _ _ _
    · exact follows_signer _ _ _ _
    · exact follows_signer _ _ _ _
    · exact mergeAdditionalArtifacts_idem hself.artifacts hother.artifacts

/-! ### Recording over -/

/-- The records are of one artifact, as far as `set_platform_info` can tell. -/
def preserves (info existing : PlatformInfo) : Bool :=
  !(info.url.isSome && existing.url.isSome && decide (info.url ≠ existing.url)) &&
    !(info.install.isSome && decide (info.install ≠ existing.install)) &&
    !(info.url.isSome && info.install.isNone && decide (existing.install = some "source"))

/-- The checksum that `set_platform_info` records, and its source. -/
def recordedChecksum (preserve : Bool) (info existing : PlatformInfo) :
    Option String × Option ChecksumSource :=
  if info.checksum.isSome then
    (info.checksum, ((sameChecksumSource info.checksum info.checksumSource existing.checksum
      existing.checksumSource).filter fun _ => preserve).getD info.checksumSource)
  else if preserve then (existing.checksum, existing.checksumSource)
  else (none, none)

/-- Values of the old record, where they are preserved. -/
def unlessNew {α : Type} (preserve : Bool) (new old : Option α) : Option α :=
  new.or (if preserve then old else none)

/-- A new record over an existing one, field by field. -/
theorem recordOver_eq (info existing : PlatformInfo) :
    info.recordOver existing =
      { downloadHeaders := none
        install := info.install.or (if info.url.isSome then none else existing.install)
        checksum := (recordedChecksum (info.preserves existing) info existing).1
        checksumSource := (recordedChecksum (info.preserves existing) info existing).2
        size := unlessNew (info.preserves existing) info.size existing.size
        url := unlessNew (info.preserves existing) info.url existing.url
        urlApi := unlessNew (info.preserves existing) info.urlApi existing.urlApi
        condaDeps := info.condaDeps
        provenance := if info.preserves existing then (keptProvenance info.checksum
          (info.provenance, info.provenanceVerified) existing.checksum
          (existing.provenance, existing.provenanceVerified)).1 else info.provenance
        provenanceVerified := if info.preserves existing then (keptProvenance info.checksum
          (info.provenance, info.provenanceVerified) existing.checksum
          (existing.provenance, existing.provenanceVerified)).2 else info.provenanceVerified
        githubAttestations := none
        signer := info.signer.or existing.signer
        attestedBy := if info.signer.isSome then info.attestedBy else existing.attestedBy
        repositoryId := if info.signer.isSome then info.repositoryId else existing.repositoryId
        repositoryOwnerId :=
          if info.signer.isSome then info.repositoryOwnerId else existing.repositoryOwnerId
        additionalArtifacts := if info.preserves existing then
          mergeAdditionalArtifacts info.additionalArtifacts existing.additionalArtifacts
          else info.additionalArtifacts } := by
  have hpreserve : (!(info.url.isSome && existing.url.isSome && decide (info.url ≠ existing.url)) &&
      !(info.install.isSome && decide (info.install ≠ existing.install)) &&
      !(info.url.isSome && info.install.isNone && decide (existing.install = some "source"))) =
      info.preserves existing := rfl
  have hprovenance : keptProvenance info.checksum (info.provenance, info.provenanceVerified)
      existing.checksum (existing.provenance, existing.provenanceVerified) =
      if !checksumChanged existing.checksum info.checksum then
        mergeProvenanceState info.provenance info.provenanceVerified existing.provenance
          existing.provenanceVerified
      else (info.provenance, info.provenanceVerified) := by
    unfold keptProvenance
    cases checksumChanged existing.checksum info.checksum <;> rfl
  unfold recordOver
  simp only [hpreserve, hprovenance, recordedChecksum, unlessNew]
  cases info.preserves existing with
  | true => cases info.checksum <;> rfl
  | false => cases info.checksum <;> rfl

/-- Whether two records are of one artifact does not change when one is recorded
over the other. -/
theorem preserves_recordOver (info existing : PlatformInfo) :
    (info.recordOver existing).preserves existing = info.preserves existing := by
  have hurl : (info.recordOver existing).url = unlessNew (info.preserves existing) info.url
    existing.url := by rw [recordOver_eq]
  have hinstall : (info.recordOver existing).install =
    info.install.or (if info.url.isSome then none else existing.install) := by rw [recordOver_eq]
  cases hu : info.url with
  | some u =>
    have hkeep : (info.recordOver existing).url = info.url := by rw [hurl, hu]; rfl
    have hkeep' : (info.recordOver existing).install = info.install := by
      rw [hinstall, hu]
      exact Option.or_none
    rw [preserves, hkeep, hkeep']
    rfl
  | none =>
    rw [hu] at hinstall hurl
    cases hi : info.install with
    | some i =>
      have hkeep : (info.recordOver existing).install = some i := by rw [hinstall, hi]; rfl
      have hpreserves : info.preserves existing = !decide (some i ≠ existing.install) := by
        rw [preserves, hu, hi]
        simp
      rw [preserves, hkeep, hurl, hpreserves]
      cases decide (some i ≠ existing.install) with
      | true => rfl
      | false => simp [unlessNew]
    | none =>
      have hpreserves : info.preserves existing = true := by
        rw [preserves, hu, hi]
        rfl
      rw [hi] at hinstall
      rw [preserves, hinstall, hurl, hpreserves]
      cases existing.install <;> simp [unlessNew]

/-- Recording the same checksum again changes nothing. -/
theorem recordedChecksum_idem (p : Bool) {info r existing : PlatformInfo}
    (hchecksum : r.checksum = (recordedChecksum p info existing).1)
    (hsource : r.checksumSource = (recordedChecksum p info existing).2) :
    recordedChecksum p r existing = recordedChecksum p info existing := by
  have hrecorded : (r.checksum, r.checksumSource) = recordedChecksum p info existing :=
    Prod.ext hchecksum hsource
  unfold recordedChecksum at hrecorded ⊢
  cases hc : info.checksum with
  | some c =>
    rw [hc] at hrecorded
    obtain ⟨hr, hs⟩ := Prod.mk.inj hrecorded
    rw [hr, hs]
    simp only [Option.isSome_some, if_true, sameChecksumSource, Bool.true_and]
    cases p with
    | false => simp
    | true =>
      by_cases he : some c = existing.checksum
      · cases info.checksumSource <;> cases existing.checksumSource <;> simp [he, Option.filter]
      · simp [he]
  | none =>
    rw [hc] at hrecorded
    cases p with
    | false =>
      obtain ⟨hr, hs⟩ := Prod.mk.inj hrecorded
      rw [hr]
      rfl
    | true =>
      obtain ⟨hr, hs⟩ := Prod.mk.inj hrecorded
      rw [hr, hs]
      cases hd : existing.checksum with
      | none => rfl
      | some d => cases existing.checksumSource <;> simp [sameChecksumSource, Option.filter]

/-- The checksum recorded is the new one, or an old one where there is none. -/
theorem recordedChecksum_fst (p : Bool) (info existing : PlatformInfo) :
    (recordedChecksum p info existing).1 = info.checksum ∨
      (recordedChecksum p info existing).1 = existing.checksum ∧ info.checksum = none := by
  unfold recordedChecksum
  cases hc : info.checksum with
  | some c => exact .inl rfl
  | none =>
    cases p with
    | true => exact .inr ⟨rfl, rfl⟩
    | false => exact .inl rfl

/-- **Recording over the same old record twice changes nothing.** -/
theorem recordOver_idem {info existing : PlatformInfo} (hinfo : info.Regular)
    (hexisting : existing.Regular) :
    (info.recordOver existing).recordOver existing = info.recordOver existing := by
  have hunless : ∀ {α : Type} (p : Bool) (x y : Option α),
      unlessNew p (unlessNew p x y) y = unlessNew p x y := by
    intro α p x y
    cases p with
    | true => exact or_or_self x y
    | false => exact Option.or_none
  have hpreserves := preserves_recordOver info existing
  have hchecksum : recordedChecksum (info.preserves existing) (info.recordOver existing) existing =
      recordedChecksum (info.preserves existing) info existing :=
    recordedChecksum_idem _ (by rw [recordOver_eq]) (by rw [recordOver_eq])
  have hprovenance : ∀ p q, keptProvenance (recordedChecksum (info.preserves existing) info existing).1
      (keptProvenance info.checksum p existing.checksum q) existing.checksum q =
        keptProvenance info.checksum p existing.checksum q := by
    refine fun p q => keptProvenance_again ?_ p q
    refine (recordedChecksum_fst (info.preserves existing) info existing).imp_right
      fun ⟨hfst, hnone⟩ => ⟨?_, ?_⟩
    · rw [hfst, checksumChanged_self]
    · rw [hnone, checksumChanged_none_right]
  rw [recordOver_eq (info.recordOver existing), hpreserves, hchecksum, recordOver_eq info]
  generalize info.preserves existing = p at hprovenance ⊢
  ext1
  · show (info.install.or _).or (if (unlessNew _ info.url existing.url).isSome then _ else _) = _
    cases hi : info.install with
    | some i => rfl
    | none =>
      cases hu : info.url with
      | some u => rfl
      | none =>
        cases unlessNew p none existing.url <;> simp
  · rfl
  · rfl
  · exact hunless _ _ _
  · exact hunless _ _ _
  · exact hunless _ _ _
  · rfl
  · rfl
  · cases p with
    | true => exact congrArg Prod.fst (hprovenance _ _)
    | false => rfl
  · cases p with
    | true => exact congrArg Prod.snd (hprovenance _ _)
    | false => rfl
  · rfl
  · exact or_or_self _ _
  · exact follows_signer _ _ _ _
  · exact follows_signer _ _ _ _
  · exact follows_signer _ _ _ _
  · cases p with
    | true => exact mergeAdditionalArtifacts_idem hinfo.artifacts hexisting.artifacts
    | false => rfl

/-! ### Confirmed checksums -/

/-- `pin_checksum`: the checksum when a download has confirmed it. -/
def pinChecksum (info : PlatformInfo) : Option String :=
  info.checksum.filter fun _ => info.checksumSource.isNone

theorem pinChecksum_eq_some {info : PlatformInfo} {c : String} :
    info.pinChecksum = some c ↔ info.checksum = some c ∧ info.checksumSource = none := by
  rw [pinChecksum, Option.filter_eq_some_iff, Option.isNone_iff_eq_none]

end PlatformInfo

/-- A checksum that a merge keeps unmarked is unmarked on a side that holds it. -/
theorem eq_of_sameChecksumSource {a b : Option String} {s t : Option ChecksumSource}
    {source : Option ChecksumSource} (h : sameChecksumSource a s b t = some source)
    (hsource : source = none) : a = b ∧ (s = none ∨ t = none) := by
  unfold sameChecksumSource at h
  split at h
  · case isTrue hab =>
    rw [Bool.and_eq_true] at hab
    refine ⟨of_decide_eq_true hab.2, ?_⟩
    rw [hsource] at h
    cases s with
    | none => exact .inl rfl
    | some s => exact .inr (Option.some.inj h)
  · nomatch h

theorem keptChecksum_confirmed {self other : Option String}
    {selfSource otherSource : Option ChecksumSource} {c : String}
    (h : keptChecksum self selfSource other otherSource = (some c, none)) :
    self = some c ∧ selfSource = none ∨ other = some c ∧ otherSource = none := by
  obtain ⟨hfst, hsnd⟩ := Prod.mk.inj h
  cases hsame : sameChecksumSource self selfSource other otherSource with
  | some source =>
    rw [hsame] at hsnd
    obtain ⟨rfl, hsource⟩ := eq_of_sameChecksumSource hsame hsnd
    have hself : self = some c := by
      rcases keptChecksum_fst self self selfSource otherSource with hk | ⟨hk, -⟩
      · exact hk.symm.trans hfst
      · exact hk.symm.trans hfst
    exact hsource.imp (⟨hself, ·⟩) (⟨hself, ·⟩)
  | none =>
    rw [hsame] at hsnd
    rcases preferSha256_cases self other selfSource otherSource with ⟨hp, -⟩ | ⟨hp, -⟩ | ⟨_, _, hp⟩
    · rw [hp] at hfst hsnd
      exact .inl ⟨hfst, hsnd⟩
    · rw [hp] at hfst hsnd
      exact .inr ⟨hfst, hsnd⟩
    · rw [hp] at hfst
      nomatch hfst

namespace PlatformInfo

/-- **A merge confirms no checksum.** -/
theorem pinChecksum_mergeWith {self other : PlatformInfo} {c : String}
    (h : (self.mergeWith other).pinChecksum = some c) :
    self.pinChecksum = some c ∨ other.pinChecksum = some c := by
  rw [pinChecksum_eq_some] at h
  rw [pinChecksum_eq_some, pinChecksum_eq_some]
  cases hchanged : self.artifactChanged other with
  | true =>
    rw [mergeWith_of_changed hchanged] at h
    exact .inl h
  | false =>
    rw [mergeWith_of_same hchanged] at h
    exact keptChecksum_confirmed (Prod.ext h.1 h.2)

/-- A checksum that is pinned came with one of the two records. -/
theorem pinChecksum_recordOver {info existing : PlatformInfo} {c : String}
    (h : (info.recordOver existing).pinChecksum = some c) :
    info.pinChecksum = some c ∨ existing.pinChecksum = some c := by
  rw [pinChecksum_eq_some, recordOver_eq] at h
  rw [pinChecksum_eq_some, pinChecksum_eq_some]
  generalize info.preserves existing = p at h
  unfold recordedChecksum at h
  cases hc : info.checksum with
  | some d =>
    rw [hc] at h
    obtain ⟨hd, hsource⟩ := h
    obtain rfl : d = c := Option.some.inj hd
    cases hsame : (sameChecksumSource (some d) info.checksumSource existing.checksum
        existing.checksumSource).filter fun _ => p with
    | some source =>
      have hsome := (Option.filter_eq_some_iff.1 hsame).1
      have hnone : source = none := by simpa [hsame] using hsource
      obtain ⟨hsum, hor⟩ := eq_of_sameChecksumSource hsome hnone
      exact hor.imp (⟨rfl, ·⟩) (⟨hsum.symm, ·⟩)
    | none =>
      have hnone : info.checksumSource = none := by simpa [hsame] using hsource
      exact .inl ⟨rfl, hnone⟩
  | none =>
    rw [hc] at h
    cases p with
    | true => exact .inr h
    | false => nomatch h.1

end PlatformInfo

/-! ### Runs -/

/-- One merge into the record of a platform: the new record over it by `merge_with`,
under it by `merge_with`, or over it by `set_platform_info`. -/
inductive RecordOp where
  | mergeOver (info : PlatformInfo)
  | mergeUnder (info : PlatformInfo)
  | set (info : PlatformInfo)

namespace RecordOp

/-- The record that is merged in. -/
def info : RecordOp → PlatformInfo
  | mergeOver info => info
  | mergeUnder info => info
  | set info => info

/-- The record after the operation; `set_platform_info` inserts only what is not
empty. -/
def run (record : PlatformInfo) : RecordOp → PlatformInfo
  | mergeOver info => info.mergeWith record
  | mergeUnder info => record.mergeWith info
  | set info =>
    if (info.recordOver record).isEmpty then record else info.recordOver record

end RecordOp

/-- The record after some operations. -/
def runRecord (start : PlatformInfo) (ops : List RecordOp) : PlatformInfo :=
  ops.foldl RecordOp.run start

/-- The records that go into a run. -/
def inputs (start : PlatformInfo) (ops : List RecordOp) : List PlatformInfo :=
  start :: ops.map RecordOp.info

/-- A property of records that every merge passes on holds of what a run leaves. -/
theorem runRecord_induction {P : PlatformInfo → Prop}
    (hmerge : ∀ a b, P a → P b → P (a.mergeWith b)) (hset : ∀ a b, P a → P b → P (a.recordOver b))
    {start : PlatformInfo} {ops : List RecordOp} (h : ∀ i ∈ inputs start ops, P i) :
    P (runRecord start ops) := by
  induction ops generalizing start with
  | nil => exact h start (List.mem_cons_self ..)
  | cons op ops ih =>
    have hstart : P start := h start (List.mem_cons_self ..)
    have hinfo : P op.info := h op.info (List.mem_cons_of_mem _ (List.mem_cons_self ..))
    have hop : P (op.run start) := by
      cases op with
      | mergeOver info => exact hmerge info start hinfo hstart
      | mergeUnder info => exact hmerge start info hstart hinfo
      | set info =>
        show P (if _ then _ else _)
        split
        · exact hstart
        · exact hset info start hinfo hstart
    refine ih fun i hi => ?_
    rcases List.mem_cons.1 hi with rfl | hi
    · exact hop
    · exact h i (List.mem_cons_of_mem _ (List.mem_cons_of_mem _ hi))

/-- **A checksum that no download confirmed is never promoted.** -/
theorem pinChecksum_runRecord {start : PlatformInfo} {ops : List RecordOp} {c : String}
    (h : (runRecord start ops).pinChecksum = some c) :
    ∃ i ∈ inputs start ops, i.checksum = some c ∧ i.checksumSource = none := by
  have hconfirmed : ∃ i ∈ inputs start ops, i.pinChecksum = some c := by
    refine runRecord_induction (P := fun r => r.pinChecksum = some c →
      ∃ i ∈ inputs start ops, i.pinChecksum = some c) ?_ ?_ (fun i hi hc => ⟨i, hi, hc⟩) h
    · exact fun a b ha hb hc => (PlatformInfo.pinChecksum_mergeWith hc).elim ha hb
    · exact fun a b ha hb hc => (PlatformInfo.pinChecksum_recordOver hc).elim ha hb
  obtain ⟨i, hi, hc⟩ := hconfirmed
  exact ⟨i, hi, PlatformInfo.pinChecksum_eq_some.1 hc⟩

/-! ### Where provenance comes from -/

/-- The checksum leads to another along checksums of the list, no two neighbours of
which name different bytes. -/
def Linked (checksums : List String) : String → String → Prop :=
  Relation.ReflTransGen fun c d => d ∈ checksums ∧ checksumChanged (some c) (some d) = false

/-- **The records differ at most in provenance, and not at all if their checksum
vouches.** -/
def Twin (vouches : Option String → Prop) (a a' : PlatformInfo) : Prop :=
  (∃ provenance verified,
    a' = { a with provenance := provenance, provenanceVerified := verified }) ∧
    (vouches a.checksum → a' = a)

section Vouching

variable {checksums : List String} {vouches : Option String → Prop}

/-- What vouches for the checksum of a merge vouches for both sides that it merges. -/
theorem vouches_sides (hnone : vouches none)
    (hlink : ∀ c, ∀ d ∈ checksums, checksumChanged (some c) (some d) = false →
      vouches (some d) → vouches (some c))
    {a b k : Option String} (ha : ∀ c, a = some c → c ∈ checksums)
    (hb : ∀ c, b = some c → c ∈ checksums) (hk : k = a ∨ k = b)
    (hempty : k = none → a = none ∧ b = none) (hchanged : checksumChanged b a = false)
    (hv : vouches k) : vouches a ∧ vouches b := by
  cases a with
  | none =>
    refine ⟨hnone, ?_⟩
    rcases hk with rfl | rfl
    · exact (hempty rfl).2 ▸ hnone
    · exact hv
  | some c =>
    cases b with
    | none =>
      refine ⟨?_, hnone⟩
      rcases hk with rfl | rfl
      · exact hv
      · exact absurd (hempty rfl).1 (Option.some_ne_none c)
    | some d =>
      rcases hk with rfl | rfl
      · exact ⟨hv, hlink d c (ha c rfl) hchanged hv⟩
      · exact ⟨hlink c d (hb d rfl) (checksumChanged_comm (some d) (some c) ▸ hchanged) hv, hv⟩

/-- Merging keeps records twins. -/
theorem Twin.mergeWith (hnone : vouches none)
    (hlink : ∀ c, ∀ d ∈ checksums, checksumChanged (some c) (some d) = false →
      vouches (some d) → vouches (some c))
    {a a' b b' : PlatformInfo} (ha : Twin vouches a a') (hb : Twin vouches b b')
    (hca : ∀ c, a.checksum = some c → c ∈ checksums ∧ Spelled c)
    (hcb : ∀ c, b.checksum = some c → c ∈ checksums) :
    Twin vouches (a.mergeWith b) (a'.mergeWith b') := by
  obtain ⟨⟨p, v, hp⟩, ha⟩ := ha
  obtain ⟨⟨q, w, hq⟩, hb⟩ := hb
  refine ⟨?_, fun hv => ?_⟩
  · subst hp hq
    exact ⟨_, _, rfl⟩
  · cases hchanged : a.artifactChanged b with
    | true =>
      have hab : a' = a := ha (by rw [PlatformInfo.mergeWith_of_changed hchanged] at hv; exact hv)
      have hchanged' : a.artifactChanged b' = true := by rw [hq]; exact hchanged
      rw [hab, PlatformInfo.mergeWith_of_changed hchanged, PlatformInfo.mergeWith_of_changed hchanged',
        hq]
    | false =>
      rw [PlatformInfo.mergeWith_of_same hchanged] at hv
      have hspelled := fun c hc => (hca c hc).2
      have hchanged' : a.artifactChanged b' = false := by rw [hq]; exact hchanged
      have hboth : vouches a.checksum ∧ vouches b.checksum → a'.mergeWith b' = a.mergeWith b :=
        fun h => by rw [ha h.1, hb h.2]
      rcases keptChecksum_not_changed a.checksumSource b.checksumSource hspelled with
        hkept | ⟨hkept, hsame⟩
      · cases hother : checksumChanged b.checksum a.checksum with
        | true =>
          rw [hkept] at hv
          rw [ha hv, PlatformInfo.mergeWith_of_same hchanged, PlatformInfo.mergeWith_of_same hchanged',
            hq]
          simp only [keptProvenance, hother, if_true]
        | false =>
          exact hboth (vouches_sides hnone hlink (fun c hc => (hca c hc).1) hcb (.inl hkept)
            keptChecksum_eq_none hother hv)
      · exact hboth (vouches_sides hnone hlink (fun c hc => (hca c hc).1) hcb (.inr hkept)
          keptChecksum_eq_none hsame hv)

/-- Recording over keeps records twins. -/
theorem Twin.recordOver (hnone : vouches none)
    (hlink : ∀ c, ∀ d ∈ checksums, checksumChanged (some c) (some d) = false →
      vouches (some d) → vouches (some c))
    {a a' b b' : PlatformInfo} (ha : Twin vouches a a') (hb : Twin vouches b b')
    (hca : ∀ c, a.checksum = some c → c ∈ checksums)
    (hcb : ∀ c, b.checksum = some c → c ∈ checksums) :
    Twin vouches (a.recordOver b) (a'.recordOver b') := by
  obtain ⟨⟨p, v, hp⟩, ha⟩ := ha
  obtain ⟨⟨q, w, hq⟩, hb⟩ := hb
  refine ⟨?_, fun hv => ?_⟩
  · subst hp hq
    exact ⟨_, _, rfl⟩
  · have hfst : (a.recordOver b).checksum =
        (PlatformInfo.recordedChecksum (a.preserves b) a b).1 := by
      rw [PlatformInfo.recordOver_eq]
    rw [hfst] at hv
    have hpreserves : a.preserves b' = a.preserves b := by rw [hq]; rfl
    have hboth : vouches a.checksum ∧ vouches b.checksum → a'.recordOver b' = a.recordOver b :=
      fun h => by rw [ha h.1, hb h.2]
    -- the old provenance plays no part
    have halone : a' = a → (a.preserves b = true → checksumChanged b.checksum a.checksum = true) →
        a'.recordOver b' = a.recordOver b := by
      intro hab hother
      rw [hab, PlatformInfo.recordOver_eq a b', PlatformInfo.recordOver_eq a b, hpreserves, hq]
      cases hkeep : a.preserves b with
      | false => rfl
      | true =>
        simp only [keptProvenance, hother hkeep, if_true]
        rfl
    cases hkeep : a.preserves b with
    | false =>
      rw [hkeep] at hv
      have hchecksum : (PlatformInfo.recordedChecksum false a b).1 = a.checksum := by
        unfold PlatformInfo.recordedChecksum
        cases a.checksum <;> rfl
      exact halone (ha (hchecksum ▸ hv)) fun h => absurd (hkeep.symm.trans h) Bool.false_ne_true
    | true =>
      rw [hkeep] at hv
      have hempty : (PlatformInfo.recordedChecksum true a b).1 = none →
          a.checksum = none ∧ b.checksum = none := by
        unfold PlatformInfo.recordedChecksum
        cases a.checksum with
        | none => exact fun h => ⟨rfl, h⟩
        | some c => exact fun h => nomatch h
      rcases PlatformInfo.recordedChecksum_fst true a b with hkept | ⟨hkept, hnew⟩
      · cases hother : checksumChanged b.checksum a.checksum with
        | true => exact halone (ha (hkept ▸ hv)) fun _ => hother
        | false => exact hboth (vouches_sides hnone hlink hca hcb (.inl hkept) hempty hother hv)
      · exact hboth (vouches_sides hnone hlink hca hcb (.inr hkept) hempty
          (by rw [hnew]; exact checksumChanged_none_right _) hv)

/-- A merge keeps the checksum of a side. -/
theorem checksum_mergeWith (a b : PlatformInfo) :
    (a.mergeWith b).checksum = a.checksum ∨ (a.mergeWith b).checksum = b.checksum := by
  cases hchanged : a.artifactChanged b with
  | true => exact .inl (by rw [PlatformInfo.mergeWith_of_changed hchanged])
  | false =>
    rw [PlatformInfo.mergeWith_of_same hchanged]
    exact (keptChecksum_fst _ _ _ _).imp_right And.left

theorem checksum_recordOver (a b : PlatformInfo) :
    (a.recordOver b).checksum = a.checksum ∨ (a.recordOver b).checksum = b.checksum := by
  rw [PlatformInfo.recordOver_eq]
  exact (PlatformInfo.recordedChecksum_fst _ a b).imp_right And.left

theorem checksum_run (op : RecordOp) (record : PlatformInfo) :
    (op.run record).checksum = record.checksum ∨ (op.run record).checksum = op.info.checksum := by
  cases op with
  | mergeOver a => exact (checksum_mergeWith a record).symm
  | mergeUnder a => exact checksum_mergeWith record a
  | set a =>
    have hset : RecordOp.run record (.set a) =
      if (a.recordOver record).isEmpty then record else a.recordOver record := rfl
    rw [hset]
    split
    · exact .inl rfl
    · exact (checksum_recordOver a record).symm

/-- The records of two operations of one kind are twins. -/
inductive RecordOp.Twin (vouches : Option String → Prop) : RecordOp → RecordOp → Prop
  | mergeOver {a a' : PlatformInfo} : Mise.Twin vouches a a' → Twin vouches (.mergeOver a) (.mergeOver a')
  | mergeUnder {a a' : PlatformInfo} :
    Mise.Twin vouches a a' → Twin vouches (.mergeUnder a) (.mergeUnder a')
  | set {a a' : PlatformInfo} : Mise.Twin vouches a a' → Twin vouches (.set a) (.set a')

/-- One operation keeps records twins. -/
theorem Twin.run (hnone : vouches none)
    (hlink : ∀ c, ∀ d ∈ checksums, checksumChanged (some c) (some d) = false →
      vouches (some d) → vouches (some c)) (hspelled : ∀ c ∈ checksums, Spelled c)
    {r r' : PlatformInfo} {op op' : RecordOp} (hr : Twin vouches r r')
    (hop : op.Twin vouches op') (hcr : ∀ c, r.checksum = some c → c ∈ checksums)
    (hco : ∀ c, op.info.checksum = some c → c ∈ checksums) :
    Twin vouches (op.run r) (op'.run r') := by
  cases hop with
  | mergeOver ha =>
    exact ha.mergeWith hnone hlink hr (fun c hc => ⟨hco c hc, hspelled c (hco c hc)⟩) hcr
  | mergeUnder ha =>
    exact hr.mergeWith hnone hlink ha (fun c hc => ⟨hcr c hc, hspelled c (hcr c hc)⟩) hco
  | @set a a' ha =>
    have hover := ha.recordOver hnone hlink hr hco hcr
    have hempty : (a'.recordOver r').isEmpty = (a.recordOver r).isEmpty := by
      cases hc : (a.recordOver r).checksum with
      | none => rw [hover.2 (hc ▸ hnone)]
      | some c =>
        obtain ⟨⟨p, v, heq⟩, -⟩ := hover
        rw [heq]
        simp [PlatformInfo.isEmpty, hc]
    show Twin vouches (if _ then _ else _) (if _ then _ else _)
    rw [hempty]
    split
    · exact hr
    · exact hover

theorem Twin.runRecord (hnone : vouches none)
    (hlink : ∀ c, ∀ d ∈ checksums, checksumChanged (some c) (some d) = false →
      vouches (some d) → vouches (some c)) (hspelled : ∀ c ∈ checksums, Spelled c)
    {start start' : PlatformInfo} {ops ops' : List RecordOp} (hstart : Twin vouches start start')
    (hops : List.Forall₂ (RecordOp.Twin vouches) ops ops')
    (hinputs : ∀ i ∈ inputs start ops, ∀ c, i.checksum = some c → c ∈ checksums) :
    Twin vouches (runRecord start ops) (runRecord start' ops') := by
  induction hops generalizing start start' with
  | nil => exact hstart
  | @cons op op' ops ops' hop _ ih =>
    have hcs := hinputs start (List.mem_cons_self ..)
    have hco := hinputs op.info (List.mem_cons_of_mem _ (List.mem_cons_self ..))
    refine ih (hstart.run hnone hlink hspelled hop hcs hco) fun i hi c hc => ?_
    rcases List.mem_cons.1 hi with rfl | hi
    · exact (checksum_run op start).elim (fun h => hcs c (h ▸ hc)) fun h => hco c (h ▸ hc)
    · exact hinputs i (List.mem_cons_of_mem _ (List.mem_cons_of_mem _ hi)) c hc

end Vouching

/-- The checksums of some records. -/
def checksumsOf (records : List PlatformInfo) : List String := records.filterMap (·.checksum)

/-- **Provenance reaches the result of a run along checksums only**: the result is the
same if provenance is changed that was recorded with checksums which do not lead to
the result's. -/
theorem runRecord_eq_of_twin {start start' : PlatformInfo} {ops ops' : List RecordOp}
    (hspelled : ∀ c ∈ checksumsOf (inputs start ops), Spelled c)
    (hstart : Twin (fun c => ∀ x, c = some x → ∀ y, (runRecord start ops).checksum = some y →
      Linked (checksumsOf (inputs start ops)) x y) start start')
    (hops : List.Forall₂ (RecordOp.Twin fun c => ∀ x, c = some x → ∀ y,
      (runRecord start ops).checksum = some y → Linked (checksumsOf (inputs start ops)) x y)
      ops ops') :
    runRecord start' ops' = runRecord start ops := by
  refine (hstart.runRecord nofun ?_ hspelled hops fun i hi c hc =>
    List.mem_filterMap.2 ⟨i, hi, hc⟩).2 ?_
  · intro c d hd hsame hv x hx y hy
    obtain rfl := Option.some.inj hx
    exact .head ⟨hd, hsame⟩ (hv d rfl y hy)
  · intro x hx y hy
    obtain rfl := Option.some.inj (hx.symm.trans hy)
    exact .refl

/-- The checksum names the algorithm. -/
def OfAlgorithm (algo : List Char) (c : String) : Prop :=
  ∃ hash, splitOnce ':' c.toList = some (algo, hash)

/-- Bytes that are the same as those of one checksum of an algorithm are the same as
those of the next. -/
theorem not_changed_trans {algo : List Char} {c d y : String} (hd : OfAlgorithm algo d)
    (hy : OfAlgorithm algo y) (hcd : checksumChanged (some c) (some d) = false)
    (hdy : checksumChanged (some d) (some y) = false) :
    checksumChanged (some c) (some y) = false := by
  obtain ⟨hash, hd⟩ := hd
  obtain ⟨hash', hy⟩ := hy
  unfold checksumChanged at hcd hdy ⊢
  simp only [Option.bind_some, hd, hy] at hcd hdy ⊢
  have halike : eqIgnoreAsciiCase algo algo = true := decide_eq_true rfl
  rw [halike, Bool.true_and, Bool.not_eq_false'] at hdy
  have hdy : hash.map Char.toLower = hash'.map Char.toLower := of_decide_eq_true hdy
  cases hc : splitOnce ':' c.toList with
  | none => rfl
  | some p =>
    rw [hc] at hcd
    simp only [eqIgnoreAsciiCase, hdy] at hcd ⊢
    exact hcd

/-- The checksum of a result is that of an input. -/
theorem checksum_runRecord {start : PlatformInfo} {ops : List RecordOp} {c : String}
    (h : (runRecord start ops).checksum = some c) : c ∈ checksumsOf (inputs start ops) := by
  refine runRecord_induction (P := fun r => ∀ c, r.checksum = some c →
    c ∈ checksumsOf (inputs start ops)) ?_ ?_
    (fun i hi c hc => List.mem_filterMap.2 ⟨i, hi, hc⟩) c h
  · exact fun a b ha hb c hc =>
      (checksum_mergeWith a b).elim (fun h => ha c (h ▸ hc)) fun h => hb c (h ▸ hc)
  · exact fun a b ha hb c hc =>
      (checksum_recordOver a b).elim (fun h => ha c (h ▸ hc)) fun h => hb c (h ▸ hc)

/-- **With one algorithm, provenance stays with its bytes**: the result of a run is the
same if provenance is changed that was recorded with a checksum of other bytes. -/
theorem runRecord_eq_of_algorithm {algo : List Char} {start start' : PlatformInfo}
    {ops ops' : List RecordOp}
    (halgo : ∀ c ∈ checksumsOf (inputs start ops), Spelled c ∧ OfAlgorithm algo c)
    (hstart : Twin (fun c => checksumChanged c (runRecord start ops).checksum = false)
      start start')
    (hops : List.Forall₂ (RecordOp.Twin fun c =>
      checksumChanged c (runRecord start ops).checksum = false) ops ops') :
    runRecord start' ops' = runRecord start ops := by
  refine (hstart.runRecord (checksumChanged_none_left _) (fun c d hd hsame hv => ?_)
    (fun c hc => (halgo c hc).1) hops fun i hi c hc =>
      List.mem_filterMap.2 ⟨i, hi, hc⟩).2 (checksumChanged_self _)
  cases hy : (runRecord start ops).checksum with
  | none => exact checksumChanged_none_right _
  | some y =>
    rw [hy] at hv
    exact not_changed_trans (halgo d hd).2 (halgo y (checksum_runRecord hy)).2 hsame hv

/-! ### The two merges side by side -/

/-- The fields that describe an artifact agree. -/
structure SameArtifact (a b : PlatformInfo) : Prop where
  checksum : a.checksum = b.checksum
  checksumSource : a.checksumSource = b.checksumSource
  size : a.size = b.size
  urlApi : a.urlApi = b.urlApi
  provenance : a.provenance = b.provenance
  provenanceVerified : a.provenanceVerified = b.provenanceVerified
  additionalArtifacts : a.additionalArtifacts = b.additionalArtifacts

/-- The fields that the merges are to agree on. -/
structure SameRelease (a b : PlatformInfo) : Prop where
  checksumSource : a.checksumSource = b.checksumSource
  provenance : a.provenance = b.provenance
  signer : a.signer = b.signer
  attestedBy : a.attestedBy = b.attestedBy
  repositoryId : a.repositoryId = b.repositoryId
  repositoryOwnerId : a.repositoryOwnerId = b.repositoryOwnerId

section Sides

variable {new old : PlatformInfo}

/-- Other URLs are other artifacts. -/
theorem sameArtifact_mergeWith (hnew : new.url.isSome) (hold : old.url.isSome)
    (hne : new.url ≠ old.url) : SameArtifact (new.mergeWith old) new := by
  have hchanged : new.artifactChanged old = true := by
    rw [PlatformInfo.artifactChanged, hnew, hold, decide_eq_true hne]
    rfl
  rw [PlatformInfo.mergeWith_of_changed hchanged]
  exact ⟨rfl, rfl, rfl, rfl, rfl, rfl, rfl⟩

theorem sameArtifact_recordOver (hnew : new.url.isSome) (hold : old.url.isSome)
    (hne : new.url ≠ old.url) :
    SameArtifact (new.recordOver old) { new with
      checksumSource := if new.checksum.isSome then new.checksumSource else none } := by
  have hpreserves : new.preserves old = false := by
    rw [PlatformInfo.preserves, hnew, hold, decide_eq_true hne]
    rfl
  have hrecorded : PlatformInfo.recordedChecksum false new old =
      (new.checksum, if new.checksum.isSome then new.checksumSource else none) := by
    unfold PlatformInfo.recordedChecksum
    cases new.checksum with
    | none => rfl
    | some c =>
      cases sameChecksumSource (some c) new.checksumSource old.checksum old.checksumSource <;> rfl
  rw [PlatformInfo.recordOver_eq, hpreserves, hrecorded]
  exact ⟨rfl, rfl, Option.or_none, Option.or_none, rfl, rfl, rfl⟩

/-- One merge does not carry old provenance to other bytes. -/
theorem provenance_mergeWith
    (h : checksumChanged old.checksum (new.mergeWith old).checksum = true) :
    (new.mergeWith old).provenance = new.provenance := by
  cases hchanged : new.artifactChanged old with
  | true => rw [PlatformInfo.mergeWith_of_changed hchanged]
  | false =>
    rw [PlatformInfo.mergeWith_of_same hchanged] at h ⊢
    rcases keptChecksum_fst new.checksum old.checksum new.checksumSource old.checksumSource with
      hkept | ⟨hkept, -⟩
    · have hother : checksumChanged old.checksum new.checksum = true := hkept ▸ h
      show (keptProvenance _ _ _ _).1 = _
      rw [keptProvenance, if_pos hother]
    · have hself : checksumChanged old.checksum (keptChecksum new.checksum new.checksumSource
        old.checksum old.checksumSource).1 = true := h
      rw [hkept, checksumChanged_self] at hself
      exact absurd hself Bool.false_ne_true

theorem provenance_recordOver
    (h : checksumChanged old.checksum (new.recordOver old).checksum = true) :
    (new.recordOver old).provenance = new.provenance := by
  rw [PlatformInfo.recordOver_eq] at h ⊢
  show (if _ then (keptProvenance _ _ _ _).1 else _) = _
  split
  · rcases PlatformInfo.recordedChecksum_fst (new.preserves old) new old with hkept | ⟨hkept, hnone⟩
    · have hother : checksumChanged old.checksum new.checksum = true := hkept ▸ h
      rw [keptProvenance, if_pos hother]
    · have hself : checksumChanged old.checksum
        (PlatformInfo.recordedChecksum (new.preserves old) new old).1 = true := h
      rw [hkept, checksumChanged_self] at hself
      exact absurd hself Bool.false_ne_true
  · rfl

/-- Both merges see the same changes of artifact, but for two source builds with a URL. -/
theorem preserves_eq (hsource : new.url.isSome → new.install = some "source" →
    old.install ≠ some "source") : new.preserves old = !new.artifactChanged old := by
  unfold PlatformInfo.preserves PlatformInfo.artifactChanged
  cases hi : new.install with
  | none => simp
  | some i =>
    by_cases ho : old.install = some "source"
    · by_cases hs : i = "source"
      · have hurl : new.url = none := by
          cases hu : new.url with
          | none => rfl
          | some u => exact absurd ho (hsource (by rw [hu]; rfl) (by rw [hi, hs]))
        simp [hurl]
      · have hne : some i ≠ old.install := fun h => hs (Option.some.inj (h.trans ho))
        simp [hne]
    · simp [ho]

/-- **The two merges agree** where the old record has no checksum, or the new one's. -/
theorem sameRelease_recordOver (hnew : new.checksum.isSome)
    (hold : old.checksum = none ∨ old.checksum = new.checksum)
    (hsource : new.url.isSome → new.install = some "source" → old.install ≠ some "source") :
    SameRelease (new.mergeWith old) (new.recordOver old) := by
  obtain ⟨c, hc⟩ := Option.isSome_iff_exists.1 hnew
  have hpreserves := preserves_eq hsource
  have hrecorded : ∀ p, (PlatformInfo.recordedChecksum p new old).2 =
      ((sameChecksumSource new.checksum new.checksumSource old.checksum
        old.checksumSource).filter fun _ => p).getD new.checksumSource := by
    intro p
    rw [PlatformInfo.recordedChecksum, if_pos hnew]
  rw [PlatformInfo.recordOver_eq, hpreserves]
  cases hchanged : new.artifactChanged old with
  | true =>
    rw [PlatformInfo.mergeWith_of_changed hchanged]
    refine ⟨?_, rfl, rfl, rfl, rfl, rfl⟩
    show new.checksumSource = (PlatformInfo.recordedChecksum false new old).2
    rw [hrecorded]
    cases sameChecksumSource new.checksum new.checksumSource old.checksum old.checksumSource <;> rfl
  | false =>
    rw [PlatformInfo.mergeWith_of_same hchanged]
    refine ⟨?_, rfl, rfl, rfl, rfl, rfl⟩
    show (keptChecksum _ _ _ _).2 = (PlatformInfo.recordedChecksum true new old).2
    rw [hrecorded, hc]
    rcases hold with hold | hold
    · rw [hold]
      rfl
    · rw [hold, hc, keptChecksum_same]
      simp [sameChecksumSource, Option.filter]

end Sides

/-- **Records of a platform stay coherent.**

* Where both URLs are known and differ, every field that describes an artifact is
  the new record's.
* A checksum counts as confirmed after a run only where an input confirmed it.
* Old provenance is not carried to other bytes by one merge.  A run carries it only
  along checksums that lead to the result's (`Linked`), and with checksums of one
  algorithm not to other bytes at all.
* Merging the same old record in again changes nothing, and the two merges agree on
  a checksum's source, provenance and who signed, unless both records are source
  builds. -/
theorem record_coherence :
    (∀ new old : PlatformInfo, new.url.isSome → old.url.isSome → new.url ≠ old.url →
      SameArtifact (new.mergeWith old) new ∧ SameArtifact (new.recordOver old)
        { new with checksumSource := if new.checksum.isSome then new.checksumSource else none }) ∧
    (∀ start ops c, (runRecord start ops).pinChecksum = some c →
      ∃ i ∈ inputs start ops, i.checksum = some c ∧ i.checksumSource = none) ∧
    (∀ new old : PlatformInfo,
      (checksumChanged old.checksum (new.mergeWith old).checksum = true →
        (new.mergeWith old).provenance = new.provenance) ∧
      (checksumChanged old.checksum (new.recordOver old).checksum = true →
        (new.recordOver old).provenance = new.provenance)) ∧
    (∀ start start' ops ops', (∀ c ∈ checksumsOf (inputs start ops), Spelled c) →
      let leads := fun c => ∀ x, c = some x → ∀ y, (runRecord start ops).checksum = some y →
        Linked (checksumsOf (inputs start ops)) x y
      Twin leads start start' → List.Forall₂ (RecordOp.Twin leads) ops ops' →
        runRecord start' ops' = runRecord start ops) ∧
    (∀ algo start start' ops ops',
      (∀ c ∈ checksumsOf (inputs start ops), Spelled c ∧ OfAlgorithm algo c) →
      let same := fun c => checksumChanged c (runRecord start ops).checksum = false
      Twin same start start' → List.Forall₂ (RecordOp.Twin same) ops ops' →
        runRecord start' ops' = runRecord start ops) ∧
    (∀ new old : PlatformInfo, new.Regular → old.Regular →
      (new.mergeWith old).mergeWith old = new.mergeWith old ∧
      (new.recordOver old).recordOver old = new.recordOver old) ∧
    ∀ new old : PlatformInfo, new.checksum.isSome →
      old.checksum = none ∨ old.checksum = new.checksum →
      (new.url.isSome → new.install = some "source" → old.install ≠ some "source") →
        SameRelease (new.mergeWith old) (new.recordOver old) :=
  ⟨fun _ _ hnew hold hne => ⟨sameArtifact_mergeWith hnew hold hne,
      sameArtifact_recordOver hnew hold hne⟩,
    fun _ _ _ => pinChecksum_runRecord,
    fun _ _ => ⟨provenance_mergeWith, provenance_recordOver⟩,
    fun _ _ _ _ => runRecord_eq_of_twin,
    fun _ _ _ _ _ => runRecord_eq_of_algorithm,
    fun _ _ hnew hold => ⟨PlatformInfo.mergeWith_idem hnew hold,
      PlatformInfo.recordOver_idem hnew hold⟩,
    fun _ _ => sameRelease_recordOver⟩

/-- A checksum that the release metadata names, and that a download confirmed. -/
theorem record_coherence_confirmed :
    ∃ i ∈ inputs { checksum := some "sha256:aa", checksumSource := some .versionsHost }
      [.set { checksum := some "sha256:aa" }],
      i.checksum = some "sha256:aa" ∧ i.checksumSource = none :=
  record_coherence.2.1 { checksum := some "sha256:aa", checksumSource := some .versionsHost }
    [.set { checksum := some "sha256:aa" }] "sha256:aa" (by decide)

/-- Digests of two algorithms cannot be compared, so provenance passes from one blake3
digest to another by way of a sha256 one. -/
theorem provenance_of_other_bytes :
    (runRecord { checksum := some "blake3:aa", provenance := some .githubAttestations }
      [.set { checksum := some "sha256:bb" }, .set { checksum := some "blake3:cc" }]).provenance =
      some .githubAttestations ∧
    (runRecord { checksum := some "blake3:aa", provenance := some .githubAttestations }
      [.set { checksum := some "sha256:bb" }, .set { checksum := some "blake3:cc" }]).checksum =
      some "blake3:cc" ∧
    checksumChanged (some "blake3:aa") (some "blake3:cc") = true := by
  decide

end Mise
