/-
# Labels and records

`src/install_layout/label.rs` and `record.rs`: the readable half of a directory
name, and what the catalog and the receipts say about an installation.  The
names the catalog makes are plain (`isPlainDirName_dirName`), so that a record
with such a name is consistent (`isConsistent_new`), and the digest of a
consistent record is the text of its identity's (`digest_of_isConsistent`).
-/

import Mise.Install.Digest
import Mise.Install.Identity
import Mise.Lib.BTreeMap
import Mise.Text

namespace Mise.Install

open Lib

/-- What the code takes from outside: the BLAKE3 hash and the lowercase
mapping of Unicode. -/
structure Externals where
  blake3 : List UInt8 → Digest
  toLowercase : List Char → List Char

/-! ### Labels -/

/-- `MAX_LABEL_CHARS`. -/
def maxLabelChars : ℕ := 24

/-- `is_go_major_version`. -/
def isGoMajorVersion : List Char → Bool
  | 'v' :: n => !n.isEmpty && n.all Char.isDigit
  | _ => false

/-- The characters a label is made of. -/
def isLabelChar (c : Char) : Bool :=
  ('a' ≤ c && c ≤ 'z') || ('0' ≤ c && c ≤ '9') || c == '.' || c == '_' || c == '-'

/-- The segment of the backend's name that `label_for` takes. -/
def labelSegment (backend : List Char) : List Char :=
  let name := backend.takeWhile (· ≠ '[')
  let name := match splitOnce ':' name with
    | some (start, rest) => if '/' ∈ start then name else rest
    | none => name
  let name := (name.dropSuffix? ".git".toList).getD name
  let segment := ((name.splitOn '/').reverse.find? fun s =>
    !s.isEmpty && !isGoMajorVersion s).getD []
  match segment.idxOf? '@' with
  | some i => if 0 < i then segment.take i else segment
  | none => segment

/-- `label_for`. -/
def labelFor (sys : Externals) (backend : String) : String :=
  let segment := (labelSegment backend.toList).dropWhile (· = '@')
  let label := (((sys.toLowercase segment).map fun c => if isLabelChar c then c else '-').dropWhile
    (· = '.')).take maxLabelChars
  if label.isEmpty then "tool" else String.ofList label

/-! ### Records -/

/-- `IDENTITY_ALGORITHM`. -/
def identityAlgorithm : String := "blake3"

/-- `Provenance`. -/
structure Provenance where
  artifacts : BTreeMap String String
  pinnedBy : List String
  generation : ℕ

/-- `Provenance::default`. -/
def Provenance.default : Provenance := ⟨∅, [], 0⟩

/-- `IdentityRecord`. -/
structure IdentityRecord where
  format : ℕ
  algorithm : String
  digest : String
  dir : String
  identity : InstallIdentity
  provenance : Provenance

/-- `Receipt`. -/
structure Receipt where
  record : IdentityRecord
  requestedAs : Option String
  miseVersion : Option String

/-- `Selection`. -/
structure Selection where
  request : InstallIdentity
  selected : String
  root : Option String

/-- `is_plain_dir_name`. -/
def isPlainDirName (name : String) : Bool :=
  !name.isEmpty && name != "." && name != ".." && !startsWith name "." &&
    !name.toList.any fun c => c ∈ ['/', '\\', ':', '\x00']

/-- The text of an identity's digest. -/
def InstallIdentity.digestText (sys : Externals) (i : InstallIdentity) : String :=
  (i.digest sys.blake3).toBase32

/-- `IdentityRecord::new`. -/
def IdentityRecord.new (sys : Externals) (identity : InstallIdentity) (dir : String) :
    IdentityRecord where
  format := identityFormat
  algorithm := identityAlgorithm
  digest := identity.digestText sys
  dir := dir
  identity := identity
  provenance := .default

/-- `IdentityRecord::is_consistent`. -/
def IdentityRecord.isConsistent (sys : Externals) (r : IdentityRecord) : Bool :=
  r.format == identityFormat && r.algorithm == identityAlgorithm &&
    Digest.fromBase32 r.digest == some (r.identity.digest sys.blake3) && isPlainDirName r.dir

/-- The directory name `<label>-<hash>`, with the first `len` characters of the
digest. -/
def dirName (sys : Externals) (backend digest : String) (len : ℕ) : String :=
  labelFor sys backend ++ "-" ++ String.ofList (digest.toList.take len)

/-! ### Plain names -/

/-- The characters a label is made of, and those a digest is written with, are
neither separators nor white space. -/
def isPlainChar (c : Char) : Bool := c ∉ ['/', '\\', ':', '\x00'] && !isWhitespace c

theorem isPlainChar_of_isLabelChar {c : Char} (h : isLabelChar c = true) :
    isPlainChar c = true := by
  have hall : ∀ n : Fin 128, isLabelChar (Char.ofNat n) = true →
      isPlainChar (Char.ofNat n) = true := by decide
  have hsmall : c.toNat < 128 := by
    simp only [isLabelChar, Bool.or_eq_true, Bool.and_eq_true, decide_eq_true_eq, beq_iff_eq] at h
    rcases h with (((⟨-, h⟩ | ⟨-, h⟩) | rfl) | rfl) | rfl
    · exact lt_of_le_of_lt (show c.toNat ≤ 'z'.toNat from h) (by decide)
    · exact lt_of_le_of_lt (show c.toNat ≤ '9'.toNat from h) (by decide)
    all_goals decide
  have := hall ⟨c.toNat, hsmall⟩
  rw [Char.ofNat_toNat] at this
  exact this h

theorem mem_digestText {sys : Externals} {i : InstallIdentity} {c : Char}
    (h : c ∈ (i.digestText sys).toList) : isPlainChar c = true := by
  have hall : ∀ x : Fin 32, isPlainChar (symbol x) = true := by decide
  obtain ⟨ds, htext, -, hds, -⟩ := toBase32_spec (i.digest sys.blake3)
  rw [InstallIdentity.digestText, htext, String.toList_ofList] at h
  obtain ⟨x, hx, rfl⟩ := List.mem_map.1 h
  exact hall ⟨x, hds x hx⟩

/-- A label has a first character, which is no dot, and plain characters only. -/
theorem labelFor_spec (sys : Externals) (backend : String) :
    ∃ c cs, (labelFor sys backend).toList = c :: cs ∧ c ≠ '.' ∧
      ∀ x ∈ c :: cs, isPlainChar x = true := by
  rw [labelFor]
  split
  · exact ⟨'t', ['o', 'o', 'l'], rfl, by decide, List.all_eq_true.1 (by decide)⟩
  · case isFalse hlabel =>
    have hplain : ∀ x ∈ ((sys.toLowercase ((labelSegment backend.toList).dropWhile (· = '@'))).map
        fun c => if isLabelChar c then c else '-').dropWhile (· = '.'), isPlainChar x = true := by
      intro x hx
      obtain ⟨c, -, rfl⟩ := List.mem_map.1 ((List.dropWhile_suffix _).subset hx)
      split
      · case isTrue hc => exact isPlainChar_of_isLabelChar hc
      · decide
    rw [String.toList_ofList]
    revert hlabel hplain
    cases hrest : ((sys.toLowercase ((labelSegment backend.toList).dropWhile (· = '@'))).map
        fun c => if isLabelChar c then c else '-').dropWhile (· = '.') with
    | nil => exact fun hlabel => absurd rfl hlabel
    | cons c cs =>
      intro hlabel hplain
      refine ⟨c, cs.take 23, rfl, ?_, ?_⟩
      · have hhead := List.head?_dropWhile_not (fun x : Char => decide (x = '.'))
          ((sys.toLowercase ((labelSegment backend.toList).dropWhile (· = '@'))).map
            fun c => if isLabelChar c then c else '-')
        rw [hrest] at hhead
        simpa using hhead
      · intro x hx
        exact hplain x ((List.take_prefix 24 (c :: cs)).subset hx)

theorem isPlainDirName_of_cons {name : String} {c : Char} {cs : List Char}
    (hname : name.toList = c :: cs) (hc : c ≠ '.') (hplain : ∀ x ∈ c :: cs, isPlainChar x = true) :
    isPlainDirName name = true := by
  have hne : ∀ s : String, s.toList.head? = some '.' → name ≠ s := by
    rintro s hs rfl
    rw [hname] at hs
    exact hc (Option.some.inj hs)
  have hempty : name.isEmpty = false := by
    cases hname' : name.isEmpty with
    | false => rfl
    | true =>
      rw [String.isEmpty_iff.1 hname'] at hname
      exact absurd hname (List.cons_ne_nil c cs).symm
  have hdot : startsWith name "." = false := by
    rw [startsWith, hname]
    show ('.' == c && List.isPrefixOf [] cs) = false
    rw [beq_eq_false_iff_ne.2 hc.symm, Bool.false_and]
  have hseparators : (name.toList.any fun x => x ∈ ['/', '\\', ':', '\x00']) = false := by
    rw [List.any_eq_false, hname]
    intro x hx
    have := hplain x hx
    simp only [isPlainChar, Bool.and_eq_true, decide_eq_true_eq] at this
    simpa using this.1
  rw [isPlainDirName, hempty, hdot, hseparators, bne_iff_ne.2 (hne "." rfl),
    bne_iff_ne.2 (hne ".." rfl)]
  rfl

/-- The names the catalog makes are plain. -/
theorem isPlainDirName_dirName (sys : Externals) (backend : String) (i : InstallIdentity)
    (len : ℕ) : isPlainDirName (dirName sys backend (i.digestText sys) len) = true := by
  obtain ⟨c, cs, hlabel, hc, hplain⟩ := labelFor_spec sys backend
  have hname : (dirName sys backend (i.digestText sys) len).toList =
      c :: (cs ++ '-' :: (i.digestText sys).toList.take len) := by
    rw [dirName, String.toList_append, String.toList_append, String.toList_ofList, hlabel]
    simp
  refine isPlainDirName_of_cons hname hc fun x hx => ?_
  rw [← List.cons_append] at hx
  rcases List.mem_append.1 hx with hx | hx
  · exact hplain x hx
  · rcases List.mem_cons.1 hx with rfl | hx
    · decide
    · exact mem_digestText (List.mem_of_mem_take hx)

/-- White space is trimmed from no digest. -/
theorem trim_digestText (sys : Externals) (i : InstallIdentity) :
    trim (i.digestText sys) = i.digestText sys := by
  have hkeep : ∀ cs : List Char, (∀ c ∈ cs, isPlainChar c = true) →
      cs.dropWhile isWhitespace = cs := by
    intro cs hcs
    cases cs with
    | nil => rfl
    | cons c cs =>
      have := hcs c List.mem_cons_self
      simp only [isPlainChar, Bool.and_eq_true, Bool.not_eq_true'] at this
      rw [List.dropWhile_cons_of_neg (by rw [this.2]; exact Bool.false_ne_true)]
  have hplain : ∀ c ∈ (i.digestText sys).toList, isPlainChar c = true := fun c => mem_digestText
  rw [trim, hkeep _ hplain, hkeep _ fun c hc => hplain c (List.mem_reverse.1 hc),
    List.reverse_reverse, String.ofList_toList]

/-! ### Consistent records -/

/-- The digest of a consistent record is its identity's, in the one way to write
it. -/
theorem digest_of_isConsistent {sys : Externals} {r : IdentityRecord}
    (h : r.isConsistent sys = true) : r.digest = r.identity.digestText sys := by
  simp only [IdentityRecord.isConsistent, Bool.and_eq_true, beq_iff_eq] at h
  exact fromBase32_eq_some_iff.1 h.1.2

theorem isConsistent_new {sys : Externals} {i : InstallIdentity} {dir : String}
    (hdir : isPlainDirName dir = true) : (IdentityRecord.new sys i dir).isConsistent sys = true := by
  have hdigest : Digest.fromBase32 (i.digestText sys) = some (i.digest sys.blake3) :=
    fromBase32_eq_some_iff.2 rfl
  simp only [IdentityRecord.isConsistent, IdentityRecord.new, Bool.and_eq_true, beq_iff_eq, hdigest,
    hdir, and_self]

end Mise.Install
