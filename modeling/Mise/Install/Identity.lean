/-
# Installation identity

`src/install_layout/identity.rs`: the canonical bytes of an identity, which are
hashed to name an installation.  Every text is written with its length and
every map with its size, so that the bytes determine the identity
(`canonical_bytes_injective`).

A Rust string or map holds at most `isize::MAX` bytes or entries, which is why
their sizes fit the eight bytes they are written in.
-/

import Mise.Lib.Framing
import Mathlib.Tactic.NormNum

namespace Mise.Install

open Lib

/-! ### Texts and maps -/

/-- What a size of memory is below: `isize::MAX + 1`. -/
def sizeBound : ℕ := 2 ^ 63

/-- A `String`. -/
structure Text where
  val : String
  bound : val.utf8ByteSize < sizeBound
  deriving DecidableEq

/-- The text's bytes. -/
def Text.asBytes (t : Text) : List UInt8 := t.val.toByteArray.data.toList

/-- A `BTreeMap<String, String>`, in the order of its keys. -/
structure TextMap where
  entries : List (Text × Text)
  sorted : entries.Pairwise fun a b => a.1.val < b.1.val
  bound : entries.length < sizeBound
  deriving DecidableEq

theorem Text.asBytes_injective : Function.Injective Text.asBytes := by
  rintro ⟨a, ha⟩ ⟨b, hb⟩ hab
  obtain rfl : a = b := by
    rw [← String.toByteArray_inj]
    exact ByteArray.ext (Array.ext' hab)
  rfl

/-! ### The encoding -/

/-- `Mode`. -/
inductive Mode where
  | resolved
  | fallback
  deriving DecidableEq, Repr

/-- `Mode::tag`. -/
def Mode.tag : Mode → Text
  | .resolved => ⟨"resolved", by decide⟩
  | .fallback => ⟨"fallback", by decide⟩

/-- `InstallIdentity`. -/
structure InstallIdentity where
  mode : Mode
  backend : Text
  version : Text
  platform : Text
  options : TextMap
  inputs : TextMap
  deriving DecidableEq

/-- `IDENTITY_FORMAT`. -/
def identityFormat : ℕ := 1

/-- `DOMAIN`. -/
def domain : List UInt8 := "mise-install-identity\x00".toByteArray.data.toList

/-- What `field` appends. -/
def field (tag : Char) (value : Text) : List UInt8 :=
  UInt8.ofNat tag.toNat :: (leBytes 8 value.asBytes.length ++ value.asBytes)

/-- What `map` appends. -/
def map (tag : Char) (entries : TextMap) : List UInt8 :=
  UInt8.ofNat tag.toNat :: (leBytes 8 entries.entries.length ++
    entries.entries.flatMap fun e => field 'k' e.1 ++ field 'x' e.2)

namespace InstallIdentity

/-- `canonical_bytes`. -/
def canonicalBytes (i : InstallIdentity) : List UInt8 :=
  domain ++ leBytes 4 identityFormat ++ field 'm' i.mode.tag ++ field 'b' i.backend ++
    field 'v' i.version ++ field 'p' i.platform ++ map 'o' i.options ++ map 'i' i.inputs

/-- `digest`, for a hash function. -/
def digest {δ : Type} (hash : List UInt8 → δ) (i : InstallIdentity) : δ := hash i.canonicalBytes

end InstallIdentity

/-! ### Injectivity -/

/-- The lengths of texts and maps fit eight bytes. -/
theorem selfDelimiting_size : SelfDelimiting fun n : Fin sizeBound => leBytes 8 n :=
  selfDelimiting_leBytes (by norm_num [sizeBound])

theorem selfDelimiting_field (tag : Char) : SelfDelimiting (field tag) := by
  have hbytes : SelfDelimiting fun b : UInt8 => [b] :=
    .of_length 1 (fun _ => rfl) fun a b hab => List.singleton_inj.1 hab
  have hcounted := (hbytes.counted selfDelimiting_size).const_append [UInt8.ofNat tag.toNat]
  have hread := hcounted.comp (f := fun t : Text => ⟨t.asBytes, t.bound⟩) fun a b hab =>
    Text.asBytes_injective (Subtype.mk.inj hab)
  simp only [List.flatMap_singleton', List.singleton_append] at hread
  exact hread

theorem selfDelimiting_map (tag : Char) : SelfDelimiting (map tag) := by
  have hentry := (selfDelimiting_field 'k').append (selfDelimiting_field 'x')
  have hcounted := (hentry.counted selfDelimiting_size).const_append [UInt8.ofNat tag.toNat]
  refine hcounted.comp (f := fun m : TextMap => ⟨m.entries, m.bound⟩) ?_
  rintro ⟨a, ha, ha'⟩ ⟨b, hb, hb'⟩ hab
  obtain rfl := Subtype.mk.inj hab
  rfl

theorem Mode.tag_injective : Function.Injective Mode.tag := by
  intro a b hab
  cases a <;> cases b <;> first | rfl | exact absurd hab (by decide)

/-- **The canonical bytes determine the identity**, so that two identities share
a digest only where the hash function collides. -/
theorem canonical_bytes_injective : Function.Injective InstallIdentity.canonicalBytes ∧
    ∀ {δ : Type} (hash : List UInt8 → δ) (a b : InstallIdentity), a ≠ b →
      a.digest hash = b.digest hash →
        a.canonicalBytes ≠ b.canonicalBytes ∧ hash a.canonicalBytes = hash b.canonicalBytes := by
  have hinj : Function.Injective InstallIdentity.canonicalBytes := by
    rintro ⟨m, b, v, p, o, i⟩ ⟨m', b', v', p', o', i'⟩ heq
    simp only [InstallIdentity.canonicalBytes, List.append_assoc, List.append_cancel_left_eq] at heq
    obtain ⟨hmode, hafterMode⟩ := selfDelimiting_field 'm' _ _ _ _ heq
    obtain ⟨hbackend, hafterBackend⟩ := selfDelimiting_field 'b' _ _ _ _ hafterMode
    obtain ⟨hversion, hafterVersion⟩ := selfDelimiting_field 'v' _ _ _ _ hafterBackend
    obtain ⟨hplatform, hafterPlatform⟩ := selfDelimiting_field 'p' _ _ _ _ hafterVersion
    obtain ⟨hoptions, hinputs⟩ := selfDelimiting_map 'o' _ _ _ _ hafterPlatform
    rw [Mode.tag_injective hmode, hbackend, hversion, hplatform, hoptions,
      (selfDelimiting_map 'i').injective hinputs]
  refine ⟨hinj, fun hash a b hne hdigest => ⟨fun heq => hne (hinj heq), hdigest⟩⟩

end Mise.Install
