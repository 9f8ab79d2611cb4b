/-
# Canonical bytes of TOML values

`hash_canonical_toml` in `src/lockfile.rs`: what it feeds to the hasher for a
value, every text and every number with its tag and its length, every array and
table with its size, and the entries of a table in the order of their keys.

The bytes of a value are read off the front of any text that starts with them
(`hashCanonicalToml_readOff`), up to the order of the keys, which they forget
(`Same.hashCanonicalToml_eq`). So the digests of graphs and the suffixes of
variants collide only where the hash function does.
-/

import Mathlib.Data.List.Forall2
import Mathlib.Data.List.Sort
import Mathlib.Data.String.Basic
import Mise.Lib.Framing
import Mise.Lockfile.Sidecar
import Mise.Toml

namespace Mise

open Lib

namespace TomlValue

/-! ### Values -/

/-- The values a `toml::Value` can hold: integers of 64 bits, sizes that fit a
`u64`, and tables that are maps. -/
inductive Valid : TomlValue → Prop
  | string {s : String} : s.utf8ByteSize < 2 ^ 64 → Valid (.string s)
  | integer {i : ℤ} : -2 ^ 63 ≤ i → i < 2 ^ 63 → Valid (.integer i)
  | float (bits : UInt64) : Valid (.float bits)
  | boolean (b : Bool) : Valid (.boolean b)
  | datetime {text : String} : text.utf8ByteSize < 2 ^ 64 → Valid (.datetime text)
  | array {items : List TomlValue} : items.length < 2 ^ 64 → (∀ v ∈ items, Valid v) →
    Valid (.array items)
  | table {entries : List (String × TomlValue)} : entries.length < 2 ^ 64 →
    (entries.map Prod.fst).Nodup → (∀ e ∈ entries, e.1.utf8ByteSize < 2 ^ 64) →
    (∀ e ∈ entries, Valid e.2) → Valid (.table entries)

/-- Equal up to the order of the keys of tables, at every depth. -/
inductive Same : TomlValue → TomlValue → Prop
  | string (s : String) : Same (.string s) (.string s)
  | integer (i : ℤ) : Same (.integer i) (.integer i)
  | float (bits : UInt64) : Same (.float bits) (.float bits)
  | boolean (b : Bool) : Same (.boolean b) (.boolean b)
  | datetime (text : String) : Same (.datetime text) (.datetime text)
  | array {items items' : List TomlValue} : List.Forall₂ Same items items' →
    Same (.array items) (.array items')
  | table {entries ordered entries' : List (String × TomlValue)} : entries.Perm ordered →
    ordered.map Prod.fst = entries'.map Prod.fst →
    List.Forall₂ Same (ordered.map Prod.snd) (entries'.map Prod.snd) →
    Same (.table entries) (.table entries')

/-- Induction over the parts of a value. -/
theorem parts_induction {P : TomlValue → Prop} (string : ∀ s, P (.string s))
    (integer : ∀ i, P (.integer i)) (float : ∀ bits, P (.float bits))
    (boolean : ∀ b, P (.boolean b)) (datetime : ∀ text, P (.datetime text))
    (array : ∀ items, (∀ v ∈ items, P v) → P (.array items))
    (table : ∀ entries, (∀ e ∈ entries, P e.2) → P (.table entries)) : ∀ v, P v
  | .string s => string s
  | .integer i => integer i
  | .float bits => float bits
  | .boolean b => boolean b
  | .datetime text => datetime text
  | .array items => array items fun v _ =>
    parts_induction string integer float boolean datetime array table v
  | .table entries => table entries fun e _ =>
    parts_induction string integer float boolean datetime array table e.2
termination_by v => sizeOf v
decreasing_by
  · rename_i hmem
    have hlt := List.sizeOf_lt_of_mem hmem
    rw [TomlValue.array.sizeOf_spec]
    omega
  · rename_i hmem
    have hlt := List.sizeOf_lt_of_mem hmem
    have hpair : sizeOf e = 1 + sizeOf e.1 + sizeOf e.2 := by cases e; rfl
    rw [TomlValue.table.sizeOf_spec]
    omega

/-! ### The bytes -/

/-- What `bytes` feeds to the hasher. -/
def taggedBytes (tag : Char) (value : List UInt8) : List UInt8 :=
  UInt8.ofNat tag.toNat :: Sidecar.lengthBytes value.length ++ value

mutual

/-- `hash_canonical_toml`: what it feeds to the hasher. -/
def hashCanonicalToml : TomlValue → List UInt8
  | .string value => taggedBytes 's' value.toUTF8.toList
  | .integer value => taggedBytes 'i' (Sidecar.lengthBytes (value % 2 ^ 64).toNat)
  | .float bits => taggedBytes 'f' (Sidecar.lengthBytes bits.toNat)
  | .boolean value => taggedBytes 'b' [if value then 1 else 0]
  | .datetime text => taggedBytes 'd' text.toUTF8.toList
  | .array values =>
    UInt8.ofNat 'a'.toNat :: Sidecar.lengthBytes values.length ++ (hashItems values).flatten
  | .table values =>
    UInt8.ofNat 't'.toNat :: Sidecar.lengthBytes values.length ++
      ((hashEntries values).insertionSort fun e f => e.1 ≤ f.1).flatMap fun e =>
        taggedBytes 'k' e.1.toUTF8.toList ++ e.2

/-- The bytes of an array's values. -/
def hashItems : List TomlValue → List (List UInt8)
  | [] => []
  | v :: values => hashCanonicalToml v :: hashItems values

/-- The bytes of a table's values, with their keys. -/
def hashEntries : List (String × TomlValue) → List (String × List UInt8)
  | [] => []
  | (key, v) :: entries => (key, hashCanonicalToml v) :: hashEntries entries

end

theorem hashItems_eq_map (values : List TomlValue) :
    hashItems values = values.map hashCanonicalToml := by
  induction values with
  | nil => rfl
  | cons v values ih => rw [hashItems, ih, List.map_cons]

theorem hashEntries_eq_map (entries : List (String × TomlValue)) :
    hashEntries entries = entries.map fun e => (e.1, hashCanonicalToml e.2) := by
  induction entries with
  | nil => rfl
  | cons e entries ih => rw [hashEntries, ih, List.map_cons]

/-! ### Reading the bytes off -/

/-- They are the little-endian bytes the other way round. -/
theorem lengthBytes_eq_reverse (n : ℕ) :
    Sidecar.lengthBytes n = (Lib.leBytes 8 n).reverse := by
  simp only [Sidecar.lengthBytes, Lib.leBytes, List.map_cons, List.map_nil, List.reverse_cons,
    List.reverse_nil, List.nil_append, List.cons_append, Nat.shiftRight_eq_div_pow,
    Nat.div_div_eq_div_mul]
  norm_num

theorem lengthBytes_injective {m n : ℕ} (hm : m < 2 ^ 64) (hn : n < 2 ^ 64)
    (h : Sidecar.lengthBytes m = Sidecar.lengthBytes n) : m = n := by
  rw [lengthBytes_eq_reverse, lengthBytes_eq_reverse, List.reverse_inj] at h
  have hpow : 256 ^ 8 = 2 ^ 64 := by norm_num
  exact Lib.leBytes_injective (hm.trans_eq hpow.symm) (hn.trans_eq hpow.symm) h

theorem length_lengthBytes (n : ℕ) : (Sidecar.lengthBytes n).length = 8 := rfl

theorem selfDelimiting_lengthBytes :
    SelfDelimiting fun n : Fin (2 ^ 64) => Sidecar.lengthBytes n :=
  .of_length 8 (fun n => length_lengthBytes n) fun a b hab =>
    Fin.ext (lengthBytes_injective a.2 b.2 hab)

/-- A text or a number with its tag and its length. -/
theorem taggedBytes_readOff (tag : Char) {a b r r' : List UInt8} (ha : a.length < 2 ^ 64)
    (hb : b.length < 2 ^ 64) (heq : taggedBytes tag a ++ r = taggedBytes tag b ++ r') :
    a = b ∧ r = r' := by
  have hbyte : SelfDelimiting fun b : UInt8 => [b] :=
    .of_length 1 (fun _ => rfl) fun a b hab => List.singleton_inj.1 hab
  have hcounted := (hbyte.counted selfDelimiting_lengthBytes).const_append
    [UInt8.ofNat tag.toNat]
  simp only [List.flatMap_singleton', List.singleton_append] at hcounted
  obtain ⟨hab, hr⟩ := hcounted ⟨a, ha⟩ ⟨b, hb⟩ r r' heq
  exact ⟨congrArg Subtype.val hab, hr⟩

/-- A size, and then what there are as many of. -/
theorem counted_readOff {tag : Char} {m n : ℕ} {r r' : List UInt8} (hm : m < 2 ^ 64)
    (hn : n < 2 ^ 64) (heq : UInt8.ofNat tag.toNat :: Sidecar.lengthBytes m ++ r =
      UInt8.ofNat tag.toNat :: Sidecar.lengthBytes n ++ r') : m = n ∧ r = r' := by
  rw [List.cons_append, List.cons_append] at heq
  obtain ⟨hmn, hr⟩ := selfDelimiting_lengthBytes ⟨m, hm⟩ ⟨n, hn⟩ r r' (List.cons.inj heq).2
  exact ⟨Fin.mk.inj hmn, hr⟩

/-- The tag of a value. -/
def tag : TomlValue → Char
  | .string _ => 's'
  | .integer _ => 'i'
  | .float _ => 'f'
  | .boolean _ => 'b'
  | .datetime _ => 'd'
  | .array _ => 'a'
  | .table _ => 't'

/-- The bytes start with the tag. -/
theorem head?_hashCanonicalToml (v : TomlValue) :
    (hashCanonicalToml v).head? = some (UInt8.ofNat v.tag.toNat) := by
  cases v with
  | _ => rw [hashCanonicalToml]; rfl

theorem tag_eq_of_append_eq {v w : TomlValue} {r r' : List UInt8}
    (h : hashCanonicalToml v ++ r = hashCanonicalToml w ++ r') : v.tag = w.tag := by
  have hhead := congrArg List.head? h
  rw [List.head?_append, List.head?_append, head?_hashCanonicalToml, head?_hashCanonicalToml]
    at hhead
  have hbyte := Option.some.inj hhead
  revert hbyte
  cases v <;> cases w <;> simp only [tag] <;> decide

/-- Entries match by their keys and by their values. -/
theorem forall₂_entries_iff {R : TomlValue → TomlValue → Prop}
    {l l' : List (String × TomlValue)} :
    List.Forall₂ (fun e f => e.1 = f.1 ∧ R e.2 f.2) l l' ↔
      l.map Prod.fst = l'.map Prod.fst ∧
        List.Forall₂ R (l.map Prod.snd) (l'.map Prod.snd) := by
  constructor
  · intro h
    induction h with
    | nil => exact ⟨rfl, .nil⟩
    | cons hef _ ih =>
      exact ⟨by rw [List.map_cons, List.map_cons, hef.1, ih.1], .cons hef.2 ih.2⟩
  · rintro ⟨hkeys, hvalues⟩
    induction l generalizing l' with
    | nil =>
      obtain rfl := List.map_eq_nil_iff.1 hkeys.symm
      exact .nil
    | cons e l ih =>
      cases l' with
      | nil => cases hkeys
      | cons f l' =>
        obtain ⟨hkey, hkeys⟩ := List.cons.inj hkeys
        obtain ⟨hvalue, hvalues⟩ := List.forall₂_cons.1 hvalues
        exact .cons ⟨hkey, hvalue⟩ (ih hkeys hvalues)

/-- The bytes of a table, its entries sorted before they are encoded. -/
theorem hashCanonicalToml_table (entries : List (String × TomlValue)) :
    hashCanonicalToml (.table entries) =
      UInt8.ofNat 't'.toNat :: Sidecar.lengthBytes entries.length ++
        (entries.insertionSort fun e f => e.1 ≤ f.1).flatMap fun e =>
          taggedBytes 'k' e.1.toUTF8.toList ++ hashCanonicalToml e.2 := by
  rw [hashCanonicalToml, hashEntries_eq_map, ← List.map_insertionSort
    (fun e f : String × TomlValue => e.1 ≤ f.1) (fun e f : String × List UInt8 => e.1 ≤ f.1)
    (fun e : String × TomlValue => (e.1, hashCanonicalToml e.2)) entries
    fun _ _ _ _ => Iff.rfl, List.flatMap_map]

/-- The bytes of a number, read back. -/
theorem toNat_emod_injective {i j : ℤ} (hi : -2 ^ 63 ≤ i ∧ i < 2 ^ 63)
    (hj : -2 ^ 63 ≤ j ∧ j < 2 ^ 63) (h : (i % 2 ^ 64).toNat = (j % 2 ^ 64).toNat) : i = j := by
  omega

/-- **The bytes of a value are read off the front of a text in one way**, up to
the order of its keys. -/
theorem hashCanonicalToml_readOff (v : TomlValue) : ∀ w, v.Valid → w.Valid → ∀ r r',
    hashCanonicalToml v ++ r = hashCanonicalToml w ++ r' → Same v w ∧ r = r' := by
  induction v using parts_induction with
  | string s =>
    intro w hv hw r r' heq
    have htag := tag_eq_of_append_eq heq
    cases w with
    | string t =>
      cases hv with | string hs =>
      cases hw with | string ht =>
      rw [hashCanonicalToml, hashCanonicalToml] at heq
      obtain ⟨hst, hr⟩ := taggedBytes_readOff 's' (by rwa [length_toUTF8]) (by rwa [length_toUTF8])
        heq
      exact ⟨toUTF8_injective hst ▸ .string s, hr⟩
    | _ => exact absurd htag (by simp [tag])
  | integer i =>
    intro w hv hw r r' heq
    have htag := tag_eq_of_append_eq heq
    cases w with
    | integer j =>
      cases hv with | integer hi hi' =>
      cases hw with | integer hj hj' =>
      rw [hashCanonicalToml, hashCanonicalToml] at heq
      obtain ⟨hij, hr⟩ := taggedBytes_readOff 'i' (by rw [length_lengthBytes]; decide)
        (by rw [length_lengthBytes]; decide) heq
      have hbits := lengthBytes_injective (by omega) (by omega) hij
      exact ⟨toNat_emod_injective ⟨hi, hi'⟩ ⟨hj, hj'⟩ hbits ▸ .integer i, hr⟩
    | _ => exact absurd htag (by simp [tag])
  | float bits =>
    intro w hv hw r r' heq
    have htag := tag_eq_of_append_eq heq
    cases w with
    | float bits' =>
      rw [hashCanonicalToml, hashCanonicalToml] at heq
      obtain ⟨hij, hr⟩ := taggedBytes_readOff 'f' (by rw [length_lengthBytes]; decide)
        (by rw [length_lengthBytes]; decide) heq
      have hbits := lengthBytes_injective bits.toNat_lt bits'.toNat_lt hij
      exact ⟨UInt64.toNat_inj.1 hbits ▸ .float bits, hr⟩
    | _ => exact absurd htag (by simp [tag])
  | boolean b =>
    intro w hv hw r r' heq
    have htag := tag_eq_of_append_eq heq
    cases w with
    | boolean b' =>
      rw [hashCanonicalToml, hashCanonicalToml] at heq
      have hone : ∀ bit : UInt8, [bit].length < 2 ^ 64 := fun _ => Nat.one_lt_two_pow (by decide)
      obtain ⟨hbit, hr⟩ := taggedBytes_readOff 'b' (hone _) (hone _) heq
      obtain rfl : b = b' := by
        revert hbit
        cases b <;> cases b' <;> decide
      exact ⟨.boolean b, hr⟩
    | _ => exact absurd htag (by simp [tag])
  | datetime text =>
    intro w hv hw r r' heq
    have htag := tag_eq_of_append_eq heq
    cases w with
    | datetime text' =>
      cases hv with | datetime hs =>
      cases hw with | datetime ht =>
      rw [hashCanonicalToml, hashCanonicalToml] at heq
      obtain ⟨hst, hr⟩ := taggedBytes_readOff 'd' (by rwa [length_toUTF8]) (by rwa [length_toUTF8])
        heq
      exact ⟨toUTF8_injective hst ▸ .datetime text, hr⟩
    | _ => exact absurd htag (by simp [tag])
  | array items ih =>
    intro w hv hw r r' heq
    have htag := tag_eq_of_append_eq heq
    cases w with
    | array items' =>
      cases hv with | array hlen hvalid =>
      cases hw with | array hlen' hvalid' =>
      rw [hashCanonicalToml, hashCanonicalToml, hashItems_eq_map, hashItems_eq_map,
        ← List.flatMap_def, ← List.flatMap_def, List.append_assoc, List.append_assoc] at heq
      obtain ⟨hcount, hrest⟩ := counted_readOff hlen hlen' heq
      obtain ⟨hitems, hr⟩ := SelfDelimiting.forall₂_of_flatMap
        (fun a ha b hb => ih a ha b (hvalid a ha) (hvalid' b hb)) hcount hrest
      exact ⟨.array hitems, hr⟩
    | _ => exact absurd htag (by simp [tag])
  | table entries ih =>
    intro w hv hw r r' heq
    have htag := tag_eq_of_append_eq heq
    cases w with
    | table entries' =>
      cases hv with | table hlen hnodup hkeys hvalid =>
      cases hw with | table hlen' hnodup' hkeys' hvalid' =>
      rw [hashCanonicalToml_table, hashCanonicalToml_table, List.append_assoc,
        List.append_assoc] at heq
      obtain ⟨hcount, hrest⟩ := counted_readOff hlen hlen' heq
      have hcount' : (entries.insertionSort fun e f => e.1 ≤ f.1).length =
          (entries'.insertionSort fun e f => e.1 ≤ f.1).length := by
        rw [List.length_insertionSort, List.length_insertionSort, hcount]
      have hentry : ∀ e ∈ entries.insertionSort fun e f => e.1 ≤ f.1,
          ∀ f ∈ entries'.insertionSort fun e f => e.1 ≤ f.1, ∀ r r',
            (taggedBytes 'k' e.1.toUTF8.toList ++ hashCanonicalToml e.2) ++ r =
              (taggedBytes 'k' f.1.toUTF8.toList ++ hashCanonicalToml f.2) ++ r' →
            (e.1 = f.1 ∧ Same e.2 f.2) ∧ r = r' := by
        intro e he f hf r r' heq
        have he := (List.mem_insertionSort _).1 he
        have hf := (List.mem_insertionSort _).1 hf
        rw [List.append_assoc, List.append_assoc] at heq
        obtain ⟨hkey, hafter⟩ := taggedBytes_readOff 'k' (by rw [length_toUTF8]; exact hkeys e he)
          (by rw [length_toUTF8]; exact hkeys' f hf) heq
        obtain ⟨hvalue, hr⟩ := ih e he f.2 (hvalid e he) (hvalid' f hf) _ _ hafter
        exact ⟨⟨toUTF8_injective hkey, hvalue⟩, hr⟩
      obtain ⟨hmatch, hr⟩ := SelfDelimiting.forall₂_of_flatMap hentry hcount' hrest
      -- the matching of the sorted entries, back in the order of the second table
      obtain ⟨ordered, hperm, hordered⟩ :=
        (List.forall₂_comp_perm_eq_perm_comp_forall₂ ▸
          ⟨_, hmatch, List.perm_insertionSort _ entries'⟩ :
            Relation.Comp List.Perm (List.Forall₂ fun e f => e.1 = f.1 ∧ Same e.2 f.2)
              (entries.insertionSort fun e f => e.1 ≤ f.1) entries')
      obtain ⟨hkeysEq, hvalues⟩ := forall₂_entries_iff.1 hordered
      exact ⟨.table ((List.perm_insertionSort _ entries).symm.trans hperm) hkeysEq hvalues, hr⟩
    | _ => exact absurd htag (by simp [tag])

/-! ### The order of keys -/

theorem map_eq_map_of_forall₂ {α β : Type} {R : α → α → Prop} {f : α → β} {l l' : List α}
    (h : List.Forall₂ R l l') (hf : ∀ a ∈ l, ∀ b ∈ l', R a b → f a = f b) :
    l.map f = l'.map f := by
  induction h with
  | nil => rfl
  | @cons a b l l' hab _ ih =>
    rw [List.map_cons, List.map_cons, hf a List.mem_cons_self b List.mem_cons_self hab,
      ih fun x hx y hy => hf x (List.mem_cons_of_mem a hx) y (List.mem_cons_of_mem b hy)]

/-- Entries with distinct keys are sorted in one way. -/
theorem insertionSort_eq_of_perm {β : Type} {l l' : List (String × β)} (h : l.Perm l')
    (hnodup : (l.map Prod.fst).Nodup) :
    (l.insertionSort fun e f => e.1 ≤ f.1) = l'.insertionSort fun e f => e.1 ≤ f.1 := by
  have hperm : (l.insertionSort fun e f => e.1 ≤ f.1).Perm
      (l'.insertionSort fun e f => e.1 ≤ f.1) :=
    (List.perm_insertionSort _ l).trans (h.trans (List.perm_insertionSort _ l').symm)
  have htrans : IsTrans (String × β) fun e f => e.1 ≤ f.1 := ⟨fun _ _ _ => le_trans⟩
  have htotal : Std.Total fun e f : String × β => e.1 ≤ f.1 := ⟨fun _ _ => le_total _ _⟩
  refine hperm.eq_of_pairwise (fun e f he hf hef hfe => ?_) (List.pairwise_insertionSort _ l)
    (List.pairwise_insertionSort _ l')
  have he := (List.mem_insertionSort _).1 he
  have hf := h.mem_iff.2 ((List.mem_insertionSort _).1 hf)
  exact List.inj_on_of_nodup_map hnodup he hf (le_antisymm hef hfe)

/-- **The bytes forget the order of the keys.** -/
theorem Same.hashCanonicalToml_eq {v w : TomlValue} (h : Same v w) (hv : v.Valid) (hw : w.Valid) :
    hashCanonicalToml v = hashCanonicalToml w := by
  induction v using parts_induction generalizing w with
  | array items ih =>
    cases h with | @array _ items' hitems =>
    cases hv with | array _ hvalid =>
    cases hw with | array _ hvalid' =>
    have hbytes := map_eq_map_of_forall₂ hitems fun a ha b hb hab =>
      ih a ha hab (hvalid a ha) (hvalid' b hb)
    rw [hashCanonicalToml, hashCanonicalToml, hashItems_eq_map, hashItems_eq_map, hbytes,
      hitems.length_eq]
  | table entries ih =>
    cases h with | @table _ ordered entries' hperm hkeys hvalues =>
    cases hv with | table _ hnodup _ hvalid =>
    cases hw with | table _ _ _ hvalid' =>
    have hmatch := forall₂_entries_iff.2 ⟨hkeys, hvalues⟩
    have hbytes : ordered.map (fun e => (e.1, hashCanonicalToml e.2)) =
        entries'.map fun e => (e.1, hashCanonicalToml e.2) := by
      refine map_eq_map_of_forall₂ hmatch fun e he f hf hef => ?_
      have he := hperm.mem_iff.2 he
      rw [hef.1, ih e he hef.2 (hvalid e he) (hvalid' f hf)]
    have hsorted := insertionSort_eq_of_perm
      (hperm.map fun e : String × TomlValue => (e.1, hashCanonicalToml e.2))
      (by rw [List.map_map]; exact hnodup)
    rw [hashCanonicalToml, hashCanonicalToml, hashEntries_eq_map, hashEntries_eq_map, hsorted,
      hbytes, hperm.length_eq, hmatch.length_eq]
  | _ =>
    cases h
    rfl

/-! ### Variants -/

/-- The table that `variant_suffix` hashes. -/
def variantValue (backend : Option String) (options : LockOptions) : TomlValue :=
  .table [("backend", .string (backend.getD "")),
    ("options", .table (options.toList.map fun e => (e.1, .string e.2)))]

theorem taggedBytes_eq_canonicalBytes (tag : Char) (s : String) :
    taggedBytes tag s.toUTF8.toList = Sidecar.canonicalBytes tag s := by
  rw [taggedBytes, Sidecar.canonicalBytes, length_toUTF8]
  rfl

/-- The bytes of a table whose entries come sorted. -/
theorem hashCanonicalToml_table_of_sorted {entries : List (String × TomlValue)}
    (h : entries.Pairwise fun e f => e.1 ≤ f.1) :
    hashCanonicalToml (.table entries) =
      Sidecar.canonicalTable (entries.map fun e => (e.1, hashCanonicalToml e.2)) := by
  rw [hashCanonicalToml_table, List.Pairwise.insertionSort_eq h, Sidecar.canonicalTable,
    List.length_map, List.flatMap_map]
  simp only [taggedBytes_eq_canonicalBytes]

/-- A sorted map lists its keys in order. -/
theorem pairwise_toList (options : LockOptions) :
    options.toList.Pairwise fun e f => e.1 ≤ f.1 := by
  refine Std.ExtTreeMap.ordered_keys_toList.imp fun {e f} h => ?_
  exact le_of_lt (compareOfLessAndEq_eq_lt.1 h)

/-- **The suffix of a variant is a digest of these bytes.** -/
theorem variantSuffix_eq (sha256 : List UInt8 → String) (backend : Option String)
    (options : LockOptions) : Sidecar.variantSuffix sha256 backend options = String.ofList
      ((sha256 (hashCanonicalToml (variantValue backend options))).toList.take 8) := by
  have hinner : hashCanonicalToml (.table (options.toList.map fun e => (e.1, .string e.2))) =
      Sidecar.canonicalTable (options.toList.map fun e =>
        (e.1, Sidecar.canonicalBytes 's' e.2)) := by
    rw [hashCanonicalToml_table_of_sorted (List.pairwise_map.2 (pairwise_toList options)),
      List.map_map]
    simp only [Function.comp_def, hashCanonicalToml, taggedBytes_eq_canonicalBytes]
  have hkeys : ("backend" : String) ≤ "options" := by decide
  rw [variantValue, hashCanonicalToml_table_of_sorted (by simp [hkeys]), List.map_cons,
    List.map_cons, List.map_nil, hinner, hashCanonicalToml, taggedBytes_eq_canonicalBytes,
    Sidecar.variantSuffix]

theorem exists_mem_of_forall₂ {α β : Type} {R : α → β → Prop} {l : List α} {l' : List β}
    (h : List.Forall₂ R l l') {a : α} (ha : a ∈ l) : ∃ b ∈ l', R a b := by
  induction h with
  | nil => cases ha
  | @cons x y l l' hxy _ ih =>
    rcases List.mem_cons.1 ha with rfl | ha
    · exact ⟨y, List.mem_cons_self, hxy⟩
    · obtain ⟨b, hb, hab⟩ := ih ha
      exact ⟨b, List.mem_cons_of_mem y hb, hab⟩

/-- The entries of tables that are the same match. -/
theorem Same.exists_mem {entries entries' : List (String × TomlValue)}
    (h : Same (.table entries) (.table entries')) :
    (∀ f ∈ entries', ∃ e ∈ entries, e.1 = f.1 ∧ Same e.2 f.2) ∧
      ∀ e ∈ entries, ∃ f ∈ entries', e.1 = f.1 ∧ Same e.2 f.2 := by
  cases h with | @table _ ordered _ hperm hkeys hvalues =>
  have hmatch := forall₂_entries_iff.2 ⟨hkeys, hvalues⟩
  refine ⟨fun f hf => ?_, fun e he => ?_⟩
  · obtain ⟨e, he, hef⟩ := exists_mem_of_forall₂ hmatch.flip hf
    exact ⟨e, hperm.mem_iff.2 he, hef⟩
  · exact exists_mem_of_forall₂ hmatch (hperm.mem_iff.1 he)

theorem Same.refl (v : TomlValue) : Same v v := by
  induction v using parts_induction with
  | string s => exact .string s
  | integer i => exact .integer i
  | float bits => exact .float bits
  | boolean b => exact .boolean b
  | datetime text => exact .datetime text
  | array items ih => exact .array (List.forall₂_same.2 ih)
  | table entries ih =>
    exact .table (.refl entries) rfl
      (forall₂_entries_iff.1 (List.forall₂_same.2 fun e he => ⟨rfl, ih e he⟩)).2

theorem same_string_iff {s t : String} : Same (.string s) (.string t) ↔ s = t := by
  constructor
  · intro h
    cases h
    rfl
  · rintro rfl
    exact .string s

/-- Tables of strings are the same when they have the same entries. -/
theorem perm_of_same_strings {l l' : List (String × String)}
    (h : Same (.table (l.map fun e => (e.1, .string e.2)))
      (.table (l'.map fun e => (e.1, .string e.2)))) : l.Perm l' := by
  have hinj : Function.Injective fun e : String × String => (e.1, TomlValue.string e.2) := by
    rintro ⟨a, b⟩ ⟨a', b'⟩ heq
    obtain ⟨ha, hb⟩ := Prod.mk.inj heq
    exact Prod.ext ha (TomlValue.string.inj hb)
  cases h with | @table _ ordered _ hperm hkeys hvalues =>
  have hmatch := forall₂_entries_iff.2 ⟨hkeys, hvalues⟩
  have heq : ordered.map id = (l'.map fun e => (e.1, TomlValue.string e.2)).map id := by
    refine map_eq_map_of_forall₂ hmatch ?_
    rintro ⟨key, v⟩ he ⟨key', v'⟩ hf ⟨hkey, hsame⟩
    obtain ⟨e, -, he⟩ := List.mem_map.1 (hperm.mem_iff.2 he)
    obtain ⟨f, -, hf⟩ := List.mem_map.1 hf
    obtain ⟨rfl, rfl⟩ := Prod.mk.inj he
    obtain ⟨rfl, rfl⟩ := Prod.mk.inj hf
    exact Prod.ext hkey (congrArg TomlValue.string (same_string_iff.1 hsame))
  rw [List.map_id, List.map_id] at heq
  exact (List.map_perm_map_iff hinj).1 (heq ▸ hperm)

/-- Only the backend and the options make a variant. -/
theorem same_variantValue_iff {backend backend' : Option String} {options options' : LockOptions} :
    Same (variantValue backend options) (variantValue backend' options') ↔
      backend.getD "" = backend'.getD "" ∧ options = options' := by
  constructor
  · intro h
    obtain ⟨-, hmatch⟩ := h.exists_mem
    obtain ⟨f, hf, hkey, hbackend⟩ := hmatch _ List.mem_cons_self
    obtain ⟨g, hg, hkey', hoptions⟩ := hmatch _ (List.mem_cons_of_mem _ List.mem_cons_self)
    rcases List.mem_cons.1 hf with rfl | hf
    · rcases List.mem_cons.1 hg with rfl | hg
      · exact absurd (id hkey' : "options" = "backend") (by decide)
      · obtain rfl := List.mem_singleton.1 hg
        exact ⟨same_string_iff.1 hbackend,
          Std.ExtTreeMap.ext_toList (perm_of_same_strings hoptions)⟩
    · obtain rfl := List.mem_singleton.1 hf
      exact absurd (id hkey : "backend" = "options") (by decide)
  · rintro ⟨hbackend, rfl⟩
    rw [variantValue, variantValue, hbackend]
    exact .refl _

/-! ### Digests -/

/-- `AubeLock::legacy_identity`, and the digest of any other table. -/
def legacyIdentity (sha256 : List UInt8 → String) (graph : TomlTable) : String :=
  sha256 (hashCanonicalToml (.table graph))

/-- **The bytes that are hashed for a value determine it**, up to the order of its
keys and to nothing else, and none of them starts another's. So two graphs share
a digest, and two variants a suffix, only where the hash function collides. -/
theorem hashCanonicalToml_injective :
    (∀ v w : TomlValue, v.Valid → w.Valid →
      (hashCanonicalToml v = hashCanonicalToml w ↔ Same v w) ∧
        (hashCanonicalToml v <+: hashCanonicalToml w →
          hashCanonicalToml v = hashCanonicalToml w)) ∧
    (∀ (sha256 : List UInt8 → String) (graph graph' : TomlTable), Valid (.table graph) →
      Valid (.table graph') → ¬ Same (.table graph) (.table graph') →
        legacyIdentity sha256 graph = legacyIdentity sha256 graph' →
          hashCanonicalToml (.table graph) ≠ hashCanonicalToml (.table graph') ∧
            sha256 (hashCanonicalToml (.table graph)) =
              sha256 (hashCanonicalToml (.table graph'))) ∧
    ∀ (sha256 : List UInt8 → String) (backend backend' : Option String)
      (options options' : LockOptions), (variantValue backend options).Valid →
      (variantValue backend' options').Valid →
        ¬ (backend.getD "" = backend'.getD "" ∧ options = options') →
        Sidecar.variantSuffix sha256 backend options =
          Sidecar.variantSuffix sha256 backend' options' →
          hashCanonicalToml (variantValue backend options) ≠
              hashCanonicalToml (variantValue backend' options') ∧
            (sha256 (hashCanonicalToml (variantValue backend options))).toList.take 8 =
              (sha256 (hashCanonicalToml (variantValue backend' options'))).toList.take 8 := by
  have hiff : ∀ v w : TomlValue, v.Valid → w.Valid →
      (hashCanonicalToml v = hashCanonicalToml w ↔ Same v w) := by
    refine fun v w hv hw => ⟨fun heq => ?_, fun h => h.hashCanonicalToml_eq hv hw⟩
    exact (hashCanonicalToml_readOff v w hv hw [] [] (by rw [heq])).1
  refine ⟨fun v w hv hw => ⟨hiff v w hv hw, ?_⟩, ?_, ?_⟩
  · rintro ⟨rest, hrest⟩
    obtain ⟨-, rfl⟩ := hashCanonicalToml_readOff v w hv hw rest []
      (by rw [hrest, List.append_nil])
    rw [← hrest, List.append_nil]
  · intro sha256 graph graph' hg hg' hsame heq
    exact ⟨mt (hiff _ _ hg hg').1 hsame, heq⟩
  · intro sha256 backend backend' options options' hv hw hsame heq
    rw [variantSuffix_eq, variantSuffix_eq, String.ofList_inj] at heq
    exact ⟨fun h => hsame (same_variantValue_iff.1 ((hiff _ _ hv hw).1 h)), heq⟩

/-- A graph of one package, for an operating system. -/
def packageGraph (os : String) : TomlTable :=
  [("version", .integer 1),
    ("packages", .array [.table [("name", .string "is"), ("os", .array [.string os])]])]

/-- The same graph, its keys in another order. -/
def reorderedGraph (os : String) : TomlTable :=
  [("packages", .array [.table [("os", .array [.string os]), ("name", .string "is")]]),
    ("version", .integer 1)]

theorem valid_singleton {v : TomlValue} (hv : v.Valid) : Valid (.array [v]) := by
  refine .array (by simp) fun w hw => ?_
  obtain rfl := List.mem_singleton.1 hw
  exact hv

theorem valid_pair {key key' : String} {v w : TomlValue} (hne : key ≠ key')
    (hkey : key.utf8ByteSize < 2 ^ 64) (hkey' : key'.utf8ByteSize < 2 ^ 64) (hv : v.Valid)
    (hw : w.Valid) : Valid (.table [(key, v), (key', w)]) := by
  refine .table (by simp) (by simpa using hne) ?_ ?_
  · simpa using ⟨hkey, hkey'⟩
  · intro e he
    rcases List.mem_cons.1 he with rfl | he
    · exact hv
    · obtain rfl := List.mem_singleton.1 he
      exact hw

theorem valid_packageGraph {os : String} (h : os.utf8ByteSize < 2 ^ 64) :
    Valid (.table (packageGraph os)) ∧ Valid (.table (reorderedGraph os)) := by
  have hversion : Valid (.integer 1) := .integer (by decide) (by decide)
  have hname : Valid (.string "is") := .string (by decide)
  have hos := valid_singleton (.string h)
  constructor
  · refine valid_pair (by decide) (by decide) (by decide) hversion (valid_singleton ?_)
    exact valid_pair (by decide) (by decide) (by decide) hname hos
  · refine valid_pair (by decide) (by decide) (by decide) (valid_singleton ?_) hversion
    exact valid_pair (by decide) (by decide) (by decide) hos hname

theorem same_packageGraph (os : String) :
    Same (.table (packageGraph os)) (.table (reorderedGraph os)) := by
  have hpackage : Same (.table [("name", .string "is"), ("os", .array [.string os])])
      (.table [("os", .array [.string os]), ("name", .string "is")]) :=
    .table (.swap ..) rfl (.cons (.refl _) (.cons (.refl _) .nil))
  exact .table (.swap ..) rfl (.cons (.array (.cons hpackage .nil)) (.cons (.refl _) .nil))

/-- The operating system counts, three levels below the top. -/
theorem os_eq_of_same {os os' : String}
    (h : Same (.table (packageGraph os)) (.table (packageGraph os'))) : os = os' := by
  obtain ⟨f, hf, hkey, hsame⟩ := h.exists_mem.2 _ (.tail _ (.head _))
  have hpackages : f = ("packages", .array [.table [("name", .string "is"),
      ("os", .array [.string os'])]]) := by
    rcases List.mem_cons.1 hf with rfl | hf
    · exact absurd (id hkey : "packages" = "version") (by decide)
    · exact List.mem_singleton.1 hf
  rw [hpackages] at hsame
  cases hsame with | array hitems =>
  cases hitems with | cons hpackage _ =>
  obtain ⟨g, hg, hkey, hsame⟩ := hpackage.exists_mem.2 _ (.tail _ (.head _))
  have hos : g = ("os", .array [.string os']) := by
    rcases List.mem_cons.1 hg with rfl | hg
    · exact absurd (id hkey : "os" = "name") (by decide)
    · exact List.mem_singleton.1 hg
  rw [hos] at hsame
  cases hsame with | array hitems =>
  cases hitems with | cons hos _ =>
  exact same_string_iff.1 hos

/-- A table in an array in a table: its keys may come in another order, each value counts,
and a hash function with one digest for two such graphs, or for two backends, collides. -/
theorem hashCanonicalToml_packageGraph :
    hashCanonicalToml (.table (packageGraph "linux")) =
        hashCanonicalToml (.table (reorderedGraph "linux")) ∧
      hashCanonicalToml (.table (packageGraph "linux")) ≠
        hashCanonicalToml (.table (packageGraph "darwin")) ∧
      hashCanonicalToml (variantValue (some "npm") ∅) ≠
        hashCanonicalToml (variantValue (some "aqua") ∅) := by
  obtain ⟨hvalues, hgraphs, hvariants⟩ := hashCanonicalToml_injective
  obtain ⟨hlinux, hlinux'⟩ := @valid_packageGraph "linux" (by decide)
  obtain ⟨hdarwin, -⟩ := @valid_packageGraph "darwin" (by decide)
  have hother : ¬Same (.table (packageGraph "linux")) (.table (packageGraph "darwin")) :=
    fun h => absurd (os_eq_of_same h) (by decide)
  have hoptions : Valid (.table []) := .table (by simp) (by simp) (by simp) (by simp)
  have hvariant : ∀ backend ∈ [some "npm", some "aqua"], (variantValue backend ∅).Valid := by
    intro backend hmem
    refine valid_pair (by decide) (by decide) (by decide) (.string ?_) hoptions
    fin_cases hmem <;> decide
  refine ⟨(hvalues _ _ hlinux hlinux').1.2 (same_packageGraph _), ?_, ?_⟩
  · exact (hgraphs (fun _ => "00000000") _ _ hlinux hdarwin hother rfl).1
  · refine (hvariants (fun _ => "00000000") (some "npm") (some "aqua") ∅ ∅ ?_ ?_ ?_ rfl).1
    · exact hvariant _ (by decide)
    · exact hvariant _ (by decide)
    · exact fun h => absurd h.1 (by decide)

end TomlValue

end Mise
