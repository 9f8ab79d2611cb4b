/-
# Digests and their text

`src/install_layout/identity.rs`: a digest has 32 bytes, and is written as 52
characters of lowercase base32.  Decoding takes the one text of a digest and no
other (`fromBase32_eq_some_iff`): the four bits that 52 characters hold beyond
the 256 have to be zero.
-/

import Mise.Lib.BitGroups
import Mise.Lib.Utf8

namespace Mise.Install

open Lib

/-- `Digest`. -/
structure Digest where
  bytes : List UInt8
  length_bytes : bytes.length = 32
  deriving DecidableEq

/-- `DIGEST_CHARS`. -/
def digestChars : ℕ := 52

/-- `SHORT_CHARS`. -/
def shortChars : ℕ := 8

/-- `ALPHABET`. -/
def alphabet : List UInt8 := utf8 "abcdefghijklmnopqrstuvwxyz234567".toList

/-- The character for five bits. -/
def symbol (i : ℕ) : Char := Char.ofNat (alphabet.getD i 0).toNat

/-! ### Encoding -/

/-- The inner loop of `base32_encode`: the bits that are left, and the output. -/
def emit (buffer : ℕ) : ℕ → List Char → ℕ × List Char
  | bits + 5, out => emit buffer bits (out ++ [symbol (buffer >>> bits &&& 0x1f)])
  | bits, out => (bits, out)

/-- The turn of `base32_encode` for one byte. -/
def encodeByte (state : ℕ × ℕ × List Char) (byte : UInt8) : ℕ × ℕ × List Char :=
  let buffer := (state.1 <<< 8) % 2 ^ 32 ||| byte.toNat
  (buffer, emit buffer (state.2.1 + 8) state.2.2)

/-- `base32_encode`. -/
def base32Encode (bytes : List UInt8) : String :=
  let (buffer, bits, out) := bytes.foldl encodeByte (0, 0, [])
  if 0 < bits then
    String.ofList (out ++ [symbol ((buffer <<< (5 - bits)) % 2 ^ 32 &&& 0x1f)])
  else
    String.ofList out

/-- `Digest::to_base32`. -/
def Digest.toBase32 (d : Digest) : String := base32Encode d.bytes

/-! ### Decoding -/

/-- The turn of `base32_decode` for one byte of the text. -/
def decodeByte (state : ℕ × ℕ × List UInt8) (c : UInt8) : Option (ℕ × ℕ × List UInt8) := do
  let value ← alphabet.idxOf? c
  let buffer := (state.1 <<< 5) % 2 ^ 32 ||| value
  let bits := state.2.1 + 5
  if 8 ≤ bits then
    if state.2.2.length = 32 then
      none
    else
      some (buffer, bits - 8, state.2.2 ++ [UInt8.ofNat (buffer >>> (bits - 8) &&& 0xff)])
  else
    some (buffer, bits, state.2.2)

/-- `Digest::from_base32`. -/
def Digest.fromBase32 (s : String) : Option Digest :=
  if (utf8 s.toList).length ≠ digestChars then
    none
  else do
    let (buffer, bits, out) ← (utf8 s.toList).foldlM decodeByte (0, 0, [])
    if h : out.length = 32 ∧ buffer &&& ((1 <<< bits) - 1) = 0 then
      some ⟨out, h.1⟩
    else
      none

/-! ### Symbols -/

theorem utf8_symbol {i : ℕ} (hi : i < 32) : utf8 [symbol i] = [alphabet.getD i 0] := by
  have hall : ∀ i : Fin 32, utf8 [symbol i] = [alphabet.getD i 0] := by decide
  exact hall ⟨i, hi⟩

theorem idxOf?_symbol {i : ℕ} (hi : i < 32) : alphabet.idxOf? (alphabet.getD i 0) = some i := by
  have hall : ∀ i : Fin 32, alphabet.idxOf? (alphabet.getD i 0) = some i.val := by decide
  exact hall ⟨i, hi⟩

theorem eq_of_idxOf? {c : UInt8} {i : ℕ} (h : alphabet.idxOf? c = some i) :
    i < 32 ∧ alphabet.getD i 0 = c := by
  rw [List.idxOf?, List.findIdx?_eq_some_iff_getElem] at h
  obtain ⟨hi, heq, -⟩ := h
  refine ⟨hi, ?_⟩
  rw [List.getD_eq_getElem?_getD, List.getElem?_eq_getElem hi]
  exact beq_iff_eq.1 heq

theorem utf8_symbols {ds : List ℕ} (hds : ∀ d ∈ ds, d < 32) :
    utf8 (ds.map symbol) = ds.map (alphabet.getD · 0) := by
  induction ds with
  | nil => rfl
  | cons d ds ih =>
    rw [List.map_cons, List.map_cons, ← List.singleton_append, utf8_append,
      utf8_symbol (hds d List.mem_cons_self), ih fun e he => hds e (List.mem_cons_of_mem d he)]
    rfl

/-! ### What the loops do -/

/-- The bytes as digits. -/
def byteDigits (bytes : List UInt8) : List ℕ := bytes.map UInt8.toNat

/-- The inner loop leaves fewer than five bits. -/
theorem emit_spec {buffer bits value width : ℕ} {ds : List ℕ}
    (h : Regrouped 5 ds buffer bits value width) :
    ∃ es bits', emit buffer bits (ds.map symbol) = (bits', es.map symbol) ∧ bits' < 5 ∧
      Regrouped 5 es buffer bits' value width := by
  induction bits using Nat.strongRecOn generalizing ds with
  | ind bits ih =>
    by_cases hbits : bits < 5
    · refine ⟨ds, bits, ?_, hbits, h⟩
      rw [emit]
      exact fun n hn => by omega
    · obtain ⟨n, rfl⟩ := Nat.exists_eq_add_of_le' (Nat.le_of_not_lt hbits)
      obtain ⟨es, bits', hemit, hrest⟩ := ih n (by omega) h.pull
      refine ⟨es, bits', ?_, hrest⟩
      rw [emit, ← hemit, List.map_append]
      rfl

/-- The bytes are regrouped into digits of five bits. -/
theorem foldl_encodeByte_spec (bytes : List UInt8) :
    ∃ ds buffer bits, bytes.foldl encodeByte (0, 0, []) = (buffer, bits, ds.map symbol) ∧
      bits < 5 ∧
      Regrouped 5 ds buffer bits (numeral 8 (byteDigits bytes)) (8 * bytes.length) := by
  induction bytes using List.reverseRecOn with
  | nil => exact ⟨[], 0, 0, rfl, by decide, .start 5⟩
  | append_singleton bytes byte ih =>
    obtain ⟨ds, buffer, bits, hloop, hbits, h⟩ := ih
    have hpush := h.push (d := byte.toNat) (w := 8) byte.toNat_lt (by omega)
    obtain ⟨es, bits', hemit, hbits', h'⟩ := emit_spec hpush
    refine ⟨es, (buffer <<< 8) % 2 ^ 32 ||| byte.toNat, bits', ?_, hbits', ?_⟩
    · rw [List.foldl_append, hloop, List.foldl_cons, List.foldl_nil, encodeByte, hemit]
    · rw [byteDigits, List.map_append, List.map_singleton, numeral_concat, List.length_append,
        List.length_singleton]
      exact h'

/-- The text of a digest: 52 symbols, whose digits spell the digest's number
and four zero bits. -/
theorem toBase32_spec (d : Digest) :
    ∃ ds, d.toBase32 = String.ofList (ds.map symbol) ∧ ds.length = 52 ∧ (∀ x ∈ ds, x < 2 ^ 5) ∧
      numeral 5 ds = numeral 8 (byteDigits d.bytes) * 16 := by
  obtain ⟨ds, buffer, bits, hloop, hbits, h⟩ := foldl_encodeByte_spec d.bytes
  have hwidth := h.width_eq
  rw [d.length_bytes] at hwidth
  obtain rfl : bits = 1 := by omega
  have hlen : ds.length = 51 := by omega
  -- The last symbol is the last bit and four zero bits that come in after it.
  have hzeros : Regrouped 5 ds _ (0 + 5) _ _ := h.push (d := 0) (w := 4) (by decide) (by decide)
  have hlast := hzeros.pull
  rw [Nat.or_zero, Nat.shiftRight_zero] at hlast
  refine ⟨ds ++ [(buffer <<< 4) % 2 ^ 32 &&& 0x1f], ?_, ?_, hlast.digits, ?_⟩
  · rw [Digest.toBase32, base32Encode, hloop, List.map_append]
    rfl
  · rw [List.length_append, hlen, List.length_singleton]
  · have hvalue := hlast.value_eq
    rw [Nat.pow_zero, Nat.mod_one, Nat.mul_one, Nat.add_zero, Nat.add_zero] at hvalue
    exact hvalue

/-- A turn of the decoding loop, while there is room. -/
theorem decodeByte_spec {es : List ℕ} {buffer bits value width d : ℕ}
    (h : Regrouped 8 es buffer bits value width) (hbits : bits < 8) (hd : d < 2 ^ 5)
    (hroom : width + 5 < 8 * 33) :
    ∃ es' buffer' bits', decodeByte (buffer, bits, es.map UInt8.ofNat) (alphabet.getD d 0) =
        some (buffer', bits', es'.map UInt8.ofNat) ∧
      bits' < 8 ∧ Regrouped 8 es' buffer' bits' (value * 2 ^ 5 + d) (width + 5) := by
  have hpush := h.push hd (by omega)
  have hwidth := h.width_eq
  rw [decodeByte, idxOf?_symbol hd]
  simp only [Option.bind_eq_bind, Option.bind_some]
  by_cases hfull : 8 ≤ bits + 5
  · obtain ⟨n, hn⟩ := Nat.exists_eq_add_of_le' hfull
    rw [hn] at hpush
    refine ⟨es ++ [((buffer <<< 5) % 2 ^ 32 ||| d) >>> n &&& 0xff],
      (buffer <<< 5) % 2 ^ 32 ||| d, n, ?_, by omega, hpush.pull⟩
    have hlen : (es.map UInt8.ofNat).length ≠ 32 := by
      rw [List.length_map]
      omega
    rw [if_pos hfull, if_neg hlen, hn, Nat.add_sub_cancel, List.map_append, List.map_singleton]
  · rw [if_neg hfull]
    exact ⟨es, (buffer <<< 5) % 2 ^ 32 ||| d, bits + 5, rfl, by omega, hpush⟩

/-- A text of symbols is regrouped into digits of eight bits. -/
theorem foldlM_decodeByte_spec {ds : List ℕ} (hds : ∀ d ∈ ds, d < 2 ^ 5) (hlen : ds.length ≤ 52) :
    ∃ es buffer bits, (ds.map (alphabet.getD · 0)).foldlM decodeByte (0, 0, []) =
        some (buffer, bits, es.map UInt8.ofNat) ∧
      bits < 8 ∧ Regrouped 8 es buffer bits (numeral 5 ds) (5 * ds.length) := by
  induction ds using List.reverseRecOn with
  | nil => exact ⟨[], 0, 0, rfl, by decide, .start 8⟩
  | append_singleton ds d ih =>
    rw [List.length_append, List.length_singleton] at hlen
    have hd := hds d (List.mem_append_right ds List.mem_cons_self)
    obtain ⟨es, buffer, bits, hloop, hbits, h⟩ :=
      ih (fun x hx => hds x (List.mem_append_left [d] hx)) (by omega)
    obtain ⟨es', buffer', bits', hturn, hbits', h'⟩ := decodeByte_spec h hbits hd (by omega)
    refine ⟨es', buffer', bits', ?_, hbits', ?_⟩
    · rw [List.map_append, List.foldlM_append, hloop, List.map_singleton]
      simp only [Option.bind_eq_bind, Option.bind_some, List.foldlM_cons, List.foldlM_nil, hturn,
        Option.pure_def]
    · rw [numeral_concat, List.length_append, List.length_singleton]
      exact h'

/-! ### The round trip -/

theorem byteDigits_lt (bytes : List UInt8) : ∀ d ∈ byteDigits bytes, d < 2 ^ 8 := by
  intro d hd
  obtain ⟨b, -, rfl⟩ := List.mem_map.1 hd
  exact b.toNat_lt

theorem byteDigits_map_ofNat {es : List ℕ} (hes : ∀ e ∈ es, e < 2 ^ 8) :
    byteDigits (es.map UInt8.ofNat) = es := by
  rw [byteDigits, List.map_map]
  conv_rhs => rw [← List.map_id es]
  exact List.map_congr_left fun e he => UInt8.toNat_ofNat_of_lt' (hes e he)

theorem byteDigits_injective : Function.Injective byteDigits :=
  List.map_injective_iff.2 fun _ _ h => UInt8.toNat_inj.1 h

/-- What 52 symbols decode to: the digest whose number and four zero bits they
spell. -/
theorem fromBase32_symbols {ds : List ℕ} (hds : ∀ d ∈ ds, d < 2 ^ 5) (hlen : ds.length = 52)
    (d : Digest) :
    Digest.fromBase32 (String.ofList (ds.map symbol)) = some d ↔
      numeral 5 ds = numeral 8 (byteDigits d.bytes) * 16 := by
  obtain ⟨es, buffer, bits, hloop, hbits, h⟩ := foldlM_decodeByte_spec hds (by omega)
  have hwidth := h.width_eq
  have hvalue := h.value_eq
  obtain rfl : bits = 4 := by omega
  have hes : (es.map UInt8.ofNat).length = 32 := by
    rw [List.length_map]
    omega
  have hmask : buffer &&& ((1 <<< 4) - 1) = buffer % 2 ^ 4 := Nat.and_two_pow_sub_one_eq_mod buffer 4
  rw [Digest.fromBase32, String.toList_ofList, utf8_symbols hds, List.length_map, hlen, hloop]
  simp only [digestChars, ne_eq, not_true_eq_false, if_false, Option.bind_eq_bind, Option.bind_some,
    hes, hmask, true_and]
  constructor
  · intro hdecoded
    split at hdecoded
    · case isTrue hzero =>
      obtain rfl := Option.some.inj hdecoded
      rw [byteDigits_map_ofNat h.digits, ← hvalue, hzero, Nat.add_zero]
      rfl
    · exact absurd hdecoded.symm (Option.some_ne_none d)
  · intro hspell
    have hrest := Nat.mod_lt buffer (Nat.two_pow_pos 4)
    rw [← hvalue] at hspell
    have hzero : buffer % 2 ^ 4 = 0 := by omega
    have hnumeral : numeral 8 es = numeral 8 (byteDigits d.bytes) := by omega
    have hbytes : byteDigits (es.map UInt8.ofNat) = byteDigits d.bytes := by
      rw [byteDigits_map_ofNat h.digits]
      refine numeral_injective (by decide) ?_ h.digits (byteDigits_lt _) hnumeral
      rw [byteDigits, List.length_map, d.length_bytes, ← hes, List.length_map]
    rw [dif_pos hzero]
    obtain ⟨bytes, hlength⟩ := d
    obtain rfl := byteDigits_injective hbytes
    rfl

/-- The digits of a text that decodes. -/
theorem exists_digits_of_foldlM {bytes : List UInt8} {st st' : ℕ × ℕ × List UInt8}
    (h : bytes.foldlM decodeByte st = some st') :
    ∃ ds : List ℕ, bytes = ds.map (alphabet.getD · 0) ∧ ∀ d ∈ ds, d < 2 ^ 5 := by
  induction bytes generalizing st with
  | nil => exact ⟨[], rfl, fun _ hd => nomatch hd⟩
  | cons c bytes ih =>
    rw [List.foldlM_cons] at h
    obtain ⟨next, hturn, hrest⟩ := Option.bind_eq_some_iff.1 h
    obtain ⟨i, hi, -⟩ := Option.bind_eq_some_iff.1 hturn
    obtain ⟨hlt, heq⟩ := eq_of_idxOf? hi
    obtain ⟨ds, rfl, hds⟩ := ih hrest
    refine ⟨i :: ds, ?_, ?_⟩
    · rw [List.map_cons, heq]
    · intro d hd
      rcases List.mem_cons.1 hd with rfl | hd
      · exact hlt
      · exact hds d hd

/-- **A digest has one text**: decoding gives it for the text that encoding
makes, and for no other. -/
theorem fromBase32_eq_some_iff {s : String} {d : Digest} :
    Digest.fromBase32 s = some d ↔ s = d.toBase32 := by
  obtain ⟨ds, htext, hlen, hds, hspell⟩ := toBase32_spec d
  constructor
  · intro hdecoded
    have hparts := hdecoded
    rw [Digest.fromBase32] at hparts
    split at hparts
    · exact absurd hparts.symm (Option.some_ne_none d)
    · case isFalse hsize =>
      obtain ⟨st, hloop, -⟩ := Option.bind_eq_some_iff.1 hparts
      obtain ⟨es, hbytes, hes⟩ := exists_digits_of_foldlM hloop
      -- The text is the text of its digits, since it has the same bytes.
      have hs : s = String.ofList (es.map symbol) := by
        rw [← String.toList_inj, String.toList_ofList]
        refine utf8_injective ?_
        rw [hbytes, utf8_symbols hes]
      have hlen' : es.length = 52 := by
        rw [hbytes, List.length_map] at hsize
        exact not_ne_iff.1 hsize
      rw [hs, fromBase32_symbols hes hlen'] at hdecoded
      rw [htext, hs, numeral_injective (by decide) (hlen'.trans hlen.symm) hes hds
        (hdecoded.trans hspell.symm)]
  · rintro rfl
    rw [htext, fromBase32_symbols hds hlen, hspell]

end Mise.Install
