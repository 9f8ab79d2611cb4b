/-
# The checks of the base32 loops

`base32_encode` and `base32_decode` of `src/install_layout/identity.rs` as they
run with every check: a shift of a `u32` by 32 or more, an index behind the
alphabet or behind the digest's 32 bytes, and a count below zero panic.  No text
and no bytes get them there, so that they compute what `base32Encode` and
`fromBase32` say (`base32EncodeChecked_eq`, `fromBase32Checked_eq`).

The buffer keeps the bits that were given off and loses its highest ones to each
shift.  The counts do not depend on it, and an index is masked.
-/

import Mathlib.Data.Int.Notation
import Mise.Install.Digest
import Mise.Lib.Fallible

namespace Mise.Install

open Lib

/-! ### With every check -/

/-- Why a loop stops early. -/
inductive Stop where
  | panic
  | rejected
  deriving DecidableEq

/-- `<<` on `u32`. -/
def shl (buffer : ℕ) (n : ℤ) : Except Stop ℕ :=
  if 0 ≤ n ∧ n < 32 then .ok ((buffer <<< n.toNat) % 2 ^ 32) else .error .panic

/-- `>>` on `u32`. -/
def shr (buffer : ℕ) (n : ℤ) : Except Stop ℕ :=
  if 0 ≤ n ∧ n < 32 then .ok (buffer >>> n.toNat) else .error .panic

/-- `ALPHABET[i] as char`. -/
def symbolChecked (i : ℕ) : Except Stop Char :=
  match alphabet[i]? with
  | some c => .ok (Char.ofNat c.toNat)
  | none => .error .panic

/-- The inner loop of `base32_encode`. -/
def emitChecked (buffer : ℕ) : ℕ → List Char → Except Stop (ℕ × List Char)
  | bits + 5, out => do
    let shifted ← shr buffer bits
    let c ← symbolChecked (shifted &&& 0x1f)
    emitChecked buffer bits (out ++ [c])
  | bits, out => .ok (bits, out)

/-- The turn of `base32_encode` for one byte. -/
def encodeByteChecked (state : ℕ × ℕ × List Char) (byte : UInt8) :
    Except Stop (ℕ × ℕ × List Char) := do
  let shifted ← shl state.1 8
  let buffer := shifted ||| byte.toNat
  let (bits, out) ← emitChecked buffer (state.2.1 + 8) state.2.2
  .ok (buffer, bits, out)

/-- `base32_encode`. -/
def base32EncodeChecked (bytes : List UInt8) : Except Stop String := do
  let (buffer, bits, out) ← bytes.foldlM encodeByteChecked (0, 0, [])
  if 0 < bits then
    let shifted ← shl buffer (5 - bits)
    let c ← symbolChecked (shifted &&& 0x1f)
    .ok (String.ofList (out ++ [c]))
  else
    .ok (String.ofList out)

/-- The variables of `base32_decode`. -/
structure DecodeState where
  buffer : ℕ
  bits : ℕ
  written : ℕ
  out : List UInt8

/-- `out[i] = byte`. -/
def store (out : List UInt8) (i : ℕ) (byte : UInt8) : Except Stop (List UInt8) :=
  if i < out.length then .ok (out.set i byte) else .error .panic

/-- The turn of `base32_decode` for one byte of the text. -/
def decodeByteChecked (state : DecodeState) (c : UInt8) : Except Stop DecodeState :=
  match alphabet.idxOf? c with
  | none => .error .rejected
  | some value => do
    let shifted ← shl state.buffer 5
    let buffer := shifted ||| value
    let bits := state.bits + 5
    if 8 ≤ bits then
      if state.written = 32 then
        .error .rejected
      else
        let byte ← shr buffer (bits - 8 : ℕ)
        let out ← store state.out state.written (UInt8.ofNat (byte &&& 0xff))
        .ok ⟨buffer, bits - 8, state.written + 1, out⟩
    else
      .ok ⟨buffer, bits, state.written, state.out⟩

/-- `base32_decode`. -/
def base32DecodeChecked (s : String) : Except Stop (List UInt8) :=
  if (utf8 s.toList).length ≠ digestChars then
    .error .rejected
  else do
    let state ← (utf8 s.toList).foldlM decodeByteChecked ⟨0, 0, 0, List.replicate 32 0⟩
    let one ← shl 1 state.bits
    if state.written = 32 ∧ state.buffer &&& (one - 1) = 0 then
      .ok state.out
    else
      .error .rejected

/-! ### Encoding -/

theorem shl_eq {buffer n : ℕ} (hn : n < 32) : shl buffer n = .ok ((buffer <<< n) % 2 ^ 32) :=
  if_pos ⟨Int.natCast_nonneg n, by omega⟩

theorem shr_eq {buffer n : ℕ} (hn : n < 32) : shr buffer n = .ok (buffer >>> n) :=
  if_pos ⟨Int.natCast_nonneg n, by omega⟩

/-- A masked index is one of the alphabet. -/
theorem symbolChecked_mask (n : ℕ) : symbolChecked (n &&& 0x1f) = .ok (symbol (n &&& 0x1f)) := by
  have hlt : n &&& 0x1f < alphabet.length := Nat.lt_of_le_of_lt Nat.and_le_right (by decide)
  rw [symbolChecked, symbol, List.getD_eq_getElem?_getD, List.getElem?_eq_getElem hlt]
  rfl

theorem emitChecked_eq {buffer bits : ℕ} (hbits : bits < 32) (out : List Char) :
    emitChecked buffer bits out = .ok (emit buffer bits out) := by
  fun_induction emit buffer bits out with
  | case1 out bits ih =>
    rw [emitChecked, shr_eq (by omega)]
    simp only [ok_bind, symbolChecked_mask]
    exact ih (by omega)
  | case2 bits out hsmall =>
    rw [emitChecked]
    exact hsmall

theorem emit_fst_lt (buffer bits : ℕ) (out : List Char) : (emit buffer bits out).1 < 5 := by
  fun_induction emit buffer bits out with
  | case1 out bits ih => exact ih
  | case2 bits out hsmall =>
    by_contra hge
    obtain ⟨n, rfl⟩ := Nat.exists_eq_add_of_le' (Nat.le_of_not_lt hge)
    exact hsmall n rfl

theorem encodeByteChecked_eq {state : ℕ × ℕ × List Char} (hbits : state.2.1 < 5) (byte : UInt8) :
    encodeByteChecked state byte = .ok (encodeByte state byte) := by
  have hshl : shl state.1 8 = .ok ((state.1 <<< 8) % 2 ^ 32) := @shl_eq state.1 8 (by decide)
  rw [encodeByteChecked, hshl]
  simp only [ok_bind, emitChecked_eq (show state.2.1 + 8 < 32 by omega)]
  rfl

/-- Between two bytes fewer than five bits count, so no shift gets to 32. -/
theorem foldlM_encodeByteChecked (bytes : List UInt8) {state : ℕ × ℕ × List Char}
    (hbits : state.2.1 < 5) :
    bytes.foldlM encodeByteChecked state = .ok (bytes.foldl encodeByte state) ∧
      (bytes.foldl encodeByte state).2.1 < 5 := by
  induction bytes generalizing state with
  | nil => exact ⟨rfl, hbits⟩
  | cons byte bytes ih =>
    rw [List.foldlM_cons, encodeByteChecked_eq hbits]
    exact ih (emit_fst_lt _ _ _)

/-- **No shift and no index of `base32_encode` is out of range**, for any number of
bytes. -/
theorem base32EncodeChecked_eq (bytes : List UInt8) :
    base32EncodeChecked bytes = .ok (base32Encode bytes) := by
  obtain ⟨hloop, hbits⟩ := @foldlM_encodeByteChecked bytes (0, 0, []) (by decide)
  rw [base32EncodeChecked, base32Encode, hloop]
  generalize bytes.foldl encodeByte (0, 0, []) = state at hbits
  obtain ⟨buffer, bits, out⟩ := state
  simp only [ok_bind]
  split
  · have hcast : (5 : ℤ) - bits = (5 - bits : ℕ) := by
      rw [Nat.cast_sub (Nat.le_of_lt hbits)]
      rfl
    rw [hcast, shl_eq (by omega)]
    simp only [ok_bind, symbolChecked_mask]
  · rfl

/-! ### Decoding -/

/-- The digest's 32 bytes, of which some are written. -/
def DecodeState.of (state : ℕ × ℕ × List UInt8) : DecodeState where
  buffer := state.1
  bits := state.2.1
  written := state.2.2.length
  out := state.2.2 ++ List.replicate (32 - state.2.2.length) 0

/-- A byte goes behind those that are written. -/
theorem store_of {out : List UInt8} (hlen : out.length < 32) (byte : UInt8) :
    store (out ++ List.replicate (32 - out.length) 0) out.length byte =
      .ok (out ++ [byte] ++ List.replicate (32 - (out ++ [byte]).length) 0) := by
  rw [store, if_pos (by rw [List.length_append, List.length_replicate]; omega)]
  obtain ⟨n, hn⟩ : ∃ n, 32 - out.length = n + 1 := ⟨31 - out.length, by omega⟩
  have hn' : 32 - (out ++ [byte]).length = n := by
    rw [List.length_append, List.length_singleton]
    omega
  rw [hn, hn', List.replicate_succ, List.set_append_right _ _ le_rfl, Nat.sub_self,
    List.set_cons_zero, List.append_assoc]
  rfl

/-- A turn does what `decodeByte` says, and keeps the counts in range. -/
theorem decodeByteChecked_of {state : ℕ × ℕ × List UInt8} (hbits : state.2.1 < 8)
    (hlen : state.2.2.length ≤ 32) (c : UInt8) :
    decodeByteChecked (.of state) c =
        (decodeByte state c).elim (.error .rejected) (fun next => .ok (.of next)) ∧
      ∀ next ∈ decodeByte state c, next.2.1 < 8 ∧ next.2.2.length ≤ 32 := by
  obtain ⟨buffer, bits, out⟩ := state
  dsimp only at hbits hlen
  have hof : DecodeState.of (buffer, bits, out) =
    ⟨buffer, bits, out.length, out ++ List.replicate (32 - out.length) 0⟩ := rfl
  rw [hof, decodeByteChecked, decodeByte]
  cases alphabet.idxOf? c with
  | none => exact ⟨rfl, by rintro _ ⟨⟩⟩
  | some value =>
    have hshl : shl buffer 5 = .ok ((buffer <<< 5) % 2 ^ 32) := @shl_eq buffer 5 (by decide)
    simp only [hshl, ok_bind, Option.bind_eq_bind, Option.bind_some]
    by_cases hfull : 8 ≤ bits + 5
    · rw [if_pos hfull, if_pos hfull]
      by_cases hend : out.length = 32
      · rw [if_pos hend, if_pos hend]
        exact ⟨rfl, by rintro _ ⟨⟩⟩
      · have hroom : out.length < 32 := Nat.lt_of_le_of_ne hlen hend
        rw [if_neg hend, if_neg hend, shr_eq (by omega)]
        simp only [ok_bind, store_of hroom]
        refine ⟨?_, ?_⟩
        · rw [Option.elim_some, DecodeState.of, List.length_append, List.length_singleton]
        · intro next hnext
          obtain rfl := Option.some.inj hnext
          refine ⟨?_, ?_⟩
          · change bits + 5 - 8 < 8
            omega
          · rw [List.length_append, List.length_singleton]
            exact hroom
    · rw [if_neg hfull, if_neg hfull]
      refine ⟨rfl, ?_⟩
      intro next hnext
      obtain rfl := Option.some.inj hnext
      exact ⟨Nat.lt_of_not_le hfull, hlen⟩

theorem foldlM_decodeByteChecked (bytes : List UInt8) {state : ℕ × ℕ × List UInt8}
    (hbits : state.2.1 < 8) (hlen : state.2.2.length ≤ 32) :
    bytes.foldlM decodeByteChecked (.of state) =
        (bytes.foldlM decodeByte state).elim (.error .rejected) (fun last => .ok (.of last)) ∧
      ∀ last ∈ bytes.foldlM decodeByte state, last.2.1 < 8 ∧ last.2.2.length ≤ 32 := by
  induction bytes generalizing state with
  | nil =>
    refine ⟨rfl, fun last hlast => ?_⟩
    obtain rfl := Option.some.inj hlast
    exact ⟨hbits, hlen⟩
  | cons c bytes ih =>
    obtain ⟨hturn, hnext⟩ := decodeByteChecked_of hbits hlen c
    rw [List.foldlM_cons, List.foldlM_cons, hturn]
    cases hdecode : decodeByte state c with
    | none => exact ⟨rfl, nofun⟩
    | some next =>
      obtain ⟨hbits', hlen'⟩ := hnext next hdecode
      exact ih hbits' hlen'

/-- **No shift and no index of `base32_decode` is out of range**, for any text. -/
theorem base32DecodeChecked_eq (s : String) :
    base32DecodeChecked s =
      (Digest.fromBase32 s).elim (.error .rejected) (fun d => .ok d.bytes) := by
  rw [base32DecodeChecked, Digest.fromBase32]
  split
  · rfl
  · obtain ⟨hloop, hlast⟩ :=
      @foldlM_decodeByteChecked (utf8 s.toList) (0, 0, []) (by decide) (by decide)
    have hstart : (⟨0, 0, 0, List.replicate 32 0⟩ : DecodeState) = .of (0, 0, []) := rfl
    rw [hstart, hloop]
    cases hdecode : (utf8 s.toList).foldlM decodeByte (0, 0, []) with
    | none => rfl
    | some last =>
      obtain ⟨hbits, -⟩ := hlast last hdecode
      obtain ⟨buffer, bits, out⟩ := last
      dsimp only at hbits
      simp only [Option.elim_some, ok_bind, Option.bind_eq_bind, Option.bind_some, DecodeState.of]
      rw [shl_eq (by omega)]
      have hone : (1 <<< bits) % 2 ^ 32 = 1 <<< bits := by
        rw [Nat.shiftLeft_eq, Nat.one_mul]
        exact Nat.mod_eq_of_lt (Nat.pow_lt_pow_right (by decide) (by omega))
      simp only [ok_bind, hone]
      by_cases hend : out.length = 32 ∧ buffer &&& 1 <<< bits - 1 = 0
      · have hout : out ++ List.replicate (32 - out.length) 0 = out := by
          rw [hend.1, Nat.sub_self, List.replicate_zero, List.append_nil]
        rw [if_pos hend, dif_pos hend, hout]
        rfl
      · rw [if_neg hend, dif_neg hend]
        rfl

/-! ### The coding -/

/-- **Base32 texts and digests correspond one to one**, and neither direction ever
gets out of range. -/
theorem base32_bijective :
    (∀ d : Digest, ∃ s, base32EncodeChecked d.bytes = .ok s ∧
      base32DecodeChecked s = .ok d.bytes) ∧
    (∀ s bytes, base32DecodeChecked s = .ok bytes → bytes.length = 32 ∧
      base32EncodeChecked bytes = .ok s) ∧
    (∀ bytes, base32EncodeChecked bytes ≠ .error .panic) ∧
    ∀ s, base32DecodeChecked s ≠ .error .panic := by
  refine ⟨fun d => ⟨d.toBase32, base32EncodeChecked_eq d.bytes, ?_⟩, fun s bytes h => ?_,
    fun bytes h => ?_, fun s h => ?_⟩
  · rw [base32DecodeChecked_eq, fromBase32_eq_some_iff.2 rfl]
    rfl
  · rw [base32DecodeChecked_eq] at h
    cases hdecode : Digest.fromBase32 s with
    | none =>
      rw [hdecode] at h
      exact nomatch h
    | some d =>
      rw [hdecode] at h
      obtain rfl : d.bytes = bytes := Except.ok.inj h
      refine ⟨d.length_bytes, ?_⟩
      rw [base32EncodeChecked_eq, fromBase32_eq_some_iff.1 hdecode]
      rfl
  · rw [base32EncodeChecked_eq] at h
    exact nomatch h
  · rw [base32DecodeChecked_eq] at h
    cases hdecode : Digest.fromBase32 s with
    | none =>
      rw [hdecode] at h
      exact nomatch h
    | some d =>
      rw [hdecode] at h
      exact nomatch h

end Mise.Install
