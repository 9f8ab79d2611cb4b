/-
# Rendered documents are read back

What `render` writes, the parser without substitution reads as the same
assignments in the same order, with multiline values on or off.

A rendered line stands before a line end: the end of the document or a newline.
For a value written as it is, the renderer's first loop follows the parser's
loop over an unquoted value, so that one induction over the renderer's loop
gives the parser's.  For a quoted value an induction over the value's
characters does, one escape or one plain character at a time.
-/

import Mise.Dotenv.Render

namespace Mise
namespace Dotenv

/-! ### The cursor -/

@[simp] theorem Cursor.forward_append (before xs rest : List Char) :
    Cursor.forward xs.length ⟨before, xs ++ rest⟩ = ⟨xs.reverse ++ before, rest⟩ := by
  simp [Cursor.forward]

theorem Cursor.skipWhile_eq_self {p : Char → Bool} {c : Cursor}
    (h : ∀ a, c.rest.head? = some a → p a = false) : c.skipWhile p = c := by
  obtain ⟨before, _ | ⟨a, rest⟩⟩ := c
  · rfl
  · simp [Cursor.skipWhile, h a rfl]

/-- What follows a rendered line: nothing, or a newline. -/
def AtLineEnd (tail : List Char) : Prop := ∀ c, tail.head? = some c → c = '\n'

theorem AtLineEnd.isNewline {tail : List Char} (h : AtLineEnd tail) {c : Char}
    (hc : tail.head? = some c) : isNewline c = true := by
  rw [h c hc]
  rfl

theorem consumeNewline_atLineEnd {tail : List Char} (h : AtLineEnd tail) (before : List Char) :
    ∃ b, Cursor.consumeNewline ⟨before, tail⟩ = ⟨b, tail.tail⟩ := by
  rcases tail with _ | ⟨c, tail⟩
  · exact ⟨before, rfl⟩
  · obtain rfl := h c rfl
    exact ⟨'\n' :: before, rfl⟩

/-! ### Unquoted values -/

section Unquoted

variable {tail : List Char} (htail : AtLineEnd tail)
include htail

/-- The two look-ahead scans for a closing quote agree up to the line's end. -/
theorem quoteClosesOnLine_append (quote : Char) (escaped : Bool) (cs : List Char)
    (hcs : ∀ c ∈ cs, isNewline c = false) :
    quoteClosesOnLine quote escaped (cs ++ tail) = hasClosingQuote quote escaped cs := by
  induction cs generalizing escaped with
  | nil =>
    rcases tail with _ | ⟨c, tail⟩
    · rfl
    · simp [quoteClosesOnLine, hasClosingQuote, htail.isNewline rfl]
  | cons c cs ih =>
    have hc : isNewline c = false := hcs c List.mem_cons_self
    have hrest : ∀ a ∈ cs, isNewline a = false := fun a ha => hcs a (List.mem_cons_of_mem _ ha)
    simp only [List.cons_append, quoteClosesOnLine, hasClosingQuote, hc, Bool.false_eq_true,
      if_false, ih _ hrest]

omit htail in
theorem not_isNewline_of_scansUnquoted {escaped : Bool} {previous : Option Char} {v : List Char}
    (h : scansUnquoted escaped previous v = true) : ∀ c ∈ v, isNewline c = false := by
  induction v generalizing escaped previous with
  | nil => intro c hc; cases hc
  | cons a v ih =>
    rw [scansUnquoted] at h
    split at h
    · cases h
    · split at h
      · cases h
      · split at h
        · cases h
        · rename_i hbreak _ _
          intro c hc
          rcases List.mem_cons.1 hc with rfl | hc
          · simp only [Bool.or_eq_true, not_or, Bool.not_eq_true] at hbreak
            exact hbreak.2
          · exact ih h c hc

/-- **The renderer's loop follows the parser's.**  Where it accepts a value, the
parser's loop passes over the whole value and stops at the line's end. -/
theorem scanUnquoted_append {p : Parser} (hp : p.options.substitution = false) {escaped : Bool}
    {previous : Option Char} {v : List Char} (before : List Char)
    (h : scansUnquoted escaped previous v = true)
    (hprevious : before.head?.any isHorizontalWhitespace = true →
      previous.all isHorizontalWhitespace = true) :
    p.scanUnquoted 0 escaped before (v ++ tail) = .ok (v, true) := by
  induction v generalizing escaped previous before with
  | nil =>
    rcases tail with _ | ⟨c, tail⟩
    · rfl
    · simp [Parser.scanUnquoted, htail.isNewline rfl]
  | cons c v ih =>
    have hnewline := not_isNewline_of_scansUnquoted h
    have hcloses := quoteClosesOnLine_append htail c false v
      fun a ha => hnewline a (List.mem_cons_of_mem _ ha)
    rw [scansUnquoted] at h
    split at h
    · cases h
    · split at h
      · cases h
      · split at h
        · cases h
        · rename_i hbreak hquote hcomment
          simp only [Bool.or_eq_true, not_or, Bool.not_eq_true] at hbreak
          have next := ih (c :: before) h (by simp)
          rw [List.cons_append, Parser.scanUnquoted]
          simp only [hbreak, hp, hcloses, Bool.false_eq_true, if_false, Bool.and_false]
          cases escaped with
          | true =>
            simp only [Bool.not_true, Bool.and_false] at next
            simp [next, Except.map]
          | false =>
            simp only [Bool.not_false, Bool.and_true] at next hquote hcomment
            have hcomment' : ¬(c == '#' && before.head?.any isHorizontalWhitespace) = true := by
              intro hc
              rw [Bool.and_eq_true] at hc
              exact hcomment (by rw [hc.1, hprevious hc.2]; rfl)
            by_cases hslash : (c == '\\') = true
            · simp only [hslash] at next
              simp [next, hslash, Except.map]
            · simp only [Bool.not_eq_true] at hslash
              simp only [hslash] at next
              simp [next, hslash, hquote, hcomment', Except.map]

end Unquoted

/-- An unquoted-safe value: not quoted or commented out at its start, passed by
the loop, without blanks to trim and without an escape to decode. -/
structure UnquotedSafe (v : List Char) : Prop where
  first : ∀ c, v.head? = some c →
    isQuote c = false ∧ c ≠ '#' ∧ isNewline c = false ∧ isHorizontalWhitespace c = false
  trimmed : trimUnquotedTrailingWhitespace v = v
  scans : scansUnquoted false none v = true
  literal : hasNoDecodedEscape v = true

theorem trimReversed_eq_self {v : List Char}
    (h : endsInBareWhitespace v = false) : trimReversed v = v := by
  rcases v with _ | ⟨last, before⟩
  · rfl
  · rw [trimReversed]
    by_cases hlast : isHorizontalWhitespace last = true
    · have hodd : (before.takeWhile (· == '\\')).length % 2 = 1 := by
        simp only [endsInBareWhitespace, hlast, Bool.true_and, beq_eq_false_iff_ne, ne_eq] at h
        omega
      simp [hlast, hodd]
    · simp [hlast]

theorem UnquotedSafe.of_isUnquotedSafe {v : List Char} (h : isUnquotedSafe v = true) :
    UnquotedSafe v := by
  rcases v with _ | ⟨first, v⟩
  · exact ⟨by simp, rfl, rfl, rfl⟩
  · rw [isUnquotedSafe] at h
    split at h
    · cases h
    · split at h
      · cases h
      · rename_i hfirst htrim
        rw [Bool.and_eq_true] at h
        refine ⟨?_, ?_, h.1, h.2⟩
        · intro c hc
          obtain rfl := Option.some.inj hc
          simp only [Bool.or_eq_true, not_or, Bool.not_eq_true, beq_eq_false_iff_ne] at hfirst
          exact ⟨hfirst.1.1.1, hfirst.1.1.2, hfirst.1.2, hfirst.2⟩
        · rw [trimUnquotedTrailingWhitespace, trimReversed_eq_self (Bool.not_eq_true _ ▸ htrim),
            List.reverse_reverse]

/-- An escape that is not decoded is kept with its backslash. -/
theorem pushEscape_unquoted {c : Char} (h : isDecodedEscape c = false) :
    pushEscape .unquoted c = ['\\', c] := by
  simp only [isDecodedEscape, Bool.or_eq_false_iff, beq_eq_false_iff_ne] at h
  unfold pushEscape
  dsimp only
  split <;> simp_all

/-- **Without an escape to decode a value is expanded to itself.** -/
theorem expand_literal {p : Parser} (hp : p.options.substitution = false) {fuel : ℕ}
    (cursor : Cursor) {v : List Char} (hfuel : v.length ≤ fuel)
    (hreturn : '\r' ∉ v) (h : hasNoDecodedEscape v = true) :
    p.expand .unquoted fuel cursor v = .ok v := by
  induction fuel generalizing cursor v with
  | zero =>
    obtain rfl := List.length_eq_zero_iff.1 (Nat.le_zero.1 hfuel)
    rfl
  | succ fuel ih =>
    rcases v with _ | ⟨c, v⟩
    · rfl
    · have hlength : v.length ≤ fuel := by simpa using hfuel
      have hc : c ≠ '\r' := fun hc => hreturn (hc ▸ List.mem_cons_self)
      have hv : '\r' ∉ v := fun hv => hreturn (List.mem_cons_of_mem _ hv)
      rw [Parser.expand]
      by_cases hslash : c = '\\'
      · subst hslash
        rcases v with _ | ⟨e, v⟩
        · rfl
        · rw [hasNoDecodedEscape] at h
          simp only [bne_self_eq_false, Bool.false_eq_true, if_false] at h
          split at h
          · cases h
          · rename_i hdecoded
            have hrest := ih (cursor.forward 2) (v := v)
              (by simp only [List.length_cons] at hlength; omega)
              (fun hmem => hv (List.mem_cons_of_mem _ hmem)) h
            simp [hrest, pushEscape_unquoted (Bool.not_eq_true _ ▸ hdecoded), Except.map]
      · have hrest := ih (cursor.forward 1) (v := v) hlength hv (by
          rcases v with _ | ⟨e, v⟩
          · rfl
          · rw [hasNoDecodedEscape] at h
            simpa [hslash] using h)
        simp [hslash, hp, hc, hrest, Except.map]

/-- **An unquoted-safe value is read to the line's end as it stands.** -/
theorem parseUnquoted_safe {p : Parser} (hp : p.options.substitution = false)
    (before : List Char) {v tail : List Char} (hv : UnquotedSafe v) (htail : AtLineEnd tail) :
    ∃ b, p.parseUnquoted ⟨before, v ++ tail⟩ = .ok (v, true, ⟨b, tail.tail⟩) := by
  obtain ⟨b, hb⟩ := consumeNewline_atLineEnd htail (v.reverse ++ before)
  have hscan := scanUnquoted_append htail hp before hv.scans (fun _ => rfl)
  have hreturn : '\r' ∉ v := by
    intro hmem
    have := not_isNewline_of_scansUnquoted hv.scans _ hmem
    simp [isNewline] at this
  have hhash : tail.head? ≠ some '#' := by
    intro hhash
    have := htail _ hhash
    simp at this
  refine ⟨b, ?_⟩
  rw [Parser.parseUnquoted, hscan]
  simp only [Except.bind, if_true, hv.trimmed, Cursor.forward_append,
    expand_literal hp _ (Nat.le_refl _) hreturn hv.literal, Except.map, Bool.not_true, Bool.false_eq_true,
    if_false, hhash, hb]

/-! ### Quoted values -/

/-- A character of a quoted value is written as an escape that decodes to it, or
as itself. -/
theorem renderCharacter_cases (c : Char) :
    (∃ e, renderCharacter c = ['\\', e] ∧ pushEscape .doubleQuoted e = [c] ∧
      isNewline e = false ∧ e ≠ '\x00') ∨
    (renderCharacter c = [c] ∧ c ≠ '\\' ∧ c ≠ '"' ∧ isNewline c = false) := by
  unfold renderCharacter
  split
  any_goals exact Or.inl ⟨_, rfl, rfl, rfl, by decide⟩
  right
  simp_all [isNewline]

variable {p : Parser}

/-- One round of the loop over a quoted value, away from line ends. -/
theorem scanQuoted_cons {quote c : Char} {style : ValueStyle} {start : Cursor} {escaped : Bool}
    {before cs : List Char} (hnewline : isNewline c = false) (hzero : c ≠ '\x00') :
    p.scanQuoted quote style start escaped before (c :: cs) =
      if c == quote && !escaped then .ok []
      else
        (p.scanQuoted quote style start
          (if c == '\\' && style != .singleQuoted then !escaped else false) (c :: before) cs).map
          (c :: ·) := by
  rw [Parser.scanQuoted]
  · simp [hnewline, hzero]
  · rintro tail rfl
    simp [isNewline] at hnewline

theorem scanQuoted_rendered {start : Cursor} {v tail : List Char} (before : List Char) (hv : '\x00' ∉ v) :
    p.scanQuoted '"' .doubleQuoted start false before
      (v.flatMap renderCharacter ++ '"' :: tail) = .ok (v.flatMap renderCharacter) := by
  induction v generalizing before with
  | nil =>
    rw [List.flatMap_nil, List.nil_append, scanQuoted_cons (by decide) (by decide)]
    rfl
  | cons c v ih =>
    have hc : c ≠ '\x00' := fun hc => hv (hc ▸ List.mem_cons_self)
    have next (b : List Char) := ih b fun hmem => hv (List.mem_cons_of_mem _ hmem)
    rw [List.flatMap_cons, List.append_assoc]
    rcases renderCharacter_cases c with
      ⟨e, he, -, hnewline, hzero⟩ | ⟨hself, hslash, hquote, hnewline⟩
    · -- the backslash sets the flag, and the character after it clears it
      rw [he, List.cons_append, List.cons_append, List.nil_append,
        scanQuoted_cons (by decide) (by decide), scanQuoted_cons hnewline hzero]
      simp [next, Except.map]
    · rw [hself, List.cons_append, List.nil_append, scanQuoted_cons hnewline hc]
      simp [next, hslash, hquote, Except.map]

/-- **The escapes of a quoted value are decoded to the value.** -/
theorem expand_rendered (hp : p.options.substitution = false) {fuel : ℕ} (cursor : Cursor)
    {v : List Char} (hfuel : (v.flatMap renderCharacter).length ≤ fuel) :
    p.expand .doubleQuoted fuel cursor (v.flatMap renderCharacter) = .ok v := by
  induction v generalizing fuel cursor with
  | nil =>
    cases fuel with
    | zero => rfl
    | succ fuel => rfl
  | cons c v ih =>
    rw [List.flatMap_cons] at hfuel ⊢
    rcases renderCharacter_cases c with ⟨e, he, hdecoded, -, -⟩ | ⟨hself, hslash, -, hnewline⟩
    · rw [he] at hfuel ⊢
      simp only [List.cons_append, List.nil_append, List.length_cons] at hfuel ⊢
      obtain ⟨fuel, rfl⟩ : ∃ n, fuel = n + 1 := ⟨fuel - 1, by omega⟩
      have next := @ih fuel (cursor.forward 2) (by omega)
      rw [Parser.expand]
      simp [next, hdecoded, Except.map]
    · rw [hself] at hfuel ⊢
      simp only [List.cons_append, List.nil_append, List.length_cons] at hfuel ⊢
      obtain ⟨fuel, rfl⟩ : ∃ n, fuel = n + 1 := ⟨fuel - 1, by omega⟩
      have next := @ih fuel (cursor.forward 1) (by omega)
      have hreturn : c ≠ '\r' := by
        rintro rfl
        simp [isNewline] at hnewline
      rw [Parser.expand]
      simp [next, hslash, hp, hreturn, Except.map]

/-- **A quoted value is read back up to its closing quote.** -/
theorem parseQuoted_rendered (hp : p.options.substitution = false) {v : List Char}
    (before tail : List Char) (hv : '\x00' ∉ v) :
    ∃ b, p.parseQuoted '"' .doubleQuoted
      ⟨before, '"' :: (v.flatMap renderCharacter ++ '"' :: tail)⟩ = .ok (v, ⟨b, tail⟩) := by
  refine ⟨'"' :: ((v.flatMap renderCharacter).reverse ++ '"' :: before), ?_⟩
  have hstart : Cursor.forward 1 ⟨before, '"' :: (v.flatMap renderCharacter ++ '"' :: tail)⟩ =
      ⟨'"' :: before, v.flatMap renderCharacter ++ '"' :: tail⟩ := rfl
  have hend := Cursor.forward_append ('"' :: before) (v.flatMap renderCharacter ++ ['"']) tail
  rw [List.append_assoc, List.length_append] at hend
  rw [Parser.parseQuoted, hstart]
  simp only [scanQuoted_rendered _ hv, Except.bind, expand_rendered hp _ (Nat.le_refl _), Except.map]
  simpa using hend

/-! ### Values -/

theorem unquotedSafe_nil : UnquotedSafe [] := UnquotedSafe.of_isUnquotedSafe rfl

/-- A segment that starts at no quote is an unquoted one. -/
theorem parseSegments_unquoted (hp : p.options.substitution = false) (fuel : ℕ) (first : Bool)
    (before : List Char) {v tail : List Char} (hv : UnquotedSafe v) (htail : AtLineEnd tail) :
    ∃ b, p.parseSegments (fuel + 1) first ⟨before, v ++ tail⟩ = .ok (v, ⟨b, tail.tail⟩) := by
  obtain ⟨b, hb⟩ := parseUnquoted_safe hp before hv htail
  have hhead : ∀ c, (v ++ tail).head? = some c → isQuote c = false := by
    intro c hc
    rcases v with _ | ⟨a, v⟩
    · rw [htail c hc]
      rfl
    · exact (hv.first c hc).1
  have hnone : (v ++ tail).head?.filter (fun quote =>
      isQuote quote && (first || quoteClosesOnLine quote false (v ++ tail).tail)) = none := by
    rw [Option.filter_eq_none_iff]
    intro c hc
    simp [hhead c hc]
  refine ⟨b, ?_⟩
  rw [Parser.parseSegments]
  simp only [hnone, hb, Except.bind, if_true]

/-- **A rendered value is read back to the line's end.** -/
theorem parseValue_rendered (hp : p.options.substitution = false) {value : String}
    (before : List Char) {rendered tail : List Char} (h : renderValue value = .ok rendered)
    (htail : AtLineEnd tail) :
    ∃ b, p.parseValue ⟨before, rendered ++ tail⟩ = .ok (value.toList, ⟨b, tail.tail⟩) := by
  rw [renderValue] at h
  split at h
  · cases h
  · rename_i hzero
    split at h
    · rename_i hsafe
      obtain rfl := Except.ok.inj h
      exact parseSegments_unquoted hp _ _ before (.of_isUnquotedSafe hsafe) htail
    · obtain rfl := Except.ok.inj h
      obtain ⟨b, hb⟩ := parseQuoted_rendered hp before tail hzero
      obtain ⟨fuel, hfuel⟩ : ∃ n,
          ('"' :: (value.toList.flatMap renderCharacter ++ ['"']) ++ tail).length = n + 1 :=
        ⟨_, rfl⟩
      obtain ⟨b', hb'⟩ := parseSegments_unquoted (p := p) hp fuel false b unquotedSafe_nil htail
      refine ⟨b', ?_⟩
      rw [Parser.parseValue, hfuel, Parser.parseSegments]
      simp only [List.cons_append, List.append_assoc, List.nil_append, List.head?_cons,
        List.tail_cons, Bool.true_or, Bool.and_true]
      rw [show (some '"').filter isQuote = some '"' from rfl]
      simp only [show ('"' == '\'') = false from rfl, Bool.false_eq_true, if_false, hb, Except.bind]
      rw [List.nil_append] at hb'
      rw [hb']
      simp [Except.map]

/-! ### Assignments -/

/-- A key the renderer accepts. -/
structure ValidKey (key : List Char) : Prop where
  nonempty : key ≠ []
  noByteOrderMark : key.head? ≠ some '\uFEFF'
  valid : ∀ c ∈ key, isInvalidInKey c = false

theorem ValidKey.of_validateKey {key : String} (h : validateKey key = .ok ()) :
    ValidKey key.toList := by
  rw [validateKey] at h
  split at h
  · cases h
  · split at h
    · cases h
    · split at h
      · cases h
      · rename_i hempty hmark _ hfind
        refine ⟨fun hnil => hempty (by rw [hnil]; rfl), hmark, fun c hc => ?_⟩
        simpa using List.find?_eq_none.1 hfind c hc

/-- What a character of a valid key is not. -/
theorem isInvalidInKey_eq_false {c : Char} (h : isInvalidInKey c = false) :
    c ≠ '=' ∧ c ≠ '#' ∧ isHorizontalWhitespace c = false ∧ isNewline c = false ∧
      isControl c = false := by
  simp only [isInvalidInKey, Bool.or_eq_false_iff, beq_eq_false_iff_ne] at h
  obtain ⟨⟨⟨hequals, hhash⟩, hspace⟩, hcontrol⟩ := h
  refine ⟨hequals, hhash, by simp [isHorizontalWhitespace, hspace], ?_, hcontrol⟩
  simp only [isNewline, Bool.or_eq_false_iff, beq_eq_false_iff_ne]
  constructor <;>
    · rintro rfl
      simp [isWhitespace] at hspace

theorem mem_of_append_equals {u key rest rest' : List Char} {next : Char} (hu : '=' ∉ u)
    (h : key ++ '=' :: rest = u ++ next :: rest') : next ∈ key ∨ next = '=' := by
  induction u generalizing key with
  | nil =>
    rcases key with _ | ⟨a, key⟩
    · exact Or.inr (List.cons.inj h).1.symm
    · exact Or.inl (by rw [(List.cons.inj h).1]; exact List.mem_cons_self)
  | cons x u ih =>
    rcases key with _ | ⟨a, key⟩
    · exact absurd ((List.cons.inj h).1 ▸ List.mem_cons_self) hu
    · rcases ih (fun hmem => hu (List.mem_cons_of_mem _ hmem)) (List.cons.inj h).2 with hn | hn
      · exact Or.inl (List.mem_cons_of_mem _ hn)
      · exact Or.inr hn

/-- `export` before a blank is no start of a rendered line. -/
theorem consumeExportPrefix_eq_self {before key rest : List Char} (hkey : ValidKey key) :
    Cursor.consumeExportPrefix ⟨before, key ++ '=' :: rest⟩ = ⟨before, key ++ '=' :: rest⟩ := by
  unfold Cursor.consumeExportPrefix
  split
  · rename_i next rest' hexport
    have hnext : isHorizontalWhitespace next = false := by
      rcases mem_of_append_equals (u := ['e', 'x', 'p', 'o', 'r', 't']) (by decide) hexport with
        hmem | rfl
      · exact (isInvalidInKey_eq_false (hkey.valid _ hmem)).2.2.1
      · rfl
    simp [hnext]
  · rfl

theorem scanKey_append (before : List Char) {key rest : List Char} (h : ∀ c ∈ key, isInvalidInKey c = false) :
    Parser.scanKey before (key ++ '=' :: rest) = .ok key := by
  induction key generalizing before with
  | nil => rfl
  | cons c key ih =>
    obtain ⟨hequals, hhash, hspace, hnewline, hcontrol⟩ :=
      isInvalidInKey_eq_false (h c List.mem_cons_self)
    have hzero : c ≠ '\x00' := by
      rintro rfl
      simp [isControl] at hcontrol
    have next := ih (c :: before) fun a ha => h a (List.mem_cons_of_mem _ ha)
    rw [List.cons_append, Parser.scanKey]
    simp [hequals, hhash, hspace, hnewline, hcontrol, hzero, next, Except.map]

/-- What a rendered value can start with. -/
theorem renderValue_head {value : String} {rendered : List Char}
    (h : renderValue value = .ok rendered) (c : Char) (hc : rendered.head? = some c) :
    isHorizontalWhitespace c = false ∧ isNewline c = false ∧ c ≠ '#' := by
  rw [renderValue] at h
  split at h
  · cases h
  · split at h
    · rename_i hsafe
      obtain rfl := Except.ok.inj h
      obtain ⟨-, hhash, hnewline, hspace⟩ := (UnquotedSafe.of_isUnquotedSafe hsafe).first c hc
      exact ⟨hspace, hnewline, hhash⟩
    · obtain rfl := Except.ok.inj h
      obtain rfl := Option.some.inj hc
      exact ⟨rfl, rfl, by decide⟩

theorem renderValue_eq_nil {value : String} (h : renderValue value = .ok []) :
    value.toList = [] := by
  rw [renderValue] at h
  split at h
  · cases h
  · split at h
    · exact Except.ok.inj h
    · cases h

theorem renderVar_eq_ok {key value : String} {line : List Char} (h : renderVar key value = .ok line) :
    ValidKey key.toList ∧
      ∃ rendered, renderValue value = .ok rendered ∧ line = key.toList ++ '=' :: rendered := by
  rw [renderVar] at h
  cases hkey : validateKey key with
  | error e => rw [hkey] at h; cases h
  | ok u =>
    cases hvalue : renderValue value with
    | error e => rw [hkey, hvalue] at h; cases h
    | ok rendered =>
      rw [hkey, hvalue] at h
      exact ⟨.of_validateKey hkey, rendered, rfl, (Except.ok.inj h).symm⟩

/-- **A rendered line is read back as its assignment.** -/
theorem parseAssignment_rendered (hp : p.options.substitution = false) {key value : String}
    (before : List Char) {line tail : List Char} (h : renderVar key value = .ok line)
    (htail : AtLineEnd tail) (hcursor : p.cursor = ⟨before, line ++ tail⟩) :
    ∃ b, p.parseAssignment = .ok ((key, value), ⟨b, tail.tail⟩) := by
  obtain ⟨hkey, rendered, hvalue, rfl⟩ := renderVar_eq_ok h
  rw [List.append_assoc, List.cons_append] at hcursor
  have hempty : key.toList.isEmpty = false := by simpa using hkey.nonempty
  have hequals : (Cursor.mk (key.toList.reverse ++ before) ('=' :: (rendered ++ tail))
      ).skipHorizontalWhitespace = ⟨key.toList.reverse ++ before, '=' :: (rendered ++ tail)⟩ := by
    apply Cursor.skipWhile_eq_self
    rintro a ⟨⟩
    rfl
  have hhead : ∀ a, (rendered ++ tail).head? = some a →
      isHorizontalWhitespace a = false ∧ a ≠ '#' := by
    intro a ha
    rcases rendered with _ | ⟨c, rendered⟩
    · rw [htail a ha]
      exact ⟨rfl, by decide⟩
    · have := renderValue_head hvalue a ha
      exact ⟨this.1, this.2.2⟩
  have hstart : ((Cursor.mk (key.toList.reverse ++ before) ('=' :: (rendered ++ tail))).forward 1
      ).skipHorizontalWhitespace = ⟨'=' :: (key.toList.reverse ++ before), rendered ++ tail⟩ :=
    Cursor.skipWhile_eq_self fun a ha => (hhead a ha).1
  unfold Parser.parseAssignment
  rw [hcursor]
  simp only [consumeExportPrefix_eq_self hkey, scanKey_append _ hkey.valid, Except.bind, hempty,
    Bool.false_eq_true, if_false, Cursor.forward_append, hequals, List.head?_cons, ne_eq,
    not_true_eq_false, hstart, String.ofList_toList]
  -- an empty rendering is an empty value and the line's end
  rcases rendered with _ | ⟨c, rendered⟩
  · obtain ⟨b, hb⟩ := consumeNewline_atLineEnd htail ('=' :: (key.toList.reverse ++ before))
    have hnil : value = "" := String.toList_eq_nil_iff.1 (renderValue_eq_nil hvalue)
    refine ⟨b, ?_⟩
    rw [hnil, List.nil_append, hb]
    rcases tail with _ | ⟨a, tail⟩
    · rfl
    · simp [htail.isNewline rfl]
  · obtain ⟨b, hb⟩ := parseValue_rendered hp ('=' :: (key.toList.reverse ++ before))
      hvalue htail
    obtain ⟨-, hnewline, hhash⟩ := renderValue_head hvalue c rfl
    refine ⟨b, ?_⟩
    rw [hb]
    simp [hnewline, hhash, Except.map, String.ofList_toList]

/-- **`next_entry` at a rendered line** yields its assignment and goes on after
the line's end. -/
theorem nextEntry_rendered (hp : p.options.substitution = false) (hfailed : p.failed = false)
    {key value : String} {line tail : List Char} (h : renderVar key value = .ok line)
    (htail : AtLineEnd tail) (hcursor : p.cursor.rest = line ++ tail) :
    ∃ p', p.nextEntry = (some (.ok (key, value)), p') ∧ p'.cursor.rest = tail.tail ∧
      p'.options = p.options ∧ p'.failed = false := by
  obtain ⟨hkey, rendered, -, hline⟩ := renderVar_eq_ok h
  obtain ⟨c, keyTail, hc⟩ : ∃ c cs, key.toList = c :: cs := List.exists_cons_of_ne_nil hkey.nonempty
  obtain ⟨-, hhash, hspace, hnewline, -⟩ :=
    isInvalidInKey_eq_false (hkey.valid c (by rw [hc]; exact List.mem_cons_self))
  have hrest : ∃ cs, p.cursor.rest = c :: cs := by
    rw [hcursor, hline, hc]
    exact ⟨_, rfl⟩
  obtain ⟨cs, hrest⟩ := hrest
  have hskip : p.cursor.skipHorizontalWhitespace = p.cursor := by
    apply Cursor.skipWhile_eq_self
    intro a ha
    rw [hrest] at ha
    obtain rfl := Option.some.inj ha
    exact hspace
  have hnone : p.cursor.consumeNewline? = none := by
    rw [Cursor.consumeNewline?, hrest]
    split <;> simp_all [isNewline]
  obtain ⟨b, hb⟩ := parseAssignment_rendered hp p.cursor.before h htail
    (by rw [← hcursor])
  unfold Parser.nextEntry
  rw [hfailed, Parser.nextEntryLoop]
  simp only [hskip, hnone, hb]
  simp [hrest, hhash, hfailed]

/-! ### Documents -/

/-- A parser without substitution that stands before `s` yields the variables
and then ends. -/
def Reads (s : List Char) (vars : List (String × String)) : Prop :=
  ∀ (p : Parser) (n : ℕ), p.options.substitution = false → p.failed = false →
    p.cursor.rest = s → s.length < n → p.entries n = vars.map .ok

theorem reads_nil : Reads [] [] := by
  intro p n _ hfailed hrest hn
  obtain ⟨n, rfl⟩ : ∃ m, n = m + 1 := ⟨n - 1, by omega⟩
  have hskip : p.cursor.skipHorizontalWhitespace = p.cursor := by
    apply Cursor.skipWhile_eq_self
    rw [hrest]
    rintro a ⟨⟩
  rw [Parser.entries, Parser.nextEntry, hfailed, Parser.nextEntryLoop]
  simp [hskip, hrest]

theorem Reads.cons {key value : String} {line tail : List Char} {vars : List (String × String)}
    (h : renderVar key value = .ok line) (htail : AtLineEnd tail) (hvars : Reads tail.tail vars) :
    Reads (line ++ tail) ((key, value) :: vars) := by
  intro p n hp hfailed hrest hn
  obtain ⟨p', hp', hrest', hoptions, hfailed'⟩ := nextEntry_rendered hp hfailed h htail hrest
  obtain ⟨n, rfl⟩ : ∃ m, n = m + 1 := ⟨n - 1, by omega⟩
  have hline : 0 < line.length := by
    obtain ⟨-, rendered, -, rfl⟩ := renderVar_eq_ok h
    simp only [List.length_append, List.length_cons]
    omega
  rw [Parser.entries, hp', List.map_cons]
  dsimp only
  rw [hvars p' n (by rw [hoptions, hp]) hfailed' hrest' (by
    simp only [List.length_append, List.length_tail] at hn ⊢
    omega)]

/-- **What the renderer's loop appends is read back.** -/
theorem renderLoop_reads {document text : List Char} {vars : List (String × String)}
    (hdocument : document ≠ []) (h : renderLoop document vars = .ok text) :
    ∃ s, text = document ++ s ∧ AtLineEnd s ∧ Reads s.tail vars := by
  induction vars generalizing document with
  | nil => exact ⟨[], by simpa using (Except.ok.inj h).symm, by rintro c ⟨⟩, reads_nil⟩
  | cons var vars ih =>
    obtain ⟨key, value⟩ := var
    have hempty : document.isEmpty = false := by simpa using hdocument
    rw [renderLoop, hempty] at h
    cases hline : renderVar key value with
    | error e => rw [hline] at h; cases h
    | ok line =>
      rw [hline] at h
      obtain ⟨s, rfl, hs, hreads⟩ := ih (by simp) h
      refine ⟨'\n' :: (line ++ s), by simp, ?_, hreads.cons hline hs⟩
      rintro c ⟨⟩
      rfl

theorem render_reads {text : String} {vars : List (String × String)} (h : render vars = .ok text) :
    Reads text.toList vars ∧ text.toList.head? ≠ some '\uFEFF' := by
  cases hloop : renderLoop [] vars with
  | error e => rw [render, hloop] at h; cases h
  | ok chars =>
    rw [render, hloop] at h
    obtain rfl := Except.ok.inj h
    rw [String.toList_ofList]
    rcases vars with _ | ⟨⟨key, value⟩, vars⟩
    · obtain rfl := Except.ok.inj hloop
      exact ⟨reads_nil, by simp⟩
    · rw [renderLoop] at hloop
      cases hline : renderVar key value with
      | error e => rw [hline] at hloop; cases hloop
      | ok line =>
        rw [hline] at hloop
        obtain ⟨hkey, rendered, -, rfl⟩ := renderVar_eq_ok hline
        obtain ⟨s, rfl, hs, hreads⟩ := renderLoop_reads (by simp) hloop
        refine ⟨hreads.cons hline hs, ?_⟩
        have hmark := hkey.noByteOrderMark
        obtain ⟨c, cs, hc⟩ := List.exists_cons_of_ne_nil hkey.nonempty
        rw [hc] at hmark ⊢
        exact hmark

/-- **Rendering and parsing are inverse.**  Whatever `render` accepts, the
parser without substitution yields again, pair by pair and in order, with
multiline values on or off and whatever variables it starts with. -/
theorem parse_render {vars : List (String × String)} {text : String}
    (h : render vars = .ok text) (options : ParseOptions) (hoptions : options.substitution = false)
    (baseVariables protectedVariables : String → Option String) (inputOverrides : Bool) :
    (Parser.new text options baseVariables protectedVariables inputOverrides).toEntries =
      vars.map .ok := by
  obtain ⟨hreads, hmark⟩ := render_reads h
  apply hreads _ _ hoptions rfl
  · simp [Parser.new, hmark]
  · simp [Parser.new, hmark]

/-- A document with each form: as it is, quoted for its blanks, quoted with
escapes, and empty. -/
theorem parse_render_sample :
    render [("A", "it's a#b"), ("B", " x "), ("C", "l1\nl2 \"$q\\"), ("D", "")] =
        .ok "A=it's a#b\nB=\" x \"\nC=\"l1\\nl2 \\\"\\$q\\\\\"\nD=" ∧
      (Parser.new "A=it's a#b\nB=\" x \"\nC=\"l1\\nl2 \\\"\\$q\\\\\"\nD=" ⟨false, false⟩
        (fun _ => none) (fun _ => none) true).toEntries =
      [("A", "it's a#b"), ("B", " x "), ("C", "l1\nl2 \"$q\\"), ("D", "")].map .ok := by
  have hrender : render [("A", "it's a#b"), ("B", " x "), ("C", "l1\nl2 \"$q\\"), ("D", "")] =
      .ok "A=it's a#b\nB=\" x \"\nC=\"l1\\nl2 \\\"\\$q\\\\\"\nD=" := by decide
  exact ⟨hrender, parse_render hrender ⟨false, false⟩ rfl _ _ _⟩

end Dotenv
end Mise
