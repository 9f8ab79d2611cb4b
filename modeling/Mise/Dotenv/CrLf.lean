/-
# A dotenv text saved with CR LF

`crates/mise-dotenv/src/parse.rs`: what a text with CR LF for every newline means.  The
parsers of the two texts move side by side, from assignment to assignment, for as long
as no value keeps a line end as it is written; the first that does so differs.  So the
texts mean the same exactly where no value keeps one (`parse_crlf_iff`).
-/

import Mise.Dotenv.CrLfValues

namespace Mise
namespace Dotenv

open Lib

namespace Parser

variable {p q : Parser} {c c' : Cursor}

/-! ### Assignments -/

/-- The key of an assignment, and where its value starts. -/
def assignmentHead (c : Cursor) : Except ParseError (List Char × Cursor) :=
  let start := c.consumeExportPrefix
  (scanKey start.before start.rest).bind fun key =>
    if key.isEmpty then .error (start.error .missingKey)
    else
      let equals := (start.forward key.length).skipHorizontalWhitespace
      if equals.rest.head? ≠ some '=' then .error (equals.error .missingEquals)
      else .ok (key, (equals.forward 1).skipHorizontalWhitespace)

/-- Whether a value starts at a position, and not the end of its line. -/
def StartsValue (c : Cursor) : Prop :=
  ∃ a, c.rest.head? = some a ∧ isNewline a = false ∧ a ≠ '#'

/-- The value of an assignment. -/
def assignmentValue (p : Parser) (c : Cursor) : Except ParseError (List Char × Cursor) :=
  match c.rest.head? with
  | none => .ok ([], c.consumeNewline)
  | some a =>
    if isNewline a then .ok ([], c.consumeNewline)
    else if a = '#' then .ok ([], c.skipComment)
    else p.parseValue c

/-- An assignment is its head and its value. -/
theorem parseAssignment_eq (p : Parser) : p.parseAssignment =
    (assignmentHead p.cursor).bind fun head =>
      (p.assignmentValue head.2).map fun r => ((String.ofList head.1, String.ofList r.1), r.2) := by
  rw [parseAssignment, assignmentHead]
  dsimp only
  cases scanKey p.cursor.consumeExportPrefix.before p.cursor.consumeExportPrefix.rest with
  | error e => rfl
  | ok key =>
    show (if key.isEmpty then _ else _) = Except.bind (if key.isEmpty then _ else _) _
    split
    · rfl
    split
    · rfl
    · dsimp only [Except.bind]
      generalize Cursor.skipHorizontalWhitespace (Cursor.forward 1 _) = c
      rw [assignmentValue]
      cases c.rest.head? with
      | none => rfl
      | some a =>
        dsimp only
        split
        · rfl
        split
        · rfl
        · rfl

/-- **A key is the same**: it stands on its line. -/
theorem scanKey_crlf {before cs : List Char} (hplain : Cursor.Plain ⟨before, cs⟩) :
    Matches (fun key key' _ => key' = key ∧ '\n' ∉ key ∧ key <+: cs) (scanKey before cs)
      (scanKey (crlf before.reverse).reverse (crlf cs)) False := by
  have hstop : ∀ cs : List Char, Matches (fun key key' _ => key' = key ∧ '\n' ∉ key ∧ key <+: cs)
      (.ok []) (.ok []) False :=
    fun cs => .ok ⟨rfl, List.not_mem_nil, List.nil_prefix⟩
  induction cs generalizing before with
  | nil => exact hstop []
  | cons a cs ih =>
    by_cases hn : a = '\n'
    · subst hn
      exact hstop _
    have herror := @matches_error_at (List Char)
      (fun key key' _ => key' = key ∧ '\n' ∉ key ∧ key <+: a :: cs) _ hplain
      (.invalidKeyCharacter a)
    have hnext := ih (plain_cons_iff.2 hplain)
    rw [Cursor.crlf, crlf_cons hn] at herror
    rw [reverse_crlf_cons hn] at hnext
    rw [crlf_cons hn, scanKey, scanKey]
    split
    · exact hstop _
    split
    · exact hstop _
    split
    · exact herror
    · refine hnext.map fun key key' _ hkey => ?_
      obtain ⟨rfl, hnone, hprefix⟩ := hkey
      refine ⟨rfl, ?_, List.cons_prefix_cons.2 ⟨rfl, hprefix⟩⟩
      exact List.mem_cons.not.2 (not_or.2 ⟨Ne.symm hn, hnone⟩)

theorem assignmentHead_crlf (hplain : c.Plain) :
    Matches (fun head head' _ => head' = (head.1, head.2.crlf) ∧ '\n' ∉ head.1 ∧
      c.Passes head.2) (assignmentHead c) (assignmentHead c.crlf) False := by
  have hpass := Cursor.passes_consumeExportPrefix c
  have hplain' := hplain.passes hpass
  rw [assignmentHead, assignmentHead, Cursor.consumeExportPrefix_crlf]
  refine (scanKey_crlf hplain').bind (fun _ => Iff.rfl) fun _ key _ hkey => ?_
  obtain ⟨rfl, hnone, hprefix⟩ := hkey
  replace hprefix : key <+: c.consumeExportPrefix.rest := hprefix
  have hpass₁ := hpass.trans (Cursor.passes_forward hprefix.length_le)
  have hforward : c.consumeExportPrefix.crlf.forward key.length =
      (c.consumeExportPrefix.forward key.length).crlf := by
    refine Cursor.forward_crlf_of_not_mem hprefix.length_le ?_
    rw [← List.prefix_iff_eq_take.1 hprefix]
    exact hnone
  have hpass₂ := hpass₁.trans (Cursor.passes_skipHorizontalWhitespace _)
  dsimp only
  rw [hforward, Cursor.skipHorizontalWhitespace_crlf, Cursor.rest_crlf]
  split
  · exact matches_error_at hplain' _
  have hsign := not_congr (@head?_crlf_eq_some_iff '=' (by decide) (by decide)
    (c.consumeExportPrefix.forward key.length).skipHorizontalWhitespace.rest)
  simp only [ne_eq, hsign]
  split
  · exact matches_error_at (hplain.passes hpass₂) _
  · case isFalse hequals =>
    have hhead := not_not.1 hequals
    rw [forward_one_crlf hhead (by decide), Cursor.skipHorizontalWhitespace_crlf]
    refine .ok ⟨rfl, hnone, (hpass₂.trans (Cursor.passes_forward ?_)).trans
      (Cursor.passes_skipHorizontalWhitespace _)⟩
    exact List.length_pos_of_mem (List.mem_of_mem_head? hhead)


variable (p) in
/-- A value starts at a position and keeps a line end. -/
def AssignedKeeps (c : Cursor) : Prop := StartsValue c ∧ p.ValueKeeps true c

/-- A value has its counterpart, unless it keeps a line end. -/
theorem assignmentValue_crlf (h : Counterpart c.rest p q) (hplain : c.Plain) :
    Matches SegmentMatches (p.assignmentValue c) (q.assignmentValue c.crlf)
      (p.AssignedKeeps c) := by
  have hno : ∀ {r r' : List Char × Cursor}, ¬StartsValue c → r'.1 = r.1 → r'.2 = r.2.crlf →
      Matches SegmentMatches (.ok r) (.ok r') (p.AssignedKeeps c) := by
    intro r r' hstart htext hpos
    refine .ok ⟨?_, hpos⟩
    rw [htext]
    exact (textMatches_refl _).congr (iff_of_false (fun h => hstart h.1) id)
  have hstarts : ∀ {a}, c.rest.head? = some a →
      (StartsValue c ↔ isNewline a = false ∧ a ≠ '#') := by
    intro a ha
    constructor
    · rintro ⟨b, hb, h⟩
      obtain rfl := Option.some.inj (ha.symm.trans hb)
      exact h
    · exact fun h => ⟨a, ha, h⟩
  have hhead := head?_crlf c.rest
  rw [assignmentValue, assignmentValue, Cursor.rest_crlf, hhead,
    Cursor.consumeNewline_crlf hplain.rest, Cursor.skipComment_crlf hplain.rest]
  cases ha : c.rest.head? with
  | none =>
    refine hno ?_ rfl rfl
    rintro ⟨a, ha', -⟩
    exact Option.some_ne_none a (ha'.symm.trans ha)
  | some a =>
    dsimp only [Option.map_some]
    by_cases hn : a = '\n'
    · subst hn
      refine hno ?_ rfl rfl
      rw [hstarts ha]
      exact fun h => absurd h.1 (by decide)
    have hr : a ≠ '\r' := fun heq => hplain.rest (heq ▸ List.mem_of_mem_head? ha)
    have hnewline : isNewline a = false := by simp [isNewline, hn, hr]
    rw [if_neg hn, hnewline, if_neg Bool.false_ne_true, if_neg Bool.false_ne_true]
    split
    · case isTrue hsign =>
      refine hno ?_ rfl rfl
      rw [hstarts ha]
      exact fun h => h.2 hsign
    · case isFalse hsign =>
      have hkeeps : p.AssignedKeeps c ↔ p.ValueKeeps true c :=
        and_iff_right ((hstarts ha).2 ⟨hnewline, hsign⟩)
      have hread := parseSegments_crlf true h hplain (Nat.lt_succ_self _) (Nat.lt_succ_self _)
      exact hread.congr hkeeps fun _ _ h => ⟨h.1.congr hkeeps, h.2⟩

variable (p) in
/-- The value of the assignment at the cursor keeps a line end. -/
def AssignmentKeeps : Prop :=
  ∃ head, assignmentHead p.cursor = .ok head ∧ p.AssignedKeeps head.2

/-- The counterpart of an assignment and the position behind it. -/
structure AssignmentMatches (r r' : (String × String) × Cursor) (kept : Prop) : Prop where
  key : r'.1.1 = r.1.1
  oneLine : '\n' ∉ r.1.1.toList
  value : r'.1.2 = r.1.2 ↔ ¬kept
  cursor : r'.2 = r.2.crlf

theorem parseAssignment_crlf (h : Counterpart p.cursor.rest p q) (hplain : p.cursor.Plain)
    (hcursor : q.cursor = p.cursor.crlf) :
    Matches AssignmentMatches p.parseAssignment q.parseAssignment p.AssignmentKeeps := by
  rw [parseAssignment_eq, parseAssignment_eq, hcursor]
  refine (assignmentHead_crlf hplain).bind (fun herror => ?_) fun head head' hhead hmatches => ?_
  · refine iff_of_false ?_ id
    rintro ⟨head, hhead, -⟩
    exact herror head hhead
  · obtain ⟨rfl, hnone, hpass⟩ := hmatches
    have hkeeps : p.AssignmentKeeps ↔ p.AssignedKeeps head.2 := by
      refine ⟨?_, fun h => ⟨head, hhead, h⟩⟩
      rintro ⟨head', hhead', h⟩
      exact Except.ok.inj (hhead.symm.trans hhead') ▸ h
    have hread : Matches AssignmentMatches
        ((p.assignmentValue head.2).map fun r =>
          ((String.ofList head.1, String.ofList r.1), r.2))
        ((q.assignmentValue head.2.crlf).map fun r =>
          ((String.ofList head.1, String.ofList r.1), r.2)) (p.AssignedKeeps head.2) := by
      refine (assignmentValue_crlf (h.passes hpass) (hplain.passes hpass)).map fun r r' _ hr => ?_
      refine ⟨rfl, ?_, String.ofList_inj.trans hr.1.eq_iff, hr.2⟩
      rw [String.toList_ofList]
      exact hnone
    exact hread.congr hkeeps fun _ _ h =>
      ⟨h.key, h.oneLine, h.value.trans (not_congr hkeeps).symm, h.cursor⟩

/-! ### Entries -/

theorem roundAt_crlf (hplain : c.Plain) :
    roundAt c.crlf =
      match roundAt c with
      | .ends => .ends
      | .skips c' => .skips c'.crlf
      | .reads => .reads := by
  have hsign := @head?_crlf_eq_some_iff '#' (by decide) (by decide) c.rest
  rw [roundAt, roundAt, Cursor.rest_crlf, isEmpty_crlf, Cursor.consumeNewline?_crlf hplain.rest,
    Cursor.skipComment_crlf hplain.rest]
  simp only [hsign]
  split
  · rfl
  cases c.consumeNewline? with
  | some c' => rfl
  | none =>
    dsimp only [Option.map_none]
    split
    · rfl
    · rfl

theorem nextAssignment_crlf {fuel fuel' : ℕ} (hplain : c.Plain) (hfuel : c.rest.length < fuel)
    (hfuel' : c.crlf.rest.length < fuel') :
    nextAssignment fuel' c.crlf = (nextAssignment fuel c).map Cursor.crlf := by
  induction fuel generalizing fuel' c with
  | zero => exact absurd hfuel (Nat.not_lt_zero _)
  | succ fuel ih =>
    cases fuel' with
    | zero => exact absurd hfuel' (Nat.not_lt_zero _)
    | succ fuel' =>
      have hspace := Cursor.passes_skipHorizontalWhitespace c
      rw [nextAssignment, nextAssignment, Cursor.skipHorizontalWhitespace_crlf,
        roundAt_crlf (hplain.passes hspace)]
      cases hround : roundAt c.skipHorizontalWhitespace with
      | ends => rfl
      | reads => rfl
      | skips c' =>
        obtain ⟨hpass, hlt⟩ := passes_of_roundAt hround
        have hpass' := hspace.trans hpass
        have hshorter := hlt.trans_le hspace.length_le
        have hshorter' := length_crlf_lt hpass' hshorter
        exact ih (hplain.passes hpass') (by omega) (by omega)

/-- What a text has in braces is bound alike with either line ends. -/
def Blind (text : List Char) (known : String → Option String) : Prop :=
  ∀ name, '{' :: name ++ ['}'] <:+: text →
    known (String.ofList (crlf name)) = known (String.ofList name)

theorem Blind.mono {text text' : List Char} {known : String → Option String}
    (h : Blind text known) (hin : text' <:+: text) : Blind text' known :=
  fun name hname => h name (hname.trans hin)

/-- A name without a line end can be bound. -/
theorem Blind.update {text : List Char} {known : String → Option String} (h : Blind text known)
    {key : String} (hkey : '\n' ∉ key.toList) (value : String) :
    Blind text (Function.update known key (some value)) := by
  intro name hin
  have hiff : String.ofList (crlf name) = key ↔ String.ofList name = key := by
    have hself : ∀ cs : List Char, String.ofList cs = key ↔ cs = key.toList := by
      intro cs
      rw [← String.ofList_inj, String.ofList_toList]
    rw [hself, hself]
    constructor
    · intro heq
      have hname : '\n' ∉ name := by
        intro hmem
        have hcrlf : '\n' ∈ crlf name :=
          List.mem_flatMap.2 ⟨'\n', hmem, List.mem_cons_of_mem _ List.mem_cons_self⟩
        exact hkey (heq ▸ hcrlf)
      rw [← heq, crlf_eq_self hname]
    · rintro rfl
      exact crlf_eq_self hkey
  by_cases heq : String.ofList name = key
  · rw [hiff.2 heq, heq]
  · rw [Function.update_of_ne heq, Function.update_of_ne (mt hiff.1 heq), h name hin]

/-- A parser in a text whose line ends are newlines, with such variables. -/
structure Plain (p : Parser) : Prop where
  cursor : p.cursor.Plain
  baseVariables : Blind p.cursor.rest p.baseVariables
  protectedVariables : Blind p.cursor.rest p.protectedVariables
  parsedVariables : Blind p.cursor.rest p.parsedVariables

/-- The parser at the counterpart of its position. -/
def saved (p : Parser) : Parser := p.moveTo p.cursor.crlf

theorem Plain.moveTo (h : p.Plain) (hc : p.cursor.Passes c) : (p.moveTo c).Plain := by
  have hin : c.rest <:+: p.cursor.rest := hc.suffix.isInfix
  exact ⟨h.cursor.passes hc, h.baseVariables.mono hin, h.protectedVariables.mono hin,
    h.parsedVariables.mono hin⟩

theorem Plain.counterpart (h : p.Plain) : Counterpart p.cursor.rest p p.saved := by
  refine ⟨rfl, rfl, fun name hin => ?_⟩
  rw [variableValue, variableValue]
  rw [h.baseVariables name hin, h.protectedVariables name hin, h.parsedVariables name hin]

/-- Entries that mean the same: the same name with the same value, or an error of the
same kind on the same line. -/
def SameEntry : Except ParseError (String × String) → Except ParseError (String × String) → Prop
  | .ok entry, .ok entry' => entry' = entry
  | .error e, .error e' => e'.kind = e.kind ∧ e'.line = e.line
  | _, _ => False

/-- The same entries in the same order. -/
def SameMeaning (read read' : List (Except ParseError (String × String))) : Prop :=
  List.Forall₂ SameEntry read read'

theorem SameMeaning.kinds_eq {read read' : List (Except ParseError (String × String))}
    (h : SameMeaning read read') : read'.map kinds = read.map kinds := by
  induction h with
  | nil => rfl
  | @cons x x' read read' hentry _ ih =>
    have hkinds : kinds x' = kinds x := by
      cases x with
      | ok entry =>
        cases x' with
        | ok entry' => exact congrArg Except.ok hentry
        | error e' => exact hentry.elim
      | error e =>
        cases x' with
        | ok entry' => exact hentry.elim
        | error e' => exact congrArg Except.error hentry.1
    rw [List.map_cons, List.map_cons, hkinds, ih]

/-- **Some value of a text keeps a line end as it is written.** -/
inductive TextKeeps : Parser → Prop
  | here {p : Parser} {c : Cursor}
      (h : nextAssignment (p.cursor.rest.length + 1) p.cursor = some c)
      (hkeeps : (p.moveTo c).AssignmentKeeps) : TextKeeps p
  | later {p p' : Parser} {entry : String × String} (h : p.nextEntry = (some (.ok entry), p'))
      (hlater : TextKeeps p') : TextKeeps p

/-- The parser behind an assignment. -/
def bind (p : Parser) (key value : String) (c : Cursor) : Parser :=
  { p with
    cursor := c
    parsedVariables := Function.update p.parsedVariables key (some value) }

/-- The next value keeps a line end, or a later one does. -/
theorem textKeeps_iff (h : nextAssignment (p.cursor.rest.length + 1) p.cursor = some c) :
    TextKeeps p ↔ (p.moveTo c).AssignmentKeeps ∨
      ∃ entry p', p.nextEntry = (some (.ok entry), p') ∧ TextKeeps p' := by
  constructor
  · intro hkeeps
    cases hkeeps with
    | here h' hkeeps =>
      obtain rfl := Option.some.inj (h.symm.trans h')
      exact .inl hkeeps
    | later h' hlater => exact .inr ⟨_, _, h', hlater⟩
  · rintro (hkeeps | ⟨entry, p', h', hlater⟩)
    · exact .here h hkeeps
    · exact .later h' hlater

theorem sameMeaning_cons_iff {x x' : Except ParseError (String × String)}
    {xs xs' : List (Except ParseError (String × String))} :
    SameMeaning (x :: xs) (x' :: xs') ↔ SameEntry x x' ∧ SameMeaning xs xs' := List.forall₂_cons

/-- **What is read of a text and of its counterpart** is the same where no value keeps a
line end. -/
theorem sameMeaning_saved (h : p.Plain) (hfailed : p.failed = false) :
    SameMeaning p.toEntries p.saved.toEntries ↔ ¬TextKeeps p := by
  induction hlength : p.cursor.rest.length using Nat.strong_induction_on generalizing p with
  | _ n ih =>
    subst hlength
    have hnext := nextEntry_of_not_failed hfailed
    have hnext' : p.saved.nextEntry =
        nextEntryLoop (p.cursor.crlf.rest.length + 1) p.saved := nextEntry_of_not_failed hfailed
    have hassignment : nextAssignment (p.cursor.crlf.rest.length + 1) p.saved.cursor = _ :=
      nextAssignment_crlf h.cursor (Nat.lt_succ_self _) (Nat.lt_succ_self _)
    cases hfound : nextAssignment (p.cursor.rest.length + 1) p.cursor with
    | none =>
      rw [hfound] at hassignment
      have hp : p.nextEntry = (none, p.nextEntry.2) :=
        Prod.ext ((congrArg Prod.fst hnext).trans (nextEntryLoop_of_none hfound)) rfl
      have hq : p.saved.nextEntry = (none, p.saved.nextEntry.2) :=
        Prod.ext ((congrArg Prod.fst hnext').trans (nextEntryLoop_of_none hassignment)) rfl
      rw [toEntries_of_none hp, toEntries_of_none hq]
      refine iff_of_true .nil fun hkeeps => ?_
      cases hkeeps with
      | here h' _ => exact Option.some_ne_none _ (h'.symm.trans hfound)
      | later h' _ => exact Option.some_ne_none _ (Prod.mk.inj (h'.symm.trans hp)).1
    | some c =>
      rw [hfound] at hassignment
      rw [nextEntryLoop_of_some hfound] at hnext
      rw [nextEntryLoop_of_some hassignment] at hnext'
      have hpass := passes_of_nextAssignment hfound
      have hplain := h.moveTo hpass
      have hread := parseAssignment_crlf hplain.counterpart hplain.cursor rfl
      have hsaved : (p.saved.moveTo c.crlf).parseAssignment =
          (p.moveTo c).saved.parseAssignment := rfl
      rw [hsaved] at hnext'
      rw [textKeeps_iff hfound]
      generalize hassign : (p.moveTo c).parseAssignment = x at hread hnext
      generalize (p.moveTo c).saved.parseAssignment = x' at hread hnext'
      generalize (p.moveTo c).AssignmentKeeps = kept at hread ⊢
      cases hread with
      | error hline hkind =>
        rw [toEntries_of_error hnext, toEntries_of_error hnext', sameMeaning_cons_iff]
        have hlast : ¬∃ entry p', p.nextEntry = (some (.ok entry), p') ∧ TextKeeps p' := by
          rintro ⟨entry, p', h', -⟩
          cases Option.some.inj (Prod.mk.inj (h'.symm.trans hnext)).1
        rw [or_iff_left hlast, ← hkind]
        exact (and_iff_left .nil).trans (and_iff_left hline)
      | @ok a a' kept hmatches =>
        obtain ⟨⟨_, value⟩, c₁⟩ := a
        obtain ⟨⟨key, value'⟩, _⟩ := a'
        obtain ⟨hkey, hone, hvalue, hcursor⟩ := hmatches
        dsimp only at hkey hone hvalue hcursor
        subst hkey hcursor
        have hlater : (∃ entry p', p.nextEntry = (some (.ok entry), p') ∧ TextKeeps p') ↔
            TextKeeps (p.bind key value c₁) := by
          refine ⟨?_, fun h => ⟨(key, value), _, hnext, h⟩⟩
          rintro ⟨entry, p', h', hkeeps⟩
          obtain rfl := (Prod.mk.inj (hnext.symm.trans h')).2
          exact hkeeps
        have hentry : SameEntry (.ok (key, value)) (.ok (key, value')) ↔ ¬kept := by
          show (key, value') = (key, value) ↔ ¬kept
          rw [Prod.mk.injEq, and_iff_right rfl]
          exact hvalue
        rw [toEntries_of_nextEntry hnext, toEntries_of_nextEntry hnext', sameMeaning_cons_iff,
          hentry, hlater, not_or]
        refine and_congr_right fun hnot => ?_
        obtain rfl : value' = value := hvalue.2 hnot
        have hread := passes_of_parseAssignment hassign
        have hbehind := hplain.moveTo hread.1
        exact ih _ (hread.2.trans_le hpass.length_le) ⟨hbehind.cursor, hbehind.baseVariables,
          hbehind.protectedVariables, hbehind.parsedVariables.update hone value'⟩ hfailed rfl

/-! ### Texts -/

/-- The text with CR LF for every newline, and its parser. -/
theorem new_crlf (source : String) (options : ParseOptions)
    (baseVariables protectedVariables : String → Option String) (inputOverrides : Bool) :
    new (String.ofList (crlf source.toList)) options baseVariables protectedVariables
        inputOverrides =
      (new source options baseVariables protectedVariables inputOverrides).saved := by
  have hmark := @head?_crlf_eq_some_iff '\uFEFF' (by decide) (by decide) source.toList
  rw [saved, new, new, moveTo, Cursor.crlf, String.toList_ofList]
  simp only [hmark, List.reverse_nil, crlf_nil]
  refine congrArg (fun rest => Parser.mk ⟨[], rest⟩ options baseVariables protectedVariables
    (fun _ => none) inputOverrides false) ?_
  split
  · case isTrue h =>
    obtain ⟨rest, hrest⟩ := List.head?_eq_some_iff.1 h
    rw [hrest, crlf_cons (by decide)]
    rfl
  · rfl

theorem plain_new {source : String} (h : '\r' ∉ source.toList) (options : ParseOptions)
    {baseVariables protectedVariables : String → Option String}
    (hbase : Blind source.toList baseVariables)
    (hprotected : Blind source.toList protectedVariables) (inputOverrides : Bool) :
    (new source options baseVariables protectedVariables inputOverrides).Plain := by
  have hin : (new source options baseVariables protectedVariables inputOverrides).cursor.rest <:+:
      source.toList := by
    rw [new]
    dsimp only
    split
    · exact (List.tail_suffix _).isInfix
    · exact List.infix_rfl
  exact ⟨fun hmem => h (hin.subset hmem), hbase.mono hin, hprotected.mono hin, fun _ _ => rfl⟩

/-- **A text and the same text saved with CR LF** are read as the same entries, or errors of
the same kind on the same line, exactly where no value keeps a line end as it is written:
one behind a backslash, or one in braces that are no substitution. -/
theorem parse_crlf_iff (source : String) (options : ParseOptions)
    (baseVariables protectedVariables : String → Option String) (inputOverrides : Bool)
    (hsource : '\r' ∉ source.toList) (hbase : Blind source.toList baseVariables)
    (hprotected : Blind source.toList protectedVariables) :
    SameMeaning (new source options baseVariables protectedVariables inputOverrides).toEntries
        (new (String.ofList (crlf source.toList)) options baseVariables protectedVariables
          inputOverrides).toEntries ↔
      ¬TextKeeps (new source options baseVariables protectedVariables inputOverrides) := by
  rw [new_crlf]
  exact sameMeaning_saved (plain_new hsource options hbase hprotected inputOverrides) rfl

/-- A value over two lines. -/
theorem parse_crlf_iff_sample :
    SameMeaning (new "A=\"x\ny\"" ⟨true, true⟩ (fun _ => none) (fun _ => none) false).toEntries
        (new (String.ofList (crlf "A=\"x\ny\"".toList)) ⟨true, true⟩ (fun _ => none)
          (fun _ => none) false).toEntries ↔
      ¬TextKeeps (new "A=\"x\ny\"" ⟨true, true⟩ (fun _ => none) (fun _ => none) false) :=
  parse_crlf_iff "A=\"x\ny\"" ⟨true, true⟩ (fun _ => none) (fun _ => none) false (by decide)
    (fun _ _ => rfl) fun _ _ => rfl

/-- A backslash in front of a line end keeps it. -/
theorem not_parse_crlf :
    ¬SameMeaning (new "A=\"x\\\ny\"" ⟨true, true⟩ (fun _ => none) (fun _ => none) false).toEntries
      (new (String.ofList (crlf "A=\"x\\\ny\"".toList)) ⟨true, true⟩ (fun _ => none)
        (fun _ => none) false).toEntries := by
  have hread : (new "A=\"x\\\ny\"" ⟨true, true⟩ (fun _ => none) (fun _ => none) false).toEntries.map
      kinds = [.ok ("A", "x\\\ny")] := by
    decide
  have hread' : (new (String.ofList (crlf "A=\"x\\\ny\"".toList)) ⟨true, true⟩ (fun _ => none)
      (fun _ => none) false).toEntries.map kinds = [.ok ("A", "x\\\r\ny")] := by
    decide
  intro h
  have hkinds := hread'.symm.trans (h.kinds_eq.trans hread)
  exact absurd hkinds (by decide)

end Parser

end Dotenv
end Mise
