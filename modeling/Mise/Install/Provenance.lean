/-
# What an update of a record leaves behind

`update_provenance` of `src/install_layout/catalog.rs` merges what it is given
into the record it finds, under the lock.  A merge loses no pin, no generation
and no algorithm (`Provenance.merge`), and updates alone therefore add up.  The
records of one identity are written by two other calls as well, `allocate` and
`rebuild_from_receipts`, and these write them whole: the first a new record, the
second the one that the receipt was given at the installation.  Where one of
them writes over a record, what was merged into it is gone.

The runs here begin from any files and may lose reservations at any moment
(`Weathers`).  In those in which no such write is made (`Careful`), a record
keeps what an update merged into it (`provenance_grows`).
-/

import Mise.Install.CatalogOwnership

namespace Mise.Install

open Lib Discipline

/-! ### Merging -/

/-- A loop that appends what is not yet there appends every new element once. -/
theorem foldl_push_new {α : Type} [DecidableEq α] (l xs : List α) :
    ∃ added, l.foldl (fun xs x => if x ∈ xs then xs else xs ++ [x]) xs = xs ++ added ∧
      added.Nodup ∧ ∀ x, x ∈ added ↔ x ∈ l ∧ x ∉ xs := by
  induction l generalizing xs with
  | nil => exact ⟨[], (List.append_nil xs).symm, List.nodup_nil, fun x => by simp⟩
  | cons y l ih =>
    rw [List.foldl_cons]
    by_cases hy : y ∈ xs
    · rw [if_pos hy]
      obtain ⟨added, heq, hnodup, hmem⟩ := ih xs
      refine ⟨added, heq, hnodup, fun x => ?_⟩
      rw [hmem x, List.mem_cons]
      constructor
      · exact fun h => ⟨.inr h.1, h.2⟩
      · rintro ⟨rfl | h, hx⟩
        · exact absurd hy hx
        · exact ⟨h, hx⟩
    · rw [if_neg hy]
      obtain ⟨added, heq, hnodup, hmem⟩ := ih (xs ++ [y])
      have hnew : y ∉ added := fun h => ((hmem y).1 h).2 (by simp)
      refine ⟨y :: added, by rw [heq, List.append_assoc, List.singleton_append],
        List.nodup_cons.2 ⟨hnew, hnodup⟩, fun x => ?_⟩
      rw [List.mem_cons, List.mem_cons, hmem x, List.mem_append, List.mem_singleton]
      constructor
      · rintro (rfl | h)
        · exact ⟨.inl rfl, hy⟩
        · exact ⟨.inr h.1, fun hx => h.2 (.inl hx)⟩
      · rintro ⟨rfl | h, hx⟩
        · exact .inl rfl
        · by_cases heq : x = y
          · exact .inl heq
          · exact .inr ⟨h, not_or.2 ⟨hx, heq⟩⟩

namespace Provenance

/-- A merge adds the pins that are not there yet, each once. -/
theorem pinnedBy_merge (m q : Provenance) : ∃ added, (m.merge q).pinnedBy = m.pinnedBy ++ added ∧
    added.Nodup ∧ ∀ x, x ∈ added ↔ x ∈ q.pinnedBy ∧ x ∉ m.pinnedBy :=
  foldl_push_new q.pinnedBy m.pinnedBy

theorem mem_pinnedBy_merge {m q : Provenance} {x : String} :
    x ∈ (m.merge q).pinnedBy ↔ x ∈ m.pinnedBy ∨ x ∈ q.pinnedBy := by
  obtain ⟨added, heq, -, hmem⟩ := pinnedBy_merge m q
  rw [heq, List.mem_append, hmem x]
  constructor
  · rintro (h | h)
    · exact .inl h
    · exact .inr h.1
  · rintro (h | h)
    · exact .inl h
    · by_cases hx : x ∈ m.pinnedBy
      · exact .inl hx
      · exact .inr ⟨h, hx⟩

/-- A merge takes the digests that are merged in over those there were. -/
theorem get_artifacts_merge (m q : Provenance) (a : String) :
    (m.merge q).artifacts[a]? = q.artifacts[a]?.or m.artifacts[a]? := by
  have hget := BTreeMap.get_foldl (fun (m : BTreeMap String String) (k : String) => m[k]?)
    (fun m k v => m.insert k v) (fun _ v _ => some v)
    (fun (m : BTreeMap String String) a v k => BTreeMap.get_insert m a k v) q.artifacts
    m.artifacts a
  show (q.artifacts.foldl (fun m k v => m.insert k v) m.artifacts)[a]? = _
  rw [hget]
  cases q.artifacts[a]? with
  | none => rfl
  | some d => rfl

/-! ### Merging in turn -/

/-- Pins stay when more is merged. -/
theorem mem_pinnedBy_foldl {x : String} {qs : List Provenance} {m : Provenance}
    (hx : x ∈ m.pinnedBy) : x ∈ (qs.foldl merge m).pinnedBy := by
  induction qs generalizing m with
  | nil => exact hx
  | cons q qs ih => exact ih (mem_pinnedBy_merge.2 (.inl hx))

/-- The generation does not fall when more is merged. -/
theorem generation_le_foldl (qs : List Provenance) (m : Provenance) :
    m.generation ≤ (qs.foldl merge m).generation := by
  induction qs generalizing m with
  | nil => exact le_rfl
  | cons q qs ih => exact (le_max_left m.generation q.generation).trans (ih (m.merge q))

/-- An algorithm keeps a digest when more is merged: the one it had or one that
was merged. -/
theorem artifact_foldl {a d : String} (qs : List Provenance) {m : Provenance}
    (hd : m.artifacts[a]? = some d) : ∃ d', (qs.foldl merge m).artifacts[a]? = some d' ∧
      (d' = d ∨ ∃ q ∈ qs, q.artifacts[a]? = some d') := by
  induction qs generalizing m d with
  | nil => exact ⟨d, hd, .inl rfl⟩
  | cons q qs ih =>
    have hmerge := get_artifacts_merge m q a
    cases hq : q.artifacts[a]? with
    | none =>
      rw [hq, Option.none_or, hd] at hmerge
      obtain ⟨d', hd', hfrom⟩ := ih hmerge
      refine ⟨d', hd', hfrom.imp_right ?_⟩
      exact fun ⟨q', hq', hget⟩ => ⟨q', List.mem_cons_of_mem q hq', hget⟩
    | some e =>
      rw [hq, Option.some_or] at hmerge
      obtain ⟨d', hd', rfl | ⟨q', hq', hget⟩⟩ := ih hmerge
      · exact ⟨d', hd', .inr ⟨q, List.mem_cons_self, hq⟩⟩
      · exact ⟨d', hd', .inr ⟨q', List.mem_cons_of_mem q hq', hget⟩⟩

/-- **Merges of different algorithms commute**, up to the order of the pins. -/
theorem merge_merge_comm {m q q' : Provenance}
    (hdiff : ∀ a : String, q.artifacts[a]? = none ∨ q'.artifacts[a]? = none) :
    ∃ pins, pins.Perm ((m.merge q).merge q').pinnedBy ∧
      (m.merge q').merge q = { (m.merge q).merge q' with pinnedBy := pins } := by
  refine ⟨((m.merge q').merge q).pinnedBy, ?_, ?_⟩
  · obtain ⟨new, hnew, hnodup, hmem⟩ := pinnedBy_merge m q
    obtain ⟨new', hnew', hnodup', hmem'⟩ := pinnedBy_merge m q'
    obtain ⟨rest, hrest, hnodupr, hmemr⟩ := pinnedBy_merge (m.merge q) q'
    obtain ⟨rest', hrest', hnodupr', hmemr'⟩ := pinnedBy_merge (m.merge q') q
    rw [hrest, hrest', hnew, hnew', List.append_assoc, List.append_assoc]
    refine List.Perm.append_left m.pinnedBy ?_
    have hone : (new ++ rest).Nodup := List.Nodup.append hnodup hnodupr fun x hx hx' =>
      ((hmemr x).1 hx').2 (mem_pinnedBy_merge.2 (.inr ((hmem x).1 hx).1))
    have hone' : (new' ++ rest').Nodup := List.Nodup.append hnodup' hnodupr' fun x hx hx' =>
      ((hmemr' x).1 hx').2 (mem_pinnedBy_merge.2 (.inr ((hmem' x).1 hx).1))
    rw [List.perm_ext_iff_of_nodup hone' hone]
    intro x
    rw [List.mem_append, List.mem_append, hmem x, hmem' x, hmemr x, hmemr' x, mem_pinnedBy_merge,
      mem_pinnedBy_merge]
    tauto
  · have hartifacts : ((m.merge q').merge q).artifacts = ((m.merge q).merge q').artifacts := by
      refine Std.ExtTreeMap.ext_getElem? fun {a : String} => ?_
      simp only [get_artifacts_merge]
      rcases hdiff a with h | h
      · rw [h, Option.none_or, Option.none_or]
      · rw [h, Option.none_or, Option.none_or]
    have hgeneration : ((m.merge q').merge q).generation = ((m.merge q).merge q').generation :=
      max_right_comm m.generation q'.generation q.generation
    exact congrArg₂ (fun artifacts generation =>
      Provenance.mk artifacts ((m.merge q').merge q).pinnedBy generation) hartifacts hgeneration

end Provenance

variable (sys : Externals)

/-! ### Finding and writing a record -/

/-- The record that `lookup` finds. -/
def recordOf (s : Files) (i : InstallIdentity) : Option IdentityRecord :=
  ((s.records (homeOf sys i)).filter (·.isConsistent sys)).filter (·.digest == i.digestText sys)

/-- What `write_record` does. -/
def Files.write (path : String × String) (record : IdentityRecord) (s : Files) : Files :=
  { s with records := Function.update s.records path (some record) }

/-- The files once the record `r` of an identity is written with this provenance. -/
def Files.rewrite (s : Files) (i : InstallIdentity) (r : IdentityRecord) (provenance : Provenance) :
    Files :=
  s.write (recordPath sys i r.digest) { r with provenance := provenance }

theorem Files.records_write (path : String × String) (record : IdentityRecord) (s : Files) :
    (s.write path record).records = Function.update s.records path (some record) := rfl

variable {sys} {s t : Files} {i i' : InstallIdentity} {r : IdentityRecord}

theorem recordOf_congr (hrecords : t.records = s.records) (i : InstallIdentity) :
    recordOf sys t i = recordOf sys s i := by
  rw [recordOf, recordOf, hrecords]

theorem digest_of_recordOf (hr : recordOf sys s i = some r) : r.digest = i.digestText sys :=
  beq_iff_eq.1 (Option.filter_eq_some_iff.1 hr).2

/-- A record that was found is found again with the provenance it is written
with, and no other record changes. -/
theorem recordOf_rewrite (hr : recordOf sys s i = some r) (provenance : Provenance)
    (i' : InstallIdentity) : recordOf sys (s.rewrite sys i r provenance) i' =
      if homeOf sys i' = homeOf sys i then some { r with provenance := provenance }
      else recordOf sys s i' := by
  have hdigest := digest_of_recordOf hr
  obtain ⟨hconsistent, -⟩ := Option.filter_eq_some_iff.1 hr
  obtain ⟨-, hconsistent⟩ := Option.filter_eq_some_iff.1 hconsistent
  have hpath : recordPath sys i r.digest = homeOf sys i := by rw [hdigest, homeOf]
  rw [recordOf, Files.rewrite, hpath, Files.records_write]
  by_cases hhome : homeOf sys i' = homeOf sys i
  · have hdigest' : r.digest = i'.digestText sys := by
      rw [hdigest]
      exact (congrArg Prod.snd hhome).symm
    rw [if_pos hhome, hhome, Function.update_self]
    refine Option.filter_eq_some_iff.2 ⟨Option.filter_eq_some_iff.2 ⟨rfl, hconsistent⟩, ?_⟩
    exact beq_iff_eq.2 hdigest'
  · rw [if_neg hhome, Function.update_of_ne hhome]
    rfl

/-- A record is found again once it is written where it was. -/
theorem recordOf_write_self (hr : recordOf sys s i = some r) :
    recordOf sys (s.write (homeOf sys i) r) i = some r := by
  have hfound := recordOf_rewrite hr r.provenance i
  have hpath : recordPath sys i r.digest = homeOf sys i := by rw [digest_of_recordOf hr, homeOf]
  rw [if_pos rfl, Files.rewrite, hpath] at hfound
  exact hfound

/-! ### Who writes records -/

variable (sys) in
/-- What is left of `update_provenance` once it has looked. -/
def updateFound (i : InstallIdentity) (q : Provenance) : Option IdentityRecord → CatalogM Outcome
  | none => .ret .done
  | some r => .act (fun s => s.rewrite sys i r (r.provenance.merge q)) fun _ => .ret .done

/-- `update_provenance` takes the lock, looks, and writes what it found. -/
theorem run_updateProvenance (sys : Externals) (i : InstallIdentity) (q : Provenance) :
    (Call.updateProvenance i q).run sys =
      .lock (.act id fun s => updateFound sys i q (recordOf sys s i)) := by
  show Prog.lock (Prog.act id fun s => Prog.bind (Prog.bind (.ret (recordOf sys s i)) _) _) = _
  refine congrArg Prog.lock (congrArg (Prog.act id) (funext fun s => ?_))
  cases hr : recordOf sys s i with
  | none => rfl
  | some r => rfl

/-- Records are written under the lock. -/
def recordDiscipline : Discipline Files where
  inv _ := True
  any _ _ := True
  unlocked s t := t.records = s.records
  any_refl _ := trivial
  any_trans _ _ := trivial
  unlocked_refl _ := rfl
  unlocked_trans hst htu := htu.trans hst
  any_of_unlocked _ := trivial

/-- What happens to the files beside the calls: installations are made and
removed, and reservations and selections may be lost. -/
def Weathers (s t : Files) : Prop := t.records = s.records

/-- Whatever a program does under the lock keeps to the discipline. -/
theorem safe_of_holds {α : Type} {post : α → Bool → Files → Prop}
    (hpost : ∀ a t, post a true t) (prog : Prog Files α) :
    recordDiscipline.Safe post prog true s := by
  induction prog generalizing s with
  | ret a => exact fun t _ _ => hpost a t
  | act u k ih => exact fun t _ _ => ⟨trivial, trivial, ih t⟩
  | lock k ih => exact fun t _ _ => ih

/-- Every call takes the lock before it writes. -/
theorem safe_records (sys : Externals) (c : Call) :
    recordDiscipline.Safe (fun _ _ _ => True) (c.run sys) false s := by
  have hlocked : ∀ {α : Type} (prog : Prog Files α) (t : Files),
      recordDiscipline.Safe (fun _ _ _ => True) prog true t :=
    fun prog _ => safe_of_holds (fun _ _ => trivial) prog
  cases c with
  | allocate i =>
    refine .bind (.read_bind fun t _ _ => ?_)
    dsimp only
    split
    · refine .read_bind fun u _ _ => ?_
      show Safe _ _ (if _ then _ else _) _ _
      split
      · exact .pure fun _ _ _ => .pure fun _ _ _ => trivial
      · exact .acquire_bind fun _ _ _ => safe_of_holds (fun _ _ => fun _ _ _ => trivial) _
    · exact .acquire_bind fun _ _ _ => safe_of_holds (fun _ _ => fun _ _ _ => trivial) _
  | rebuildFromReceipts => exact fun t _ _ => hlocked _ t
  | updateProvenance i q => exact fun t _ _ => hlocked _ t
  | select key selected root => exact fun t _ _ => hlocked _ t
  | selectIfUnset key selected root => exact fun t _ _ => hlocked _ t

/-- The calls that write a whole record. -/
def Call.WritesWhole : Call → Prop
  | allocate _ | rebuildFromReceipts => True
  | updateProvenance _ _ | select _ _ _ | selectIfUnset _ _ _ => False

/-- The actions of a call: they leave the records alone, or they are
`write_record`, in a call that writes one. -/
def Call.Does (c : Call) (u : Files → Files) : Prop :=
  (∀ s, (u s).records = s.records) ∨
    (c.WritesWhole ∨ ∃ i q, c = .updateProvenance i q) ∧ ∃ path record, u = Files.write path record

section Acts

variable {c : Call} {α β : Type}

theorem does_id : c.Does id := .inl fun _ => rfl

theorem acts_writeRecord (hc : c.WritesWhole ∨ ∃ i q, c = .updateProvenance i q)
    (path : String × String) (record : IdentityRecord) : (writeRecord path record).Acts c.Does :=
  ⟨.inr ⟨hc, path, record, rfl⟩, fun _ => trivial⟩

theorem acts_nameAvailableFor (dir digest : String) :
    (nameAvailableFor sys dir digest).Acts c.Does := by
  refine .read_bind does_id fun owner => ?_
  cases owner with
  | some owner => exact trivial
  | none =>
    refine .read_bind does_id fun occupied => ?_
    cases occupied with
    | true => exact .read_bind does_id fun _ => trivial
    | false => exact trivial

theorem acts_reserve (dir digest : String) : (reserve dir digest).Acts c.Does :=
  ⟨.inl fun _ => rfl, fun _ => trivial⟩

theorem acts_lookup_bind {k : Option IdentityRecord → CatalogM α} (hk : ∀ r, (k r).Acts c.Does) :
    (lookup sys i >>= k).Acts c.Does := ⟨does_id, fun _ => hk _⟩

theorem acts_reservationHolds_bind {k : Bool → CatalogM α} (hk : ∀ b, (k b).Acts c.Does) :
    (reservationHolds r >>= k).Acts c.Does := ⟨does_id, fun _ => hk _⟩

theorem acts_allocateName (hc : c.WritesWhole) (lens : List ℕ) :
    (allocateName sys i lens).Acts c.Does := by
  induction lens with
  | nil => exact trivial
  | cons len lens ih =>
    refine (acts_nameAvailableFor _ _).bind fun available => ?_
    cases available with
    | true =>
      exact (acts_reserve _ _).bind fun _ => (acts_writeRecord (.inl hc) _ _).bind fun _ => trivial
    | false => exact ih

theorem acts_allocate (hc : c.WritesWhole) : (allocate sys i).Acts c.Does := by
  have hlocked : (allocateLocked sys i).Acts c.Does := by
    refine acts_lookup_bind fun found => ?_
    cases found with
    | none => exact acts_allocateName hc _
    | some r =>
      refine acts_reservationHolds_bind fun holds => ?_
      cases holds with
      | true => exact trivial
      | false =>
        refine (acts_nameAvailableFor _ _).bind fun available => ?_
        cases available with
        | true => exact (acts_reserve _ _).bind fun _ => trivial
        | false => exact acts_allocateName hc _
  refine acts_lookup_bind fun found => ?_
  cases found with
  | none => exact hlocked
  | some r =>
    refine acts_reservationHolds_bind fun holds => ?_
    cases holds with
    | true => exact trivial
    | false => exact hlocked

theorem acts_adopt (hc : c.WritesWhole) (restored : List IdentityRecord) (dir : String) :
    (adopt sys restored dir).Acts c.Does := by
  rw [adopt]
  split
  · exact trivial
  refine .read_bind does_id fun receipt => ?_
  cases receipt with
  | none => exact trivial
  | some receipt =>
    show Prog.Acts _ (if _ then _ else _)
    split
    · exact trivial
    refine acts_lookup_bind fun onDisk => ?_
    have hsettled : (isSettled onDisk receipt.record dir).Acts c.Does := by
      rw [isSettled]
      split
      · exact ⟨does_id, fun _ => trivial⟩
      · exact trivial
    refine hsettled.bind fun settled => ?_
    show Prog.Acts _ (if _ then _ else _)
    split
    · exact trivial
    refine (acts_nameAvailableFor _ _).bind fun available => ?_
    cases available with
    | true =>
      exact (acts_reserve _ _).bind fun _ => (acts_writeRecord (.inl hc) _ _).bind fun _ => trivial
    | false => exact trivial

/-- A record is written by `write_record` alone. -/
theorem acts_run (sys : Externals) (c : Call) : (c.run sys).Acts c.Does := by
  cases c with
  | allocate i =>
    have hc : (Call.allocate i).WritesWhole := trivial
    exact (acts_allocate hc).bind fun _ => trivial
  | rebuildFromReceipts =>
    have hc : Call.rebuildFromReceipts.WritesWhole := trivial
    refine Prog.Acts.bind (p := rebuildFromReceipts sys) ?_ fun _ => trivial
    exact ⟨does_id, fun _ => Prog.Acts.foldlM (acts_adopt hc) _ _⟩
  | updateProvenance i q =>
    rw [run_updateProvenance]
    refine ⟨does_id, fun s => ?_⟩
    show (updateFound sys i q (recordOf sys s i)).Acts _
    cases recordOf sys s i with
    | none => exact trivial
    | some r => exact ⟨.inr ⟨.inr ⟨i, q, rfl⟩, _, _, rfl⟩, fun _ => trivial⟩
  | select key selected root => exact ⟨.inl fun _ => rfl, fun _ => trivial⟩
  | selectIfUnset key selected root =>
    refine ⟨does_id, fun s => ?_⟩
    show Prog.Acts _ (Prog.bind (if _ then _ else _) _)
    split
    · exact trivial
    · exact ⟨.inl fun _ => rfl, fun _ => trivial⟩

end Acts

/-! ### Where an update is -/

/-- Where an `update_provenance` is, and what it knows of the record there. -/
inductive UpdateStage (sys : Externals) (i : InstallIdentity) (q : Provenance) :
    CatalogM Outcome → Bool → Files → Prop
  | waits {s : Files} :
      UpdateStage sys i q (.lock (.act id fun s => updateFound sys i q (recordOf sys s i))) false s
  | looks {s : Files} :
      UpdateStage sys i q (.act id fun s => updateFound sys i q (recordOf sys s i)) true s
  | writes {s : Files} {r : IdentityRecord} (found : recordOf sys s i = some r) :
      UpdateStage sys i q
        (.act (fun s => s.rewrite sys i r (r.provenance.merge q)) fun _ => .ret .done) true s
  | absent {s : Files} (missing : recordOf sys s i = none) : UpdateStage sys i q (.ret .done) true s
  | wrote {s : Files} {r : IdentityRecord} {m : Provenance} (found : recordOf sys s i = some r)
      (merged : r.provenance = m.merge q) : UpdateStage sys i q (.ret .done) true s

variable {q : Provenance} {prog : CatalogM Outcome} {h : Bool} {u : Files → Files}
  {k : Files → CatalogM Outcome}

/-- An update that does not hold the lock knows nothing, and one that holds it
knows what the others leave. -/
theorem UpdateStage.congr (hs : UpdateStage sys i q prog h s)
    (hrecords : h = true → t.records = s.records) : UpdateStage sys i q prog h t := by
  cases hs with
  | waits => exact .waits
  | looks => exact .looks
  | writes hfound => exact .writes ((recordOf_congr (hrecords rfl) i).trans hfound)
  | absent hmissing => exact .absent ((recordOf_congr (hrecords rfl) i).trans hmissing)
  | wrote hfound hmerged => exact .wrote ((recordOf_congr (hrecords rfl) i).trans hfound) hmerged

/-- What an action of an update does, and where the update is then. -/
theorem UpdateStage.act (hs : UpdateStage sys i q (.act u k) h s) :
    UpdateStage sys i q (k s) h (u s) ∧
      (u s = s ∨ ∃ r, recordOf sys s i = some r ∧
        u s = s.rewrite sys i r (r.provenance.merge q)) := by
  cases hs with
  | looks =>
    refine ⟨?_, .inl rfl⟩
    show UpdateStage sys i q (updateFound sys i q (recordOf sys s i)) true s
    cases hr : recordOf sys s i with
    | none => exact .absent hr
    | some r => exact .writes hr
  | @writes _ r hfound =>
    have hwritten := recordOf_rewrite hfound (r.provenance.merge q) i
    rw [if_pos rfl] at hwritten
    exact ⟨.wrote hwritten rfl, .inr ⟨r, hfound, rfl⟩⟩

theorem UpdateStage.lock {next : CatalogM Outcome} (hs : UpdateStage sys i q (.lock next) h s) :
    UpdateStage sys i q next true s := by
  cases hs with
  | waits => exact .looks

/-! ### Steps -/

section Steps

variable {ι : Type} [DecidableEq ι]

variable (sys) in
/-- What every pool keeps: the lock is held by one process, which alone writes
records, and every update is at one of its stages. -/
structure Merging (p : Pool ι Call Files Outcome) : Prop where
  sound : recordDiscipline.Sound (fun _ _ _ => True) p
  stage : ∀ j i q prog h, p.running j = some ⟨.updateProvenance i q, prog, h⟩ →
    UpdateStage sys i q prog h p.shared
  acts : ∀ j x, p.running j = some x → x.prog.Acts x.call.Does

variable {p p' : Pool ι Call Files Outcome} {j : ι} {next : Option (Process Call Files Outcome)}

/-- The updates are at their stages after one process moved, when those that
hold the lock find the records they knew. -/
theorem Merging.stage_update (hp : Merging sys p)
    (hothers : ∀ j' x, j' ≠ j → p.running j' = some x → x.holds = true →
      t.records = p.shared.records)
    (hnext : ∀ i q prog h, next = some ⟨.updateProvenance i q, prog, h⟩ →
      UpdateStage sys i q prog h t) (j' : ι) (i : InstallIdentity) (q : Provenance)
    (prog : CatalogM Outcome) (h : Bool)
    (hj' : Function.update p.running j next j' = some ⟨.updateProvenance i q, prog, h⟩) :
    UpdateStage sys i q prog h t := by
  by_cases hji : j' = j
  · subst hji
    rw [Function.update_self] at hj'
    exact hnext i q prog h hj'
  · rw [Function.update_of_ne hji] at hj'
    exact (hp.stage j' i q prog h hj').congr (hothers j' _ hji hj')

/-- A step of any process keeps the lock and the stages of the updates. -/
theorem Merging.step (hp : Merging sys p) (hstep : Pool.Step (Call.run sys) Weathers p p') :
    Merging sys p' := by
  have hsound := (hp.sound.step (fun c s _ => safe_records sys c)
    (fun s t hst _ => ⟨trivial, hst⟩) (fun _ _ _ _ _ _ _ => trivial) hstep).1
  refine ⟨hsound, ?_, Pool.acts_step (acts_run sys) hp.acts hstep⟩
  cases hstep with
  | call j c hidle =>
    refine hp.stage_update (fun _ _ _ _ _ => rfl) ?_
    rintro i q prog h ⟨⟩
    rw [run_updateProvenance]
    exact .waits
  | @act j c u k h hruns =>
    refine hp.stage_update ?_ ?_
    · intro j' x hji hj' hholds
      obtain ⟨-, hguarantee, -⟩ := hp.sound.safe j _ hruns p.shared (.refl _) trivial
      cases h with
      | false => exact hguarantee
      | true =>
        have := hp.sound.others_wait hruns rfl j' x hji hj'
        rw [hholds] at this
        exact Bool.noConfusion this
    · rintro i q prog h ⟨⟩
      exact (hp.stage j i q _ _ hruns).act.1
  | @lock j c k h hruns hfree =>
    refine hp.stage_update (fun _ _ _ _ _ => rfl) ?_
    rintro i q prog h ⟨⟩
    exact (hp.stage j i q _ _ hruns).lock
  | ret j hruns =>
    exact hp.stage_update (fun _ _ _ _ _ => rfl) fun _ _ _ _ hnone => nomatch hnone
  | kill j =>
    exact hp.stage_update (fun _ _ _ _ _ => rfl) fun _ _ _ _ hnone => nomatch hnone
  | @env s hdisturbs =>
    exact fun j i q prog h hj => (hp.stage j i q prog h hj).congr fun _ => hdisturbs

theorem Merging.steps (hp : Merging sys p) (hsteps : Pool.Steps (Call.run sys) Weathers p p') :
    Merging sys p' := by
  induction hsteps with
  | refl => exact hp
  | tail _ hstep ih => exact ih.step hstep

omit [DecidableEq ι] in
theorem merging_start (s : Files) : Merging sys (Pool.start s : Pool ι Call Files Outcome) :=
  ⟨.start trivial, fun _ _ _ _ _ hj => (nomatch hj), fun _ _ hj => nomatch hj⟩

variable (sys)

/-- This step is a `write_record` of `allocate` or of `rebuild_from_receipts`,
for an identity for which `lookup` finds another record. -/
def Overwrites (p p' : Pool ι Call Files Outcome) : Prop :=
  ∃ j c path record k h, p.running j = some ⟨c, .act (Files.write path record) k, h⟩ ∧
    p' = { p with
      shared := p.shared.write path record
      running := Function.update p.running j (some ⟨c, k p.shared, h⟩) } ∧
    c.WritesWhole ∧ ∃ i r, homeOf sys i = path ∧ recordOf sys p.shared i = some r ∧ record ≠ r

/-- A step that does not write another record over one. -/
def Careful (p p' : Pool ι Call Files Outcome) : Prop :=
  Pool.Step (Call.run sys) Weathers p p' ∧ ¬ Overwrites sys p p'

/-- In this step, an `update_provenance` merges `q` into the identity's record. -/
def Merges (i : InstallIdentity) (q : Provenance) (p p' : Pool ι Call Files Outcome) : Prop :=
  ∃ j i' u k h r, p.running j = some ⟨.updateProvenance i' q, .act u k, h⟩ ∧
    homeOf sys i' = homeOf sys i ∧ recordOf sys p.shared i = some r ∧
    recordOf sys p'.shared i = some { r with provenance := r.provenance.merge q }

/-- Between the two pools of a careful run, `q` is merged into the identity's
record. -/
def MergedSince (i : InstallIdentity) (p₁ p₂ : Pool ι Call Files Outcome) (q : Provenance) : Prop :=
  ∃ p p', Relation.ReflTransGen (Careful sys) p₁ p ∧ Careful sys p p' ∧ Merges sys i q p p' ∧
    Relation.ReflTransGen (Careful sys) p' p₂

variable {sys} {p₁ p₂ : Pool ι Call Files Outcome} {r₁ : IdentityRecord}

/-- A careful step keeps a record or merges into it. -/
theorem Merging.careful (hp : Merging sys p) (hstep : Careful sys p p')
    (hr : recordOf sys p.shared i = some r) : ∃ r', recordOf sys p'.shared i = some r' ∧
      (r' = r ∨ ∃ q, Merges sys i q p p' ∧ r'.provenance = r.provenance.merge q) := by
  obtain ⟨hstep, hcareful⟩ := hstep
  cases hstep with
  | call j c hidle => exact ⟨r, hr, .inl rfl⟩
  | lock j hruns hfree => exact ⟨r, hr, .inl rfl⟩
  | ret j hruns => exact ⟨r, hr, .inl rfl⟩
  | kill j => exact ⟨r, hr, .inl rfl⟩
  | @env s hdisturbs => exact ⟨r, (recordOf_congr hdisturbs i).trans hr, .inl rfl⟩
  | @act j c u k h hruns =>
    by_cases hupdate : ∃ i' q, c = .updateProvenance i' q
    · obtain ⟨i', q, rfl⟩ := hupdate
      obtain ⟨-, hsame | ⟨r', hr', hwrites⟩⟩ := (hp.stage j i' q _ _ hruns).act
      · refine ⟨r, ?_, .inl rfl⟩
        show recordOf sys (u p.shared) i = some r
        rw [hsame, hr]
      · have hfound := recordOf_rewrite hr' (r'.provenance.merge q) i
        rw [← hwrites] at hfound
        by_cases hhome : homeOf sys i = homeOf sys i'
        · obtain rfl : r' = r := by
            have hsame : recordOf sys p.shared i = recordOf sys p.shared i' := by
              have hdigest : i.digestText sys = i'.digestText sys := congrArg Prod.snd hhome
              rw [recordOf, recordOf, hhome, hdigest]
            exact Option.some.inj (hr'.symm.trans (hsame.symm.trans hr))
          rw [if_pos hhome] at hfound
          exact ⟨_, hfound, .inr ⟨q, ⟨j, i', u, k, h, r', hruns, hhome.symm, hr, hfound⟩, rfl⟩⟩
        · rw [if_neg hhome] at hfound
          exact ⟨r, hfound.trans hr, .inl rfl⟩
    · refine ⟨r, ?_, .inl rfl⟩
      obtain ⟨hdoes, -⟩ := hp.acts j _ hruns
      rcases hdoes with hkeeps | ⟨hc, path, record, rfl⟩
      · exact (recordOf_congr (hkeeps p.shared) i).trans hr
      · have hwhole : c.WritesWhole := hc.resolve_right hupdate
        show recordOf sys (p.shared.write path record) i = some r
        by_cases hpath : homeOf sys i = path
        · -- Only the record that is there already may be written.
          have hsame : record = r := by
            by_contra hne
            exact hcareful ⟨j, c, path, record, k, h, hruns, rfl, hwhole, i, r, hpath, hr, hne⟩
          rw [hsame, ← hpath]
          exact recordOf_write_self hr
        · rw [recordOf, Files.records_write, Function.update_of_ne hpath]
          exact hr

/-- In a careful run, a record changes by what updates merge into it alone. -/
theorem Merging.run (hp : Merging sys p₁) (hrun : Relation.ReflTransGen (Careful sys) p₁ p₂)
    (hr₁ : recordOf sys p₁.shared i = some r₁) : ∃ r, ∃ qs : List Provenance,
      recordOf sys p₂.shared i = some r ∧
      r.provenance = qs.foldl Provenance.merge r₁.provenance ∧
      ∀ q ∈ qs, MergedSince sys i p₁ p₂ q := by
  induction hrun with
  | refl => exact ⟨r₁, [], hr₁, rfl, fun _ hq => nomatch hq⟩
  | @tail p p' hrun hstep ih =>
    obtain ⟨r, qs, hr, hprovenance, hqs⟩ := ih
    have hp' : Merging sys p := hp.steps (hrun.lift id fun _ _ hstep => hstep.1)
    have hlater : ∀ q ∈ qs, MergedSince sys i p₁ p' q := by
      intro q hq
      obtain ⟨a, b, ha, hab, hmerges, hb⟩ := hqs q hq
      exact ⟨a, b, ha, hab, hmerges, hb.tail hstep⟩
    obtain ⟨r', hr', rfl | ⟨q, hmerges, hmerged⟩⟩ := hp'.careful hstep hr
    · exact ⟨r', qs, hr', hprovenance, hlater⟩
    · refine ⟨r', qs ++ [q], hr', ?_, fun q' hq' => ?_⟩
      · rw [hmerged, hprovenance, List.foldl_append, List.foldl_cons, List.foldl_nil]
      · rcases List.mem_append.1 hq' with hq' | hq'
        · exact hlater q' hq'
        · obtain rfl := List.mem_singleton.1 hq'
          exact ⟨p, p', hrun, hstep, hmerges, .refl⟩

end Steps

/-! ### Two updates -/

/-- A record with more merged into its provenance. -/
def IdentityRecord.merged (q : Provenance) (r : IdentityRecord) : IdentityRecord :=
  { r with provenance := r.provenance.merge q }

/-- Two records that are the same but for the order of their pins. -/
def SameButPinOrder (r r' : IdentityRecord) : Prop :=
  ∃ pins, pins.Perm r.provenance.pinnedBy ∧
    r' = { r with provenance := { r.provenance with pinnedBy := pins } }

/-- Two catalogs that are the same but for the order of the records' pins. -/
structure Files.SameButPinOrder (s t : Files) : Prop where
  names : t.names = s.names
  records : ∀ path, Option.Rel Install.SameButPinOrder (s.records path) (t.records path)
  selections : t.selections = s.selections
  store : t.store = s.store

theorem rel_sameButPinOrder_refl : (r : Option IdentityRecord) → Option.Rel SameButPinOrder r r
  | none => .none
  | some r => .some ⟨r.provenance.pinnedBy, .refl _, rfl⟩

variable (sys) in
/-- The files after an `update_provenance`. -/
def Files.updated (s : Files) (i : InstallIdentity) (q : Provenance) : Files :=
  match recordOf sys s i with
  | none => s
  | some r => s.rewrite sys i r (r.provenance.merge q)

theorem exec_updateProvenance (s : Files) (i : InstallIdentity) (q : Provenance) :
    ((Call.updateProvenance i q).run sys).exec false s = some (.done, s.updated sys i q) := by
  rw [run_updateProvenance, Files.updated]
  show (updateFound sys i q (recordOf sys s i)).exec true s = _
  cases recordOf sys s i with
  | none => rfl
  | some r => rfl

theorem recordOf_home (hhome : homeOf sys i' = homeOf sys i) :
    recordOf sys s i' = recordOf sys s i := by
  have hdigest : i'.digestText sys = i.digestText sys := congrArg Prod.snd hhome
  rw [recordOf, recordOf, hhome, hdigest]

/-- An update merges into the record that is found for its identity. -/
theorem recordOf_updated (s : Files) (i i' : InstallIdentity) (q : Provenance) :
    recordOf sys (s.updated sys i q) i' =
      if homeOf sys i' = homeOf sys i then (recordOf sys s i').map (.merged q)
      else recordOf sys s i' := by
  rw [Files.updated]
  cases hr : recordOf sys s i with
  | none =>
    show recordOf sys s i' = _
    split
    · case isTrue hhome => rw [recordOf_home hhome, hr, Option.map_none]
    · rfl
  | some r =>
    rw [recordOf_rewrite hr]
    split
    · case isTrue hhome => rw [recordOf_home hhome, hr, Option.map_some, IdentityRecord.merged]
    · rfl

/-- An update writes its identity's record and nothing else. -/
theorem records_updated (s : Files) (i : InstallIdentity) (q : Provenance)
    (path : String × String) : (s.updated sys i q).records path =
      if path = homeOf sys i then ((recordOf sys s i).map (.merged q)).or (s.records path)
      else s.records path := by
  rw [Files.updated]
  cases hr : recordOf sys s i with
  | none => rw [Option.map_none, Option.none_or, ite_self]
  | some r =>
    have hhome : recordPath sys i r.digest = homeOf sys i := by rw [digest_of_recordOf hr, homeOf]
    change (s.rewrite sys i r (r.provenance.merge q)).records path = _
    rw [Files.rewrite, hhome, Files.records_write, Function.update_apply, Option.map_some,
      Option.some_or, IdentityRecord.merged]

/-- **Updates that name different algorithms commute**, up to the order of the
pins. -/
theorem updated_updated_comm (s : Files) (i i' : InstallIdentity) {q q' : Provenance}
    (hdiff : ∀ a : String, q.artifacts[a]? = none ∨ q'.artifacts[a]? = none) :
    ((s.updated sys i q).updated sys i' q').SameButPinOrder
      ((s.updated sys i' q').updated sys i q) := by
  have hframe : ∀ (s : Files) (i : InstallIdentity) (q : Provenance),
      (s.updated sys i q).names = s.names ∧ (s.updated sys i q).selections = s.selections ∧
        (s.updated sys i q).store = s.store := by
    intro s i q
    rw [Files.updated]
    cases recordOf sys s i with
    | none => exact ⟨rfl, rfl, rfl⟩
    | some r => simp only [Files.rewrite, Files.write, and_self]
  refine ⟨?_, fun path => ?_, ?_, ?_⟩
  · rw [(hframe _ i q).1, (hframe _ i' q').1, (hframe _ i' q').1, (hframe _ i q).1]
  · simp only [records_updated, recordOf_updated]
    by_cases hpath : path = homeOf sys i <;> by_cases hpath' : path = homeOf sys i'
    · have hhome : homeOf sys i' = homeOf sys i := hpath'.symm.trans hpath
      simp only [if_pos hpath, if_pos hpath', if_pos hhome, if_pos hhome.symm, recordOf_home hhome]
      cases recordOf sys s i with
      | none =>
        simp only [Option.map_none, Option.none_or]
        exact rel_sameButPinOrder_refl _
      | some r =>
        obtain ⟨pins, hperm, heq⟩ := Provenance.merge_merge_comm (m := r.provenance) hdiff
        refine .some ⟨pins, hperm, ?_⟩
        show IdentityRecord.mk _ _ _ _ _ ((r.provenance.merge q').merge q) = _
        rw [heq]
        rfl
    · have hne : homeOf sys i ≠ homeOf sys i' := fun h => hpath' (hpath.trans h)
      simp only [if_pos hpath, if_neg hpath', if_neg hne]
      exact rel_sameButPinOrder_refl _
    · have hne : homeOf sys i' ≠ homeOf sys i := fun h => hpath (hpath'.trans h)
      simp only [if_neg hpath, if_pos hpath', if_neg hne]
      exact rel_sameButPinOrder_refl _
    · simp only [if_neg hpath, if_neg hpath']
      exact rel_sameButPinOrder_refl _
  · rw [(hframe _ i q).2.1, (hframe _ i' q').2.1, (hframe _ i' q').2.1, (hframe _ i q).2.1]
  · rw [(hframe _ i q).2.2, (hframe _ i' q').2.2, (hframe _ i' q').2.2, (hframe _ i q).2.2]

/-! ### Runs -/

/-- **Provenance only grows while no other call writes over a record.**  From
any files, and whatever reservations are lost: once an `update_provenance` is
about to return and the identity has a record, every later one of a careful run
has the pins it merged in, no lower generation, and for each of its algorithms
its digest or that of a later update.  Two updates that name different
algorithms may be made in either order. -/
theorem provenance_grows {ι : Type} [DecidableEq ι] (sys : Externals) {s₀ : Files}
    {p₁ p₂ : Pool ι Call Files Outcome} {j : ι} {i : InstallIdentity} {q : Provenance} {h : Bool}
    {r₁ : IdentityRecord} (hrun : Pool.Steps (Call.run sys) Weathers (.start s₀) p₁)
    (hreturns : p₁.running j = some ⟨.updateProvenance i q, .ret .done, h⟩)
    (hpresent : recordOf sys p₁.shared i = some r₁)
    (hcareful : Relation.ReflTransGen (Careful sys) p₁ p₂) :
    (∃ r, recordOf sys p₂.shared i = some r ∧
      (∀ pin ∈ q.pinnedBy, pin ∈ r.provenance.pinnedBy) ∧
      q.generation ≤ r.provenance.generation ∧
      ∀ (a d : String), q.artifacts[a]? = some d → ∃ d', r.provenance.artifacts[a]? = some d' ∧
        (d' = d ∨ ∃ q', MergedSince sys i p₁ p₂ q' ∧ q'.artifacts[a]? = some d')) ∧
    ∀ (s : Files) (i i' : InstallIdentity) (q q' : Provenance),
      (∀ a : String, q.artifacts[a]? = none ∨ q'.artifacts[a]? = none) →
      ∃ t t' u u', ((Call.updateProvenance i q).run sys).exec false s = some (.done, t) ∧
        ((Call.updateProvenance i' q').run sys).exec false t = some (.done, t') ∧
        ((Call.updateProvenance i' q').run sys).exec false s = some (.done, u) ∧
        ((Call.updateProvenance i q).run sys).exec false u = some (.done, u') ∧
        t'.SameButPinOrder u' := by
  refine ⟨?_, fun s i i' q q' hdiff => ⟨_, _, _, _, exec_updateProvenance s i q,
    exec_updateProvenance _ i' q', exec_updateProvenance s i' q', exec_updateProvenance _ i q,
    updated_updated_comm s i i' hdiff⟩⟩
  have hp₁ : Merging sys p₁ := (merging_start s₀).steps hrun
  obtain ⟨m, hm⟩ : ∃ m : Provenance, r₁.provenance = m.merge q := by
    cases hp₁.stage j i q _ _ hreturns with
    | absent hmissing => exact absurd (hpresent.symm.trans hmissing) (Option.some_ne_none r₁)
    | @wrote _ r m hfound hmerged =>
      obtain rfl := Option.some.inj (hpresent.symm.trans hfound)
      exact ⟨m, hmerged⟩
  obtain ⟨r, qs, hr, hprovenance, hqs⟩ := hp₁.run hcareful hpresent
  rw [hm] at hprovenance
  refine ⟨r, hr, fun pin hpin => ?_, ?_, fun a d hd => ?_⟩
  · rw [hprovenance]
    exact Provenance.mem_pinnedBy_foldl (Provenance.mem_pinnedBy_merge.2 (.inr hpin))
  · rw [hprovenance]
    have hmerged : q.generation ≤ (m.merge q).generation := le_max_right m.generation q.generation
    exact hmerged.trans (Provenance.generation_le_foldl qs (m.merge q))
  · have hmerged : (m.merge q).artifacts[a]? = some d := by
      rw [Provenance.get_artifacts_merge, hd, Option.some_or]
    obtain ⟨d', hd', hfrom⟩ := Provenance.artifact_foldl qs hmerged
    rw [hprovenance]
    refine ⟨d', hd', hfrom.imp_right ?_⟩
    exact fun ⟨q', hq', hget⟩ => ⟨q', hqs q' hq', hget⟩

/-- The record that `allocate` makes for `age`. -/
def ageRecord : IdentityRecord := .new ageExternals ageIdentity "age-hlencrst"

/-- What a lockfile that adopts `age` merges in. -/
def agePin : Provenance where
  artifacts := Std.ExtTreeMap.ofList [("sha256", "7c1f")]
  pinnedBy := ["sha256:7c1f"]
  generation := 1

/-- The files once `age` is installed and its reservation is lost. -/
def ageInstalled : Files where
  names _ := none
  records := Function.update (fun _ => none) (homeOf ageExternals ageIdentity) (some ageRecord)
  selections _ := none
  store := Std.ExtTreeMap.ofList
    [("age-hlencrst", StoreEntry.mk true (some (Receipt.mk ageRecord none none)))]

theorem recordOf_ageInstalled :
    recordOf ageExternals ageInstalled ageIdentity = some ageRecord := by
  have hwritten := Function.update_self (homeOf ageExternals ageIdentity) (some ageRecord)
    fun _ => none
  have hplain : isPlainDirName "age-hlencrst" = true := by decide
  refine Option.filter_eq_some_iff.2
    ⟨Option.filter_eq_some_iff.2 ⟨hwritten, ?_⟩, beq_self_eq_true _⟩
  exact isConsistent_new hplain

/-- `age` is allocated in an empty catalog. -/
theorem steps_allocate_age : ∃ p : Pool ℕ Call Files Outcome,
    Pool.Steps (Call.run ageExternals) Weathers (.start (.empty ∅)) p ∧
    (∀ j, p.running j = none) ∧ p.shared.records = ageInstalled.records := by
  have hdir : "age-hlencrst" = dirName ageExternals ageIdentity.backend.val
      (ageIdentity.digestText ageExternals) shortChars := by decide +kernel
  have hexec := exec_allocate ageExternals ageIdentity ∅ hdir rfl
  have hcall : Pool.Step (Call.run ageExternals) Weathers (.start (.empty ∅) : Pool ℕ _ _ _) _ :=
    .call 0 (.allocate ageIdentity) rfl
  have hrun := Relation.ReflTransGen.head hcall (Pool.steps_exec (Function.update_self 0 _ _)
    (Pool.idle_update (fun _ _ => rfl) _) hexec)
  exact ⟨_, hrun, fun _ => rfl, rfl⟩

/-- It is installed, its reservation is lost, and an update of its provenance
is about to return. -/
theorem steps_update_age : ∃ (p : Pool ℕ Call Files Outcome) (h : Bool),
    Pool.Steps (Call.run ageExternals) Weathers (.start (.empty ∅)) p ∧
    p.running 0 = some ⟨.updateProvenance ageIdentity agePin, .ret .done, h⟩ ∧
    (∀ j, j ≠ 0 → p.running j = none) ∧
    p.shared = ageInstalled.updated ageExternals ageIdentity agePin := by
  obtain ⟨p, hallocated, hidle, hrecords⟩ := steps_allocate_age
  have hinstalled := hallocated.tail (.env (s := ageInstalled) hrecords.symm)
  obtain ⟨p', hsteps, ⟨h, hreturns⟩, hothers, hshared⟩ :=
    Pool.steps_call 0 (.updateProvenance ageIdentity agePin) hidle (p := { p with
      shared := ageInstalled }) (exec_updateProvenance ageInstalled ageIdentity agePin)
  exact ⟨p', h, hinstalled.trans hsteps, hreturns, hothers, hshared⟩

theorem recordOf_age {s : Files} (hs : s = ageInstalled.updated ageExternals ageIdentity agePin) :
    recordOf ageExternals s ageIdentity = some (ageRecord.merged agePin) := by
  rw [hs, recordOf_updated, if_pos rfl, recordOf_ageInstalled, Option.map_some]

/-- A process that returns alone is careful. -/
theorem careful_ret {sys : Externals} {p : Pool ℕ Call Files Outcome} {c : Call} {result : Outcome}
    {h : Bool} (hreturns : p.running 0 = some ⟨c, .ret result, h⟩)
    (hothers : ∀ j, j ≠ 0 → p.running j = none) :
    Careful sys p ⟨p.shared, Function.update p.running 0 none, (c, result) :: p.returned⟩ := by
  refine ⟨.ret 0 hreturns, ?_⟩
  rintro ⟨j, c, path, record, k, h', hruns, -⟩
  by_cases hj : j = 0
  · subst hj
    exact nomatch hreturns.symm.trans hruns
  · exact nomatch (hothers j hj).symm.trans hruns

/-- The pin is there once the update has returned. -/
theorem provenance_grows_age : ∃ (p₁ p₂ : Pool ℕ Call Files Outcome) (r : IdentityRecord),
    Pool.Steps (Call.run ageExternals) Weathers (.start (.empty ∅)) p₁ ∧
    Relation.ReflTransGen (Careful ageExternals) p₁ p₂ ∧ p₂.running 0 = none ∧
    recordOf ageExternals p₂.shared ageIdentity = some r ∧
    "sha256:7c1f" ∈ r.provenance.pinnedBy := by
  obtain ⟨p, h, hrun, hreturns, hothers, hshared⟩ := steps_update_age
  have hreturn : Careful ageExternals p _ := careful_ret hreturns hothers
  have hcareful := Relation.ReflTransGen.single hreturn
  obtain ⟨⟨r, hr, hpins, -⟩, -⟩ :=
    provenance_grows ageExternals hrun hreturns (recordOf_age hshared) hcareful
  have hidle : Function.update p.running 0 none 0 = none := Function.update_self _ _ _
  exact ⟨p, _, r, hrun, hcareful, hidle, hr, hpins _ List.mem_cons_self⟩

/-- The receipt of `age` is restored over its record, whose reservation was
lost, and what the update merged is gone. -/
theorem pins_dropped : ∃ (p₁ p₂ : Pool ℕ Call Files Outcome) (h : Bool) (r₁ r₂ : IdentityRecord),
    Pool.Steps (Call.run ageExternals) Weathers (.start (.empty ∅)) p₁ ∧
    p₁.running 0 = some ⟨.updateProvenance ageIdentity agePin, .ret .done, h⟩ ∧
    recordOf ageExternals p₁.shared ageIdentity = some r₁ ∧
    Pool.Steps (Call.run ageExternals) Weathers p₁ p₂ ∧
    recordOf ageExternals p₂.shared ageIdentity = some r₂ ∧
    "sha256:7c1f" ∈ agePin.pinnedBy ∧ r₂.provenance.pinnedBy = [] ∧ r₂.provenance.generation = 0 ∧
    r₂.provenance.artifacts["sha256"]? = none := by
  obtain ⟨p, h, hrun, hreturns, hothers, hshared⟩ := steps_update_age
  have hlost : ((Call.rebuildFromReceipts.run ageExternals).exec false
      (ageInstalled.updated ageExternals ageIdentity agePin)).bind (fun x =>
        (recordOf ageExternals x.2 ageIdentity).map fun r =>
          (r.provenance.pinnedBy, r.provenance.generation, r.provenance.artifacts["sha256"]?)) =
      some ([], 0, none) := by
    decide +kernel
  obtain ⟨⟨result, s⟩, hexec, hfound⟩ := Option.bind_eq_some_iff.1 hlost
  obtain ⟨r₂, hr₂, hprovenance⟩ := Option.map_eq_some_iff.1 hfound
  rw [← hshared] at hexec
  have hidle : Function.update p.running 0 none 0 = none := Function.update_self _ _ _
  have hothers' := Pool.idle_update hothers none
  have hreturn : Pool.Step (Call.run ageExternals) Weathers p _ := .ret 0 hreturns
  have hcalled := (Relation.ReflTransGen.single hreturn).tail (.call 0 .rebuildFromReceipts hidle)
  have hrebuilt := hcalled.trans
    (Pool.steps_exec (Function.update_self 0 _ _) (Pool.idle_update hothers' _) hexec)
  refine ⟨p, _, h, _, r₂, hrun, hreturns, recordOf_age hshared, hrebuilt, hr₂,
    List.mem_cons_self, ?_⟩
  obtain ⟨hpins, hrest⟩ := Prod.mk.inj hprovenance
  obtain ⟨hgeneration, hartifact⟩ := Prod.mk.inj hrest
  exact ⟨hpins, hgeneration, hartifact⟩

end Mise.Install
