/-
# Who owns a directory name

The calls of `src/install_layout/catalog.rs`, made by any number of processes
over one catalog in any order, agree on who owns a directory name.

What they keep (`Consistent`): every record stands where its identity is looked
up and its name is reserved for its digest; a reserved name was free in the
store, or carried the digest's receipt; and an unreserved entry of the store is
as it was.  A reservation, and the directory of a record, never change
(`catalogDiscipline`).  Only a process that holds the lock writes either, which
is why `name_available_for` still holds when `reserve` relies on it; the fast
path of `allocate` reads without the lock what never changes.
-/

import Mise.Install.Catalog

namespace Mise.Install

open Lib Discipline

variable (sys : Externals) (store₀ : BTreeMap String StoreEntry)

/-- The place of an identity's record. -/
def homeOf (i : InstallIdentity) : String × String := recordPath sys i (i.digestText sys)

/-- The directory was not in the store, or its receipt carries the digest. -/
def Vacant (dir digest : String) : Prop :=
  store₀[dir]? = none ∨ ∃ receipt, trustedReceipt sys store₀ dir = some receipt ∧
    receipt.record.digest = digest

/-- What every call keeps, in a catalog that began empty over the store `store₀`. -/
structure Consistent (s : Files) : Prop where
  record : ∀ path r, s.records path = some r → path = homeOf sys r.identity ∧
    r.isConsistent sys = true ∧ s.names r.dir = some r.digest
  name : ∀ dir owner, s.names dir = some owner →
    (∃ i : InstallIdentity, owner = i.digestText sys) ∧ Vacant sys store₀ dir owner
  unnamed : ∀ dir, s.names dir = none → s.store[dir]? = store₀[dir]?

/-- Reservations keep their owner and records their directory. -/
structure Stable (s t : Files) : Prop where
  names : ∀ dir owner, s.names dir = some owner → t.names dir = some owner
  records : ∀ path r, s.records path = some r → ∃ r', t.records path = some r' ∧ r'.dir = r.dir

/-- Neither reservations nor records change. -/
def Unchanged (s t : Files) : Prop := t.names = s.names ∧ t.records = s.records

/-- What the calls may do. -/
def catalogDiscipline : Discipline Files where
  inv := Consistent sys store₀
  any := Stable
  unlocked := Unchanged
  any_refl s := ⟨fun _ _ h => h, fun _ r h => ⟨r, h, rfl⟩⟩
  any_trans hst htu := by
    refine ⟨fun dir owner h => htu.names dir owner (hst.names dir owner h), fun path r h => ?_⟩
    obtain ⟨r', h', hdir⟩ := hst.records path r h
    obtain ⟨r'', h'', hdir'⟩ := htu.records path r' h'
    exact ⟨r'', h'', hdir'.trans hdir⟩
  unlocked_refl s := ⟨rfl, rfl⟩
  unlocked_trans hst htu := ⟨htu.1.trans hst.1, htu.2.trans hst.2⟩
  any_of_unlocked h := by
    refine ⟨fun dir owner hs => ?_, fun path r hs => ⟨r, ?_, rfl⟩⟩
    · rw [h.1]
      exact hs
    · rw [h.2]
      exact hs

variable {sys store₀} {h : Bool} {s t : Files} {α : Type} {post : α → Bool → Files → Prop}

/-! ### What the reads give -/

/-- The record found for an identity is the one at its place. -/
theorem Consistent.lookup_eq (hs : Consistent sys store₀ s) (i : InstallIdentity) :
    ((s.records (homeOf sys i)).filter (·.isConsistent sys)).filter
      (·.digest == i.digestText sys) = s.records (homeOf sys i) := by
  cases hr : s.records (homeOf sys i) with
  | none => rfl
  | some r =>
    obtain ⟨hpath, hconsistent, -⟩ := hs.record _ r hr
    have hdigest : (r.digest == i.digestText sys) = true := by
      rw [beq_iff_eq, digest_of_isConsistent hconsistent]
      exact (congrArg Prod.snd hpath).symm
    simp only [Option.filter_some, hconsistent, hdigest, if_true]

theorem safe_lookup {i : InstallIdentity} {k : Option IdentityRecord → CatalogM α}
    (hnext : ∀ t, (catalogDiscipline sys store₀).Rely h s t → Consistent sys store₀ t →
      (catalogDiscipline sys store₀).Safe post (k (t.records (homeOf sys i))) h t) :
    (catalogDiscipline sys store₀).Safe post (lookup sys i >>= k) h s := by
  intro t hst hinv
  refine ⟨hinv, .refl t, ?_⟩
  have := hnext t hst hinv
  rw [← hinv.lookup_eq i] at this
  exact this

/-- A reservation holds when the name's owner is the record's digest. -/
theorem Consistent.any_trim (hs : Consistent sys store₀ s) (dir digest : String) :
    (s.names dir).any (trim · == digest) = decide (s.names dir = some digest) := by
  cases hname : s.names dir with
  | none => rfl
  | some owner =>
    obtain ⟨i, rfl⟩ := (hs.name dir owner hname).1
    rw [Option.any_some, trim_digestText, Bool.beq_eq_decide_eq]
    simp only [Option.some.injEq]

theorem safe_reservationHolds {r : IdentityRecord} {k : Bool → CatalogM α}
    (hnext : ∀ t, (catalogDiscipline sys store₀).Rely h s t → Consistent sys store₀ t →
      (catalogDiscipline sys store₀).Safe post (k (decide (t.names r.dir = some r.digest))) h t) :
    (catalogDiscipline sys store₀).Safe post (reservationHolds r >>= k) h s := by
  intro t hst hinv
  refine ⟨hinv, .refl t, ?_⟩
  have := hnext t hst hinv
  rw [← hinv.any_trim] at this
  exact this

/-- A name that may be given to a digest. -/
def Available (sys : Externals) (store₀ : BTreeMap String StoreEntry) (s : Files)
    (dir digest : String) : Prop :=
  s.names dir = some digest ∨ s.names dir = none ∧ Vacant sys store₀ dir digest

/-- An unreserved entry of the store is trusted as it was at the beginning. -/
theorem Consistent.trustedReceipt_eq (hs : Consistent sys store₀ s) {dir : String}
    (hname : s.names dir = none) :
    trustedReceipt sys s.store dir = trustedReceipt sys store₀ dir := by
  rw [trustedReceipt, trustedReceipt, hs.unnamed dir hname]

/-- Under the lock, a name that was found available still is. -/
theorem safe_nameAvailableFor {dir digest : String} {k : Bool → CatalogM α}
    (hnext : ∀ t b, Unchanged s t → Consistent sys store₀ t →
      (b = true → Available sys store₀ t dir digest) →
      (catalogDiscipline sys store₀).Safe post (k b) true t) :
    (catalogDiscipline sys store₀).Safe post (nameAvailableFor sys dir digest >>= k) true s := by
  refine .bind ?_
  rw [nameAvailableFor, readName]
  refine .read_bind fun t (hst : Unchanged s t) ht => ?_
  cases hname : t.names dir with
  | some owner =>
    refine .pure fun u (htu : Unchanged t u) hu => hnext u _ ?_ hu fun howner => .inl ?_
    · exact (catalogDiscipline sys store₀).unlocked_trans hst htu
    · obtain ⟨i, rfl⟩ := (ht.name dir owner hname).1
      rw [trim_digestText, beq_iff_eq] at howner
      rw [htu.1, hname, howner]
  | none =>
    refine .read_bind fun u (htu : Unchanged t u) hu => ?_
    have hsu := (catalogDiscipline sys store₀).unlocked_trans hst htu
    have hnameu : u.names dir = none := by rw [htu.1, hname]
    rw [hu.unnamed dir hnameu]
    cases hentry : store₀[dir]? with
    | none =>
      refine .pure fun v (huv : Unchanged u v) hv => hnext v _ ?_ hv fun _ => .inr ⟨?_, ?_⟩
      · exact (catalogDiscipline sys store₀).unlocked_trans hsu huv
      · rw [huv.1, hnameu]
      · exact .inl hentry
    | some entry =>
      refine .read_bind fun v (huv : Unchanged u v) hv => ?_
      have hnamev : v.names dir = none := by rw [huv.1, hnameu]
      have hsv := (catalogDiscipline sys store₀).unlocked_trans hsu huv
      rw [hv.trustedReceipt_eq hnamev]
      refine .pure fun w (hvw : Unchanged v w) hw => hnext w _ ?_ hw fun howner =>
        .inr ⟨?_, .inr ?_⟩
      · exact (catalogDiscipline sys store₀).unlocked_trans hsv hvw
      · rw [hvw.1, hnamev]
      · obtain ⟨receipt, hreceipt, heq⟩ := (Option.any_eq_true _ _).1 howner
        exact ⟨receipt, hreceipt, beq_iff_eq.1 heq⟩

/-! ### What the writes do -/

/-- Reserving a name that is free takes it from nobody. -/
theorem Consistent.reserve (hs : Consistent sys store₀ s) {dir : String} (i : InstallIdentity)
    (havailable : Available sys store₀ s dir (i.digestText sys)) :
    Consistent sys store₀
      { s with names := Function.update s.names dir (some (i.digestText sys)) } where
  record path r hr := by
    obtain ⟨hpath, hconsistent, hname⟩ := hs.record path r hr
    refine ⟨hpath, hconsistent, ?_⟩
    by_cases hdir : r.dir = dir
    · subst hdir
      rcases havailable with howner | ⟨hnone, -⟩
      · exact (Function.update_self r.dir _ s.names).trans (howner.symm.trans hname)
      · rw [hnone] at hname
        exact absurd hname.symm (Option.some_ne_none _)
    · exact (Function.update_of_ne hdir _ _).trans hname
  name d owner hname := by
    by_cases hd : d = dir
    · subst hd
      obtain rfl := Option.some.inj ((Function.update_self d _ s.names).symm.trans hname)
      rcases havailable with howner | ⟨-, hvacant⟩
      · exact hs.name d _ howner
      · exact ⟨⟨i, rfl⟩, hvacant⟩
    · exact hs.name d owner ((Function.update_of_ne hd _ _).symm.trans hname)
  unnamed d hname := by
    by_cases hd : d = dir
    · subst hd
      exact absurd ((Function.update_self d _ s.names).symm.trans hname) (Option.some_ne_none _)
    · exact hs.unnamed d ((Function.update_of_ne hd _ _).symm.trans hname)

theorem stable_reserve {dir digest : String} (havailable : Available sys store₀ s dir digest) :
    Stable s { s with names := Function.update s.names dir (some digest) } := by
  refine ⟨fun d owner hname => ?_, fun _ r hr => ⟨r, hr, rfl⟩⟩
  by_cases hd : d = dir
  · subst hd
    rcases havailable with howner | ⟨hnone, -⟩
    · exact (Function.update_self d _ s.names).trans (howner.symm.trans hname)
    · rw [hnone] at hname
      exact absurd hname.symm (Option.some_ne_none _)
  · exact (Function.update_of_ne hd _ _).trans hname

/-- Under the lock, an available name may be reserved. -/
theorem safe_reserve {dir digest : String} {k : Unit → CatalogM α} (i : InstallIdentity)
    (hdigest : digest = i.digestText sys) (havailable : Available sys store₀ s dir digest)
    (hnext : ∀ t, Stable s t → t.records = s.records → t.names dir = some digest →
      Consistent sys store₀ t → (catalogDiscipline sys store₀).Safe post (k ()) true t) :
    (catalogDiscipline sys store₀).Safe post (reserve dir digest >>= k) true s := by
  subst hdigest
  refine .modify_bind fun t (hst : Unchanged s t) ht => ?_
  have havailable' : Available sys store₀ t dir (i.digestText sys) := by
    rw [Available, hst.1]
    exact havailable
  have hstable := (catalogDiscipline sys store₀).any_trans
    ((catalogDiscipline sys store₀).any_of_unlocked hst) (stable_reserve havailable')
  exact ⟨ht.reserve i havailable', stable_reserve havailable',
    hnext _ hstable hst.2 (Function.update_self dir _ t.names) (ht.reserve i havailable')⟩

theorem Consistent.writeRecord (hs : Consistent sys store₀ s) {path : String × String}
    {r : IdentityRecord} (hpath : path = homeOf sys r.identity)
    (hconsistent : r.isConsistent sys = true) (hname : s.names r.dir = some r.digest) :
    Consistent sys store₀ { s with records := Function.update s.records path (some r) } where
  record path' r' hr' := by
    have hread : Function.update s.records path (some r) path' = some r' := hr'
    rw [Function.update_apply] at hread
    split at hread
    · case isTrue heq =>
      obtain rfl := Option.some.inj hread
      exact ⟨heq.trans hpath, hconsistent, hname⟩
    · exact hs.record path' r' hread
  name := hs.name
  unnamed := hs.unnamed

/-- Under the lock, a record whose name is reserved for it may be written where
none is, or one with its directory. -/
theorem safe_writeRecord {path : String × String} {r : IdentityRecord} {k : Unit → CatalogM α}
    (hpath : path = homeOf sys r.identity) (hconsistent : r.isConsistent sys = true)
    (hname : s.names r.dir = some r.digest) (hold : ∀ r', s.records path = some r' → r'.dir = r.dir)
    (hnext : ∀ t, Stable s t → t.names = s.names → t.records path = some r →
      Consistent sys store₀ t → (catalogDiscipline sys store₀).Safe post (k ()) true t) :
    (catalogDiscipline sys store₀).Safe post (writeRecord path r >>= k) true s := by
  refine .modify_bind fun t (hst : Unchanged s t) ht => ?_
  have hwritten := ht.writeRecord hpath hconsistent (by rw [hst.1, hname])
  have hkept : Stable t { t with records := Function.update t.records path (some r) } := by
    refine ⟨fun _ _ howner => howner, fun path' r' hr' => ?_⟩
    by_cases heq : path' = path
    · subst heq
      rw [hst.2] at hr'
      exact ⟨r, Function.update_self _ _ t.records, (hold r' hr').symm⟩
    · exact ⟨r', (Function.update_of_ne heq _ _).trans hr', rfl⟩
  have hstable := (catalogDiscipline sys store₀).any_trans
    ((catalogDiscipline sys store₀).any_of_unlocked hst) hkept
  exact ⟨hwritten, hkept, hnext _ hstable hst.1 (Function.update_self _ _ t.records) hwritten⟩

/-! ### The calls -/

/-- The identity has a record with this directory, which is reserved for it. -/
def Assigned (sys : Externals) (i : InstallIdentity) (dir : String) (s : Files) : Prop :=
  (∃ r, s.records (homeOf sys i) = some r ∧ r.dir = dir) ∧ s.names dir = some (i.digestText sys)

theorem Assigned.stable {i : InstallIdentity} {dir : String} (hs : Assigned sys i dir s)
    (hst : Stable s t) : Assigned sys i dir t := by
  obtain ⟨⟨r, hr, rfl⟩, hname⟩ := hs
  obtain ⟨r', hr', hdir⟩ := hst.records _ r hr
  exact ⟨⟨r', hr', hdir⟩, hst.names _ _ hname⟩

/-- The record found for an identity has its directory assigned. -/
theorem Consistent.assigned (hs : Consistent sys store₀ s) {i : InstallIdentity}
    {r : IdentityRecord} (hr : s.records (homeOf sys i) = some r) :
    r.digest = i.digestText sys ∧ Assigned sys i r.dir s := by
  obtain ⟨hpath, hconsistent, hname⟩ := hs.record _ r hr
  have hdigest : r.digest = i.digestText sys := by
    rw [digest_of_isConsistent hconsistent]
    exact (congrArg Prod.snd hpath).symm
  exact ⟨hdigest, ⟨r, hr, rfl⟩, hdigest ▸ hname⟩

/-- What `allocate` promises. -/
def AllocateOk (sys : Externals) (i : InstallIdentity) (result : Except String IdentityRecord)
    (s : Files) : Prop :=
  ∀ r, result = .ok r → Assigned sys i r.dir s

theorem safe_allocateName (i : InstallIdentity) (lens : List ℕ) (hs : Consistent sys store₀ s)
    (hnone : s.records (homeOf sys i) = none) :
    (catalogDiscipline sys store₀).Safe (fun result _ => AllocateOk sys i result)
      (allocateName sys i lens) true s := by
  induction lens generalizing s with
  | nil => exact .pure fun t _ _ r hr => nomatch hr
  | cons len lens ih =>
    refine safe_nameAvailableFor fun t available hst ht havailable => ?_
    have hnone' : t.records (homeOf sys i) = none := by rw [hst.2, hnone]
    cases available with
    | false => exact ih ht hnone'
    | true =>
      refine safe_reserve i rfl (havailable rfl) fun u _ hrecords hname hu => ?_
      have hplain := isPlainDirName_dirName sys i.backend.val i len
      refine safe_writeRecord rfl (isConsistent_new hplain) hname ?_ ?_
      · intro r hr
        rw [hrecords] at hr
        exact absurd (hr.symm.trans hnone') (Option.some_ne_none r)
      · intro v _ hnames hrecord hv
        refine .pure fun w hvw hw r hr => ?_
        obtain rfl := Except.ok.inj hr
        exact Assigned.stable ⟨⟨_, hrecord, rfl⟩, hnames ▸ hname⟩ hvw.any

theorem safe_allocateLocked (i : InstallIdentity) :
    (catalogDiscipline sys store₀).Safe (fun result _ => AllocateOk sys i result)
      (allocateLocked sys i) true s := by
  refine safe_lookup fun t _ ht => ?_
  cases hr : t.records (homeOf sys i) with
  | none => exact safe_allocateName i suffixLengths ht hr
  | some r =>
    obtain ⟨hdigest, hassigned⟩ := ht.assigned hr
    refine safe_reservationHolds fun u (htu : Unchanged t u) hu => ?_
    have hholds : u.names r.dir = some r.digest := by
      rw [htu.1, hassigned.2, hdigest]
    rw [decide_eq_true hholds]
    refine .pure fun v huv _ r' hr' => ?_
    obtain rfl := Except.ok.inj hr'
    have htv := (catalogDiscipline sys store₀).unlocked_trans htu huv
    exact hassigned.stable ((catalogDiscipline sys store₀).any_of_unlocked htv)

theorem safe_allocate (i : InstallIdentity) :
    (catalogDiscipline sys store₀).Safe (fun result _ => AllocateOk sys i result)
      (allocate sys i) false s := by
  refine safe_lookup fun t _ ht => ?_
  cases hr : t.records (homeOf sys i) with
  | none => exact .acquire_bind fun u _ _ => safe_allocateLocked i
  | some r =>
    -- Without the lock, the record may be written over and names be reserved meanwhile, but
    -- neither its directory nor that directory's owner changes.
    obtain ⟨hdigest, hassigned⟩ := ht.assigned hr
    refine safe_reservationHolds fun u (htu : Stable t u) hu => ?_
    have hassigned' := hassigned.stable htu
    have hholds : u.names r.dir = some r.digest := by
      rw [hassigned'.2, hdigest]
    rw [decide_eq_true hholds]
    refine .pure fun v (huv : Stable u v) _ r' hr' => ?_
    obtain rfl := Except.ok.inj hr'
    exact hassigned'.stable huv

theorem safe_updateProvenance (i : InstallIdentity) (provenance : Provenance) :
    (catalogDiscipline sys store₀).Safe (fun _ _ _ => True) (updateProvenance sys i provenance)
      false s := by
  refine .acquire_bind fun t _ _ => safe_lookup fun u _ hu => ?_
  cases hr : u.records (homeOf sys i) with
  | none => exact .pure fun _ _ _ => trivial
  | some r =>
    obtain ⟨hpath, hconsistent, hname⟩ := hu.record _ r hr
    obtain ⟨hdigest, -⟩ := hu.assigned hr
    refine safe_writeRecord ?_ ?_ hname ?_ fun v _ _ _ _ => .pure fun _ _ _ => trivial
    · rw [hdigest]
      exact hpath
    · exact hconsistent
    · intro r' hr'
      rw [hdigest] at hr'
      obtain rfl := Option.some.inj (hr.symm.trans hr')
      rfl

theorem safe_writeSelection (key : InstallIdentity) (selected : IdentityRecord)
    (root : Option String) :
    (catalogDiscipline sys store₀).Safe (fun _ _ _ => True) (writeSelection sys key selected root)
      true s :=
  .modify_bind fun _ _ ht =>
    ⟨⟨ht.record, ht.name, ht.unnamed⟩, (catalogDiscipline sys store₀).any_of_unlocked ⟨rfl, rfl⟩,
      .pure fun _ _ _ => trivial⟩

theorem safe_select (key : InstallIdentity) (selected : IdentityRecord) (root : Option String) :
    (catalogDiscipline sys store₀).Safe (fun _ _ _ => True) (select sys key selected root) false s :=
  .acquire_bind fun _ _ _ => safe_writeSelection key selected root

theorem safe_selectIfUnset (key : InstallIdentity) (selected : IdentityRecord)
    (root : Option String) :
    (catalogDiscipline sys store₀).Safe (fun _ _ _ => True) (selectIfUnset sys key selected root)
      false s := by
  refine .acquire_bind fun _ _ _ => .read_bind fun u _ _ => ?_
  show Safe _ _ (if _ then _ else _) _ _
  split
  · exact .pure fun _ _ _ => trivial
  · exact .bind ((safe_writeSelection key selected root).imp fun _ _ _ _ _ =>
      .pure fun _ _ _ => trivial)

/-- What `rebuild_from_receipts` promises. -/
def RebuildOk (sys : Externals) (restored : List IdentityRecord) (s : Files) : Prop :=
  ∀ r ∈ restored, Assigned sys r.identity r.dir s

theorem RebuildOk.stable {restored : List IdentityRecord} (hs : RebuildOk sys restored s)
    (hst : Stable s t) : RebuildOk sys restored t := fun r hr => (hs r hr).stable hst

/-- Adopting a receipt keeps to the discipline and to what the rebuild promises. -/
theorem safe_adopt {restored : List IdentityRecord} (dir : String) (hs : RebuildOk sys restored s) :
    (catalogDiscipline sys store₀).Safe (fun rs held u => held = true ∧ RebuildOk sys rs u)
      (adopt sys restored dir) true s := by
  have hskip : ∀ t, Unchanged s t → (catalogDiscipline sys store₀).Safe
      (fun rs held u => held = true ∧ RebuildOk sys rs u) (pure restored) true t := by
    intro t hst
    refine .pure fun u (htu : Unchanged t u) _ => ⟨rfl, hs.stable ?_⟩
    have hsu := (catalogDiscipline sys store₀).unlocked_trans hst htu
    exact (catalogDiscipline sys store₀).any_of_unlocked hsu
  rw [adopt]
  split
  · exact hskip s ⟨rfl, rfl⟩
  refine .read_bind fun t (hst : Unchanged s t) ht => ?_
  cases hreceipt : trustedReceipt sys t.store dir with
  | none => exact hskip t hst
  | some receipt =>
    show Safe _ _ (if _ then _ else _) _ _
    split
    · exact hskip t hst
    · case isFalse hbad =>
      rw [Bool.or_eq_true, bne_iff_ne, not_or, not_not, Bool.not_eq_true', Bool.not_eq_false] at hbad
      obtain ⟨hdir, hconsistent⟩ := hbad
      have hdigest := digest_of_isConsistent hconsistent
      refine safe_lookup fun u (htu : Unchanged t u) hu => ?_
      have hsu := (catalogDiscipline sys store₀).unlocked_trans hst htu
      cases hr : u.records (homeOf sys receipt.record.identity) with
      | some r =>
        -- A record there has its name reserved, so the directory is either settled or another's.
        obtain ⟨hdigest', hassigned⟩ := hu.assigned hr
        by_cases hsame : r.dir = dir
        · have hsettled : isSettled (some r) receipt.record dir = reservationHolds receipt.record :=
            if_pos (beq_iff_eq.2 hsame)
          rw [hsettled]
          refine safe_reservationHolds fun v (huv : Unchanged u v) hv => ?_
          have hholds : v.names receipt.record.dir = some receipt.record.digest := by
            rw [huv.1, hdir, ← hsame, hassigned.2, hdigest]
          rw [decide_eq_true hholds]
          exact hskip v ((catalogDiscipline sys store₀).unlocked_trans hsu huv)
        · have hsettled : isSettled (some r) receipt.record dir = pure false :=
            if_neg (mt beq_iff_eq.1 hsame)
          rw [hsettled]
          show Safe _ _ (if (false || r.dir != dir) = true then _ else _) _ _
          rw [Bool.false_or, if_pos (bne_iff_ne.2 hsame)]
          exact hskip u hsu
      | none =>
        refine safe_nameAvailableFor fun v available (huv : Unchanged u v) hv havailable => ?_
        have hsv := (catalogDiscipline sys store₀).unlocked_trans hsu huv
        cases available with
        | false => exact hskip v hsv
        | true =>
          refine safe_reserve receipt.record.identity hdigest (havailable rfl)
            fun w hvw hrecords hname hw => ?_
          refine safe_writeRecord ?_ hconsistent ?_ ?_ ?_
          · rw [hdigest, homeOf]
          · rw [hdir, hname]
          · intro r hr'
            rw [hrecords, huv.2, hdigest] at hr'
            exact absurd (hr'.symm.trans hr) (Option.some_ne_none r)
          · intro x hwx hnames hrecord hx
            refine .pure fun y (hxy : Unchanged x y) _ => ⟨rfl, fun r hr' => ?_⟩
            have hxy' := (catalogDiscipline sys store₀).any_of_unlocked hxy
            rcases List.mem_append.1 hr' with hr' | hr'
            · have hsv' := (catalogDiscipline sys store₀).any_of_unlocked hsv
              exact ((((hs r hr').stable hsv').stable hvw).stable hwx).stable hxy'
            · obtain rfl := List.mem_singleton.1 hr'
              refine Assigned.stable ⟨⟨receipt.record, ?_, rfl⟩, ?_⟩ hxy'
              · rw [homeOf, ← hdigest, hrecord]
              · rw [hnames, hdir, hname, hdigest]

theorem safe_rebuildFromReceipts :
    (catalogDiscipline sys store₀).Safe (fun restored _ => RebuildOk sys restored)
      (rebuildFromReceipts sys) false s := by
  refine .acquire_bind fun t _ _ => .read_bind fun u _ hu => ?_
  have hstable : ∀ (restored : List IdentityRecord) v w, RebuildOk sys restored v →
      (catalogDiscipline sys store₀).Rely true v w → (catalogDiscipline sys store₀).inv w →
      RebuildOk sys restored w :=
    fun _ _ _ hv hvw _ => hv.stable hvw.any
  have hempty : RebuildOk sys [] u := fun _ hr => nomatch hr
  have hloop := Safe.foldlM hstable (fun _ dir _ hrestored _ => safe_adopt dir hrestored)
    ((u.store.toList.filter (·.2.isDir)).map Prod.fst) hempty hu
  exact hloop.imp fun _ _ _ _ hpost => hpost.2

/-! ### Runs -/

/-- The catalog before the first call. -/
def Files.empty (store : BTreeMap String StoreEntry) : Files :=
  ⟨fun _ => none, fun _ => none, fun _ => none, store⟩

/-- What happens to the store beside the calls: an installation whose directory
is reserved is made, changed or removed. -/
def Installs (s t : Files) : Prop :=
  t.names = s.names ∧ t.records = s.records ∧ t.selections = s.selections ∧
    ∀ dir, s.names dir = none → t.store[dir]? = s.store[dir]?

/-- What a call promises of its result. -/
def Promise (sys : Externals) : Call → Outcome → Files → Prop
  | .allocate i, .allocated result, s => AllocateOk sys i result s
  | .rebuildFromReceipts, .restored restored, s => RebuildOk sys restored s
  | _, _, _ => True

theorem Promise.stable {c : Call} {result : Outcome} (hs : Promise sys c result s)
    (hst : Stable s t) : Promise sys c result t := by
  cases c <;> cases result <;> first
    | exact trivial
    | exact fun r hr => (hs r hr).stable hst

theorem safe_run (c : Call) :
    (catalogDiscipline sys store₀).Safe (fun result _ => Promise sys c result) (c.run sys) false s := by
  have hreturn : ∀ {β : Type} (result : β → Outcome) (b : β) (held : Bool) (u : Files),
      Promise sys c (result b) u → (catalogDiscipline sys store₀).Safe
        (fun result _ => Promise sys c result) (pure (result b)) held u :=
    fun _ _ _ _ hb => .pure fun _ huv _ => hb.stable huv.any
  cases c with
  | allocate i => exact .bind ((safe_allocate i).imp fun r _ _ _ hr => hreturn .allocated r _ _ hr)
  | rebuildFromReceipts =>
    exact .bind (safe_rebuildFromReceipts.imp fun rs _ _ _ hrs => hreturn .restored rs _ _ hrs)
  | updateProvenance i provenance =>
    exact .bind ((safe_updateProvenance i provenance).imp fun _ _ _ _ _ => .pure fun _ _ _ => trivial)
  | select key selected root =>
    exact .bind ((safe_select key selected root).imp fun _ _ _ _ _ => .pure fun _ _ _ => trivial)
  | selectIfUnset key selected root =>
    exact .bind ((safe_selectIfUnset key selected root).imp fun _ _ _ _ _ =>
      .pure fun _ _ _ => trivial)

theorem Consistent.installs (hs : Consistent sys store₀ s) (hst : Installs s t) :
    Consistent sys store₀ t where
  record path r hr := by
    rw [hst.2.1] at hr
    rw [hst.1]
    exact hs.record path r hr
  name dir owner hname := by
    rw [hst.1] at hname
    exact hs.name dir owner hname
  unnamed dir hname := by
    rw [hst.1] at hname
    rw [hst.2.2.2 dir hname, hs.unnamed dir hname]

theorem consistent_empty : Consistent sys store₀ (.empty store₀) :=
  ⟨fun _ _ hr => (nomatch hr), fun _ _ hname => (nomatch hname), fun _ _ => rfl⟩

/-- The identities that have records. -/
def recorded (s : Files) : Set InstallIdentity :=
  {i | ∃ path r, s.records path = some r ∧ r.identity = i}

theorem toBase32_injective : Function.Injective Digest.toBase32 := by
  intro d e hde
  exact Option.some.inj ((fromBase32_eq_some_iff.2 rfl).symm.trans (fromBase32_eq_some_iff.2 hde))

/-- Two records name one directory only if their identities have one digest. -/
theorem Consistent.digest_eq (hs : Consistent sys store₀ s) {path path' : String × String}
    {r r' : IdentityRecord} (hr : s.records path = some r) (hr' : s.records path' = some r')
    (hdir : r.dir = r'.dir) : r.identity.digest sys.blake3 = r'.identity.digest sys.blake3 := by
  obtain ⟨-, hconsistent, hname⟩ := hs.record path r hr
  obtain ⟨-, hconsistent', hname'⟩ := hs.record path' r' hr'
  rw [← hdir] at hname'
  have hdigest := Option.some.inj (hname.symm.trans hname')
  rw [digest_of_isConsistent hconsistent, digest_of_isConsistent hconsistent'] at hdigest
  exact toBase32_injective hdigest

section Ownership

variable {ι : Type} [DecidableEq ι]

/-- **The calls agree on who owns a directory.**  In every run of any number of
processes over a catalog that began empty: a reservation never changes owner;
two identities never have records with one directory, where no two recorded
identities share a digest; every `allocate` of an identity returns the same
directory; and one that was in the store before is returned only for the digest
its receipt carries. -/
theorem catalog_ownership (sys : Externals) (store₀ : BTreeMap String StoreEntry)
    {p p' : Pool ι Call Files Outcome}
    (hrun : Pool.Steps (Call.run sys) Installs (.start (.empty store₀)) p)
    (hrun' : Pool.Steps (Call.run sys) Installs p p')
    (hfree : Set.InjOn (InstallIdentity.digest sys.blake3) (recorded p.shared)) :
    (∀ dir owner, p.shared.names dir = some owner → p'.shared.names dir = some owner) ∧
    (∀ path path' r r', p.shared.records path = some r → p.shared.records path' = some r' →
      r.identity ≠ r'.identity → r.dir ≠ r'.dir) ∧
    (∀ i r r', (Call.allocate i, Outcome.allocated (.ok r)) ∈ p.returned →
      (Call.allocate i, Outcome.allocated (.ok r')) ∈ p.returned → r.dir = r'.dir) ∧
    (∀ i r, (Call.allocate i, Outcome.allocated (.ok r)) ∈ p.returned →
      store₀[r.dir]? = none ∨ ∃ receipt, trustedReceipt sys store₀ r.dir = some receipt ∧
        receipt.record.digest = i.digestText sys) := by
  have hbody : ∀ c s, (catalogDiscipline sys store₀).inv s → (catalogDiscipline sys store₀).Safe
      (fun result _ => Promise sys c result) (c.run sys) false s := fun c _ _ => safe_run c
  have henv : ∀ s t, Installs s t → (catalogDiscipline sys store₀).inv s →
      (catalogDiscipline sys store₀).inv t ∧ (catalogDiscipline sys store₀).unlocked s t :=
    fun s t hst hs => ⟨Consistent.installs hs hst, hst.1, hst.2.1⟩
  have hpost : ∀ c result s t, Promise sys c result s → (catalogDiscipline sys store₀).any s t →
      (catalogDiscipline sys store₀).inv t → Promise sys c result t :=
    fun _ _ _ _ hs hst _ => hs.stable hst
  obtain ⟨hsound, -⟩ := (Sound.start consistent_empty).steps hbody henv hpost hrun
  obtain ⟨-, hstable⟩ := hsound.steps hbody henv hpost hrun'
  have hinv : Consistent sys store₀ p.shared := hsound.inv
  refine ⟨hstable.names, ?_, ?_, ?_⟩
  · intro path path' r r' hr hr' hne hdir
    refine hne (hfree ⟨path, r, hr, rfl⟩ ⟨path', r', hr', rfl⟩ ?_)
    exact hinv.digest_eq hr hr' hdir
  · intro i r r' hmem hmem'
    obtain ⟨⟨q, hq, hdir⟩, -⟩ := hsound.returned _ _ hmem r rfl
    obtain ⟨⟨q', hq', hdir'⟩, -⟩ := hsound.returned _ _ hmem' r' rfl
    obtain rfl := Option.some.inj (hq.symm.trans hq')
    exact hdir.symm.trans hdir'
  · intro i r hmem
    obtain ⟨-, hname⟩ := hsound.returned _ _ hmem r rfl
    exact (hinv.name r.dir _ hname).2

end Ownership

/-! ### A run -/

/-- The first allocation over an empty catalog, made by a process that is left
alone, gets the identity's first choice. -/
theorem exec_allocate (sys : Externals) (i : InstallIdentity) (store : BTreeMap String StoreEntry)
    {dir : String} (hdir : dir = dirName sys i.backend.val (i.digestText sys) shortChars)
    (habsent : store[dir]? = none) :
    ((Call.allocate i).run sys).exec false (.empty store) =
      some (.allocated (.ok (.new sys i dir)),
        { Files.empty store with
          names := Function.update (fun _ => none) dir (some (i.digestText sys))
          records := Function.update (fun _ => none) (homeOf sys i) (some (.new sys i dir)) }) := by
  have hlens : suffixLengths = shortChars :: suffixLengths.tail := by decide
  show Prog.exec (Prog.bind (allocateName sys i suffixLengths) _) true _ = _
  rw [hlens]
  show Prog.exec (Prog.bind (Prog.bind
    (if (Option.isSome store[(_ : String)]?) = true then _ else _) _) _) true _ = _
  rw [← hdir, habsent]
  subst hdir
  rfl

theorem subsingleton_recorded {s : Files} {path : String × String} {r : IdentityRecord}
    (hs : s.records = Function.update (fun _ => none) path (some r)) :
    (recorded s).Subsingleton := by
  have hone : ∀ path' r', s.records path' = some r' → r' = r := by
    intro path' r' hr'
    rw [hs, Function.update_apply] at hr'
    split at hr'
    · exact (Option.some.inj hr').symm
    · exact absurd hr'.symm (Option.some_ne_none r')
  rintro i ⟨path', r', hr', rfl⟩ j ⟨path'', r'', hr'', rfl⟩
  rw [hone path' r' hr', hone path'' r'' hr'']

/-- An identity with no options and no pinned inputs. -/
def ageIdentity : InstallIdentity where
  mode := .fallback
  backend := ⟨"aqua:FiloSottile/age", by decide⟩
  version := ⟨"1.2.1", by decide⟩
  platform := ⟨"linux-x64", by decide⟩
  options := ⟨[], .nil, by decide⟩
  inputs := ⟨[], .nil, by decide⟩

/-- The hashes of this identity's bytes and of its backend, and the lowercase
mapping of ASCII. -/
def ageExternals : Externals where
  blake3 bytes :=
    if bytes = ageIdentity.canonicalBytes then
      ⟨[58, 200, 209, 70, 83, 88, 240, 149, 65, 175, 2, 181, 156, 71, 157, 216, 43, 11, 149, 37, 244,
        157, 202, 185, 243, 248, 41, 214, 202, 245, 204, 148], rfl⟩
    else
      ⟨[7, 117, 226, 118, 177, 198, 208, 108, 114, 229, 244, 14, 37, 206, 130, 154, 31, 60, 180, 76,
        221, 199, 189, 166, 39, 14, 209, 94, 141, 44, 242, 82], rfl⟩
  toLowercase := List.map Char.toLower

/-- A process allocates the directory of `age`, and so does every other that
returns by then. -/
theorem catalog_ownership_age : ∃ (p : Pool ℕ Call Files Outcome) (r : IdentityRecord),
    (Call.allocate ageIdentity, Outcome.allocated (.ok r)) ∈ p.returned ∧ r.dir = "age-hlencrst" ∧
    (∀ r', (Call.allocate ageIdentity, Outcome.allocated (.ok r')) ∈ p.returned →
      "age-hlencrst" = r'.dir) := by
  have hdir : "age-hlencrst" = dirName ageExternals ageIdentity.backend.val
      (ageIdentity.digestText ageExternals) shortChars := by decide +kernel
  have hexec := exec_allocate ageExternals ageIdentity ∅ hdir rfl
  have hcall : Pool.Step (Call.run ageExternals) Installs (.start (.empty ∅) : Pool ℕ _ _ _) _ :=
    .call 0 (.allocate ageIdentity) rfl
  have hrun := Relation.ReflTransGen.head hcall (Pool.steps_exec (Function.update_self 0 _ _)
    (Pool.idle_update (fun _ _ => rfl) _) hexec)
  obtain ⟨-, -, hsame, -⟩ :=
    catalog_ownership ageExternals ∅ hrun .refl ((subsingleton_recorded rfl).injOn _)
  exact ⟨_, _, List.mem_cons_self, rfl, fun r' hr' => hsame _ _ r' List.mem_cons_self hr'⟩

end Mise.Install
