/-
# Processes that share a state under one lock

A program is a sequence of atomic actions on a shared state.  It may wait for
the one lock there is, and then holds it to its end.  Any number of processes
run such programs, one action at a time in any order; a process may be killed
between two actions, which frees the lock it held.

A `Discipline` says what the actions may do: what any of them may, and what
those taken without the lock may.  A process that holds the lock is disturbed
by the second kind only.  A program is `Safe` when, under that disturbance, its
own actions keep to the discipline and its result is as promised;
`Safe.bind` and the rules beside it prove this action by action, and
`Discipline.Sound.steps` is what follows for every run of every number of
safe programs.
-/

import Mathlib.Logic.Function.Basic
import Mathlib.Logic.Relation

namespace Mise.Lib

/-! ### Programs -/

/-- A program on a shared state. -/
inductive Prog (σ : Type) (α : Type) where
  | ret (a : α)
  /-- An atomic action: the state it leaves, and the program that follows, both
  from the state it found. -/
  | act (update : σ → σ) (next : σ → Prog σ α)
  /-- Waits for the lock, held from here to the end. -/
  | lock (next : Prog σ α)

namespace Prog

variable {σ α β : Type}

/-- One program after the other. -/
def bind : Prog σ α → (α → Prog σ β) → Prog σ β
  | ret a, f => f a
  | act u k, f => act u fun s => (k s).bind f
  | lock k, f => lock (k.bind f)

instance : Monad (Prog σ) where
  pure := ret
  bind := bind

/-- Reads from the state. -/
def read (f : σ → α) : Prog σ α := act id fun s => ret (f s)

/-- Changes the state. -/
def modify (u : σ → σ) : Prog σ Unit := act u fun _ => ret ()

/-- Takes the lock. -/
def acquire : Prog σ Unit := lock (ret ())

/-- What a program does alone, where the lock is free for it unless it holds it
already. -/
def exec : Prog σ α → Bool → σ → Option (α × σ)
  | ret a, _, s => some (a, s)
  | act u k, h, s => (k s).exec h (u s)
  | lock k, h, s => if h then none else k.exec true s

/-- Every action on every path through a program is one of these. -/
def Acts (P : (σ → σ) → Prop) : Prog σ α → Prop
  | ret _ => True
  | act u k => P u ∧ ∀ s, Acts P (k s)
  | lock k => Acts P k

variable {P : (σ → σ) → Prop}

theorem Acts.bind {p : Prog σ α} {f : α → Prog σ β} (hp : p.Acts P) (hf : ∀ a, (f a).Acts P) :
    (p >>= f).Acts P := by
  show (p.bind f).Acts P
  induction p with
  | ret a => exact hf a
  | act u k ih => exact ⟨hp.1, fun s => ih s (hp.2 s)⟩
  | lock k ih => exact ih hp

theorem Acts.read_bind {f : σ → α} {k : α → Prog σ β} (hid : P id) (hk : ∀ a, (k a).Acts P) :
    (read f >>= k).Acts P := ⟨hid, fun s => hk (f s)⟩

theorem Acts.foldlM {f : β → α → Prog σ β} (hf : ∀ b a, (f b a).Acts P) (l : List α) (b : β) :
    (l.foldlM f b).Acts P := by
  induction l generalizing b with
  | nil => exact trivial
  | cons a l ih =>
    rw [List.foldlM_cons]
    exact (hf b a).bind fun b' => ih b'

end Prog

/-! ### Processes -/

/-- A process: the call it is in, the rest of its program and whether it holds
the lock. -/
structure Process (κ σ α : Type) where
  call : κ
  prog : Prog σ α
  holds : Bool

/-- The processes, the state they share and what they have returned. -/
structure Pool (ι κ σ α : Type) where
  shared : σ
  running : ι → Option (Process κ σ α)
  returned : List (κ × α)

namespace Pool

variable {ι κ σ α : Type} [DecidableEq ι]

/-- The pool in which nothing has been called yet. -/
def start (s : σ) : Pool ι κ σ α := ⟨s, fun _ => none, []⟩

/-- One step of one process, or of the environment. -/
inductive Step (body : κ → Prog σ α) (env : σ → σ → Prop) : Pool ι κ σ α → Pool ι κ σ α → Prop
  | call {p : Pool ι κ σ α} (i : ι) (c : κ) (idle : p.running i = none) :
      Step body env p
        { p with running := Function.update p.running i (some ⟨c, body c, false⟩) }
  | act {p : Pool ι κ σ α} (i : ι) {c : κ} {u : σ → σ} {k : σ → Prog σ α} {h : Bool}
      (runs : p.running i = some ⟨c, .act u k, h⟩) :
      Step body env p
        { p with
          shared := u p.shared
          running := Function.update p.running i (some ⟨c, k p.shared, h⟩) }
  | lock {p : Pool ι κ σ α} (i : ι) {c : κ} {k : Prog σ α} {h : Bool}
      (runs : p.running i = some ⟨c, .lock k, h⟩)
      (free : ∀ j q, p.running j = some q → q.holds = false) :
      Step body env p { p with running := Function.update p.running i (some ⟨c, k, true⟩) }
  | ret {p : Pool ι κ σ α} (i : ι) {c : κ} {a : α} {h : Bool}
      (runs : p.running i = some ⟨c, .ret a, h⟩) :
      Step body env p
        { p with
          running := Function.update p.running i none
          returned := (c, a) :: p.returned }
  | kill {p : Pool ι κ σ α} (i : ι) :
      Step body env p { p with running := Function.update p.running i none }
  | env {p : Pool ι κ σ α} {s : σ} (disturbs : env p.shared s) :
      Step body env p { p with shared := s }

/-- A run of steps. -/
def Steps (body : κ → Prog σ α) (env : σ → σ → Prop) :
    Pool ι κ σ α → Pool ι κ σ α → Prop :=
  Relation.ReflTransGen (Step body env)

/-- The processes of a pool go on to act as their calls do. -/
theorem acts_step {P : κ → (σ → σ) → Prop} {body : κ → Prog σ α} {env : σ → σ → Prop}
    (hbody : ∀ c, (body c).Acts (P c)) {p p' : Pool ι κ σ α}
    (hp : ∀ j q, p.running j = some q → q.prog.Acts (P q.call)) (hstep : Step body env p p')
    (j : ι) (q : Process κ σ α) (hj : p'.running j = some q) : q.prog.Acts (P q.call) := by
  have hmoved : ∀ i r, (∀ q, r = some q → q.prog.Acts (P q.call)) →
      Function.update p.running i r j = some q → q.prog.Acts (P q.call) := by
    intro i r hr hj
    by_cases hji : j = i
    · subst hji
      rw [Function.update_self] at hj
      exact hr q hj
    · rw [Function.update_of_ne hji] at hj
      exact hp j q hj
  cases hstep with
  | call i c idle =>
    refine hmoved i _ ?_ hj
    rintro q ⟨⟩
    exact hbody c
  | act i hruns =>
    refine hmoved i _ ?_ hj
    rintro q ⟨⟩
    exact (hp i _ hruns).2 _
  | lock i hruns hfree =>
    refine hmoved i _ ?_ hj
    rintro q ⟨⟩
    have hlock := hp i _ hruns
    exact hlock
  | ret i hruns => exact hmoved i none (fun _ hq => nomatch hq) hj
  | kill i => exact hmoved i none (fun _ hq => nomatch hq) hj
  | env hdisturbs => exact hp j q hj

/-- No process but one is running after that one has moved. -/
theorem idle_update {p : Pool ι κ σ α} {i : ι}
    (hothers : ∀ j, j ≠ i → p.running j = none) (r : Option (Process κ σ α)) (j : ι) (hj : j ≠ i) :
    Function.update p.running i r j = none := by
  rw [Function.update_of_ne hj, hothers j hj]

/-- A process that is left alone gets to the end of its program. -/
theorem steps_ret {body : κ → Prog σ α} {env : σ → σ → Prop} {c : κ} {i : ι} {prog : Prog σ α}
    {h : Bool} {p : Pool ι κ σ α} {a : α} {s : σ} (hruns : p.running i = some ⟨c, prog, h⟩)
    (hothers : ∀ j, j ≠ i → p.running j = none) (hexec : prog.exec h p.shared = some (a, s)) :
    ∃ p', Steps body env p p' ∧ (∃ h', p'.running i = some ⟨c, .ret a, h'⟩) ∧
      (∀ j, j ≠ i → p'.running j = none) ∧ p'.shared = s ∧ p'.returned = p.returned := by
  induction prog generalizing h p with
  | ret b =>
    obtain ⟨rfl, rfl⟩ := Prod.mk.inj (Option.some.inj hexec)
    exact ⟨p, .refl, ⟨h, hruns⟩, hothers, rfl, rfl⟩
  | act u k ih =>
    obtain ⟨p', hsteps, hreturns⟩ := ih p.shared (p := { p with
      shared := u p.shared
      running := Function.update p.running i (some ⟨c, k p.shared, h⟩) })
      (Function.update_self ..) (idle_update hothers _) hexec
    exact ⟨p', .head (.act i hruns) hsteps, hreturns⟩
  | lock k ih =>
    rw [Prog.exec] at hexec
    split at hexec
    · exact absurd hexec.symm (Option.some_ne_none _)
    · case isFalse hfree =>
      obtain ⟨p', hsteps, hreturns⟩ := ih (p := { p with
        running := Function.update p.running i (some ⟨c, k, true⟩) })
        (Function.update_self ..) (idle_update hothers _) hexec
      refine ⟨p', .head (.lock i hruns ?_) hsteps, hreturns⟩
      intro j q hj
      by_cases hji : j = i
      · rw [hji, hruns] at hj
        obtain rfl := Option.some.inj hj
        exact Bool.eq_false_iff.2 hfree
      · rw [hothers j hji] at hj
        exact absurd hj.symm (Option.some_ne_none q)

/-- A process that is left alone does what its program does. -/
theorem steps_exec {body : κ → Prog σ α} {env : σ → σ → Prop} {c : κ} {i : ι} {prog : Prog σ α}
    {h : Bool} {p : Pool ι κ σ α} {a : α} {s : σ} (hruns : p.running i = some ⟨c, prog, h⟩)
    (hothers : ∀ j, j ≠ i → p.running j = none) (hexec : prog.exec h p.shared = some (a, s)) :
    Steps body env p ⟨s, fun _ => none, (c, a) :: p.returned⟩ := by
  obtain ⟨p', hsteps, ⟨h', hret⟩, hothers', hshared, hreturned⟩ := steps_ret hruns hothers hexec
  have hidle : Function.update p'.running i none = fun _ => none := by
    funext j
    by_cases hj : j = i
    · rw [hj, Function.update_self]
    · exact idle_update hothers' none j hj
  have hstep : Step body env p' _ := .ret i hret
  rw [hidle, hshared, hreturned] at hstep
  exact hsteps.tail hstep

/-- A call that is made alone gets to the end of its program. -/
theorem steps_call {body : κ → Prog σ α} {env : σ → σ → Prop} {p : Pool ι κ σ α} {a : α} {s : σ}
    (i : ι) (c : κ) (hidle : ∀ j, p.running j = none)
    (hexec : (body c).exec false p.shared = some (a, s)) :
    ∃ p', Steps body env p p' ∧ (∃ h, p'.running i = some ⟨c, .ret a, h⟩) ∧
      (∀ j, j ≠ i → p'.running j = none) ∧ p'.shared = s := by
  have hcall : Step body env p _ := .call i c (hidle i)
  obtain ⟨p', hsteps, hreturns, hothers, hshared, -⟩ := steps_ret (Function.update_self ..)
    (idle_update (fun j _ => hidle j) _) (p := { p with
      running := Function.update p.running i (some ⟨c, body c, false⟩) }) hexec
  exact ⟨p', .head hcall hsteps, hreturns, hothers, hshared⟩

end Pool

/-! ### Disciplines -/

/-- What the actions of processes may do to the state they share. -/
structure Discipline (σ : Type) where
  /-- What every action keeps. -/
  inv : σ → Prop
  /-- What any action may do. -/
  any : σ → σ → Prop
  /-- What an action taken without the lock may do. -/
  unlocked : σ → σ → Prop
  any_refl : ∀ s, any s s
  any_trans : ∀ {s t u}, any s t → any t u → any s u
  unlocked_refl : ∀ s, unlocked s s
  unlocked_trans : ∀ {s t u}, unlocked s t → unlocked t u → unlocked s u
  any_of_unlocked : ∀ {s t}, unlocked s t → any s t

namespace Discipline

variable {σ α β : Type} (D : Discipline σ)

/-- What the others may do to a process that holds the lock, or does not. -/
def Rely (holds : Bool) : σ → σ → Prop := if holds then D.unlocked else D.any

/-- What a process that holds the lock, or does not, may do. -/
def Guarantee (holds : Bool) : σ → σ → Prop := if holds then D.any else D.unlocked

variable {D} {h : Bool} {s t u : σ}

theorem Rely.trans (hst : D.Rely h s t) (htu : D.Rely h t u) : D.Rely h s u := by
  cases h with
  | true => exact D.unlocked_trans hst htu
  | false => exact D.any_trans hst htu

theorem Rely.refl (s : σ) : D.Rely h s s := by
  cases h with
  | true => exact D.unlocked_refl s
  | false => exact D.any_refl s

theorem Guarantee.refl (s : σ) : D.Guarantee h s s := by
  cases h with
  | true => exact D.any_refl s
  | false => exact D.unlocked_refl s

theorem Rely.any (hst : D.Rely h s t) : D.any s t := by
  cases h with
  | true => exact D.any_of_unlocked hst
  | false => exact hst

theorem Guarantee.any (hst : D.Guarantee h s t) : D.any s t := by
  cases h with
  | true => exact hst
  | false => exact D.any_of_unlocked hst

/-- What one process does is what the others rely on, as long as they do not
both hold the lock. -/
theorem Guarantee.rely {h' : Bool} (hst : D.Guarantee h s t) (hone : h = true → h' = false) :
    D.Rely h' s t := by
  cases h with
  | true =>
    rw [hone rfl]
    exact hst
  | false =>
    cases h' with
    | true => exact hst
    | false => exact D.any_of_unlocked hst

/-! ### Safe programs -/

/-- From the state `s`, disturbed by the others, the program's actions keep to
the discipline, and where it ends `post` holds of its result. -/
def Safe (D : Discipline σ) (post : α → Bool → σ → Prop) : Prog σ α → Bool → σ → Prop
  | .ret a, h, s => ∀ t, D.Rely h s t → D.inv t → post a h t
  | .act u k, h, s => ∀ t, D.Rely h s t → D.inv t →
      D.inv (u t) ∧ D.Guarantee h t (u t) ∧ D.Safe post (k t) h (u t)
  | .lock k, h, s => ∀ t, D.Rely h s t → D.inv t → D.Safe post k true t

variable {post : β → Bool → σ → Prop}

/-- A safe program stays safe when it is disturbed. -/
theorem Safe.disturb {p : Prog σ β} (hsafe : D.Safe post p h s) (hst : D.Rely h s t) :
    D.Safe post p h t := by
  cases p with
  | ret a => exact fun u htu hinv => hsafe u (hst.trans htu) hinv
  | act u k => exact fun u htu hinv => hsafe u (hst.trans htu) hinv
  | lock k => exact fun u htu hinv => hsafe u (hst.trans htu) hinv

/-- A program is safe where it is safe after every disturbance. -/
theorem Safe.of_disturbed {p : Prog σ β}
    (hsafe : ∀ t, D.Rely h s t → D.inv t → D.Safe post p h t) : D.Safe post p h s := by
  cases p with
  | ret a => exact fun t hst hinv => hsafe t hst hinv t (Rely.refl t) hinv
  | act u k => exact fun t hst hinv => hsafe t hst hinv t (Rely.refl t) hinv
  | lock k => exact fun t hst hinv => hsafe t hst hinv t (Rely.refl t) hinv

/-- **Sequencing.**  The second program is to be safe wherever the first ends. -/
theorem Safe.bind {p : Prog σ α} {f : α → Prog σ β}
    (hsafe : D.Safe (fun a h t => D.Safe post (f a) h t) p h s) :
    D.Safe post (p >>= f) h s := by
  show D.Safe post (p.bind f) h s
  induction p generalizing h s with
  | ret a => exact .of_disturbed hsafe
  | act u k ih =>
    intro t hst hinv
    obtain ⟨hinv', hguarantee, hnext⟩ := hsafe t hst hinv
    exact ⟨hinv', hguarantee, ih t hnext⟩
  | lock k ih => exact fun t hst hinv => ih (hsafe t hst hinv)

theorem Safe.pure {a : β} (hpost : ∀ t, D.Rely h s t → D.inv t → post a h t) :
    D.Safe post (Pure.pure a) h s := hpost

/-- A read, and what follows it. -/
theorem Safe.read_bind {f : σ → α} {k : α → Prog σ β}
    (hnext : ∀ t, D.Rely h s t → D.inv t → D.Safe post (k (f t)) h t) :
    D.Safe post (Prog.read f >>= k) h s := fun t hst hinv =>
  ⟨hinv, Guarantee.refl t, hnext t hst hinv⟩

/-- A change, and what follows it. -/
theorem Safe.modify_bind {u : σ → σ} {k : Unit → Prog σ β}
    (hnext : ∀ t, D.Rely h s t → D.inv t →
      D.inv (u t) ∧ D.Guarantee h t (u t) ∧ D.Safe post (k ()) h (u t)) :
    D.Safe post (Prog.modify u >>= k) h s := hnext

/-- The lock, and what follows it. -/
theorem Safe.acquire_bind {k : Unit → Prog σ β}
    (hnext : ∀ t, D.Rely h s t → D.inv t → D.Safe post (k ()) true t) :
    D.Safe post (Prog.acquire >>= k) h s := hnext

/-- A safe program promises what its result's property implies. -/
theorem Safe.imp {post' : β → Bool → σ → Prop} {p : Prog σ β} (hsafe : D.Safe post p h s)
    (himp : ∀ b h t, D.inv t → post b h t → post' b h t) : D.Safe post' p h s := by
  induction p generalizing h s with
  | ret a => exact fun t hst hinv => himp a h t hinv (hsafe t hst hinv)
  | act u k ih =>
    intro t hst hinv
    obtain ⟨hinv', hguarantee, hnext⟩ := hsafe t hst hinv
    exact ⟨hinv', hguarantee, ih t hnext⟩
  | lock k ih => exact fun t hst hinv => ih (hsafe t hst hinv)

/-- **A loop over a list.**  What every turn keeps, and no disturbance breaks,
holds of the accumulator at the end. -/
theorem Safe.foldlM {γ : Type} {f : β → γ → Prog σ β} {J : β → σ → Prop}
    (hstable : ∀ b t u, J b t → D.Rely h t u → D.inv u → J b u)
    (hturn : ∀ b c t, J b t → D.inv t → D.Safe (fun b' h' u => h' = h ∧ J b' u) (f b c) h t)
    (l : List γ) {b : β} (hb : J b s) (hinv : D.inv s) :
    D.Safe (fun b' h' u => h' = h ∧ J b' u) (l.foldlM f b) h s := by
  induction l generalizing b s with
  | nil => exact fun t hst hinv' => ⟨rfl, hstable b s t hb hst hinv'⟩
  | cons c l ih =>
    rw [List.foldlM_cons]
    refine .bind ((hturn b c s hb hinv).imp ?_)
    rintro b' h' t hinv' ⟨rfl, hb'⟩
    exact ih hb' hinv'

/-! ### Runs -/

variable {ι κ : Type} [DecidableEq ι]

/-- What a pool of safe processes keeps. -/
structure Sound (D : Discipline σ) (post : κ → α → σ → Prop) (p : Pool ι κ σ α) : Prop where
  inv : D.inv p.shared
  safe : ∀ i q, p.running i = some q →
    D.Safe (fun a _ t => post q.call a t) q.prog q.holds p.shared
  one : ∀ i j q r, p.running i = some q → p.running j = some r → q.holds = true →
    r.holds = true → i = j
  returned : ∀ c a, (c, a) ∈ p.returned → post c a p.shared

variable {post : κ → α → σ → Prop} {p : Pool ι κ σ α} {i : ι} {r : Option (Process κ σ α)}

/-- The processes are safe after one of them moved, when the others were
disturbed as they rely on. -/
theorem Sound.safe_update (hp : D.Sound post p)
    (hothers : ∀ j q, j ≠ i → p.running j = some q → D.Rely q.holds p.shared t)
    (hr : ∀ q, r = some q → D.Safe (fun a _ u => post q.call a u) q.prog q.holds t) (j : ι)
    (q : Process κ σ α) (hj : Function.update p.running i r j = some q) :
    D.Safe (fun a _ u => post q.call a u) q.prog q.holds t := by
  by_cases hji : j = i
  · subst hji
    rw [Function.update_self] at hj
    exact hr q hj
  · rw [Function.update_of_ne hji] at hj
    exact (hp.safe j q hj).disturb (hothers j q hji hj)

/-- At most one process holds the lock after one of them moved. -/
theorem Sound.one_update (hp : D.Sound post p)
    (hr : ∀ q, r = some q → q.holds = true →
      ∀ j q', j ≠ i → p.running j = some q' → q'.holds = false) (j k : ι)
    (q q' : Process κ σ α) (hj : Function.update p.running i r j = some q)
    (hk : Function.update p.running i r k = some q') (hq : q.holds = true)
    (hq' : q'.holds = true) : j = k := by
  by_cases hji : j = i <;> by_cases hki : k = i
  · rw [hji, hki]
  · subst hji
    rw [Function.update_self] at hj
    rw [Function.update_of_ne hki] at hk
    rw [hr q hj hq k q' hki hk] at hq'
    exact Bool.noConfusion hq'
  · subst hki
    rw [Function.update_self] at hk
    rw [Function.update_of_ne hji] at hj
    rw [hr q' hk hq' j q hji hj] at hq
    exact Bool.noConfusion hq
  · rw [Function.update_of_ne hji] at hj
    rw [Function.update_of_ne hki] at hk
    exact hp.one j k q q' hj hk hq hq'

omit [DecidableEq ι] in
/-- While one process holds the lock, no other does. -/
theorem Sound.others_wait (hp : D.Sound post p) {q : Process κ σ α} (hi : p.running i = some q)
    (hq : q.holds = true) (j : ι) (q' : Process κ σ α) (hji : j ≠ i)
    (hj : p.running j = some q') : q'.holds = false := by
  cases hholds : q'.holds with
  | false => rfl
  | true => exact absurd (hp.one j i q' q hj hi hholds hq) hji

section Runs

variable {body : κ → Prog σ α} {env : σ → σ → Prop}
  (hbody : ∀ c s, D.inv s → D.Safe (fun a _ t => post c a t) (body c) false s)
  (henv : ∀ s t, env s t → D.inv s → D.inv t ∧ D.unlocked s t)
  (hpost : ∀ c a s t, post c a s → D.any s t → D.inv t → post c a t)

include hbody henv hpost

/-- A step keeps a sound pool sound, and does what the discipline allows. -/
theorem Sound.step {p' : Pool ι κ σ α} (hp : D.Sound post p) (hstep : Pool.Step body env p p') :
    D.Sound post p' ∧ D.any p.shared p'.shared := by
  cases hstep with
  | call i c hidle =>
    refine ⟨⟨hp.inv, hp.safe_update (fun j q _ _ => .refl _) ?_, hp.one_update ?_, hp.returned⟩,
      D.any_refl _⟩
    · rintro q ⟨⟩
      exact hbody c p.shared hp.inv
    · rintro q ⟨⟩ hholds
      exact Bool.noConfusion hholds
  | @act i c u k h hruns =>
    obtain ⟨hinv, hguarantee, hnext⟩ := hp.safe i _ hruns p.shared (.refl _) hp.inv
    refine ⟨⟨hinv, hp.safe_update ?_ ?_, hp.one_update ?_, ?_⟩, hguarantee.any⟩
    · exact fun j q hji hj => hguarantee.rely fun hholds => hp.others_wait hruns hholds j q hji hj
    · rintro q ⟨⟩
      exact hnext
    · rintro q ⟨⟩ hholds
      exact hp.others_wait hruns hholds
    · exact fun c a hmem => hpost c a _ _ (hp.returned c a hmem) hguarantee.any hinv
  | @lock i c k h hruns hfree =>
    obtain rfl : h = false := hfree i _ hruns
    have hnext := hp.safe i _ hruns p.shared (.refl _) hp.inv
    refine ⟨⟨hp.inv, hp.safe_update (fun j q _ _ => .refl _) ?_, hp.one_update ?_, hp.returned⟩,
      D.any_refl _⟩
    · rintro q ⟨⟩
      exact hnext
    · exact fun q _ _ j q' _ hj => hfree j q' hj
  | @ret i c a h hruns =>
    have hresult := hp.safe i _ hruns p.shared (.refl _) hp.inv
    refine ⟨⟨hp.inv, hp.safe_update (fun j q _ _ => .refl _) (fun q hq => nomatch hq),
      hp.one_update (fun q hq => nomatch hq), ?_⟩, D.any_refl _⟩
    intro c' a' hmem
    rcases List.mem_cons.1 hmem with heq | hmem
    · obtain ⟨rfl, rfl⟩ := Prod.mk.inj heq
      exact hresult
    · exact hp.returned c' a' hmem
  | kill i =>
    exact ⟨⟨hp.inv, hp.safe_update (fun j q _ _ => .refl _) (fun q hq => nomatch hq),
      hp.one_update (fun q hq => nomatch hq), hp.returned⟩, D.any_refl _⟩
  | @env s hdisturbs =>
    obtain ⟨hinv, hunlocked⟩ := henv _ _ hdisturbs hp.inv
    have hrely : ∀ h, D.Rely h p.shared s := by
      intro h
      cases h with
      | true => exact hunlocked
      | false => exact D.any_of_unlocked hunlocked
    exact ⟨⟨hinv, fun j q hj => (hp.safe j q hj).disturb (hrely _), hp.one, fun c a hmem =>
      hpost c a _ _ (hp.returned c a hmem) (D.any_of_unlocked hunlocked) hinv⟩,
      D.any_of_unlocked hunlocked⟩

/-- **Every run of safe programs keeps to the discipline**: the invariant holds
in every pool it reaches, and so does the promise of every call that has
returned. -/
theorem Sound.steps {p' : Pool ι κ σ α} (hp : D.Sound post p)
    (hsteps : Pool.Steps body env p p') : D.Sound post p' ∧ D.any p.shared p'.shared := by
  induction hsteps with
  | refl => exact ⟨hp, D.any_refl _⟩
  | tail _ hstep ih =>
    obtain ⟨hsound, hany⟩ := ih.1.step hbody henv hpost hstep
    exact ⟨hsound, D.any_trans ih.2 hany⟩

end Runs

omit [DecidableEq ι] in
/-- Before the first call, only the invariant is to be shown. -/
theorem Sound.start (hinv : D.inv s) : D.Sound post (Pool.start s : Pool ι κ σ α) :=
  ⟨hinv, fun _ _ hq => (nomatch hq), fun _ _ _ _ hq => (nomatch hq), fun _ _ hmem => nomatch hmem⟩

end Discipline

end Mise.Lib
