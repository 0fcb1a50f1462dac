import Fileloft.Effect.Expand
import Mathlib.Logic.Hydra

/-!
# Threads that wait for locks

A thread that takes one lock at a time, and gives it back on every way out,
never waits for a thread that waits. Programs are finite trees, so a pool
that nothing enters comes to rest, and then no lock is taken.
-/

/-- What an operation does to the locks `K`. The operations that are `never`
performed need no answer. -/
inductive LockStep (K : Type) where
  | acquire (i : K)
  | release (i : K)
  | other
  | never

/-- The lock operations of a signature, and which answers grant a lock. -/
structure Locking (S : Sig) (K : Type) where
  kind : S.Op → LockStep K
  granted : (o : S.Op) → S.Ans o → Prop

namespace Prog

variable {S : Sig} {K ε α β : Type} {L : Locking S K} {held : Option K}

/-- With `held` taken at the start, the program takes a lock only when it has
none, and ends with none. -/
def Locks (L : Locking S K) : Option K → Prog S ε α → Prop
  | held, .ret _ => held = none
  | held, .fail _ => held = none
  | held, .op o k =>
    match L.kind o with
    | .acquire i => held = none ∧ ∀ r,
        (L.granted o r → Locks L (some i) (k r)) ∧ (¬ L.granted o r → Locks L none (k r))
    | .release i => held = some i ∧ ∀ r, Locks L none (k r)
    | .other => ∀ r, Locks L held (k r)
    | .never => False

variable {o : S.Op} {k : S.Ans o → Prog S ε α}

theorem locks_acquire {i : K} (ho : L.kind o = .acquire i) : Locks L held (.op o k) ↔
    held = none ∧ ∀ r, (L.granted o r → Locks L (some i) (k r)) ∧
      (¬ L.granted o r → Locks L none (k r)) := by
  rw [Locks, ho]

theorem locks_release {i : K} (ho : L.kind o = .release i) : Locks L held (.op o k) ↔
    held = some i ∧ ∀ r, Locks L none (k r) := by
  rw [Locks, ho]

theorem locks_other (ho : L.kind o = .other) :
    Locks L held (.op o k) ↔ ∀ r, Locks L held (k r) := by
  rw [Locks, ho]

theorem not_locks_never (ho : L.kind o = .never) : ¬ Locks L held (.op o k) := by
  rw [Locks, ho]
  exact id

theorem Locks.bind {p : Prog S ε α} {f : α → Prog S ε β} (hp : Locks L held p)
    (hf : ∀ a, Locks L none (f a)) : Locks L held (p.bind f) := by
  induction p generalizing held with
  | ret a =>
      obtain rfl : held = none := hp
      exact hf a
  | fail e => exact hp
  | op o k ih =>
      cases ho : L.kind o with
      | acquire i =>
          obtain ⟨hnone, hk⟩ := (locks_acquire ho).mp hp
          refine (locks_acquire ho).mpr ⟨hnone, fun r => ⟨fun hr => ?_, fun hr => ?_⟩⟩
          · exact ih r ((hk r).1 hr)
          · exact ih r ((hk r).2 hr)
      | release i =>
          obtain ⟨hheld, hk⟩ := (locks_release ho).mp hp
          exact (locks_release ho).mpr ⟨hheld, fun r => ih r (hk r)⟩
      | other => exact (locks_other ho).mpr fun r => ih r ((locks_other ho).mp hp r)
      | never => exact absurd hp (not_locks_never ho)

theorem Locks.attempt {p : Prog S ε α} (hp : Locks L held p) : Locks L held p.attempt := by
  induction p generalizing held with
  | ret a => exact hp
  | fail e => exact hp
  | op o k ih =>
      cases ho : L.kind o with
      | acquire i =>
          obtain ⟨hnone, hk⟩ := (locks_acquire ho).mp hp
          refine (locks_acquire ho).mpr ⟨hnone, fun r => ⟨fun hr => ?_, fun hr => ?_⟩⟩
          · exact ih r ((hk r).1 hr)
          · exact ih r ((hk r).2 hr)
      | release i =>
          obtain ⟨hheld, hk⟩ := (locks_release ho).mp hp
          exact (locks_release ho).mpr ⟨hheld, fun r => ih r (hk r)⟩
      | other => exact (locks_other ho).mpr fun r => ih r ((locks_other ho).mp hp r)
      | never => exact absurd hp (not_locks_never ho)

/-- Work that leaves the locks alone and always returns may be done with a lock taken. -/
theorem locks_then {p : Prog S ε α} {f : α → Prog S ε β}
    (hp : p.Uses (fun o => L.kind o = .other) fun _ _ => True) (htotal : p.Total)
    (hf : ∀ a, Locks L held (f a)) : Locks L held (p.bind f) := by
  induction p with
  | ret a => exact hf a
  | fail e => exact htotal.elim
  | op o k ih => exact (locks_other hp.1).mpr fun r => ih r (hp.2 r trivial) (htotal r)

theorem locks_of_uses {p : Prog S ε α}
    (hp : p.Uses (fun o => L.kind o = .other) fun _ _ => True) : Locks L none p := by
  induction p with
  | ret a => rfl
  | fail e => rfl
  | op o k ih => exact (locks_other hp.1).mpr fun r => ih r (hp.2 r trivial)

theorem total_attempt (p : Prog S ε α) : (p.attempt : Prog S ε _).Total := by
  induction p with
  | ret a => trivial
  | fail e => trivial
  | op o k ih => exact ih

end Prog

namespace Pool

variable {S : Sig} {ε α Q T X σ K : Type}

/-! ## Waiting -/

/-- A machine whose locks have the holders that `holder` reads from the
state. An acquisition may only wait for a lock that is taken. -/
structure Guards [DecidableEq K] (M : Machine S ε α Q T X σ) (L : Locking S K)
    (holder : σ → K → Option T) : Prop where
  program : ∀ q, (M.program q).Locks L none
  enter : ∀ t q s, holder (M.enter t q s) = holder s
  leave : ∀ t q r s, holder (M.leave t q r s) = holder s
  other : ∀ x t o s, L.kind o = .other → ∃ r s', M.act x t o s = some (r, s') ∧ holder s' = holder s
  release : ∀ x t o s i, L.kind o = .release i → ∃ r s', M.act x t o s = some (r, s') ∧
    holder s' = Function.update (holder s) i none
  acquire : ∀ x t o s i, L.kind o = .acquire i → holder s i = none → (M.act x t o s).isSome
  grant : ∀ x t o s i r s', L.kind o = .acquire i → M.act x t o s = some (r, s') →
    (L.granted o r → holder s i = none ∧ holder s' = Function.update (holder s) i (some t)) ∧
      (¬ L.granted o r → holder s' = holder s)

/-- The locks a thread has are those its program has still to give back. -/
def Holding (L : Locking S K) (holder : K → Option T) (t : T) : Thread S ε α Q → Prop
  | .running _ p => ∃ held, p.Locks L held ∧ ∀ i, holder i = some t ↔ held = some i
  | _ => ∀ i, holder i ≠ some t

variable {M : Machine S ε α Q T X σ} {L : Locking S K} {holder : σ → K → Option T}
  {P : Pool S ε α Q T σ → Move Q T X → Prop} {c₀ c c' : Pool S ε α Q T σ}

theorem Holding.congr {t : T} {th : Thread S ε α Q} {f g : K → Option T} (hth : Holding L f t th)
    (hfg : ∀ i, g i = some t ↔ f i = some t) : Holding L g t th := by
  cases th with
  | running q p =>
      obtain ⟨held, hp, hheld⟩ := hth
      exact ⟨held, hp, fun i => (hfg i).trans (hheld i)⟩
  | idle => exact fun i hi => hth i ((hfg i).mp hi)
  | done q r => exact fun i hi => hth i ((hfg i).mp hi)

theorem holding_ended {t : T} {q : Q} {p : Prog S ε α} {r : Except ε α} {f : K → Option T}
    (hth : Holding L f t (.running q p)) (hended : Ended p r) (i : K) : f i ≠ some t := by
  obtain ⟨held, hp, hheld⟩ := hth
  have hnone : held = none := by
    cases hended with
    | ret a => exact hp
    | fail e => exact hp
  rw [ne_eq, hheld i, hnone]
  exact nofun

/-- Who has a lock is running. -/
theorem running_of_holder (hc : ∀ t, Holding L (holder c.shared) t (c.threads t)) {t : T} {i : K}
    (hi : holder c.shared i = some t) : ∃ q p, c.threads t = .running q p := by
  have hth := hc t
  cases hrunning : c.threads t with
  | running q p => exact ⟨q, p, rfl⟩
  | idle =>
      rw [hrunning] at hth
      exact absurd hi (hth i)
  | done q r =>
      rw [hrunning] at hth
      exact absurd hi (hth i)

variable [DecidableEq K]

/-- What one operation of a thread does to the locks of all. -/
theorem Guards.step (hM : Guards M L holder) {t : T} {q : Q} {x : X} {o : S.Op}
    {k : S.Ans o → Prog S ε α} {s s' : σ} {r : S.Ans o}
    (hth : Holding L (holder s) t (.running q (.op o k))) (hact : M.act x t o s = some (r, s')) :
    Holding L (holder s') t (.running q (k r)) ∧
      ∀ t', t' ≠ t → ∀ i, holder s' i = some t' ↔ holder s i = some t' := by
  obtain ⟨held, hp, hheld⟩ := hth
  cases ho : L.kind o with
  | acquire i =>
      obtain ⟨rfl, hk⟩ := (Prog.locks_acquire ho).mp hp
      by_cases hr : L.granted o r
      · obtain ⟨hfree, hs'⟩ := (hM.grant x t o s i r s' ho hact).1 hr
        rw [hs']
        refine ⟨⟨some i, (hk r).1 hr, fun j => ?_⟩, fun t' ht j => ?_⟩
        · by_cases hj : j = i
          · subst hj
            simp
          · rw [Function.update_of_ne hj, hheld j]
            simp [Ne.symm hj]
        · by_cases hj : j = i
          · subst hj
            simp [hfree, Ne.symm ht]
          · rw [Function.update_of_ne hj]
      · rw [(hM.grant x t o s i r s' ho hact).2 hr]
        exact ⟨⟨none, (hk r).2 hr, hheld⟩, fun _ _ _ => Iff.rfl⟩
  | release i =>
      obtain ⟨rfl, hk⟩ := (Prog.locks_release ho).mp hp
      obtain ⟨r', s'', hact', hs'⟩ := hM.release x t o s i ho
      obtain ⟨rfl, rfl⟩ := Prod.mk.inj (Option.some.inj (hact.symm.trans hact'))
      rw [hs']
      refine ⟨⟨none, hk r, fun j => ?_⟩, fun t' ht j => ?_⟩
      · by_cases hj : j = i
        · subst hj
          simp
        · rw [Function.update_of_ne hj, hheld j]
          simp [Ne.symm hj]
      · by_cases hj : j = i
        · subst hj
          have hmine := (hheld j).mpr rfl
          simp [hmine, Ne.symm ht]
        · rw [Function.update_of_ne hj]
  | other =>
      obtain ⟨r', s'', hact', hs'⟩ := hM.other x t o s ho
      obtain ⟨rfl, rfl⟩ := Prod.mk.inj (Option.some.inj (hact.symm.trans hact'))
      rw [hs']
      exact ⟨⟨held, (Prog.locks_other ho).mp hp r, hheld⟩, fun _ _ _ => Iff.rfl⟩
  | never => exact absurd hp (Prog.not_locks_never ho)

variable [DecidableEq T]

theorem Guards.holding (hM : Guards M L holder) (hidle : ∀ t, c₀.threads t = .idle)
    (hfree : ∀ i, holder c₀.shared i = none) (hc : Reach M P c₀ c) (t : T) :
    Holding L (holder c.shared) t (c.threads t) := by
  induction hc generalizing t with
  | refl =>
      rw [hidle t]
      intro i hi
      rw [hfree i] at hi
      cases hi
  | @move c _ m _ hnext _ ih =>
      have hupdate {t' : T} {th : Thread S ε α Q} {s : σ} (hth : Holding L (holder s) t' th)
          (hothers : ∀ t, t ≠ t' → ∀ i, holder s i = some t ↔ holder c.shared i = some t) :
          Holding L (holder s) t (Function.update c.threads t' th t) := by
        by_cases ht : t = t'
        · subst ht
          rwa [Function.update_self]
        · rw [Function.update_of_ne ht]
          exact (ih t).congr (hothers t ht)
      rcases next_cases hnext with ⟨t', q, rfl, hstart, rfl⟩ |
        ⟨t', x, q, o, k, r, s, rfl, hrunning, hact, rfl⟩ |
        ⟨t', q, p, r, rfl, hrunning, hended, rfl⟩
      · have hnone := ih t'
        rw [hstart] at hnone
        apply hupdate
        · refine ⟨none, hM.program q, fun i => ⟨fun hi => ?_, fun hi => by cases hi⟩⟩
          rw [hM.enter] at hi
          exact absurd hi (hnone i)
        · intro t _ i
          rw [hM.enter]
      · have hth := ih t'
        rw [hrunning] at hth
        obtain ⟨hmine, hothers⟩ := hM.step hth hact
        exact hupdate hmine hothers
      · have hth := ih t'
        rw [hrunning] at hth
        apply hupdate
        · intro i
          rw [hM.leave]
          exact holding_ended hth hended i
        · intro t _ i
          rw [hM.leave]

/-- A thread that can move whatever the outside answers. -/
def Ready (M : Machine S ε α Q T X σ) (c : Pool S ε α Q T σ) (t : T) : Prop :=
  (∀ x, (next M (.step t x) c).isSome) ∨ (next M (.finish t) c).isSome

theorem ready_of_act {t : T} {q : Q} {o : S.Op} {k : S.Ans o → Prog S ε α}
    (hrunning : c.threads t = .running q (.op o k)) (hact : ∀ x, (M.act x t o c.shared).isSome) :
    Ready M c t := by
  refine .inl fun x => ?_
  obtain ⟨r, hr⟩ := Option.isSome_iff_exists.mp (hact x)
  simp [next, hrunning, hr]

/-- A thread waits for none but a thread that does not wait. -/
theorem Guards.ready (hM : Guards M L holder)
    (hc : ∀ t, Holding L (holder c.shared) t (c.threads t)) {t : T} {q : Q} {p : Prog S ε α}
    (hrunning : c.threads t = .running q p) : ∃ t', Ready M c t' := by
  -- a thread that has a lock is not at the end and takes no other
  have hholder {t : T} {q : Q} {p : Prog S ε α} {i : K} (hrunning : c.threads t = .running q p)
      (hp : p.Locks L (some i)) : Ready M c t := by
    cases p with
    | ret a => cases hp
    | fail e => cases hp
    | op o k =>
        apply ready_of_act hrunning
        intro x
        cases ho : L.kind o with
        | acquire j => cases ((Prog.locks_acquire ho).mp hp).1
        | release j =>
            obtain ⟨r, s', hact, -⟩ := hM.release x t o c.shared j ho
            simp [hact]
        | other =>
            obtain ⟨r, s', hact, -⟩ := hM.other x t o c.shared ho
            simp [hact]
        | never => exact absurd hp (Prog.not_locks_never ho)
  have hth := hc t
  rw [hrunning] at hth
  obtain ⟨held, hp, -⟩ := hth
  cases held with
  | some i => exact ⟨t, hholder hrunning hp⟩
  | none =>
      cases p with
      | ret a => exact ⟨t, .inr (by simp [next, hrunning])⟩
      | fail e => exact ⟨t, .inr (by simp [next, hrunning])⟩
      | op o k =>
          cases ho : L.kind o with
          | acquire i =>
              cases hi : holder c.shared i with
              | none => exact ⟨t, ready_of_act hrunning fun x => hM.acquire x t o c.shared i ho hi⟩
              | some t' =>
                  have hth' := hc t'
                  cases hrunning' : c.threads t' with
                  | running q' p' =>
                      rw [hrunning'] at hth'
                      obtain ⟨held', hp', hheld'⟩ := hth'
                      rw [(hheld' i).mp hi] at hp'
                      exact ⟨t', hholder hrunning' hp'⟩
                  | idle =>
                      rw [hrunning'] at hth'
                      exact absurd hi (hth' i)
                  | done q' r' =>
                      rw [hrunning'] at hth'
                      exact absurd hi (hth' i)
          | release i => cases ((Prog.locks_release ho).mp hp).1
          | other =>
              refine ⟨t, ready_of_act hrunning fun x => ?_⟩
              obtain ⟨r, s', hact, -⟩ := hM.other x t o c.shared ho
              simp [hact]
          | never => exact absurd hp (Prog.not_locks_never ho)

/-! ## Coming to rest -/

/-- The pool after a move by which no thread starts. -/
def Progresses (M : Machine S ε α Q T X σ) (c' c : Pool S ε α Q T σ) : Prop :=
  ∃ m, (∀ t q, m ≠ .start t q) ∧ next M m c = some c'

/-- A thread after a move of its own. -/
inductive Below : Thread S ε α Q → Thread S ε α Q → Prop where
  | step (q : Q) (o : S.Op) (k : S.Ans o → Prog S ε α) (r : S.Ans o) :
      Below (.running q (k r)) (.running q (.op o k))
  | finish (q : Q) (p : Prog S ε α) (r : Except ε α) : Below (.done q r) (.running q p)

theorem wellFounded_below : WellFounded (@Below S ε α Q) := by
  have hdone (q : Q) (r : Except ε α) : Acc (Below (S := S)) (.done q r) := ⟨_, nofun⟩
  refine ⟨fun th => ?_⟩
  cases th with
  | idle => exact ⟨_, nofun⟩
  | done q r => exact hdone q r
  | running q p =>
      induction p with
      | ret a =>
          refine ⟨_, ?_⟩
          rintro _ ⟨⟩
          exact hdone q _
      | fail e =>
          refine ⟨_, ?_⟩
          rintro _ ⟨⟩
          exact hdone q _
      | op o k ih =>
          refine ⟨_, ?_⟩
          rintro _ (_ | _)
          · exact ih _
          · exact hdone q _

/-- The threads of `F` are the only ones at work. -/
def Only (F : Finset T) (c : Pool S ε α Q T σ) : Prop :=
  ∀ t q p, c.threads t = .running q p → t ∈ F

theorem only_update {F : Finset T} {t : T} {th : Thread S ε α Q} {s : σ} (hc : Only F c)
    (ht : t ∈ F) : Only F (⟨Function.update c.threads t th, s⟩ : Pool S ε α Q T σ) := by
  intro t' q p hrunning
  by_cases ht' : t' = t
  · rwa [ht']
  · simp only [Function.update_of_ne ht'] at hrunning
    exact hc t' q p hrunning

theorem cutExpand_update {F : Finset T} {t : T} {th : Thread S ε α Q} (ht : t ∈ F)
    (hbelow : Below th (c.threads t)) :
    Relation.CutExpand Below (F.val.map (Function.update c.threads t th))
      (F.val.map c.threads) := by
  have hF : F.val = t ::ₘ (F.erase t).val := by
    rw [Finset.erase_val]
    exact (Multiset.cons_erase (Finset.mem_val.mpr ht)).symm
  have hrest : (F.erase t).val.map (Function.update c.threads t th) =
      (F.erase t).val.map c.threads :=
    Multiset.map_congr rfl fun u hu =>
      Function.update_of_ne (Finset.ne_of_mem_erase (Finset.mem_val.mp hu)) ..
  refine ⟨{th}, c.threads t, fun u hu => ?_, ?_⟩
  · rw [Multiset.mem_singleton.mp hu]
    exact hbelow
  · rw [hF, Multiset.map_cons, Multiset.map_cons, hrest, Function.update_self,
      ← Multiset.singleton_add, ← Multiset.singleton_add, add_right_comm,
      add_comm ({th} : Multiset (Thread S ε α Q)), add_right_comm]

/-- Finitely many threads come to rest, whatever the order of their moves. -/
theorem acc_of_only {F : Finset T} (hc : Only F c) : Acc (Progresses M) c := by
  have hacc : Acc (Relation.CutExpand Below) (F.val.map c.threads) :=
    (wellFounded_below.cutExpand).apply _
  generalize hmeasure : F.val.map c.threads = measure at hacc
  induction hacc generalizing c with
  | intro measure _ ih =>
      subst hmeasure
      refine ⟨_, ?_⟩
      rintro c' ⟨m, hm, hnext⟩
      rcases next_cases hnext with ⟨t, q, rfl, -, -⟩ |
        ⟨t, x, q, o, k, r, s, rfl, hrunning, -, rfl⟩ |
        ⟨t, q, p, r, rfl, hrunning, -, rfl⟩
      · exact absurd rfl (hm t q)
      · have ht := hc t q _ hrunning
        refine ih _ (cutExpand_update ht ?_) (only_update hc ht) rfl
        rw [hrunning]
        exact .step q o k r
      · have ht := hc t q _ hrunning
        refine ih _ (cutExpand_update ht ?_) (only_update hc ht) rfl
        rw [hrunning]
        exact .finish q p r

theorem only_of_reach (hidle : ∀ t, c₀.threads t = .idle) (hc : Reach M P c₀ c) :
    ∃ F : Finset T, Only F c := by
  induction hc with
  | refl =>
      refine ⟨∅, fun t q p hrunning => ?_⟩
      rw [hidle t] at hrunning
      cases hrunning
  | @move c _ m _ hnext _ ih =>
      obtain ⟨F, hF⟩ := ih
      have hinsert (t : T) : Only (insert t F) c := fun t' q p hrunning =>
        Finset.mem_insert_of_mem (hF t' q p hrunning)
      rcases next_cases hnext with ⟨t, q, rfl, -, rfl⟩ | ⟨t, x, q, o, k, r, s, rfl, -, -, rfl⟩ |
        ⟨t, q, p, r, rfl, -, -, rfl⟩
      · exact ⟨_, only_update (hinsert t) (Finset.mem_insert_self t F)⟩
      · exact ⟨_, only_update (hinsert t) (Finset.mem_insert_self t F)⟩
      · exact ⟨_, only_update (hinsert t) (Finset.mem_insert_self t F)⟩

/-- What is known of every reachable pool: its run cannot go on forever, it
is not stuck while a thread runs, and at rest no lock is taken. -/
structure Settles (M : Machine S ε α Q T X σ) (holder : σ → K → Option T) (c : Pool S ε α Q T σ) :
    Prop where
  finite : Acc (Progresses M) c
  unstuck : ∀ t q p, c.threads t = .running q p → ∃ t', Ready M c t'
  freed : (∀ t q p, c.threads t ≠ .running q p) → ∀ i, holder c.shared i = none

theorem Guards.settles (hM : Guards M L holder) (hidle : ∀ t, c₀.threads t = .idle)
    (hfree : ∀ i, holder c₀.shared i = none) (hc : Reach M P c₀ c) : Settles M holder c where
  finite := by
    obtain ⟨F, hF⟩ := only_of_reach hidle hc
    exact acc_of_only hF
  unstuck t q p hrunning := hM.ready (hM.holding hidle hfree hc) hrunning
  freed hrest i := by
    cases hi : holder c.shared i with
    | none => rfl
    | some t =>
        obtain ⟨q, p, hrunning⟩ := running_of_holder (hM.holding hidle hfree hc) hi
        exact absurd hrunning (hrest t q p)

end Pool
