import Fileloft.Core.Error
import Fileloft.Effect.Moves
import Mathlib.Logic.Function.Basic

/-!
# The held set of the in-memory locker

Parties that acquire, release and drop locks. The ids of the locks stand in
one set behind a mutex, and a dropped lock only tries to take the mutex.
-/

namespace Fileloft.MemoryLocker

/-- Where a party is in `acquire`, in the life of its `MemoryLock`, or in
`release` and `drop`. -/
inductive Pc where
  | idle
  /-- `acquire` awaits the mutex. -/
  | locking (id : Str)
  | entered (id : Str)
  /-- The id is inserted and the `MemoryLock` is made. -/
  | acquired (id : Str)
  | refused (id : Str)
  /-- Outside the mutex, before the deadline is tested or while asleep. -/
  | waiting (id : Str)
  | holding (id : Str)
  /-- `release` awaits the mutex. -/
  | releasing (id : Str)
  | removing (id : Str)
  /-- In `drop`, before `try_lock`. -/
  | dropping (id : Str)
  | dropRemoving (id : Str)
  /-- The id is removed. -/
  | leaving
  deriving DecidableEq, Repr

namespace Pc

/-- The party has the mutex. -/
def inside : Pc → Bool
  | entered _ | acquired _ | refused _ | removing _ | dropRemoving _ | leaving => true
  | _ => false

/-- The id of the party's live `MemoryLock`. -/
def lock : Pc → Option Str
  | acquired id | holding id | releasing id | removing id | dropping id | dropRemoving id => some id
  | _ => none

end Pc

/-- The held set, the mutex around it and the parties. -/
structure LockerState (P : Type) where
  held : Str → Bool
  mutex : Option P
  pc : P → Pc

/-- The elementary steps. -/
inductive Move where
  | acquire (id : Str)
  | lock
  | insert
  | leave
  | timeOut
  | retry
  | release
  | drop
  | tryLock
  | remove
  /-- The future of `acquire` or `release` is dropped at an await. -/
  | cancel
  deriving DecidableEq, Repr

namespace LockerState

variable {P : Type} [DecidableEq P]

def initial : LockerState P := ⟨fun _ => false, none, fun _ => .idle⟩

variable (s : LockerState P) (p : P)

/-- The party moves on, and the mutex is as given. -/
def goto (mutex : Option P) (pc : Pc) : LockerState P :=
  { s with mutex := mutex, pc := Function.update s.pc p pc }

def setHeld (id : Str) (b : Bool) : LockerState P :=
  { s with held := Function.update s.held id b }

/-- `held.lock().await`, once the mutex is free. -/
def enter (pc : Pc) : Option (LockerState P) :=
  match s.mutex with
  | none => some (s.goto p (some p) pc)
  | some _ => none

/-- `HashSet::insert`. -/
def insert (id : Str) : LockerState P :=
  if s.held id then s.goto p s.mutex (.refused id)
  else (s.setHeld id true).goto p s.mutex (.acquired id)

/-- `try_lock` in `drop`. When it fails the lock is gone and its id stays. -/
def tryLock (id : Str) : LockerState P :=
  match s.mutex with
  | none => s.goto p (some p) (.dropRemoving id)
  | some _ => s.goto p s.mutex .idle

/-- A waiting party that is given the mutex can be cancelled before it runs,
and then the mutex is given back. -/
def cancel : Option (LockerState P) :=
  match s.pc p with
  | .locking _ => some (s.goto p s.mutex .idle)
  | .entered _ => some (s.goto p none .idle)
  | .waiting _ => some (s.goto p s.mutex .idle)
  | .releasing id => some (s.goto p s.mutex (.dropping id))
  | .removing id => some (s.goto p none (.dropping id))
  | _ => none

def step : Move → Option (LockerState P)
  | .acquire id =>
    match s.pc p with
    | .idle => some (s.goto p s.mutex (.locking id))
    | _ => none
  | .lock =>
    match s.pc p with
    | .locking id => s.enter p (.entered id)
    | .releasing id => s.enter p (.removing id)
    | _ => none
  | .insert =>
    match s.pc p with
    | .entered id => some (s.insert p id)
    | _ => none
  | .leave =>
    match s.pc p with
    | .acquired id => some (s.goto p none (.holding id))
    | .refused id => some (s.goto p none (.waiting id))
    | .leaving => some (s.goto p none .idle)
    | _ => none
  | .timeOut =>
    match s.pc p with
    | .waiting _ => some (s.goto p s.mutex .idle)
    | _ => none
  | .retry =>
    match s.pc p with
    | .waiting id => some (s.goto p s.mutex (.locking id))
    | _ => none
  | .release =>
    match s.pc p with
    | .holding id => some (s.goto p s.mutex (.releasing id))
    | _ => none
  | .drop =>
    match s.pc p with
    | .holding id => some (s.goto p s.mutex (.dropping id))
    | _ => none
  | .tryLock =>
    match s.pc p with
    | .dropping id => some (s.tryLock p id)
    | _ => none
  | .remove =>
    match s.pc p with
    | .removing id => some ((s.setHeld id false).goto p s.mutex .leaving)
    | .dropRemoving id => some ((s.setHeld id false).goto p s.mutex .leaving)
    | _ => none
  | .cancel => s.cancel p

/-- A lock is not dropped while a party has the mutex. -/
def Careful : Move → Bool
  | .tryLock => s.mutex.isNone
  | _ => true

/-- One step of some party. -/
def Next (s s' : LockerState P) : Prop := ∃ p m, s.step p m = some s'

/-- One careful step of some party. -/
def CarefulNext (s s' : LockerState P) : Prop :=
  ∃ p m, s.Careful m = true ∧ s.step p m = some s'

/-- No two parties have a live lock for one id. -/
def Exclusive (s : LockerState P) : Prop :=
  ∀ p q id, (s.pc p).lock = some id → (s.pc q).lock = some id → p = q

/-- While no party has the mutex, the held ids are those of exactly one live
lock. -/
def Accounted (s : LockerState P) : Prop :=
  s.mutex = none → ∀ id, s.held id = true ↔ ∃! p, (s.pc p).lock = some id

/-- The owner of the mutex is inside it, and every live lock has its id in
the held set alone. -/
structure Kept (s : LockerState P) : Prop where
  owner : ∀ p, (s.pc p).inside = true ↔ s.mutex = some p
  held : ∀ p id, (s.pc p).lock = some id → s.held id = true
  exclusive : s.Exclusive

/-- Every held id is the id of a live lock. -/
def Freed (s : LockerState P) : Prop := ∀ id, s.held id = true → ∃ p, (s.pc p).lock = some id

/-- How a party that moves to `pc` may leave the mutex. -/
def Hands (mutex : Option P) (pc : Pc) : Prop :=
  mutex = s.mutex ∧ pc.inside = (s.pc p).inside ∨
  s.mutex = none ∧ mutex = some p ∧ pc.inside = true ∨
  mutex = none ∧ (s.pc p).inside = true ∧ pc.inside = false

variable {s p}

theorem goto_pc {q : P} {mutex : Option P} {pc : Pc} :
    (s.goto p mutex pc).pc q = if q = p then pc else s.pc q := by
  simp [goto, Function.update_apply]

omit [DecidableEq P] in
theorem setHeld_held {id other : Str} {b : Bool} :
    (s.setHeld id b).held other = if other = id then b else s.held other := by
  simp [setHeld, Function.update_apply]

omit [DecidableEq P] in
theorem kept_initial : (initial : LockerState P).Kept := by
  refine ⟨fun p => ?_, fun p id h => ?_, fun p q id h => ?_⟩
  · exact iff_of_false Bool.false_ne_true (Option.some_ne_none p).symm
  · cases h
  · cases h

omit [DecidableEq P] in
theorem freed_initial : (initial : LockerState P).Freed := by
  intro id h
  cases h

omit [DecidableEq P] in
theorem Kept.accounted (hs : s.Kept) (hfreed : s.Freed) : s.Accounted := by
  intro _ id
  constructor
  · intro hheld
    obtain ⟨p, hp⟩ := hfreed id hheld
    exact ⟨p, hp, fun q hq => hs.exclusive q p id hq hp⟩
  · rintro ⟨p, hp, -⟩
    exact hs.held p id hp

theorem enter_eq_some {pc : Pc} {s' : LockerState P} (h : s.enter p pc = some s') :
    s.mutex = none ∧ s' = s.goto p (some p) pc := by
  unfold enter at h
  split at h
  · next hfree => exact ⟨hfree, (Option.some.inj h).symm⟩
  · cases h

/-- A move that keeps the lock of the party and hands the mutex on. -/
def Passes (s : LockerState P) (p : P) (s' : LockerState P) : Prop :=
  ∃ mutex pc, s.Hands p mutex pc ∧ pc.lock = (s.pc p).lock ∧ s' = s.goto p mutex pc

theorem passes_stay {pc pc' : Pc} (hp : s.pc p = pc) (hin : pc'.inside = pc.inside)
    (hlock : pc'.lock = pc.lock) : s.Passes p (s.goto p s.mutex pc') :=
  ⟨_, _, .inl ⟨rfl, hp ▸ hin⟩, hp ▸ hlock, rfl⟩

theorem passes_enter {pc pc' : Pc} {s' : LockerState P} (h : s.enter p pc' = some s')
    (hp : s.pc p = pc) (hin : pc'.inside = true) (hlock : pc'.lock = pc.lock) : s.Passes p s' := by
  obtain ⟨hfree, rfl⟩ := enter_eq_some h
  exact ⟨_, _, .inr (.inl ⟨hfree, rfl, hin⟩), hp ▸ hlock, rfl⟩

theorem passes_leave {pc pc' : Pc} (hp : s.pc p = pc) (hin : pc.inside = true)
    (hout : pc'.inside = false) (hlock : pc'.lock = pc.lock) : s.Passes p (s.goto p none pc') :=
  ⟨_, _, .inr (.inr ⟨rfl, hp ▸ hin, hout⟩), hp ▸ hlock, rfl⟩

/-- A step passes on with its lock as it is, makes a lock, takes a lock out
of the held set, or drops a lock whose id stays there. -/
theorem step_cases {m : Move} {s' : LockerState P} (h : s.step p m = some s') :
    s.Passes p s' ∨
    (∃ id, s.pc p = .entered id ∧ s.held id = false ∧
      s' = (s.setHeld id true).goto p s.mutex (.acquired id)) ∨
    (∃ id, (s.pc p = .removing id ∨ s.pc p = .dropRemoving id) ∧
      s' = (s.setHeld id false).goto p s.mutex .leaving) ∨
    (m = .tryLock ∧ (s.pc p).inside = false ∧ s.mutex ≠ none ∧ s' = s.goto p s.mutex .idle) := by
  cases m with
  | acquire id =>
      simp only [step] at h
      split at h
      · next hp =>
          obtain rfl := Option.some.inj h
          exact .inl (passes_stay hp rfl rfl)
      · cases h
  | lock =>
      simp only [step] at h
      split at h
      · next hp => exact .inl (passes_enter h hp rfl rfl)
      · next hp => exact .inl (passes_enter h hp rfl rfl)
      · cases h
  | insert =>
      simp only [step] at h
      split at h
      · next id hp =>
          obtain rfl := Option.some.inj h
          unfold insert
          split
          · exact .inl (passes_stay hp rfl rfl)
          · next hheld => exact .inr (.inl ⟨id, hp, eq_false_of_ne_true hheld, rfl⟩)
      · cases h
  | leave =>
      simp only [step] at h
      split at h
      · next hp =>
          obtain rfl := Option.some.inj h
          exact .inl (passes_leave hp rfl rfl rfl)
      · next hp =>
          obtain rfl := Option.some.inj h
          exact .inl (passes_leave hp rfl rfl rfl)
      · next hp =>
          obtain rfl := Option.some.inj h
          exact .inl (passes_leave hp rfl rfl rfl)
      · cases h
  | timeOut =>
      simp only [step] at h
      split at h
      · next hp =>
          obtain rfl := Option.some.inj h
          exact .inl (passes_stay hp rfl rfl)
      · cases h
  | retry =>
      simp only [step] at h
      split at h
      · next hp =>
          obtain rfl := Option.some.inj h
          exact .inl (passes_stay hp rfl rfl)
      · cases h
  | release =>
      simp only [step] at h
      split at h
      · next hp =>
          obtain rfl := Option.some.inj h
          exact .inl (passes_stay hp rfl rfl)
      · cases h
  | drop =>
      simp only [step] at h
      split at h
      · next hp =>
          obtain rfl := Option.some.inj h
          exact .inl (passes_stay hp rfl rfl)
      · cases h
  | tryLock =>
      simp only [step] at h
      split at h
      · next id hp =>
          obtain rfl := Option.some.inj h
          unfold tryLock
          split
          · next hfree => exact .inl ⟨_, _, .inr (.inl ⟨hfree, rfl, rfl⟩), by rw [hp]; rfl, rfl⟩
          · next hmutex => exact .inr (.inr (.inr ⟨rfl, by rw [hp]; rfl, by simp [hmutex], rfl⟩))
      · cases h
  | remove =>
      simp only [step] at h
      split at h
      · next id hp => exact .inr (.inr (.inl ⟨id, .inl hp, (Option.some.inj h).symm⟩))
      · next id hp => exact .inr (.inr (.inl ⟨id, .inr hp, (Option.some.inj h).symm⟩))
      · cases h
  | cancel =>
      simp only [step, cancel] at h
      split at h
      · next hp =>
          obtain rfl := Option.some.inj h
          exact .inl (passes_stay hp rfl rfl)
      · next hp =>
          obtain rfl := Option.some.inj h
          exact .inl (passes_leave hp rfl rfl rfl)
      · next hp =>
          obtain rfl := Option.some.inj h
          exact .inl (passes_stay hp rfl rfl)
      · next hp =>
          obtain rfl := Option.some.inj h
          exact .inl (passes_stay hp rfl rfl)
      · next hp =>
          obtain rfl := Option.some.inj h
          exact .inl (passes_leave hp rfl rfl rfl)
      · cases h

/-- A party that does not gain a lock, and hands the mutex on properly. -/
theorem Kept.goto (hs : s.Kept) {mutex : Option P} {pc : Pc} (hhands : s.Hands p mutex pc)
    (hlock : ∀ id, pc.lock = some id → (s.pc p).lock = some id) : (s.goto p mutex pc).Kept := by
  have hold {q : P} {id : Str} (hq : ((s.goto p mutex pc).pc q).lock = some id) :
      (s.pc q).lock = some id := by
    rw [goto_pc] at hq
    split at hq
    · next heq => exact heq ▸ hlock id hq
    · exact hq
  refine ⟨fun q => ?_, fun q id hq => hs.held q id (hold hq),
    fun q r id hq hr => hs.exclusive q r id (hold hq) (hold hr)⟩
  have howner := hs.owner
  rw [goto_pc]
  change _ ↔ mutex = some q
  rcases hhands with ⟨rfl, hin⟩ | ⟨hfree, rfl, hin⟩ | ⟨rfl, hin, hout⟩
  · split
    · next heq =>
        subst heq
        rw [hin, howner]
    · exact howner q
  · split
    · next heq => exact iff_of_true hin (congrArg _ heq.symm)
    · next hne =>
        rw [howner, hfree]
        exact iff_of_false (Option.some_ne_none q).symm fun h => hne (Option.some.inj h).symm
  · split
    · exact iff_of_false (by rw [hout]; exact Bool.false_ne_true) (Option.some_ne_none q).symm
    · next hne =>
        rw [howner, (howner p).mp hin]
        exact iff_of_false (fun h => hne (Option.some.inj h).symm) (Option.some_ne_none q).symm

theorem Freed.goto (hs : s.Freed) {mutex : Option P} {pc : Pc}
    (hlock : pc.lock = (s.pc p).lock) : (s.goto p mutex pc).Freed := by
  intro id hheld
  obtain ⟨q, hq⟩ := hs id hheld
  refine ⟨q, ?_⟩
  rw [goto_pc]
  split
  · next heq =>
      subst heq
      rw [hlock, hq]
  · exact hq

theorem Kept.insert (hs : s.Kept) {id : Str} (hp : s.pc p = .entered id)
    (hheld : s.held id = false) :
    ((s.setHeld id true).goto p s.mutex (.acquired id)).Kept := by
  have hold {q : P} {other : Str}
      (hq : (((s.setHeld id true).goto p s.mutex (.acquired id)).pc q).lock = some other) :
      q = p ∧ other = id ∨ q ≠ p ∧ other ≠ id ∧ (s.pc q).lock = some other := by
    rw [goto_pc] at hq
    split at hq
    · next heq => exact .inl ⟨heq, (Option.some.inj hq).symm⟩
    · next hne =>
        refine .inr ⟨hne, ?_, hq⟩
        rintro rfl
        cases hheld.symm.trans (hs.held q other hq)
  refine ⟨fun q => ?_, fun q other hq => ?_, fun q r other hq hr => ?_⟩
  · rw [goto_pc]
    split
    · next heq =>
        subst heq
        refine iff_of_true rfl ((hs.owner q).mp ?_)
        rw [hp]
        rfl
    · exact hs.owner q
  · change (s.setHeld id true).held other = true
    rw [setHeld_held]
    rcases hold hq with ⟨-, rfl⟩ | ⟨-, -, hq⟩
    · rw [if_pos rfl]
    · split
      · rfl
      · exact hs.held q other hq
  · rcases hold hq with ⟨rfl, rfl⟩ | ⟨-, hne, hq⟩
    · rcases hold hr with ⟨rfl, -⟩ | ⟨-, hne, -⟩
      · rfl
      · exact absurd rfl hne
    · rcases hold hr with ⟨-, rfl⟩ | ⟨-, -, hr⟩
      · exact absurd rfl hne
      · exact hs.exclusive q r other hq hr

theorem Freed.insert (hs : s.Freed) {id : Str} (hp : s.pc p = .entered id) :
    ((s.setHeld id true).goto p s.mutex (.acquired id)).Freed := by
  intro other hheld
  change (s.setHeld id true).held other = true at hheld
  rw [setHeld_held] at hheld
  split at hheld
  · next heq =>
      refine ⟨p, ?_⟩
      rw [goto_pc, if_pos rfl, heq]
      rfl
  · obtain ⟨q, hq⟩ := hs other hheld
    refine ⟨q, ?_⟩
    rw [goto_pc, if_neg]
    · exact hq
    · rintro rfl
      rw [hp] at hq
      cases hq

theorem Kept.remove (hs : s.Kept) {id : Str} (hin : (s.pc p).inside = true)
    (hlock : (s.pc p).lock = some id) :
    ((s.setHeld id false).goto p s.mutex .leaving).Kept := by
  have hold {q : P} {other : Str}
      (hq : (((s.setHeld id false).goto p s.mutex .leaving).pc q).lock = some other) :
      q ≠ p ∧ (s.pc q).lock = some other := by
    rw [goto_pc] at hq
    split at hq
    · cases hq
    · next hne => exact ⟨hne, hq⟩
  refine ⟨fun q => ?_, fun q other hq => ?_, fun q r other hq hr => ?_⟩
  · rw [goto_pc]
    split
    · next heq => exact iff_of_true rfl (heq ▸ (hs.owner p).mp hin)
    · exact hs.owner q
  · obtain ⟨hne, hqlock⟩ := hold hq
    change (s.setHeld id false).held other = true
    rw [setHeld_held, if_neg]
    · exact hs.held q other hqlock
    · rintro rfl
      exact hne (hs.exclusive q p other hqlock hlock)
  · exact hs.exclusive q r other (hold hq).2 (hold hr).2

theorem Freed.remove (hs : s.Freed) {id : Str} (hlock : (s.pc p).lock = some id) :
    ((s.setHeld id false).goto p s.mutex .leaving).Freed := by
  intro other hheld
  change (s.setHeld id false).held other = true at hheld
  rw [setHeld_held] at hheld
  split at hheld
  · cases hheld
  · next hne =>
      obtain ⟨q, hq⟩ := hs other hheld
      refine ⟨q, ?_⟩
      rw [goto_pc, if_neg]
      · exact hq
      · rintro rfl
        exact hne (Option.some.inj (hq.symm.trans hlock))

theorem Kept.step (hs : s.Kept) {m : Move} {s' : LockerState P} (hstep : s.step p m = some s') :
    s'.Kept := by
  rcases step_cases hstep with ⟨mutex, pc, hhands, hlock, rfl⟩ | ⟨id, hp, hheld, rfl⟩ |
    ⟨id, hp | hp, rfl⟩ | ⟨-, hout, -, rfl⟩
  · exact hs.goto hhands fun id hid => hlock ▸ hid
  · exact hs.insert hp hheld
  · exact hs.remove (by rw [hp]; rfl) (by rw [hp]; rfl)
  · exact hs.remove (by rw [hp]; rfl) (by rw [hp]; rfl)
  · exact hs.goto (.inl ⟨rfl, hout.symm⟩) fun id hid => (by cases hid)

/-- Only a drop that finds the mutex taken leaves an id behind. -/
theorem Freed.step (hs : s.Freed) {m : Move} {s' : LockerState P} (hcareful : s.Careful m = true)
    (hstep : s.step p m = some s') : s'.Freed := by
  rcases step_cases hstep with ⟨mutex, pc, -, hlock, rfl⟩ | ⟨id, hp, -, rfl⟩ |
    ⟨id, hp | hp, rfl⟩ | ⟨rfl, -, hmutex, -⟩
  · exact hs.goto hlock
  · exact hs.insert hp
  · exact hs.remove (by rw [hp]; rfl)
  · exact hs.remove (by rw [hp]; rfl)
  · exact absurd (Option.isNone_iff_eq_none.mp hcareful) hmutex

theorem kept_of_run {s : LockerState P} (hrun : Relation.ReflTransGen Next initial s) :
    s.Kept := by
  induction hrun with
  | refl => exact kept_initial
  | tail _ hnext ih =>
      obtain ⟨p, m, hstep⟩ := hnext
      exact ih.step hstep

/-- Two live locks never share an id, and in a run in which no lock is
dropped while a party has the mutex, the held ids are those of the live
locks. -/
theorem accounted_of_careful :
    (∀ s : LockerState P, Relation.ReflTransGen Next initial s → s.Exclusive) ∧
    ∀ s : LockerState P, Relation.ReflTransGen CarefulNext initial s → s.Accounted := by
  refine ⟨fun s hrun => (kept_of_run hrun).exclusive, fun s hrun => ?_⟩
  suffices hboth : s.Kept ∧ s.Freed from hboth.1.accounted hboth.2
  induction hrun with
  | refl => exact ⟨kept_initial, freed_initial⟩
  | tail _ hnext ih =>
      obtain ⟨p, m, hcareful, hstep⟩ := hnext
      exact ⟨ih.1.step hstep, ih.2.step hcareful hstep⟩

namespace TwoParties

def first : Str := "first".toList

def second : Str := "second".toList

/-- One party after the other, and one drop. -/
def handover : List (Fin 2 × Move) :=
  [(0, .acquire first), (0, .lock), (0, .insert), (0, .leave), (0, .drop), (0, .tryLock),
    (0, .remove), (0, .leave), (1, .acquire second), (1, .lock), (1, .insert), (1, .leave)]

/-- The first party drops its lock while the second one has the mutex. -/
def collision : List (Fin 2 × Move) :=
  [(0, .acquire first), (0, .lock), (0, .insert), (0, .leave), (1, .acquire second), (1, .lock),
    (0, .drop), (0, .tryLock), (1, .insert), (1, .leave)]

def move (s : LockerState (Fin 2)) (m : Fin 2 × Move) : Option (LockerState (Fin 2)) :=
  s.step m.1 m.2

def carefulMove (s : LockerState (Fin 2)) (m : Fin 2 × Move) : Option (LockerState (Fin 2)) :=
  if s.Careful m.2 then s.step m.1 m.2 else none

theorem carefulNext_of_move (s : LockerState (Fin 2)) (m : Fin 2 × Move) (s' : LockerState (Fin 2))
    (h : carefulMove s m = some s') : CarefulNext s s' := by
  rw [carefulMove] at h
  split at h
  · next hcareful => exact ⟨m.1, m.2, hcareful, h⟩
  · cases h

end TwoParties

open TwoParties in
theorem accounted_of_careful_handover : ∃ s, afterMoves carefulMove handover initial = some s ∧
    s.pc 1 = .holding second ∧ s.Exclusive ∧ s.Accounted := by
  refine ⟨_, rfl, rfl, ?_⟩
  have hrun := reflTransGen_of_afterMoves carefulNext_of_move
    (show afterMoves carefulMove handover initial = some _ from rfl)
  obtain ⟨hexclusive, haccounted⟩ := @accounted_of_careful (Fin 2) _
  exact ⟨hexclusive _ (hrun.lift id fun _ _ ⟨p, m, _, hstep⟩ => ⟨p, m, hstep⟩), haccounted _ hrun⟩

open TwoParties in
/-- No party has the mutex, and the id of the dropped lock is still held. -/
theorem drop_leaves_id : ∃ s : LockerState (Fin 2), Relation.ReflTransGen Next initial s ∧
    s.mutex = none ∧ s.held first = true ∧ ¬ s.Accounted := by
  refine ⟨_, reflTransGen_of_afterMoves (fun _ m _ h => ⟨m.1, m.2, h⟩)
    (show afterMoves move collision initial = some _ from rfl), rfl, rfl, fun hall => ?_⟩
  obtain ⟨p, hp, -⟩ := (hall rfl first).mp rfl
  revert hp
  revert p
  decide

end LockerState

end Fileloft.MemoryLocker
