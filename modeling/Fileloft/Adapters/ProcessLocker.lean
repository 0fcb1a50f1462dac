import Fileloft.Core.Error
import Fileloft.Effect.Moves
import Mathlib.Logic.Function.Basic

/-!
# The locker of the cloud backends

A mutex for each id, made when the id is first asked for, in a map that is
behind a mutex of its own. A lock is the guard of the mutex of its id.
-/

namespace Fileloft.ProcessLocker

/-- Where a party is in `acquire`, or in the life of its `ProcessLock`. -/
inductive Pc where
  | idle
  /-- `acquire` awaits the mutex of the map. -/
  | locking (id : Str)
  | entered (id : Str)
  /-- The entry is cloned, and the guard of the map is still there. -/
  | cloned (id : Str) (lock : ℕ)
  /-- `lock_owned` is awaited. -/
  | waiting (id : Str) (lock : ℕ)
  | holding (id : Str) (lock : ℕ)
  deriving DecidableEq, Repr

namespace Pc

/-- The party has the mutex of the map. -/
def inside : Pc → Bool
  | entered _ | cloned _ _ => true
  | _ => false

/-- The mutex that the party has got for an id. -/
def clone : Pc → Option (Str × ℕ)
  | cloned id lock | waiting id lock | holding id lock => some (id, lock)
  | _ => none

/-- The mutex whose guard the party has. -/
def guarded : Pc → Option ℕ
  | holding _ lock => some lock
  | _ => none

/-- The id that the party asks for or has. -/
def wants : Pc → Option Str
  | idle => none
  | locking id | entered id | cloned id _ | waiting id _ | holding id _ => some id

/-- The steps of `acquire` that are left. -/
def left : Pc → ℕ
  | idle => 5
  | locking _ => 4
  | entered _ => 3
  | cloned _ _ => 2
  | waiting _ _ => 1
  | holding _ _ => 0

/-- One step of an `acquire` of the id. -/
inductive Climbs (id : Str) : Pc → Pc → Prop where
  | acquire : Climbs id .idle (.locking id)
  | lock (id' : Str) : Climbs id (.locking id') (.entered id')
  | entry (id' : Str) (lock : ℕ) : Climbs id (.entered id') (.cloned id' lock)
  | leave (id' : Str) (lock : ℕ) : Climbs id (.cloned id' lock) (.waiting id' lock)
  | own (id' : Str) (lock : ℕ) : Climbs id (.waiting id' lock) (.holding id' lock)

variable {id : Str} {pc pc' : Pc}

theorem Climbs.left_lt (hclimbs : pc.Climbs id pc') : pc'.left < pc.left := by
  cases hclimbs <;> exact Nat.lt_succ_self _

/-- In an `acquire` a party asks for its id all the time. -/
theorem Climbs.wants (hclimbs : pc.Climbs id pc') (hpc : pc = .idle ∨ pc.wants = some id) :
    pc'.wants = some id := by
  cases hclimbs with
  | acquire => rfl
  | _ => simpa [Pc.wants] using hpc

end Pc

/-- The map, the mutexes made so far, and the parties. -/
structure LockerState (P : Type) where
  locks : Str → Option ℕ
  made : ℕ
  mutex : Option P
  guard : ℕ → Option P
  pc : P → Pc

/-- The elementary steps. -/
inductive Move where
  | acquire (id : Str)
  | lock
  | entry
  | leave
  | own
  | drop
  /-- The future of `acquire` is dropped at an await. -/
  | cancel
  deriving DecidableEq, Repr

/-- The steps of an `acquire` for the id. -/
def Move.acquires (id : Str) : Move → Bool
  | .acquire id' => id' == id
  | .lock | .entry | .leave | .own => true
  | .drop | .cancel => false

namespace LockerState

variable {P : Type} [DecidableEq P]

def initial : LockerState P := ⟨fun _ => none, 0, none, fun _ => none, fun _ => .idle⟩

variable (s : LockerState P) (p : P)

/-- The party moves on, and the mutex of the map is as given. -/
def goto (mutex : Option P) (pc : Pc) : LockerState P :=
  { s with mutex := mutex, pc := Function.update s.pc p pc }

def setGuard (lock : ℕ) (owner : Option P) : LockerState P :=
  { s with guard := Function.update s.guard lock owner }

/-- A new mutex for the id. -/
def insert (id : Str) : LockerState P :=
  { s with locks := Function.update s.locks id (some s.made), made := s.made + 1 }

/-- `entry(..).or_insert_with(..).clone()`. -/
def entry (id : Str) : LockerState P :=
  match s.locks id with
  | some lock => s.goto p s.mutex (.cloned id lock)
  | none => (s.insert id).goto p s.mutex (.cloned id s.made)

/-- A party that is given a mutex can be cancelled before it runs, and then
the mutex is given back. -/
def cancel : Option (LockerState P) :=
  match s.pc p with
  | .locking _ | .waiting _ _ => some (s.goto p s.mutex .idle)
  | .entered _ => some (s.goto p none .idle)
  | .holding _ lock => some ((s.setGuard lock none).goto p s.mutex .idle)
  | _ => none

def step : Move → Option (LockerState P)
  | .acquire id =>
    match s.pc p with
    | .idle => some (s.goto p s.mutex (.locking id))
    | _ => none
  | .lock =>
    match s.pc p, s.mutex with
    | .locking id, none => some (s.goto p (some p) (.entered id))
    | _, _ => none
  | .entry =>
    match s.pc p with
    | .entered id => some (s.entry p id)
    | _ => none
  | .leave =>
    match s.pc p with
    | .cloned id lock => some (s.goto p none (.waiting id lock))
    | _ => none
  | .own =>
    match s.pc p with
    | .waiting id lock =>
      match s.guard lock with
      | none => some ((s.setGuard lock (some p)).goto p s.mutex (.holding id lock))
      | some _ => none
    | _ => none
  | .drop =>
    match s.pc p with
    | .holding _ lock => some ((s.setGuard lock none).goto p s.mutex .idle)
    | _ => none
  | .cancel => s.cancel p

/-- One step of some party. -/
def Next (s s' : LockerState P) : Prop := ∃ p m, s.step p m = some s'

/-- Who has the lock of an id. -/
def holder (id : Str) : Option P := (s.locks id).bind s.guard

/-- The owner of the map's mutex is inside it, every mutex in the map has one
id, the parties have got the mutexes of their ids, and a guard is with the
party that holds the lock. -/
structure Kept (s : LockerState P) : Prop where
  owner : ∀ p, (s.pc p).inside = true ↔ s.mutex = some p
  below : ∀ id lock, s.locks id = some lock → lock < s.made
  apart : ∀ id id' lock, s.locks id = some lock → s.locks id' = some lock → id = id'
  named : ∀ p id lock, (s.pc p).clone = some (id, lock) → s.locks id = some lock
  guard : ∀ lock p, s.guard lock = some p ↔ (s.pc p).guarded = some lock

/-- How a party that moves to `pc` may leave the mutex of the map. -/
def Hands (mutex : Option P) (pc : Pc) : Prop :=
  mutex = s.mutex ∧ pc.inside = (s.pc p).inside ∨
  s.mutex = none ∧ mutex = some p ∧ pc.inside = true ∨
  mutex = none ∧ (s.pc p).inside = true ∧ pc.inside = false

variable {s p} {s' : LockerState P} {m : Move} {id : Str} {lock : ℕ}

theorem goto_pc {q : P} {mutex : Option P} {pc : Pc} :
    (s.goto p mutex pc).pc q = if q = p then pc else s.pc q := by
  simp [goto, Function.update_apply]

omit [DecidableEq P] in
theorem setGuard_guard {other : ℕ} {owner : Option P} :
    (s.setGuard lock owner).guard other = if other = lock then owner else s.guard other := by
  simp [setGuard, Function.update_apply]

omit [DecidableEq P] in
theorem insert_locks {other : Str} :
    (s.insert id).locks other = if other = id then some s.made else s.locks other := by
  simp [insert, Function.update_apply]

omit [DecidableEq P] in
theorem kept_initial : (initial : LockerState P).Kept where
  owner p := iff_of_false Bool.false_ne_true (Option.some_ne_none p).symm
  below _ _ h := by cases h
  apart _ _ _ h := by cases h
  named _ _ _ h := by cases h
  guard lock p := iff_of_false (Option.some_ne_none p).symm (Option.some_ne_none lock).symm

/-- A move that leaves the guards alone and gets no mutex but that of its id. -/
def Passes (s : LockerState P) (p : P) (s' : LockerState P) : Prop :=
  ∃ mutex pc, s.Hands p mutex pc ∧ (s.pc p).guarded = none ∧ pc.guarded = none ∧
    (∀ id lock, pc.clone = some (id, lock) →
      (s.pc p).clone = some (id, lock) ∨ s.locks id = some lock) ∧ s' = s.goto p mutex pc

theorem passes_stay {pc pc' : Pc} (hp : s.pc p = pc) (hin : pc'.inside = pc.inside)
    (hout : pc.guarded = none) (hout' : pc'.guarded = none) (hclone : pc'.clone = none) :
    s.Passes p (s.goto p s.mutex pc') :=
  ⟨s.mutex, pc', .inl ⟨rfl, hp ▸ hin⟩, hp ▸ hout, hout',
    fun _ _ h => absurd (hclone.symm.trans h) (Option.some_ne_none _).symm, rfl⟩

theorem passes_leave {pc pc' : Pc} (hp : s.pc p = pc) (hin : pc.inside = true)
    (hout : pc'.inside = false) (hguard : pc.guarded = none) (hguard' : pc'.guarded = none)
    (hclone : ∀ id lock, pc'.clone = some (id, lock) → pc.clone = some (id, lock)) :
    s.Passes p (s.goto p none pc') :=
  ⟨_, _, .inr (.inr ⟨rfl, hp ▸ hin, hout⟩), hp ▸ hguard, hguard', fun _ _ h =>
    .inl (hp ▸ hclone _ _ h), rfl⟩

/-- A step passes on, makes a mutex, takes a guard, or gives one back. -/
theorem step_cases (h : s.step p m = some s') :
    s.Passes p s' ∨
    (∃ id, s.pc p = .entered id ∧ s.locks id = none ∧
      s' = (s.insert id).goto p s.mutex (.cloned id s.made)) ∨
    (∃ id lock, s.pc p = .waiting id lock ∧ s.guard lock = none ∧
      s' = (s.setGuard lock (some p)).goto p s.mutex (.holding id lock)) ∨
    ∃ id lock, s.pc p = .holding id lock ∧ s' = (s.setGuard lock none).goto p s.mutex .idle := by
  cases m with
  | acquire id =>
      simp only [step] at h
      split at h
      · next hp =>
          obtain rfl := Option.some.inj h
          exact .inl (passes_stay hp rfl rfl rfl rfl)
      · cases h
  | lock =>
      simp only [step] at h
      split at h
      · next id hp hmutex =>
          obtain rfl := Option.some.inj h
          refine .inl ⟨_, _, .inr (.inl ⟨hmutex, rfl, rfl⟩), by rw [hp]; rfl, rfl, ?_, rfl⟩
          exact fun _ _ h => by cases h
      · cases h
  | entry =>
      simp only [step] at h
      split at h
      · next id hp =>
          obtain rfl := Option.some.inj h
          unfold entry
          split
          · next lock hlock =>
              refine .inl ⟨_, _, .inl ⟨rfl, by rw [hp]; rfl⟩, by rw [hp]; rfl, rfl, ?_, rfl⟩
              rintro _ _ ⟨⟩
              exact .inr hlock
          · next hnone => exact .inr (.inl ⟨id, hp, hnone, rfl⟩)
      · cases h
  | leave =>
      simp only [step] at h
      split at h
      · next hp =>
          obtain rfl := Option.some.inj h
          exact .inl (passes_leave hp rfl rfl rfl rfl fun _ _ h => h)
      · cases h
  | own =>
      simp only [step] at h
      split at h
      · next id lock hp =>
          split at h
          · next hfree => exact .inr (.inr (.inl ⟨id, lock, hp, hfree, (Option.some.inj h).symm⟩))
          · cases h
      · cases h
  | drop =>
      simp only [step] at h
      split at h
      · next id lock hp => exact .inr (.inr (.inr ⟨id, lock, hp, (Option.some.inj h).symm⟩))
      · cases h
  | cancel =>
      simp only [step, cancel] at h
      split at h
      · next hp =>
          obtain rfl := Option.some.inj h
          exact .inl (passes_stay hp rfl rfl rfl rfl)
      · next hp =>
          obtain rfl := Option.some.inj h
          exact .inl (passes_stay hp rfl rfl rfl rfl)
      · next hp =>
          obtain rfl := Option.some.inj h
          exact .inl (passes_leave hp rfl rfl rfl rfl fun _ _ h => by cases h)
      · next id lock hp => exact .inr (.inr (.inr ⟨id, lock, hp, (Option.some.inj h).symm⟩))
      · cases h

/-! ## What the steps keep -/

omit [DecidableEq P] in
theorem Kept.pc_of_guard (hs : s.Kept) (hguard : s.guard lock = some p) :
    ∃ id, s.pc p = .holding id lock := by
  have hp := (hs.guard lock p).mp hguard
  cases hpc : s.pc p with
  | holding id lock' =>
      rw [hpc] at hp
      exact ⟨id, by rw [Option.some.inj hp]⟩
  | _ =>
      rw [hpc] at hp
      cases hp

theorem owner_goto (hs : s.Kept) {mutex : Option P}
    {pc : Pc} (hhands : s.Hands p mutex pc) (q : P) :
    ((s.goto p mutex pc).pc q).inside = true ↔ mutex = some q := by
  have howner := hs.owner
  rw [goto_pc]
  rcases hhands with ⟨rfl, hin⟩ | ⟨hfree, rfl, hin⟩ | ⟨rfl, hin, hout⟩
  · split
    · next heq =>
        subst heq
        rw [hin, howner]
    · exact howner q
  · split
    · next heq => exact iff_of_true hin (congrArg _ heq.symm)
    · next hne =>
        rw [howner, hfree]
        exact iff_of_false (Option.some_ne_none q).symm fun h => hne (Option.some.inj h).symm
  · split
    · exact iff_of_false (by rw [hout]; exact Bool.false_ne_true) (Option.some_ne_none q).symm
    · next hne =>
        rw [howner, (howner p).mp hin]
        exact iff_of_false (fun h => hne (Option.some.inj h).symm) (Option.some_ne_none q).symm

/-- The guards after a party that had none moves without one. -/
theorem guard_goto (hs : s.Kept) {mutex : Option P} {pc : Pc} (hout : (s.pc p).guarded = none)
    (hout' : pc.guarded = none) (lock : ℕ) (q : P) :
    s.guard lock = some q ↔ ((s.goto p mutex pc).pc q).guarded = some lock := by
  rw [goto_pc, hs.guard]
  split
  · next heq => rw [heq, hout, hout']
  · exact Iff.rfl

theorem Kept.pass (hs : s.Kept) (hpasses : s.Passes p s') : s'.Kept := by
  obtain ⟨mutex, pc, hhands, hout, hout', hclone, rfl⟩ := hpasses
  refine ⟨owner_goto hs hhands, hs.below, hs.apart, fun q id lock hq => ?_,
    guard_goto hs hout hout'⟩
  rw [goto_pc] at hq
  split at hq
  · rcases hclone id lock hq with hold | hlocks
    · exact hs.named p id lock hold
    · exact hlocks
  · exact hs.named q id lock hq

theorem Kept.insert (hs : s.Kept) (hp : s.pc p = .entered id) (hnone : s.locks id = none) :
    ((s.insert id).goto p s.mutex (.cloned id s.made)).Kept := by
  have hlocks {id' : Str} {lock : ℕ} (hlock : (s.insert id).locks id' = some lock) :
      id' = id ∧ lock = s.made ∨ id' ≠ id ∧ s.locks id' = some lock := by
    rw [insert_locks] at hlock
    split at hlock
    · next heq => exact .inl ⟨heq, (Option.some.inj hlock).symm⟩
    · next hne => exact .inr ⟨hne, hlock⟩
  have hout : (s.pc p).guarded = none := by rw [hp]; rfl
  refine ⟨owner_goto hs (.inl ⟨rfl, by rw [hp]; rfl⟩), fun id' lock hlock => ?_,
    fun i j lock hi hj => ?_, fun q id' lock hq => ?_,
    @guard_goto _ _ s p hs s.mutex (.cloned id s.made) hout rfl⟩
  · rcases hlocks hlock with ⟨-, rfl⟩ | ⟨-, hold⟩
    · exact Nat.lt_succ_self _
    · exact Nat.lt_succ_of_lt (hs.below id' lock hold)
  · rcases hlocks hi with ⟨rfl, rfl⟩ | ⟨-, hi⟩
    · rcases hlocks hj with ⟨rfl, -⟩ | ⟨-, hj⟩
      · rfl
      · exact absurd (hs.below j _ hj) (Nat.lt_irrefl _)
    · rcases hlocks hj with ⟨-, rfl⟩ | ⟨-, hj⟩
      · exact absurd (hs.below i _ hi) (Nat.lt_irrefl _)
      · exact hs.apart i j lock hi hj
  · change (s.insert id).locks id' = some lock
    rw [goto_pc] at hq
    rw [insert_locks]
    split at hq
    · cases hq
      exact if_pos rfl
    · have hold := hs.named q id' lock hq
      have hne : id' ≠ id := by
        rintro rfl
        cases hnone.symm.trans hold
      exact (if_neg hne).trans hold

theorem Kept.own (hs : s.Kept) (hp : s.pc p = .waiting id lock) (hfree : s.guard lock = none) :
    ((s.setGuard lock (some p)).goto p s.mutex (.holding id lock)).Kept := by
  refine ⟨owner_goto hs (.inl ⟨rfl, by rw [hp]; rfl⟩), hs.below, hs.apart, fun q id' lock' hq => ?_,
    fun lock' q => ?_⟩
  · rw [goto_pc] at hq
    split at hq
    · cases hq
      exact hs.named p id lock (by rw [hp]; rfl)
    · exact hs.named q id' lock' hq
  · change (s.setGuard lock (some p)).guard lock' = some q ↔ _
    rw [goto_pc, setGuard_guard]
    by_cases hlock : lock' = lock
    · subst hlock
      rw [if_pos rfl]
      split
      · next heq => exact iff_of_true (congrArg some heq.symm) rfl
      · next hne =>
          refine iff_of_false (fun h => hne (Option.some.inj h).symm) fun hq => ?_
          cases hfree.symm.trans ((hs.guard lock' q).mpr hq)
    · rw [if_neg hlock, hs.guard]
      split
      · next heq =>
          subst heq
          rw [hp]
          exact iff_of_false (fun h => by cases h) fun h => hlock (Option.some.inj h).symm
      · exact Iff.rfl

theorem Kept.drop (hs : s.Kept) (hp : s.pc p = .holding id lock) :
    ((s.setGuard lock none).goto p s.mutex .idle).Kept := by
  have howned : s.guard lock = some p := (hs.guard lock p).mpr (by rw [hp]; rfl)
  refine ⟨owner_goto hs (.inl ⟨rfl, by rw [hp]; rfl⟩), hs.below, hs.apart, fun q id' lock' hq => ?_,
    fun lock' q => ?_⟩
  · rw [goto_pc] at hq
    split at hq
    · cases hq
    · exact hs.named q id' lock' hq
  · change (s.setGuard lock none).guard lock' = some q ↔ _
    rw [goto_pc, setGuard_guard]
    by_cases hlock : lock' = lock
    · subst hlock
      rw [if_pos rfl]
      refine iff_of_false (fun h => by cases h) ?_
      split
      · exact fun h => by cases h
      · next hne =>
          intro hq
          exact hne (Option.some.inj (((hs.guard lock' q).mpr hq).symm.trans howned))
    · rw [if_neg hlock, hs.guard]
      split
      · next heq =>
          subst heq
          rw [hp]
          exact iff_of_false (fun h => hlock (Option.some.inj h).symm) fun h => by cases h
      · exact Iff.rfl

theorem Kept.step (hs : s.Kept) (hstep : s.step p m = some s') : s'.Kept := by
  rcases step_cases hstep with hpasses | ⟨id, hp, hnone, rfl⟩ | ⟨id, lock, hp, hfree, rfl⟩ |
    ⟨id, lock, hp, rfl⟩
  · exact hs.pass hpasses
  · exact hs.insert hp hnone
  · exact hs.own hp hfree
  · exact hs.drop hp

theorem kept_of_run (hrun : Relation.ReflTransGen Next initial s) : s.Kept := by
  induction hrun with
  | refl => exact kept_initial
  | tail _ hnext ih =>
      obtain ⟨p, m, hstep⟩ := hnext
      exact ih.step hstep

/-! ## Waiting for a lock -/

omit [DecidableEq P] in
theorem Kept.holder_eq_some (hs : s.Kept) :
    s.holder id = some p ↔ ∃ lock, s.pc p = .holding id lock := by
  constructor
  · intro hholder
    obtain ⟨lock, hlock, hguard⟩ := Option.bind_eq_some_iff.mp hholder
    obtain ⟨id', hp⟩ := hs.pc_of_guard hguard
    have hlock' := hs.named p id' lock (by rw [hp]; rfl)
    obtain rfl := hs.apart id id' lock hlock hlock'
    exact ⟨lock, hp⟩
  · rintro ⟨lock, hp⟩
    have hlock := hs.named p id lock (by rw [hp]; rfl)
    have hguard := (hs.guard lock p).mpr (by rw [hp]; rfl)
    exact Option.bind_eq_some_iff.mpr ⟨lock, hlock, hguard⟩

/-- A step does not move another party. -/
theorem pc_step {q : P} (hstep : s.step p m = some s') (hne : q ≠ p) : s'.pc q = s.pc q := by
  rcases step_cases hstep with ⟨mutex, pc, -, -, -, -, rfl⟩ | ⟨id, -, -, rfl⟩ |
    ⟨id, lock, -, -, rfl⟩ |
    ⟨id, lock, -, rfl⟩
  · rw [goto_pc, if_neg hne]
  · rw [goto_pc, if_neg hne]
    rfl
  · rw [goto_pc, if_neg hne]
    rfl
  · rw [goto_pc, if_neg hne]
    rfl

theorem pc_cancel (hcancel : s.step p .cancel = some s') : s'.pc p = .idle := by
  simp only [step, cancel] at hcancel
  split at hcancel
  all_goals
    first
    | obtain rfl := Option.some.inj hcancel
      rw [goto_pc, if_pos rfl]
    | cases hcancel

theorem pc_drop (hdrop : s.step p .drop = some s') : s'.pc p = .idle := by
  simp only [step] at hdrop
  split at hdrop
  · obtain rfl := Option.some.inj hdrop
    rw [goto_pc, if_pos rfl]
  · cases hdrop

theorem climbs_of_step (hstep : s.step p m = some s') (hm : m.acquires id = true) :
    (s.pc p).Climbs id (s'.pc p) := by
  have hself {t : LockerState P} {mutex : Option P} {pc pc' : Pc} (hp : s.pc p = pc)
      (hclimbs : pc.Climbs id pc') : (s.pc p).Climbs id ((t.goto p mutex pc').pc p) := by
    rw [goto_pc, if_pos rfl, hp]
    exact hclimbs
  cases m with
  | acquire id' =>
      obtain rfl := eq_of_beq hm
      simp only [step] at hstep
      split at hstep
      · next hp =>
          obtain rfl := Option.some.inj hstep
          exact hself hp .acquire
      · cases hstep
  | lock =>
      simp only [step] at hstep
      split at hstep
      · next hp _ =>
          obtain rfl := Option.some.inj hstep
          exact hself hp (.lock _)
      · cases hstep
  | entry =>
      simp only [step] at hstep
      split at hstep
      · next hp =>
          obtain rfl := Option.some.inj hstep
          unfold entry
          split
          · exact hself hp (.entry _ _)
          · exact hself hp (.entry _ _)
      · cases hstep
  | leave =>
      simp only [step] at hstep
      split at hstep
      · next hp =>
          obtain rfl := Option.some.inj hstep
          exact hself hp (.leave _ _)
      · cases hstep
  | own =>
      simp only [step] at hstep
      split at hstep
      · next hp =>
          split at hstep
          · obtain rfl := Option.some.inj hstep
            exact hself hp (.own _ _)
          · cases hstep
      · cases hstep
  | drop => cases hm
  | cancel => cases hm

/-- Whoever is in the map can go on. -/
theorem Kept.inside_goes_on (hs : s.Kept) {q : P} (hmutex : s.mutex = some q) :
    ∃ m, (∀ id, m.acquires id = true) ∧ (s.step q m).isSome := by
  have hinside := (hs.owner q).mpr hmutex
  cases hq : s.pc q with
  | entered id => exact ⟨.entry, fun _ => rfl, by simp [LockerState.step, hq]⟩
  | cloned id lock => exact ⟨.leave, fun _ => rfl, by simp [LockerState.step, hq]⟩
  | _ =>
      rw [hq] at hinside
      cases hinside

/-- A party that is still without a lock that nobody has can go on, or the
party in the map can. -/
theorem Kept.goes_on (hs : s.Kept) (hp : s.pc p = .idle ∨ (s.pc p).wants = some id)
    (hfree : s.holder id = none) :
    ∃ q m, (q = p ∧ m.acquires id = true ∨ s.mutex = some q ∧ ∀ id, m.acquires id = true) ∧
      (s.step q m).isSome := by
  have hmine {m : Move} (hm : m.acquires id = true) (hstep : (s.step p m).isSome) :
      ∃ q m, (q = p ∧ m.acquires id = true ∨ s.mutex = some q ∧ ∀ id, m.acquires id = true) ∧
        (s.step q m).isSome := ⟨p, m, .inl ⟨rfl, hm⟩, hstep⟩
  cases hpc : s.pc p with
  | idle => exact hmine (m := .acquire id) (beq_self_eq_true id) (by simp [LockerState.step, hpc])
  | locking id' =>
      rcases Option.eq_none_or_eq_some s.mutex with hmutex | ⟨q, hmutex⟩
      · exact hmine (m := .lock) rfl (by simp [LockerState.step, hpc, hmutex])
      · obtain ⟨m, hm, hstep⟩ := hs.inside_goes_on hmutex
        exact ⟨q, m, .inr ⟨hmutex, hm⟩, hstep⟩
  | entered id' => exact hmine (m := .entry) rfl (by simp [LockerState.step, hpc])
  | cloned id' lock => exact hmine (m := .leave) rfl (by simp [LockerState.step, hpc])
  | waiting id' lock =>
      obtain rfl : id' = id := by simpa [hpc, Pc.wants] using hp
      have hlock := hs.named p id' lock (by rw [hpc]; rfl)
      rw [holder, hlock] at hfree
      have hguard : s.guard lock = none := hfree
      exact hmine (m := .own) rfl (by simp [LockerState.step, hpc, hguard])
  | holding id' lock =>
      obtain rfl : id' = id := by simpa [hpc, Pc.wants] using hp
      cases hfree.symm.trans (hs.holder_eq_some.mpr ⟨lock, hpc⟩)

end LockerState

end Fileloft.ProcessLocker
