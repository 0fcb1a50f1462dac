import Mathlib.Logic.Function.Basic
import Mathlib.Logic.Relation
import Mathlib.Data.Nat.Notation

/-!
# Lock files

Parties that acquire and release the lock of one upload through a lock file.
An exclusive lock belongs to a file, while the lock is named by a path, and
release unlocks the file before it unlinks the path.
-/

namespace Fileloft.FileLocker

/-- A file, as opposed to a path that names it. -/
abbrev Inode := ℕ

/-- Where a party is in `acquire`, in the life of its `FileLock`, or in
`release` and `drop`. -/
inductive Pc where
  | idle
  | opened (file : Inode)
  /-- The file was dropped after `try_lock_exclusive`, before the deadline is
  tested. -/
  | waiting
  /-- A live `FileLock`. -/
  | holding (file : Inode)
  /-- After `unlock`, before `remove_file`. -/
  | unlocked
  deriving DecidableEq, Repr

/-- The lock path, the exclusive locks and the parties. -/
structure LockState (P : Type) where
  path : Option Inode
  owner : Inode → Option P
  /-- The next file to be created. -/
  next : Inode
  pc : P → Pc

/-- The elementary steps, with the error exits of the calls. -/
inductive Move where
  | openFile
  | openError
  | tryLock
  | tryLockError
  | timeOut
  | unlock
  /-- The file is closed all the same. Only `drop` goes on to unlink. -/
  | unlockError (dropping : Bool)
  | removeFile
  deriving DecidableEq, Repr

namespace LockState

variable {P : Type} [DecidableEq P]

/-- No lock file, and every party outside `acquire`. -/
def initial : LockState P := ⟨none, fun _ => none, 0, fun _ => .idle⟩

variable (s : LockState P) (p : P)

def goto (pc : Pc) : LockState P := { s with pc := Function.update s.pc p pc }

def setOwner (f : Inode) (o : Option P) : LockState P :=
  { s with owner := Function.update s.owner f o }

/-- `OpenOptions::open` with `create`: the file the path names, or a new one. -/
def openFile : LockState P :=
  match s.path with
  | some f => s.goto p (.opened f)
  | none => { s with path := some s.next, next := s.next + 1 }.goto p (.opened s.next)

/-- `try_lock_exclusive`. A party that does not get the lock drops its file. -/
def tryLock (f : Inode) : LockState P :=
  match s.owner f with
  | none => (s.setOwner f (some p)).goto p (.holding f)
  | some _ => s.goto p .waiting

def step : Move → Option (LockState P)
  | .openFile =>
    match s.pc p with
    | .idle => some (s.openFile p)
    | .waiting => some (s.openFile p)
    | _ => none
  | .openError =>
    match s.pc p with
    | .idle => some s
    | .waiting => some (s.goto p .idle)
    | _ => none
  | .tryLock =>
    match s.pc p with
    | .opened f => some (s.tryLock p f)
    | _ => none
  | .tryLockError =>
    match s.pc p with
    | .opened _ => some (s.goto p .waiting)
    | _ => none
  | .timeOut =>
    match s.pc p with
    | .waiting => some (s.goto p .idle)
    | _ => none
  | .unlock =>
    match s.pc p with
    | .holding f => some ((s.setOwner f none).goto p .unlocked)
    | _ => none
  | .unlockError dropping =>
    match s.pc p with
    | .holding f => some ((s.setOwner f none).goto p (if dropping then .unlocked else .idle))
    | _ => none
  | .removeFile =>
    match s.pc p with
    | .unlocked => some ({ s with path := none }.goto p .idle)
    | _ => none

/-- The step neither locks a file that the path no longer names nor unlinks
a file that is locked. -/
def Careful : Move → Prop
  | .tryLock => ∀ f, s.pc p = .opened f → s.owner f = none → s.path = some f
  | .removeFile => ∀ q f, s.pc q = .holding f → s.path ≠ some f
  | _ => True

/-- One step of some party. -/
def Next (s s' : LockState P) : Prop := ∃ p m, s.step p m = some s'

/-- One careful step of some party. -/
def CarefulNext (s s' : LockState P) : Prop := ∃ p m, s.Careful p m ∧ s.step p m = some s'

/-- A live lock is the lock of the file that the path names. -/
structure Named (s : LockState P) : Prop where
  owned : ∀ p f, s.pc p = .holding f → s.owner f = some p
  named : ∀ p f, s.pc p = .holding f → s.path = some f

/-- No two parties have a live lock. -/
def Exclusive (s : LockState P) : Prop :=
  ∀ p q f g, s.pc p = .holding f → s.pc q = .holding g → p = q

variable {s p}

omit [DecidableEq P] in
theorem Named.exclusive (hs : s.Named) : s.Exclusive := by
  intro p q f g hp hq
  have hfile : f = g := Option.some.inj ((hs.named p f hp).symm.trans (hs.named q g hq))
  subst hfile
  exact Option.some.inj ((hs.owned p f hp).symm.trans (hs.owned q f hq))

omit [DecidableEq P] in
theorem named_initial : (initial : LockState P).Named where
  owned _ _ hp := by cases hp
  named _ _ hp := by cases hp

theorem goto_pc {q : P} {pc : Pc} : (s.goto p pc).pc q = if q = p then pc else s.pc q := by
  simp [goto, Function.update_apply]

/-- A party that moves without a live lock leaves the locks alone. -/
theorem Named.goto (hs : s.Named) {pc : Pc} (hpc : ∀ f, pc ≠ .holding f) : (s.goto p pc).Named := by
  have hold {q : P} {f : Inode} (hq : (s.goto p pc).pc q = .holding f) : s.pc q = .holding f := by
    rw [goto_pc] at hq
    split at hq
    · exact absurd hq (hpc f)
    · exact hq
  exact ⟨fun q f hq => hs.owned q f (hold hq), fun q f hq => hs.named q f (hold hq)⟩

/-- A party that gives up its lock leaves the locks of the others. -/
theorem Named.giveUp (hs : s.Named) {f : Inode} (hp : s.pc p = .holding f) {pc : Pc}
    (hpc : ∀ f, pc ≠ .holding f) : ((s.setOwner f none).goto p pc).Named := by
  have hold {q : P} {g : Inode} (hq : ((s.setOwner f none).goto p pc).pc q = .holding g) :
      s.pc q = .holding g ∧ g ≠ f := by
    rw [goto_pc] at hq
    split at hq
    · exact absurd hq (hpc g)
    · next hne =>
        refine ⟨hq, ?_⟩
        rintro rfl
        exact hne (hs.exclusive q p g g hq hp)
  refine ⟨fun q g hq => ?_, fun q g hq => hs.named q g (hold hq).1⟩
  obtain ⟨hq, hne⟩ := hold hq
  change Function.update s.owner f none g = some q
  rw [Function.update_of_ne hne]
  exact hs.owned q g hq

theorem Named.openFile (hs : s.Named) : (s.openFile p).Named := by
  unfold LockState.openFile
  split
  · exact hs.goto (by simp)
  · next hnone =>
      have hnew : ({ s with path := some s.next, next := s.next + 1 } : LockState P).Named := by
        refine ⟨hs.owned, fun q f hq => ?_⟩
        have hnamed := hs.named q f hq
        rw [hnone] at hnamed
        cases hnamed
      exact hnew.goto (by simp)

theorem Named.tryLock (hs : s.Named) {f : Inode} (hfile : s.owner f = none → s.path = some f) :
    (s.tryLock p f).Named := by
  unfold LockState.tryLock
  split
  · next hfree =>
      have hold {q : P} {g : Inode} (hq : ((s.setOwner f (some p)).goto p (.holding f)).pc q =
          .holding g) : q = p ∧ g = f ∨ q ≠ p ∧ s.pc q = .holding g := by
        rw [goto_pc] at hq
        split at hq
        · next heq => exact .inl ⟨heq, (Pc.holding.inj hq).symm⟩
        · next hne => exact .inr ⟨hne, hq⟩
      refine ⟨fun q g hq => ?_, fun q g hq => ?_⟩
      · change Function.update s.owner f (some p) g = some q
        rcases hold hq with ⟨rfl, rfl⟩ | ⟨-, hq⟩
        · rw [Function.update_self]
        · have howned := hs.owned q g hq
          have hne : g ≠ f := by
            rintro rfl
            rw [hfree] at howned
            cases howned
          rw [Function.update_of_ne hne, howned]
      · rcases hold hq with ⟨-, rfl⟩ | ⟨-, hq⟩
        · exact hfile hfree
        · exact hs.named q g hq
  · exact hs.goto (by simp)

/-- A careful step keeps every live lock on the file that the path names. -/
theorem Named.step (hs : s.Named) {m : Move} {s' : LockState P} (hcareful : s.Careful p m)
    (hstep : s.step p m = some s') : s'.Named := by
  cases m with
  | openFile =>
      simp only [LockState.step] at hstep
      split at hstep
      · exact Option.some.inj hstep ▸ hs.openFile
      · exact Option.some.inj hstep ▸ hs.openFile
      · cases hstep
  | openError =>
      simp only [LockState.step] at hstep
      split at hstep
      · exact Option.some.inj hstep ▸ hs
      · exact Option.some.inj hstep ▸ hs.goto (by simp)
      · cases hstep
  | tryLock =>
      simp only [LockState.step] at hstep
      split at hstep
      · next f hf => exact Option.some.inj hstep ▸ hs.tryLock (hcareful f hf)
      · cases hstep
  | tryLockError =>
      simp only [LockState.step] at hstep
      split at hstep
      · exact Option.some.inj hstep ▸ hs.goto (by simp)
      · cases hstep
  | timeOut =>
      simp only [LockState.step] at hstep
      split at hstep
      · exact Option.some.inj hstep ▸ hs.goto (by simp)
      · cases hstep
  | unlock =>
      simp only [LockState.step] at hstep
      split at hstep
      · next f hf => exact Option.some.inj hstep ▸ hs.giveUp hf (by simp)
      · cases hstep
  | unlockError dropping =>
      simp only [LockState.step] at hstep
      split at hstep
      · next f hf => exact Option.some.inj hstep ▸ hs.giveUp hf (by cases dropping <;> simp)
      · cases hstep
  | removeFile =>
      simp only [LockState.step] at hstep
      split at hstep
      · have hunlinked : ({ s with path := none } : LockState P).Named :=
          ⟨hs.owned, fun q f hq => absurd (hs.named q f hq) (hcareful q f hq)⟩
        exact Option.some.inj hstep ▸ hunlinked.goto (by simp)
      · cases hstep

/-- Runs of careful steps never have two live locks. -/
theorem exclusive_of_careful {s : LockState P}
    (hrun : Relation.ReflTransGen CarefulNext initial s) : s.Exclusive := by
  refine Named.exclusive ?_
  induction hrun with
  | refl => exact named_initial
  | tail _ hnext ih =>
      obtain ⟨p, m, hcareful, hstep⟩ := hnext
      exact ih.step hcareful hstep

namespace ThreeParties

/-- The state after a list of steps, each by a party. -/
def after (ms : List (Fin 3 × Move)) : Option (LockState (Fin 3)) :=
  ms.foldlM (fun s m => s.step m.1 m.2) initial

/-- One party after the other. -/
def handover : List (Fin 3 × Move) :=
  [(0, .openFile), (0, .tryLock), (0, .unlock), (0, .removeFile), (1, .openFile), (1, .tryLock)]

/-- The second party opens the lock file while the first one holds it, and
locks it between the unlock and the unlink. The third one finds no file. -/
def race : List (Fin 3 × Move) :=
  [(0, .openFile), (0, .tryLock), (1, .openFile), (0, .unlock), (1, .tryLock), (0, .removeFile),
    (2, .openFile), (2, .tryLock)]

theorem reaches {ms : List (Fin 3 × Move)} {s s' : LockState (Fin 3)}
    (h : ms.foldlM (fun s m => s.step m.1 m.2) s = some s') : Relation.ReflTransGen Next s s' := by
  induction ms generalizing s with
  | nil => exact Option.some.inj h ▸ .refl
  | cons m ms ih =>
      obtain ⟨t, hstep, hrest⟩ := Option.bind_eq_some_iff.mp h
      exact .head ⟨m.1, m.2, hstep⟩ (ih hrest)

theorem handover_careful {s : LockState (Fin 3)} (h : after handover = some s) :
    Relation.ReflTransGen CarefulNext initial s := by
  obtain rfl := Option.some.inj h
  refine .head ⟨0, .openFile, trivial, rfl⟩ ?_
  refine .head ⟨0, .tryLock, fun f hf _ => ?_, rfl⟩ ?_
  · cases hf
    rfl
  refine .head ⟨0, .unlock, trivial, rfl⟩ ?_
  refine .head ⟨0, .removeFile, fun q f hq => ?_, rfl⟩ ?_
  · match q, hq with
    | 0, hq | 1, hq | 2, hq => cases hq
  refine .head ⟨1, .openFile, trivial, rfl⟩ ?_
  refine .head ⟨1, .tryLock, fun f hf _ => ?_, rfl⟩ .refl
  cases hf
  rfl

end ThreeParties

open ThreeParties in
theorem exclusive_of_careful_handover : ∃ s, after handover = some s ∧ s.pc 1 = .holding 1 ∧
    s.Exclusive :=
  ⟨_, rfl, rfl, exclusive_of_careful (handover_careful rfl)⟩

open ThreeParties in
/-- Two live locks on one id: on the file that was unlinked, and on the new
one. -/
theorem race_two_locks : ∃ s : LockState (Fin 3), Relation.ReflTransGen Next initial s ∧
    s.pc 1 = .holding 0 ∧ s.pc 2 = .holding 1 ∧ ¬ s.Exclusive := by
  refine ⟨_, reaches (show after race = some _ from rfl), rfl, rfl, fun hall => ?_⟩
  have heq := hall 1 2 0 1 rfl rfl
  revert heq
  decide

end LockState

end Fileloft.FileLocker
