import Fileloft.Effect.Expand
import Fileloft.Fs.Frame
import Fileloft.Server.Calls
import Fileloft.Server.Clients

/-!
# Clients of the file store

Requests through one handler over the file store that take turns at single
file operations. Between two operations of one store call the others may do
anything.
-/

namespace Fileloft

open Handler Pool

/-- A file operation, with the store call it is part of, or what a handler
does besides store calls. -/
inductive StepOp where
  | file (call : StoreOp) (o : FsOp)
  | handler (o : HandlerOp)

abbrev StepOp.Ans : StepOp → Type
  | .file _ o => FsSig.Ans o
  | .handler o => o.Ans

abbrev StepSig : Sig where
  Op := StepOp
  Ans := StepOp.Ans

abbrev StepProg (α : Type) : Type := Prog StepSig Halt α

variable {α β γ X : Type}

/-- The file operations of a store call. -/
def callSteps (call : StoreOp) : FsProg α → StepProg (Except TusError α)
  | .ret a => .ret (.ok a)
  | .fail e => .ret (.error e)
  | .op o k => Prog.op (S := StepSig) (.file call o) fun r => callSteps call (k r)

/-- A store call is replaced by its file operations. -/
def opSteps (calls : (o : StoreOp) → FsProg o.Val) : (o : HandlerOp) → StepProg o.Ans
  | .store o => callSteps o (calls o)
  | o => Prog.call (S := StepSig) (.handler o)

/-- What a handler does, file operation by file operation. -/
def fileSteps (calls : (o : StoreOp) → FsProg o.Val) (p : Handler α) : StepProg α :=
  p.expand (opSteps calls)

/-- What is noted of a move. A file operation is seen with the disks before
and after it. -/
structure FileObserver (γ : Type) where
  enter : ℕ → TusRequest → Disk → γ → γ
  file : ℕ → StoreOp → FsOp → Disk → Disk → γ → γ
  emit : HookEvent → γ → γ
  leave : ℕ → γ → γ

namespace Shared

def filed (obs : FileObserver γ) (order : Listing) (t : ℕ) (call : StoreOp) (o : FsOp)
    (s : Shared Disk γ) : Shared Disk γ :=
  { s with
    store := (Disk.interp order o s.store).2
    notes := obs.file t call o s.store (Disk.interp order o s.store).2 s.notes }

def locked (t : ℕ) (id : UploadId) (s : Shared Disk γ) : Shared Disk γ :=
  { s with holder := Function.update s.holder id (some t) }

def emitted (obs : FileObserver γ) (event : HookEvent) (s : Shared Disk γ) : Shared Disk γ :=
  { s with notes := obs.emit event s.notes }

end Shared

/-- One operation of client `t`. A lock that somebody holds is not granted,
and a guard that is dropped always frees its id. -/
def fileAct (obs : FileObserver γ) (env : Env) (order : Listing) (t : ℕ) :
    (o : StepOp) → Shared Disk γ → Option (o.Ans × Shared Disk γ)
  | .file call o, s => some ((Disk.interp order o s.store).1, s.filed obs order t call o)
  | .handler (.acquire id), s =>
    match env.acquire id with
    | .ok u => if s.holder id = none then some (.ok u, s.locked t id) else none
    | .error e => some (.error e, s)
  | .handler (.release id), s => some ((), s.released id)
  | .handler .newUuid, s => some (env.uuid, s)
  | .handler .now, s => some (env.clock, s)
  | .handler (.preCreate info), s => some (env.preCreate info, s)
  | .handler (.preFinish info), s => some (env.preFinish info, s)
  | .handler (.preTerminate info), s => some (env.preTerminate info, s)
  | .handler (.emit event), s => some ((), s.emitted obs event)
  -- the file operations stand for it
  | .handler (.store _), _ => none

/-- A lock is granted where nobody holds it, or refused. -/
theorem fileAct_acquire (obs : FileObserver γ) (order : Listing) {env : Env} {t : ℕ}
    {id : UploadId} {s s' : Shared Disk γ} {r : Except TusError Unit}
    (hact : fileAct obs env order t (.handler (.acquire id)) s = some (r, s')) :
    (r = .ok () ∧ s.holder id = none ∧ s' = s.locked t id) ∨ ∃ e, r = .error e ∧ s' = s := by
  simp only [fileAct] at hact
  split at hact
  · split at hact
    · next hfree =>
        obtain ⟨rfl, rfl⟩ := Prod.mk.inj (Option.some.inj hact)
        exact .inl ⟨rfl, hfree, rfl⟩
    · cases hact
  · next e _ =>
      obtain ⟨rfl, rfl⟩ := Prod.mk.inj (Option.some.inj hact)
      exact .inr ⟨e, rfl, rfl⟩

/-- The clients of a handler over the file store. -/
def fileClients (h : TusHandler) (calls : (o : StoreOp) → FsProg o.Val) (out : X → Env × Listing)
    (obs : FileObserver γ) :
    Machine StepSig Halt TusResponse TusRequest ℕ X (Shared Disk γ) where
  program q := fileSteps calls (h.handle q)
  act x := fileAct obs (out x).1 (out x).2
  enter t q s := { s with notes := obs.enter t q s.store s.notes }
  leave t _ _ s := { s with notes := obs.leave t s.notes }

abbrev FileClients (γ : Type) : Type :=
  Pool StepSig Halt TusResponse TusRequest ℕ (Shared Disk γ)

/-- No client yet, and no lock taken. -/
def onDisk (d : Disk) (notes : γ) : FileClients γ where
  threads _ := .idle
  shared := ⟨d, fun _ => none, notes⟩

/-! ## Carrying out a handler -/

section Steps

variable {calls : (o : StoreOp) → FsProg o.Val}

theorem callSteps_bind (call : StoreOp) (p : FsProg α) (f : α → FsProg β) :
    callSteps call (p.bind f) = (callSteps call p).bind fun r =>
      match r with
      | .ok a => callSteps call (f a)
      | .error e => .ret (.error e) := by
  induction p with
  | ret a => rfl
  | fail e => rfl
  | op o k ih => exact congrArg (Prog.op (S := StepSig) (.file call o)) (funext ih)

theorem total_callSteps (call : StoreOp) (p : FsProg α) : (callSteps call p).Total := by
  induction p with
  | ret a => trivial
  | fail e => trivial
  | op o k ih => exact ih

theorem uses_callSteps {U : StepOp → Prop} {G : (o : StepOp) → o.Ans → Prop} {call : StoreOp}
    {p : FsProg α} (hp : p.Uses (fun o => U (.file call o)) fun o r => G (.file call o) r) :
    (callSteps call p).Uses U G := by
  induction p with
  | ret a => trivial
  | fail e => trivial
  | op o k ih => exact ⟨hp.1, fun r hr => ih r (hp.2 r hr)⟩

theorem total_opSteps (o : HandlerOp) : (opSteps calls o).Total := by
  cases o with
  | store o => exact total_callSteps o _
  | _ => exact fun _ => trivial

theorem fileSteps_bind (p : Handler α) (f : α → Handler β) :
    fileSteps calls (p.bind f) = (fileSteps calls p).bind fun a => fileSteps calls (f a) :=
  Prog.expand_bind p f

theorem fileSteps_attempt (p : Handler α) :
    fileSteps calls p.attempt = (fileSteps calls p).attempt :=
  Prog.expand_attempt total_opSteps p

end Steps

section Uses

variable {s : FileStore} {C : StoreOp → Prop} {U : StepOp → Prop}
  {G : (o : StepOp) → o.Ans → Prop} {h : TusHandler}

/-- A handle is of an accepted id: a creation and a lookup check it first. -/
theorem uses_opSteps (hcall : ∀ o, C o → o.target.Valid →
      (s.call o).Uses (fun o' => U (.file o o')) fun o' r => G (.file o o') r)
    (hhandler : ∀ o, U (.handler o)) {o : HandlerOp}
    (ho : OnStore (fun o => C o ∧ ∀ id ∈ o.handle, id.Valid) o) :
    (opSteps s.call o).Uses U G ∧ (opSteps s.call o).Returns G (Establishes UploadId.Valid o) := by
  have hopen {o : StoreOp} (hC : C o) (hid : o.target.Valid) : (callSteps o (s.call o)).Uses U G :=
    uses_callSteps (hcall o hC hid)
  cases o with
  | store o =>
      cases o with
      | createUpload info =>
          cases hid : info.id.validate with
          | ok _ => exact ⟨hopen ho.1 hid, Prog.returns_of_forall _ fun _ _ => hid⟩
          | error e =>
              have hfail : s.call (.createUpload info) = .fail e := by
                change (Prog.ofExcept info.id.validate).bind _ = _
                rw [hid]
                rfl
              rw [opSteps, hfail]
              exact ⟨trivial, fun hr => by cases hr⟩
      | getUpload id =>
          cases hid : id.validate with
          | ok _ => exact ⟨hopen ho.1 hid, Prog.returns_of_forall _ fun _ _ => hid⟩
          | error e =>
              have hfail : s.call (.getUpload id) = .fail e := by
                change (Prog.ofExcept id.validate).bind _ = _
                rw [hid]
                rfl
              rw [opSteps, hfail]
              exact ⟨trivial, fun hr => by cases hr⟩
      | _ => exact ⟨hopen ho.1 (ho.2 _ rfl), Prog.returns_of_forall _ fun _ => trivial⟩
  | _ => exact ⟨⟨hhandler _, fun _ _ => trivial⟩, fun _ _ => trivial⟩

/-- What the file operations of each call satisfy, those of a handler do. -/
theorem uses_fileSteps {p : Handler α} (hp : Makes C UploadId.Valid p)
    (hcall : ∀ o, C o → o.target.Valid →
      (s.call o).Uses (fun o' => U (.file o o')) fun o' r => G (.file o o') r)
    (hhandler : ∀ o, U (.handler o)) : (fileSteps s.call p).Uses U G := by
  apply hp.expand_of_returns
  · exact fun o ho => (uses_opSteps hcall hhandler ho).1
  · exact fun o ho => (uses_opSteps hcall hhandler ho).2

end Uses

/-! ## Rules for store calls -/

variable {D : Discipline StepSig ℕ (Shared Disk γ)} {t : ℕ} {A A' E E' : Shared Disk γ → Prop}
  {N : Machine StepSig Halt TusResponse TusRequest ℕ X (Shared Disk γ)} {call : StoreOp}

/-- A store call that keeps the discipline and returns with `B` or fails with
`E`. -/
def FileTriple (N : Machine StepSig Halt TusResponse TusRequest ℕ X (Shared Disk γ))
    (D : Discipline StepSig ℕ (Shared Disk γ)) (t : ℕ) (A : Shared Disk γ → Prop) (call : StoreOp)
    (p : FsProg α) (B : α → Shared Disk γ → Prop) (E : Shared Disk γ → Prop) : Prop :=
  Triple N D t A (callSteps call p) (Outcome B E) fun _ => False

namespace FileTriple

variable {p : FsProg α} {f : α → FsProg β} {B B' : α → Shared Disk γ → Prop}
  {C : β → Shared Disk γ → Prop}

theorem bind (hp : FileTriple N D t A call p B E)
    (hf : ∀ a, FileTriple N D t (B a) call (f a) C E) :
    FileTriple N D t A call (p.bind f) C E := by
  unfold FileTriple
  rw [callSteps_bind]
  apply Triple.bind hp
  intro r
  cases r with
  | ok a => exact hf a
  | error e => exact .ret fun _ _ hs => hs

theorem ret {a : α} (h : ∀ s, D.inv s → A s → B a s) : FileTriple N D t A call (.ret a) B E :=
  Triple.ret h

theorem fail {e : TusError} (h : ∀ s, D.inv s → A s → E s) :
    FileTriple N D t A call (.fail e : FsProg α) B E := Triple.ret h

theorem ofExcept {r : Except TusError α} (hE : ∀ s, D.inv s → A s → E s) :
    FileTriple N D t A call (.ofExcept r) (fun a s => r = .ok a ∧ A s) E := by
  cases r with
  | ok a => exact ret fun _ _ hs => ⟨rfl, hs⟩
  | error e => exact fail hE

theorem fact {F : Prop} (hp : F → FileTriple N D t A call p B E) :
    FileTriple N D t (fun s => F ∧ A s) call p B E := Triple.fact hp

theorem conseq (hp : FileTriple N D t A call p B E) (hA : ∀ s, D.inv s → A' s → A s)
    (hB : ∀ a s, B a s → B' a s) (hE : ∀ s, E s → E' s) : FileTriple N D t A' call p B' E' := by
  apply Triple.conseq hp hA _ fun _ hs => hs
  intro r s hs
  cases r with
  | ok a => exact hB a s hs
  | error e => exact hE s hs

/-- What a call does not catch it returns. -/
theorem triple (hp : FileTriple N D t A call p B E) :
    Triple N D t A (callSteps call p) (Outcome B E) E' :=
  Triple.conseq hp (fun _ _ hs => hs) (fun _ _ hs => hs) fun _ hs => hs.elim

end FileTriple

section Files

variable {h : TusHandler} {calls : (o : StoreOp) → FsProg o.Val} {out : X → Env × Listing}
  {obs : FileObserver γ}

/-- One file operation, from a fact that the others do not change. -/
theorem fileTriple_op {o : FsOp} {k : FsSig.Ans o → FsProg α} {B : α → Shared Disk γ → Prop}
    {C : FsSig.Ans o → Shared Disk γ → Prop} (hA : Stable D t A)
    (hact : ∀ order s, D.inv s → D.allowed t (.file call o) s → A s →
      Keeps D t s (s.filed obs order t call o) ∧
        C (Disk.interp order o s.store).1 (s.filed obs order t call o))
    (hk : ∀ r, FileTriple (fileClients h calls out obs) D t (C r) call (k r) B E) :
    FileTriple (fileClients h calls out obs) D t A call (.op o k) B E := by
  change Triple _ D t A (Prog.op (S := StepSig) (.file call o) fun r => callSteps call (k r)) _ _
  refine Triple.op (C := C) hA ?_ ?_
  · intro s x r s' hinv hallowed hs hr
    obtain ⟨rfl, rfl⟩ := Prod.mk.inj (Option.some.inj hr)
    exact hact (out x).2 s hinv hallowed hs
  · exact hk

theorem fileTriple_io {o : FsOp} {C : o.Val → Shared Disk γ → Prop} (hA : Stable D t A)
    (hact : ∀ order s, D.inv s → D.allowed t (.file call o) s → A s →
      Keeps D t s (s.filed obs order t call o) ∧
        Outcome C E (Disk.interp order o s.store).1 (s.filed obs order t call o)) :
    FileTriple (fileClients h calls out obs) D t A call (FsProg.io o) C E := by
  apply fileTriple_op hA hact
  intro r
  cases r with
  | ok v => exact .ret fun _ _ hs => hs
  | error e => exact .fail fun _ _ hs => hs

/-- A call whose operations all keep a fact. -/
theorem fileTriple_of_uses {U : FsOp → Prop} {p : FsProg α}
    (hp : p.Uses U fun _ _ => True) (hA : Stable D t A)
    (hact : ∀ o order s, U o → D.inv s → D.allowed t (.file call o) s → A s →
      Keeps D t s (s.filed obs order t call o) ∧ A (s.filed obs order t call o)) :
    FileTriple (fileClients h calls out obs) D t A call p (fun _ => A) A := by
  induction p with
  | ret a => exact .ret fun _ _ hs => hs
  | fail e => exact .fail fun _ _ hs => hs
  | op o k ih =>
      apply fileTriple_op (C := fun _ => A) hA
      · exact fun order s hinv hallowed hs => hact o order s hp.1 hinv hallowed hs
      · exact fun r => ih r (hp.2 r trivial)

/-! ## Rules for handlers -/

theorem fileSteps_then {p : Handler α} {f : α → Handler β} {B : α → Shared Disk γ → Prop}
    {C : β → Shared Disk γ → Prop} (hp : Triple N D t A (fileSteps calls p) B E)
    (hf : ∀ a, Triple N D t (B a) (fileSteps calls (f a)) C E) :
    Triple N D t A (fileSteps calls (p.bind f)) C E := by
  rw [fileSteps_bind]
  exact hp.bind hf

theorem fileSteps_store {o : StoreOp} {C : o.Val → Shared Disk γ → Prop}
    (hcall : FileTriple N D t A o (calls o) C E) :
    Triple N D t A (fileSteps calls (store o)) C E := by
  change Triple N D t A ((callSteps o (calls o)).bind fun r => fileSteps calls (check r)) C E
  apply hcall.triple.bind
  intro r
  cases r with
  | ok a => exact .ret fun _ _ hs => hs
  | error e => exact .fail fun _ _ hs => hs

/-- The operations of a handler that makes the store calls `C` and neither
takes nor drops a lock. -/
def Calling (C : StoreOp → Prop) : HandlerOp → Prop
  | .store o => C o
  | .emit _ => True
  | o => Unshared o

theorem calling_of_unshared {C : StoreOp → Prop} (o : HandlerOp) (ho : Unshared o) :
    Calling C o := by
  cases o with
  | store _ | emit _ => exact ho.elim
  | _ => exact ho

/-- A handler whose calls all keep a fact, and what it returns. -/
theorem fileSteps_of_returns {C : StoreOp → Prop} {p : Handler α} {Q : α → Prop}
    (hp : p.Uses (Calling C) fun _ _ => True) (hreturns : p.Returns (fun _ _ => True) Q)
    (hA : Stable D t A)
    (hcall : ∀ o, C o → FileTriple (fileClients h calls out obs) D t A o (calls o) (fun _ => A) A)
    (hemit : ∀ event s, D.inv s → A s →
      Keeps D t s (s.emitted obs event) ∧ A (s.emitted obs event)) :
    Triple (fileClients h calls out obs) D t A (fileSteps calls p) (fun a s => Q a ∧ A s) A := by
  induction p with
  | ret a => exact .ret fun _ _ hs => ⟨hreturns, hs⟩
  | fail e => exact .fail fun _ _ hs => hs
  | op o k ih =>
      obtain ⟨ho, hk⟩ := hp
      have hrest (r : HandlerSig.Ans o) := ih r (hk r trivial) (hreturns r trivial)
      have hsilent (hstep : opSteps calls o = Prog.call (S := StepSig) (.handler o))
          (hact : ∀ env order s r s', D.inv s → A s →
            fileAct obs env order t (.handler o) s = some (r, s') → Keeps D t s s' ∧ A s') :
          Triple (fileClients h calls out obs) D t A (fileSteps calls (.op o k))
            (fun a s => Q a ∧ A s) A := by
        change Triple _ D t A ((opSteps calls o).bind fun r => fileSteps calls (k r)) _ _
        rw [hstep]
        apply Triple.op (C := fun _ => A) hA
        · exact fun s x r s' hinv _ hs hr => hact _ _ s r s' hinv hs hr
        · exact hrest
      cases o with
      | store o =>
          change Triple _ D t A ((callSteps o (calls o)).bind fun r => fileSteps calls (k r)) _ _
          apply (hcall o ho).triple.bind
          intro r
          apply (hrest r).pre
          intro s _ hs
          cases r <;> exact hs
      | acquire _ | release _ => exact ho.elim
      | emit event =>
          apply hsilent rfl
          rintro env order s r s' hinv hs ⟨⟩
          exact hemit event s hinv hs
      | _ =>
          apply hsilent rfl
          rintro env order s r s' hinv hs ⟨⟩
          exact ⟨Keeps.refl hinv, hs⟩

theorem fileSteps_of_uses {C : StoreOp → Prop} {p : Handler α}
    (hp : p.Uses (Calling C) fun _ _ => True) (hA : Stable D t A)
    (hcall : ∀ o, C o → FileTriple (fileClients h calls out obs) D t A o (calls o) (fun _ => A) A)
    (hemit : ∀ event s, D.inv s → A s →
      Keeps D t s (s.emitted obs event) ∧ A (s.emitted obs event)) :
    Triple (fileClients h calls out obs) D t A (fileSteps calls p) (fun _ => A) A := by
  apply (fileSteps_of_returns hp (Prog.returns_true p) hA hcall hemit).conseq (fun _ _ hs => hs) _
    fun _ hs => hs
  exact fun _ _ hs => hs.2

theorem sameLocks_locked {t' : ℕ} {id : UploadId} {s : Shared Disk γ} (ht : t' ≠ t)
    (hfree : s.holder id = none) : SameLocks t' s (s.locked t id) := by
  intro u
  by_cases hu : u = id
  · subst hu
    simp [Shared.locked, hfree, ht.symm]
  · simp [Shared.locked, Function.update_of_ne hu]

/-- Work under a lock: what holds when it is granted, and what holds at the
end whatever the work returns. -/
theorem fileSteps_withLock {id : UploadId} {p : Handler α} {L H : Shared Disk γ → Prop}
    {B B' : α → Shared Disk γ → Prop} (hlocker : h.hasLocker = true) (hA : Stable D t A)
    (hrefuse : ∀ s, D.inv s → A s → E s)
    (hgrant : ∀ s, D.inv s → A s → s.holder id = none →
      Keeps D t s (s.locked t id) ∧ L (s.locked t id))
    (hp : Triple (fileClients h calls out obs) D t L (fileSteps calls p) B H)
    (hB : ∀ a, Stable D t (B a)) (hH : Stable D t H)
    (hrelease : ∀ (r : Except Halt α) s, D.inv s → Outcome B H r s →
      Keeps D t s (s.released id) ∧ Outcome B' E r (s.released id)) :
    Triple (fileClients h calls out obs) D t A (fileSteps calls (withLock h id p)) B' E := by
  unfold withLock
  rw [if_pos hlocker]
  apply Triple.op (C := fun r s => Outcome (fun _ => L) E r s) hA
  · intro s x r s' hinv _ hs hr
    obtain ⟨rfl, hfree, rfl⟩ | ⟨e, rfl, rfl⟩ := fileAct_acquire obs (out x).2 hr
    · exact hgrant s hinv hs hfree
    · exact ⟨Keeps.refl hinv, hrefuse s' hinv hs⟩
  · intro r
    cases r with
    | error e => exact .fail fun _ _ hs => hs
    | ok u =>
        change Triple _ D t L (fileSteps calls (p.attempt.bind _)) B' E
        rw [fileSteps_bind, fileSteps_attempt]
        -- the guard is dropped on every way out, so the release follows both outcomes
        apply hp.attempt.bind
        intro result
        apply Triple.op (C := fun _ s => Outcome B' E result s) (Outcome.stable hB hH result)
        · intro s x r s' hinv _ hs hr
          obtain ⟨rfl, rfl⟩ := Prod.mk.inj (Option.some.inj hr)
          exact hrelease result s hinv hs
        · intro _
          cases result with
          | ok a => exact .ret fun _ _ hs => hs
          | error e => exact .fail fun _ _ hs => hs

/-- Work under a lock that the discipline does not heed. -/
theorem fileSteps_withLock_unheeded {id : UploadId} {p : Handler α} {B : α → Shared Disk γ → Prop}
    (hA : Stable D t A) (hB : ∀ a, Stable D t (B a)) (hE : Stable D t E) (hAE : ∀ s, A s → E s)
    (hlocked : ∀ s, D.inv s → A s → Keeps D t s (s.locked t id) ∧ A (s.locked t id))
    (hreleased : ∀ (r : Except Halt α) s, D.inv s → Outcome B E r s →
      Keeps D t s (s.released id) ∧ Outcome B E r (s.released id))
    (hp : Triple (fileClients h calls out obs) D t A (fileSteps calls p) B E) :
    Triple (fileClients h calls out obs) D t A (fileSteps calls (withLock h id p)) B E := by
  cases hlocker : h.hasLocker with
  | true =>
      apply fileSteps_withLock hlocker hA (fun s _ hs => hAE s hs) _ hp hB hE hreleased
      exact fun s hinv hs _ => hlocked s hinv hs
  | false =>
      unfold withLock
      rw [if_neg (by simp [hlocker])]
      exact hp

theorem fileSteps_check {r : Except TusError α} (hE : ∀ s, D.inv s → A s → E s) :
    Triple (fileClients h calls out obs) D t A (fileSteps calls (check r))
      (fun a s => r = .ok a ∧ A s)
      E := by
  cases r with
  | ok a => exact .ret fun s _ hs => ⟨rfl, hs⟩
  | error e => exact .fail hE

/-- A request, from its sub-handler: every error is answered. -/
theorem fileSteps_handle {q : TusRequest} {B : TusResponse → Shared Disk γ → Prop}
    (hp : Triple (fileClients h calls out obs) D t A (fileSteps calls (h.dispatch q)) B E)
    (hE : ∀ e s, E s → B (h.errorResponse e) s) :
    Triple (fileClients h calls out obs) D t A (fileSteps calls (h.handle q)) B E := by
  unfold TusHandler.handle
  simp only [Prog.bind_eq]
  rw [fileSteps_bind, fileSteps_attempt]
  apply hp.attempt.bind
  intro r
  rcases r with (e | _) | resp
  · exact .ret fun s _ hs => hE e s hs
  · exact .fail fun _ _ hs => hs
  · exact .ret fun _ _ hs => hs

end Files

end Fileloft
