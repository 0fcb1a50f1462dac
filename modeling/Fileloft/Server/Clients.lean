import Fileloft.Effect.Pool
import Fileloft.Server.Rules

/-!
# Concurrent clients

Any number of requests through one handler, taking turns at single store
calls, callbacks and lock operations. The locker gives mutual exclusion for
each upload; it may make a request wait or refuse it. The answers from
outside are those of a fresh environment at each move.
-/

namespace Fileloft

open Handler Pool

/-- The store, who holds the lock of each upload, and the notes of an
observer. -/
structure Shared (σ γ : Type) where
  store : σ
  holder : UploadId → Option ℕ
  notes : γ

/-- What is noted of a move, from the state before it. -/
structure Observer (σ γ : Type) where
  enter : ℕ → TusRequest → γ → γ
  call : ℕ → (o : StoreOp) → Except TusError o.Val → Shared σ γ → γ
  acquire : ℕ → UploadId → γ → γ
  preTerminate : ℕ → UploadInfo → Except TusError Unit → γ → γ
  leave : ℕ → TusRequest → Except Halt TusResponse → γ → γ

variable {σ γ α β : Type}

namespace Shared

def refused (obs : Observer σ γ) (t : ℕ) (id : UploadId) (s : Shared σ γ) : Shared σ γ :=
  { s with notes := obs.acquire t id s.notes }

def granted (obs : Observer σ γ) (t : ℕ) (id : UploadId) (s : Shared σ γ) : Shared σ γ :=
  { s with holder := Function.update s.holder id (some t), notes := obs.acquire t id s.notes }

def released (id : UploadId) (s : Shared σ γ) : Shared σ γ :=
  { s with holder := Function.update s.holder id none }

def called (impl : Interp StoreSig σ) (obs : Observer σ γ) (t : ℕ) (o : StoreOp)
    (s : Shared σ γ) : Shared σ γ :=
  { s with store := (impl o s.store).2, notes := obs.call t o (impl o s.store).1 s }

def answered (obs : Observer σ γ) (t : ℕ) (info : UploadInfo) (answer : Except TusError Unit)
    (s : Shared σ γ) : Shared σ γ :=
  { s with notes := obs.preTerminate t info answer s.notes }

end Shared

/-- One operation of client `t`. A lock that somebody holds is not granted. A
guard that is dropped always frees its id: a locker whose drop can leave the
id held, as `MemoryLocker`, is not such a locker. -/
def act (impl : Interp StoreSig σ) (obs : Observer σ γ) (env : Env) (t : ℕ) :
    (o : HandlerOp) → Shared σ γ → Option (o.Ans × Shared σ γ)
  | .store o, s => some ((impl o s.store).1, s.called impl obs t o)
  | .acquire id, s =>
    match env.acquire id with
    | .ok u => if s.holder id = none then some (.ok u, s.granted obs t id) else none
    | .error e => some (.error e, s.refused obs t id)
  | .release id, s => some ((), s.released id)
  | .newUuid, s => some (env.uuid, s)
  | .now, s => some (env.clock, s)
  | .preCreate info, s => some (env.preCreate info, s)
  | .preFinish info, s => some (env.preFinish info, s)
  | .preTerminate info, s =>
    some (env.preTerminate info, s.answered obs t info (env.preTerminate info))
  | .emit _, s => some ((), s)

/-- A lock is granted where nobody holds it, or refused. -/
theorem act_acquire (impl : Interp StoreSig σ) {obs : Observer σ γ} {env : Env} {t : ℕ}
    {id : UploadId} {s s' : Shared σ γ} {r : Except TusError Unit}
    (hact : act impl obs env t (.acquire id) s = some (r, s')) :
    env.acquire id = r ∧ ((r = .ok () ∧ s.holder id = none ∧ s' = s.granted obs t id) ∨
      ∃ e, r = .error e ∧ s' = s.refused obs t id) := by
  simp only [act] at hact
  split at hact
  · next henv =>
      split at hact
      · next hfree =>
          obtain ⟨rfl, rfl⟩ := Prod.mk.inj (Option.some.inj hact)
          exact ⟨henv, .inl ⟨rfl, hfree, rfl⟩⟩
      · cases hact
  · next e henv =>
      obtain ⟨rfl, rfl⟩ := Prod.mk.inj (Option.some.inj hact)
      exact ⟨henv, .inr ⟨e, rfl, rfl⟩⟩

/-- The clients of a handler. -/
def clients (h : TusHandler) (impl : Interp StoreSig σ) (obs : Observer σ γ) :
    Machine HandlerSig Halt TusResponse TusRequest ℕ Env (Shared σ γ) where
  program := h.handle
  act := act impl obs
  enter t q s := { s with notes := obs.enter t q s.notes }
  leave t q r s := { s with notes := obs.leave t q r s.notes }

/-- The states of the clients of a handler. -/
abbrev Clients (σ γ : Type) : Type :=
  Pool HandlerSig Halt TusResponse TusRequest ℕ (Shared σ γ)

abbrev ClientMove : Type := Move TusRequest ℕ Env

/-- No client yet, and no lock taken. -/
def opened (store : σ) (notes : γ) : Clients σ γ where
  threads _ := .idle
  shared := ⟨store, fun _ => none, notes⟩

/-- What a move of another client does to the locks of `t`. -/
def SameLocks (t : ℕ) (s s' : Shared σ γ) : Prop :=
  ∀ id, s'.holder id = some t ↔ s.holder id = some t

theorem SameLocks.trans {t : ℕ} {s s' s'' : Shared σ γ} (h : SameLocks t s s')
    (h' : SameLocks t s' s'') : SameLocks t s s'' := fun id => (h' id).trans (h id)

theorem sameLocks_granted {obs : Observer σ γ} {t t' : ℕ} {id : UploadId} {s : Shared σ γ}
    (ht : t' ≠ t) (hfree : s.holder id = none) : SameLocks t' s (s.granted obs t id) := by
  intro u
  by_cases hu : u = id
  · subst hu
    simp [Shared.granted, hfree, ht.symm]
  · simp [Shared.granted, Function.update_of_ne hu]

theorem sameLocks_released {t t' : ℕ} {id : UploadId} {s : Shared σ γ} (ht : t' ≠ t)
    (hheld : s.holder id = some t) : SameLocks t' s (s.released id) := by
  intro u
  by_cases hu : u = id
  · subst hu
    simp [Shared.released, hheld, ht.symm]
  · simp [Shared.released, Function.update_of_ne hu]

/-- The client holds the lock of the upload. -/
def Held (t : ℕ) (id : UploadId) (s : Shared σ γ) : Prop := s.holder id = some t

theorem held_granted (obs : Observer σ γ) (t : ℕ) (id : UploadId) (s : Shared σ γ) :
    Held t id (s.granted obs t id) := Function.update_self ..

/-! ## Rules for handlers -/

section Rules

variable {h : TusHandler} {impl : Interp StoreSig σ} {obs : Observer σ γ}
  {D : Discipline HandlerSig ℕ (Shared σ γ)} {t : ℕ} {A E : Shared σ γ → Prop}

/-- An operation that neither the store, nor the locks, nor the observer
notices. -/
theorem triple_silent {o : HandlerOp} {k : o.Ans → Handler α} {B : α → Shared σ γ → Prop}
    (hA : Stable D t A)
    (hact : ∀ env s r s', act impl obs env t o s = some (r, s') → s' = s)
    (hk : ∀ r, Triple (clients h impl obs) D t A (k r) B E) :
    Triple (clients h impl obs) D t A (.op o k) B E := by
  apply Triple.op hA _ hk
  intro s env r s' hinv _ hs hr
  obtain rfl := hact env s r s' hr
  exact ⟨⟨hinv, fun t' _ => D.refl t' _⟩, hs⟩

theorem triple_check {r : Except TusError α} (hE : ∀ s, D.inv s → A s → E s) :
    Triple (clients h impl obs) D t A (check r) (fun a s => r = .ok a ∧ A s) E := by
  cases r with
  | ok a => exact .ret fun s _ hs => ⟨rfl, hs⟩
  | error e => exact .fail hE

theorem triple_ensure {cond : Bool} {e : TusError} (hE : ∀ s, D.inv s → A s → E s) :
    Triple (clients h impl obs) D t A (ensure cond e) (fun _ s => cond = true ∧ A s) E := by
  cases cond with
  | true => exact .ret fun s _ hs => ⟨rfl, hs⟩
  | false => exact .fail hE

theorem triple_emit {event : HookEvent} (hA : Stable D t A) :
    Triple (clients h impl obs) D t A (emit h event) (fun _ => A) E := by
  unfold emit
  split
  · apply triple_silent hA
    · rintro env s r s' ⟨⟩
      rfl
    · exact fun _ => .ret fun _ _ hs => hs
  · exact .ret fun _ _ hs => hs

theorem triple_now (hA : Stable D t A) :
    Triple (clients h impl obs) D t A now (fun _ => A) E := by
  apply triple_silent hA
  · rintro env s r s' ⟨⟩
    rfl
  · exact fun _ => .ret fun _ _ hs => hs

theorem triple_newUuid (hA : Stable D t A) :
    Triple (clients h impl obs) D t A newUuid (fun _ => A) E := by
  apply triple_silent hA
  · rintro env s r s' ⟨⟩
    rfl
  · exact fun _ => .ret fun _ _ hs => hs

theorem triple_checkExpiry {expiresAt : Option DateTime} (hA : Stable D t A)
    (hE : ∀ s, D.inv s → A s → E s) :
    Triple (clients h impl obs) D t A (checkExpiry expiresAt) (fun _ => A) E := by
  unfold checkExpiry
  split
  · apply (triple_now hA).bind
    intro clock
    exact (triple_ensure hE).conseq (fun _ _ hs => hs) (fun _ _ hs => hs.2) fun _ hs => hs
  · exact .ret fun _ _ hs => hs

theorem triple_preFinish {info : UploadInfo} (hA : Stable D t A)
    (hE : ∀ s, D.inv s → A s → E s) :
    Triple (clients h impl obs) D t A (preFinish h info) (fun _ => A) E := by
  unfold preFinish
  split
  · apply triple_silent hA
    · rintro env s r s' ⟨⟩
      rfl
    · intro r
      exact (triple_check hE).conseq (fun _ _ hs => hs) (fun _ _ hs => hs.2) fun _ hs => hs
  · exact .ret fun _ _ hs => hs

/-- A store call, from what it does where it is allowed. -/
theorem triple_store {o : StoreOp} {C : o.Val → Shared σ γ → Prop} (hA : Stable D t A)
    (hcall : ∀ s, D.inv s → D.allowed t (.store o) s → A s → Keeps D t s (s.called impl obs t o) ∧
      (∀ a, (impl o s.store).1 = .ok a → C a (s.called impl obs t o)) ∧
      (∀ e, (impl o s.store).1 = .error e → E (s.called impl obs t o))) :
    Triple (clients h impl obs) D t A (store o) C E := by
  unfold store
  apply Triple.op (C := fun r s => Outcome C E r s) hA
  · intro s env r s' hinv hallowed hs hr
    obtain ⟨rfl, rfl⟩ := Prod.mk.inj (Option.some.inj hr)
    obtain ⟨hkeeps, hok, herror⟩ := hcall s hinv hallowed hs
    refine ⟨hkeeps, ?_⟩
    cases hans : (impl o s.store).1 with
    | ok a => exact hok a hans
    | error e => exact herror e hans
  · intro r
    cases r with
    | ok a => exact .ret fun _ _ hs => hs
    | error e => exact .fail fun _ _ hs => hs

theorem triple_preTerminate {info : UploadInfo} {C : Shared σ γ → Prop} (hA : Stable D t A)
    (hunset : h.config.hooks.preTerminate = false → ∀ s, A s → C s)
    (hanswer : ∀ s r, D.inv s → A s → Keeps D t s (s.answered obs t info r) ∧
      Outcome (fun _ => C) E r (s.answered obs t info r)) :
    Triple (clients h impl obs) D t A (preTerminate h info) (fun _ => C) E := by
  unfold preTerminate
  split
  · apply Triple.op (C := fun r s => Outcome (fun _ => C) E r s) hA
    · intro s env r s' hinv _ hs hr
      obtain ⟨rfl, rfl⟩ := Prod.mk.inj (Option.some.inj hr)
      exact hanswer s _ hinv hs
    · intro r
      cases r with
      | ok a => exact .ret fun _ _ hs => hs
      | error e => exact .fail fun _ _ hs => hs
  · next hset => exact .ret fun s _ hs => hunset (Bool.eq_false_iff.mpr hset) s hs

/-- The callback settles the id and the texts of a new record, no more. -/
theorem triple_preCreate {info : UploadInfo} (hA : Stable D t A) (hE : ∀ s, D.inv s → A s → E s) :
    Triple (clients h impl obs) D t A (preCreate h info)
      (fun info' s => (∃ id metadata storage, info' = { info with id, metadata, storage }) ∧ A s)
      E := by
  unfold preCreate
  split
  · apply triple_silent hA
    · rintro env s r s' ⟨⟩
      rfl
    · intro r
      apply (triple_check hE).bind
      intro changes
      apply (triple_check fun s hinv hs => hE s hinv hs.2).bind
      intro _
      exact .ret fun s _ hs => ⟨⟨_, _, _, rfl⟩, hs.2.2⟩
  · exact .ret fun s _ hs => ⟨⟨_, _, _, rfl⟩, hs⟩

theorem triple_expiry (hA : Stable D t A) (hE : ∀ s, D.inv s → A s → E s) :
    Triple (clients h impl obs) D t A (Post.expiry h) (fun _ => A) E := by
  unfold Post.expiry
  split
  · split
    · apply (triple_now hA).bind
      intro clock
      apply (triple_check hE).bind
      intro d
      split
      · exact .ret fun _ _ hs => hs.2
      · exact .fail fun s hinv hs => hE s hinv hs.2
    · exact .ret fun _ _ hs => hs
  · exact .ret fun _ _ hs => hs

/-- Work under a lock: what holds when it is granted, and what holds at the
end whatever the work returns. -/
theorem triple_withLock {id : UploadId} {p : Handler α} {A' H : Shared σ γ → Prop}
    {B B' : α → Shared σ γ → Prop} (hlocker : h.hasLocker = true) (hA : Stable D t A)
    (hrefuse : ∀ s, D.inv s → A s → Keeps D t s (s.refused obs t id) ∧ E (s.refused obs t id))
    (hgrant : ∀ s, D.inv s → A s → s.holder id = none →
      Keeps D t s (s.granted obs t id) ∧ A' (s.granted obs t id))
    (hp : Triple (clients h impl obs) D t A' p B H)
    (hB : ∀ a, Stable D t (B a)) (hH : Stable D t H)
    (hrelease : ∀ (r : Except Halt α) s, D.inv s → Outcome B H r s →
      Keeps D t s (s.released id) ∧ Outcome B' E r (s.released id)) :
    Triple (clients h impl obs) D t A (withLock h id p) B' E := by
  unfold withLock
  rw [if_pos hlocker]
  apply Triple.op (C := fun r s => Outcome (fun _ => A') E r s) hA
  · intro s env r s' hinv _ hs hr
    obtain ⟨-, ⟨rfl, hfree, rfl⟩ | ⟨e, rfl, rfl⟩⟩ := act_acquire impl hr
    · exact hgrant s hinv hs hfree
    · exact hrefuse s hinv hs
  · intro r
    cases r with
    | error e => exact .fail fun _ _ hs => hs
    | ok u =>
        -- the guard is dropped on every way out, so the release follows both outcomes
        apply hp.attempt.bind
        intro result
        apply Triple.op (C := fun _ s => Outcome B' E result s) (Outcome.stable hB hH result)
        · intro s env r s' hinv _ hs hr
          obtain ⟨rfl, rfl⟩ := Prod.mk.inj (Option.some.inj hr)
          exact hrelease result s hinv hs
        · exact fun _ => Triple.ofExcept

/-- A request, from its sub-handler: every error is answered. -/
theorem triple_handle {q : TusRequest} {B : TusResponse → Shared σ γ → Prop} {A : Shared σ γ → Prop}
    (hp : Triple (clients h impl obs) D t A (h.dispatch q) B E)
    (hE : ∀ e s, E s → B (h.errorResponse e) s) :
    Triple (clients h impl obs) D t A (h.handle q) B E := by
  unfold TusHandler.handle
  apply hp.attempt.bind
  intro r
  rcases r with (e | _) | resp
  · exact .ret fun s _ hs => hE e s hs
  · exact .fail fun _ _ hs => hs
  · exact .ret fun _ _ hs => hs

end Rules

end Fileloft
