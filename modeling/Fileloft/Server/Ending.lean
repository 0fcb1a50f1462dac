import Fileloft.Effect.Locks
import Fileloft.Server.Calls
import Fileloft.Server.Clients
import Fileloft.Server.Fixture

/-!
# Requests come to an end

No request waits for a lock while it has one, and it gives every lock back.
So the clients of a handler never wait for each other in a circle.
-/

namespace Fileloft

open Handler Pool

def handlerLocking : Locking HandlerSig UploadId where
  kind
    | .acquire id => .acquire id
    | .release id => .release id
    | _ => .other
  granted
    | .acquire _, r => r = .ok ()
    | _, _ => False

/-- Neither taking nor dropping a lock. -/
def Lockless (o : HandlerOp) : Prop := handlerLocking.kind o = .other

theorem lockless_of_unshared (o : HandlerOp) (ho : Unshared o) : Lockless o := by
  cases o with
  | store _ | acquire _ | release _ | emit _ => exact ho.elim
  | _ => rfl

variable {α β : Type} {h : TusHandler} {req : TusRequest}

/-- The handler takes at most one lock at a time, and gives it back. -/
abbrev TakesOne (p : Handler α) : Prop := p.Locks handlerLocking none

section Handlers

variable {p : Handler α}

theorem takesOne_check_bind {r : Except TusError α} {f : α → Handler β} (hf : ∀ a, TakesOne (f a)) :
    TakesOne ((check r).bind f) := by
  cases r with
  | ok a => exact hf a
  | error e => rfl

theorem takesOne_then {f : α → Handler β} (hp : p.Uses Lockless fun _ _ => True)
    (hf : ∀ a, TakesOne (f a)) : TakesOne (p.bind f) := (Prog.locks_of_uses hp).bind hf

/-- The lock that is taken for some work is given back after it. -/
theorem takesOne_withLock {id : UploadId} (hp : p.Uses Lockless fun _ _ => True) :
    TakesOne (withLock h id p) := by
  unfold withLock
  split
  · refine (Prog.locks_acquire (i := id) rfl).mpr ⟨rfl, fun r => ⟨?_, fun hr => ?_⟩⟩
    · rintro rfl
      apply Prog.locks_then (Prog.Uses.attempt hp) p.total_attempt
      intro result
      refine (Prog.locks_release (i := id) rfl).mpr ⟨rfl, fun _ => ?_⟩
      exact Prog.locks_of_uses (Prog.uses_ofExcept result)
    · cases r with
      | ok u => exact absurd rfl hr
      | error e => rfl
  · exact Prog.locks_of_uses hp

theorem uses_call_lockless {o : StoreOp} : (store o).Uses Lockless fun _ _ => True := uses_store rfl

theorem uses_emit_lockless {event : HookEvent} : (emit h event).Uses Lockless fun _ _ => True :=
  uses_emit rfl

theorem Head.takesOne : TakesOne (Head.handle h req) := by
  refine takesOne_check_bind fun _ => takesOne_check_bind fun id => ?_
  refine takesOne_then uses_call_lockless fun _ => takesOne_then uses_call_lockless fun info => ?_
  exact takesOne_then (uses_checkExpiry lockless_of_unshared _) fun _ => rfl

theorem Get.takesOne : TakesOne (Get.handle h req) := by
  refine takesOne_then (uses_ensure _ _) fun _ => takesOne_check_bind fun id => takesOne_withLock ?_
  refine uses_call_lockless.bind fun _ => uses_call_lockless.bind fun info => ?_
  refine (uses_checkExpiry lockless_of_unshared _).bind fun _ => (uses_ensure _ _).bind fun _ => ?_
  exact uses_call_lockless.bind fun content => trivial

theorem Delete.takesOne : TakesOne (Delete.handle h req) := by
  refine takesOne_check_bind fun _ => takesOne_then (uses_ensure _ _) fun _ => ?_
  refine takesOne_check_bind fun id => ?_
  have hlocked : TakesOne (withLock h id do
      getUpload id
      delete id
      emit h (.uploadTerminated id)
      return h.response 204 [] []) := by
    refine takesOne_withLock ?_
    refine uses_call_lockless.bind fun _ => uses_call_lockless.bind fun _ => ?_
    exact uses_emit_lockless.bind fun _ => trivial
  split
  · refine takesOne_then uses_call_lockless fun _ => takesOne_then uses_call_lockless fun info => ?_
    exact takesOne_then (uses_preTerminate lockless_of_unshared info) fun _ => hlocked
  · exact hlocked

theorem Patch.takesOne : TakesOne (Patch.handle h req) := by
  refine takesOne_check_bind fun ⟨offset, id⟩ => takesOne_withLock ?_
  exact Patch.uses_locked lockless_of_unshared (fun _ _ => rfl) fun _ => ⟨rfl, rfl⟩

theorem Post.uses_fetchPartialInfos (ids : List UploadId) :
    (Post.fetchPartialInfos ids).Uses Lockless fun _ _ => True := by
  induction ids with
  | nil => trivial
  | cons id ids ih =>
      refine uses_call_lockless.bind fun _ => uses_call_lockless.bind fun info => ?_
      refine (uses_ensure _ _).bind fun _ => (uses_ensure _ _).bind fun _ => ?_
      exact ih.bind fun _ => trivial

theorem Post.uses_cleanupPartials (ids : List UploadId) :
    (Post.cleanupPartials h ids).Uses Lockless fun _ _ => True := by
  induction ids with
  | nil => trivial
  | cons id ids ih =>
      refine uses_call_lockless.bind fun _ => ?_
      have hrest : ((delete id).bind fun _ =>
          (emit h (.uploadTerminated id)).bind fun _ => Post.cleanupPartials h ids).Uses Lockless
            fun _ _ => True :=
        uses_call_lockless.bind fun _ => uses_emit_lockless.bind fun _ => ih
      split
      · refine uses_call_lockless.bind fun info => ?_
        exact (uses_preTerminate lockless_of_unshared info).bind fun _ => hrest
      · exact hrest

/-- A creation takes no lock at all. -/
theorem Post.uses_fill {p : Post.Parsed} {info : UploadInfo} :
    (Post.fill h req p info).Uses Lockless fun _ _ => True := by
  have hassemble : (Post.assemble h p info).Uses Lockless fun _ _ => True := by
    unfold Post.assemble
    split
    · exact (Post.uses_fetchPartialInfos _).bind fun _ => uses_call_lockless
    · trivial
  have hbody : (Post.writeBody h req info.id).Uses Lockless fun _ _ => True := by
    unfold Post.writeBody
    split
    · exact uses_call_lockless
    · trivial
  have hcleanup (finalInfo : UploadInfo) :
      (Post.cleanup h p info.id finalInfo).Uses Lockless fun _ _ => True := by
    unfold Post.cleanup
    split
    · exact (Post.uses_cleanupPartials _).bind fun _ => uses_call_lockless
    · trivial
  refine hassemble.bind fun _ => hbody.bind fun _ => uses_call_lockless.bind fun finalInfo => ?_
  refine (uses_check _).bind fun _ => (hcleanup finalInfo).bind fun finalInfo => ?_
  refine uses_emit_lockless.bind fun _ => ?_
  refine (uses_finishIfComplete lockless_of_unshared finalInfo rfl rfl).bind fun _ => ?_
  exact (uses_check _).bind fun _ => trivial

theorem Post.takesOne : TakesOne (Post.handle h req) := by
  refine takesOne_check_bind fun p => takesOne_then (uses_newUuid lockless_of_unshared)
    fun uuid => ?_
  refine takesOne_check_bind fun info => ?_
  refine takesOne_then (uses_expiry lockless_of_unshared) fun expiresAt => ?_
  refine takesOne_then (uses_preCreate lockless_of_unshared _) fun info => ?_
  exact takesOne_then uses_call_lockless fun _ => Prog.locks_of_uses Post.uses_fill

theorem TusHandler.takesOne : TakesOne (h.handle req) := by
  have hdispatch : TakesOne (h.dispatch req) := by
    unfold TusHandler.dispatch
    cases req.method with
    | options => exact takesOne_check_bind fun _ => rfl
    | head => exact Head.takesOne
    | get => exact Get.takesOne
    | post => exact Post.takesOne
    | patch => exact Patch.takesOne
    | delete => exact Delete.takesOne
    | other _ => rfl
  refine hdispatch.attempt.bind fun r => ?_
  rcases r with (e | _) | resp <;> rfl

end Handlers

variable {σ γ : Type} {impl : Interp StoreSig σ} {obs : Observer σ γ}

theorem guards_clients : Guards (clients h impl obs) handlerLocking Shared.holder where
  program _ := TusHandler.takesOne
  enter _ _ _ := rfl
  leave _ _ _ _ := rfl
  other env t o s ho := by
    cases o with
    | acquire id => cases ho
    | release id => cases ho
    | _ => exact ⟨_, _, rfl, rfl⟩
  release env t o s id ho := by
    cases o with
    | release id' =>
        obtain rfl := LockStep.release.inj ho
        exact ⟨_, _, rfl, rfl⟩
    | _ => cases ho
  acquire env t o s id ho hfree := by
    cases o with
    | acquire id' =>
        obtain rfl := LockStep.acquire.inj ho
        change (act impl obs env t (.acquire id') s).isSome
        simp only [act]
        split
        · rw [if_pos hfree]
          rfl
        · rfl
    | _ => cases ho
  grant env t o s id r s' ho hact := by
    cases o with
    | acquire id' =>
        obtain rfl := LockStep.acquire.inj ho
        obtain ⟨-, ⟨rfl, hfree, rfl⟩ | ⟨e, rfl, rfl⟩⟩ := act_acquire impl hact
        · exact ⟨fun _ => ⟨hfree, rfl⟩, fun hr => absurd rfl hr⟩
        · exact ⟨fun hr => (by cases hr), fun _ => rfl⟩
    | _ => cases ho

/-- Whatever has happened, the requests at work come to an end in every
order of steps, some of them can always go on, and then no lock is taken. This
is about lockers whose guards free their ids when they are dropped. -/
theorem requests_settle {P : Clients σ γ → ClientMove → Prop} {store : σ} {notes : γ}
    {c : Clients σ γ} (hc : Reach (clients h impl obs) P (opened store notes) c) :
    Settles (clients h impl obs) Shared.holder c :=
  guards_clients.settles (fun _ => rfl) (fun _ => rfl) hc

namespace Waiting

def handler : TusHandler := ⟨{}, true, .fixed⟩

def delete : TusRequest := .ofTexts .delete (some "a") [(.tusResumable, "1.0.0")] none

end Waiting

/-- A store that finds nothing. -/
def vacant : Interp StoreSig Unit := fun o s => (.error (.notFound o.target.val), s)

def Observer.blind {σ : Type} : Observer σ Unit where
  enter _ _ n := n
  call _ _ _ _ := ()
  acquire _ _ n := n
  preTerminate _ _ _ n := n
  leave _ _ _ n := n

open Waiting in
theorem requests_settle_waiting : ∃ c,
    moves (clients handler vacant .blind)
      [.start 0 delete, .step 0 (.permissive .b), .start 1 delete] (opened () ()) = some c ∧
      next (clients handler vacant .blind) (.step 1 (.permissive .b)) c = none ∧
      Settles (clients handler vacant .blind) Shared.holder c := by
  obtain ⟨c, hc, hwaits⟩ : ∃ c, moves (clients handler vacant .blind)
      [.start 0 delete, .step 0 (.permissive .b), .start 1 delete] (opened () ()) = some c ∧
      next (clients handler vacant .blind) (.step 1 (.permissive .b)) c = none := ⟨_, rfl, rfl⟩
  have hreach : Reach (clients handler vacant .blind) (fun _ _ => True) (opened () ()) c :=
    reach_of_moves (I := fun _ => True) (fun _ _ _ _ => trivial) (fun _ _ _ _ _ _ => trivial)
      trivial .refl hc
  exact ⟨c, hc, hwaits, requests_settle hreach⟩

end Fileloft
