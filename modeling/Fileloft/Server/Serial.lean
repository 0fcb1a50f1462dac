import Fileloft.Effect.Serial
import Fileloft.Server.Apart
import Fileloft.Server.Ending

/-!
# Requests one after another

A chunk, a download or a removal does all its work under the lock of the
upload. However such requests are interleaved, they are answered as if each
had been alone, one after another.
-/

namespace Fileloft

open Handler Pool

section Once

variable {α β : Type} {h : TusHandler} {q : TusRequest} {i : UploadId}

/-- The work is done under the lock of the upload. -/
abbrev UnderLock (i : UploadId) (p : Handler α) : Prop := p.Once handlerLocking (On i) i

/-- Neither taking nor dropping a lock, on the upload `i`. -/
def LocklessOn (i : UploadId) (o : HandlerOp) : Prop := Lockless o ∧ On i o

theorem locklessOn_of_unshared (o : HandlerOp) (ho : Unshared o) : LocklessOn i o :=
  ⟨lockless_of_unshared o ho, on_of_unshared o ho⟩

theorem underLock_reject (e : TusError) : UnderLock i (reject e : Handler α) :=
  .nothing (Prog.over_fail _)

theorem underLock_check_bind {r : Except TusError α} {f : α → Handler β}
    (hf : ∀ a, r = .ok a → UnderLock i (f a)) : UnderLock i ((check r).bind f) := by
  cases r with
  | ok a => exact hf a rfl
  | error e => exact underLock_reject e

theorem underLock_ensure_bind {cond : Bool} {e : TusError} {f : Unit → Handler β}
    (hf : UnderLock i (f ())) : UnderLock i ((ensure cond e).bind f) := by
  cases cond with
  | true => exact hf
  | false => exact underLock_reject e

theorem underLock_withLock {p : Handler α} (hlocker : h.hasLocker = true)
    (hp : p.Uses (LocklessOn i) fun _ _ => True) : UnderLock i (withLock h i p) := by
  unfold withLock
  rw [if_pos hlocker]
  refine .acquire rfl rfl fun r => ⟨?_, fun hr => ?_⟩
  · rintro rfl
    apply Prog.inside_then (Prog.Uses.attempt hp) p.total_attempt
    exact fun result => .release rfl rfl fun _ => Prog.over_ofExcept result
  · cases r with
    | ok u => exact absurd rfl hr
    | error e => exact Prog.over_fail _

theorem Get.underLock (hlocker : h.hasLocker = true) (hid : ∀ j, requestId q = .ok j → j = i) :
    UnderLock i (Get.handle h q) := by
  refine underLock_ensure_bind (underLock_check_bind fun id hok => ?_)
  obtain rfl := hid id hok
  have hcall {o : StoreOp} (ho : Reads id o) : (store o).Uses (LocklessOn id) fun _ _ => True :=
    uses_store ⟨rfl, on_reads ho⟩
  refine underLock_withLock hlocker ?_
  refine (hcall (o := .getUpload id) rfl).bind fun _ => (hcall (o := .getInfo id) rfl).bind
    fun info => ?_
  refine (uses_checkExpiry locklessOn_of_unshared _).bind fun _ =>
    (uses_ensure _ _).bind fun _ => ?_
  exact (hcall (o := .readContent id) rfl).bind fun _ => trivial

/-- Without the callback, which is asked before the lock is taken. -/
theorem Delete.underLock
    (hlocker : h.hasLocker = true) (hhook : h.config.hooks.preTerminate = false)
    (hid : ∀ j, requestId q = .ok j → j = i) : UnderLock i (Delete.handle h q) := by
  refine underLock_check_bind fun _ _ =>
    underLock_ensure_bind (underLock_check_bind fun id hok => ?_)
  obtain rfl := hid id hok
  have hcall {o : StoreOp} (ho : Deletes id o) : (store o).Uses (LocklessOn id) fun _ _ => True :=
    uses_store ⟨rfl, on_deletes ho⟩
  rw [if_neg (Bool.eq_false_iff.mp hhook)]
  refine underLock_withLock hlocker ?_
  refine (hcall (o := .getUpload id) rfl).bind fun _ =>
    (hcall (o := .delete id) rfl).bind fun _ => ?_
  exact (uses_emit ⟨rfl, trivial⟩).bind fun _ => trivial

theorem Patch.underLock (hlocker : h.hasLocker = true) (hid : ∀ j, requestId q = .ok j → j = i) :
    UnderLock i (Patch.handle h q) := by
  refine underLock_check_bind fun ⟨offset, id⟩ hparse => ?_
  obtain rfl := hid id (Patch.requestId_of_parse hparse)
  refine underLock_withLock hlocker ?_
  exact Patch.uses_locked locklessOn_of_unshared (fun _ ho => ⟨rfl, on_appends ho⟩)
    fun _ => ⟨⟨rfl, trivial⟩, rfl, trivial⟩

/-- Requests that do nothing but under the lock of the upload they name. -/
def OnlyUnderLock (h : TusHandler) (q : TusRequest) : Prop :=
  q.method ≠ .post ∧ q.method ≠ .head ∧ (q.method = .delete → h.config.hooks.preTerminate = false)

theorem TusHandler.underLock (hlocker : h.hasLocker = true) (hq : OnlyUnderLock h q)
    (hid : ∀ j, requestId q = .ok j → j = i) : UnderLock i (h.handle q) := by
  obtain ⟨hpost, hhead, hhook⟩ := hq
  have hdispatch : UnderLock i (h.dispatch q) := by
    unfold TusHandler.dispatch
    cases hmethod : q.method with
    | options => exact underLock_check_bind fun _ _ => .nothing (Prog.over_ret _)
    | head => exact absurd hmethod hhead
    | get => exact Get.underLock hlocker hid
    | post => exact absurd hmethod hpost
    | patch => exact Patch.underLock hlocker hid
    | delete => exact Delete.underLock hlocker (hhook hmethod) hid
    | other _ => exact underLock_reject _
  refine hdispatch.attempt.bind fun r => ?_
  rcases r with (e | _) | resp
  · exact Prog.over_ret _
  · exact Prog.over_fail _
  · exact Prog.over_ret _

end Once

section Serial

variable {σ τ γ : Type} {impl : Interp StoreSig σ} {inv : σ → Prop} {accepts : UploadId → Prop}
  {part : UploadId → σ → τ} {h : TusHandler} {obs : Observer σ γ} {on : ℕ → UploadId}

theorem turns_clients (hlocal : Local impl inv accepts part) (hon : ∀ t, accepts (on t)) :
    Turns (clients h impl obs) handlerLocking Shared.holder (fun s => inv s.store) (seen part) on
      fun t => On (on t) where
  guards := guards_clients
  apart := apart_clients hlocal hon
  refuse env t o i s r s' u ho hact hr := by
    cases o with
    | acquire j =>
        change _ ∧ ∃ u', act impl obs env t (.acquire j) u = some (r, u') ∧ _
        obtain ⟨henv, ⟨rfl, -, -⟩ | ⟨e, rfl, rfl⟩⟩ := act_acquire impl hact
        · exact absurd rfl hr
        · simp only [act, henv]
          exact ⟨fun _ => rfl, _, rfl, fun _ => rfl⟩
    | _ => cases ho

/-- Each client works under the lock of one upload. -/
def InTurn (h : TusHandler) (on : ℕ → UploadId) (_ : Clients σ γ) (m : ClientMove) : Prop :=
  ∀ t q, m = .start t q → OnlyUnderLock h q ∧ ∀ j, requestId q = .ok j → j = on t

/-- Requests that work under locks are answered as if they had come one after
another, none before one that was answered before it came. -/
theorem serial_clients (hlocal : Local impl inv accepts part) (hon : ∀ t, accepts (on t))
    (hlocker : h.hasLocker = true) {store : σ} {notes : γ} (hinv : inv store) {ms : List ClientMove}
    {c : Clients σ γ} (hc : Run (clients h impl obs) (InTurn h on) (opened store notes) ms c) :
    ∃ order d, order.Nodup ∧
      Run (clients h impl obs) (fun _ _ => True) (opened store notes) (order.flatMap (own ms c)) d ∧
      (∀ t q r, c.threads t = .done q r → t ∈ order ∧ d.threads t = .done q r) ∧
      (∀ t, c.shared.holder (on t) = none → part (on t) d.shared.store =
        part (on t) c.shared.store) ∧
      ∀ ms₁ ms₂ t t' q, ms = ms₁ ++ ms₂ → .finish t ∈ ms₁ → .start t' q ∈ ms₂ → t' ∈ order →
        [t, t'].Sublist order := by
  obtain ⟨order, d, hs⟩ :=
    (@turns_clients _ _ _ _ _ _ _ h obs _ hlocal hon).serial (fun _ => rfl) hinv
    (fun _ t q hm => TusHandler.underLock hlocker (hm t q rfl).1 (hm t q rfl).2) hc
  refine ⟨order, d, hs.nodup, hs.run.mono fun _ _ _ => trivial, fun t q r => hs.done,
    fun t hfree => ?_, hs.strict⟩
  exact congrArg Prod.fst (hs.free t hfree)

end Serial

end Fileloft
