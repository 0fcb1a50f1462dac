import Fileloft.Server.Run

/-!
# Rules for running handlers

What each primitive of a handler does to a serialized run, in the form of
the sequence it starts. The proofs about the handlers only use these.
-/

namespace Fileloft

open Handler

/-- The event of an observation, if it is one. -/
def Obs.event? : Obs → Option HookEvent
  | .emitted event => some event
  | _ => none

/-- The events emitted so far. -/
def World.events {σ : Type} (w : World σ) : List HookEvent := w.log.filterMap Obs.event?

/-- Looking an upload up leaves the store alone. -/
structure PureReads {σ : Type} (impl : Interp StoreSig σ) : Prop where
  getUpload : ∀ id s, (impl (.getUpload id) s).2 = s
  getInfo : ∀ id s, (impl (.getInfo id) s).2 = s

section Rules

variable {σ α β : Type} (impl : Interp StoreSig σ) (env : Env) (h : TusHandler) (w : World σ)

@[simp] theorem run_reject (e : TusError) :
    (reject e : Handler α).run (handlerInterp impl env) w = (.error (.error e), w) := rfl

@[simp] theorem reject_bind (e : TusError) (f : α → Handler β) :
    Prog.bind (reject e) f = reject e := rfl

@[simp] theorem check_ok (a : α) : check (.ok a) = Prog.ret a := rfl

@[simp] theorem check_error (e : TusError) : (check (.error e) : Handler α) = reject e := rfl

@[simp] theorem ensure_true (e : TusError) : ensure true e = Prog.ret () := rfl

@[simp] theorem ensure_false (e : TusError) : ensure false e = reject e := rfl

theorem ensure_eq (cond : Bool) (e : TusError) : ensure cond e = check (guardWith cond e) := by
  cases cond <;> rfl

/-- A rejection as the handler reports it. -/
def haltWith {α : Type} : Except TusError α → Except Halt α
  | .ok a => .ok a
  | .error e => .error (.error e)

theorem haltWith_eq_ok {α : Type} {r : Except TusError α} {a : α} :
    haltWith r = .ok a ↔ r = .ok a := by
  cases r <;> simp [haltWith]

theorem run_check (r : Except TusError α) :
    (check r).run (handlerInterp impl env) w = (haltWith r, w) := by
  cases r <;> rfl

theorem run_createUpload_bind (info : UploadInfo) (f : Unit → Handler β) :
    ((createUpload info).bind f).run (handlerInterp impl env) w =
      ((check (impl (.createUpload info) w.store).1).bind f).run (handlerInterp impl env)
        { w with store := (impl (.createUpload info) w.store).2 } := rfl

theorem run_getUpload_bind (id : UploadId) (f : Unit → Handler β) :
    ((getUpload id).bind f).run (handlerInterp impl env) w =
      ((check (impl (.getUpload id) w.store).1).bind f).run (handlerInterp impl env)
        { w with store := (impl (.getUpload id) w.store).2 } := rfl

theorem run_writeChunk_bind (id : UploadId) (offset : ℕ) (reader : Reader)
    (f : ℕ → Handler β) :
    ((writeChunk id offset reader).bind f).run (handlerInterp impl env) w =
      ((check (impl (.writeChunk id offset reader) w.store).1).bind f).run
        (handlerInterp impl env)
        { w with store := (impl (.writeChunk id offset reader) w.store).2 } := rfl

theorem run_writeChunk (id : UploadId) (offset : ℕ) (reader : Reader) :
    (writeChunk id offset reader).run (handlerInterp impl env) w =
      (haltWith (impl (.writeChunk id offset reader) w.store).1,
        { w with store := (impl (.writeChunk id offset reader) w.store).2 }) := by
  cases hwrite : (impl (.writeChunk id offset reader) w.store).1 <;>
    simp [writeChunk, store, handlerInterp, hwrite, haltWith, reject, World.noteStore]

theorem run_getInfo_bind (id : UploadId) (f : UploadInfo → Handler β) :
    ((getInfo id).bind f).run (handlerInterp impl env) w =
      ((check (impl (.getInfo id) w.store).1).bind f).run (handlerInterp impl env)
        { w with store := (impl (.getInfo id) w.store).2 } := rfl

theorem run_getInfo (id : UploadId) :
    (getInfo id).run (handlerInterp impl env) w =
      (haltWith (impl (.getInfo id) w.store).1,
        { w with store := (impl (.getInfo id) w.store).2 }) := by
  cases hinfo : (impl (.getInfo id) w.store).1 <;>
    simp [getInfo, store, handlerInterp, hinfo, haltWith, reject, World.noteStore]

theorem run_finalize_bind (id : UploadId) (f : Unit → Handler β) :
    ((finalize id).bind f).run (handlerInterp impl env) w =
      ((check (impl (.finalize id) w.store).1).bind f).run (handlerInterp impl env)
        (({ w with store := (impl (.finalize id) w.store).2 } : World σ).note
          (.finalized id (impl (.finalize id) w.store).1)) := rfl

theorem run_readContent_bind (id : UploadId) (f : Bytes → Handler β) :
    ((readContent id).bind f).run (handlerInterp impl env) w =
      ((check (impl (.readContent id) w.store).1).bind f).run (handlerInterp impl env)
        { w with store := (impl (.readContent id) w.store).2 } := rfl

theorem run_delete_bind (id : UploadId) (f : Unit → Handler β) :
    ((delete id).bind f).run (handlerInterp impl env) w =
      ((check (impl (.delete id) w.store).1).bind f).run (handlerInterp impl env)
        { w with store := (impl (.delete id) w.store).2 } := rfl

theorem run_declareLength_bind (id : UploadId) (length : ℕ) (f : Unit → Handler β) :
    ((declareLength id length).bind f).run (handlerInterp impl env) w =
      ((check (impl (.declareLength id length) w.store).1).bind f).run (handlerInterp impl env)
        { w with store := (impl (.declareLength id length) w.store).2 } := rfl

theorem run_concatenate (id : UploadId) (partials : List UploadInfo) :
    (concatenate id partials).run (handlerInterp impl env) w =
      (haltWith (impl (.concatenate id partials) w.store).1,
        { w with store := (impl (.concatenate id partials) w.store).2 }) := by
  cases hconcat : (impl (.concatenate id partials) w.store).1 <;>
    simp [concatenate, store, handlerInterp, hconcat, haltWith, reject, World.noteStore]

theorem run_now_bind (f : DateTime → Handler β) :
    (now.bind f).run (handlerInterp impl env) w =
      (f env.clock).run (handlerInterp impl env) w := rfl

theorem run_newUuid_bind (f : Uuid → Handler β) :
    (newUuid.bind f).run (handlerInterp impl env) w =
      (f env.uuid).run (handlerInterp impl env) w := rfl

/-- The world after an event, which only a channel makes visible. -/
def World.afterEmit (event : HookEvent) : World σ :=
  if 0 < h.config.hooks.channelCapacity then w.note (.emitted event) else w

@[simp] theorem World.afterEmit_store (event : HookEvent) :
    (World.afterEmit h w event).store = w.store := by
  unfold World.afterEmit
  split <;> rfl

theorem World.afterEmit_log (event : HookEvent) :
    ∃ l, (World.afterEmit h w event).log = w.log ++ l := by
  unfold World.afterEmit
  split
  · exact ⟨_, rfl⟩
  · exact ⟨[], by simp⟩

theorem run_emit (event : HookEvent) :
    (emit h event).run (handlerInterp impl env) w = (.ok (), World.afterEmit h w event) := by
  unfold emit World.afterEmit
  split <;> rfl

theorem run_emit_bind (event : HookEvent) (f : Unit → Handler β) :
    ((emit h event).bind f).run (handlerInterp impl env) w =
      (f ()).run (handlerInterp impl env) (World.afterEmit h w event) := by
  unfold emit World.afterEmit
  split <;> rfl

/-- The callback's answer, `ok` when there is none. -/
def Env.finishAnswer (info : UploadInfo) : Except TusError Unit :=
  if h.config.hooks.preFinish then env.preFinish info else .ok ()

def World.afterPreFinish (info : UploadInfo) : World σ :=
  if h.config.hooks.preFinish then w.note (.preFinish info (env.preFinish info)) else w

@[simp] theorem World.afterPreFinish_store (info : UploadInfo) :
    (World.afterPreFinish env h w info).store = w.store := by
  unfold World.afterPreFinish
  split <;> rfl

theorem World.afterPreFinish_log (info : UploadInfo) :
    ∃ l, (World.afterPreFinish env h w info).log = w.log ++ l := by
  unfold World.afterPreFinish
  split
  · exact ⟨_, rfl⟩
  · exact ⟨[], by simp⟩

/-- Only a callback that is set can refuse, and its refusal is logged. -/
theorem World.afterPreFinish_veto {info : UploadInfo} {e : TusError}
    (hveto : env.finishAnswer h info = .error e) :
    (World.afterPreFinish env h w info).log = w.log ++ [.preFinish info (.error e)] := by
  unfold Env.finishAnswer at hveto
  unfold World.afterPreFinish
  split at hveto
  · next hset => rw [if_pos hset, hveto, World.note]
  · cases hveto

/-- The acceptance of a callback that is set is logged. -/
theorem World.afterPreFinish_approved {info : UploadInfo}
    (haccept : env.finishAnswer h info = .ok ()) :
    ∃ l, (World.afterPreFinish env h w info).log = w.log ++ l ∧
      (h.config.hooks.preFinish = true → Obs.preFinish info (.ok ()) ∈ l) := by
  unfold Env.finishAnswer at haccept
  unfold World.afterPreFinish
  split at haccept
  · next hset =>
      exact ⟨[.preFinish info (.ok ())], by rw [if_pos hset, haccept, World.note], by simp⟩
  · next hunset => exact ⟨[], by simp [hunset], fun hset => absurd hset hunset⟩

theorem run_preFinish_bind (info : UploadInfo) (f : Unit → Handler β) :
    ((preFinish h info).bind f).run (handlerInterp impl env) w =
      ((check (env.finishAnswer h info)).bind f).run (handlerInterp impl env)
        (World.afterPreFinish env h w info) := by
  unfold preFinish Env.finishAnswer World.afterPreFinish
  split <;> rfl

def Env.terminateAnswer (info : UploadInfo) : Except TusError Unit :=
  if h.config.hooks.preTerminate then env.preTerminate info else .ok ()

def World.afterPreTerminate (info : UploadInfo) : World σ :=
  if h.config.hooks.preTerminate then w.note (.preTerminate info (env.preTerminate info)) else w

@[simp] theorem World.afterPreTerminate_store (info : UploadInfo) :
    (World.afterPreTerminate env h w info).store = w.store := by
  unfold World.afterPreTerminate
  split <;> rfl

theorem run_preTerminate_bind (info : UploadInfo) (f : Unit → Handler β) :
    ((preTerminate h info).bind f).run (handlerInterp impl env) w =
      ((check (env.terminateAnswer h info)).bind f).run (handlerInterp impl env)
        (World.afterPreTerminate env h w info) := by
  unfold preTerminate Env.terminateAnswer World.afterPreTerminate
  split <;> rfl

/-- The upload is not expired at the clock of the request. -/
def Env.unexpired (expiresAt : Option DateTime) : Bool :=
  match expiresAt with
  | some t => env.clock ≤ t
  | none => true

theorem run_checkExpiry_bind (expiresAt : Option DateTime) (f : Unit → Handler β) :
    ((checkExpiry expiresAt).bind f).run (handlerInterp impl env) w =
      ((ensure (env.unexpired expiresAt) .gone).bind f).run (handlerInterp impl env) w := by
  cases expiresAt <;> rfl

/-- The locker's answer, `ok` when there is none. -/
def Env.lockAnswer (id : UploadId) : Except TusError Unit :=
  if h.hasLocker then env.acquire id else .ok ()

/-- Serialized requests see of a lock only whether it was granted. -/
theorem run_withLock (id : UploadId) (p : Handler α) :
    (withLock h id p).run (handlerInterp impl env) w =
      match env.lockAnswer h id with
      | .ok _ => p.run (handlerInterp impl env) w
      | .error e => (.error (.error e), w) := by
  unfold withLock Env.lockAnswer
  split
  · simp only [Prog.run_op, handlerInterp]
    cases env.acquire id with
    | ok u =>
        simp only [check_ok, Prog.ret_bind]
        rw [Prog.run_bind, Prog.run_attempt]
        simp [handlerInterp]
    | error e => rfl
  · rfl

/-- The record the `pre_create` callback settles, or its refusal. -/
def Env.createAnswer (info : UploadInfo) : Except TusError UploadInfo :=
  if h.config.hooks.preCreate then
    match env.preCreate info with
    | .error e => .error e
    | .ok changes =>
      match (match changes.id with
        | some newId => newId.validate
        | none => .ok ()) with
      | .error e => .error e
      | .ok _ => .ok { info with
          id := changes.id.getD info.id
          metadata := changes.metadata.getD info.metadata
          storage := changes.storage.getD info.storage }
  else .ok info

theorem run_preCreate_bind (info : UploadInfo) (f : UploadInfo → Handler β) :
    ((preCreate h info).bind f).run (handlerInterp impl env) w =
      ((check (env.createAnswer h info)).bind f).run (handlerInterp impl env) w := by
  unfold preCreate Env.createAnswer
  split
  · simp only [Prog.op_bind, Prog.run_op, handlerInterp]
    cases env.preCreate info with
    | error e => rfl
    | ok changes =>
        simp only [check_ok, Prog.ret_bind]
        cases changes.id with
        | none => rfl
        | some newId =>
            simp only
            cases newId.validate <;> rfl
  · rfl

/-- How the end of a POST or PATCH can go. -/
inductive FinishOutcome (id : UploadId) (info : UploadInfo) (w : World σ) :
    Except Halt Unit → World σ → Prop where
  | incomplete (hincomplete : info.isComplete = false) : FinishOutcome id info w (.ok ()) w
  | vetoed (e : TusError) (w' : World σ) (hcomplete : info.isComplete = true)
      (hveto : env.finishAnswer h info = .error e) (hstore : w'.store = w.store)
      (hlog : w'.log = w.log ++ [.preFinish info (.error e)]) :
      FinishOutcome id info w (.error (.error e)) w'
  | failed (e : TusError) (w' : World σ) (hcomplete : info.isComplete = true)
      (haccept : env.finishAnswer h info = .ok ())
      (hfinal : (impl (.finalize id) w.store).1 = .error e)
      (hstore : w'.store = (impl (.finalize id) w.store).2) :
      FinishOutcome id info w (.error (.error e)) w'
  | finished (w' : World σ) (hcomplete : info.isComplete = true)
      (haccept : env.finishAnswer h info = .ok ())
      (hfinal : (impl (.finalize id) w.store).1 = .ok ())
      (hstore : w'.store = (impl (.finalize id) w.store).2)
      (hlog : ∃ l, w'.log = w.log ++ l ∧ .finalized id (.ok ()) ∈ l) :
      FinishOutcome id info w (.ok ()) w'

theorem run_finishIfComplete (id : UploadId) (info : UploadInfo) :
    ∃ r w', (finishIfComplete h id info).run (handlerInterp impl env) w = (r, w') ∧
      FinishOutcome impl env h id info w r w' := by
  refine ⟨_, _, rfl, ?_⟩
  unfold finishIfComplete
  cases hcomplete : info.isComplete with
  | false => exact .incomplete hcomplete
  | true =>
      simp only [if_true, run_preFinish_bind]
      obtain ⟨l, hlog⟩ := World.afterPreFinish_log env h w info
      cases hanswer : env.finishAnswer h info with
      | error e =>
          exact .vetoed e _ hcomplete hanswer (World.afterPreFinish_store ..)
            (World.afterPreFinish_veto env h w hanswer)
      | ok _ =>
          simp only [check_ok, Prog.ret_bind, run_finalize_bind, World.afterPreFinish_store]
          cases hfinal : (impl (.finalize id) w.store).1 with
          | error e => exact .failed e _ hcomplete hanswer hfinal rfl
          | ok _ =>
              simp only [check_ok, Prog.ret_bind, run_emit]
              refine .finished _ hcomplete hanswer hfinal (World.afterEmit_store ..) ?_
              obtain ⟨l', hlog'⟩ := World.afterEmit_log h
                (({ World.afterPreFinish env h w info with
                  store := (impl (.finalize id) w.store).2 } : World σ).note
                    (.finalized id (.ok ()))) (.uploadFinished info)
              refine ⟨l ++ [.finalized id (.ok ())] ++ l', ?_, by simp⟩
              rw [hlog', World.note, hlog]
              simp

/-- How an answered POST or PATCH of `id` ends: on the record it read last,
and with the finalize call when that is complete. -/
structure Ends (impl : Interp StoreSig σ) (id : UploadId) (s s' : σ) (info : UploadInfo) :
    Prop where
  stored : (impl (.getInfo id) s).1 = .ok info
  finish : info.isComplete = false ∧ s' = s ∨
    info.isComplete = true ∧ impl (.finalize id) s = (.ok (), s')

/-- The response of a served request, from the run of its sub-handler. -/
def respond (r : Except Halt TusResponse) : Option TusResponse :=
  match r with
  | .ok resp => some resp
  | .error (.error e) => some (h.errorResponse e)
  | .error .panic => none

theorem serve_eq (req : TusRequest) :
    serve h impl env req w =
      (respond h ((h.dispatch req).run (handlerInterp impl env) w).1,
        ((h.dispatch req).run (handlerInterp impl env) w).2) := by
  unfold serve TusHandler.handle
  simp only [Prog.bind_eq, Prog.run_bind, Prog.run_attempt]
  rcases (h.dispatch req).run (handlerInterp impl env) w with ⟨r, w'⟩
  rcases r with (e | _) | resp <;> rfl

end Rules

/-- Errors and answers are told apart by their status. -/
theorem TusHandler.errorResponse_status (h : TusHandler) (e : TusError) :
    400 ≤ (h.errorResponse e).status := (TusError.statusCode_error e).1

/-- A response that is not an error is the one of the sub-handler. -/
theorem run_dispatch_of_status {σ : Type} {impl : Interp StoreSig σ} {env : Env} {h : TusHandler}
    {w : World σ} {req : TusRequest} {resp : TusResponse}
    (hresp : (serve h impl env req w).1 = some resp) (hstatus : resp.status < 400) :
    (h.dispatch req).run (handlerInterp impl env) w = (.ok resp, (serve h impl env req w).2) := by
  rw [serve_eq] at hresp ⊢
  refine Prod.ext ?_ rfl
  rcases hrun : ((h.dispatch req).run (handlerInterp impl env) w).1 with (e | _) | resp'
  · simp only [hrun, respond, Option.some.injEq] at hresp
    have herror := h.errorResponse_status e
    rw [hresp] at herror
    omega
  · simp [hrun, respond] at hresp
  · simpa [hrun, respond] using hresp

end Fileloft
