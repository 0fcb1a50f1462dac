import Fileloft.Server.Post
import Fileloft.Server.Stages

/-!
# The stages of a creation

After `create_upload` a creation joins its partials, writes its body, removes
the partials and finishes. Each stage is a function of the store it meets,
and running the handler passes through the stages in this order.
-/

namespace Fileloft

namespace Post

open Handler

variable {σ : Type} (impl : Interp StoreSig σ) (h : TusHandler) (env : Env) (req : TusRequest)

/-- The named partials, looked up and joined. -/
def joining (p : Parsed) (info : UploadInfo) (s : σ) : Except TusError Unit × σ :=
  if p.isFinal && h.config.extensions.concatenation then
    match fetched impl s info.partialUploads with
    | .error e => (.error e, s)
    | .ok infos => impl (.concatenate info.id infos) s
  else (.ok (), s)

/-- The body, if there is one, written at the start. -/
def writing (id : UploadId) (s : σ) : Except TusError ℕ × σ :=
  match uploadBody h req with
  | some body => impl (.writeChunk id 0 body) s
  | none => (.ok 0, s)

/-- Whether a partial is found and its removal is not refused. -/
def removable (id : UploadId) (s : σ) : Except TusError Unit := do
  (impl (.getUpload id) s).1
  if h.config.hooks.preTerminate then do
    let info ← (impl (.getInfo id) s).1
    env.preTerminate info
  else return ()

/-- The partials, deleted one after the other. -/
def removing : List UploadId → σ → Except TusError Unit × σ
  | [], s => (.ok (), s)
  | id :: ids, s =>
    match removable impl h env id s with
    | .error e => (.error e, s)
    | .ok _ =>
      match (impl (.delete id) s).1 with
      | .error e => (.error e, (impl (.delete id) s).2)
      | .ok _ => removing ids (impl (.delete id) s).2

/-- The answer of a finished creation. -/
def created (info : UploadInfo) : Except TusError TusResponse :=
  (createdHeaders h req info).map fun m => h.response 201 m []

/-- The completion of a new upload, and its answer. -/
def finishing (id : UploadId) (info : UploadInfo) (s : σ) : Except TusError TusResponse × σ :=
  andThen (completing impl h env id info s) fun _ s => (created h req info, s)

/-- The record of the new upload, whose length the body must not exceed. -/
def checking (id : UploadId) (bytesWritten : ℕ) (s : σ) : Except TusError UploadInfo × σ :=
  (do
    let finalInfo ← (impl (.getInfo id) s).1
    withinLength finalInfo bytesWritten
    return finalInfo, s)

/-- The removal of the partials, if it is configured, and the record again. -/
def tidying (p : Parsed) (id : UploadId) (finalInfo : UploadInfo) (s : σ) :
    Except TusError UploadInfo × σ :=
  if p.isFinal && h.config.extensions.concatenation &&
      h.config.extensions.cleanupConcatPartials then
    andThen (removing impl h env finalInfo.partialUploads s) fun _ s =>
      ((impl (.getInfo id) s).1, s)
  else (.ok finalInfo, s)

/-- What precedes the `pre_finish` callback. -/
def filling (p : Parsed) (info : UploadInfo) (s : σ) : Except TusError UploadInfo × σ :=
  andThen (joining impl h p info s) fun _ s =>
    andThen (writing impl h req info.id s) fun bytesWritten s =>
      andThen (checking impl info.id bytesWritten s) fun finalInfo s =>
        tidying impl h env p info.id finalInfo s

/-- What precedes the callback in a creation, the new record included. -/
def building (p : Parsed) (info : UploadInfo) (s : σ) : Except TusError UploadInfo × σ :=
  andThen (impl (.createUpload info) s) fun _ s => filling impl h env req p info s

variable {impl h env req}

theorem run_assemble (hreads : PureReads impl) (p : Parsed) (info : UploadInfo) (w : World σ) :
    (assemble h p info).run (handlerInterp impl env) w =
      (haltWith (joining impl h p info w.store).1,
        { w with store := (joining impl h p info w.store).2 }) := by
  unfold assemble joining
  split
  · rw [Prog.bind_eq, Prog.run_bind, run_fetchPartialInfos hreads]
    cases fetched impl w.store info.partialUploads with
    | error e => rfl
    | ok infos => exact run_concatenate impl env w info.id infos
  · rfl

theorem run_writeBody (id : UploadId) (w : World σ) :
    (writeBody h req id).run (handlerInterp impl env) w =
      (haltWith (writing impl h req id w.store).1,
        { w with store := (writing impl h req id w.store).2 }) := by
  unfold writeBody writing
  cases uploadBody h req with
  | none => rfl
  | some body => exact run_writeChunk impl env w id 0 body

/-- The lookup and the callback before a partial is deleted. -/
theorem run_removable_bind {β : Type} (hreads : PureReads impl) (id : UploadId)
    (f : Unit → Handler β) (w : World σ) :
    ∃ l, l.filterMap Obs.event? = [] ∧ ((getUpload id).bind fun _ =>
        if h.config.hooks.preTerminate then
          (getInfo id).bind fun info => (preTerminate h info).bind f
        else f ()).run (handlerInterp impl env) w =
      ((check (removable impl h env id w.store)).bind f).run (handlerInterp impl env)
        ⟨w.store, w.log ++ l⟩ := by
  simp only [run_getUpload_bind, hreads.getUpload, removable, bind, Except.bind]
  cases (impl (.getUpload id) w.store).1 with
  | error e => exact ⟨[], rfl, by simp⟩
  | ok _ =>
      simp only [check_ok, Prog.ret_bind]
      by_cases hhook : h.config.hooks.preTerminate = true
      · simp only [hhook, if_true, run_getInfo_bind, hreads.getInfo]
        cases (impl (.getInfo id) w.store).1 with
        | error e => exact ⟨[], rfl, by simp⟩
        | ok info =>
            simp only [check_ok, Prog.ret_bind, run_preTerminate_bind]
            refine ⟨[.preTerminate info (env.preTerminate info)], rfl, ?_⟩
            simp [Env.terminateAnswer, World.afterPreTerminate, hhook, World.note]
      · rw [Bool.not_eq_true] at hhook
        exact ⟨[], rfl, by simp [hhook, pure, Except.pure]⟩

theorem run_cleanupPartials (hreads : PureReads impl) (ids : List UploadId) (w : World σ) :
    ∃ l, (cleanupPartials h ids).run (handlerInterp impl env) w =
      (haltWith (removing impl h env ids w.store).1,
        ⟨(removing impl h env ids w.store).2, w.log ++ l⟩) := by
  induction ids generalizing w with
  | nil => exact ⟨[], by simp [cleanupPartials, removing, haltWith]⟩
  | cons id ids ih =>
      obtain ⟨l, -, hrun⟩ := @run_removable_bind _ impl h env _ hreads id (fun _ =>
        (delete id).bind fun _ => (emit h (.uploadTerminated id)).bind fun _ =>
          cleanupPartials h ids) w
      simp only [cleanupPartials, Prog.bind_eq]
      rw [hrun, removing]
      cases removable impl h env id w.store with
      | error e => exact ⟨l, rfl⟩
      | ok _ =>
          simp only [check_ok, Prog.ret_bind, run_delete_bind]
          cases (impl (.delete id) w.store).1 with
          | error e => exact ⟨l, rfl⟩
          | ok _ =>
              simp only [check_ok, Prog.ret_bind, run_emit_bind]
              obtain ⟨m, hlog⟩ := World.afterEmit_log h
                (⟨(impl (.delete id) w.store).2, w.log ++ l⟩ : World σ) (.uploadTerminated id)
              obtain ⟨n, hrest⟩ := ih (World.afterEmit h
                (⟨(impl (.delete id) w.store).2, w.log ++ l⟩ : World σ) (.uploadTerminated id))
              refine ⟨l ++ m ++ n, ?_⟩
              rw [hrest, World.afterEmit_store, hlog]
              simp

theorem run_cleanup (hreads : PureReads impl) (p : Parsed) (id : UploadId)
    (finalInfo : UploadInfo) (w : World σ) :
    ∃ l, (cleanup h p id finalInfo).run (handlerInterp impl env) w =
      (haltWith (tidying impl h env p id finalInfo w.store).1,
        ⟨(tidying impl h env p id finalInfo w.store).2, w.log ++ l⟩) := by
  unfold cleanup tidying
  split
  · obtain ⟨l, hrun⟩ := run_cleanupPartials hreads finalInfo.partialUploads w
    refine ⟨l, ?_⟩
    rw [Prog.bind_eq, Prog.run_bind, hrun]
    rcases removing impl h env finalInfo.partialUploads w.store with ⟨_ | _, s⟩
    · rfl
    · simp [haltWith, andThen, run_getInfo, hreads.getInfo]
  · exact ⟨[], by simp [haltWith]⟩

/-- The stages up to the callback, and the callback and what follows it. -/
theorem run_fill (hreads : PureReads impl) (p : Parsed) (info : UploadInfo) (w : World σ) :
    ∃ l, (fill h req p info).run (handlerInterp impl env) w =
      ((check (filling impl h env req p info w.store).1).bind fun finalInfo =>
        finish h req info.id finalInfo).run (handlerInterp impl env)
          ⟨(filling impl h env req p info w.store).2, w.log ++ l⟩ := by
  unfold fill filling
  simp only [Prog.bind_eq]
  rw [Prog.run_bind, run_assemble hreads]
  rcases joining impl h p info w.store with ⟨_ | _, s₁⟩
  · exact ⟨[], by simp [haltWith, andThen]⟩
  simp only [haltWith, andThen]
  rw [Prog.run_bind, run_writeBody]
  rcases writing impl h req info.id s₁ with ⟨_ | bytesWritten, s₂⟩
  · exact ⟨[], by simp [haltWith]⟩
  simp only [haltWith, run_getInfo_bind, hreads.getInfo, checking, bind, Except.bind]
  cases (impl (.getInfo info.id) s₂).1 with
  | error e => exact ⟨[], by simp⟩
  | ok finalInfo =>
      simp only [check_ok, Prog.ret_bind]
      cases withinLength finalInfo bytesWritten with
      | error e => exact ⟨[], by simp⟩
      | ok _ =>
          simp only [check_ok, Prog.ret_bind, pure, Except.pure]
          obtain ⟨l, hrun⟩ := run_cleanup hreads p info.id finalInfo ⟨s₂, w.log⟩
          refine ⟨l, ?_⟩
          rw [Prog.run_bind, hrun]
          rcases tidying impl h env p info.id finalInfo s₂ with ⟨_ | _, s₃⟩ <;> rfl

theorem finishing_snd (id : UploadId) (info : UploadInfo) (s : σ) :
    (finishing impl h env req id info s).2 = (completing impl h env id info s).2 := by
  unfold finishing
  rcases completing impl h env id info s with ⟨_ | _, _⟩ <;> rfl

theorem run_finish (id : UploadId) (info : UploadInfo) (w : World σ) :
    ∃ l, (finish h req id info).run (handlerInterp impl env) w =
        (haltWith (finishing impl h env req id info w.store).1,
          ⟨(finishing impl h env req id info w.store).2, w.log ++ l⟩) ∧
      (h.config.hooks.preFinish = true → info.isComplete = true →
        env.finishAnswer h info = .ok () → Obs.preFinish info (.ok ()) ∈ l) := by
  obtain ⟨l, hcreated⟩ := World.afterEmit_log h w (.uploadCreated info)
  obtain ⟨m, hrun, happroved⟩ := @run_completing _ impl h env id info
    (World.afterEmit h w (.uploadCreated info))
  rw [World.afterEmit_store, hcreated] at hrun
  refine ⟨l ++ m, ?_, fun hhook hcomplete haccept =>
    List.mem_append_right _ (happroved hhook hcomplete haccept)⟩
  simp only [finish, Prog.bind_eq, run_emit_bind, finishing]
  rw [Prog.run_bind, hrun, List.append_assoc]
  rcases completing impl h env id info w.store with ⟨_ | _, s⟩
  · rfl
  · simp only [haltWith, andThen, created]
    cases createdHeaders h req info <;> rfl

/-- A creation runs to the callback, and from there on. -/
theorem run_create_building (hreads : PureReads impl) (p : Parsed) (info : UploadInfo)
    (w : World σ) :
    ∃ l, (create h req p info).run (handlerInterp impl env) w =
      ((check (building impl h env req p info w.store).1).bind fun finalInfo =>
        finish h req info.id finalInfo).run (handlerInterp impl env)
          ⟨(building impl h env req p info w.store).2, w.log ++ l⟩ := by
  rw [create, Prog.bind_eq, run_createUpload_bind, building]
  rcases impl (.createUpload info) w.store with ⟨_ | _, s₁⟩
  · exact ⟨[], by simp [andThen]⟩
  · exact run_fill hreads p info ⟨s₁, w.log⟩

/-- A settled record is served by running its creation. -/
theorem serve_prepared {w : World σ} {p : Parsed} {info : UploadInfo} (hmethod : req.method = .post)
    (hprepare : prepare h env req = .ok (p, info)) :
    (serve h impl env req w).2 = ((create h req p info).run (handlerInterp impl env) w).2 := by
  rw [serve_eq, TusHandler.dispatch, hmethod]
  change ((handle h req).run (handlerInterp impl env) w).2 = _
  rw [run_handle, hprepare]

end Post

end Fileloft
