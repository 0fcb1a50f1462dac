import Fileloft.Server.Stages

/-!
# PATCH over any store

The guards of a PATCH only read. A PATCH is either refused by one of them,
with the world as it was, or goes on to declare a length and write.
-/

namespace Fileloft

open Handler

namespace Patch

variable {σ : Type}

/-- The request passes every guard on the upload `id` with record `info`,
and declares the length `size` if that is one. -/
structure Admits (impl : Interp StoreSig σ) (h : TusHandler) (env : Env) (req : TusRequest) (s : σ)
    (id : UploadId) (info : UploadInfo) (size : Option ℕ) : Prop where
  parsed : parseRequest req = .ok (info.offset, id)
  locked : env.lockAnswer h id = .ok ()
  found : (impl (.getUpload id) s).1 = .ok ()
  stored : (impl (.getInfo id) s).1 = .ok info
  notFinal : info.isFinal = false
  unexpired : env.unexpired info.expiresAt = true
  length : declaredLength h req info = .ok size

/-- What follows the guards: the length, the chunk, the completion. -/
def accept (h : TusHandler) (req : TusRequest) (id : UploadId) (offset : ℕ) (size : Option ℕ) :
    Handler TusResponse := do
  match size with
  | some declaredSize => declareLength id declaredSize
  | none => pure ()
  let reader ← check (chunkReader h req)
  let _ ← writeChunk id offset reader
  finish h id

variable {impl : Interp StoreSig σ} {h : TusHandler} {env : Env} {req : TusRequest} {s : σ}

theorem parseRequest_valid {offset : ℕ} {id : UploadId}
    (hok : parseRequest req = .ok (offset, id)) : id.Valid := by
  simp only [parseRequest, bind_eq_ok, pure, Except.pure, Except.ok.injEq,
    Prod.mk.injEq] at hok
  obtain ⟨_, -, _, -, _, -, id', hid, rfl, rfl⟩ := hok
  unfold requestId at hid
  split at hid
  · exact (UploadId.parse_eq_ok hid).2
  · cases hid

/-- A request is admitted to at most one upload, with one record. -/
theorem Admits.unique {id id' : UploadId} {info info' : UploadInfo} {size size' : Option ℕ}
    (ha : Admits impl h env req s id info size) (hb : Admits impl h env req s id' info' size') :
    id = id' ∧ info = info' ∧ size = size' := by
  have hid := ha.parsed.symm.trans hb.parsed
  simp only [Except.ok.injEq, Prod.mk.injEq] at hid
  obtain ⟨-, rfl⟩ := hid
  have hinfo := ha.stored.symm.trans hb.stored
  simp only [Except.ok.injEq] at hinfo
  subst hinfo
  have hsize := ha.length.symm.trans hb.length
  simp only [Except.ok.injEq] at hsize
  exact ⟨rfl, rfl, hsize⟩

theorem declaredLength_eq_some {info : UploadInfo} {size : ℕ}
    (hd : declaredLength h req info = .ok (some size)) :
    info.size = none ∧ info.sizeIsDeferred = true := by
  unfold declaredLength at hd
  split at hd
  · next hc => simpa [and_comm] using hc
  · cases hd

variable (impl h env req s) in
/-- The guards as one check of the state. -/
def admission : Except TusError (UploadId × UploadInfo × Option ℕ) := do
  let (clientOffset, id) ← parseRequest req
  env.lockAnswer h id
  (impl (.getUpload id) s).1
  let info ← (impl (.getInfo id) s).1
  guardWith (!info.isFinal) .patchOnFinalUpload
  guardWith (info.offset == clientOffset) (.offsetMismatch info.offset clientOffset)
  guardWith (env.unexpired info.expiresAt) .gone
  let size ← declaredLength h req info
  return (id, info, size)

theorem admission_eq_ok {id : UploadId} {info : UploadInfo} {size : Option ℕ} :
    admission impl h env req s = .ok (id, info, size) ↔ Admits impl h env req s id info size := by
  constructor
  · intro heq
    simp only [admission, bind_eq_ok, guardWith_eq_ok, pure, Except.pure, Except.ok.injEq,
      Prod.mk.injEq] at heq
    obtain ⟨⟨clientOffset, id'⟩, hparsed, _, hlocked, _, hfound, info', hstored, _, hfinal, _,
      hoffset, _, hexp, size', hsize, rfl, rfl, rfl⟩ := heq
    have heq : info'.offset = clientOffset := by simpa using hoffset
    exact ⟨by rw [heq, hparsed], hlocked, hfound, hstored, by simpa using hfinal, hexp, hsize⟩
  · intro ha
    simp [admission, ha.parsed, ha.locked, ha.found, ha.stored, ha.notFinal,
      ha.unexpired, ha.length, guardWith, bind, Except.bind, pure, Except.pure]

/-- The guards decide whether the rest of a PATCH runs. -/
theorem run_handle (hreads : PureReads impl) (w : World σ) :
    (handle h req).run (handlerInterp impl env) w =
      match admission impl h env req w.store with
      | .ok (id, info, size) =>
        (accept h req id info.offset size).run (handlerInterp impl env) w
      | .error e => (.error (.error e), w) := by
  unfold handle admission
  simp only [Prog.bind_eq]
  cases parseRequest req with
  | error e => rfl
  | ok r =>
      obtain ⟨clientOffset, id⟩ := r
      simp only [check_ok, Prog.ret_bind, run_withLock, bind, Except.bind]
      cases env.lockAnswer h id with
      | error e => rfl
      | ok _ =>
          simp only [locked, Prog.bind_eq, run_getUpload_bind, hreads.getUpload]
          cases (impl (.getUpload id) w.store).1 with
          | error e => rfl
          | ok _ =>
              simp only [check_ok, Prog.ret_bind, run_getInfo_bind, hreads.getInfo]
              cases (impl (.getInfo id) w.store).1 with
              | error e => rfl
              | ok info =>
                  simp only [check_ok, Prog.ret_bind, ensure_eq]
                  cases hfinal : info.isFinal with
                  | true => rfl
                  | false =>
                      by_cases hoffset : info.offset = clientOffset
                      · subst hoffset
                        simp only [guardWith, Bool.not_false, beq_self_eq_true, if_true, check_ok,
                          Prog.ret_bind, run_checkExpiry_bind, ensure_eq]
                        cases env.unexpired info.expiresAt with
                        | false => rfl
                        | true =>
                            simp only [if_true, check_ok, Prog.ret_bind]
                            cases declaredLength h req info <;> rfl
                      · have hbeq : (info.offset == clientOffset) = false := by
                          simpa using hoffset
                        simp only [guardWith, Bool.not_false, hbeq, if_true]
                        rfl

theorem run_finish (hreads : PureReads impl) (w : World σ) (id : UploadId) :
    (finish h id).run (handlerInterp impl env) w =
      match (impl (.getInfo id) w.store).1 with
      | .error e => (.error (.error e), w)
      | .ok info =>
        match (finishIfComplete h id info).run (handlerInterp impl env)
          (World.afterEmit h w (.uploadProgress info)) with
        | (.ok _, w') => (.ok (accepted h info), w')
        | (.error e, w') => (.error e, w') := by
  simp only [finish, Prog.bind_eq, run_getInfo_bind, hreads.getInfo]
  cases (impl (.getInfo id) w.store).1 with
  | error e => rfl
  | ok info =>
      simp only [check_ok, Prog.ret_bind, run_emit_bind]
      rw [Prog.run_bind]
      rcases (finishIfComplete h id info).run (handlerInterp impl env)
        (World.afterEmit h w (.uploadProgress info)) with ⟨_ | _, _⟩ <;> rfl

/-- A PATCH that is answered passed the guards and ran to its end. -/
theorem run_handle_ok (hreads : PureReads impl) {w w' : World σ} {resp : TusResponse}
    (hrun : (handle h req).run (handlerInterp impl env) w = (.ok resp, w')) :
    ∃ id info size, Admits impl h env req w.store id info size ∧
      ∃ s newInfo, Ends impl id s w'.store newInfo := by
  rw [run_handle hreads] at hrun
  rcases hadm : admission impl h env req w.store with e | ⟨id, info, size⟩
  · simp [hadm] at hrun
  refine ⟨id, info, size, admission_eq_ok.mp hadm, ?_⟩
  obtain ⟨w₁, hfinish⟩ : ∃ w₁, (finish h id).run (handlerInterp impl env) w₁ = (.ok resp, w') := by
    simp only [hadm] at hrun
    have hrest {w : World σ} (hrun : ((check (chunkReader h req)).bind fun reader =>
        (writeChunk id info.offset reader).bind fun _ =>
          finish h id).run (handlerInterp impl env) w =
          (.ok resp, w')) : ∃ w₁, (finish h id).run (handlerInterp impl env) w₁ =
            (.ok resp, w') := by
      obtain ⟨_, w₁, -, hrun⟩ := Prog.run_bind_eq_ok hrun
      obtain ⟨_, w₂, -, hrun⟩ := Prog.run_bind_eq_ok hrun
      exact ⟨w₂, hrun⟩
    cases size with
    | none => exact hrest hrun
    | some declaredSize =>
        obtain ⟨_, w₁, -, hrun⟩ := Prog.run_bind_eq_ok hrun
        exact hrest hrun
  rw [run_finish hreads] at hfinish
  cases hget : (impl (.getInfo id) w₁.store).1 with
  | error e => simp [hget] at hfinish
  | ok newInfo =>
      obtain ⟨r, w₂, hrun₂, houtcome⟩ := run_finishIfComplete impl env h
        (World.afterEmit h w₁ (.uploadProgress newInfo)) id newInfo
      simp only [hget, hrun₂] at hfinish
      refine ⟨w₁.store, newInfo, hget, ?_⟩
      cases houtcome with
      | vetoed | failed => simp at hfinish
      | incomplete hincomplete =>
          obtain ⟨-, rfl⟩ := Prod.mk.inj hfinish
          exact .inl ⟨hincomplete, World.afterEmit_store ..⟩
      | finished _ hcomplete _ hfinal hstore _ =>
          obtain ⟨-, rfl⟩ := Prod.mk.inj hfinish
          rw [World.afterEmit_store] at hfinal hstore
          exact .inr ⟨hcomplete, Prod.ext hfinal hstore.symm⟩

/-! ## The stages of an admitted PATCH -/

variable (impl h req) in
/-- What precedes the `pre_finish` callback: the length, the chunk and the
record after them. -/
def filling (id : UploadId) (offset : ℕ) (size : Option ℕ) (s : σ) :
    Except TusError UploadInfo × σ :=
  andThen (match size with
    | some declaredSize => impl (.declareLength id declaredSize) s
    | none => (.ok (), s)) fun _ s =>
      andThen (match chunkReader h req with
        | .ok reader => impl (.writeChunk id offset reader) s
        | .error e => (.error e, s)) fun _ s => ((impl (.getInfo id) s).1, s)

theorem run_accept_filling (hreads : PureReads impl) (id : UploadId) (offset : ℕ)
    (size : Option ℕ) (w : World σ) :
    (accept h req id offset size).run (handlerInterp impl env) w =
      ((check (filling impl h req id offset size w.store).1).bind fun newInfo =>
        (emit h (.uploadProgress newInfo)).bind fun _ =>
          (finishIfComplete h id newInfo).bind fun _ => Prog.ret (accepted h newInfo)).run
        (handlerInterp impl env)
          { w with store := (filling impl h req id offset size w.store).2 } := by
  have hchunk (s : σ) : ((check (chunkReader h req)).bind fun reader =>
      (writeChunk id offset reader).bind fun _ => finish h id).run (handlerInterp impl env)
        { w with store := s } =
      ((check (andThen (match chunkReader h req with
          | .ok reader => impl (.writeChunk id offset reader) s
          | .error e => (.error e, s)) fun _ s => ((impl (.getInfo id) s).1, s)).1).bind
            fun newInfo => (emit h (.uploadProgress newInfo)).bind fun _ =>
              (finishIfComplete h id newInfo).bind fun _ => Prog.ret (accepted h newInfo)).run
        (handlerInterp impl env) { w with store := (andThen (match chunkReader h req with
          | .ok reader => impl (.writeChunk id offset reader) s
          | .error e => (.error e, s)) fun _ s => ((impl (.getInfo id) s).1, s)).2 } := by
    cases chunkReader h req with
    | error e => rfl
    | ok reader =>
        simp only [check_ok, Prog.ret_bind, run_writeChunk_bind]
        rcases impl (.writeChunk id offset reader) s with ⟨_ | _, s'⟩
        · rfl
        · simp only [check_ok, Prog.ret_bind, finish, Prog.bind_eq, run_getInfo_bind,
            hreads.getInfo, andThen]
          rfl
  cases size with
  | none => exact hchunk w.store
  | some declaredSize =>
      simp only [accept, Prog.bind_eq, run_declareLength_bind, filling]
      rcases impl (.declareLength id declaredSize) w.store with ⟨_ | _, s⟩
      · rfl
      · exact hchunk s

/-- From the record after the chunk on. -/
theorem run_accepted (id : UploadId) (newInfo : UploadInfo) (w : World σ) :
    ∃ l, ((emit h (.uploadProgress newInfo)).bind fun _ =>
        (finishIfComplete h id newInfo).bind fun _ => Prog.ret (accepted h newInfo)).run
          (handlerInterp impl env) w =
        (haltWith ((completing impl h env id newInfo w.store).1.map fun _ => accepted h newInfo),
          ⟨(completing impl h env id newInfo w.store).2, w.log ++ l⟩) ∧
      (h.config.hooks.preFinish = true → newInfo.isComplete = true →
        env.finishAnswer h newInfo = .ok () → Obs.preFinish newInfo (.ok ()) ∈ l) := by
  obtain ⟨l, hprogress⟩ := World.afterEmit_log h w (.uploadProgress newInfo)
  obtain ⟨m, hrun, happroved⟩ := @run_completing _ impl h env id newInfo
    (World.afterEmit h w (.uploadProgress newInfo))
  rw [World.afterEmit_store, hprogress] at hrun
  refine ⟨l ++ m, ?_, fun hhook hcomplete haccept =>
    List.mem_append_right _ (happroved hhook hcomplete haccept)⟩
  rw [run_emit_bind, Prog.run_bind, hrun, List.append_assoc]
  rcases completing impl h env id newInfo w.store with ⟨_ | _, s⟩ <;> rfl

end Patch

end Fileloft
