import Fileloft.Server.Calls
import Fileloft.Server.Events
import Fileloft.Server.Noting

/-!
# The bytes a request hands out

Bytes leave an upload in two ways: a download serves them, and a final
upload copies them. A download looks at the expiry of the upload first.
-/

namespace Fileloft

open Handler

variable {σ : Type}

/-- The uploads whose bytes a store call hands out, to a client or to another
upload. -/
def bytesOf : (o : StoreOp) → Except TusError o.Val → List UploadId
  | .readContent id, .ok _ => [id]
  | .concatenate _ partials, .ok _ => partials.map UploadInfo.id
  | _, _ => []

/-- The uploads whose bytes a request serves or copies. -/
def handedOut (h : TusHandler) (impl : Interp StoreSig σ) (env : Env) (req : TusRequest)
    (w : World σ) : List UploadId :=
  notes bytesOf ((h.handle req).trace (handlerInterp impl env) w)

variable {impl : Interp StoreSig σ} {h : TusHandler} {env : Env} {req : TusRequest} {w : World σ}
  {id : UploadId}

theorem bytesOf_reads (hreads : PureReads impl) : PureReads (noting bytesOf impl) :=
  noting_reads hreads fun _ => ⟨fun _ => rfl, fun _ => rfl⟩

theorem handedOut_eq : handedOut h impl env req w =
    ((h.dispatch req).run (handlerInterp (noting bytesOf impl) env)
      ⟨(w.store, []), w.log⟩).2.store.2 := by
  unfold handedOut
  rw [trace_handle, notes_trace]

/-- A request whose calls hand nothing out hands nothing out. -/
theorem handedOut_eq_nil {C : StoreOp → Prop} (hp : Makes C (fun _ => True) (h.dispatch req))
    (hC : ∀ o, C o → ∀ a, bytesOf o a = []) : handedOut h impl env req w = [] := by
  rw [handedOut_eq]
  apply hp.run_preserves (I := fun s : σ × List UploadId => s.2 = [])
  · intro o s ho hs
    rw [noting_snd (hC o ho), hs]
  · rfl

theorem Appends.bytesOf {o : StoreOp} (ho : Appends id o) (a : Except TusError o.Val) :
    bytesOf o a = [] := by
  cases o <;> first | rfl | cases ho

theorem Deletes.bytesOf {o : StoreOp} (ho : Deletes id o) (a : Except TusError o.Val) :
    Fileloft.bytesOf o a = [] := by
  cases o <;> first | rfl | cases ho

theorem Head.handedOut (hmethod : req.method = .head) :
    Fileloft.handedOut h impl env req w = [] := by
  have hhushed : Hushed (fun o => ∀ a, bytesOf o a = []) (Head.handle h req) :=
    Head.hushed fun _ => ⟨fun _ => rfl, fun _ => rfl⟩
  rw [handedOut_eq, TusHandler.dispatch, hmethod]
  apply hhushed.store (I := fun s : σ × List UploadId => s.2 = [])
  · intro o s ho hs
    rw [noting_snd ho, hs]
  · rfl

/-! ## Downloads -/

namespace Get

/-- The checks of a download, on the record it finds. -/
def admission (impl : Interp StoreSig σ) (h : TusHandler) (env : Env) (req : TusRequest) (s : σ) :
    Except TusError (UploadId × UploadInfo) := do
  guardWith h.config.enableDownload .methodNotAllowed
  let id ← requestId req
  env.lockAnswer h id
  (impl (.getUpload id) s).1
  let info ← (impl (.getInfo id) s).1
  guardWith (env.unexpired info.expiresAt) .gone
  guardWith info.isComplete .uploadNotReadyForDownload
  return (id, info)

/-- The body of a download, and its answer. -/
def send (h : TusHandler) (id : UploadId) (info : UploadInfo) : Handler TusResponse := do
  let content ← readContent id
  return h.responseWithBody 200 (headers info) (.reader content)

theorem run_handle (hreads : PureReads impl) (w : World σ) :
    (handle h req).run (handlerInterp impl env) w =
      ((check (admission impl h env req w.store)).bind fun r => send h r.1 r.2).run
        (handlerInterp impl env) w := by
  unfold handle admission
  simp only [ensure_eq, bind, Except.bind]
  cases guardWith h.config.enableDownload .methodNotAllowed with
  | error e => rfl
  | ok _ =>
      simp only [check_ok, Prog.ret_bind]
      cases requestId req with
      | error e => rfl
      | ok id =>
          simp only [check_ok, Prog.ret_bind, run_withLock]
          cases env.lockAnswer h id with
          | error e => rfl
          | ok _ =>
              simp only [run_getUpload_bind, hreads.getUpload]
              cases (impl (.getUpload id) w.store).1 with
              | error e => rfl
              | ok _ =>
                  simp only [check_ok, Prog.ret_bind, run_getInfo_bind, hreads.getInfo]
                  cases (impl (.getInfo id) w.store).1 with
                  | error e => rfl
                  | ok info =>
                      simp only [check_ok, Prog.ret_bind, run_checkExpiry_bind, ensure_eq]
                      cases guardWith (env.unexpired info.expiresAt) .gone with
                      | error e => rfl
                      | ok _ =>
                          simp only [check_ok, Prog.ret_bind]
                          cases guardWith info.isComplete .uploadNotReadyForDownload <;> rfl

/-- The body of a download notes its own upload, if any. -/
theorem notes_send {id : UploadId} {info : UploadInfo} {s : σ × List UploadId} {l : List Obs} :
    ((send h id info).run (handlerInterp (noting bytesOf impl) env) ⟨s, l⟩).2.store.2 =
      s.2 ++ bytesOf (.readContent id) (impl (.readContent id) s.1).1 := by
  rw [send, Prog.bind_eq, run_readContent_bind]
  cases hread : (impl (.readContent id) s.1).1 <;> simp [noting, hread, bytesOf]

/-- A download hands out at most an upload that it has found unexpired. -/
theorem unexpired_of_mem (hreads : PureReads impl) (hmethod : req.method = .get)
    (hid : id ∈ handedOut h impl env req w) :
    ∃ info, (impl (.getInfo id) w.store).1 = .ok info ∧ env.unexpired info.expiresAt = true := by
  rw [handedOut_eq, TusHandler.dispatch, hmethod] at hid
  simp only [run_handle (bytesOf_reads hreads)] at hid
  cases hadmission : admission (noting bytesOf impl) h env req (w.store, []) with
  | error e => simp [hadmission] at hid
  | ok r =>
      obtain ⟨i, info⟩ := r
      simp only [hadmission, check_ok, Prog.ret_bind, notes_send, List.nil_append] at hid
      simp only [admission, bind_eq_ok, guardWith_eq_ok, pure, Except.pure, Except.ok.injEq,
        Prod.mk.injEq] at hadmission
      obtain ⟨_, -, i, -, _, -, _, -, info, hinfo, _, hexpiry, _, -, rfl, rfl⟩ := hadmission
      obtain rfl : id = i := by
        unfold bytesOf at hid
        split at hid
        · next heq _ =>
            cases heq
            exact List.mem_singleton.mp hid
        · next heq _ => cases heq
        · cases hid
      exact ⟨info, hinfo, hexpiry⟩

end Get

/-! ## Final uploads -/

namespace Post

theorem fetched_noting {s : σ × List UploadId} (ids : List UploadId) :
    fetched (noting bytesOf impl) s ids = fetched impl s.1 ids := by
  induction ids with
  | nil => rfl
  | cons id ids ih => simp only [fetched, ih, noting]

/-- The uploads a final upload is copied from. -/
def copied (impl : Interp StoreSig σ) (h : TusHandler) (p : Parsed) (info : UploadInfo) (s : σ) :
    List UploadId :=
  if p.isFinal && h.config.extensions.concatenation then
    match fetched impl s info.partialUploads with
    | .ok infos => bytesOf (.concatenate info.id infos) (impl (.concatenate info.id infos) s).1
    | .error _ => []
  else []

theorem joining_notes {p : Parsed} {info : UploadInfo} {s : σ × List UploadId} :
    (joining (noting bytesOf impl) h p info s).2.2 = s.2 ++ copied impl h p info s.1 := by
  unfold joining copied
  split
  · rw [fetched_noting]
    cases fetched impl s.1 info.partialUploads with
    | error e => simp
    | ok infos => rfl
  · simp

theorem writing_notes {id : UploadId} {s : σ × List UploadId} :
    (writing (noting bytesOf impl) h req id s).2.2 = s.2 := by
  unfold writing
  cases uploadBody h req with
  | none => rfl
  | some body => exact noting_snd (fun _ => rfl) s

theorem filling_notes {p : Parsed} {info : UploadInfo} {s : σ × List UploadId} :
    (filling (noting bytesOf impl) h env req p info s).2.2 = s.2 ++ copied impl h p info s.1 := by
  let I (s' : σ × List UploadId) : Prop := s'.2 = s.2 ++ copied impl h p info s.1
  unfold filling
  refine andThen_preserves (I := I) joining_notes fun _ s₁ hjoining => ?_
  have hjoined : I s₁ := by
    have hnotes := @joining_notes _ impl h p info s
    rwa [hjoining] at hnotes
  refine andThen_preserves (I := I) (writing_notes.trans hjoined) fun bytesWritten s₂ hwriting => ?_
  have hwritten : I s₂ := by
    have hnotes := @writing_notes _ impl h req info.id s₁
    rw [hwriting] at hnotes
    exact hnotes.trans hjoined
  refine andThen_preserves (I := I) hwritten fun finalInfo s₃ hchecking => ?_
  obtain ⟨-, rfl⟩ := Prod.mk.inj hchecking
  exact (tidying_notes fun _ _ => rfl).trans hwritten

/-- A creation that has its slot hands out what its final upload is copied from. -/
theorem fill_notes (hreads : PureReads impl) {p : Parsed} {info : UploadInfo}
    {s : σ × List UploadId} {l : List Obs} :
    ((fill h req p info).run (handlerInterp (noting bytesOf impl) env) ⟨s, l⟩).2.store.2 =
      s.2 ++ copied impl h p info s.1 := by
  obtain ⟨m, hrun⟩ := @run_fill _ (noting bytesOf impl) h env req (bytesOf_reads hreads) p info
    ⟨s, l⟩
  rw [hrun, ← @filling_notes _ impl h env req p info s]
  rcases filling (noting bytesOf impl) h env req p info s with ⟨e | finalInfo, s'⟩
  · rfl
  · simp only [check_ok, Prog.ret_bind]
    obtain ⟨m', hfinish, -⟩ := @run_finish _ (noting bytesOf impl) h env req info.id finalInfo
      ⟨s', l ++ m⟩
    rw [hfinish]
    change (finishing (noting bytesOf impl) h env req info.id finalInfo s').2.2 = s'.2
    rw [finishing_snd, completing_notes fun _ _ => rfl]

/-- What a creation hands out. -/
theorem handedOut_post (hreads : PureReads impl) (hmethod : req.method = .post) :
    (∀ e, prepare h env req = .error e → handedOut h impl env req w = []) ∧
    ∀ p info s, prepare h env req = .ok (p, info) →
      impl (.createUpload info) w.store = (.ok (), s) →
      handedOut h impl env req w = copied impl h p info s := by
  rw [handedOut_eq, TusHandler.dispatch, hmethod]
  simp only [run_handle]
  constructor
  · intro e hprepare
    rw [hprepare]
  · intro p info s hprepare hcreate
    rw [hprepare]
    have hnoting : noting bytesOf impl (.createUpload info) (w.store, []) = (.ok (), (s, [])) := by
      simp [noting, hcreate, bytesOf]
    simp only [create, Prog.bind_eq, run_createUpload_bind, hnoting, check_ok, Prog.ret_bind,
      fill_notes hreads, List.nil_append]

end Post

end Fileloft
