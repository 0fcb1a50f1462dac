import Fileloft.Memory.Store
import Fileloft.Server.Fixture
import Fileloft.Server.Patch

/-!
# PATCH over the in-memory store

An admitted PATCH declares its length, then reads and checks its chunk. A
chunk that is refused leaves the declaration behind.
-/

namespace Fileloft.MemoryStore

open Handler Patch

section Run

variable {h : TusHandler} {env : Env} {req : TusRequest} {st : MemoryStore} {w : World MemoryStore}
  {id : UploadId} {info : UploadInfo} {size : Option ℕ}

theorem entry_of_admits (ha : Admits interp h env req st id info size) :
    ∃ entry, st id = some entry ∧ entry.info = info := by
  have hstored := ha.stored
  simp only [interp, getInfo] at hstored
  cases hentry : st id with
  | none => simp [hentry] at hstored
  | some entry => exact ⟨entry, rfl, by simpa [hentry] using hstored⟩

/-- The store once the length a request declares is recorded. -/
def declared (st : MemoryStore) (id : UploadId) (size : Option ℕ) : MemoryStore :=
  match size with
  | some declaredSize => (declareLength st id declaredSize).2
  | none => st

theorem declareLength_admitted {declaredSize : ℕ}
    (ha : Admits interp h env req st id info (some declaredSize)) :
    declareLength st id declaredSize = (.ok (), declared st id (some declaredSize)) := by
  obtain ⟨entry, hentry, rfl⟩ := entry_of_admits ha
  have hnone := (declaredLength_eq_some ha.length).1
  simp [declared, declareLength, hentry, hnone]

/-- A declared length shows in the store. -/
theorem declared_ne {declaredSize : ℕ}
    (ha : Admits interp h env req st id info (some declaredSize)) :
    declared st id (some declaredSize) ≠ st := by
  obtain ⟨entry, hentry, rfl⟩ := entry_of_admits ha
  have hnone := (declaredLength_eq_some ha.length).1
  intro heq
  have hsame := congrFun heq id
  simp only [declared, declareLength, hentry, hnone, Option.isSome_none, Bool.false_eq_true,
    if_false, Function.update_self, Option.some.injEq] at hsame
  have hsize := congrArg (fun entry => entry.info.size) hsame
  simp [hnone] at hsize

/-- The bytes a request appends to an upload: read, verified, and inside the
length the upload then has. -/
structure Appends (h : TusHandler) (req : TusRequest) (info : UploadInfo) (size : Option ℕ)
    (buf : Bytes) : Prop where
  read : chunkReader h req = .ok (.ok buf)
  bounded : info.offset + buf.length < U64_BOUND
  fits : ∀ declaredSize, size.or info.size = some declaredSize →
    info.offset + buf.length ≤ declaredSize

theorem declared_entry (ha : Admits interp h env req st id info size) :
    ∃ entry, st id = some entry ∧ entry.info = info ∧
      ∃ entry', declared st id size id = some entry' ∧ entry'.info.size = size.or info.size ∧
        entry'.data = entry.data := by
  obtain ⟨entry, hentry, rfl⟩ := entry_of_admits ha
  refine ⟨entry, hentry, rfl, ?_⟩
  cases size with
  | none => exact ⟨entry, hentry, rfl, rfl⟩
  | some declaredSize =>
      have hnone := (declaredLength_eq_some ha.length).1
      refine ⟨{ entry with info := { entry.info with
        size := some declaredSize, sizeIsDeferred := false } }, ?_, by simp, rfl⟩
      simp [declared, declareLength, hentry, hnone]

theorem writeChunk_isSome {entry : MemoryUploadState} {offset : ℕ} {reader : Reader}
    (hentry : st id = some entry) :
    ∃ entry', (writeChunk st id offset reader).2 id = some entry' := by
  unfold writeChunk
  cases reader with
  | error e => exact ⟨entry, hentry⟩
  | ok buf =>
      simp only [hentry]
      cases chunkEnd entry.info offset buf.length with
      | error e => exact ⟨entry, hentry⟩
      | ok finish => exact ⟨_, Function.update_self ..⟩

theorem run_accept (ha : Admits interp h env req w.store id info size) :
    (∃ buf, Appends h req info size buf ∧
      (accept h req id info.offset size).run (handlerInterp interp env) w =
        (finish h id).run (handlerInterp interp env) { w with
          store := (writeChunk (declared w.store id size) id info.offset (.ok buf)).2 }) ∨
    ∃ e, (∀ buf, ¬ Appends h req info size buf) ∧
      (accept h req id info.offset size).run (handlerInterp interp env) w =
        (.error (.error e), { w with store := declared w.store id size }) := by
  have hdeclare : (accept h req id info.offset size).run (handlerInterp interp env) w =
      ((check (chunkReader h req)).bind fun reader =>
        (Handler.writeChunk id info.offset reader).bind fun _ => finish h id).run
        (handlerInterp interp env) { w with store := declared w.store id size } := by
    cases size with
    | none => rfl
    | some declaredSize =>
        simp only [accept, Prog.bind_eq, run_declareLength_bind, interp,
          declareLength_admitted ha]
        rfl
  rw [hdeclare]
  obtain ⟨entry, hentry, rfl, entry', hentry', hsize, -⟩ := declared_entry ha
  cases hreader : chunkReader h req with
  | error e =>
      refine .inr ⟨e, fun buf happends => ?_, rfl⟩
      have hread := happends.read
      rw [hreader] at hread
      cases hread
  | ok reader =>
      simp only [check_ok, Prog.ret_bind, run_writeChunk_bind, interp]
      cases reader with
      | error e =>
          refine .inr ⟨.io e, fun buf happends => ?_, rfl⟩
          have hread := happends.read
          rw [hreader] at hread
          cases hread
      | ok buf =>
          cases hend : chunkEnd entry'.info entry.info.offset buf.length with
          | error e =>
              refine .inr ⟨e, fun buf' happends => ?_, ?_⟩
              · have hread := happends.read
                rw [hreader] at hread
                cases hread
                have hok := chunkEnd_eq_ok.mpr ⟨rfl, happends.bounded, hsize ▸ happends.fits⟩
                rw [hend] at hok
                cases hok
              · simp [writeChunk, hentry', hend]
          | ok finish =>
              obtain ⟨-, hbounded, hfits⟩ := chunkEnd_eq_ok.mp hend
              refine .inl ⟨buf, ⟨hreader, hbounded, hsize ▸ hfits⟩, ?_⟩
              simp [writeChunk, hentry', hend]

/-- Completion changes nothing in memory, and only the `pre_finish` callback
can refuse it. -/
theorem run_finish {entry : MemoryUploadState} (hentry : w.store id = some entry) :
    ((finish h id).run (handlerInterp interp env) w).2.store = w.store ∧
      ((∃ resp, ((finish h id).run (handlerInterp interp env) w).1 = .ok resp ∧
          resp.status = 204) ∨
        ∃ e, ((finish h id).run (handlerInterp interp env) w).1 = .error (.error e) ∧
          Obs.preFinish entry.info (.error e) ∈
            w.news ((finish h id).run (handlerInterp interp env) w).2) := by
  have hinfo : (interp (.getInfo id) w.store).1 = .ok entry.info := by
    simp [interp, getInfo, hentry]
  rw [Patch.run_finish pureReads, hinfo]
  obtain ⟨l, hlog⟩ := World.afterEmit_log h w (.uploadProgress entry.info)
  obtain ⟨r, w', hrun, houtcome⟩ := run_finishIfComplete interp env h
    (World.afterEmit h w (.uploadProgress entry.info)) id entry.info
  simp only [hrun]
  cases houtcome with
  | incomplete _ => exact ⟨World.afterEmit_store .., .inl ⟨_, rfl, rfl⟩⟩
  | vetoed e _ _ _ hstore hveto =>
      refine ⟨hstore.trans (World.afterEmit_store ..), .inr ⟨e, rfl, ?_⟩⟩
      simp [World.news, hveto, hlog]
  | failed e _ _ _ hfinal _ => cases hfinal
  | finished _ _ _ _ hstore _ =>
      exact ⟨hstore.trans (World.afterEmit_store ..), .inl ⟨_, rfl, rfl⟩⟩

/-- A refused PATCH leaves every upload as it was, and that holds exactly for
the requests whose chunk is acceptable whenever they declare a length. -/
theorem patch_error_unchanged_iff (x : Exchange backend) (w : World MemoryStore)
    (hmethod : x.req.method = .patch) :
    (∀ resp, (backend.serve h x w).1 = some resp → 400 ≤ resp.status →
      (∀ info e, Obs.preFinish info (.error e) ∉ w.news (backend.serve h x w).2) →
      (backend.serve h x w).2.store = w.store) ↔
    ∀ id info declaredSize, Admits interp h x.env x.req w.store id info (some declaredSize) →
      ∃ buf, Appends h x.req info (some declaredSize) buf := by
  have hserve : backend.serve h x w =
      (respond h ((Patch.handle h x.req).run (handlerInterp interp x.env) w).1,
        ((Patch.handle h x.req).run (handlerInterp interp x.env) w).2) := by
    have heq := serve_eq interp x.env h w x.req
    rw [TusHandler.dispatch, hmethod] at heq
    exact heq
  rw [hserve, Patch.run_handle pureReads]
  cases hadm : admission interp h x.env x.req w.store with
  | error e =>
      refine iff_of_true (fun _ _ _ _ => rfl) fun id info declaredSize ha => ?_
      rw [admission_eq_ok.mpr ha] at hadm
      cases hadm
  | ok r =>
      obtain ⟨id, info, size⟩ := r
      have ha := admission_eq_ok.mp hadm
      rcases run_accept ha with ⟨buf, happends, hrun⟩ | ⟨e, hnone, hrun⟩
      · have happends' : ∀ id' info' declaredSize,
            Admits interp h x.env x.req w.store id' info' (some declaredSize) →
              ∃ buf, Appends h x.req info' (some declaredSize) buf := by
          intro id' info' declaredSize ha'
          obtain ⟨-, rfl, rfl⟩ := ha.unique ha'
          exact ⟨buf, happends⟩
        refine iff_of_true ?_ happends'
        obtain ⟨entry, hentry⟩ : ∃ entry,
            (writeChunk (declared w.store id size) id info.offset (.ok buf)).2 id = some entry := by
          obtain ⟨-, -, -, entry, hentry, -⟩ := declared_entry ha
          exact writeChunk_isSome hentry
        obtain ⟨hstore, ⟨resp, hresp, hstatus⟩ | ⟨e, hresp, hnews⟩⟩ :=
          @run_finish h x.env { w with
            store := (writeChunk (declared w.store id size) id info.offset (.ok buf)).2 } id entry
            hentry
        · intro resp' hresp' herror
          simp only [hrun, hresp, respond, Option.some.injEq] at hresp'
          subst hresp'
          omega
        · intro _ _ _ hcallback
          simp only [hrun] at hcallback
          exact absurd hnews (hcallback _ _)
      · simp only [hrun, respond, Option.some.injEq, forall_eq']
        cases size with
        | none =>
            refine iff_of_true (fun _ _ => rfl) fun id' info' declaredSize ha' => ?_
            cases (ha.unique ha').2.2
        | some declaredSize =>
            refine iff_of_false (fun hsame => ?_) fun hall => ?_
            · refine declared_ne ha (hsame (h.errorResponse_status e) fun _ _ => ?_)
              simp [World.news]
            · obtain ⟨buf, happends⟩ := hall id info declaredSize ha
              exact hnone buf happends

end Run

namespace DeferredPatch

def handler : TusHandler := ⟨{}, true, .fixed⟩

def env : Env := .permissive .a

/-- Create an upload whose length is not known yet. -/
def post : Exchange backend where
  req := .ofTexts .post none [(.tusResumable, "1.0.0"), (.uploadDeferLength, "1")] none
  env := env
  choice := ()

/-- Declare five bytes, and send one under the digest of another. -/
def patch : Exchange backend where
  req := .ofTexts .patch (some "a1234567-89ab-4cde-8fed-0123456789ab")
    [(.tusResumable, "1.0.0"), (.contentType, "application/offset+octet-stream"),
      (.uploadOffset, "0"), (.uploadLength, "5"), (.uploadChecksum, "sha1 AAAA")] (some [97])
  env := env
  choice := ()

def deferred : World MemoryStore := (backend.serve handler post backend.initial).2

end DeferredPatch

open DeferredPatch in
theorem patch_error_unchanged_iff_mismatch :
    (∀ resp, (backend.serve handler patch deferred).1 = some resp → 400 ≤ resp.status →
      (∀ info e, Obs.preFinish info (.error e) ∉
        deferred.news (backend.serve handler patch deferred).2) →
      (backend.serve handler patch deferred).2.store = deferred.store) ↔
    ∀ id info declaredSize,
      Admits interp handler patch.env patch.req deferred.store id info (some declaredSize) →
        ∃ buf, Appends handler patch.req info (some declaredSize) buf :=
  patch_error_unchanged_iff patch deferred rfl

open DeferredPatch in
/-- The checksum mismatch of a deferred upload leaves its length declared. -/
theorem patch_error_declares_length :
    backend.Reachable handler deferred ∧ patch.req.method = .patch ∧
      (backend.serve handler patch deferred).1.map TusResponse.status = some 460 ∧
      (∀ info e, Obs.preFinish info (.error e) ∉
        deferred.news (backend.serve handler patch deferred).2) ∧
      (backend.serve handler patch deferred).2.store ≠ deferred.store := by
  refine ⟨.step post .initial, rfl, by decide +kernel, ?_, fun hsame => ?_⟩
  · have hnews : deferred.news (backend.serve handler patch deferred).2 = [] := by rfl
    simp [hnews]
  · have hsize := congrArg (fun st : MemoryStore =>
      (st (.new env.uuid)).map fun entry => entry.info.size) hsame
    revert hsize
    decide +kernel

end Fileloft.MemoryStore
