import Fileloft.Core.Key
import Fileloft.Server.Rules
import Mathlib.Data.List.Forall2

/-!
# POST over any store

A creation first settles its record without touching the store. A final
creation that is answered then went through each of its store calls.
-/

namespace Fileloft.Post

open Handler

variable {σ : Type} {impl : Interp StoreSig σ} {h : TusHandler} {env : Env} {req : TusRequest}

/-- The expiry of a new upload at the clock of the request. -/
def expiryAnswer (h : TusHandler) (env : Env) : Except Halt (Option DateTime) :=
  if h.config.extensions.expiration then
    match h.config.extensions.expirationTtl with
    | some ttl =>
      match durationFromStd ttl with
      | .error e => .error (.error e)
      | .ok d => if env.clock + d ≤ MAX_UTC then .ok (some (env.clock + d)) else .error .panic
    | none => .ok none
  else .ok none

theorem run_expiry_bind {β : Type} (w : World σ) (f : Option DateTime → Handler β) :
    ((expiry h).bind f).run (handlerInterp impl env) w =
      ((Prog.ofExcept (expiryAnswer h env)).bind f).run (handlerInterp impl env) w := by
  unfold expiry expiryAnswer
  split
  · cases h.config.extensions.expirationTtl with
    | none => rfl
    | some ttl =>
        simp only [Prog.bind_eq, Prog.bind_assoc, run_now_bind]
        cases durationFromStd ttl with
        | error e => rfl
        | ok d =>
            simp only [check_ok, Prog.ret_bind]
            split <;> rfl
  · rfl

/-- The headers and the record of a creation, before any store call. -/
def prepare (h : TusHandler) (env : Env) (req : TusRequest) :
    Except Halt (Parsed × UploadInfo) := do
  let p ← haltWith (parseRequest h req)
  let info ← haltWith (buildInfo h p (UploadId.new env.uuid))
  let expiresAt ← expiryAnswer h env
  let info ← haltWith (env.createAnswer h { info with expiresAt })
  return (p, info)

theorem run_handle (w : World σ) :
    (handle h req).run (handlerInterp impl env) w =
      match prepare h env req with
      | .ok (p, info) => (create h req p info).run (handlerInterp impl env) w
      | .error e => (.error e, w) := by
  unfold handle prepare
  simp only [Prog.bind_eq]
  cases parseRequest h req with
  | error e => rfl
  | ok p =>
      simp only [check_ok, Prog.ret_bind, run_newUuid_bind, haltWith, bind, Except.bind]
      cases buildInfo h p (UploadId.new env.uuid) with
      | error e => rfl
      | ok info =>
          simp only [check_ok, Prog.ret_bind, run_expiry_bind]
          cases expiryAnswer h env with
          | error e => rfl
          | ok expiresAt =>
              simp only [Prog.ofExcept_ok, Prog.ret_bind, run_preCreate_bind]
              cases env.createAnswer h { info with expiresAt } with
              | error e => rfl
              | ok info' => rfl

/-- A creation whose record is not settled leaves the world as it was. -/
theorem serve_unprepared {w : World σ} {e : Halt} (hmethod : req.method = .post)
    (hprepare : prepare h env req = .error e) : (serve h impl env req w).2 = w := by
  rw [serve_eq, TusHandler.dispatch, hmethod]
  change ((handle h req).run (handlerInterp impl env) w).2 = w
  rw [run_handle, hprepare]

/-- What the settled record is, field by field. -/
structure Prepared (h : TusHandler) (req : TusRequest) (p : Parsed) (info : UploadInfo) : Prop where
  parsed : parseRequest h req = .ok p
  partials : partialIds h p = .ok info.partialUploads
  isFinal : info.isFinal = p.isFinal
  isPartial : info.isPartial = p.isPartial
  size : info.size = p.uploadLength
  deferred : info.sizeIsDeferred = p.defer
  offset : info.offset = 0

theorem createAnswer_ok {info info' : UploadInfo} (hok : env.createAnswer h info = .ok info') :
    info'.size = info.size ∧ info'.offset = info.offset ∧
      info'.sizeIsDeferred = info.sizeIsDeferred ∧ info'.expiresAt = info.expiresAt ∧
      info'.isPartial = info.isPartial ∧ info'.isFinal = info.isFinal ∧
      info'.partialUploads = info.partialUploads ∧
      (info'.id = info.id ∨ info'.id.Valid) := by
  unfold Env.createAnswer at hok
  split at hok
  · cases hpre : env.preCreate info with
    | error e => simp [hpre] at hok
    | ok changes =>
        simp only [hpre] at hok
        cases hid : changes.id with
        | none =>
            simp only [hid, Except.ok.injEq] at hok
            subst hok
            simp
        | some newId =>
            simp only [hid] at hok
            cases hvalid : newId.validate with
            | error e => simp [hvalid] at hok
            | ok _ =>
                simp only [hvalid, Except.ok.injEq] at hok
                subst hok
                exact ⟨rfl, rfl, rfl, rfl, rfl, rfl, rfl, .inr hvalid⟩
  · simp only [Except.ok.injEq] at hok
    subst hok
    simp

/-- What the headers of an accepted creation say about concatenation. -/
theorem parseRequest_ok {p : Parsed} (hok : parseRequest h req = .ok p) :
    p.concatHeader = HeaderMap.getStr req.headers .uploadConcat ∧
      p.isFinal = isFinalHeader p.concatHeader ∧
      p.isPartial = (p.concatHeader == some "partial".toList) ∧
      (p.isFinal = true → h.config.extensions.concatenation = true) := by
  simp only [parseRequest, bind_eq_ok, guardWith_eq_ok, refuseIf_eq_ok, pure, Except.pure,
    Except.ok.injEq] at hok
  obtain ⟨_, -, _, -, _, hconcat, _, -, _, -, _, -, _, -, _, -, rfl⟩ := hok
  exact ⟨rfl, rfl, rfl, by simpa using hconcat⟩

/-- No upload is created both final and partial. -/
theorem isPartial_of_isFinal {p : Parsed} (hok : parseRequest h req = .ok p)
    (hfinal : p.isFinal = true) : p.isPartial = false := by
  obtain ⟨-, hfinal', hpart, -⟩ := parseRequest_ok hok
  rw [hpart, beq_eq_false_iff_ne]
  intro heq
  rw [hfinal', heq] at hfinal
  revert hfinal
  decide

theorem prepare_ok {p : Parsed} {info : UploadInfo} (hok : prepare h env req = .ok (p, info)) :
    Prepared h req p info := by
  simp only [prepare, buildInfo, bind_eq_ok, haltWith_eq_ok, pure, Except.pure, Except.ok.injEq,
    Prod.mk.injEq] at hok
  obtain ⟨p', hparsed, _, ⟨ids, hids, rfl⟩, expiresAt, -, info', hcreate, rfl, rfl⟩ := hok
  obtain ⟨hsize, hoffset, hdeferred, -, hpart, hfinal, hids', -⟩ := createAnswer_ok hcreate
  exact ⟨hparsed, by rw [hids, hids'], hfinal, hpart, hsize, hdeferred, hoffset⟩

/-- The id of a settled record is accepted. -/
theorem prepare_valid {p : Parsed} {info : UploadInfo} (hok : prepare h env req = .ok (p, info)) :
    info.id.Valid := by
  simp only [prepare, buildInfo, bind_eq_ok, haltWith_eq_ok, pure, Except.pure, Except.ok.injEq,
    Prod.mk.injEq] at hok
  obtain ⟨p', -, _, ⟨ids, -, rfl⟩, expiresAt, -, info', hcreate, -, rfl⟩ := hok
  rcases (createAnswer_ok hcreate).2.2.2.2.2.2.2 with hid | hvalid
  · rw [hid]
    exact UploadId.valid_new env.uuid
  · exact hvalid

theorem Prepared.not_isPartial {p : Parsed} {info : UploadInfo} (hp : Prepared h req p info)
    (hfinal : p.isFinal = true) : info.isPartial = false := by
  rw [hp.isPartial]
  exact isPartial_of_isFinal hp.parsed hfinal

theorem Prepared.concatenation {p : Parsed} {info : UploadInfo} (hp : Prepared h req p info)
    (hfinal : p.isFinal = true) : h.config.extensions.concatenation = true :=
  (parseRequest_ok hp.parsed).2.2.2 hfinal

/-! ## Final uploads -/

variable (impl) in
/-- The records of the named partials in one state of the store. -/
def fetched (s : σ) : List UploadId → Except TusError (List UploadInfo)
  | [] => .ok []
  | id :: ids => do
    (impl (.getUpload id) s).1
    let info ← (impl (.getInfo id) s).1
    guardWith info.isPartial (.notPartialUpload id.val)
    guardWith info.isComplete (.partialUploadIncomplete id.val)
    let infos ← fetched s ids
    return info :: infos

theorem run_fetchPartialInfos (hreads : PureReads impl) (w : World σ) (ids : List UploadId) :
    (fetchPartialInfos ids).run (handlerInterp impl env) w =
      (haltWith (fetched impl w.store ids), w) := by
  induction ids with
  | nil => rfl
  | cons id ids ih =>
      simp only [fetchPartialInfos, fetched, run_getUpload_bind, hreads.getUpload, bind,
        Except.bind]
      cases (impl (.getUpload id) w.store).1 with
      | error e => rfl
      | ok _ =>
          simp only [check_ok, Prog.ret_bind, run_getInfo_bind, hreads.getInfo]
          cases (impl (.getInfo id) w.store).1 with
          | error e => rfl
          | ok info =>
              simp only [check_ok, Prog.ret_bind, ensure_eq]
              cases hpart : info.isPartial with
              | false => rfl
              | true =>
                  cases hcomplete : info.isComplete with
                  | false => rfl
                  | true =>
                      simp only [guardWith, if_true, check_ok, Prog.ret_bind]
                      rw [Prog.run_bind, ih]
                      cases fetched impl w.store ids <;> rfl

/-- A partial a final upload may name, with its record. -/
structure IsPart (impl : Interp StoreSig σ) (s : σ) (id : UploadId) (info : UploadInfo) : Prop where
  found : (impl (.getUpload id) s).1 = .ok ()
  stored : (impl (.getInfo id) s).1 = .ok info
  isPartial : info.isPartial = true
  isComplete : info.isComplete = true

theorem exists_forall₂_iff {α β : Type} {R : α → β → Prop} {l : List α} :
    (∃ m, List.Forall₂ R l m) ↔ ∀ a ∈ l, ∃ b, R a b := by
  induction l with
  | nil => simp
  | cons a l ih =>
      rw [List.forall_mem_cons, ← ih]
      constructor
      · rintro ⟨_, hall⟩
        obtain ⟨b, m, hb, hm, rfl⟩ := List.forall₂_cons_left_iff.mp hall
        exact ⟨⟨b, hb⟩, m, hm⟩
      · rintro ⟨⟨b, hb⟩, m, hm⟩
        exact ⟨b :: m, .cons hb hm⟩

theorem fetched_eq_ok {s : σ} {ids : List UploadId} {infos : List UploadInfo} :
    fetched impl s ids = .ok infos ↔ List.Forall₂ (IsPart impl s) ids infos := by
  induction ids generalizing infos with
  | nil => simp [fetched, eq_comm]
  | cons id ids ih =>
      simp only [fetched, bind_eq_ok, guardWith_eq_ok, pure, Except.pure, Except.ok.injEq,
        List.forall₂_cons_left_iff]
      constructor
      · rintro ⟨_, hfound, info, hstored, _, hpart, _, hcomplete, rest, hrest, rfl⟩
        exact ⟨info, rest, ⟨hfound, hstored, hpart, hcomplete⟩, ih.mp hrest, rfl⟩
      · rintro ⟨info, rest, hpart, hrest, rfl⟩
        exact ⟨(), hpart.found, info, hpart.stored, (), hpart.isPartial, (), hpart.isComplete,
          rest, ih.mpr hrest, rfl⟩

/-- The store calls of a final creation without cleanup that is answered,
with the states between them. -/
structure FinalCalls (impl : Interp StoreSig σ) (h : TusHandler) (req : TusRequest)
    (info : UploadInfo) (infos : List UploadInfo) (finalInfo : UploadInfo)
    (s s₁ s₂ s₃ s' : σ) : Prop where
  create : impl (.createUpload info) s = (.ok (), s₁)
  parts : List.Forall₂ (IsPart impl s₁) info.partialUploads infos
  concatenate : impl (.concatenate info.id infos) s₁ = (.ok (), s₂)
  body : uploadBody h req = none ∧ s₃ = s₂ ∨
    ∃ body n, uploadBody h req = some body ∧ impl (.writeChunk info.id 0 body) s₂ = (.ok n, s₃)
  stored : (impl (.getInfo info.id) s₃).1 = .ok finalInfo
  finish : finalInfo.isComplete = false ∧ s' = s₃ ∨
    finalInfo.isComplete = true ∧ impl (.finalize info.id) s₃ = (.ok (), s')

theorem run_finish_ok {w w' : World σ} {id : UploadId} {finalInfo : UploadInfo}
    {resp : TusResponse}
    (hrun : (finish h req id finalInfo).run (handlerInterp impl env) w = (.ok resp, w')) :
    finalInfo.isComplete = false ∧ w'.store = w.store ∨
      finalInfo.isComplete = true ∧ impl (.finalize id) w.store = (.ok (), w'.store) := by
  simp only [finish, Prog.bind_eq, run_emit_bind] at hrun
  obtain ⟨_, w₁, hfinish, hrest⟩ := Prog.run_bind_eq_ok hrun
  have hsame : w' = w₁ := by
    cases hheaders : createdHeaders h req finalInfo with
    | error e => simp [hheaders] at hrest
    | ok m => simpa [hheaders, eq_comm] using (Prod.mk.inj hrest).2
  subst hsame
  obtain ⟨r, w₂, hrun₂, houtcome⟩ := run_finishIfComplete impl env h
    (World.afterEmit h w (.uploadCreated finalInfo)) id finalInfo
  obtain ⟨rfl, rfl⟩ := Prod.mk.inj (hfinish.symm.trans hrun₂)
  cases houtcome with
  | incomplete hincomplete => exact .inl ⟨hincomplete, World.afterEmit_store ..⟩
  | finished _ hcomplete _ hfinal hstore _ =>
      rw [World.afterEmit_store] at hfinal hstore
      exact .inr ⟨hcomplete, Prod.ext hfinal hstore.symm⟩

theorem run_assemble_final (hreads : PureReads impl) {p : Parsed} {info : UploadInfo}
    {w w' : World σ} (hfinal : p.isFinal = true)
    (hconcat : h.config.extensions.concatenation = true)
    (hrun : (assemble h p info).run (handlerInterp impl env) w = (.ok (), w')) :
    ∃ infos, List.Forall₂ (IsPart impl w.store) info.partialUploads infos ∧
      impl (.concatenate info.id infos) w.store = (.ok (), w'.store) := by
  simp only [assemble, hfinal, hconcat, Bool.and_self, if_true, Prog.bind_eq] at hrun
  obtain ⟨infos, w₁, hfetch, hrun⟩ := Prog.run_bind_eq_ok hrun
  rw [run_fetchPartialInfos hreads] at hfetch
  obtain ⟨hinfos, rfl⟩ := Prod.mk.inj hfetch
  refine ⟨infos, fetched_eq_ok.mp (haltWith_eq_ok.mp hinfos), ?_⟩
  rw [run_concatenate] at hrun
  obtain ⟨hok, rfl⟩ := Prod.mk.inj hrun
  exact Prod.ext (haltWith_eq_ok.mp hok) rfl

theorem run_writeBody_ok {w w' : World σ} {id : UploadId} {n : ℕ}
    (hrun : (writeBody h req id).run (handlerInterp impl env) w = (.ok n, w')) :
    uploadBody h req = none ∧ w'.store = w.store ∨
      ∃ body n, uploadBody h req = some body ∧
        impl (.writeChunk id 0 body) w.store = (.ok n, w'.store) := by
  unfold writeBody at hrun
  cases hbody : uploadBody h req with
  | none =>
      simp only [hbody] at hrun
      obtain ⟨-, rfl⟩ := Prod.mk.inj hrun
      exact .inl ⟨rfl, rfl⟩
  | some body =>
      simp only [hbody] at hrun
      rw [run_writeChunk] at hrun
      obtain ⟨hok, rfl⟩ := Prod.mk.inj hrun
      exact .inr ⟨body, n, rfl, Prod.ext (haltWith_eq_ok.mp hok) rfl⟩

theorem run_create_final (hreads : PureReads impl) {p : Parsed} {info : UploadInfo}
    {w w' : World σ} {resp : TusResponse} (hfinal : p.isFinal = true)
    (hconcat : h.config.extensions.concatenation = true)
    (hkeep : h.config.extensions.cleanupConcatPartials = false)
    (hrun : (create h req p info).run (handlerInterp impl env) w = (.ok resp, w')) :
    ∃ infos finalInfo s₁ s₂ s₃,
      FinalCalls impl h req info infos finalInfo w.store s₁ s₂ s₃ w'.store := by
  simp only [create, Prog.bind_eq, run_createUpload_bind] at hrun
  rcases hcreate : impl (.createUpload info) w.store with ⟨_ | _, s₁⟩
  · simp [hcreate] at hrun
  simp only [hcreate, check_ok, Prog.ret_bind, fill, Prog.bind_eq] at hrun
  obtain ⟨_, w₂, hassemble, hrun⟩ := Prog.run_bind_eq_ok hrun
  obtain ⟨n, w₃, hbody, hrun⟩ := Prog.run_bind_eq_ok hrun
  simp only [run_getInfo_bind, hreads.getInfo] at hrun
  rcases hinfo : (impl (.getInfo info.id) w₃.store).1 with _ | finalInfo
  · simp [hinfo] at hrun
  simp only [hinfo, check_ok, Prog.ret_bind] at hrun
  cases hlength : withinLength finalInfo n with
  | error e => simp [hlength] at hrun
  | ok _ =>
      simp only [hlength, check_ok, Prog.ret_bind, cleanup, hfinal, hconcat, hkeep, Bool.and_false,
        Bool.false_eq_true, if_false, Prog.pure_eq] at hrun
      obtain ⟨infos, hparts, hconcatenate⟩ := run_assemble_final hreads hfinal hconcat hassemble
      exact ⟨infos, finalInfo, s₁, w₂.store, w₃.store, hcreate, hparts, hconcatenate,
        run_writeBody_ok hbody, hinfo, run_finish_ok hrun⟩

theorem run_cleanup_ok (hreads : PureReads impl) {p : Parsed} {id : UploadId}
    {finalInfo finalInfo' : UploadInfo} {w w' : World σ}
    (hstored : (impl (.getInfo id) w.store).1 = .ok finalInfo)
    (hrun : (cleanup h p id finalInfo).run (handlerInterp impl env) w = (.ok finalInfo', w')) :
    (impl (.getInfo id) w'.store).1 = .ok finalInfo' := by
  unfold cleanup at hrun
  split at hrun
  · obtain ⟨_, w₁, -, hrun⟩ := Prog.run_bind_eq_ok hrun
    rw [run_getInfo] at hrun
    obtain ⟨hinfo, rfl⟩ := Prod.mk.inj hrun
    rw [hreads.getInfo]
    exact haltWith_eq_ok.mp hinfo
  · obtain ⟨hinfo, rfl⟩ := Prod.mk.inj hrun
    cases hinfo
    exact hstored

theorem run_create_ok (hreads : PureReads impl) {p : Parsed} {info : UploadInfo} {w w' : World σ}
    {resp : TusResponse}
    (hrun : (create h req p info).run (handlerInterp impl env) w = (.ok resp, w')) :
    (impl (.createUpload info) w.store).1 = .ok () ∧
      ∃ s finalInfo, Ends impl info.id s w'.store finalInfo := by
  simp only [create, fill, Prog.bind_eq, run_createUpload_bind] at hrun
  cases hcreate : (impl (.createUpload info) w.store).1 with
  | error e => simp [hcreate] at hrun
  | ok _ =>
      simp only [hcreate, check_ok, Prog.ret_bind] at hrun
      obtain ⟨_, w₂, -, hrun⟩ := Prog.run_bind_eq_ok hrun
      obtain ⟨n, w₃, -, hrun⟩ := Prog.run_bind_eq_ok hrun
      obtain ⟨finalInfo, w₄, hget, hrun⟩ := Prog.run_bind_eq_ok hrun
      rw [run_getInfo] at hget
      obtain ⟨hinfo, rfl⟩ := Prod.mk.inj hget
      obtain ⟨_, w₅, hlength, hrun⟩ := Prog.run_bind_eq_ok hrun
      rw [run_check] at hlength
      obtain ⟨-, rfl⟩ := Prod.mk.inj hlength
      obtain ⟨finalInfo', w₆, hcleanup, hrun⟩ := Prog.run_bind_eq_ok hrun
      have hstored := run_cleanup_ok hreads
        (by simpa [hreads.getInfo] using haltWith_eq_ok.mp hinfo) hcleanup
      exact ⟨rfl, w₆.store, finalInfo', hstored, run_finish_ok hrun⟩

/-- A creation that is answered settled a record and ran to its end. -/
theorem run_create_of_status {w : World σ} {resp : TusResponse} (hmethod : req.method = .post)
    (hresp : (serve h impl env req w).1 = some resp) (hstatus : resp.status < 400) :
    ∃ p info, prepare h env req = .ok (p, info) ∧
      (create h req p info).run (handlerInterp impl env) w =
        (.ok resp, (serve h impl env req w).2) := by
  have hrun := run_dispatch_of_status hresp hstatus
  rw [TusHandler.dispatch, hmethod] at hrun
  change (handle h req).run (handlerInterp impl env) w = _ at hrun
  rw [run_handle] at hrun
  rcases hprepare : prepare h env req with e | ⟨p, info⟩
  · simp [hprepare] at hrun
  · simp only [hprepare] at hrun
    exact ⟨p, info, rfl, hrun⟩

end Fileloft.Post
