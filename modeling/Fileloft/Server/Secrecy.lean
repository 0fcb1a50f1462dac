import Fileloft.Effect.Agree
import Fileloft.Server.Calls
import Fileloft.Server.Expiry

/-!
# Requests that differ in the bytes of one upload

Two stores that hide the bytes of an upload answer every call alike that does
not read them. Only a download of that upload does, since a final upload is
made of partials.
-/

namespace Fileloft

open Handler

variable {σ : Type}

/-- A call that does not depend on the bytes of `u`, and does not make it a
partial. -/
def Blind (u : UploadId) : StoreOp → Prop
  | .readContent id => id ≠ u
  | .createUpload info => info.id = u → info.isPartial = false
  | .concatenate _ partials => ∀ info ∈ partials, info.id ≠ u
  | _ => True

/-- States related by `R` differ at most in the bytes of `u`, which is not a
partial. -/
structure Hides (impl : Interp StoreSig σ) (R : σ → σ → Prop) (u : UploadId) : Prop where
  reads : PureReads impl
  blind : ∀ o s t, Blind u o → R s t →
    (impl o s).1 = (impl o t).1 ∧ R (impl o s).2 (impl o t).2
  whole : ∀ id s t info, R s t → (impl (.getInfo id) s).1 = .ok info →
    info.isPartial = true → info.id ≠ u
  written : ∀ offset buf buf' s t, R s t → buf.length = buf'.length →
    (impl (.writeChunk u offset (.ok buf)) s).1 = (impl (.writeChunk u offset (.ok buf')) t).1 ∧
      R (impl (.writeChunk u offset (.ok buf)) s).2 (impl (.writeChunk u offset (.ok buf')) t).2
  content : ∀ s t, R s t → R (impl (.readContent u) s).2 (impl (.readContent u) t).2

/-- The stores are related, and the logs the same. -/
structure Beside (R : σ → σ → Prop) (w w' : World σ) : Prop where
  store : R w.store w'.store
  log : w.log = w'.log

section Rules

variable {impl : Interp StoreSig σ} {R : σ → σ → Prop} {u : UploadId} {env : Env}
  {h : TusHandler} {req : TusRequest} {α β : Type}

/-- Two handlers cannot be told apart by their answers. -/
def Alike (impl : Interp StoreSig σ) (env : Env) (R : σ → σ → Prop) (Q : α → Prop)
    (p q : Handler α) : Prop :=
  Prog.Agree (handlerInterp impl env) (handlerInterp impl env) (Beside R) Q p q

theorem Beside.note {w w' : World σ} (hw : Beside R w w') (o : Obs) :
    Beside R (w.note o) (w'.note o) :=
  ⟨hw.store, congrArg (· ++ [o]) hw.log⟩

theorem handlerInterp_store {o : StoreOp} {w w' : World σ} (hw : Beside R w w')
    (ho : (impl o w.store).1 = (impl o w'.store).1 ∧ R (impl o w.store).2 (impl o w'.store).2) :
    (handlerInterp impl env (.store o) w).1 = (handlerInterp impl env (.store o) w').1 ∧
      Beside R (handlerInterp impl env (.store o) w).2
        (handlerInterp impl env (.store o) w').2 := by
  refine ⟨ho.1, ?_⟩
  simp only [handlerInterp, ho.1]
  have hstore : Beside R { w with store := (impl o w.store).2 }
      { w' with store := (impl o w'.store).2 } := ⟨ho.2, hw.log⟩
  cases o with
  | finalize id => exact hstore.note _
  | _ => exact hstore

/-- A handler whose calls are blind is alike to itself. -/
theorem Makes.alike (hR : Hides impl R u) {p : Handler α} (hp : Makes (Blind u) (fun _ => True) p) :
    Alike impl env R (fun _ => True) p p := by
  apply Prog.Uses.agree hp
  · intro o w w' _
    cases o with
    | store o =>
        cases o with
        | createUpload info | getUpload id => exact fun _ => trivial
        | _ => trivial
    | _ => trivial
  · intro o w w' ho hw
    cases o with
    | store o => exact handlerInterp_store hw (hR.blind o _ _ ho.1 hw.store)
    | preFinish info => exact ⟨rfl, hw.note _⟩
    | preTerminate info => exact ⟨rfl, hw.note _⟩
    | emit event => exact ⟨rfl, hw.note _⟩
    | acquire _ | release _ | newUuid | now | preCreate _ => exact ⟨rfl, hw⟩

theorem alike_check {Q : α → Prop} (r : Except TusError α) (hr : ∀ a, r = .ok a → Q a) :
    Alike impl env R Q (check r) (check r) := by
  cases r with
  | ok a => exact .ret (hr a rfl)
  | error e => exact .fail _

theorem alike_store {o : StoreOp} {Q : o.Val → Prop}
    (ho : ∀ s t, R s t → (impl o s).1 = (impl o t).1 ∧ R (impl o s).2 (impl o t).2 ∧
      ∀ a, (impl o s).1 = .ok a → Q a) : Alike impl env R Q (store o) (store o) := by
  apply Prog.Agree.op (G := fun r : Except TusError o.Val => ∀ a, r = .ok a → Q a)
  · intro w w' hw
    obtain ⟨hsame, hrelated, hQ⟩ := ho _ _ hw.store
    obtain ⟨hanswer, hbeside⟩ := @handlerInterp_store _ impl R env o w w' hw ⟨hsame, hrelated⟩
    exact ⟨hanswer, hbeside, hQ⟩
  · exact alike_check

theorem alike_withLock {id : UploadId} {p q : Handler α}
    (hpq : Alike impl env R (fun _ => True) p q) :
    Alike impl env R (fun _ => True) (withLock h id p) (withLock h id q) := by
  unfold withLock
  split
  · apply Prog.Agree.op (G := fun _ => True)
    · exact fun w w' hw => ⟨rfl, hw, trivial⟩
    · intro r _
      refine (alike_check (Q := fun _ => True) r fun _ _ => trivial).bind fun _ _ => ?_
      refine hpq.attempt.bind fun result _ => ?_
      apply Prog.Agree.op (G := fun _ => True)
      · exact fun w w' hw => ⟨rfl, hw, trivial⟩
      · exact fun _ _ => .ofExcept result fun _ _ => trivial
  · exact hpq

/-! ## The handlers -/

theorem Reads.blind {id : UploadId} (hne : id ≠ u) {o : StoreOp} (ho : Reads id o) :
    Blind u o := by
  cases o with
  | readContent id' =>
      obtain rfl : id' = id := ho
      exact hne
  | getUpload _ | getInfo _ => trivial
  | _ => cases ho

theorem Deletes.blind {id : UploadId} {o : StoreOp} (ho : Deletes id o) : Blind u o := by
  cases o with
  | getUpload _ | getInfo _ | delete _ => trivial
  | _ => cases ho

theorem Appends.blind {id : UploadId} {o : StoreOp} (ho : Appends id o) : Blind u o := by
  cases o with
  | getUpload _ | getInfo _ | declareLength _ _ | writeChunk _ _ _ | finalize _ => trivial
  | _ => cases ho

section Handlers

variable (hR : Hides impl R u)

include hR

theorem alike_call {o : StoreOp} (ho : Blind u o) :
    Alike impl env R (fun _ => True) (store o) (store o) :=
  Makes.alike hR (makes_store ho fun _ _ => trivial)

theorem Head.alike : Alike impl env R (fun _ => True) (Head.handle h req) (Head.handle h req) := by
  unfold Head.handle
  refine (alike_check (Q := fun _ => True) _ fun _ _ => trivial).bind fun _ _ => ?_
  refine (alike_check (Q := fun _ => True) _ fun _ _ => trivial).bind fun id _ => ?_
  refine (alike_call hR (o := .getUpload id) trivial).bind fun _ _ => ?_
  refine (alike_call hR (o := .getInfo id) trivial).bind fun info _ => ?_
  exact (Makes.alike hR (makes_checkExpiry _)).bind fun _ _ => .ret trivial

theorem Get.alike (hne : requestId req ≠ .ok u) :
    Alike impl env R (fun _ => True) (Get.handle h req) (Get.handle h req) := by
  apply Makes.alike hR
  apply Get.makes
  rintro id hid o ho
  refine ho.blind ?_
  rintro rfl
  exact hne hid

end Handlers

/-- The body of two requests that differ in its bytes. -/
structure Varies (req req' : TusRequest) : Prop where
  body : ∃ buf buf', req.body = some (.ok buf) ∧ buf.length = buf'.length ∧
    req' = { req with body := some (.ok buf') }
  unchecked : HeaderMap.containsKey req.headers .uploadChecksum = false

section Bytes

variable {req' : TusRequest}

theorem Varies.chunkReader (hvaries : Varies req req') :
    ∃ buf buf', buf.length = buf'.length ∧ Patch.chunkReader h req = .ok (.ok buf) ∧
      Patch.chunkReader h req' = .ok (.ok buf') := by
  obtain ⟨⟨buf, buf', hbody, hlength, rfl⟩, hkey⟩ := hvaries
  refine ⟨buf, buf', hlength, ?_, ?_⟩
  · simp [Patch.chunkReader, Patch.checksum, hkey, hbody, bind, Except.bind, pure, Except.pure]
  · simp [Patch.chunkReader, Patch.checksum, hkey, bind, Except.bind, pure, Except.pure]

theorem Varies.uploadBody (hvaries : Varies req req') :
    (∃ buf buf', buf.length = buf'.length ∧ Post.uploadBody h req = some (.ok buf) ∧
      Post.uploadBody h req' = some (.ok buf')) ∨
    Post.uploadBody h req = none ∧ Post.uploadBody h req' = none := by
  obtain ⟨⟨buf, buf', hbody, hlength, rfl⟩, -⟩ := hvaries
  unfold Post.uploadBody
  split
  · dsimp only
    split
    · split
      · exact .inl ⟨buf, buf', hlength, hbody, rfl⟩
      · exact .inr ⟨rfl, rfl⟩
    · exact .inr ⟨rfl, rfl⟩
  · exact .inr ⟨rfl, rfl⟩

variable (hR : Hides impl R u)

include hR

theorem alike_written {offset : ℕ} {buf buf' : Bytes} (hlength : buf.length = buf'.length) :
    Alike impl env R (fun _ => True) (writeChunk u offset (.ok buf))
      (writeChunk u offset (.ok buf')) := by
  intro w w' hw
  obtain ⟨hsame, hrelated⟩ := hR.written offset buf buf' _ _ hw.store hlength
  rw [run_writeChunk, run_writeChunk, hsame]
  exact ⟨rfl, ⟨hrelated, hw.log⟩, fun _ _ => trivial⟩

/-- A PATCH of `u` is answered alike whatever its bytes are. -/
theorem Patch.alike (hvaries : Varies req req') (hid : requestId req = .ok u) :
    Alike impl env R (fun _ => True) (Patch.handle h req) (Patch.handle h req') := by
  obtain ⟨buf, buf', hlength, hreader, hreader'⟩ := @Varies.chunkReader h _ _ hvaries
  obtain ⟨⟨_, body, -, -, rfl⟩, -⟩ := hvaries
  unfold Patch.handle
  refine (alike_check (Q := fun r => r.2 = u) (Patch.parseRequest req) ?_).bind ?_
  · rintro ⟨offset, id⟩ hparsed
    simp only [Patch.parseRequest, bind_eq_ok, hid, Except.ok.injEq, pure, Except.pure,
      Prod.mk.injEq] at hparsed
    obtain ⟨_, -, _, -, _, -, _, rfl, -, rfl⟩ := hparsed
    rfl
  · intro r hr
    obtain ⟨offset, id⟩ := r
    obtain rfl : u = id := hr.symm
    apply alike_withLock
    unfold Patch.locked
    refine (alike_call hR (o := .getUpload u) trivial).bind fun _ _ => ?_
    refine (alike_call hR (o := .getInfo u) trivial).bind fun info _ => ?_
    refine (Makes.alike hR (makes_ensure _ _)).bind fun _ _ => ?_
    refine (Makes.alike hR (makes_ensure _ _)).bind fun _ _ => ?_
    refine (Makes.alike hR (makes_checkExpiry _)).bind fun _ _ => ?_
    refine (Makes.alike hR (makes_check (Patch.declaredLength h req info))).bind fun size _ => ?_
    have hfinish : Alike impl env R (fun _ => True) (Patch.finish h u) (Patch.finish h u) :=
      Makes.alike hR (Patch.makes_finish trivial trivial trivial)
    have hrest : Alike impl env R (fun _ => True)
        ((check (Patch.chunkReader h req)).bind fun reader =>
          (writeChunk u offset reader).bind fun _ => Patch.finish h u)
        ((check (Patch.chunkReader h { req with body := some (.ok body) })).bind fun reader =>
          (writeChunk u offset reader).bind fun _ => Patch.finish h u) := by
      rw [hreader, hreader']
      exact (alike_written hR hlength).bind fun _ _ => hfinish
    cases size with
    | none => exact hrest
    | some declaredSize =>
        exact (alike_call hR (o := .declareLength u declaredSize) trivial).bind fun _ _ => hrest

/-- The partials that a creation finds are not `u`. -/
theorem alike_fetchPartialInfos (ids : List UploadId) :
    Alike impl env R (fun infos => ∀ info ∈ infos, info.id ≠ u) (Post.fetchPartialInfos ids)
      (Post.fetchPartialInfos ids) := by
  induction ids with
  | nil => exact .ret (by simp)
  | cons id ids ih =>
      refine (alike_call hR (o := .getUpload id) trivial).bind fun _ _ => ?_
      refine (alike_store (o := .getInfo id)
        (Q := fun info : UploadInfo => info.isPartial = true → info.id ≠ u) ?_).bind ?_
      · intro s t hst
        obtain ⟨hsame, hrelated⟩ := hR.blind (.getInfo id) s t trivial hst
        exact ⟨hsame, hrelated, fun info hinfo => hR.whole id s t info hst hinfo⟩
      · intro info hwhole
        rw [ensure_eq, ensure_eq]
        refine (alike_check (Q := fun _ => info.isPartial = true) _ ?_).bind fun _ hpart => ?_
        · exact fun _ hok => guardWith_eq_ok.mp hok
        · refine (alike_check (Q := fun _ => True) _ fun _ _ => trivial).bind fun _ _ => ?_
          refine ih.bind fun infos hinfos => .ret ?_
          exact List.forall_mem_cons.mpr ⟨hwhole hpart, hinfos⟩

theorem alike_assemble (p : Post.Parsed) (info : UploadInfo) :
    Alike impl env R (fun _ => True) (Post.assemble h p info) (Post.assemble h p info) := by
  unfold Post.assemble
  split
  · refine (alike_fetchPartialInfos hR _).bind fun infos hinfos => ?_
    exact alike_call hR (o := .concatenate info.id infos) hinfos
  · exact .ret trivial

/-- The creations of two requests that at most write other bytes to `u`. -/
theorem alike_create (p : Post.Parsed) (info : UploadInfo)
    (hplain : info.id = u → info.isPartial = false) (hheaders : req'.headers = req.headers)
    (hbody : Post.uploadBody h req' = Post.uploadBody h req ∨
      info.id = u ∧ ∃ buf buf', buf.length = buf'.length ∧
        Post.uploadBody h req = some (.ok buf) ∧ Post.uploadBody h req' = some (.ok buf')) :
    Alike impl env R (fun _ => True) (Post.create h req p info) (Post.create h req' p info) := by
  have hwrite : Alike impl env R (fun _ => True) (Post.writeBody h req info.id)
      (Post.writeBody h req' info.id) := by
    unfold Post.writeBody
    rcases hbody with hsame | ⟨rfl, buf, buf', hlength, hbuf, hbuf'⟩
    · rw [hsame]
      cases Post.uploadBody h req with
      | none => exact .ret trivial
      | some body => exact alike_call hR (o := .writeChunk info.id 0 body) trivial
    · rw [hbuf, hbuf']
      exact alike_written hR hlength
  have hcleanup (finalInfo : UploadInfo) : Alike impl env R (fun _ => True)
      (Post.cleanup h p info.id finalInfo) (Post.cleanup h p info.id finalInfo) :=
    Makes.alike hR (Post.makes_cleanup (fun _ _ => Deletes.blind) trivial finalInfo)
  have hfinish (finalInfo : UploadInfo) : Alike impl env R (fun _ => True)
      (Post.finish h req info.id finalInfo) (Post.finish h req' info.id finalInfo) := by
    have hcreated : Post.createdHeaders h req' finalInfo = Post.createdHeaders h req finalInfo := by
      unfold Post.createdHeaders Post.buildLocation
      rw [hheaders]
    unfold Post.finish
    rw [hcreated]
    refine (Makes.alike hR (makes_emit _)).bind fun _ _ => ?_
    refine (Makes.alike hR (makes_finishIfComplete _ trivial trivial)).bind fun _ _ => ?_
    exact (alike_check (Q := fun _ => True) _ fun _ _ => trivial).bind fun _ _ => .ret trivial
  unfold Post.create
  refine (alike_call hR (o := .createUpload info) hplain).bind fun _ _ => ?_
  unfold Post.fill
  refine (alike_assemble hR p info).bind fun _ _ => hwrite.bind fun bytesWritten _ => ?_
  refine (alike_call hR (o := .getInfo info.id) trivial).bind fun finalInfo _ => ?_
  refine (Makes.alike hR (makes_check _)).bind fun _ _ => ?_
  exact (hcleanup finalInfo).bind fun finalInfo _ => hfinish finalInfo

end Bytes

/-- A download changes nothing that the relation does not hide. -/
theorem Get.beside (hR : Hides impl R u) (hid : requestId req = .ok u) {w w' : World σ}
    (hw : Beside R w w') :
    Beside R ((Get.handle h req).run (handlerInterp impl env) w).2
      ((Get.handle h req).run (handlerInterp impl env) w').2 := by
  rw [Get.run_handle hR.reads, Get.run_handle hR.reads]
  have hfound := (hR.blind (.getUpload u) _ _ trivial hw.store).1
  have hinfo := (hR.blind (.getInfo u) _ _ trivial hw.store).1
  have hadmission :
      Get.admission impl h env req w.store = Get.admission impl h env req w'.store := by
    simp only [Get.admission, hid, bind, Except.bind, hfound, hinfo]
  rw [← hadmission]
  cases hok : Get.admission impl h env req w.store with
  | error e => exact hw
  | ok r =>
      obtain ⟨id, info⟩ := r
      obtain rfl : id = u := by
        simp only [Get.admission, bind_eq_ok, hid, Except.ok.injEq, pure, Except.pure,
          Prod.mk.injEq] at hok
        obtain ⟨_, -, _, rfl, _, -, _, -, _, -, _, -, _, -, rfl, -⟩ := hok
        rfl
      simp only [check_ok, Prog.ret_bind, Get.send, Prog.bind_eq, run_readContent_bind]
      have hcontent := hR.content _ _ hw.store
      have hread (a : Except TusError Bytes) (v : World σ) :
          (((check a).bind fun content =>
            (pure (h.responseWithBody 200 (Get.headers info) (.reader content)) :
              Handler TusResponse)).run (handlerInterp impl env) v).2 = v := by
        cases a <;> rfl
      rw [hread, hread]
      exact ⟨hcontent, hw.log⟩

end Rules

/-! ## Runs -/

/-- The request sends its bytes to `u`, if it sends any. -/
structure SentTo (h : TusHandler) (env : Env) (req : TusRequest) (u : UploadId) : Prop where
  patch : req.method = .patch → requestId req = .ok u
  post : req.method = .post → ∀ p info, Post.prepare h env req = .ok (p, info) → info.id = u

/-- No creation makes `u` a partial. -/
def KeepsWhole (h : TusHandler) (env : Env) (req : TusRequest) (u : UploadId) : Prop :=
  req.method = .post → ∀ p info, Post.prepare h env req = .ok (p, info) → info.id = u →
    p.isPartial = false

/-- Two exchanges that differ at most in the bytes that are sent to `u`. -/
inductive Variant {B : Backend} (h : TusHandler) (u : UploadId) : Exchange B → Exchange B → Prop
  | same (x : Exchange B) : Variant h u x x
  | bytes (x : Exchange B) (req' : TusRequest) (hvaries : Varies x.req req')
      (hsent : SentTo h x.env x.req u) : Variant h u x { x with req := req' }

/-- The request is a download of `u`. -/
def Downloads (req : TusRequest) (u : UploadId) : Prop :=
  req.method = .get ∧ requestId req = .ok u

/-- The requests of a run, each with its response and the world after it. -/
def Backend.steps (B : Backend) (h : TusHandler) :
    List (Exchange B) → World B.State → List (Exchange B × Option TusResponse × World B.State)
  | [], _ => []
  | x :: xs, w => (x, B.serve h x w) :: B.steps h xs (B.serve h x w).2

section Runs

variable {impl : Interp StoreSig σ} {R : σ → σ → Prop} {u : UploadId} {env : Env}
  {h : TusHandler} {req req' : TusRequest} {w w' : World σ}

theorem Post.beside (hR : Hides impl R u) (hwhole : KeepsWhole h env req u)
    (hreq : req' = req ∨ Varies req req' ∧ SentTo h env req u) (hmethod : req.method = .post)
    (hw : Beside R w w') :
    ((Post.handle h req).run (handlerInterp impl env) w).1 =
        ((Post.handle h req').run (handlerInterp impl env) w').1 ∧
      Beside R ((Post.handle h req).run (handlerInterp impl env) w).2
        ((Post.handle h req').run (handlerInterp impl env) w').2 := by
  have hheaders : req'.headers = req.headers := by
    rcases hreq with rfl | ⟨hvaries, -⟩
    · rfl
    · obtain ⟨_, _, -, -, rfl⟩ := hvaries.body
      rfl
  have hprepare' : Post.prepare h env req' = Post.prepare h env req := by
    rcases hreq with rfl | ⟨hvaries, -⟩
    · rfl
    · obtain ⟨_, _, -, -, rfl⟩ := hvaries.body
      rfl
  rw [Post.run_handle, Post.run_handle, hprepare']
  rcases hprepare : Post.prepare h env req with e | ⟨p, info⟩
  · exact ⟨rfl, hw⟩
  · have hplain : info.id = u → info.isPartial = false := fun hid => by
      rw [(Post.prepare_ok hprepare).isPartial]
      exact hwhole hmethod p info hprepare hid
    have hbody : Post.uploadBody h req' = Post.uploadBody h req ∨
        info.id = u ∧ ∃ buf buf', buf.length = buf'.length ∧
          Post.uploadBody h req = some (.ok buf) ∧ Post.uploadBody h req' = some (.ok buf') := by
      rcases hreq with rfl | ⟨hvaries, hsent⟩
      · exact .inl rfl
      · rcases @Varies.uploadBody h _ _ hvaries with hbytes | ⟨hnone, hnone'⟩
        · exact .inr ⟨hsent.post hmethod p info hprepare, hbytes⟩
        · exact .inl (hnone'.trans hnone.symm)
    have halike : Alike impl env R (fun _ => True) (Post.create h req p info)
        (Post.create h req' p info) := alike_create hR p info hplain hheaders hbody
    obtain ⟨hsame, hrelated, -⟩ := halike w w' hw
    exact ⟨hsame, hrelated⟩

/-- The sub-handlers of two requests that differ at most in the bytes of `u`. -/
theorem dispatch_alike (hR : Hides impl R u) (hwhole : KeepsWhole h env req u)
    (hreq : req' = req ∨ Varies req req' ∧ SentTo h env req u) (hget : ¬ Downloads req u)
    (hw : Beside R w w') :
    ((h.dispatch req).run (handlerInterp impl env) w).1 =
        ((h.dispatch req').run (handlerInterp impl env) w').1 ∧
      Beside R ((h.dispatch req).run (handlerInterp impl env) w).2
        ((h.dispatch req').run (handlerInterp impl env) w').2 := by
  have hfrom {p q : Handler TusResponse} (hpq : Alike impl env R (fun _ => True) p q) :
      (p.run (handlerInterp impl env) w).1 = (q.run (handlerInterp impl env) w').1 ∧
        Beside R (p.run (handlerInterp impl env) w).2 (q.run (handlerInterp impl env) w').2 := by
    obtain ⟨hsame, hrelated, -⟩ := hpq w w' hw
    exact ⟨hsame, hrelated⟩
  obtain ⟨body, hbody⟩ : ∃ body, req' = { req with body := body } := by
    rcases hreq with rfl | ⟨hvaries, -⟩
    · exact ⟨req'.body, rfl⟩
    · obtain ⟨_, buf', -, -, rfl⟩ := hvaries.body
      exact ⟨_, rfl⟩
  have hmethod' : req'.method = req.method := by rw [hbody]
  unfold TusHandler.dispatch
  rw [hmethod']
  cases hmethod : req.method with
  | post => exact Post.beside hR hwhole hreq hmethod hw
  | patch =>
      rcases hreq with rfl | ⟨hvaries, hsent⟩
      · exact hfrom (Makes.alike hR (Patch.makes fun _ _ _ _ => Appends.blind))
      · exact hfrom (Patch.alike hR hvaries (hsent.patch hmethod))
  | options =>
      subst hbody
      exact hfrom (Makes.alike hR Options.makes)
  | head =>
      subst hbody
      exact hfrom (Head.alike hR)
  | get =>
      subst hbody
      exact hfrom (Get.alike hR fun hid => hget ⟨hmethod, hid⟩)
  | delete =>
      subst hbody
      exact hfrom (Makes.alike hR (Delete.makes fun _ _ _ => Deletes.blind))
  | other _ => exact ⟨rfl, hw⟩

variable {B : Backend} {S : B.State → B.State → Prop} {x y : Exchange B} {v v' : World B.State}

/-- Serving two such requests: the same response, unless it is a download of
`u`, and related worlds. -/
theorem serve_alike (hR : Hides (B.impl x.choice) S u) (hxy : Variant h u x y)
    (hwhole : KeepsWhole h x.env x.req u) (hv : Beside S v v') :
    (¬ Downloads x.req u → (B.serve h x v).1 = (B.serve h y v').1) ∧
      Beside S (B.serve h x v).2 (B.serve h y v').2 := by
  have hreq : ∃ req', y = { x with req := req' } ∧
      (req' = x.req ∨ Varies x.req req' ∧ SentTo h x.env x.req u) := by
    cases hxy with
    | same => exact ⟨x.req, rfl, .inl rfl⟩
    | bytes req' hvaries hsent => exact ⟨req', rfl, .inr ⟨hvaries, hsent⟩⟩
  obtain ⟨req', rfl, hreq⟩ := hreq
  unfold Backend.serve
  rw [serve_eq, serve_eq]
  by_cases hget : Downloads x.req u
  · refine ⟨fun hnot => absurd hget hnot, ?_⟩
    have hdispatch {r : TusRequest} (hr : r = x.req ∨ ∃ body, r = { x.req with body := body }) :
        h.dispatch r = Get.handle h x.req := by
      rcases hr with rfl | ⟨body, rfl⟩
      · rw [TusHandler.dispatch, hget.1]
      · simp only [TusHandler.dispatch, hget.1]
        rfl
    rw [hdispatch (.inl rfl), hdispatch (r := req') ?_]
    · exact Get.beside hR hget.2 hv
    · rcases hreq with rfl | ⟨hvaries, -⟩
      · exact .inl rfl
      · obtain ⟨_, buf', -, -, rfl⟩ := hvaries.body
        exact .inr ⟨_, rfl⟩
  · obtain ⟨hsame, hrelated⟩ := dispatch_alike hR hwhole hreq hget hv
    exact ⟨fun _ => congrArg (respond h) hsame, hrelated⟩

/-- Two runs that differ in the bytes of `u` only, step by step. -/
theorem steps_alike {xs ys : List (Exchange B)} (hR : ∀ c, Hides (B.impl c) S u)
    (hxs : List.Forall₂ (Variant h u) xs ys) (hwhole : ∀ x ∈ xs, KeepsWhole h x.env x.req u)
    (hv : Beside S v v') :
    List.Forall₂ (fun a b => (¬ Downloads a.1.req u → a.2.1 = b.2.1) ∧ Beside S a.2.2 b.2.2)
      (B.steps h xs v) (B.steps h ys v') := by
  induction hxs generalizing v v' with
  | nil => exact .nil
  | cons hxy _ ih =>
      obtain ⟨hx, hrest⟩ := List.forall_mem_cons.mp hwhole
      obtain ⟨hsame, hrelated⟩ := serve_alike (hR _) hxy hx hv
      exact .cons ⟨hsame, hrelated⟩ (ih hrest hrelated)

end Runs

end Fileloft
