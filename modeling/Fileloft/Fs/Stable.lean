import Fileloft.Server.Fixture
import Fileloft.Server.Patch
import Fileloft.Server.Post
import Fileloft.Fs.Fixture
import Fileloft.Fs.Serve

/-!
# Completed uploads over the file store

The content of a completed upload changes only when it is completed once
more, which a PATCH with an empty body does.
-/

namespace Fileloft

open Handler

namespace Slot

/-- Complete and joined, with nothing but empty chunks written since. -/
structure Settled (slot : Slot) (c : Bytes) : Prop where
  record : ∃ info, slot.info = some info ∧ info.isComplete = true ∧ info.isFinal = false
  parts : ∀ part ∈ slot.parts, part = []
  data : slot.data = some c

variable {slot : Slot} {c : Bytes}

theorem Settled.readContent (hs : slot.Settled c) : slot.readContent = .ok c := by
  obtain ⟨⟨info, hinfo, hcomplete, -⟩, -, hdata⟩ := hs
  simp [Slot.readContent, Slot.record, hinfo, hcomplete, hdata]

theorem mem_addPart {parts : List Bytes} {buf part : Bytes} (hpart : part ∈ addPart parts buf) :
    part ∈ parts ∨ part = buf := by
  unfold addPart at hpart
  split at hpart
  · simpa using hpart
  · exact List.mem_or_eq_of_mem_set hpart

/-- A complete upload takes only empty chunks. -/
theorem Settled.writeChunk (hs : slot.Settled c) (offset : ℕ) (reader : Reader) :
    (slot.writeChunk offset reader).2.Settled c := by
  obtain ⟨⟨info, hinfo, hcomplete, hfinal⟩, hparts, hdata⟩ := hs
  simp only [Slot.writeChunk, Slot.record, hinfo]
  cases haccept : FileStore.acceptChunk info offset reader with
  | error e => exact ⟨⟨info, hinfo, hcomplete, hfinal⟩, hparts, hdata⟩
  | ok r =>
      obtain ⟨buf, endOffset⟩ := r
      obtain ⟨rfl, rfl, rfl⟩ := FileStore.acceptChunk_complete hcomplete haccept
      refine ⟨⟨_, rfl, hcomplete, hfinal⟩, fun part hpart => ?_, hdata⟩
      rcases mem_addPart hpart with hpart | rfl
      · exact hparts part hpart
      · rfl

/-- Of the chunks only the empty one is written, and the record stays. -/
theorem writeChunk_complete {info : UploadInfo} {offset n : ℕ} {reader : Reader}
    (hinfo : slot.info = some info) (hcomplete : info.isComplete = true)
    (hok : (slot.writeChunk offset reader).1 = .ok n) :
    reader = .ok [] ∧ (slot.writeChunk offset reader).2.info = some info := by
  simp only [Slot.writeChunk, record, hinfo] at hok ⊢
  cases haccept : FileStore.acceptChunk info offset reader with
  | error e => simp [haccept] at hok
  | ok r =>
      obtain ⟨buf, endOffset⟩ := r
      obtain ⟨rfl, rfl, rfl⟩ := FileStore.acceptChunk_complete hcomplete haccept
      exact ⟨rfl, rfl⟩

theorem Settled.declareLength (hs : slot.Settled c) (length : ℕ) :
    (slot.declareLength length).2.Settled c := by
  obtain ⟨⟨info, hinfo, hcomplete, hfinal⟩, hparts, hdata⟩ := hs
  have hsize := UploadInfo.isComplete_iff.mp hcomplete
  simp only [Slot.declareLength, hinfo, hsize, Option.isSome_some, if_true]
  exact ⟨⟨info, hinfo, hcomplete, hfinal⟩, hparts, hdata⟩

/-- Joining empty chunks settles on empty data. -/
theorem Settled.finalize (hs : slot.Settled c) : slot.finalize.Settled [] where
  record := hs.record
  parts := by simp [Slot.finalize]
  data := by
    simp only [Slot.finalize, Option.some.injEq, List.flatten_eq_nil_iff]
    exact hs.parts

/-- A slot whose record is complete and not final is settled once it is
finalized. -/
theorem settled_finalize {info : UploadInfo} (hinfo : slot.info = some info)
    (hcomplete : info.isComplete = true) (hfinal : info.isFinal = false) :
    ∃ c, slot.finalize.Settled c :=
  ⟨_, ⟨info, hinfo, hcomplete, hfinal⟩, by simp [Slot.finalize], rfl⟩

/-- Settled, or deleted. -/
def Stays (slot : Slot) (c : Bytes) : Prop := slot.Settled c ∨ slot.info = none

end Slot

namespace Slots

/-- The calls that a settled upload does not survive. -/
def Disturbs (id : UploadId) : StoreOp → Prop
  | .createUpload info => info.id = id
  | .concatenate id' _ | .finalize id' => id' = id
  | _ => False

variable {t : Slots} {id : UploadId} {c : Bytes} {h : TusHandler} {env : Env} {req : TusRequest}

theorem update_stays {id' : UploadId} {slot : Slot} (hs : (t id).Stays c)
    (hslot : id' = id → slot.Stays c) : (Function.update t id' slot id).Stays c := by
  by_cases heq : id' = id
  · subst heq
    rw [Function.update_self]
    exact hslot rfl
  · rwa [Function.update_of_ne (Ne.symm heq)]

theorem interp_stays (o : StoreOp) (ho : ¬ Disturbs id o) (hs : (t id).Stays c) :
    ((interp o t).2 id).Stays c := by
  cases o with
  | createUpload info =>
      simp only [interp, createUpload]
      split
      · exact hs
      · exact update_stays hs fun heq => absurd heq ho
  | getUpload _ | getInfo _ | readContent _ => exact hs
  | finalize id' => exact update_stays hs fun heq => absurd heq ho
  | delete id' => exact update_stays hs fun _ => .inr rfl
  | writeChunk id' offset reader =>
      refine update_stays hs fun heq => ?_
      subst heq
      rcases hs with hs | hnone
      · exact .inl (hs.writeChunk offset reader)
      · exact .inr (by simp [Slot.writeChunk, Slot.record, hnone])
  | declareLength id' length =>
      refine update_stays hs fun heq => ?_
      subst heq
      rcases hs with hs | hnone
      · exact .inl (hs.declareLength length)
      · exact .inr (by simp [Slot.declareLength, hnone])
  | concatenate id' partials =>
      simp only [interp, concatenate]
      split <;> exact update_stays hs fun heq => absurd heq ho

theorem run_stays {α : Type} {p : Handler α} {v : World Slots}
    (hp : Makes (fun o => ¬ Disturbs id o) (fun _ => True) p) (hs : (v.store id).Stays c) :
    ((p.run (handlerInterp interp env) v).2.store id).Stays c :=
  hp.run_preserves (I := fun t : Slots => (t id).Stays c) (fun o _ ho hs => interp_stays o ho hs) hs

/-- The request completes `id` once more: a PATCH that passes the guards on
the complete upload, with an empty chunk, and that the callback accepts. -/
structure Refinalizes {σ : Type} (impl : Interp StoreSig σ) (h : TusHandler) (env : Env)
    (req : TusRequest) (s : σ) (id : UploadId) : Prop where
  method : req.method = .patch
  admitted : ∃ info, Patch.Admits impl h env req s id info none ∧ info.isComplete = true ∧
    env.finishAnswer h info = .ok ()
  chunk : Patch.chunkReader h req = .ok (.ok [])

theorem eq_of_disturbs {id' : UploadId} {o : StoreOp} (ho : Appends id' o) (hd : Disturbs id o) :
    id' = id := by
  cases o with
  | finalize id'' => exact ho.symm.trans hd
  | createUpload _ | concatenate _ _ => cases ho
  | _ => cases hd

/-- The end of a PATCH of a settled upload. -/
theorem finish_stays {v : World Slots} (info : UploadInfo) (hs : (v.store id).Settled c)
    (hinfo : (v.store id).info = some info) (hquiet : c ≠ [] → env.finishAnswer h info ≠ .ok ()) :
    (((Patch.finish h id).run (handlerInterp interp env) v).2.store id).Stays c := by
  have hget : (interp (.getInfo id) v.store).1 = .ok info := by
    simp [interp, Slot.record, hinfo]
  rw [Patch.run_finish pureReads, hget]
  obtain ⟨r, w', hrun, houtcome⟩ := run_finishIfComplete interp env h
    (World.afterEmit h v (.uploadProgress info)) id info
  have hafter : (w'.store id).Stays c := by
    cases houtcome with
    | incomplete _ =>
        rw [World.afterEmit_store]
        exact .inl hs
    | vetoed _ _ _ _ hstore _ =>
        rw [hstore, World.afterEmit_store]
        exact .inl hs
    | failed _ _ _ _ hfinal _ => cases hfinal
    | finished _ _ haccept _ hstore _ =>
        rw [hstore, World.afterEmit_store]
        simp only [interp, Function.update_self]
        by_cases hc : c = []
        · exact .inl (hc ▸ hs.finalize)
        · exact absurd haccept (hquiet hc)
  simp only [hrun]
  cases r <;> exact hafter

/-- A PATCH of a settled upload leaves its data, unless it finalizes again. -/
theorem patch_stays {v : World Slots} (hmethod : req.method = .patch) (hs : (v.store id).Stays c)
    (hquiet : c ≠ [] → ¬ Refinalizes interp h env req v.store id) :
    ((((Patch.handle h req).run (handlerInterp interp env) v).2.store) id).Stays c := by
  by_cases haddressed : ∃ offset, Patch.parseRequest req = .ok (offset, id)
  swap
  · refine run_stays (Patch.makes fun offset id' hparsed o ho hd => haddressed ⟨offset, ?_⟩) hs
    rw [hparsed, eq_of_disturbs ho hd]
  obtain ⟨offset, hparsed⟩ := haddressed
  rw [Patch.run_handle pureReads]
  rcases hadm : Patch.admission interp h env req v.store with e | ⟨id', info, size⟩
  · exact hs
  have ha := Patch.admission_eq_ok.mp hadm
  obtain ⟨rfl, rfl⟩ : offset = info.offset ∧ id = id' := by
    simpa using hparsed.symm.trans ha.parsed
  have hstored := ha.stored
  rcases hs with hs | hnone
  swap
  · simp [interp, Slot.record, hnone] at hstored
  obtain ⟨info', hinfo, hcomplete, -⟩ := hs.record
  obtain rfl : info' = info := by
    simpa [interp, Slot.record, hinfo] using hstored
  obtain rfl : size = none := by
    cases size with
    | none => rfl
    | some size =>
        have hnone := (Patch.declaredLength_eq_some ha.length).1
        rw [UploadInfo.isComplete_iff.mp hcomplete] at hnone
        cases hnone
  simp only [Patch.accept, Prog.bind_eq]
  cases hreader : Patch.chunkReader h req with
  | error e => exact .inl hs
  | ok reader =>
      simp only [check_ok, Prog.ret_bind, run_writeChunk_bind]
      have hwrite : ((interp (.writeChunk id info'.offset reader) v.store).2 id).Settled c := by
        simp only [interp, Function.update_self]
        exact hs.writeChunk _ _
      cases hanswer : (interp (.writeChunk id info'.offset reader) v.store).1 with
      | error e => exact .inl hwrite
      | ok n =>
          obtain ⟨rfl, hkept⟩ := Slot.writeChunk_complete hinfo hcomplete hanswer
          refine finish_stays info' hwrite ?_ fun hc haccept => hquiet hc ⟨hmethod, ?_, hreader⟩
          · simp only [interp, Function.update_self]
            exact hkept
          · exact ⟨info', ha, hcomplete, haccept⟩

/-- What a request may do while an upload is settled. -/
theorem serve_stays {v : World Slots} (hs : (v.store id).Stays c)
    (hfresh : ∀ p info, req.method = .post → Post.prepare h env req = .ok (p, info) → info.id ≠ id)
    (hquiet : c ≠ [] → ¬ Refinalizes interp h env req v.store id) :
    ((Fileloft.serve h interp env req v).2.store id).Stays c := by
  rw [serve_eq]
  have hreads {id' : UploadId} (o : StoreOp) (ho : Reads id' o) : ¬ Disturbs id o := by
    cases o <;> first | exact fun hd => hd | cases ho
  have hdeletes {id' : UploadId} (o : StoreOp) (ho : Deletes id' o) : ¬ Disturbs id o := by
    cases o <;> first | exact fun hd => hd | cases ho
  unfold TusHandler.dispatch
  cases hmethod : req.method with
  | options => exact run_stays Options.makes hs
  | head => exact run_stays (Head.makes fun _ _ => hreads) hs
  | get => exact run_stays (Get.makes fun _ _ => hreads) hs
  | delete => exact run_stays (Delete.makes fun _ _ => hdeletes) hs
  | other _ => exact hs
  | patch => exact patch_stays hmethod hs hquiet
  | post =>
      simp only [Post.run_handle]
      rcases hprepare : Post.prepare h env req with e | ⟨p, info⟩
      · exact hs
      · have hne := hfresh p info hmethod hprepare
        refine run_stays (Post.makes_create.mono fun o ho hd => ?_) hs
        rcases ho with rfl | ho
        · exact hne hd
        · cases o with
          | finalize id' | concatenate id' _ => exact hne (ho.symm.trans hd)
          | createUpload _ => cases ho
          | _ => cases hd

/-- The request is a PATCH of `id` or the creation of `id`. -/
def Fills (h : TusHandler) (env : Env) (req : TusRequest) (id : UploadId) : Prop :=
  req.method = .patch ∧ (∃ offset, Patch.parseRequest req = .ok (offset, id)) ∨
    req.method = .post ∧ ∃ p info, Post.prepare h env req = .ok (p, info) ∧ info.id = id

/-- An answered request that fills an upload ends as a PATCH or POST does. -/
theorem Fills.ends {v : World Slots} {resp : TusResponse} (hfills : Fills h env req id)
    (hresp : (Fileloft.serve h interp env req v).1 = some resp) (hstatus : resp.status < 400) :
    id.Valid ∧ ∃ t info, Ends interp id t (Fileloft.serve h interp env req v).2.store info := by
  rcases hfills with ⟨hmethod, offset, hparsed⟩ | ⟨hmethod, p, info, hprepare, rfl⟩
  · have hrun := run_dispatch_of_status hresp hstatus
    rw [TusHandler.dispatch, hmethod] at hrun
    obtain ⟨id', info, size, ha, hends⟩ := Patch.run_handle_ok pureReads hrun
    obtain ⟨-, rfl⟩ : offset = info.offset ∧ id = id' := by
      simpa using hparsed.symm.trans ha.parsed
    exact ⟨Patch.parseRequest_valid hparsed, hends⟩
  · obtain ⟨p', info', hprepare', hrun⟩ := Post.run_create_of_status hmethod hresp hstatus
    obtain ⟨rfl, rfl⟩ : p = p' ∧ info = info' := by
      simpa using hprepare.symm.trans hprepare'
    obtain ⟨hcreate, hends⟩ := Post.run_create_ok pureReads hrun
    exact ⟨@valid_of_establishes env (.store (.createUpload info)) v hcreate, hends⟩

/-- The upload a request completes is settled. -/
theorem completes_settled {t t' : Slots} {info newInfo : UploadInfo}
    (hends : Ends interp id t t' newInfo) (hinfo : (t' id).info = some info)
    (hcomplete : info.isComplete = true) (hfinal : info.isFinal = false) :
    ∃ c, (t' id).Settled c := by
  obtain ⟨hstored, ⟨hincomplete, rfl⟩ | ⟨-, hfinalize⟩⟩ := hends
  · simp only [interp, Slot.record, hinfo, Except.ok.injEq] at hstored
    simp [← hstored, hcomplete] at hincomplete
  · obtain rfl : Function.update t id (t id).finalize = t' := (Prod.mk.inj hfinalize).2
    rw [Function.update_self] at hinfo ⊢
    exact Slot.settled_finalize hinfo hcomplete hfinal

end Slots

namespace FileStore

variable {s : FileStore} {h : TusHandler}

/-- The request is answered and leaves `id` complete and not final. -/
structure Completes (s : FileStore) (h : TusHandler) (x : Exchange s.backend) (w : World Disk)
    (id : UploadId) : Prop where
  fills : Slots.Fills h x.env x.req id
  answered : ∃ resp, (s.backend.serve h x w).1 = some resp ∧ resp.status < 300
  record : ∀ order, ∃ info, (s.interp order (.getInfo id) (s.backend.serve h x w).2.store).1 =
    .ok info ∧ info.isComplete = true ∧ info.isFinal = false

/-- What a later request may do: it does not create `id` again, and unless
the content `c` is empty it does not complete `id` once more. -/
structure Gentle (s : FileStore) (h : TusHandler) (id : UploadId) (c : Bytes) (w : World Disk)
    (x : Exchange s.backend) : Prop where
  fresh : ∀ p info, x.req.method = .post → Post.prepare h x.env x.req = .ok (p, info) →
    info.id ≠ id
  quiet : c ≠ [] → ¬ Slots.Refinalizes (s.interp x.choice) h x.env x.req w.store id

theorem Tracks.refinalizes {w : World Disk} {v : World Slots} {order : Listing} {env : Env}
    {req : TusRequest} {id : UploadId} (hw : s.Tracks w v)
    (hr : Slots.Refinalizes Slots.interp h env req v.store id) :
    Slots.Refinalizes (s.interp order) h env req w.store id := by
  obtain ⟨hmethod, ⟨info, ha, hcomplete, haccept⟩, hchunk⟩ := hr
  have hvalid := Patch.parseRequest_valid ha.parsed
  refine ⟨hmethod, ⟨info, ⟨ha.parsed, ha.locked, ?_, ?_, ha.notFinal, ha.unexpired, ha.length⟩,
    hcomplete, haccept⟩, hchunk⟩
  · rw [(hw.store.call (.getUpload id) (StoreOp.forall_handle hvalid) order).1, ha.found]
  · rw [(hw.store.call (.getInfo id) (StoreOp.forall_handle hvalid) order).1, ha.stored]

/-- Once a request has completed an upload, its content stays the same in
every later state until it is deleted, as long as no PATCH with an empty
body completes it once more. -/
theorem completed_content_stable {x : Exchange s.backend} {w : World Disk} {id : UploadId}
    (hw : s.backend.Reachable h w) (hx : s.Completes h x w id) :
    ∃ c, (∀ order, (s.interp order (.readContent id) (s.backend.serve h x w).2.store).1 = .ok c) ∧
      ∀ w', s.backend.Follows h (s.Gentle h id c) (s.backend.serve h x w).2 w' →
        (∀ order, (s.interp order (.readContent id) w'.store).1 = .ok c) ∨
          w'.store.content (s.infoPath id) = none := by
  obtain ⟨v, hv, hwv⟩ := tracks_of_reachable hw
  obtain ⟨hanswer, hnext⟩ := hwv.step x (h := h)
  obtain ⟨resp, hresp, hstatus⟩ := hx.answered
  rw [hanswer] at hresp
  obtain ⟨hvalid, t, newInfo, hends⟩ := hx.fills.ends hresp (by omega)
  have hread {w : World Disk} {v : World Slots} (hw : s.Tracks w v) (order : Listing) :
      (s.interp order (.readContent id) w.store).1 = (v.store id).readContent :=
    (hw.store.call (.readContent id) (StoreOp.forall_handle hvalid) order).1
  have order := x.choice
  obtain ⟨info, hinfo, hcomplete, hfinal⟩ := hx.record order
  rw [(hnext.store.call (.getInfo id) (StoreOp.forall_handle hvalid) order).1] at hinfo
  have hslot : ((Slots.backend.serve h (slotted x) v).2.store id).info = some info := by
    simp only [Slots.interp, Slot.record] at hinfo
    split at hinfo
    · next heq => rwa [heq, Option.some.injEq, ← Except.ok.injEq]
    · cases hinfo
  obtain ⟨c, hsettled⟩ := Slots.completes_settled hends hslot hcomplete hfinal
  refine ⟨c, fun order => (hread hnext order).trans hsettled.readContent, fun w' hrun => ?_⟩
  obtain ⟨v', htracks, hstays⟩ := by
    apply hrun.invariant (I := fun w => ∃ v, s.Tracks w v ∧ (v.store id).Stays c)
      ⟨_, hnext, .inl hsettled⟩
    rintro w y hy ⟨v, hw, hstays⟩
    exact ⟨_, (hw.step y).2, Slots.serve_stays hstays hy.fresh fun hc hr =>
      hy.quiet hc (hw.refinalizes hr)⟩
  rcases hstays with hsettled | hnone
  · exact .inl fun order => (hread htracks order).trans hsettled.readContent
  · refine .inr ?_
    rw [infoPath, htracks.store.file id hvalid, FileStore.file, hnone, Option.map_none]

namespace EmptyPatch

def handler : TusHandler := ⟨{ enableDownload := true }, true, .fixed⟩

def order : Listing := ⟨List.reverse, List.reverse_perm⟩

/-- An upload of one byte, created with its content. -/
def post : Exchange uploads.backend where
  req := .ofTexts .post none [(.tusResumable, "1.0.0"), (.uploadLength, "1"),
    (.contentType, "application/offset+octet-stream")] (some [97])
  env := .permissive .a
  choice := order

def get : Exchange uploads.backend where
  req := .ofTexts .get (some "a1234567-89ab-4cde-8fed-0123456789ab") [] none
  env := .permissive .b
  choice := order

/-- Another upload of two bytes, created without content. -/
def other : Exchange uploads.backend where
  req := .ofTexts .post none [(.tusResumable, "1.0.0"), (.uploadLength, "2")] none
  env := .permissive .b
  choice := order

/-- Both bytes of the other upload. -/
def patchOther : Exchange uploads.backend where
  req := .ofTexts .patch (some "b1234567-89ab-4cde-8fed-0123456789ab")
    [(.tusResumable, "1.0.0"), (.contentType, "application/offset+octet-stream"),
      (.uploadOffset, "0")] (some [98, 99])
  env := .permissive .c
  choice := order

/-- An empty chunk at its end. -/
def patch : Exchange uploads.backend where
  req := .ofTexts .patch (some "a1234567-89ab-4cde-8fed-0123456789ab")
    [(.tusResumable, "1.0.0"), (.contentType, "application/offset+octet-stream"),
      (.uploadOffset, "1")] (some [])
  env := .permissive .c
  choice := order

def id : UploadId := .new post.env.uuid

def slots : World Slots := (Slots.backend.serve handler (slotted post) Slots.backend.initial).2

/-- The slots after the empty chunk, and its answer. -/
def patched : Option TusResponse × World Slots := Slots.backend.serve handler (slotted patch) slots

/-- The request neither creates the upload again nor patches it. -/
def spares (x : Exchange uploads.backend) : Bool :=
  ((Post.prepare handler x.env x.req).toOption.all fun r => r.2.id != id) &&
    (Patch.parseRequest x.req).toOption.all fun r => r.2 != id

theorem gentle_of_spares {w : World Disk} {x : Exchange uploads.backend} {c : Bytes}
    (hx : spares x = true) : uploads.Gentle handler id c w x := by
  rw [spares, Bool.and_eq_true] at hx
  obtain ⟨hprepare, hparse⟩ := hx
  constructor
  · intro p info _ hok
    simpa [hok, Except.toOption] using hprepare
  · rintro - hr
    obtain ⟨-, ⟨info, ha, -⟩, -⟩ := hr
    simp [ha.parsed, Except.toOption] at hparse

/-- The two requests over the slots. -/
theorem evaluated :
    (Post.prepare handler post.env post.req).toOption.map (fun r => r.2.id) = some id ∧ id.Valid ∧
      (Slots.backend.serve handler (slotted post) Slots.backend.initial).1.map TusResponse.status =
        some 201 ∧
      ((slots.store id).info.map fun info => (info.isComplete, info.isFinal)) = some (true, false) ∧
      (slots.store id).readContent = .ok [97] ∧
      patched.1.map TusResponse.status = some 204 ∧ (patched.2.store id).readContent = .ok [] ∧
      [get, other, patchOther].all spares = true := by
  decide +kernel

theorem prepared : ∃ p info, Post.prepare handler post.env post.req = .ok (p, info) ∧
    info.id = id := by
  have hid := evaluated.1
  cases hprepare : Post.prepare handler post.env post.req with
  | error e => simp [hprepare, Except.toOption] at hid
  | ok r => exact ⟨r.1, r.2, rfl, by simpa [hprepare, Except.toOption] using hid⟩

theorem valid : id.Valid := evaluated.2.1

theorem tracks : uploads.Tracks (uploads.backend.serve handler post uploads.backend.initial).2
    (Slots.backend.serve handler (slotted post) Slots.backend.initial).2 :=
  (tracks_initial.step post).2

theorem content (order : Listing) {w : World Disk} {v : World Slots} (hw : uploads.Tracks w v) :
    (uploads.interp order (.readContent id) w.store).1 = (v.store id).readContent :=
  (hw.store.call (.readContent id) (StoreOp.forall_handle valid) order).1

theorem record : ∃ info, (slots.store id).info = some info ∧ info.isComplete = true ∧
    info.isFinal = false := by
  obtain ⟨-, -, -, hsome, -⟩ := evaluated
  obtain ⟨info, hinfo, hflags⟩ := Option.map_eq_some_iff.mp hsome
  exact ⟨info, hinfo, (Prod.mk.inj hflags).1, (Prod.mk.inj hflags).2⟩

theorem completes : uploads.Completes handler post uploads.backend.initial id where
  fills := .inr ⟨rfl, prepared⟩
  answered := by
    obtain ⟨-, -, hstatus, -⟩ := evaluated
    obtain ⟨resp, hresp, hstatus⟩ := Option.map_eq_some_iff.mp hstatus
    exact ⟨resp, (tracks_initial.step post).1.trans hresp, by omega⟩
  record order := by
    obtain ⟨info, hinfo, hflags⟩ := record
    refine ⟨info, ?_, hflags⟩
    rw [(tracks.store.call (.getInfo id) (StoreOp.forall_handle valid) order).1]
    simp only [Slots.interp, Slot.record]
    rw [slots] at hinfo
    rw [hinfo]

end EmptyPatch

open EmptyPatch in
/-- A download leaves the content, and so does work on another upload. -/
theorem completed_content_stable_other :
    (uploads.interp order (.readContent id) (uploads.backend.serveAll handler
      [get, other, patchOther]
      (uploads.backend.serve handler post uploads.backend.initial).2).store).1 = .ok [97] ∨
    (uploads.backend.serveAll handler [get, other, patchOther]
      (uploads.backend.serve handler post uploads.backend.initial).2).store.content
        (uploads.infoPath id) = none := by
  obtain ⟨c, hbefore, hafter⟩ := completed_content_stable .initial completes
  obtain ⟨-, -, -, -, hcontent, -, -, hspares⟩ := evaluated
  obtain rfl : c = [97] := by
    have heq := (hbefore order).symm.trans ((content order tracks).trans hcontent)
    exact Except.ok.inj heq
  have hpasses : uploads.backend.passes handler (fun _ => spares) [get, other, patchOther]
      (uploads.backend.serve handler post uploads.backend.initial).2 = true := by
    simpa only [Backend.passes, Bool.and_true, List.all_cons, List.all_nil] using hspares
  exact (hafter _ (.serveAll (fun _ _ => gentle_of_spares) hpasses)).imp_left
    fun hall => hall order

open EmptyPatch in
/-- The empty chunk at the end of a completed upload is accepted, and the
content is gone. -/
theorem completed_content_lost :
    uploads.Completes handler post uploads.backend.initial id ∧ patch.req.method = .patch ∧
      (uploads.backend.serve handler patch
        (uploads.backend.serve handler post uploads.backend.initial).2).1.map TusResponse.status =
          some 204 ∧
      (uploads.interp order (.readContent id)
        (uploads.backend.serve handler post uploads.backend.initial).2.store).1 = .ok [97] ∧
      (uploads.interp order (.readContent id) (uploads.backend.serve handler patch
        (uploads.backend.serve handler post uploads.backend.initial).2).2.store).1 = .ok [] := by
  obtain ⟨hanswer, hafter⟩ := tracks.step (h := handler) patch
  obtain ⟨-, -, -, -, hcontent, hstatus, hlost, -⟩ := evaluated
  rw [slots] at hcontent
  rw [patched, slots] at hstatus hlost
  refine ⟨completes, rfl, ?_, ?_, ?_⟩
  · rw [hanswer]
    exact hstatus
  · rw [content order tracks]
    exact hcontent
  · rw [content order hafter]
    exact hlost

end FileStore

end Fileloft
