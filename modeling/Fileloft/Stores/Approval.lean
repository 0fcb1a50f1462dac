import Fileloft.Fs.Creation
import Fileloft.Fs.Fixture
import Fileloft.Memory.Creation
import Fileloft.Memory.Patch
import Fileloft.Server.Approval

/-!
# Approval over the two stores

In memory the data of an upload is readable as soon as it is complete. On
disk a plain upload is readable once it is finalized, and a final one as soon
as its partials are joined.
-/

namespace Fileloft

open Handler

/-! ## What a PATCH shows to the callback -/

namespace Patch

/-- The record once the length a request declares is stored. -/
def declaredInfo (info : UploadInfo) (size : Option ℕ) : UploadInfo :=
  match size with
  | some declaredSize => { info with size := some declaredSize, sizeIsDeferred := false }
  | none => info

/-- The record once a chunk of `n` bytes is stored after it. -/
def appendedInfo (info : UploadInfo) (size : Option ℕ) (n : ℕ) : UploadInfo :=
  { declaredInfo info size with offset := info.offset + n }

@[simp]
theorem declaredInfo_offset (info : UploadInfo) (size : Option ℕ) :
    (declaredInfo info size).offset = info.offset := by
  cases size <;> rfl

@[simp]
theorem declaredInfo_size (info : UploadInfo) (size : Option ℕ) :
    (declaredInfo info size).size = size.or info.size := by
  cases size <;> rfl

/-- A chunk that completes its upload is accepted by the callback, and a
declared length that completes it without a chunk is not taken, unless the
upload was approved before. -/
structure Confirmed (h : TusHandler) (env : Env) (req : TusRequest) (info : UploadInfo)
    (size : Option ℕ) (approved : Prop) : Prop where
  chunk : ∀ buf, MemoryStore.Appends h req info size buf →
    (appendedInfo info size buf.length).isComplete = true →
      env.finishAnswer h (appendedInfo info size buf.length) = .ok () ∨ approved
  refused : (∀ buf, ¬ MemoryStore.Appends h req info size buf) →
    size.or info.size = some info.offset → approved

/-- What the two calls of a PATCH make of the record, over either store. -/
structure Records {σ : Type} (impl : Interp StoreSig σ) (id : UploadId) : Prop where
  declared : ∀ s info length, (impl (.getInfo id) s).1 = .ok info → info.size = none →
    (impl (.declareLength id length) s).1 = .ok () ∧
      (impl (.getInfo id) (impl (.declareLength id length) s).2).1 =
        .ok (declaredInfo info (some length))
  written : ∀ s info buf finish, (impl (.getInfo id) s).1 = .ok info →
    chunkEnd info info.offset buf.length = .ok finish →
      (∃ n, (impl (.writeChunk id info.offset (.ok buf)) s).1 = .ok n) ∧
        (impl (.getInfo id) (impl (.writeChunk id info.offset (.ok buf)) s).2).1 =
          .ok { info with offset := finish }
  refused : ∀ s info reader, (impl (.getInfo id) s).1 = .ok info →
    (∀ buf finish, reader = .ok buf → chunkEnd info info.offset buf.length ≠ .ok finish) →
      (∃ e, (impl (.writeChunk id info.offset reader) s).1 = .error e) ∧
        (impl (.getInfo id) (impl (.writeChunk id info.offset reader) s).2).1 = .ok info

section Filling

variable {σ : Type} {impl : Interp StoreSig σ} {h : TusHandler} {env : Env} {req : TusRequest}
  {id : UploadId} {info : UploadInfo} {size : Option ℕ} {s : σ}

/-- The chunk of a request is accepted after its declared length, or the
record stays there without it. -/
theorem filling_cases (hrec : Records impl id) (ha : Admits impl h env req s id info size) :
    (∃ buf, MemoryStore.Appends h req info size buf ∧
      (filling impl h req id info.offset size s).1 = .ok (appendedInfo info size buf.length)) ∨
    ∃ e, (∀ buf, ¬ MemoryStore.Appends h req info size buf) ∧
      (filling impl h req id info.offset size s).1 = .error e ∧
      (impl (.getInfo id) (filling impl h req id info.offset size s).2).1 =
        .ok (declaredInfo info size) := by
  obtain ⟨s', hinfo, hfilling⟩ : ∃ s', (impl (.getInfo id) s').1 = .ok (declaredInfo info size) ∧
      filling impl h req id info.offset size s =
        andThen (andThen (chunkReader h req, s')
            fun reader => impl (.writeChunk id info.offset reader))
          fun _ s => ((impl (.getInfo id) s).1, s) := by
    cases size with
    | none =>
        refine ⟨s, ha.stored, ?_⟩
        cases hreader : chunkReader h req <;> simp only [filling, hreader, andThen]
    | some declaredSize =>
        obtain ⟨hok, hinfo⟩ :=
          hrec.declared s info declaredSize ha.stored (declaredLength_eq_some ha.length).1
        refine ⟨_, hinfo, ?_⟩
        rw [filling]
        rcases hdeclare : impl (.declareLength id declaredSize) s with ⟨result, s'⟩
        rw [hdeclare] at hok
        obtain rfl : result = .ok () := hok
        cases hreader : chunkReader h req <;> simp only [andThen]
  rw [hfilling]
  cases hreader : chunkReader h req with
  | error e =>
      refine .inr ⟨e, fun buf happends => ?_, rfl, hinfo⟩
      have hread := happends.read
      rw [hreader] at hread
      cases hread
  | ok reader =>
      by_cases hfits : ∃ buf finish, reader = .ok buf ∧
        chunkEnd (declaredInfo info size) info.offset buf.length = .ok finish
      · obtain ⟨buf, finish, rfl, hend⟩ := hfits
        obtain ⟨hfinish, hbounded, hlength⟩ := chunkEnd_eq_ok.mp hend
        obtain ⟨⟨n, hwrite⟩, hnew⟩ := hrec.written s' (declaredInfo info size) buf finish hinfo
          (by rwa [declaredInfo_offset])
        rw [declaredInfo_offset] at hwrite hnew
        rw [declaredInfo_size] at hlength
        refine .inl ⟨buf, ⟨hreader, hbounded, hlength⟩, ?_⟩
        rcases hchunk : impl (.writeChunk id info.offset (.ok buf)) s' with ⟨result, s''⟩
        rw [hchunk] at hwrite hnew
        obtain rfl : result = .ok n := hwrite
        simp only [andThen, hchunk, hnew, appendedInfo, hfinish]
      · push Not at hfits
        obtain ⟨⟨e, hwrite⟩, hkept⟩ := hrec.refused s' (declaredInfo info size) reader hinfo
          (by rwa [declaredInfo_offset])
        rw [declaredInfo_offset] at hwrite hkept
        refine .inr ⟨e, fun buf happends => ?_, ?_, ?_⟩
        · obtain rfl : reader = .ok buf := Except.ok.inj (hreader.symm.trans happends.read)
          have hend := hfits buf (info.offset + buf.length) rfl
          apply hend
          rw [chunkEnd_eq_ok, declaredInfo_size]
          exact ⟨rfl, happends.bounded, happends.fits⟩
        all_goals
          rcases hchunk : impl (.writeChunk id info.offset reader) s' with ⟨result, s''⟩
          rw [hchunk] at hwrite hkept
          obtain rfl : result = .error e := hwrite
          simp only [andThen, hchunk, hkept]

variable {K : UploadId → Prop} {I : σ → Prop} {log : List Obs} {approved : Prop}

/-- A PATCH whose record is confirmed passes the gate. -/
theorem Confirmed.passes (hpub : Publishes impl K I) (hrec : Records impl id) (hid : K id)
    (hs : I s) (ha : Admits impl h env req s id info size)
    (hconfirmed : Confirmed h env req info size approved)
    (hread : Readable impl (filling impl h req id info.offset size s).2 id) :
    Passes h env (filling impl h req id info.offset size s).1 ∨ approved := by
  have hfilled : I (filling impl h req id info.offset size s).2 := filling_preserves hpub hid hs
  rcases filling_cases hrec ha with ⟨buf, happends, hok⟩ | ⟨e, hnone, -, hinfo⟩
  · have hnew := filling_info (Prod.ext hok rfl)
    have hcomplete := hpub.complete _ id _ hfilled hid hnew hread
    rw [hok]
    exact hconfirmed.chunk buf happends hcomplete
  · have hcomplete := hpub.complete _ id _ hfilled hid hinfo hread
    rw [UploadInfo.isComplete_iff, declaredInfo_size, declaredInfo_offset] at hcomplete
    exact .inr (hconfirmed.refused hnone hcomplete)

end Filling

end Patch

namespace MemoryStore

/-- The partials are found, the body is written, and where the partials are to
be removed each is named once and let go. -/
structure Submits (h : TusHandler) (env : Env) (req : TusRequest) (st : MemoryStore)
    (p : Post.Parsed) (info : UploadInfo) : Prop where
  ready : Ready st p info
  fits : Fits h req (joined st p info)
  removes : (removed h p info).Nodup ∧ ∀ i ∈ removed h p info, Accepted h env st i

section Building

variable {h : TusHandler} {env : Env} {req : TusRequest} {st : MemoryStore} {p : Post.Parsed}
  {info : UploadInfo}

/-- A creation stops with what it leaves in its slot, or shows that to the
callback. -/
theorem building_cases (hst : Keyed st) (hp : Post.Prepared h req p info) :
    ∃ entry, Leaves h req st p info entry ∧
      (Post.building interp h env req p info st).2 info.id = some entry ∧
      (Submits h env req st p info →
        (Post.building interp h env req p info st).1 = .ok entry.info) := by
  have hcreate : Post.building interp h env req p info st =
      Post.filling interp h env req p info (Function.update st info.id (some ⟨info, []⟩)) := rfl
  have hself := hp.not_isPartial
  have hconcat := hp.concatenation
  rw [hcreate]
  by_cases hready : Ready st p info
  · by_cases hfits : Fits h req (joined st p info)
    · refine ⟨stored h req st p info, .stored hready hfits, ?_, fun hsubmits => ?_⟩
      · rw [filling_fits hst hself hconcat hready hfits]
        by_cases hremoved : (removed h p info).Nodup ∧
          ∀ i ∈ removed h p info, Accepted h env st i
        · rw [tidying_pass hready hremoved (@stored_partialUploads h req st p info)]
          exact Function.update_self ..
        · obtain ⟨done, id, rest, hids, hdone, haccepted, hstop⟩ := exists_first_failure hremoved
          unfold removed at hids
          split at hids
          · next htidies =>
              obtain ⟨e, htidying⟩ := tidying_stop hready htidies hids hdone haccepted hstop
                (@stored_partialUploads h req st p info)
              rw [htidying]
              exact Function.update_self ..
          · simp at hids
      · rw [filling_fits hst hself hconcat hready hfits,
          tidying_pass hready hsubmits.removes (@stored_partialUploads h req st p info)]
    · obtain ⟨e, hfilling⟩ := @filling_body h env req _ _ _ hst hself hconcat hready hfits
      rw [hfilling]
      exact ⟨_, .joined hready hfits, Function.update_self .., fun hsubmits =>
        absurd hsubmits.fits hfits⟩
  · obtain ⟨e, hfilling⟩ := @filling_parts h env req _ _ _ hself hconcat hready
    rw [hfilling]
    exact ⟨_, .created hready, Function.update_self .., fun hsubmits =>
      absurd hsubmits.ready hready⟩

end Building

end MemoryStore

namespace Slots

variable {t : Slots} {id : UploadId}

end Slots

namespace FileStore

variable {s : FileStore} {d : Disk} {t : Slots} {id : UploadId} {order : Listing}

theorem pureReads : PureReads (s.interp order) where
  getUpload id d := by
    simp only [interp, call, getUpload, Prog.bind_eq]
    cases id.validate with
    | error e => rfl
    | ok _ =>
        rw [Prog.ofExcept_ok, Prog.ret_bind, Prog.run_bind_ok run_tryExists]
        split <;> rfl
  getInfo id d := by
    simp only [interp, call, readInfo, FsProg.read, FsProg.io, Prog.bind_eq, Prog.op_bind,
      Prog.run_op, Disk.interp]
    cases d.read (s.infoPath id) with
    | error e => rfl
    | ok bytes =>
        simp only [Prog.ret_bind]
        cases s.codec.fromSlice bytes <;> rfl

/-- The directory keeps records that name their uploads. -/
def Keyed (s : FileStore) (d : Disk) : Prop := ∃ t, s.Keeps d t ∧ Slots.Keyed t

end FileStore

namespace Consented

/-- Downloads and removed partials, with a callback for both ends. -/
def handler : TusHandler where
  config :=
    { enableDownload := true
      extensions := { concatenation := true, cleanupConcatPartials := true }
      hooks := { preFinish := true, preTerminate := true } }
  hasLocker := true
  lib := .fixed

/-- A partial upload gets its length and its bytes with a PATCH, and becomes a
final one. -/
def requests : List (TusRequest × Env) :=
  [(.ofTexts .post none
      [(.tusResumable, "1.0.0"), (.uploadDeferLength, "1"), (.uploadConcat, "partial")] none,
    .permissive .a),
  (.ofTexts .patch (some "a1234567-89ab-4cde-8fed-0123456789ab")
      [(.tusResumable, "1.0.0"), (.uploadOffset, "0"), (.uploadLength, "2"),
        (.contentType, "application/offset+octet-stream")] (some [97, 98]),
    .permissive .c),
  (.ofTexts .post none [(.tusResumable, "1.0.0"),
      (.uploadConcat, "final;/files/a1234567-89ab-4cde-8fed-0123456789ab")] none,
    .permissive .b)]

def get : TusRequest := .ofTexts .get (some "b1234567-89ab-4cde-8fed-0123456789ab") [] none

def asked : List (Exchange MemoryStore.backend) := requests.map fun r => ⟨r.1, r.2, ()⟩

def askedOnDisk : List (Exchange FileStore.uploads.backend) :=
    requests.map fun r => ⟨r.1, r.2, default⟩

def world : World MemoryStore :=
    MemoryStore.backend.serveAll handler asked MemoryStore.backend.initial

def slots : World Slots :=
  Slots.backend.serveAll handler (askedOnDisk.map FileStore.slotted) Slots.backend.initial

def disk : World Disk :=
  FileStore.uploads.backend.serveAll handler askedOnDisk FileStore.uploads.backend.initial

section Checks

variable {σ : Type} (impl : Interp StoreSig σ) (env : Env) (req : TusRequest) (s : σ)

/-- A PATCH declares no more than it brings, and the callback accepts it. -/
def patched : Bool :=
  (Patch.admission impl handler env req s).toOption.all fun (_, info, size) =>
    size.or info.size != some info.offset &&
      (Patch.chunkReader handler req).toOption.all fun body => body.toOption.all fun buf =>
        (env.finishAnswer handler (Patch.appendedInfo info size buf.length)).toOption.isSome

/-- A creation without a body names partials that are there, each once. -/
def named (info : UploadInfo) : Bool :=
  (Post.uploadBody handler req).isNone && info.id ∉ info.partialUploads &&
    info.partialUploads.Nodup && (Post.fetched impl s info.partialUploads).toOption.isSome

variable {impl env req s}

end Checks

/-- The check of a request to the store in memory. -/
def confirms (w : World MemoryStore) (x : Exchange MemoryStore.backend) : Bool :=
  match x.req.method with
  | .patch => patched MemoryStore.interp x.env x.req w.store
  | .post => (Post.prepare handler x.env x.req).toOption.all fun (p, info) =>
    named MemoryStore.interp x.req w.store info &&
      (info.partialUploads.all fun i => (w.store i).all fun entry =>
        (x.env.terminateAnswer handler entry.info).toOption.isSome) &&
      (x.env.finishAnswer handler
        (MemoryStore.stored handler x.req w.store p info).info).toOption.isSome
  | _ => true

/-- The check of a request to the slots. -/
def confirmsSlots (v : World Slots) (x : Exchange Slots.backend) : Bool :=
  match x.req.method with
  | .patch => patched Slots.interp x.env x.req v.store
  | .post => (Post.prepare handler x.env x.req).toOption.all fun (p, info) =>
    named Slots.interp x.req v.store info &&
      (info.partialUploads.all fun i => (v.store i).data.isSome &&
        (v.store i).info.all fun record =>
          (x.env.terminateAnswer handler record).toOption.isSome) &&
      ((Slots.stored handler x.req v.store p info).info.all fun record =>
        (x.env.finishAnswer handler record).toOption.isSome)
  | _ => true

theorem evaluated :
    MemoryStore.backend.passes handler confirms asked MemoryStore.backend.initial = true ∧
    Slots.backend.passes handler confirmsSlots (askedOnDisk.map FileStore.slotted)
      Slots.backend.initial = true ∧
    (MemoryStore.backend.serve handler ⟨get, .permissive .c, ()⟩ world).1.map
      TusResponse.status = some 200 ∧
    (Slots.backend.serve handler ⟨get, .permissive .c, ()⟩ slots).1.map
      TusResponse.status = some 200 := by
  decide +kernel

end Consented

namespace Refused

def handler : TusHandler :=
    ⟨{ enableDownload := true, hooks := { preFinish := true } }, true, .fixed⟩

/-- The creation of an upload of two bytes. -/
def post : Exchange MemoryStore.backend where
  req := .ofTexts .post none [(.tusResumable, "1.0.0"), (.uploadLength, "2")] none
  env := .permissive .a
  choice := ()

/-- Its two bytes, which the callback refuses. -/
def patch : Exchange MemoryStore.backend where
  req := .ofTexts .patch (some "a1234567-89ab-4cde-8fed-0123456789ab")
    [(.tusResumable, "1.0.0"), (.uploadOffset, "0"),
      (.contentType, "application/offset+octet-stream")] (some [97, 98])
  env := { Env.permissive .b with preFinish := fun _ => .error (.hookRejected []) }
  choice := ()

def get : Exchange MemoryStore.backend where
  req := .ofTexts .get (some "a1234567-89ab-4cde-8fed-0123456789ab") [] none
  env := .permissive .b
  choice := ()

def world : World MemoryStore :=
  MemoryStore.backend.serveAll handler [post, patch] MemoryStore.backend.initial

end Refused

end Fileloft
