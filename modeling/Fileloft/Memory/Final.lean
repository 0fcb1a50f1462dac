import Fileloft.Memory.Store
import Fileloft.Server.Fixture
import Fileloft.Server.Post

/-!
# Final uploads over the in-memory store

A final creation joins the buffers of its partials. A body sent with it is
then written over the joined buffer from its start.
-/

namespace Fileloft.MemoryStore

open Handler Post

/-- Every record names the upload it is stored under. -/
def Keyed (st : MemoryStore) : Prop := ∀ id entry, st id = some entry → entry.info.id = id

theorem Keyed.update {st : MemoryStore} {id : UploadId} {entry : MemoryUploadState}
    (hst : Keyed st) (hid : entry.info.id = id) : Keyed (Function.update st id (some entry)) := by
  intro id' entry' hentry
  by_cases heq : id' = id
  · subst heq
    simp only [Function.update_self, Option.some.injEq] at hentry
    exact hentry ▸ hid
  · rw [Function.update_of_ne heq] at hentry
    exact hst id' entry' hentry

theorem keyed_interp (o : StoreOp) {st : MemoryStore} (hst : Keyed st) : Keyed (interp o st).2 := by
  cases o with
  | createUpload info => exact hst.update rfl
  | getUpload _ | getInfo _ | finalize _ | readContent _ => exact hst
  | writeChunk id offset reader =>
      simp only [interp, writeChunk]
      split
      · exact hst
      · split
        · exact hst
        · next entry hentry =>
            split
            · exact hst
            · exact hst.update (hst id entry hentry)
  | delete id =>
      simp only [interp, delete]
      split
      · intro id' entry hentry
        by_cases heq : id' = id
        · simp [heq] at hentry
        · exact hst id' entry (by simpa [heq] using hentry)
      · exact hst
  | declareLength id length =>
      simp only [interp, declareLength]
      split
      · exact hst
      · next entry hentry =>
          split
          · exact hst
          · exact hst.update (hst id entry hentry)
  | concatenate id partials =>
      simp only [interp, concatenate]
      split
      · exact hst
      · split
        · exact hst
        · next entry hentry => exact hst.update (hst id entry hentry)

theorem keyed_of_reachable {h : TusHandler} {w : World MemoryStore}
    (hw : backend.Reachable h w) : Keyed w.store :=
  hw.store_invariant (I := Keyed) (fun id entry hentry => by cases hentry)
    fun _ o _ hst => keyed_interp o hst

/-- The record of an upload bears its id. -/
theorem id_of_getInfo {st : MemoryStore} {id : UploadId} {info : UploadInfo} (hkeyed : Keyed st)
    (hinfo : getInfo st id = .ok info) : info.id = id := by
  unfold getInfo at hinfo
  cases hentry : st id with
  | none => simp [hentry] at hinfo
  | some entry =>
      obtain rfl : entry.info = info := by simpa [hentry] using hinfo
      exact hkeyed id entry hentry

/-- The buffer of an upload. -/
def dataOf (st : MemoryStore) (id : UploadId) : Bytes :=
  match st id with
  | some entry => entry.data
  | none => []

section Run

variable {h : TusHandler} {st : MemoryStore} {ids : List UploadId} {infos : List UploadInfo}

theorem IsPart.entry {id : UploadId} {info : UploadInfo} (hpart : IsPart interp st id info) :
    ∃ entry, st id = some entry ∧ entry.info = info := by
  have hstored := hpart.stored
  simp only [interp, getInfo] at hstored
  cases hentry : st id with
  | none => simp [hentry] at hstored
  | some entry => exact ⟨entry, rfl, by simpa [hentry] using hstored⟩

theorem combined_parts (hkeyed : Keyed st) (hparts : List.Forall₂ (IsPart interp st) ids infos) :
    combined st infos = .ok (ids.flatMap (dataOf st)) := by
  induction hparts with
  | nil => rfl
  | cons hpart hparts ih =>
      obtain ⟨entry, hentry, rfl⟩ := IsPart.entry hpart
      have hid := hkeyed _ _ hentry
      simp [combined, hid, hentry, ih, dataOf]

/-- A final upload that joins its partials and leaves them as they were. -/
structure Assembled (st st' : MemoryStore) (id : UploadId) (ids : List UploadId) : Prop where
  entry : ∃ entry, st' id = some entry ∧ entry.info.isFinal = true ∧
    entry.data = ids.flatMap (dataOf st) ∧ entry.info.offset = entry.data.length ∧
    entry.info.size = some entry.data.length
  kept : ∀ i ∈ ids, st' i = st i

theorem assembled_update {id : UploadId} {entry : MemoryUploadState} (hne : ∀ i ∈ ids, i ≠ id)
    (hdata : entry.data = ids.flatMap (dataOf st))
    (hinfo : entry.info.offset = entry.data.length ∧ entry.info.isFinal = true ∧
      entry.info.size = some entry.data.length) :
    Assembled st (Function.update st id (some entry)) id ids where
  entry := ⟨entry, Function.update_self .., hinfo.2.1, hdata, hinfo.1, hinfo.2.2⟩
  kept i hi := Function.update_of_ne (hne i hi) ..

/-- The entry of a final upload before its body is looked at. -/
def joinedEntry (info : UploadInfo) (data : Bytes) : MemoryUploadState where
  info := { info with size := some data.length, offset := data.length, isFinal := true }
  data := data

/-- The body replaces the start of the joined data, and the offset follows
the body. -/
def overwrittenEntry (info : UploadInfo) (data buf : Bytes) : MemoryUploadState where
  info := { info with size := some data.length, offset := buf.length, isFinal := true }
  data := buf ++ data.drop buf.length

/-- A partial was not created by the request that names it. -/
theorem part_ne {info : UploadInfo} {id : UploadId} {info' : UploadInfo}
    (hself : info.isPartial = false)
    (hpart : IsPart interp (Function.update st info.id (some ⟨info, []⟩)) id info') :
    id ≠ info.id := by
  rintro rfl
  obtain ⟨entry, hentry, rfl⟩ := IsPart.entry hpart
  rw [Function.update_self, Option.some.injEq] at hentry
  have hisPartial := hpart.isPartial
  rw [← hentry, hself] at hisPartial
  cases hisPartial

theorem parts_ne {info : UploadInfo} (hself : info.isPartial = false)
    (hparts : List.Forall₂ (IsPart interp (Function.update st info.id (some ⟨info, []⟩)))
      ids infos) : ∀ id ∈ ids, id ≠ info.id := by
  induction hparts with
  | nil => simp
  | cons hpart _ ih => exact List.forall_mem_cons.mpr ⟨part_ne hself hpart, ih⟩

theorem dataOf_update {id : UploadId} {entry : MemoryUploadState} (hne : ∀ i ∈ ids, i ≠ id) :
    ids.flatMap (dataOf (Function.update st id (some entry))) = ids.flatMap (dataOf st) := by
  refine List.flatMap_congr fun i hi => ?_
  simp [dataOf, Function.update_of_ne (hne i hi)]

theorem writeChunk_joined {info : UploadInfo} {data buf : Bytes} {n : ℕ} {st' : MemoryStore}
    (hwrite : writeChunk (Function.update st info.id (some (joinedEntry info data))) info.id 0
      (.ok buf) = (.ok n, st')) :
    buf.length ≤ data.length ∧
      st' = Function.update st info.id (some (overwrittenEntry info data buf)) := by
  simp only [writeChunk, Function.update_self] at hwrite
  cases hend : chunkEnd (joinedEntry info data).info 0 buf.length with
  | error e => simp [hend] at hwrite
  | ok finish =>
      obtain ⟨rfl, -, hfits⟩ := chunkEnd_eq_ok.mp hend
      simp only [hend, Prod.mk.injEq, Function.update_idem] at hwrite
      refine ⟨by simpa using hfits data.length rfl, hwrite.2 ▸ ?_⟩
      simp [overwrittenEntry, joinedEntry, writeAt_zero]

/-- The store a final creation leaves behind. -/
theorem finalCalls_store {req : TusRequest} {info finalInfo : UploadInfo}
    {st₁ st₂ st₃ st' : MemoryStore} (hkeyed : Keyed st) (hpart : info.isPartial = false)
    (hcalls : FinalCalls interp h req info infos finalInfo st st₁ st₂ st₃ st') :
    (∀ id ∈ info.partialUploads, id ≠ info.id) ∧
      ∃ data, data = info.partialUploads.flatMap (dataOf st) ∧
        ((uploadBody h req = none ∧
            st' = Function.update st info.id (some (joinedEntry info data))) ∨
          ∃ buf, uploadBody h req = some (.ok buf) ∧ buf.length ≤ data.length ∧
            st' = Function.update st info.id (some (overwrittenEntry info data buf))) := by
  obtain ⟨hcreate, hparts, hconcat, hbody, -, hfinish⟩ := hcalls
  obtain rfl : Function.update st info.id (some ⟨info, []⟩) = st₁ := (Prod.mk.inj hcreate).2
  have hne := parts_ne hpart hparts
  have hkeyed₁ : Keyed (Function.update st info.id (some ⟨info, []⟩)) := hkeyed.update rfl
  have hdata := combined_parts hkeyed₁ hparts
  rw [dataOf_update hne] at hdata
  have hjoined : st₂ = Function.update st info.id
      (some (joinedEntry info (info.partialUploads.flatMap (dataOf st)))) := by
    simp only [interp, concatenate, hdata, Function.update_self, Function.update_idem,
      Prod.mk.injEq] at hconcat
    exact hconcat.2.symm
  have hfinal : st' = st₃ := by
    rcases hfinish with ⟨-, rfl⟩ | ⟨-, hfinalize⟩
    · rfl
    · exact (Prod.mk.inj hfinalize).2.symm
  subst hjoined hfinal
  refine ⟨hne, _, rfl, ?_⟩
  rcases hbody with ⟨hnone, hsame⟩ | ⟨body, n, hsome, hwrite⟩
  · exact .inl ⟨hnone, hsame⟩
  · cases body with
    | error e => cases hwrite
    | ok buf => exact .inr ⟨buf, hsome, writeChunk_joined hwrite⟩

/-- A final creation that is answered assembles its partials exactly when it
writes no body of its own over them. -/
theorem final_assembles_iff {x : Exchange backend} {w : World MemoryStore}
    {resp : TusResponse} (hw : backend.Reachable h w)
    (hconcat : h.config.extensions.concatenation = true)
    (hkeep : h.config.extensions.cleanupConcatPartials = false) (hmethod : x.req.method = .post)
    (hfinal : isFinalHeader (HeaderMap.getStr x.req.headers .uploadConcat) = true)
    (hresp : (backend.serve h x w).1 = some resp) (hstatus : resp.status = 201) :
    ∃ p info, prepare h x.env x.req = .ok (p, info) ∧
      (Assembled w.store (backend.serve h x w).2.store info.id info.partialUploads ↔
        ∀ buf, uploadBody h x.req = some (.ok buf) →
          buf = info.partialUploads.flatMap (dataOf w.store)) := by
  obtain ⟨p, info, hprepare, hrun⟩ := run_create_of_status hmethod hresp (by omega)
  have hprepared := prepare_ok hprepare
  obtain ⟨hheader, hisFinal, -, -⟩ := parseRequest_ok hprepared.parsed
  have hfinal' : p.isFinal = true := by rw [hisFinal, hheader, hfinal]
  have hpart : info.isPartial = false := by
    rw [hprepared.isPartial, isPartial_of_isFinal hprepared.parsed hfinal']
  obtain ⟨infos, finalInfo, st₁, st₂, st₃, hcalls⟩ :=
    run_create_final pureReads hfinal' hconcat hkeep hrun
  change FinalCalls interp h x.req info infos finalInfo w.store st₁ st₂ st₃
    (backend.serve h x w).2.store at hcalls
  obtain ⟨hne, data, rfl, ⟨hnone, hstore⟩ | ⟨buf, hsome, hle, hstore⟩⟩ :=
    finalCalls_store (keyed_of_reachable hw) hpart hcalls
  · refine ⟨p, info, hprepare, iff_of_true ?_ fun buf hbuf => by simp [hnone] at hbuf⟩
    rw [hstore]
    exact assembled_update hne rfl ⟨rfl, rfl, rfl⟩
  · refine ⟨p, info, hprepare, ?_, fun hsame => ?_⟩
    · rintro ⟨⟨entry, hentry, -, hdata, hoffset, hsize⟩, -⟩ buf' hbuf'
      obtain rfl : buf = buf' := by simpa [hsome] using hbuf'
      rw [hstore, Function.update_self, Option.some.injEq] at hentry
      subst hentry
      have hlength : buf.length = (info.partialUploads.flatMap (dataOf w.store)).length := by
        rw [← hdata, ← hoffset]
        rfl
      rw [← hdata]
      simp [overwrittenEntry, hlength]
    · rw [hstore]
      obtain rfl := hsame buf hsome
      refine assembled_update hne ?_ ⟨?_, rfl, ?_⟩ <;> simp [overwrittenEntry]

end Run

namespace FinalWithBody

def handler : TusHandler := ⟨{ extensions := { concatenation := true } }, true, .fixed⟩

/-- A partial upload of two bytes, created with its content. -/
def partialPost : Exchange backend where
  req := .ofTexts .post none [(.tusResumable, "1.0.0"), (.uploadLength, "2"),
    (.uploadConcat, "partial"), (.contentType, "application/offset+octet-stream")] (some [97, 98])
  env := .permissive .a
  choice := ()

/-- Its final upload, with a body of one byte. -/
def finalPost : Exchange backend where
  req := .ofTexts .post none [(.tusResumable, "1.0.0"),
    (.uploadConcat, "final;/files/a1234567-89ab-4cde-8fed-0123456789ab"),
    (.contentType, "application/offset+octet-stream")] (some [120])
  env := .permissive .b
  choice := ()

def before : World MemoryStore := (backend.serve handler partialPost backend.initial).2

def partialId : UploadId := .new partialPost.env.uuid

def finalId : UploadId := .new finalPost.env.uuid

theorem reachable_before : backend.Reachable handler before := .step partialPost .initial

end FinalWithBody

open FinalWithBody in
theorem final_assembles_iff_body :
    ∃ resp p info, (backend.serve handler finalPost before).1 = some resp ∧
      prepare handler finalPost.env finalPost.req = .ok (p, info) ∧
      (Assembled before.store (backend.serve handler finalPost before).2.store info.id
          info.partialUploads ↔
        ∀ buf, uploadBody handler finalPost.req = some (.ok buf) →
          buf = info.partialUploads.flatMap (dataOf before.store)) := by
  have hstatus : (backend.serve handler finalPost before).1.map TusResponse.status = some 201 := by
    decide +kernel
  obtain ⟨resp, hresp, hstatus⟩ := Option.map_eq_some_iff.mp hstatus
  obtain ⟨p, info, hiff⟩ := final_assembles_iff reachable_before rfl rfl rfl
    (by decide +kernel) hresp hstatus
  exact ⟨resp, p, info, hresp, hiff⟩

open FinalWithBody in
/-- The body of a final creation replaces the start of the joined data. -/
theorem post_final_body_overwrites :
    backend.Reachable handler before ∧ finalPost.req.method = .post ∧
      isFinalHeader (HeaderMap.getStr finalPost.req.headers .uploadConcat) = true ∧
      (backend.serve handler finalPost before).1.map TusResponse.status = some 201 ∧
      dataOf before.store partialId = [97, 98] ∧
      dataOf (backend.serve handler finalPost before).2.store finalId = [120, 98] ∧
      ¬ Assembled before.store (backend.serve handler finalPost before).2.store finalId
        [partialId] := by
  have hbefore : dataOf before.store partialId = [97, 98] := by decide +kernel
  have hafter : dataOf (backend.serve handler finalPost before).2.store finalId = [120, 98] := by
    decide +kernel
  refine ⟨reachable_before, rfl, by decide +kernel, by decide +kernel, hbefore, hafter, ?_⟩
  rintro ⟨⟨entry, hentry, -, hdata, -⟩, -⟩
  simp only [dataOf, hentry] at hafter
  simp [hafter, hbefore] at hdata

end Fileloft.MemoryStore
