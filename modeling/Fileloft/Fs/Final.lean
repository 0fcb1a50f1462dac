import Fileloft.Server.Fixture
import Fileloft.Server.Post
import Fileloft.Fs.Chunks
import Fileloft.Fs.Serve

/-!
# Final uploads over the file store

A final creation joins the data of its partials. It is complete at once, and
its completion joins the parts of the new upload, of which it has none.
-/

namespace Fileloft

open Handler Post

namespace Slots

/-- Every record names the upload it is stored under. -/
def Keyed (t : Slots) : Prop := ∀ id info, (t id).info = some info → info.id = id

theorem Keyed.update {t : Slots} {id : UploadId} {slot : Slot} (ht : Keyed t)
    (hslot : ∀ info, slot.info = some info → info.id = id) : Keyed (Function.update t id slot) := by
  intro id' info hinfo
  by_cases heq : id' = id
  · subst heq
    rw [Function.update_self] at hinfo
    exact hslot info hinfo
  · rw [Function.update_of_ne heq] at hinfo
    exact ht id' info hinfo

theorem keyed_interp (o : StoreOp) {t : Slots} (ht : Keyed t) : Keyed (interp o t).2 := by
  cases o with
  | createUpload info =>
      simp only [interp, createUpload]
      split
      · exact ht
      · refine ht.update fun info' hinfo => ?_
        cases hinfo
        rfl
  | getUpload _ | getInfo _ | readContent _ => exact ht
  | finalize id => exact ht.update fun info hinfo => ht id info hinfo
  | delete id => exact ht.update fun info hinfo => by cases hinfo
  | writeChunk id offset reader =>
      refine ht.update fun info hinfo => ?_
      unfold Slot.writeChunk Slot.record at hinfo
      cases hold : (t id).info with
      | none => simp [hold] at hinfo
      | some old =>
          simp only [hold] at hinfo
          split at hinfo
          · exact ht id info hinfo
          · cases hinfo
            exact ht id old hold
  | declareLength id length =>
      refine ht.update fun info hinfo => ?_
      unfold Slot.declareLength at hinfo
      cases hold : (t id).info with
      | none => simp [hold] at hinfo
      | some old =>
          simp only [hold] at hinfo
          split at hinfo
          · exact ht id info hinfo
          · cases hinfo
            exact ht id old hold
  | concatenate id partials =>
      simp only [interp, concatenate]
      split
      · exact ht.update fun info hinfo => ht id info hinfo
      · exact ht.update fun info hinfo => ht id info hinfo
      · next old _ hold =>
          refine ht.update fun info hinfo => ?_
          have hid := ht id _ hold
          cases hinfo
          exact hid

theorem keyed_of_reachable {h : TusHandler} {v : World Slots} (hv : backend.Reachable h v) :
    Keyed v.store :=
  hv.store_invariant (I := Keyed) (fun id info hinfo => by cases hinfo)
    fun _ o _ ht => keyed_interp o ht

variable {t : Slots} {ids : List UploadId} {infos : List UploadInfo}

/-- A finalized partial: its size and its data. -/
structure IsPartial (t : Slots) (id : UploadId) (part : ℕ × Bytes) : Prop where
  valid : id.Valid
  record : ∃ info, (t id).info = some info ∧ info.isPartial = true ∧ info.offset = part.1 ∧
    info.size = some part.1
  data : (t id).data = some part.2

/-- What joining succeeded for: every partial has data. -/
theorem appendData_ok {id : UploadId} {acc data : Bytes} (ht : Keyed t)
    (hne : ∀ i ∈ ids, i ≠ id) (hparts : List.Forall₂ (IsPart interp t) ids infos)
    (hdata : t.appendData id acc infos = (.ok (), data)) :
    ∃ parts : List (ℕ × Bytes), List.Forall₂ (IsPartial t) ids parts ∧
      data = acc ++ (parts.map Prod.snd).flatten ∧
      infos.filterMap UploadInfo.size = parts.map Prod.fst := by
  induction hparts generalizing acc with
  | nil => exact ⟨[], .nil, by simpa [appendData, eq_comm] using hdata, rfl⟩
  | @cons i info ids infos hpart _ ih =>
      have hi : i ≠ id := hne i (by simp)
      have hstored := hpart.stored
      simp only [interp, Slot.record] at hstored
      cases hinfo : (t i).info with
      | none => simp [hinfo] at hstored
      | some info' =>
          obtain rfl : info' = info := by simpa [hinfo] using hstored
          obtain rfl : info'.id = i := ht i info' hinfo
          have hsize := UploadInfo.isComplete_iff.mp hpart.isComplete
          rw [appendData] at hdata
          cases hvalid : info'.id.validate with
          | error e => simp [hvalid] at hdata
          | ok _ =>
              simp only [hvalid, if_neg hi] at hdata
              cases hcontent : (t info'.id).data with
              | none => simp [hcontent] at hdata
              | some content =>
                  simp only [hcontent] at hdata
                  obtain ⟨parts, hrest, rfl, hsizes⟩ := ih (fun i hi => hne i (by simp [hi])) hdata
                  refine ⟨(info'.offset, content) :: parts, .cons ?_ hrest, by simp, ?_⟩
                  · exact ⟨hvalid, ⟨info', hinfo, hpart.isPartial, rfl, hsize⟩, hcontent⟩
                  · simp [hsize, hsizes]

/-- Partials were not created by the request that names them. -/
theorem part_ne {info info' : UploadInfo} {slot : Slot} {id : UploadId}
    (hisPart : info.isPartial = false) (hslot : slot.info = some info)
    (hpart : IsPart interp (Function.update t info.id slot) id info') : id ≠ info.id := by
  rintro rfl
  have hstored := hpart.stored
  simp only [interp, Slot.record, Function.update_self, hslot, Except.ok.injEq] at hstored
  have hisPartial := hpart.isPartial
  rw [← hstored, hisPart] at hisPartial
  cases hisPartial

theorem parts_ne {info : UploadInfo} {slot : Slot} (hisPart : info.isPartial = false)
    (hslot : slot.info = some info)
    (hparts : List.Forall₂ (IsPart interp (Function.update t info.id slot)) ids infos) :
    ∀ id ∈ ids, id ≠ info.id := by
  induction hparts with
  | nil => simp
  | cons hpart _ ih => exact List.forall_mem_cons.mpr ⟨part_ne hisPart hslot hpart, ih⟩

theorem isPartial_update {id : UploadId} {slot : Slot} {parts : List (ℕ × Bytes)}
    (hne : ∀ i ∈ ids, i ≠ id)
    (hparts : List.Forall₂ (IsPartial (Function.update t id slot)) ids parts) :
    List.Forall₂ (IsPartial t) ids parts := by
  induction hparts with
  | nil => exact .nil
  | @cons i part ids parts hpart _ ih =>
      have hi : i ≠ id := hne i (by simp)
      refine .cons ?_ (ih fun i hi => hne i (by simp [hi]))
      have hrecord := hpart.record
      have hdata := hpart.data
      rw [Function.update_of_ne hi] at hrecord hdata
      exact ⟨hpart.valid, hrecord, hdata⟩

/-- The store after a final creation: the parts that were stored under the
new id have become its data, and its record follows the partials. -/
theorem finalCalls_slot {h : TusHandler} {req : TusRequest} {info finalInfo : UploadInfo}
    {t₁ t₂ t₃ t' : Slots} (ht : Keyed t) (hisPart : info.isPartial = false)
    (hbody : uploadBody h req = none)
    (hcalls : FinalCalls interp h req info infos finalInfo t t₁ t₂ t₃ t') :
    info.id.Valid ∧ ∃ parts : List (ℕ × Bytes),
      List.Forall₂ (IsPartial t) info.partialUploads parts ∧
      t' info.id =
        { info := some { info with
            size := some (wrappingSum (parts.map Prod.fst))
            offset := wrappingSum (parts.map Prod.fst), isFinal := true }
          parts := []
          data := some (t info.id).parts.flatten } := by
  obtain ⟨hcreate, hparts, hconcat, hbody', hstored, hfinish⟩ := hcalls
  simp only [interp, createUpload] at hcreate
  cases hvalid : info.id.validate with
  | error e => simp [hvalid] at hcreate
  | ok _ =>
      simp only [hvalid, Prod.mk.injEq, true_and] at hcreate
      subst hcreate
      refine ⟨hvalid, ?_⟩
      have hne := parts_ne hisPart rfl hparts
      have ht₁ : Keyed (Function.update t info.id { t info.id with info := some info }) :=
        ht.update fun info' hinfo => by
          cases hinfo
          rfl
      obtain rfl : t₃ = t₂ := by
        rcases hbody' with ⟨-, rfl⟩ | ⟨body, n, hsome, -⟩
        · rfl
        · simp [hbody] at hsome
      simp only [interp, concatenate] at hconcat
      rcases happend : appendData (Function.update t info.id { t info.id with info := some info })
        info.id [] infos with ⟨result, data⟩
      rw [happend] at hconcat
      cases result with
      | error e => simp at hconcat
      | ok _ =>
          obtain ⟨parts, hforall, -, hsizes⟩ := appendData_ok ht₁ hne hparts happend
          refine ⟨parts, isPartial_update hne hforall, ?_⟩
          simp only [Function.update_self, Function.update_idem, hsizes, Prod.mk.injEq,
            true_and] at hconcat
          subst hconcat
          simp only [interp, Slot.record, Function.update_self, Except.ok.injEq] at hstored
          have hcomplete : finalInfo.isComplete = true := by
            rw [UploadInfo.isComplete_iff, ← hstored]
          rcases hfinish with ⟨hincomplete, -⟩ | ⟨-, hfinalize⟩
          · simp [hcomplete] at hincomplete
          · simp only [interp, Prod.mk.injEq, true_and] at hfinalize
            rw [← hfinalize]
            simp [Slot.finalize]

end Slots

namespace FileStore

variable {s : FileStore} {h : TusHandler}

/-- A finalized partial on the disk: its size and its content. -/
structure IsPartial (s : FileStore) (d : Disk) (id : UploadId) (part : ℕ × Bytes) : Prop where
  record : ∀ order, ∃ info, (s.interp order (.getInfo id) d).1 = .ok info ∧
    info.isPartial = true ∧ info.size = some part.1
  content : ∀ order, (s.interp order (.readContent id) d).1 = .ok part.2

/-- An upload that consists of these partials. -/
structure Assembled (s : FileStore) (d : Disk) (id : UploadId) (parts : List (ℕ × Bytes)) :
    Prop where
  content : ∀ order, (s.interp order (.readContent id) d).1 = .ok (parts.map Prod.snd).flatten
  record : ∀ order, ∃ info, (s.interp order (.getInfo id) d).1 = .ok info ∧
    info.offset = (parts.map Prod.fst).sum ∧ info.size = some (parts.map Prod.fst).sum

theorem Keeps.isPartial {d : Disk} {t : Slots} {id : UploadId} {part : ℕ × Bytes}
    (hd : s.Keeps d t) (hpart : t.IsPartial id part) : s.IsPartial d id part := by
  obtain ⟨hvalid, ⟨info, hinfo, hisPart, hoffset, hsize⟩, hdata⟩ := hpart
  refine ⟨fun order => ⟨info, ?_, hisPart, hsize⟩, fun order => ?_⟩
  · rw [(hd.call (.getInfo id) (StoreOp.forall_handle hvalid) order).1]
    simp [Slots.interp, Slot.record, hinfo]
  · have hcomplete : info.isComplete = true := by
      rw [UploadInfo.isComplete_iff, hsize, hoffset]
    rw [(hd.call (.readContent id) (StoreOp.forall_handle hvalid) order).1]
    simp [Slots.interp, Slot.readContent, Slot.record, hinfo, hcomplete, hdata]

/-- What is assembled depends on the slot only. -/
theorem Keeps.assembled_iff {d : Disk} {t : Slots} {id : UploadId} {parts : List (ℕ × Bytes)}
    (hd : s.Keeps d t) (hid : id.Valid) :
    s.Assembled d id parts ↔
      (t id).readContent = .ok (parts.map Prod.snd).flatten ∧
        ∃ info, (t id).info = some info ∧ info.offset = (parts.map Prod.fst).sum ∧
          info.size = some (parts.map Prod.fst).sum := by
  have hcontent (order : Listing) :=
    (hd.call (.readContent id) (StoreOp.forall_handle hid) order).1
  have hrecord (order : Listing) := (hd.call (.getInfo id) (StoreOp.forall_handle hid) order).1
  have order : Listing := default
  constructor
  · intro hassembled
    obtain ⟨info, hinfo, hsums⟩ := hassembled.record order
    rw [hrecord, Slots.interp, Slot.record] at hinfo
    refine ⟨by rw [← hassembled.content order, hcontent, Slots.interp], info, ?_, hsums⟩
    cases hslot : (t id).info with
    | none => simp [hslot] at hinfo
    | some info' => simpa [hslot] using hinfo
  · rintro ⟨hread, info, hinfo, hsums⟩
    refine ⟨fun order => ?_, fun order => ⟨info, ?_, hsums⟩⟩
    · rw [hcontent, Slots.interp, hread]
    · rw [hrecord, Slots.interp, Slot.record, hinfo]

/-- A final creation that is answered consists of its partials exactly when
the parts stored under the new id are their contents, which for a new id
means that these are empty. -/
theorem post_final_assembles_iff {x : Exchange s.backend} {w : World Disk} {resp : TusResponse}
    (hw : s.backend.Reachable h w) (hconcat : h.config.extensions.concatenation = true)
    (hkeep : h.config.extensions.cleanupConcatPartials = false) (hmethod : x.req.method = .post)
    (hfinal : isFinalHeader (HeaderMap.getStr x.req.headers .uploadConcat) = true)
    (hbody : uploadBody h x.req = none) (hresp : (s.backend.serve h x w).1 = some resp)
    (hstatus : resp.status = 201) :
    ∃ p info stored, prepare h x.env x.req = .ok (p, info) ∧ s.HasParts w.store info.id stored ∧
      ∃ parts, List.Forall₂ (s.IsPartial w.store) info.partialUploads parts ∧
        (s.Assembled (s.backend.serve h x w).2.store info.id parts ↔
          stored.flatten = (parts.map Prod.snd).flatten ∧
            (parts.map Prod.fst).sum < U64_BOUND) := by
  obtain ⟨v, hv, hwv⟩ := tracks_of_reachable hw
  obtain ⟨hanswer, hnext⟩ := hwv.step x (h := h)
  rw [hanswer] at hresp
  obtain ⟨p, info, hprepare, hrun⟩ := run_create_of_status hmethod hresp (by omega)
  have hprepared := prepare_ok hprepare
  obtain ⟨hheader, hisFinal, -, -⟩ := parseRequest_ok hprepared.parsed
  have hfinal' : p.isFinal = true := by rw [hisFinal, hheader, hfinal]
  have hisPart : info.isPartial = false := by
    rw [hprepared.isPartial, isPartial_of_isFinal hprepared.parsed hfinal']
  obtain ⟨infos, finalInfo, t₁, t₂, t₃, hcalls⟩ :=
    run_create_final Slots.pureReads hfinal' hconcat hkeep hrun
  change FinalCalls Slots.interp h x.req info infos finalInfo v.store t₁ t₂ t₃
    (Slots.backend.serve h (slotted x) v).2.store at hcalls
  obtain ⟨hvalid, parts, hparts, hslot⟩ :=
    Slots.finalCalls_slot (Slots.keyed_of_reachable hv) hisPart hbody hcalls
  refine ⟨p, info, (v.store info.id).parts, hprepare, hwv.store.hasParts hvalid, parts,
    hparts.imp fun _ _ hpart => hwv.store.isPartial hpart, ?_⟩
  rw [hnext.store.assembled_iff hvalid, hslot]
  simp only [Slot.readContent, Slot.record, UploadInfo.isComplete_iff.mpr, if_true,
    Except.ok.injEq, Option.some.injEq, exists_eq_left', wrappingSum, and_self]
  refine and_congr_right fun _ => ?_
  have hpos : 0 < U64_BOUND := by decide
  constructor
  · intro hsum
    rw [← hsum]
    exact Nat.mod_lt _ hpos
  · exact Nat.mod_eq_of_lt

namespace FinalUpload

def handler : TusHandler := ⟨{ extensions := { concatenation := true } }, true, .fixed⟩

def order : Listing := ⟨List.reverse, List.reverse_perm⟩

/-- A partial upload of two bytes, created with its content. -/
def partialPost : Exchange uploads.backend where
  req := .ofTexts .post none [(.tusResumable, "1.0.0"), (.uploadLength, "2"),
    (.uploadConcat, "partial"), (.contentType, "application/offset+octet-stream")] (some [97, 98])
  env := .permissive .a
  choice := order

/-- Its final upload. -/
def finalPost : Exchange uploads.backend where
  req := .ofTexts .post none [(.tusResumable, "1.0.0"),
    (.uploadConcat, "final;/files/a1234567-89ab-4cde-8fed-0123456789ab")] none
  env := .permissive .b
  choice := order

def partialId : UploadId := .new partialPost.env.uuid

def finalId : UploadId := .new finalPost.env.uuid

def before : World Disk := uploads.backend.serveAll handler [partialPost] uploads.backend.initial

def slots : World Slots :=
    Slots.backend.serveAll handler [slotted partialPost] Slots.backend.initial

theorem reachable_before : uploads.backend.Reachable handler before :=
  Backend.Reachable.initial.serveAll [partialPost]

theorem tracks_before : uploads.Tracks before slots := tracks_initial.serveAll [partialPost]

/-- The creation of the final upload over the slots. -/
def joined : Option TusResponse × World Slots :=
    Slots.backend.serve handler (slotted finalPost) slots

theorem evaluated :
    (partialId.Valid ∧ finalId.Valid) ∧ (slots.store partialId).data = some [97, 98] ∧
      isFinalHeader (HeaderMap.getStr finalPost.req.headers .uploadConcat) = true ∧
      joined.1.map TusResponse.status = some 201 ∧ (joined.2.store finalId).readContent =
        .ok [] := by
  decide +kernel

theorem status : (uploads.backend.serve handler finalPost before).1.map TusResponse.status =
    some 201 := by
  obtain ⟨-, -, -, hstatus, -⟩ := evaluated
  rw [joined] at hstatus
  rw [(tracks_before.step finalPost).1]
  exact hstatus

theorem valid : partialId.Valid ∧ finalId.Valid := evaluated.1

theorem isPartial : uploads.IsPartial before.store partialId (2, [97, 98]) :=
  tracks_before.store.isPartial ⟨valid.1, ⟨_, rfl, rfl, rfl, rfl⟩, evaluated.2.1⟩

end FinalUpload

open FinalUpload in
theorem post_final_assembles_iff_two :
    ∃ p info stored, prepare handler finalPost.env finalPost.req = .ok (p, info) ∧
      uploads.HasParts before.store info.id stored ∧
      ∃ parts, List.Forall₂ (uploads.IsPartial before.store) info.partialUploads parts ∧
        (uploads.Assembled (uploads.backend.serve handler finalPost before).2.store info.id parts ↔
          stored.flatten = (parts.map Prod.snd).flatten ∧
            (parts.map Prod.fst).sum < U64_BOUND) := by
  obtain ⟨resp, hresp, hstatus⟩ := Option.map_eq_some_iff.mp status
  exact post_final_assembles_iff reachable_before rfl rfl rfl evaluated.2.2.1 rfl hresp hstatus

open FinalUpload in
/-- The final upload of a partial with two bytes is answered and is empty. -/
theorem post_final_is_empty :
    uploads.backend.Reachable handler before ∧ finalPost.req.method = .post ∧
      isFinalHeader (HeaderMap.getStr finalPost.req.headers .uploadConcat) = true ∧
      uploadBody handler finalPost.req = none ∧
      (uploads.backend.serve handler finalPost before).1.map TusResponse.status = some 201 ∧
      uploads.IsPartial before.store partialId (2, [97, 98]) ∧
      (uploads.interp order (.readContent finalId)
        (uploads.backend.serve handler finalPost before).2.store).1 = .ok [] ∧
      ¬ uploads.Assembled (uploads.backend.serve handler finalPost before).2.store finalId
        [(2, [97, 98])] := by
  have hempty : (uploads.interp order (.readContent finalId)
      (uploads.backend.serve handler finalPost before).2.store).1 = .ok [] := by
    have htracks := (tracks_before.step (h := handler) finalPost).2
    obtain ⟨-, -, -, -, hcontent⟩ := evaluated
    rw [joined] at hcontent
    rw [(htracks.store.call (.readContent finalId) (StoreOp.forall_handle valid.2) order).1]
    exact hcontent
  refine ⟨reachable_before, rfl, evaluated.2.2.1, rfl, status, isPartial, hempty, fun hall => ?_⟩
  have hfull := hall.content order
  rw [hempty] at hfull
  revert hfull
  decide

end FileStore

end Fileloft
