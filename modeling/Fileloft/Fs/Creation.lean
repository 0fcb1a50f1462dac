import Fileloft.Fs.Final
import Fileloft.Server.Creation

/-!
# Creations over the file store

A creation changes the slot it creates, and the slots of the partials it
removes. What it leaves in its own builds on what the slot held before.
-/

namespace Fileloft

open Handler Post

namespace Slots

variable {h : TusHandler} {env : Env} {req : TusRequest} {p : Parsed} {info : UploadInfo}
  {t t' : Slots} {id : UploadId} {ids : List UploadId} {infos : List UploadInfo}

/-- The new record, over whatever the slot held before. -/
def created (t : Slots) (info : UploadInfo) : Slots :=
  Function.update t info.id { t info.id with info := some info }

/-- The partials of a final upload are there, partial and complete. -/
def Ready (t : Slots) (p : Parsed) (info : UploadInfo) : Prop :=
  p.isFinal = true → info.id ∉ info.partialUploads ∧
    ∀ i ∈ info.partialUploads, ∃ info', IsPart interp t i info'

/-- The partials of a final upload have been finalized. -/
def HasData (t : Slots) (p : Parsed) (info : UploadInfo) : Prop :=
  p.isFinal = true → ∀ i ∈ info.partialUploads, (t i).data ≠ none

/-- The data of the partials, up to the first that has none. -/
def joinedData (t : Slots) (ids : List UploadId) : Bytes :=
  (ids.takeWhile fun i => (t i).data.isSome).flatMap fun i => (t i).data.getD []

def joinedSize (t : Slots) (ids : List UploadId) : ℕ :=
  wrappingSum (ids.filterMap fun i => (t i).info.bind UploadInfo.size)

/-- The record of the new upload once its partials are joined. -/
def joinedInfo (t : Slots) (p : Parsed) (info : UploadInfo) : UploadInfo :=
  if p.isFinal then
    { info with
      size := some (joinedSize t info.partialUploads)
      offset := joinedSize t info.partialUploads
      isFinal := true }
  else info

/-- The new upload with the record `info'`, and its data joined if it is a
final one. -/
def joined (t : Slots) (p : Parsed) (info info' : UploadInfo) : Slot where
  info := some info'
  parts := (t info.id).parts
  data := if p.isFinal then some (joinedData t info.partialUploads) else (t info.id).data

/-- The body is read whole, and the upload takes it at its start. -/
def Fits (h : TusHandler) (req : TusRequest) (info : UploadInfo) : Prop :=
  ∀ body, uploadBody h req = some body → ∃ buf, body = .ok buf ∧ info.offset = 0 ∧
    buf.length < U64_BOUND ∧ ∀ size, info.size = some size → buf.length ≤ size

/-- The new upload once its body is written, as a part of its own. -/
def written (h : TusHandler) (req : TusRequest) (slot : Slot) (info : UploadInfo) : Slot :=
  match uploadBody h req with
  | some (.ok buf) => slot.storeChunk info buf buf.length
  | _ => slot

/-- The new upload as a creation leaves it for the callback. -/
def stored (h : TusHandler) (req : TusRequest) (t : Slots) (p : Parsed) (info : UploadInfo) :
    Slot :=
  written h req (joined t p info (joinedInfo t p info)) (joinedInfo t p info)

/-- The `pre_terminate` callback lets the upload go. -/
def Accepted (h : TusHandler) (env : Env) (t : Slots) (id : UploadId) : Prop :=
  ∀ info, (t id).info = some info → env.terminateAnswer h info = .ok ()

/-- What a creation has left in its slot by the time it stops, or gets to the
callback. -/
inductive Builds (h : TusHandler) (req : TusRequest) (t : Slots) (p : Parsed)
    (info : UploadInfo) : Slot → Prop where
  | created (hready : ¬ Ready t p info) :
      Builds h req t p info { t info.id with info := some info }
  | unjoined (hready : Ready t p info) (hdata : ¬ HasData t p info) :
      Builds h req t p info (joined t p info info)
  | joined (hready : Ready t p info) (hdata : HasData t p info)
      (hfits : ¬ Fits h req (joinedInfo t p info)) :
      Builds h req t p info (joined t p info (joinedInfo t p info))
  | stored (hready : Ready t p info) (hdata : HasData t p info)
      (hfits : Fits h req (joinedInfo t p info)) :
      Builds h req t p info (stored h req t p info)

/-- The partials are found and joined, the body is written, and where the
partials are to be removed each is named once and let go. -/
structure Submits (h : TusHandler) (env : Env) (req : TusRequest) (t : Slots) (p : Parsed)
    (info : UploadInfo) : Prop where
  ready : Ready t p info
  data : HasData t p info
  fits : Fits h req (joinedInfo t p info)
  removes : (p.isFinal && h.config.extensions.concatenation &&
      h.config.extensions.cleanupConcatPartials) = true →
    info.partialUploads.Nodup ∧ ∀ i ∈ info.partialUploads, Accepted h env t i

/-- What a creation that keeps its partials leaves in its slot: it is
finalized when it is complete and the callback accepts it. -/
inductive Leaves (h : TusHandler) (env : Env) (req : TusRequest) (p : Parsed) (info : UploadInfo)
    (t : Slots) : Slot → Prop where
  | unfinished {slot : Slot} (hbuilds : Builds h req t p info slot)
      (hopen : Submits h env req t p info → ∀ info', slot.info = some info' →
        ¬ (info'.isComplete = true ∧ env.finishAnswer h info' = .ok ())) :
      Leaves h env req p info t slot
  | finalized {info' : UploadInfo} (hsubmits : Submits h env req t p info)
      (hrecord : (stored h req t p info).info = some info') (hcomplete : info'.isComplete = true)
      (haccept : env.finishAnswer h info' = .ok ()) :
      Leaves h env req p info t (stored h req t p info).finalize

theorem Builds.unique {slot slot' : Slot} (hs : Builds h req t p info slot)
    (hs' : Builds h req t p info slot') : slot = slot' := by
  cases hs with
  | created hready =>
      cases hs' with
      | created => rfl
      | unjoined hready' | joined hready' | stored hready' => exact absurd hready' hready
  | unjoined hready hdata =>
      cases hs' with
      | created hready' => exact absurd hready hready'
      | unjoined => rfl
      | joined _ hdata' | stored _ hdata' => exact absurd hdata' hdata
  | joined hready hdata hfits =>
      cases hs' with
      | created hready' => exact absurd hready hready'
      | unjoined _ hdata' => exact absurd hdata hdata'
      | joined => rfl
      | stored _ _ hfits' => exact absurd hfits' hfits
  | stored hready hdata hfits =>
      cases hs' with
      | created hready' => exact absurd hready hready'
      | unjoined _ hdata' => exact absurd hdata hdata'
      | joined _ _ hfits' => exact absurd hfits hfits'
      | stored => rfl

theorem Submits.builds (hsubmits : Submits h env req t p info) :
    Builds h req t p info (stored h req t p info) :=
  .stored hsubmits.ready hsubmits.data hsubmits.fits

/-- A creation leaves one slot behind. -/
theorem Leaves.unique {slot slot' : Slot} (hs : Leaves h env req p info t slot)
    (hs' : Leaves h env req p info t slot') : slot = slot' := by
  cases hs with
  | unfinished hbuilds hopen =>
      cases hs' with
      | unfinished hbuilds' => exact hbuilds.unique hbuilds'
      | finalized hsubmits hrecord hcomplete haccept =>
          obtain rfl := hbuilds.unique hsubmits.builds
          exact absurd ⟨hcomplete, haccept⟩ (hopen hsubmits _ hrecord)
  | finalized hsubmits hrecord hcomplete haccept =>
      cases hs' with
      | unfinished hbuilds hopen =>
          obtain rfl := hbuilds.unique hsubmits.builds
          exact absurd ⟨hcomplete, haccept⟩ (hopen hsubmits _ hrecord)
      | finalized => rfl

/-! ## Joining the partials -/

theorem isPart_update {slot : Slot} {i : UploadId} {info' : UploadInfo} (hne : i ≠ id) :
    IsPart interp (Function.update t id slot) i info' ↔ IsPart interp t i info' := by
  have hget : (interp (.getUpload i) (Function.update t id slot)).1 =
      (interp (.getUpload i) t).1 := by
    simp [interp, getUpload, Function.update_of_ne hne]
  have hinfo : (interp (.getInfo i) (Function.update t id slot)).1 = (interp (.getInfo i) t).1 := by
    simp [interp, Function.update_of_ne hne]
  constructor
  · rintro ⟨hfound, hstored, hpart, hcomplete⟩
    exact ⟨by rw [← hfound, hget], by rw [← hstored, hinfo], hpart, hcomplete⟩
  · rintro ⟨hfound, hstored, hpart, hcomplete⟩
    exact ⟨by rw [hget, hfound], by rw [hinfo, hstored], hpart, hcomplete⟩

/-- A partial that is found has its record in an accepted slot. -/
theorem IsPart.slot {i : UploadId} {info' : UploadInfo} (hpart : IsPart interp t i info') :
    i.Valid ∧ (t i).info = some info' := by
  have hfound := hpart.found
  have hstored := hpart.stored
  simp only [interp, getUpload, Slot.record] at hfound hstored
  constructor
  · cases hvalid : i.validate with
    | error e => simp [hvalid] at hfound
    | ok _ => exact hvalid
  · cases hinfo : (t i).info with
    | none => simp [hinfo] at hstored
    | some old => simpa [hinfo] using hstored

theorem joinedData_cons {i : UploadId} {data : Bytes} (hdata : (t i).data = some data) :
    joinedData t (i :: ids) = data ++ joinedData t ids := by
  simp [joinedData, hdata]

theorem joinedData_stuck {i : UploadId} (hdata : (t i).data = none) :
    joinedData t (i :: ids) = [] := by
  simp [joinedData, hdata]

theorem joinedData_congr (hsame : ∀ i ∈ ids, t' i = t i) :
    joinedData t' ids = joinedData t ids := by
  induction ids with
  | nil => rfl
  | cons i ids ih =>
      obtain ⟨hi, hrest⟩ := List.forall_mem_cons.mp hsame
      cases hdata : (t i).data with
      | none => rw [joinedData_stuck hdata, joinedData_stuck (hi ▸ hdata)]
      | some data => rw [joinedData_cons hdata, joinedData_cons (hi ▸ hdata), ih hrest]

/-- The data of the partials is appended up to the first that has none. -/
theorem appendData_parts (ht : Keyed t) (hne : ∀ i ∈ ids, i ≠ id)
    (hparts : List.Forall₂ (IsPart interp t) ids infos) (acc : Bytes) :
    (t.appendData id acc infos).2 = acc ++ joinedData t ids ∧
      ((t.appendData id acc infos).1 = .ok () ↔ ∀ i ∈ ids, (t i).data ≠ none) := by
  induction hparts generalizing acc with
  | nil => simp [appendData, joinedData]
  | @cons i info ids infos hpart _ ih =>
      obtain ⟨hvalid, hinfo⟩ := IsPart.slot hpart
      obtain rfl : info.id = i := ht i info hinfo
      have hok : info.id.validate = .ok () := hvalid
      simp only [appendData, hok, if_neg (hne _ List.mem_cons_self)]
      cases hdata : (t info.id).data with
      | none => simp [joinedData_stuck hdata, hdata]
      | some data =>
          obtain ⟨hbytes, hanswer⟩ :=
            ih (fun i hi => hne i (List.mem_cons_of_mem _ hi)) (acc ++ data)
          simp only [List.forall_mem_cons, hdata, ne_eq, reduceCtorEq, not_false_eq_true, true_and]
          exact ⟨by rw [hbytes, joinedData_cons hdata, List.append_assoc], hanswer⟩

theorem sizes_parts (hparts : List.Forall₂ (IsPart interp t) ids infos) :
    infos.filterMap UploadInfo.size = ids.filterMap fun i => (t i).info.bind UploadInfo.size := by
  induction hparts with
  | nil => rfl
  | cons hpart _ ih => simp only [List.filterMap_cons, (IsPart.slot hpart).2, Option.bind_some, ih]

theorem ready_iff (hself : p.isFinal = true → info.isPartial = false) (hfinal : p.isFinal = true) :
    Ready t p info ↔
      ∃ infos, List.Forall₂ (IsPart interp (t.created info)) info.partialUploads infos := by
  constructor
  · intro hready
    obtain ⟨hne, hparts⟩ := hready hfinal
    rw [exists_forall₂_iff]
    intro i hi
    obtain ⟨info', hpart⟩ := hparts i hi
    refine ⟨info', (isPart_update ?_).mpr hpart⟩
    rintro rfl
    exact hne hi
  · rintro ⟨infos, hparts⟩ -
    have hne := parts_ne (hself hfinal) rfl hparts
    refine ⟨fun hmem => hne _ hmem rfl, fun i hi => ?_⟩
    obtain ⟨info', hpart⟩ := exists_forall₂_iff.mp ⟨infos, hparts⟩ i hi
    exact ⟨info', (isPart_update (hne i hi)).mp hpart⟩

theorem ready_of_fetched (hne : info.id ∉ info.partialUploads)
    (hfetched : fetched interp t info.partialUploads = .ok infos) : Ready t p info :=
  fun _ => ⟨hne, exists_forall₂_iff.mp ⟨infos, fetched_eq_ok.mp hfetched⟩⟩

section Joining

variable (hself : p.isFinal = true → info.isPartial = false)
  (hconcat : p.isFinal = true → h.config.extensions.concatenation = true)

include hself hconcat

theorem joining_unready (hready : ¬ Ready t p info) :
    ∃ e, joining interp h p info (t.created info) = (.error e, t.created info) := by
  have hfinal : p.isFinal = true := by
    by_contra hfinal
    exact hready fun htrue => absurd htrue hfinal
  rw [ready_iff hself hfinal] at hready
  simp only [joining, hfinal, hconcat hfinal, Bool.and_self, if_true]
  cases hfetch : fetched interp (t.created info) info.partialUploads with
  | error e => exact ⟨e, rfl⟩
  | ok infos => exact absurd ⟨infos, fetched_eq_ok.mp hfetch⟩ hready

/-- What joining leaves in the new slot, whether or not it gets to the end. -/
theorem joining_ready (ht : Keyed t) (hready : Ready t p info) :
    (HasData t p info → joining interp h p info (t.created info) =
      (.ok (), Function.update t info.id (joined t p info (joinedInfo t p info)))) ∧
    (¬ HasData t p info → ∃ e, joining interp h p info (t.created info) =
      (.error e, Function.update t info.id (joined t p info info))) := by
  unfold joining
  cases hfinal : p.isFinal with
  | false =>
      refine ⟨fun _ => ?_, fun hdata => absurd (fun htrue => ?_) hdata⟩
      · simp [created, joined, joinedInfo, hfinal]
      · rw [hfinal] at htrue
        cases htrue
  | true =>
      obtain ⟨infos, hparts⟩ := (ready_iff hself hfinal).mp hready
      have hne := parts_ne (hself hfinal) rfl hparts
      have ht' : Keyed (t.created info) := ht.update fun info' hinfo => by
        cases hinfo
        rfl
      have hother {i : UploadId} (hi : i ∈ info.partialUploads) : t.created info i = t i :=
        Function.update_of_ne (hne i hi) ..
      have hall : (∀ i ∈ info.partialUploads, (t.created info i).data ≠ none) ↔
          HasData t p info := by
        constructor
        · intro hdata _ i hi
          rw [← hother hi]
          exact hdata i hi
        · intro hdata i hi
          rw [hother hi]
          exact hdata hfinal i hi
      have hbytes : joinedData (t.created info) info.partialUploads =
          joinedData t info.partialUploads := joinedData_congr fun _ => hother
      have hsizes : wrappingSum (infos.filterMap UploadInfo.size) =
          joinedSize t info.partialUploads := by
        rw [sizes_parts hparts, joinedSize]
        congr 1
        apply List.filterMap_congr
        intro i hi
        rw [hother hi]
      obtain ⟨happended, hanswer⟩ := appendData_parts ht' hne hparts []
      rw [hall] at hanswer
      rw [hbytes, List.nil_append] at happended
      simp only [hconcat hfinal, Bool.and_self, if_true, fetched_eq_ok.mpr hparts, interp,
        concatenate]
      rcases happend : (t.created info).appendData info.id [] infos with ⟨result, data⟩
      rw [happend] at happended hanswer
      obtain rfl : data = _ := happended
      cases result with
      | ok _ =>
          refine ⟨fun _ => ?_, fun hdata => absurd (hanswer.mp rfl) hdata⟩
          simp [created, joined, joinedInfo, hfinal, hsizes]
      | error e =>
          refine ⟨fun hdata => ?_, fun _ => ⟨e, ?_⟩⟩
          · cases hanswer.mpr hdata
          · simp [created, joined, hfinal]

end Joining

/-! ## Writing the body -/

section Writing

variable {slot : Slot}

theorem written_info (hslot : slot.info = some info) :
    ∃ info', (written h req slot info).info = some info' ∧ info'.size = info.size ∧
      info'.partialUploads = info.partialUploads := by
  unfold written
  split
  · exact ⟨_, rfl, rfl, rfl⟩
  · exact ⟨info, hslot, rfl, rfl⟩

/-- How much a creation writes. -/
def bodyLength (h : TusHandler) (req : TusRequest) : ℕ :=
  match uploadBody h req with
  | some (.ok buf) => buf.length
  | _ => 0

theorem writing_fits (hslot : slot.info = some info) (hfits : Fits h req info) :
    writing interp h req id (Function.update t id slot) =
      (.ok (bodyLength h req), Function.update t id (written h req slot info)) := by
  unfold writing written bodyLength
  cases hbody : uploadBody h req with
  | none => rfl
  | some body =>
      obtain ⟨buf, rfl, hoffset, hbounded, hsize⟩ := hfits body hbody
      have hend : chunkEnd info 0 buf.length = .ok buf.length :=
        chunkEnd_eq_ok.mpr ⟨by simp, by simpa using hbounded, by simpa using hsize⟩
      have haccept : FileStore.acceptChunk info 0 (.ok buf) = .ok (buf, buf.length) := by
        simp [FileStore.acceptChunk, FileStore.readToEnd, hoffset, hend, guardWith, bind,
          Except.bind, pure, Except.pure]
      simp [interp, Slot.writeChunk, Slot.record, hslot, haccept]

theorem writing_unfit (hslot : slot.info = some info) (hfits : ¬ Fits h req info) :
    ∃ e, writing interp h req id (Function.update t id slot) =
      (.error e, Function.update t id slot) := by
  unfold writing
  cases hbody : uploadBody h req with
  | none => exact absurd (fun body hsome => by simp [hbody] at hsome) hfits
  | some body =>
      simp only [interp, Function.update_self, Slot.writeChunk, Slot.record, hslot]
      cases haccept : FileStore.acceptChunk info 0 body with
      | error e => exact ⟨e, by simp⟩
      | ok r =>
          obtain ⟨buf, endOffset⟩ := r
          refine absurd (fun body' hsome => ?_) hfits
          obtain rfl : body = body' := by simpa [hbody] using hsome
          simp only [FileStore.acceptChunk, bind_eq_ok, guardWith_eq_ok, pure, Except.pure,
            Except.ok.injEq, Prod.mk.injEq] at haccept
          obtain ⟨_, hoffset, buf', hread, finish, hend, rfl, rfl⟩ := haccept
          obtain ⟨-, hbounded, hsize⟩ := chunkEnd_eq_ok.mp hend
          cases body with
          | error e => cases hread
          | ok buf =>
              obtain rfl : buf = buf' := by simpa [FileStore.readToEnd] using hread
              exact ⟨buf, rfl, by
                simpa using hoffset, by simpa using hbounded, by simpa using hsize⟩

/-- A written body is within the length of the upload. -/
theorem checking_written (hslot : slot.info = some info) (hfits : Fits h req info) :
    ∃ info', (written h req slot info).info = some info' ∧
      info'.partialUploads = info.partialUploads ∧
      checking interp id (bodyLength h req) (Function.update t id (written h req slot info)) =
        (.ok info', Function.update t id (written h req slot info)) := by
  obtain ⟨info', hinfo, hsize, hpartials⟩ := @written_info h req info slot hslot
  have hlength : withinLength info' (bodyLength h req) = .ok () := by
    unfold withinLength bodyLength
    rw [hsize]
    cases hlength : info.size with
    | none => rfl
    | some size =>
        apply guardWith_eq_ok.mpr
        cases hbody : uploadBody h req with
        | none => simp
        | some body =>
            obtain ⟨buf, rfl, -, -, hle⟩ := hfits body hbody
            simpa using hle size hlength
  refine ⟨info', hinfo, hpartials, ?_⟩
  simp [checking, interp, Slot.record, hinfo, hlength, bind, Except.bind, pure, Except.pure]

end Writing

/-! ## Removing the partials -/

/-- A creation stops with what it has built, or goes on to its partials. -/
theorem building_cases (ht : Keyed t) (hp : Prepared h req p info) (hvalid : info.id.Valid) :
    (¬ Submits h env req t p info ∧ ∃ e slot, Builds h req t p info slot ∧
      building interp h env req p info t = (.error e, Function.update t info.id slot)) ∨
    Builds h req t p info (stored h req t p info) ∧ Ready t p info ∧
      (Submits h env req t p info ↔ (p.isFinal && h.config.extensions.concatenation &&
        h.config.extensions.cleanupConcatPartials) = true →
          info.partialUploads.Nodup ∧ ∀ i ∈ info.partialUploads, Accepted h env t i) ∧
      ∃ info', (stored h req t p info).info = some info' ∧
        info'.partialUploads = info.partialUploads ∧
        building interp h env req p info t =
          tidying interp h env p info.id info'
            (Function.update t info.id (stored h req t p info)) := by
  have hcreate : interp (.createUpload info) t = (.ok (), t.created info) := by
    have hok : info.id.validate = .ok () := hvalid
    simp [interp, createUpload, hok, created]
  rw [building, hcreate]
  simp only [andThen, filling]
  by_cases hready : Ready t p info
  · obtain ⟨hjoin, hstuck⟩ := @joining_ready h _ _ t hp.not_isPartial hp.concatenation ht hready
    by_cases hdata : HasData t p info
    · have hjoined : (joined t p info (joinedInfo t p info)).info = some (joinedInfo t p info) :=
        rfl
      rw [hjoin hdata]
      simp only
      by_cases hfits : Fits h req (joinedInfo t p info)
      · right
        obtain ⟨info', hinfo, hpartials, hcheck⟩ :=
          @checking_written h req _ t info.id _ hjoined hfits
        rw [writing_fits hjoined hfits]
        simp only [hcheck]
        refine ⟨.stored hready hdata hfits, hready, ?_, info', hinfo, ?_, rfl⟩
        · exact ⟨fun hsubmits => hsubmits.removes, fun hremoves => ⟨hready, hdata, hfits, hremoves⟩⟩
        · rw [hpartials, joinedInfo]
          split <;> rfl
      · obtain ⟨e, hwrite⟩ := @writing_unfit h req _ t info.id _ hjoined hfits
        rw [hwrite]
        exact .inl ⟨fun hsubmits => hfits hsubmits.fits, e, _, .joined hready hdata hfits, rfl⟩
    · obtain ⟨e, hjoin⟩ := hstuck hdata
      rw [hjoin]
      exact .inl ⟨fun hsubmits => hdata hsubmits.data, e, _, .unjoined hready hdata, rfl⟩
  · obtain ⟨e, hjoin⟩ := @joining_unready h _ _ t hp.not_isPartial hp.concatenation hready
    rw [hjoin]
    exact .inl ⟨fun hsubmits => hready hsubmits.ready, e, _, .created hready, rfl⟩

/-- A creation that keeps its partials leaves the other slots alone. -/
theorem serve_post {x : Exchange backend} {v : World Slots} (hv : Keyed v.store)
    (hkeep : h.config.extensions.cleanupConcatPartials = false) (hmethod : x.req.method = .post)
    (hprepare : prepare h x.env x.req = .ok (p, info)) :
    (∀ i, i ≠ info.id → (backend.serve h x v).2.store i = v.store i) ∧
      Leaves h x.env x.req p info v.store ((backend.serve h x v).2.store info.id) := by
  have hserve : (backend.serve h x v).2 =
      ((create h x.req p info).run (handlerInterp interp x.env) v).2 :=
    serve_prepared hmethod hprepare
  obtain ⟨l, hrun⟩ := @run_create_building _ interp h x.env x.req pureReads p info v
  rw [hserve, hrun]
  rcases @building_cases h x.env x.req p info v.store hv (prepare_ok hprepare)
    (prepare_valid hprepare)
    with ⟨hnot, e, slot, hbuilds, hbuild⟩ | ⟨hbuilds, -, hsubmits, info', hinfo, -, hbuild⟩
  · rw [hbuild]
    simp only [check_error, reject_bind, run_reject, Function.update_self]
    exact ⟨fun i hne => Function.update_of_ne hne .., .unfinished hbuilds fun hyes =>
      absurd hyes hnot⟩
  · have hsubmitted : Submits h x.env x.req v.store p info := hsubmits.mpr (by simp [hkeep])
    have htidying : tidying interp h x.env p info.id info'
        (Function.update v.store info.id (stored h x.req v.store p info)) =
          (.ok info', Function.update v.store info.id (stored h x.req v.store p info)) := by
      rw [tidying, hkeep, Bool.and_false, if_neg Bool.false_ne_true]
    rw [hbuild, htidying]
    simp only [check_ok, Prog.ret_bind]
    obtain ⟨m, hfinish, -⟩ := @Post.run_finish _ interp h x.env x.req info.id info'
      ⟨Function.update v.store info.id (stored h x.req v.store p info), v.log ++ l⟩
    rw [hfinish, finishing_snd]
    by_cases hends : info'.isComplete = true ∧ x.env.finishAnswer h info' = .ok ()
    · simp only [completing, hends.1, if_true, hends.2, interp, Function.update_self,
        Function.update_idem]
      exact ⟨fun i hne => Function.update_of_ne hne ..,
        .finalized hsubmitted hinfo hends.1 hends.2⟩
    · have hsame : (completing interp h x.env info.id info'
          (Function.update v.store info.id (stored h x.req v.store p info))).2 =
            Function.update v.store info.id (stored h x.req v.store p info) := by
        unfold completing
        split
        · next hcomplete =>
            cases haccept : x.env.finishAnswer h info' with
            | error e => rfl
            | ok _ => exact absurd ⟨hcomplete, haccept⟩ hends
        · rfl
      simp only [hsame, Function.update_self]
      refine ⟨fun i hne => Function.update_of_ne hne .., .unfinished hbuilds
        fun _ info'' hinfo'' => ?_⟩
      obtain rfl : info' = info'' := Option.some.inj (hinfo.symm.trans hinfo'')
      exact hends

end Slots

end Fileloft
