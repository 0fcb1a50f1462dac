import Fileloft.Fs.Store
import Mathlib.Logic.Function.Basic

/-!
# What the file store is for

An upload is its record, the chunks that were written and the data they were
joined into. The directory of the file store is one way to keep these.
-/

namespace Fileloft

theorem FileStore.acceptChunk_ok {info : UploadInfo} {offset endOffset : ℕ} {buf buf' : Bytes}
    (h : FileStore.acceptChunk info offset (.ok buf) = .ok (buf', endOffset)) :
    info.offset = offset ∧ buf' = buf ∧ endOffset = offset + buf.length := by
  simp only [FileStore.acceptChunk, bind_eq_ok, guardWith_eq_ok, FileStore.readToEnd, pure,
    Except.pure, Except.ok.injEq, Prod.mk.injEq] at h
  obtain ⟨_, hoffset, _, rfl, finish, hend, rfl, rfl⟩ := h
  exact ⟨by simpa using hoffset, rfl, (chunkEnd_eq_ok.mp hend).1⟩

/-- A complete upload accepts only the empty chunk at its end. -/
theorem FileStore.acceptChunk_complete {info : UploadInfo} {offset endOffset : ℕ} {reader : Reader}
    {buf : Bytes} (hcomplete : info.isComplete = true)
    (h : FileStore.acceptChunk info offset reader = .ok (buf, endOffset)) :
    reader = .ok buf ∧ buf = [] ∧ endOffset = info.offset := by
  simp only [FileStore.acceptChunk, bind_eq_ok, guardWith_eq_ok, pure, Except.pure,
    Except.ok.injEq, Prod.mk.injEq] at h
  obtain ⟨_, hoffset, buf', hread, finish, hend, rfl, rfl⟩ := h
  obtain ⟨rfl, -, hfits⟩ := chunkEnd_eq_ok.mp hend
  have hle := hfits _ (UploadInfo.isComplete_iff.mp hcomplete)
  have heq : info.offset = offset := by simpa using hoffset
  have hlength : buf'.length = 0 := by omega
  cases reader with
  | error e => cases hread
  | ok buf =>
      obtain rfl : buf = buf' := by simpa [FileStore.readToEnd] using hread
      exact ⟨rfl, List.length_eq_zero_iff.mp hlength, by omega⟩

structure Slot where
  info : Option UploadInfo
  parts : List Bytes
  data : Option Bytes

/-- A slot for every id, used or not. -/
abbrev Slots : Type := UploadId → Slot

namespace Slot

def empty : Slot := ⟨none, [], none⟩

/-- A chunk goes to the end. Beyond the last part number it replaces the
first part. -/
def addPart (parts : List Bytes) (buf : Bytes) : List Bytes :=
  if parts.length < FileStore.U32_BOUND then parts ++ [buf] else parts.set 0 buf

/-- The record, which every operation on an existing upload reads first. -/
def record (slot : Slot) : Except TusError UploadInfo :=
  match slot.info with
  | some info => .ok info
  | none => .error (.io .notFound)

/-- A chunk whose checks passed. -/
def storeChunk (slot : Slot) (info : UploadInfo) (buf : Bytes) (endOffset : ℕ) : Slot :=
  { slot with
    info := some { info with offset := endOffset }
    parts := addPart slot.parts buf }

def writeChunk (slot : Slot) (offset : ℕ) (reader : Reader) : Except TusError ℕ × Slot :=
  match slot.record with
  | .error e => (.error e, slot)
  | .ok info =>
    match FileStore.acceptChunk info offset reader with
    | .error e => (.error e, slot)
    | .ok (buf, endOffset) => (.ok buf.length, slot.storeChunk info buf endOffset)

/-- The parts become the data, whatever the data was before. -/
def finalize (slot : Slot) : Slot :=
  { slot with parts := [], data := some slot.parts.flatten }

def declareLength (slot : Slot) (length : ℕ) : Except TusError Unit × Slot :=
  match slot.info with
  | none => (.error (.io .notFound), slot)
  | some info =>
    if info.size.isSome then (.error .uploadLengthAlreadySet, slot)
    else (.ok (), { slot with
      info := some { info with size := some length, sizeIsDeferred := false } })

def readContent (slot : Slot) : Except TusError Bytes :=
  match slot.record with
  | .error e => .error e
  | .ok info =>
    if info.isComplete then
      match slot.data with
      | some data => .ok data
      | none => .error .uploadNotReadyForDownload
    else .error .uploadNotReadyForDownload

/-- A chunk that is written starts at the stored offset and moves it to its
end. -/
theorem writeChunk_ok {slot : Slot} {offset n : ℕ} {buf : Bytes}
    (h : (slot.writeChunk offset (.ok buf)).1 = .ok n) :
    ∃ info, slot.info = some info ∧ info.offset = offset ∧ n = buf.length ∧
      (slot.writeChunk offset (.ok buf)).2 =
        slot.storeChunk info buf (info.offset + buf.length) := by
  cases hinfo : slot.info with
  | none => simp [Slot.writeChunk, Slot.record, hinfo] at h
  | some info =>
      have hrecord : slot.record = .ok info := by rw [Slot.record, hinfo]
      simp only [Slot.writeChunk, hrecord] at h ⊢
      rcases haccept : FileStore.acceptChunk info offset (.ok buf) with e | ⟨buf', endOffset⟩
      · simp [haccept] at h
      · obtain ⟨hoffset, rfl, rfl⟩ := FileStore.acceptChunk_ok haccept
        simp only [haccept, Except.ok.injEq] at h
        exact ⟨info, rfl, hoffset, h.symm, by rw [hoffset]⟩

/-- The parts that remain of a list of stored chunks: beyond the last part
number each one replaces the first. -/
theorem foldl_addPart (chunks : List Bytes) :
    chunks.foldl addPart [] =
      if chunks.length ≤ FileStore.U32_BOUND then chunks
      else (chunks.take FileStore.U32_BOUND).set 0 (chunks.getLastD []) := by
  induction chunks using List.reverseRecOn with
  | nil => simp
  | append_singleton chunks chunk ih =>
      rw [List.foldl_append, ih, List.foldl_cons, List.foldl_nil, addPart]
      have hlast : (chunks ++ [chunk]).getLastD [] = chunk := by simp
      rw [hlast, List.length_append, List.length_singleton]
      by_cases hlt : chunks.length < FileStore.U32_BOUND
      · have hle : chunks.length ≤ FileStore.U32_BOUND := hlt.le
        simp [hlt, hle, Nat.succ_le_of_lt hlt]
      · have hnot : ¬ chunks.length + 1 ≤ FileStore.U32_BOUND := by omega
        have htake : (chunks ++ [chunk]).take FileStore.U32_BOUND =
            chunks.take FileStore.U32_BOUND :=
          List.take_append_of_le_length (by omega)
        rw [if_neg hnot, htake]
        by_cases hle : chunks.length ≤ FileStore.U32_BOUND
        · have heq : chunks.length = FileStore.U32_BOUND := by omega
          have hall : chunks.take FileStore.U32_BOUND = chunks := List.take_of_length_le hle
          rw [if_pos hle, if_neg hlt, hall]
        · have hfull : ¬ ((chunks.take FileStore.U32_BOUND).set 0 (chunks.getLastD [])).length <
            FileStore.U32_BOUND := by
            rw [List.length_set, List.length_take]
            omega
          rw [if_neg hle, if_neg hfull, List.set_set]

end Slot

namespace Slots

variable (t : Slots)

def empty : Slots := fun _ => .empty

def createUpload (info : UploadInfo) : Except TusError Unit × Slots :=
  match info.id.validate with
  | .error e => (.error e, t)
  | .ok _ => (.ok (), Function.update t info.id { t info.id with info := some info })

def getUpload (id : UploadId) : Except TusError Unit :=
  match id.validate with
  | .error e => .error e
  | .ok _ => if (t id).info.isSome then .ok () else .error (.notFound id.val)

/-- The data of the partials, added to what the destination holds so far. -/
def appendData (id : UploadId) (acc : Bytes) : List UploadInfo → Except TusError Unit × Bytes
  | [] => (.ok (), acc)
  | info :: infos =>
    match info.id.validate with
    | .error e => (.error e, acc)
    | .ok _ =>
      match if info.id = id then some acc else (t info.id).data with
      | none => (.error (.io .notFound), acc)
      | some data => appendData id (acc ++ data) infos

def concatenate (id : UploadId) (partials : List UploadInfo) : Except TusError Unit × Slots :=
  let (result, data) := t.appendData id [] partials
  let slot := { t id with data := some data }
  match result, slot.info with
  | .error e, _ => (.error e, Function.update t id slot)
  | .ok _, none => (.error (.io .notFound), Function.update t id slot)
  | .ok _, some info =>
    let total := wrappingSum (partials.filterMap UploadInfo.size)
    (.ok (), Function.update t id { slot with
      info := some { info with size := some total, offset := total, isFinal := true } })

def interp : Interp StoreSig Slots
  | .createUpload info, t => t.createUpload info
  | .getUpload id, t => (t.getUpload id, t)
  | .writeChunk id offset reader, t =>
    (((t id).writeChunk offset reader).1,
      Function.update t id ((t id).writeChunk offset reader).2)
  | .getInfo id, t => ((t id).record, t)
  | .finalize id, t => (.ok (), Function.update t id (t id).finalize)
  | .delete id, t => (.ok (), Function.update t id .empty)
  | .declareLength id length, t =>
    (((t id).declareLength length).1, Function.update t id ((t id).declareLength length).2)
  | .concatenate id partials, t => t.concatenate id partials
  | .readContent id, t => ((t id).readContent, t)

/-- A call only changes the slot of the upload it is made on. -/
theorem interp_of_ne {o : StoreOp} {id : UploadId} (hne : o.target ≠ id) (t : Slots) :
    (interp o t).2 id = t id := by
  have hupdate {i : UploadId} (hi : i ≠ id) (slot : Slot) : Function.update t i slot id = t id :=
    Function.update_of_ne hi.symm ..
  cases o with
  | getUpload _ | getInfo _ | readContent _ => rfl
  | createUpload info =>
      simp only [interp, createUpload]
      split
      · rfl
      · exact hupdate hne _
  | writeChunk _ _ _ | finalize _ | delete _ | declareLength _ _ => exact hupdate hne _
  | concatenate i partials =>
      simp only [interp, concatenate]
      split
      · exact hupdate hne _
      · exact hupdate hne _
      · exact hupdate hne _

end Slots

end Fileloft
