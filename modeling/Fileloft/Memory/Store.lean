import Fileloft.Server.Rules
import Mathlib.Logic.Function.Basic

/-!
# The in-memory store

Each upload is its record and one buffer. A chunk is copied into the
buffer at the offset it is given, and a final upload receives the joined
buffers of its partials.
-/

namespace Fileloft

structure MemoryUploadState where
  info : UploadInfo
  data : Bytes

abbrev MemoryStore : Type := UploadId → Option MemoryUploadState

/-- Grow the buffer to the end of the chunk, then copy the chunk in. -/
def writeAt (data : Bytes) (offset : ℕ) (buf : Bytes) : Bytes :=
  let grown := data ++ List.replicate (offset + buf.length - data.length) 0
  grown.take offset ++ buf ++ grown.drop (offset + buf.length)

namespace MemoryStore

def createUpload (st : MemoryStore) (info : UploadInfo) : Except TusError Unit × MemoryStore :=
  (.ok (), Function.update st info.id (some ⟨info, []⟩))

def getUpload (st : MemoryStore) (id : UploadId) : Except TusError Unit :=
  if (st id).isSome then .ok () else .error (.notFound id.val)

def writeChunk (st : MemoryStore) (id : UploadId) (offset : ℕ) (reader : Reader) :
    Except TusError ℕ × MemoryStore :=
  match reader with
  | .error e => (.error (.io e), st)
  | .ok buf =>
    match st id with
    | none => (.error (.notFound id.val), st)
    | some entry =>
      match chunkEnd entry.info offset buf.length with
      | .error e => (.error e, st)
      | .ok endOffset =>
        (.ok buf.length, Function.update st id (some
          { info := { entry.info with offset := endOffset }
            data := writeAt entry.data offset buf }))

def getInfo (st : MemoryStore) (id : UploadId) : Except TusError UploadInfo :=
  match st id with
  | some entry => .ok entry.info
  | none => .error (.notFound id.val)

def delete (st : MemoryStore) (id : UploadId) : Except TusError Unit × MemoryStore :=
  match st id with
  | some _ => (.ok (), Function.update st id none)
  | none => (.error (.notFound id.val), st)

def declareLength (st : MemoryStore) (id : UploadId) (length : ℕ) :
    Except TusError Unit × MemoryStore :=
  match st id with
  | none => (.error (.notFound id.val), st)
  | some entry =>
    if entry.info.size.isSome then (.error .uploadLengthAlreadySet, st)
    else (.ok (), Function.update st id (some
      { entry with info := { entry.info with size := some length, sizeIsDeferred := false } }))

def readContent (st : MemoryStore) (id : UploadId) : Except TusError Bytes :=
  match st id with
  | none => .error (.notFound id.val)
  | some entry =>
    if entry.info.isComplete then .ok entry.data else .error .uploadNotReadyForDownload

/-- The buffers of the partials, in order. -/
def combined (st : MemoryStore) : List UploadInfo → Except TusError Bytes
  | [] => .ok []
  | info :: infos =>
    match st info.id with
    | none => .error (.notFound info.id.val)
    | some entry =>
      match combined st infos with
      | .ok rest => .ok (entry.data ++ rest)
      | .error e => .error e

def concatenate (st : MemoryStore) (id : UploadId) (partials : List UploadInfo) :
    Except TusError Unit × MemoryStore :=
  match combined st partials with
  | .error e => (.error e, st)
  | .ok data =>
    match st id with
    | none => (.error (.notFound id.val), st)
    | some entry =>
      (.ok (), Function.update st id (some
        { info := { entry.info with
            size := some data.length, offset := data.length, isFinal := true }
          data := data }))

/-- The store as an interpretation of the store calls. -/
def interp : Interp StoreSig MemoryStore
  | .createUpload info, st => createUpload st info
  | .getUpload id, st => (getUpload st id, st)
  | .writeChunk id offset reader, st => writeChunk st id offset reader
  | .getInfo id, st => (getInfo st id, st)
  | .finalize _, st => (.ok (), st)
  | .delete id, st => delete st id
  | .declareLength id length, st => declareLength st id length
  | .concatenate id partials, st => concatenate st id partials
  | .readContent id, st => (readContent st id, st)

/-- A call only changes the upload it is made on. -/
theorem interp_of_ne {o : StoreOp} {id : UploadId} (hne : o.target ≠ id) (st : MemoryStore) :
    (interp o st).2 id = st id := by
  have hupdate {i : UploadId} (hi : i ≠ id) (slot : Option MemoryUploadState) :
      Function.update st i slot id = st id := Function.update_of_ne hi.symm ..
  cases o with
  | getUpload _ | getInfo _ | finalize _ | readContent _ => rfl
  | createUpload info => exact hupdate hne _
  | writeChunk i offset reader =>
      simp only [interp, writeChunk]
      split <;> try rfl
      split <;> try rfl
      split
      · rfl
      · exact hupdate hne _
  | delete i =>
      simp only [interp, delete]
      split
      · exact hupdate hne _
      · rfl
  | declareLength i length =>
      simp only [interp, declareLength]
      split <;> try rfl
      split
      · rfl
      · exact hupdate hne _
  | concatenate i partials =>
      simp only [interp, concatenate]
      split <;> try rfl
      split
      · rfl
      · exact hupdate hne _

/-- The store starts empty and leaves nothing to the outside. -/
abbrev backend : Backend where
  State := MemoryStore
  empty := fun _ => none
  Choice := Unit
  impl := fun _ => interp

theorem pureReads : PureReads interp where
  getUpload _ _ := rfl
  getInfo _ _ := rfl

end MemoryStore

/-! ## Writing into the buffer -/

@[simp] theorem writeAt_end (data buf : Bytes) : writeAt data data.length buf = data ++ buf := by
  simp [writeAt]

theorem writeAt_zero (data buf : Bytes) :
    writeAt data 0 buf = buf ++ data.drop buf.length := by
  simp only [writeAt, Nat.zero_add, List.take_zero, List.nil_append]
  congr 1
  rw [List.drop_append]
  simp

end Fileloft
