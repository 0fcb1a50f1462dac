import Fileloft.Fs.Store
import Fileloft.Object.Service
import Fileloft.Text.Chunks
import Mathlib.Data.List.DropRight

/-!
# The object stores

The S3, GCS and Azure stores keep each upload as one object for its record,
one for each chunk and, once finalized, one for its data. They differ in how
the chunks are joined. Each call is a program of service calls.
-/

namespace Fileloft

inductive Provider where
  | s3
  | gcs
  | azure
  deriving DecidableEq, Repr

/-- The name in the error texts. -/
def Provider.label : Provider → Str
  | .s3 => "S3".toList
  | .gcs => "GCS".toList
  | .azure => "Azure".toList

/-- The prefix of all keys is empty or ends with a slash. -/
structure ObjectStore where
  provider : Provider
  keyPrefix : Str
  codec : InfoCodec
  slashed : keyPrefix = [] ∨ keyPrefix.getLast? = some '/'

theorem slashed_nil : ([] : Str) = [] ∨ ([] : Str).getLast? = some '/' := .inl rfl

abbrev ObjectProg (α : Type) : Type := Prog ObjectSig TusError α

/-- `s3_err`, `gcs_err` and `azure_err`. -/
def Provider.error (p : Provider) (uploadId op : Str) (e : ServiceError) : TusError :=
  if e.notFound then .notFound uploadId
  else .internal (p.label ++ ' ' :: op ++ ": ".toList ++ e.text)

namespace ObjectStore

/-- A call whose failure becomes an error of the store. -/
def send (fails : ServiceError → TusError) (o : ObjectOp) : ObjectProg o.Val :=
  Prog.op (S := ObjectSig) o fun
    | .ok v => .ret v
    | .error e => .fail (fails e)

/-- A call whose failure is ignored. -/
def bestEffort (o : ObjectOp) : ObjectProg Unit := Prog.op (S := ObjectSig) o fun _ => .ret ()

variable (s : ObjectStore) (id : UploadId)

def key (kind : KeyKind) : Str := s.keyPrefix ++ id.key kind

def dataKey : Str := s.key id .data

def infoKey : Str := s.key id .info

def partKey (index : ℕ) : Str := s.key id (.part index)

def tmpKey (index : ℕ) : Str := s.key id (.tmp index)

/-- The prefix under which the parts are listed. -/
def partPrefix : Str := s.keyPrefix ++ (id.val ++ "_part_".toList)

/-- `map_err(|e| ..._err(e, id, op))?`. -/
def request (op : Str) (o : ObjectOp) : ObjectProg o.Val := send (s.provider.error id.val op) o

/-- Collect a body. S3 reports a broken body as an I/O error, Azure as the
failure of the call, GCS as an internal error. -/
def collect (op broken : Str) (body : Body) : Except TusError Bytes :=
  match body.broken with
  | none => .ok body.reads.flatten
  | some e =>
    match s.provider with
    | .s3 => .error (.io .other)
    | .gcs => .error (.internal ("GCS ".toList ++ broken ++ ": ".toList ++ e))
    | .azure => .error (s.provider.error id.val op ⟨false, e⟩)

def toVec (info : UploadInfo) : ObjectProg Bytes :=
  match s.codec.toVec info with
  | .ok json => .ret json
  | .error e => .fail (.internal ("serialize info: ".toList ++ e))

def writeInfo (info : UploadInfo) : ObjectProg Unit := do
  let json ← s.toVec info
  s.request id "write info".toList (.put (s.infoKey id) json)

def readInfo : ObjectProg UploadInfo := do
  let body ← s.request id "read info".toList (.get (s.infoKey id))
  let buf ← Prog.ofExcept (s.collect id "read info".toList "read chunk".toList body)
  match s.codec.fromSlice buf with
  | .ok info => return info
  | .error e => .fail (.internal ("deserialize info: ".toList ++ e))

/-- The text after the last `_` as a `u32`, or zero. -/
def partIndex (key : Str) : ℕ :=
  (Text.parseUInt FileStore.U32_BOUND (key.rtakeWhile (· ≠ '_'))).getD 0

/-- The listed names that are not empty, by their index. -/
def sortedParts (names : List Str) : List Str :=
  (names.filter (· ≠ [])).mergeSort fun a b => partIndex a ≤ partIndex b

def listParts : ObjectProg (List Str) := do
  let names ← s.request id "list parts".toList (.list (s.partPrefix id))
  return sortedParts names

def createUpload (info : UploadInfo) : ObjectProg Unit := s.writeInfo info.id info

def getUpload : ObjectProg Unit := do
  let _ ← s.readInfo id
  return ()

/-- The two writes of an accepted chunk: a new part, then the record. -/
def storeChunk (info : UploadInfo) (buf : Bytes) (endOffset : ℕ) : ObjectProg ℕ := do
  let parts ← s.listParts id
  s.request id "write part".toList (.put (s.partKey id (parts.length % FileStore.U32_BOUND)) buf)
  s.writeInfo id { info with offset := endOffset }
  return buf.length

def writeChunk (offset : ℕ) (reader : Reader) : ObjectProg ℕ := do
  let info ← s.readInfo id
  let (buf, endOffset) ← Prog.ofExcept (FileStore.acceptChunk info offset reader)
  s.storeChunk id info buf endOffset

/-- The name of a download in the error texts. -/
def downloadOp : Str :=
  match s.provider with
  | .s3 => "get object download".toList
  | _ => "read download".toList

/-- The bytes of the download. The S3 store hands its body out unread. -/
def readContent : ObjectProg Bytes := do
  let info ← s.readInfo id
  Prog.ofExcept (guardWith info.isComplete .uploadNotReadyForDownload)
  let body ← s.request id s.downloadOp (.get (s.dataKey id))
  match s.provider with
  | .s3 => return body.reads.flatten
  | _ => Prog.ofExcept (s.collect id s.downloadOp "read download".toList body)

def deleteAll : List Str → ObjectProg Unit
  | [] => .ret ()
  | key :: keys => do
    bestEffort (.delete key)
    deleteAll keys

/-- Removals and a listing whose failures are ignored. -/
def delete : ObjectProg Unit := do
  bestEffort (.delete (s.dataKey id))
  bestEffort (.delete (s.infoKey id))
  match ← (s.listParts id).attempt with
  | .ok parts => deleteAll parts
  | .error _ => return ()

def declareLength (length : ℕ) : ObjectProg Unit := do
  let info ← s.readInfo id
  Prog.ofExcept (refuseIf info.size.isSome .uploadLengthAlreadySet)
  s.writeInfo id { info with size := some length, sizeIsDeferred := false }

/-- The data objects of the partials. -/
def sourceKeys (partials : List UploadInfo) : List Str := partials.map fun p => s.dataKey p.id

/-- The record of a final upload, after its data. -/
def writeFinalInfo (partials : List UploadInfo) : ObjectProg Unit := do
  let total := wrappingSum (partials.filterMap UploadInfo.size)
  let info ← s.readInfo id
  s.writeInfo id { info with size := some total, offset := total, isFinal := true }

end ObjectStore

/-! ## S3 -/

namespace S3Upload

open ObjectStore

def MIN_MULTIPART_PART : ℕ := 5 * 1024 * 1024

def MAX_MULTIPART_PARTS : ℕ := 10000

/-- The bytes not sent yet, the parts sent, and the number of the next one. -/
structure Assembly where
  buffer : Bytes
  completed : List (Str × ℕ)
  partNumber : ℕ

/-- Nothing read and nothing sent. -/
def Assembly.start : Assembly := ⟨[], [], 1⟩

variable (s : ObjectStore) (id : UploadId) (dest uploadId : Str)

/-- Send one part. The result keeps the buffer as it was. -/
def uploadOnePart (part : Bytes) (a : Assembly) : ObjectProg Assembly :=
  if MAX_MULTIPART_PARTS < a.partNumber then
    .fail (.internal "S3 multipart: exceeded maximum part count (10000)".toList)
  else do
    match ← s.request id "upload part".toList (.uploadPart dest uploadId a.partNumber part) with
    | none => .fail (.internal "S3 upload part: missing ETag".toList)
    | some etag =>
      return { a with
        completed := a.completed ++ [(etag, a.partNumber)]
        partNumber := a.partNumber + 1 }

/-- Send full parts while the buffer holds one, but keep the last one back
when no more data is coming. -/
def drain (more : Bool) (a : Assembly) : ObjectProg Assembly :=
  if _h : MIN_MULTIPART_PART ≤ a.buffer.length ∧
      ¬ (a.buffer.length = MIN_MULTIPART_PART ∧ more = false) then do
    let sent ← uploadOnePart s id dest uploadId (a.buffer.take MIN_MULTIPART_PART) a
    drain more ⟨a.buffer.drop MIN_MULTIPART_PART, sent.completed, sent.partNumber⟩
  else return a
termination_by a.buffer.length
decreasing_by
  rw [List.length_drop]
  simp only [MIN_MULTIPART_PART] at _h ⊢
  omega

/-- The reads of one source. An empty read is its end. -/
def readSource (moreKeysAfter : Bool) (broken : Option Str) :
    List Bytes → Assembly → ObjectProg Assembly
  | [], a =>
    match broken with
    | some _ => .fail (.io .other)
    | none => drain s id dest uploadId moreKeysAfter a
  | read :: reads, a =>
    if read = [] then drain s id dest uploadId moreKeysAfter a
    else do
      let a ← drain s id dest uploadId true { a with buffer := a.buffer ++ read }
      readSource moreKeysAfter broken reads a

def readSources : List Str → Assembly → ObjectProg Assembly
  | [], a => .ret a
  | key :: keys, a => do
    let body ← s.request id "get source for assembly".toList (.get key)
    let a ← readSource s id dest uploadId (!keys.isEmpty) body.broken body.reads a
    readSources keys a

/-- Read all sources and send their bytes in parts. One part is sent even
when all sources are empty. -/
def multipartUploadParts (sources : List Str) : ObjectProg (List (Str × ℕ)) := do
  let a ← readSources s id dest uploadId sources .start
  if a.buffer = [] ∧ a.completed = [] then do
    let a ← uploadOnePart s id dest uploadId [] a
    return a.completed
  else if a.buffer ≠ [] then do
    let a ← uploadOnePart s id dest uploadId a.buffer a
    return a.completed
  else return a.completed

/-- Join the sources into `dest`, then delete `deleteAfterOk`. A multipart
upload whose parts fail is aborted. -/
def multipartAssembleFromSources (sources deleteAfterOk : List Str) : ObjectProg Unit :=
  if sources = [] then return ()
  else do
    match ← s.request id "create multipart".toList (.createMultipart dest) with
    | none => .fail (.internal "S3 create multipart: missing upload_id".toList)
    | some uploadId =>
      match ← (multipartUploadParts s id dest uploadId sources).attempt with
      | .error e => do
        bestEffort (.abortMultipart dest uploadId)
        .fail e
      | .ok completed =>
        if completed = [] then do
          bestEffort (.abortMultipart dest uploadId)
          .fail (.internal "S3 multipart: no parts produced (unexpected)".toList)
        else do
          s.request id "complete multipart".toList (.completeMultipart dest uploadId completed)
          deleteAll deleteAfterOk

def finalize : ObjectProg Unit := do
  let parts ← s.listParts id
  if parts = [] then s.request id "write empty final".toList (.put (s.dataKey id) [])
  else multipartAssembleFromSources s id (s.dataKey id) parts parts

def concatenate (partials : List UploadInfo) : ObjectProg Unit := do
  let sources := s.sourceKeys partials
  multipartAssembleFromSources s id (s.dataKey id) sources sources
  s.writeFinalInfo id partials

end S3Upload

/-! ## GCS -/

namespace GcsUpload

open ObjectStore

def MAX_COMPOSE_SOURCES : ℕ := 32

variable (s : ObjectStore) (id : UploadId)

/-- Compose the sources and delete them. -/
def composeChunk (dest : Str) (sources : List Str) : ObjectProg Unit :=
  if sources = [] then return ()
  else s.request id "compose".toList (.compose dest sources true)

/-- Compose each batch into the temporary of its number. -/
def composeBatches : ℕ → List (List Str) → ObjectProg (List Str)
  | _, [] => .ret []
  | i, batch :: batches => do
    composeChunk s id (s.tmpKey id i) batch
    let intermediates ← composeBatches (i + 1) batches
    return s.tmpKey id i :: intermediates

/-- At most 32 sources at once, or all batches and then their temporaries. -/
def composeAll (dest : Str) (sources : List Str) : ObjectProg Unit :=
  if sources.length ≤ MAX_COMPOSE_SOURCES then composeChunk s id dest sources
  else do
    let intermediates ← composeBatches s id 0 (Text.chunks MAX_COMPOSE_SOURCES sources)
    composeChunk s id dest intermediates

def finalize : ObjectProg Unit := do
  let parts ← s.listParts id
  if parts = [] then
    send (fun e => .internal ("GCS write empty final: ".toList ++ e.text)) (.put (s.dataKey id) [])
  else composeAll s id (s.dataKey id) parts

def concatenate (partials : List UploadInfo) : ObjectProg Unit := do
  composeAll s id (s.dataKey id) (s.sourceKeys partials)
  s.writeFinalInfo id partials

end GcsUpload

/-! ## Azure -/

namespace AzureUpload

open ObjectStore

def MAX_COMMIT_SOURCES : ℕ := 32

/-- `block_id_for_index`: the eight bytes of a `u64`. -/
def blockIdForIndex (i : ℕ) : Bytes :=
  [56, 48, 40, 32, 24, 16, 8, 0].map fun shift => UInt8.ofNat (i / 2 ^ shift)

/-- `saturating_add` on `u32`. -/
def saturatingAdd (a b : ℕ) : ℕ := min (a + b) (FileStore.U32_BOUND - 1)

variable (s : ObjectStore) (id : UploadId) (op : Str)

/-- Copy each source into a block of the destination. -/
def stageBlocks (dest : Str) : ℕ → List Str → ObjectProg (List Bytes)
  | _, [] => .ret []
  | i, src :: srcs => do
    let body ← s.request id op (.get src)
    let data ← Prog.ofExcept (s.collect id op [] body)
    s.request id op (.putBlock dest (blockIdForIndex i) data)
    let blocks ← stageBlocks dest (i + 1) srcs
    return blockIdForIndex i :: blocks

def commitBlobNamesToDest (dest : Str) (sources : List Str) : ObjectProg Unit :=
  if sources = [] then return ()
  else do
    let blocks ← stageBlocks s id op dest 0 sources
    s.request id op (.putBlockList dest blocks)

def commitAndDeleteSources (dest : Str) (sources : List Str) : ObjectProg Unit := do
  commitBlobNamesToDest s id op dest sources
  deleteAll sources

/-- Commit each batch into the temporary of its number. -/
def commitBatches : ℕ → List (List Str) → ObjectProg Unit
  | _, [] => .ret ()
  | counter, batch :: batches => do
    commitAndDeleteSources s id op (s.tmpKey id counter) batch
    commitBatches (saturatingAdd counter 1) batches

/-- The temporaries of one round, and the counter after it. -/
def temporaries : ℕ → List (List Str) → List Str × ℕ
  | counter, [] => ([], counter)
  | counter, _ :: batches =>
    let (tmps, next) := temporaries (saturatingAdd counter 1) batches
    (s.tmpKey id counter :: tmps, next)

theorem length_temporaries (counter : ℕ) (batches : List (List Str)) :
    (temporaries s id counter batches).1.length = batches.length := by
  induction batches generalizing counter with
  | nil => rfl
  | cons batch batches ih => simp [temporaries, ih]

/-- Rounds of batches until the sources fit into one commit. -/
def commitRounds (dest : Str) (counter : ℕ) (sources : List Str) : ObjectProg Unit :=
  if _h : MAX_COMMIT_SOURCES < sources.length then do
    let batches := Text.chunks MAX_COMMIT_SOURCES sources
    commitBatches s id op counter batches
    commitRounds dest (temporaries s id counter batches).2 (temporaries s id counter batches).1
  else commitAndDeleteSources s id op dest sources
termination_by sources.length
decreasing_by
  rw [length_temporaries, Text.length_chunks]
  simp only [MAX_COMMIT_SOURCES] at _h ⊢
  omega

def commitManyBlobs (dest : Str) (sources : List Str) : ObjectProg Unit :=
  if sources = [] then return () else commitRounds s id op dest 0 sources

def finalize : ObjectProg Unit := do
  let parts ← s.listParts id
  if parts = [] then s.request id "write empty final".toList (.put (s.dataKey id) [])
  else commitManyBlobs s id "finalize".toList (s.dataKey id) parts

def concatenate (partials : List UploadInfo) : ObjectProg Unit := do
  commitManyBlobs s id "concatenate".toList (s.dataKey id) (s.sourceKeys partials)
  s.writeFinalInfo id partials

end AzureUpload

/-! ## The calls -/

namespace ObjectStore

variable (s : ObjectStore) (id : UploadId)

def finalize : ObjectProg Unit :=
  match s.provider with
  | .s3 => S3Upload.finalize s id
  | .gcs => GcsUpload.finalize s id
  | .azure => AzureUpload.finalize s id

def concatenate (partials : List UploadInfo) : ObjectProg Unit :=
  match s.provider with
  | .s3 => S3Upload.concatenate s id partials
  | .gcs => GcsUpload.concatenate s id partials
  | .azure => AzureUpload.concatenate s id partials

def call : (o : StoreOp) → ObjectProg o.Val
  | .createUpload info => s.createUpload info
  | .getUpload id => s.getUpload id
  | .writeChunk id offset reader => s.writeChunk id offset reader
  | .getInfo id => s.readInfo id
  | .finalize id => s.finalize id
  | .delete id => s.delete id
  | .declareLength id length => s.declareLength id length
  | .concatenate id partials => s.concatenate id partials
  | .readContent id => s.readContent id

/-- The store over a service, as an interpretation of the store calls. -/
def interp (svc : Service) : Interp StoreSig svc.State := fun o st => (s.call o).run svc.impl st

end ObjectStore

end Fileloft
