import Fileloft.Handler.Head

/-!
# PATCH

The chunk handler: header checks, then everything else under the lock of
the upload.
-/

namespace Fileloft.Patch

open Handler

/-- The `Content-Type` the handler tests, empty when it has no text. -/
def contentType (req : TusRequest) : Str := (HeaderMap.getStr req.headers .contentType).getD []

/-- The checks before the lock: the client's offset and the upload id. -/
def parseRequest (req : TusRequest) : Except TusError (ℕ × UploadId) := do
  checkTusResumable req.headers
  refuseIf (¬ CONTENT_TYPE_OCTET_STREAM <+: contentType req) (.wrongContentType (contentType req))
  let clientOffset ← parseUploadOffset req.headers
  let id ← requestId req
  return (clientOffset, id)

theorem requestId_of_parse {req : TusRequest} {offset : ℕ} {id : UploadId}
    (hparse : parseRequest req = .ok (offset, id)) : requestId req = .ok id := by
  simp only [parseRequest, bind_eq_ok] at hparse
  obtain ⟨_, -, _, -, _, -, id', hid, heq⟩ := hparse
  obtain ⟨-, rfl⟩ := Prod.mk.inj (Except.ok.inj heq)
  exact hid

theorem offset_of_parse {req : TusRequest} {offset : ℕ} {id : UploadId}
    (hparse : parseRequest req = .ok (offset, id)) :
    parseUploadOffset req.headers = .ok offset := by
  simp only [parseRequest, bind_eq_ok] at hparse
  obtain ⟨_, -, _, -, offset', hoffset, _, -, heq⟩ := hparse
  obtain ⟨rfl, -⟩ := Prod.mk.inj (Except.ok.inj heq)
  exact hoffset

/-- The length a PATCH may still declare on a deferred upload. -/
def declaredLength (h : TusHandler) (req : TusRequest) (info : UploadInfo) :
    Except TusError (Option ℕ) := do
  if info.sizeIsDeferred && info.size.isNone then
    match ← parseUploadLength req.headers with
    | some declaredSize =>
      refuseIf (h.config.maxSize > 0 ∧ declaredSize > h.config.maxSize)
        (.entityTooLarge h.config.maxSize)
      return some declaredSize
    | none => return none
  else
    return none

theorem length_of_declared {h : TusHandler} {req : TusRequest} {info : UploadInfo} {length : ℕ}
    (hdeclared : declaredLength h req info = .ok (some length)) :
    parseUploadLength req.headers = .ok (some length) := by
  unfold declaredLength at hdeclared
  split at hdeclared
  · simp only [bind_eq_ok] at hdeclared
    obtain ⟨header, hheader, hdeclared⟩ := hdeclared
    cases header with
    | none => cases hdeclared
    | some declaredSize =>
        simp only [bind_eq_ok] at hdeclared
        obtain ⟨_, -, heq⟩ := hdeclared
        rw [hheader, Option.some.inj (Except.ok.inj heq)]
  · cases hdeclared

/-- The parsed `Upload-Checksum` header, if the request has one with a text. -/
def checksum (h : TusHandler) (req : TusRequest) :
    Except TusError (Option (ChecksumAlgorithm × Bytes)) := do
  if HeaderMap.containsKey req.headers .uploadChecksum then
    guardWith h.config.extensions.checksum (.extensionNotEnabled "checksum".toList)
    match HeaderMap.getStr req.headers .uploadChecksum with
    | some v => return some (← parseChecksumHeader h.lib v)
    | none => return none
  else
    return none

/-- Read the whole chunk through the hasher and compare the digest. -/
def verified (lib : Crates) (algorithm : ChecksumAlgorithm) (expected : Bytes) (body : Reader) :
    Except TusError Bytes :=
  match body with
  | .error e => .error (.io e)
  | .ok buf => if lib.digest algorithm buf = expected then .ok buf else .error .checksumMismatch

/-- The reader handed to the store. With a checksum it is a cursor over the
verified bytes. -/
def chunkReader (h : TusHandler) (req : TusRequest) : Except TusError Reader := do
  let sum ← checksum h req
  match req.body with
  | none => throw (.internal "PATCH missing body".toList)
  | some body =>
    match sum with
    | some (algorithm, expected) => return .ok (← verified h.lib algorithm expected body)
    | none => return body

/-- What is handed to the store is the body. -/
theorem body_of_chunkReader {h : TusHandler} {q : TusRequest} {buf : Bytes}
    (hreader : chunkReader h q = .ok (.ok buf)) : q.body = some (.ok buf) := by
  simp only [chunkReader, bind_eq_ok] at hreader
  obtain ⟨sum, -, hreader⟩ := hreader
  cases hbody : q.body with
  | none => simp [hbody, throw, throwThe, MonadExceptOf.throw] at hreader
  | some body =>
      simp only [hbody] at hreader
      cases sum with
      | none => exact congrArg some (Except.ok.inj hreader)
      | some sum =>
          simp only [bind_eq_ok] at hreader
          obtain ⟨buf', hverified, hreader⟩ := hreader
          obtain rfl := Except.ok.inj (Except.ok.inj hreader)
          unfold verified at hverified
          cases body with
          | error e => cases hverified
          | ok bytes =>
              simp only at hverified
              split at hverified
              · exact congrArg (some ∘ Except.ok) (Except.ok.inj hverified)
              · cases hverified

/-- The `204` of an accepted chunk. -/
def accepted (h : TusHandler) (info : UploadInfo) : TusResponse :=
  let m := HeaderMap.insert [] .uploadOffset (u64Header info.offset)
  let m := if h.config.extensions.expiration then h.expiresHeader m info.expiresAt else m
  h.response 204 m []

/-- The answer has the offset of the record. -/
theorem get_uploadOffset (h : TusHandler) (info : UploadInfo) :
    HeaderMap.get (accepted h info).headers .uploadOffset = some (u64Header info.offset) := by
  have hfirst := HeaderMap.sets_insert [] .uploadOffset (u64Header info.offset)
  have hheaders : HeaderMap.Sets (if h.config.extensions.expiration then
      h.expiresHeader (HeaderMap.insert [] .uploadOffset (u64Header info.offset)) info.expiresAt
      else HeaderMap.insert [] .uploadOffset (u64Header info.offset))
        .uploadOffset (u64Header info.offset) := by
    split
    · exact hfirst.expiresHeader fun heq => by cases heq
    · exact hfirst
  exact hheaders.get_extend _

/-- From the progress event on: finish the upload when it is complete. -/
def finish (h : TusHandler) (id : UploadId) : Handler TusResponse := do
  let newInfo ← getInfo id
  emit h (.uploadProgress newInfo)
  finishIfComplete h id newInfo
  return accepted h newInfo

/-- What happens while the lock is held. -/
def locked (h : TusHandler) (req : TusRequest) (clientOffset : ℕ) (id : UploadId) :
    Handler TusResponse := do
  getUpload id
  let info ← getInfo id
  ensure (!info.isFinal) .patchOnFinalUpload
  ensure (info.offset == clientOffset) (.offsetMismatch info.offset clientOffset)
  checkExpiry info.expiresAt
  match ← check (declaredLength h req info) with
  | some declaredSize => declareLength id declaredSize
  | none => pure ()
  let reader ← check (chunkReader h req)
  let _ ← writeChunk id clientOffset reader
  finish h id

def handle (h : TusHandler) (req : TusRequest) : Handler TusResponse := do
  let (clientOffset, id) ← check (parseRequest req)
  withLock h id (locked h req clientOffset id)

end Fileloft.Patch
