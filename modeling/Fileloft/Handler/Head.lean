import Fileloft.Core.Store

/-!
# HEAD, GET, DELETE and OPTIONS

The handlers that do not accept bytes.
-/

namespace Fileloft

open Handler

/-- `UploadId::parse(req.upload_id.as_deref().ok_or(InvalidUploadId)?)`. -/
def requestId (req : TusRequest) : Except TusError UploadId :=
  match req.uploadId with
  | some id => UploadId.parse id
  | none => .error .invalidUploadId

theorem valid_of_requestId {req : TusRequest} {id : UploadId} (hid : requestId req = .ok id) :
    id.Valid := by
  unfold requestId at hid
  split at hid
  · exact (UploadId.parse_eq_ok hid).2
  · cases hid

namespace Head

/-- The headers that describe an upload. -/
def headers (h : TusHandler) (info : UploadInfo) : HeaderMap :=
  let m := HeaderMap.insert [] .uploadOffset (u64Header info.offset)
  let m := match info.size with
    | some size => HeaderMap.insert m .uploadLength (u64Header size)
    | none =>
      if info.sizeIsDeferred then
        HeaderMap.insert m .uploadDeferLength (.fromStatic "1".toList)
      else m
  let m := if info.metadata.isEmpty then m
    else TusHandler.insertOk m .uploadMetadata (HeaderValue.fromStr (info.metadata.encode h.lib))
  h.expiresHeader m info.expiresAt

def handle (h : TusHandler) (req : TusRequest) : Handler TusResponse := do
  check (checkTusResumable req.headers)
  let id ← check (requestId req)
  getUpload id
  let info ← getInfo id
  checkExpiry info.expiresAt
  return h.response 204 (headers h info) []

/-- The answer has the offset of the record. -/
theorem get_uploadOffset (h : TusHandler) (info : UploadInfo) :
    HeaderMap.get (h.response 204 (headers h info) []).headers .uploadOffset =
      some (u64Header info.offset) := by
  have hfirst := HeaderMap.sets_insert [] .uploadOffset (u64Header info.offset)
  have hheaders : (headers h info).Sets .uploadOffset (u64Header info.offset) := by
    refine HeaderMap.Sets.expiresHeader ?_ fun heq => by cases heq
    have hmetadata {m : HeaderMap} (hm : m.Sets .uploadOffset (u64Header info.offset)) :
        HeaderMap.Sets (if info.metadata.isEmpty then m
          else TusHandler.insertOk m .uploadMetadata
            (HeaderValue.fromStr (info.metadata.encode h.lib)))
          .uploadOffset (u64Header info.offset) := by
      split
      · exact hm
      · exact hm.insertOk fun heq => by cases heq
    apply hmetadata
    split
    · exact hfirst.insert nofun
    · split
      · exact hfirst.insert nofun
      · exact hfirst
  exact hheaders.get_extend _

end Head

namespace Get

/-- The headers of a download. -/
def headers (info : UploadInfo) : HeaderMap :=
  let m := HeaderMap.insert [] .contentType (.fromStatic "application/octet-stream".toList)
  match info.size with
  | some len => HeaderMap.insert m .contentLength (u64Header len)
  | none => m

def handle (h : TusHandler) (req : TusRequest) : Handler TusResponse := do
  ensure h.config.enableDownload .methodNotAllowed
  let id ← check (requestId req)
  withLock h id do
    getUpload id
    let info ← getInfo id
    checkExpiry info.expiresAt
    ensure info.isComplete .uploadNotReadyForDownload
    let content ← readContent id
    return h.responseWithBody 200 (headers info) (.reader content)

end Get

namespace Delete

def handle (h : TusHandler) (req : TusRequest) : Handler TusResponse := do
  check (checkTusResumable req.headers)
  ensure h.config.extensions.termination (.extensionNotEnabled "termination".toList)
  let id ← check (requestId req)
  if h.config.hooks.preTerminate then do
    getUpload id
    let info ← getInfo id
    preTerminate h info
  withLock h id do
    getUpload id
    delete id
    emit h (.uploadTerminated id)
    return h.response 204 [] []

end Delete

namespace Options

/-- `CHECKSUM_TRAILER_IMPLEMENTED`. -/
def CHECKSUM_TRAILER_IMPLEMENTED : Bool := false

/-- The extension names of the current configuration, in the source's order. -/
def extensionNames (ext : Extensions) : List Str :=
  [(ext.creation, "creation"), (ext.creationWithUpload, "creation-with-upload"),
    (ext.creationDeferLength, "creation-defer-length"), (ext.expiration, "expiration"),
    (ext.checksum, "checksum"),
    (ext.checksumTrailer && CHECKSUM_TRAILER_IMPLEMENTED, "checksum-trailer"),
    (ext.termination, "termination"), (ext.concatenation, "concatenation")].filterMap
      fun e => if e.1 then some e.2.toList else none

/-- Insert a parsed value, or answer an internal error. -/
def insertParsed (m : HeaderMap) (name : HeaderName) (v : Str) (what : Str) :
    Except TusError HeaderMap :=
  match HeaderValue.fromStr v with
  | some v => .ok (HeaderMap.insert m name v)
  | none => .error (.internal what)

/-- The default list of accepted request header names. -/
def ALLOW_HEADERS : Str :=
  ("Tus-Resumable,Upload-Length,Upload-Offset,Upload-Metadata," ++
    "Upload-Defer-Length,Upload-Checksum,Upload-Concat,Content-Type").toList

def corsHeaders (h : TusHandler) (m : HeaderMap) : Except TusError HeaderMap := do
  let methods := if h.config.enableDownload then "OPTIONS,HEAD,GET,POST,PATCH,DELETE"
    else "OPTIONS,HEAD,POST,PATCH,DELETE"
  let m ← insertParsed m .accessControlAllowMethods methods.toList
    "bad CORS methods header".toList
  let m ← insertParsed m .accessControlAllowHeaders
    (TusHandler.commaJoined ALLOW_HEADERS h.config.cors.extraAllowHeaders)
    "bad CORS allow-headers".toList
  insertParsed m .accessControlMaxAge (Text.decimal h.config.cors.maxAge)
    "bad CORS max-age".toList

def headers (h : TusHandler) : Except TusError HeaderMap := do
  let ext := h.config.extensions
  let m := HeaderMap.insert [] .tusVersion (.fromStatic TUS_VERSION)
  let m ←
    if extensionNames ext = [] then
      .ok m
    else
      insertParsed m .tusExtension ([','].intercalate (extensionNames ext))
        "bad extension header".toList
  let m ←
    if ext.checksum then
      insertParsed m .tusChecksumAlgorithm "sha1,sha256,md5".toList "bad algorithm header".toList
    else
      .ok m
  let m := if h.config.maxSize > 0 then
    HeaderMap.insert m .tusMaxSize (u64Header h.config.maxSize) else m
  if h.config.cors.enabled then corsHeaders h m else .ok m

def handle (h : TusHandler) (_req : TusRequest) : Handler TusResponse := do
  let m ← check (headers h)
  return h.response 204 m []

end Options

end Fileloft
