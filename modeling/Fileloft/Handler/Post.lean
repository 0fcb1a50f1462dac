import Fileloft.Handler.Patch

/-!
# POST

Creation: header checks, the new record, the `pre_create` callback, then
the store calls for concatenation, the first chunk and completion.
-/

namespace Fileloft.Post

open Handler
open Text (isWhitespace trimBoth)

/-- What the headers of a creation request say. -/
structure Parsed where
  concatHeader : Option Str
  isFinal : Bool
  isPartial : Bool
  uploadLength : Option ℕ
  defer : Bool
  metadata : Metadata

def parseMetadata (h : TusHandler) (req : TusRequest) : Except TusError Metadata :=
  match HeaderMap.get req.headers .uploadMetadata with
  | none => .ok .empty
  | some v => Metadata.parse h.lib (v.toStr.getD [])

/-- `starts_with("final;")` on the `Upload-Concat` text. -/
def isFinalHeader (concatHeader : Option Str) : Bool :=
  match concatHeader with
  | some v => "final;".toList.isPrefixOf v
  | none => false

def parseRequest (h : TusHandler) (req : TusRequest) : Except TusError Parsed := do
  checkTusResumable req.headers
  guardWith h.config.extensions.creation (.extensionNotEnabled "creation".toList)
  let concatHeader := HeaderMap.getStr req.headers .uploadConcat
  let isFinal := isFinalHeader concatHeader
  let isPartial := concatHeader == some "partial".toList
  refuseIf (isFinal ∧ ¬ h.config.extensions.concatenation)
    (.extensionNotEnabled "concatenation".toList)
  let uploadLength ← parseUploadLength req.headers
  let defer := hasDeferLength req.headers
  refuseIf (uploadLength = none ∧ ¬ defer ∧ ¬ isFinal) .missingUploadLength
  refuseIf (defer ∧ ¬ h.config.extensions.creationDeferLength)
    (.extensionNotEnabled "creation-defer-length".toList)
  refuseIf (h.config.maxSize > 0 ∧ uploadLength.getD 0 > h.config.maxSize)
    (.entityTooLarge h.config.maxSize)
  let metadata ← parseMetadata h req
  return { concatHeader, isFinal, isPartial, uploadLength, defer, metadata }

def parseConcatFinalUrls (header : Str) : Except TusError (List Str) :=
  let rest := (Text.strip "final;".toList header).getD []
  let urls := Text.words isWhitespace rest
  if urls = [] then .error .emptyConcatenation else .ok urls

/-- The fallback of `extract_upload_id_from_url`: the last path segment. -/
def lastSegment (path : Str) : Except TusError UploadId :=
  let id := trimBoth isWhitespace ((path.splitOn '/').getLastD [])
  if id = [] then .error .invalidUploadId else UploadId.parse id

def extractUploadIdFromUrl (url basePath : Str) : Except TusError UploadId :=
  let path := trimBoth isWhitespace url
  let base := basePath.rdropWhile (· == '/')
  match Text.rfind base path with
  | some pos =>
    let id := (path.drop (pos + base.length)).dropWhile (· == '/')
    if id = [] then lastSegment path else UploadId.parse id
  | none => lastSegment path

/-- The ids a final upload names, in header order. -/
def partialIds (h : TusHandler) (p : Parsed) : Except TusError (List UploadId) :=
  if p.isFinal then do
    let urls ← parseConcatFinalUrls (p.concatHeader.getD [])
    urls.mapM fun url => extractUploadIdFromUrl url h.config.basePath
  else .ok []

/-- The record before expiry and callback. -/
def buildInfo (h : TusHandler) (p : Parsed) (id : UploadId) : Except TusError UploadInfo := do
  let ids ← partialIds h p
  return { UploadInfo.new id p.uploadLength with
    metadata := p.metadata
    sizeIsDeferred := p.defer
    isPartial := p.isPartial
    isFinal := p.isFinal
    partialUploads := ids }

/-- `i64::MAX` milliseconds, the longest `chrono::Duration`, in nanoseconds. -/
def MAX_DURATION : ℕ := (2 ^ 63 - 1) * 10 ^ 6

/-- The last representable date, 262142-12-31T23:59:59.999999999Z. -/
def MAX_UTC : DateTime := 8210266876799 * 10 ^ 9 + 999999999

def durationFromStd (ttl : ℕ) : Except TusError ℕ :=
  if ttl ≤ MAX_DURATION then .ok ttl
  else .error (.internal "Source duration value is out of range for the target type".toList)

/-- `expires_at`: the sum panics beyond the last representable date. -/
def expiry (h : TusHandler) : Handler (Option DateTime) :=
  if h.config.extensions.expiration then
    match h.config.extensions.expirationTtl with
    | some ttl => do
      let clock ← now
      let d ← check (durationFromStd ttl)
      if clock + d ≤ MAX_UTC then return some (clock + d) else .fail .panic
    | none => return none
  else return none

/-- The infos of the named partials, each of them partial and complete. -/
def fetchPartialInfos : List UploadId → Handler (List UploadInfo)
  | [] => return []
  | id :: ids => do
    getUpload id
    let info ← getInfo id
    ensure info.isPartial (.notPartialUpload id.val)
    ensure info.isComplete (.partialUploadIncomplete id.val)
    let infos ← fetchPartialInfos ids
    return info :: infos

/-- The body that creation-with-upload writes, if the request has one. -/
def uploadBody (h : TusHandler) (req : TusRequest) : Option Reader :=
  if h.config.extensions.creationWithUpload then
    match HeaderMap.get req.headers .contentType with
    | some ct => if CONTENT_TYPE_OCTET_STREAM <+: ct.toStr.getD [] then req.body else none
    | none => none
  else none

/-- Delete the partials of a final upload, each through the `pre_terminate`
callback and with its event. -/
def cleanupPartials (h : TusHandler) : List UploadId → Handler Unit
  | [] => return
  | id :: ids => do
    getUpload id
    if h.config.hooks.preTerminate then do
      let info ← getInfo id
      preTerminate h info
    delete id
    emit h (.uploadTerminated id)
    cleanupPartials h ids

def buildLocation (h : TusHandler) (id : UploadId) (req : TusRequest) : Str :=
  requestBaseUrl h.config req.headers ++ h.config.basePath.rdropWhile (· == '/') ++ '/' :: id.val

def createdHeaders (h : TusHandler) (req : TusRequest) (info : UploadInfo) :
    Except TusError HeaderMap :=
  match HeaderValue.fromStr (buildLocation h info.id req) with
  | none => .error (.internal "bad location".toList)
  | some location =>
    let m := HeaderMap.insert [] .location location
    let m := HeaderMap.insert m .uploadOffset (u64Header info.offset)
    let m := match info.size with
      | some size => HeaderMap.insert m .uploadLength (u64Header size)
      | none => m
    .ok (if h.config.extensions.expiration then h.expiresHeader m info.expiresAt else m)

/-- From the created event on. -/
def finish (h : TusHandler) (req : TusRequest) (id : UploadId) (finalInfo : UploadInfo) :
    Handler TusResponse := do
  emit h (.uploadCreated finalInfo)
  finishIfComplete h id finalInfo
  let m ← check (createdHeaders h req finalInfo)
  return h.response 201 m []

/-- Join the named partials into a final upload. -/
def assemble (h : TusHandler) (p : Parsed) (info : UploadInfo) : Handler Unit :=
  if p.isFinal && h.config.extensions.concatenation then do
    let partials ← fetchPartialInfos info.partialUploads
    concatenate info.id partials
  else return ()

/-- `bytes_written`: the length of the body, if one is written. -/
def writeBody (h : TusHandler) (req : TusRequest) (id : UploadId) : Handler ℕ :=
  match uploadBody h req with
  | some body => writeChunk id 0 body
  | none => return 0

def withinLength (info : UploadInfo) (bytesWritten : ℕ) : Except TusError Unit :=
  match info.size with
  | some declared =>
      guardWith (bytesWritten ≤ declared) (.exceedsUploadLength declared bytesWritten)
  | none => .ok ()

/-- Remove the partials after a final concatenation, if configured. -/
def cleanup (h : TusHandler) (p : Parsed) (id : UploadId) (finalInfo : UploadInfo) :
    Handler UploadInfo :=
  if p.isFinal && h.config.extensions.concatenation &&
      h.config.extensions.cleanupConcatPartials then do
    cleanupPartials h finalInfo.partialUploads
    getInfo id
  else return finalInfo

/-- What follows `create_upload`. -/
def fill (h : TusHandler) (req : TusRequest) (p : Parsed) (info : UploadInfo) :
    Handler TusResponse := do
  assemble h p info
  let bytesWritten ← writeBody h req info.id
  let finalInfo ← getInfo info.id
  check (withinLength finalInfo bytesWritten)
  let finalInfo ← cleanup h p info.id finalInfo
  finish h req info.id finalInfo

/-- The store calls of a creation, on the record the callback settled. -/
def create (h : TusHandler) (req : TusRequest) (p : Parsed) (info : UploadInfo) :
    Handler TusResponse := do
  createUpload info
  fill h req p info

def handle (h : TusHandler) (req : TusRequest) : Handler TusResponse := do
  let p ← check (parseRequest h req)
  let uuid ← newUuid
  let info ← check (buildInfo h p (UploadId.new uuid))
  let expiresAt ← expiry h
  let info ← preCreate h { info with expiresAt }
  create h req p info

end Fileloft.Post

namespace Fileloft.TusHandler

/-- The sub-handler of a method. -/
def dispatch (h : TusHandler) (req : TusRequest) : Handler TusResponse :=
  match req.method with
  | .options => Options.handle h req
  | .head => Head.handle h req
  | .get => Get.handle h req
  | .post => Post.handle h req
  | .patch => Patch.handle h req
  | .delete => Delete.handle h req
  | .other _ => Handler.reject .methodNotAllowed

/-- Main dispatch: errors become responses. -/
def handle (h : TusHandler) (req : TusRequest) : Handler TusResponse := do
  match ← (h.dispatch req).attempt with
  | .ok resp => return resp
  | .error (.error e) => return h.errorResponse e
  | .error .panic => .fail .panic

end Fileloft.TusHandler
