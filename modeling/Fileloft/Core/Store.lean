import Fileloft.Core.Util
import Fileloft.Effect.Prog

/-!
# The operations a handler performs

A handler is a program over store calls, the per-upload lock, the clock,
the callbacks and the event channel. A store handle is the id of its
upload.
-/

namespace Fileloft

/-- The calls of `SendDataStore` and `SendUpload`. -/
inductive StoreOp where
  | createUpload (info : UploadInfo)
  | getUpload (id : UploadId)
  | writeChunk (id : UploadId) (offset : ℕ) (reader : Reader)
  | getInfo (id : UploadId)
  | finalize (id : UploadId)
  | delete (id : UploadId)
  | declareLength (id : UploadId) (length : ℕ)
  | concatenate (id : UploadId) (partials : List UploadInfo)
  | readContent (id : UploadId)

/-- The upload a store call is made on. -/
def StoreOp.target : StoreOp → UploadId
  | .createUpload info => info.id
  | .getUpload id => id
  | .writeChunk id _ _ => id
  | .getInfo id => id
  | .finalize id => id
  | .delete id => id
  | .declareLength id _ => id
  | .concatenate id _ => id
  | .readContent id => id

/-- The upload whose handle a store call uses. Creation and lookup give
out a handle and use none. -/
def StoreOp.handle : StoreOp → Option UploadId
  | .createUpload _ => none
  | .getUpload _ => none
  | o => some o.target

theorem StoreOp.eq_target_of_mem_handle {o : StoreOp} {id : UploadId} (h : id ∈ o.handle) :
    id = o.target := by
  cases o with
  | createUpload _ | getUpload _ => cases h
  | _ => exact (Option.some.inj h).symm

theorem StoreOp.forall_handle {P : UploadId → Prop} {o : StoreOp} (h : P o.target) :
    ∀ id ∈ o.handle, P id := fun id hid => by
  rw [eq_target_of_mem_handle hid]
  exact h

/-- What a store call returns when it succeeds. -/
abbrev StoreOp.Val : StoreOp → Type
  | .writeChunk _ _ _ => ℕ
  | .getInfo _ => UploadInfo
  | .readContent _ => Bytes
  | _ => Unit

abbrev StoreSig : Sig where
  Op := StoreOp
  Ans o := Except TusError o.Val

inductive HandlerOp where
  | store (o : StoreOp)
  | acquire (id : UploadId)
  | release (id : UploadId)
  | newUuid
  | now
  | preCreate (info : UploadInfo)
  | preFinish (info : UploadInfo)
  | preTerminate (info : UploadInfo)
  | emit (event : HookEvent)

abbrev HandlerOp.Ans : HandlerOp → Type
  | .store o => Except TusError o.Val
  | .acquire _ => Except TusError Unit
  | .newUuid => Uuid
  | .now => DateTime
  | .preCreate _ => Except TusError UploadInfoChanges
  | .preFinish _ => Except TusError Unit
  | .preTerminate _ => Except TusError Unit
  | .release _ => Unit
  | .emit _ => Unit

abbrev HandlerSig : Sig where
  Op := HandlerOp
  Ans := HandlerOp.Ans

/-- How a handler stops early: with an error to answer, or by a panic. -/
inductive Halt where
  | error (e : TusError)
  | panic
  deriving DecidableEq, Repr

abbrev Handler (α : Type) : Type := Prog HandlerSig Halt α

namespace Handler

def reject {α : Type} (e : TusError) : Handler α := .fail (.error e)

/-- The `?` operator on a result. -/
def check {α : Type} : Except TusError α → Handler α
  | .ok a => .ret a
  | .error e => reject e

/-- Return the error unless the condition holds. -/
def ensure (cond : Bool) (e : TusError) : Handler Unit :=
  if cond then .ret () else reject e

def store (o : StoreOp) : Handler o.Val := Prog.op (S := HandlerSig) (.store o) check

def createUpload (info : UploadInfo) : Handler Unit := store (.createUpload info)

def getUpload (id : UploadId) : Handler Unit := store (.getUpload id)

def writeChunk (id : UploadId) (offset : ℕ) (reader : Reader) : Handler ℕ :=
  store (.writeChunk id offset reader)

def getInfo (id : UploadId) : Handler UploadInfo := store (.getInfo id)

def finalize (id : UploadId) : Handler Unit := store (.finalize id)

def delete (id : UploadId) : Handler Unit := store (.delete id)

def declareLength (id : UploadId) (length : ℕ) : Handler Unit := store (.declareLength id length)

def concatenate (id : UploadId) (partials : List UploadInfo) : Handler Unit :=
  store (.concatenate id partials)

def readContent (id : UploadId) : Handler Bytes := store (.readContent id)

def newUuid : Handler Uuid := Prog.call (S := HandlerSig) .newUuid

def now : Handler DateTime := Prog.call (S := HandlerSig) .now

/-- `emit`: nothing happens without an event channel. -/
def emit (h : TusHandler) (event : HookEvent) : Handler Unit :=
  if 0 < h.config.hooks.channelCapacity then Prog.call (S := HandlerSig) (.emit event) else .ret ()

/-- Run the `pre_create` callback and take over the fields it changes. -/
def preCreate (h : TusHandler) (info : UploadInfo) : Handler UploadInfo :=
  if h.config.hooks.preCreate then
    Prog.op (S := HandlerSig) (.preCreate info) fun r =>
      (check r).bind fun changes =>
        (check (match changes.id with
          | some newId => newId.validate
          | none => .ok ())).bind fun _ =>
            .ret { info with
              id := changes.id.getD info.id
              metadata := changes.metadata.getD info.metadata
              storage := changes.storage.getD info.storage }
  else .ret info

def preFinish (h : TusHandler) (info : UploadInfo) : Handler Unit :=
  if h.config.hooks.preFinish then Prog.op (S := HandlerSig) (.preFinish info) check else .ret ()

def preTerminate (h : TusHandler) (info : UploadInfo) : Handler Unit :=
  if h.config.hooks.preTerminate then Prog.op (S := HandlerSig) (.preTerminate info) check
  else .ret ()

/-- Hold the lock of `id` while `p` runs. The guard is dropped on every way
out of `p`, and there is no lock without a locker. -/
def withLock {α : Type} (h : TusHandler) (id : UploadId) (p : Handler α) : Handler α :=
  if h.hasLocker then
    Prog.op (S := HandlerSig) (.acquire id) fun r =>
      (check r).bind fun _ =>
        p.attempt.bind fun result =>
          Prog.op (S := HandlerSig) (.release id) fun _ => Prog.ofExcept result
  else p

/-- The end of a POST or PATCH that leaves a complete upload. -/
def finishIfComplete (h : TusHandler) (id : UploadId) (info : UploadInfo) : Handler Unit :=
  if info.isComplete then
    (preFinish h info).bind fun _ =>
      (finalize id).bind fun _ => emit h (.uploadFinished info)
  else .ret ()

/-- `410 Gone` once the clock has passed `expires_at`. -/
def checkExpiry (expiresAt : Option DateTime) : Handler Unit :=
  match expiresAt with
  | some t => now.bind fun clock => ensure (clock ≤ t) .gone
  | none => .ret ()

end Handler

/-! ## Responses -/

namespace TusHandler

/-- The default list of exposed header names. -/
def EXPOSE_HEADERS : Str :=
  ("Upload-Offset,Upload-Length,Upload-Metadata,Upload-Expires," ++
    "Upload-Defer-Length,Location,Tus-Resumable,Tus-Version,Tus-Extension," ++
    "Tus-Max-Size,Tus-Checksum-Algorithm,Content-Length,Content-Type").toList

/-- Insert a value that may fail to be a header value. -/
def insertOk (m : HeaderMap) (name : HeaderName) (v : Option HeaderValue) : HeaderMap :=
  match v with
  | some v => HeaderMap.insert m name v
  | none => m

/-- `extra.trim()` of each configured name, after a comma. -/
def commaJoined (start : Str) (extra : List Str) : Str :=
  extra.foldl (fun acc e => acc ++ ',' :: Text.trimBoth Text.isWhitespace e) start

/-- Headers added to every response. -/
def baseHeaders (h : TusHandler) : HeaderMap :=
  let m := HeaderMap.insert [] .tusResumable (.fromStatic TUS_VERSION)
  let m := HeaderMap.insert m .cacheControl (.fromStatic "no-store".toList)
  let cors := h.config.cors
  if cors.enabled then
    let m := insertOk m .accessControlAllowOrigin (HeaderValue.fromStr cors.allowOrigin)
    let m := if cors.allowCredentials then
      HeaderMap.insert m .accessControlAllowCredentials (.fromStatic "true".toList) else m
    insertOk m .accessControlExposeHeaders
      (HeaderValue.fromStr (commaJoined EXPOSE_HEADERS cors.extraExposeHeaders))
  else m

def responseWithBody (h : TusHandler) (status : ℕ) (extra : HeaderMap) (body : TusBody) :
    TusResponse where
  status := status
  headers := HeaderMap.extend h.baseHeaders extra
  body := body

def response (h : TusHandler) (status : ℕ) (extra : HeaderMap) (body : Bytes) : TusResponse :=
  h.responseWithBody status extra (.bytes body)

def errorResponse (h : TusHandler) (e : TusError) : TusResponse where
  status := e.statusCode
  headers := HeaderMap.insert h.baseHeaders .contentType
    (.fromStatic "text/plain; charset=utf-8".toList)
  body := .bytes (toUtf8 e.clientMessage)

/-- `Upload-Expires`, when the date prints as a header value. -/
def expiresHeader (h : TusHandler) (m : HeaderMap) (expiresAt : Option DateTime) : HeaderMap :=
  match expiresAt with
  | some t => insertOk m .uploadExpires (HeaderValue.fromStr (h.lib.httpDate t))
  | none => m

end TusHandler

theorem HeaderMap.Sets.insertOk {m : HeaderMap} {name other : HeaderName} {v : HeaderValue}
    {w : Option HeaderValue} (hm : m.Sets name v) (hne : name ≠ other) :
    (TusHandler.insertOk m other w).Sets name v := by
  unfold TusHandler.insertOk
  split
  · exact hm.insert hne
  · exact hm

theorem HeaderMap.Sets.expiresHeader {m : HeaderMap} {name : HeaderName} {v : HeaderValue}
    {h : TusHandler} {expiresAt : Option DateTime} (hm : m.Sets name v)
    (hne : name ≠ .uploadExpires) :
    (h.expiresHeader m expiresAt).Sets name v := by
  unfold TusHandler.expiresHeader
  split
  · exact hm.insertOk hne
  · exact hm

end Fileloft
