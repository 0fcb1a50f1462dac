import Fileloft.Core.Http

/-!
# Configuration

The handler configuration. A callback is recorded here only as set or not
set; its answers come from the environment of a request.
-/

namespace Fileloft

structure CorsConfig where
  enabled : Bool := false
  allowOrigin : Str := "*".toList
  allowCredentials : Bool := false
  extraAllowHeaders : List Str := []
  extraExposeHeaders : List Str := []
  maxAge : ℕ := 86400

structure Extensions where
  creation : Bool := true
  creationWithUpload : Bool := true
  creationDeferLength : Bool := true
  expiration : Bool := false
  /-- In nanoseconds. -/
  expirationTtl : Option ℕ := none
  checksum : Bool := true
  checksumTrailer : Bool := false
  termination : Bool := true
  concatenation : Bool := false
  cleanupConcatPartials : Bool := false

structure HookConfig where
  /-- `0` means there is no event channel. -/
  channelCapacity : ℕ := 0
  preCreate : Bool := false
  preFinish : Bool := false
  preTerminate : Bool := false

structure Config where
  basePath : Str := "/files/".toList
  baseUrl : Option Str := none
  /-- `0` means no limit. -/
  maxSize : ℕ := 0
  extensions : Extensions := {}
  cors : CorsConfig := {}
  trustForwardedHeaders : Bool := false
  hooks : HookConfig := {}
  enableDownload : Bool := false

inductive HookEvent where
  | uploadCreated (info : UploadInfo)
  | uploadFinished (info : UploadInfo)
  | uploadTerminated (id : UploadId)
  | uploadProgress (info : UploadInfo)
  deriving DecidableEq, Repr

/-- The upload an event is about. -/
def HookEvent.id : HookEvent → UploadId
  | uploadCreated info => info.id
  | uploadFinished info => info.id
  | uploadTerminated id => id
  | uploadProgress info => info.id

/-- `TusHandler` without its store: the locker is there or not. -/
structure TusHandler where
  config : Config
  hasLocker : Bool
  lib : Crates

end Fileloft
