import Fileloft.Text.Decimal
import Mathlib.Algebra.Ring.Nat

/-!
# Errors

The error type of the handlers and stores, the text a client sees and the
status code of each variant.
-/

namespace Fileloft

abbrev Str := List Char

instance : LawfulBEq Str := inferInstanceAs (LawfulBEq (List Char))

abbrev Bytes := List UInt8

/-- The part of `std::io::Error` the stores look at: its kind. -/
inductive IoError where
  | notFound
  | other
  deriving DecidableEq, Repr

inductive TusError where
  | missingTusResumable
  | unsupportedVersion (version : Str)
  | missingUploadOffset
  | offsetMismatch (expected actual : ℕ)
  | wrongContentType (got : Str)
  | notFound (id : Str)
  | gone
  | entityTooLarge (max : ℕ)
  | exceedsUploadLength (declared finish : ℕ)
  | checksumMismatch
  | unsupportedChecksumAlgorithm (algorithm : Str)
  | missingUploadLength
  | uploadLengthAlreadySet
  | extensionNotEnabled (extension : Str)
  | invalidMetadata (reason : Str)
  | invalidUploadId
  | emptyConcatenation
  | partialUploadIncomplete (id : Str)
  | notPartialUpload (id : Str)
  | patchOnFinalUpload
  | uploadNotReadyForDownload
  | methodNotAllowed
  | lockTimeout (id : Str)
  | lockConflict (id : Str)
  | hookRejected (reason : Str)
  | io (e : IoError)
  | serialization (reason : Str)
  | internal (reason : Str)
  deriving DecidableEq, Repr

namespace TusError

/-- The `Display` text of each variant a client is shown. -/
def display : TusError → Str
  | missingTusResumable => "missing Tus-Resumable header".toList
  | unsupportedVersion version => "unsupported tus version: ".toList ++ version
  | missingUploadOffset => "missing Upload-Offset header".toList
  | offsetMismatch expected actual =>
      "upload offset mismatch: expected ".toList ++ Text.decimal expected ++ ", got ".toList ++
        Text.decimal actual
  | wrongContentType got =>
      "wrong Content-Type: expected application/offset+octet-stream, got ".toList ++ got
  | notFound id => "upload not found: ".toList ++ id
  | gone => "upload has expired".toList
  | entityTooLarge max =>
      "upload size exceeds server maximum of ".toList ++ Text.decimal max ++ " bytes".toList
  | exceedsUploadLength declared finish =>
      "chunk exceeds declared upload length (declared ".toList ++ Text.decimal declared ++
        " bytes, end offset would be ".toList ++ Text.decimal finish ++ ")".toList
  | checksumMismatch => "checksum mismatch".toList
  | unsupportedChecksumAlgorithm algorithm =>
      "unsupported checksum algorithm: ".toList ++ algorithm
  | missingUploadLength => "missing Upload-Length (or Upload-Defer-Length)".toList
  | uploadLengthAlreadySet => "Upload-Length cannot be changed once set".toList
  | extensionNotEnabled extension => "extension not enabled: ".toList ++ extension
  | invalidMetadata reason => "invalid metadata: ".toList ++ reason
  | invalidUploadId => "invalid upload ID".toList
  | emptyConcatenation => "concatenation requires at least one partial upload URL".toList
  | partialUploadIncomplete id =>
      "partial upload ".toList ++ id ++ " is not yet complete".toList
  | notPartialUpload id =>
      "upload ".toList ++ id ++
        " is not a partial upload and cannot be used in a concatenation".toList
  | patchOnFinalUpload => "PATCH is not allowed on a final concatenated upload".toList
  | uploadNotReadyForDownload =>
      "upload is not complete or not available for download".toList
  | methodNotAllowed => "method not allowed".toList
  | lockTimeout id => "lock acquisition timed out for upload ".toList ++ id
  | lockConflict id => "lock is already held for upload ".toList ++ id
  | hookRejected reason => "hook rejected request: ".toList ++ reason
  | io _ => "I/O error".toList
  | serialization reason => "serialization error: ".toList ++ reason
  | internal reason => "internal error: ".toList ++ reason

/-- Storage and internal errors are not described to the client. -/
def clientMessage (e : TusError) : Str :=
  match e with
  | io _ | serialization _ | internal _ => "internal server error".toList
  | _ => e.display

def statusCode : TusError → ℕ
  | missingTusResumable => 412
  | unsupportedVersion _ => 412
  | missingUploadOffset => 400
  | offsetMismatch _ _ => 409
  | wrongContentType _ => 415
  | notFound _ => 404
  | gone => 410
  | entityTooLarge _ => 413
  | exceedsUploadLength _ _ => 413
  | checksumMismatch => 460
  | unsupportedChecksumAlgorithm _ => 400
  | missingUploadLength => 400
  | uploadLengthAlreadySet => 400
  | extensionNotEnabled _ => 404
  | invalidMetadata _ => 400
  | invalidUploadId => 400
  | emptyConcatenation => 400
  | partialUploadIncomplete _ => 400
  | notPartialUpload _ => 400
  | patchOnFinalUpload => 403
  | uploadNotReadyForDownload => 400
  | methodNotAllowed => 405
  | lockTimeout _ => 408
  | lockConflict _ => 423
  | hookRejected _ => 403
  | io _ => 500
  | serialization _ => 500
  | internal _ => 500

/-- Every error answers with a client or server error status. -/
theorem statusCode_error (e : TusError) : 400 ≤ e.statusCode ∧ e.statusCode ≤ 500 := by
  cases e <;> simp [statusCode]

end TusError

/-- The condition holds, or the error. -/
def guardWith (cond : Bool) (e : TusError) : Except TusError Unit :=
  if cond then .ok () else .error e

theorem guardWith_eq_ok {cond : Bool} {e : TusError} {u : Unit} :
    guardWith cond e = .ok u ↔ cond = true := by
  cases cond <;> simp [guardWith]

/-- An early return with an error. -/
def refuseIf (cond : Prop) [Decidable cond] (e : TusError) : Except TusError Unit :=
  if cond then .error e else .ok ()

theorem refuseIf_eq_ok {cond : Prop} [Decidable cond] {e : TusError} {u : Unit} :
    refuseIf cond e = .ok u ↔ ¬ cond := by
  by_cases h : cond <;> simp [refuseIf, h]

theorem bind_eq_ok {ε α β : Type} {x : Except ε α} {f : α → Except ε β} {b : β} :
    (x >>= f) = .ok b ↔ ∃ a, x = .ok a ∧ f a = .ok b := by
  cases x <;> simp [bind, Except.bind]

theorem ok_of_toOption {ε α : Type} {e : Except ε α} {a : α} (he : e.toOption = some a) :
    e = .ok a := by
  cases e with
  | error e => cases he
  | ok b => rw [Option.some.inj he]

end Fileloft
