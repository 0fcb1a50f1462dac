import Fileloft.Core.Config

/-!
# Reading request headers

The header checks every handler shares, and the `Upload-Checksum` header.
-/

namespace Fileloft

open Text (isWhitespace parseUInt trimBoth splitOnce)

def TUS_VERSION : Str := "1.0.0".toList

def CONTENT_TYPE_OCTET_STREAM : Str := "application/offset+octet-stream".toList

/-- The number of values of a `u64`. -/
def U64_BOUND : ℕ := 2 ^ 64

def checkTusResumable (headers : HeaderMap) : Except TusError Unit :=
  match HeaderMap.get headers .tusResumable with
  | none => .error .missingTusResumable
  | some v =>
    let s := v.toStr.getD []
    if s = TUS_VERSION then .ok () else .error (.unsupportedVersion s)

def parseUploadOffset (headers : HeaderMap) : Except TusError ℕ :=
  match HeaderMap.get headers .uploadOffset with
  | none => .error .missingUploadOffset
  | some v =>
    match v.toStr.bind (parseUInt U64_BOUND) with
    | some n => .ok n
    | none => .error .missingUploadOffset

def parseUploadLength (headers : HeaderMap) : Except TusError (Option ℕ) :=
  match HeaderMap.get headers .uploadLength with
  | none => .ok none
  | some v =>
    match v.toStr.bind (parseUInt U64_BOUND) with
    | some n => .ok (some n)
    | none => .error (.invalidMetadata "invalid Upload-Length value".toList)

def hasDeferLength (headers : HeaderMap) : Bool :=
  match HeaderMap.getStr headers .uploadDeferLength with
  | some s => trimBoth isWhitespace s == "1".toList
  | none => false

def u64Header (n : ℕ) : HeaderValue := .fromStatic (Text.decimal n)

/-- `checked_add` on `u64`. -/
def checkedAdd (a b : ℕ) : Option ℕ := if a + b < U64_BOUND then some (a + b) else none

/-- `sum` on `u64`, which wraps in a release build. -/
def wrappingSum (l : List ℕ) : ℕ := l.sum % U64_BOUND

/-- The text before the first comma, trimmed, unless it is empty. -/
def firstListed (s : Str) : Option Str :=
  let t := trimBoth isWhitespace ((s.splitOn ',').headD s)
  if t = [] then none else some t

/-- Scheme and host for `Location`. -/
def requestBaseUrl (config : Config) (headers : HeaderMap) : Str :=
  match config.baseUrl with
  | some base => base.rdropWhile (· == '/')
  | none =>
    let scheme :=
      if config.trustForwardedHeaders then
        ((HeaderMap.getStr headers .xForwardedProto).bind firstListed).getD "http".toList
      else "http".toList
    let host :=
      if config.trustForwardedHeaders then
        ((((HeaderMap.get headers .xForwardedHost).or
          (HeaderMap.get headers .host)).bind HeaderValue.toStr).bind firstListed).getD
            "localhost".toList
      else (HeaderMap.getStr headers .host).getD "localhost".toList
    scheme ++ "://".toList ++ host

/-- `FromStr` of `ChecksumAlgorithm`. The letters of the accepted names are
the lower-case forms of ASCII letters only. -/
def ChecksumAlgorithm.fromStr (s : Str) : Except TusError ChecksumAlgorithm :=
  let lower := s.map Char.toLower
  if lower = "sha1".toList then .ok .sha1
  else if lower = "sha256".toList then .ok .sha256
  else if lower = "md5".toList then .ok .md5
  else .error (.unsupportedChecksumAlgorithm lower)

def parseChecksumHeader (lib : Crates) (value : Str) :
    Except TusError (ChecksumAlgorithm × Bytes) :=
  match splitOnce ' ' value with
  | none =>
    .error (.invalidMetadata
      "malformed Upload-Checksum header (expected '<alg> <base64>')".toList)
  | some (alg, b64) =>
    match ChecksumAlgorithm.fromStr alg with
    | .error e => .error e
    | .ok algorithm =>
      match lib.b64Decode (trimBoth isWhitespace b64) with
      | .ok hash => .ok (algorithm, hash)
      | .error e => .error (.invalidMetadata ("bad base64 in Upload-Checksum: ".toList ++ e))

/-- Where a chunk ends. The stores refuse one that ends past `u64` or past
the declared size. -/
def chunkEnd (info : UploadInfo) (offset n : ℕ) : Except TusError ℕ :=
  match checkedAdd offset n with
  | none => .error (.internal "upload offset overflow".toList)
  | some endOffset =>
    match info.size with
    | some declared =>
      if endOffset > declared then .error (.exceedsUploadLength declared endOffset)
      else .ok endOffset
    | none => .ok endOffset

/-- A chunk is refused exactly when it would end too late. -/
theorem chunkEnd_eq_ok {n offset finish : ℕ} :
    chunkEnd info offset n = .ok finish ↔ finish = offset + n ∧ offset + n < U64_BOUND ∧
      ∀ declaredSize, info.size = some declaredSize → offset + n ≤ declaredSize := by
  by_cases hlt : offset + n < U64_BOUND
  · simp only [chunkEnd, checkedAdd, hlt, if_true, true_and]
    cases hsize : info.size with
    | none => simp [eq_comm]
    | some declaredSize =>
        simp only [gt_iff_lt, Option.some.injEq, forall_eq']
        split
        · next hbig => simp [Nat.not_le.mpr hbig]
        · next hfit => simp [Nat.not_lt.mp hfit, eq_comm]
  · simp [chunkEnd, checkedAdd, hlt]

end Fileloft
