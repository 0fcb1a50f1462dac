import Fileloft.Core.Crates
import Fileloft.Text.Search

/-!
# Upload ids, metadata and the upload record

The id language, the `Upload-Metadata` wire format and the record that
stores keep for each upload.
-/

namespace Fileloft

/-- The text of a version 4 UUID: 36 hex digits and hyphens. -/
structure Uuid where
  text : Str
  length_eq : text.length = 36
  hex : ∀ c ∈ text, c.isAlphanum = true ∨ c = '-'

@[ext] structure UploadId where
  val : Str
  deriving DecidableEq, Repr

/-- True when `value` matches the shape of a storage backend's derived
object keys. -/
def collidesWithReservedKey (value : Str) : Bool :=
  ".info".toList.isSuffixOf value ||
    ["_part_".toList, "_tmp_".toList].any fun token =>
      match Text.rfind token value with
      | some pos =>
        let tail := value.drop (pos + token.length)
        !tail.isEmpty && tail.all Char.isDigit
      | none => false

def idChar (c : Char) : Bool := c.isAlphanum || c == '-' || c == '_' || c == '.'

namespace UploadId

def new (u : Uuid) : UploadId := ⟨u.text⟩

def validateStr (value : Str) : Except TusError Unit :=
  if value = [] ∨ byteLen value > 128 then .error .invalidUploadId
  else if value = ".".toList ∨ value = "..".toList ∨ "..".toList <:+: value then
    .error .invalidUploadId
  else if ¬ value.all idChar then .error .invalidUploadId
  else if collidesWithReservedKey value then .error .invalidUploadId
  else .ok ()

def parse (value : Str) : Except TusError UploadId :=
  match validateStr value with
  | .ok () => .ok ⟨value⟩
  | .error e => .error e

def validate (id : UploadId) : Except TusError Unit := validateStr id.val

/-- The ids `validate` accepts. -/
def Valid (id : UploadId) : Prop := id.validate = .ok ()

instance (id : UploadId) : Decidable id.Valid :=
  match h : id.validate with
  | .ok () => .isTrue h
  | .error _ => .isFalse fun hv => by
      rw [Valid, h] at hv
      cases hv

end UploadId

/-- Key-value pairs of `Upload-Metadata`; a key without value has `none`. -/
structure Metadata where
  entries : List (Str × Option Str)
  deriving DecidableEq, Repr

namespace Metadata

def empty : Metadata := ⟨[]⟩

/-- `HashMap::insert`: the last value of a key stays. -/
def insert (m : Metadata) (key : Str) (value : Option Str) : Metadata :=
  if key ∈ m.entries.map Prod.fst then
    ⟨m.entries.map fun e => if e.1 = key then (key, value) else e⟩
  else ⟨m.entries ++ [(key, value)]⟩

def isEmpty (m : Metadata) : Bool := m.entries.isEmpty

/-- The value of one pair: what stands after the first space. -/
def parseValue (lib : Crates) (key : Str) : Option Str → Except TusError (Option Str)
  | none => .ok none
  | some b64 =>
    if b64 = [] then .ok none
    else
      match lib.b64Decode (Text.trimBoth Text.isWhitespace b64) with
      | .error e => .error (.invalidMetadata e)
      | .ok decoded =>
        match fromUtf8 decoded with
        | some value => .ok (some value)
        | none =>
          .error (.invalidMetadata ("non-UTF8 value for key ".toList ++ key ++ ": ".toList ++
            lib.utf8Error decoded))

/-- One comma-separated piece, added to the map built so far. -/
def parsePair (lib : Crates) (m : Metadata) (pair : Str) : Except TusError Metadata :=
  let pair := Text.trimBoth Text.isWhitespace pair
  if pair = [] then .ok m
  else
    let (first, rest) := match Text.splitOnce ' ' pair with
      | some (first, rest) => (first, some rest)
      | none => (pair, none)
    let key := Text.trimBoth Text.isWhitespace first
    if key = [] then .error (.invalidMetadata "empty key in metadata".toList)
    else
      match parseValue lib key rest with
      | .ok value => .ok (m.insert key value)
      | .error e => .error e

def parse (lib : Crates) (header : Str) : Except TusError Metadata :=
  (header.splitOn ',').foldlM (parsePair lib) empty

def encode (lib : Crates) (m : Metadata) : Str :=
  [','].intercalate (m.entries.map fun (k, v) =>
    match v with
    | none => k
    | some val => k ++ ' ' :: lib.b64Encode (toUtf8 val))

end Metadata

/-- Complete state of a single upload resource. -/
structure UploadInfo where
  id : UploadId
  /-- `none` until the length of a deferred upload is declared. -/
  size : Option ℕ
  offset : ℕ
  metadata : Metadata
  sizeIsDeferred : Bool
  expiresAt : Option DateTime
  isPartial : Bool
  isFinal : Bool
  partialUploads : List UploadId
  storage : List (Str × Str)
  deriving DecidableEq, Repr

namespace UploadInfo

def new (id : UploadId) (size : Option ℕ) : UploadInfo where
  id := id
  size := size
  offset := 0
  metadata := .empty
  sizeIsDeferred := size.isNone
  expiresAt := none
  isPartial := false
  isFinal := false
  partialUploads := []
  storage := []

def isComplete (info : UploadInfo) : Bool :=
  match info.size with
  | some s => info.offset == s
  | none => false

theorem isComplete_iff {info : UploadInfo} :
    info.isComplete = true ↔ info.size = some info.offset := by
  unfold isComplete
  cases info.size with
  | none => simp
  | some s =>
      simp only [beq_iff_eq, Option.some.injEq]
      exact eq_comm

end UploadInfo

/-- Fields a `pre_create` hook may override. -/
structure UploadInfoChanges where
  id : Option UploadId
  metadata : Option Metadata
  storage : Option (List (Str × Str))

namespace UploadId

/-- What acceptance of an id gives: it is not empty, its characters are
those of the alphabet, and no derived key has its shape. -/
structure Valid.Spec (value : Str) : Prop where
  ne_nil : value ≠ []
  alphabet : ∀ c ∈ value, idChar c = true
  ne_dot : value ≠ ".".toList
  ne_dots : value ≠ "..".toList
  unreserved : collidesWithReservedKey value = false

theorem Valid.spec {id : UploadId} (h : id.Valid) : Valid.Spec id.val := by
  unfold Valid validate validateStr at h
  split at h
  · cases h
  · next hlen =>
      split at h
      · cases h
      · next hdots =>
          split at h
          · cases h
          · next hall =>
              split at h
              · cases h
              · next hcol =>
                  push Not at hlen hdots
                  exact ⟨hlen.1, List.all_eq_true.mp (by simpa using hall), hdots.1, hdots.2.1,
                    by simpa using hcol⟩

theorem parse_eq_ok {value : Str} {id : UploadId} (h : parse value = .ok id) :
    id.val = value ∧ id.Valid := by
  unfold parse at h
  split at h
  · next hv =>
      cases h
      exact ⟨rfl, hv⟩
  · cases h

end UploadId

end Fileloft
