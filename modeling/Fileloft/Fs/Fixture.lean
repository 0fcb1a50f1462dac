import Fileloft.Text.Json
import Fileloft.Fs.Store

/-!
# A file store for examples

Records as compact JSON, field by field. A date is written as its number of
nanoseconds.
-/

namespace Fileloft

open Text Format

namespace InfoCodec

def dateText (t : DateTime) : Str := if t < 0 then '-' :: decimal t.natAbs else decimal t.natAbs

def dateOfText : Str → DateTime
  | '-' :: digits => -(Nat.ofDigitChars 10 digits 0 : ℤ)
  | digits => (Nat.ofDigitChars 10 digits 0 : ℤ)

theorem dateOfText_dateText (t : ℤ) : dateOfText (dateText t) = t := by
  unfold dateText
  split
  · next hneg =>
      rw [dateOfText, ofDigitChars_decimal]
      exact Int.ofNat_natAbs_of_nonpos hneg.le ▸ Int.neg_neg t
  · next hneg =>
    have hdigits : dateOfText (decimal t.natAbs) = Nat.ofDigitChars 10 (decimal t.natAbs) 0 := by
      unfold dateOfText
      split
      · next digits heq =>
          have hminus : ('-' : Char).isDigit = true :=
            isDigit_of_mem_decimal (n := t.natAbs) (by simp [heq])
          cases hminus
      · rfl
    rw [hdigits, ofDigitChars_decimal]
    exact Int.natAbs_of_nonneg (Int.not_lt.mp hneg)

def date : Format DateTime :=
  string.ofSome (fun s => some (dateOfText s)) dateText fun t => by rw [dateOfText_dateText]

def uploadId : Format UploadId := string.ofSome (fun s => some ⟨s⟩) UploadId.val fun _ => rfl

theorem number_ne_null (n : ℕ) : ∃ c cs, number.print n = c :: cs ∧ c ≠ 'n' := by
  change ∃ c cs, decimal n = c :: cs ∧ c ≠ 'n'
  cases hdigits : decimal n with
  | nil => exact (decimal_ne_nil n hdigits).elim
  | cons c cs =>
      refine ⟨c, cs, rfl, ?_⟩
      rintro rfl
      have hdigit : ('n' : Char).isDigit = true :=
        isDigit_of_mem_decimal (n := n) (by simp [hdigits])
      cases hdigit

/-- A map of string keys. -/
def mapOf {α : Type} (f : Format α) : Format (List (Str × α)) :=
  list (entry f) '{' '}' (opens_entry f) (by decide) rfl (by decide)

/-- The fields of a record, in their order. -/
abbrev FieldValues : Type :=
  UploadId × Option ℕ × ℕ × List (Str × Option Str) × Bool × Option DateTime × Bool × Bool ×
    List UploadId × List (Str × Str) × Unit

def fields : Fields FieldValues :=
  field '{' rfl "id".toList uploadId <|
  field ',' rfl "size".toList (orNull number number_ne_null) <|
  field ',' rfl "offset".toList number <|
  field ',' rfl "metadata".toList (mapOf (orNull string fun _ => ⟨_, _, rfl, by decide⟩)) <|
  field ',' rfl "size_is_deferred".toList bool <|
  field ',' rfl "expires_at".toList (orNull date fun _ => ⟨_, _, rfl, by decide⟩) <|
  field ',' rfl "is_partial".toList bool <|
  field ',' rfl "is_final".toList bool <|
  field ',' rfl "partial_uploads".toList
    (list uploadId '[' ']' (c := '"') (fun _ => ⟨_, rfl⟩) (by decide) rfl (by decide)) <|
  field ',' rfl "storage".toList (mapOf string) close

def record : Format UploadInfo :=
  fields.toFormat.ofSome
    (fun (id, size, offset, metadata, sizeIsDeferred, expiresAt, isPartial, isFinal, partialUploads,
        storage, _) =>
      some { id, size, offset, metadata := ⟨metadata⟩, sizeIsDeferred, expiresAt, isPartial,
             isFinal, partialUploads, storage })
    (fun info =>
      (info.id, info.size, info.offset, info.metadata.entries, info.sizeIsDeferred, info.expiresAt,
        info.isPartial, info.isFinal, info.partialUploads, info.storage, ()))
    fun _ => rfl

/-- Compact JSON, as `serde_json` writes it. -/
def json : InfoCodec where
  toVec info := .ok (toUtf8 (record.print info))
  fromSlice b :=
    match (fromUtf8 b).bind record.parse with
    | some (info, []) => .ok info
    | _ => .error "invalid record".toList
  roundTrip info := by
    have hparse := record.parse_print info [] (by simp [Stops])
    rw [List.append_nil] at hparse
    exact ⟨_, rfl, by simp [fromUtf8_toUtf8, hparse]⟩

/-- How `json` reads ASCII bytes, which takes fewer steps to evaluate. -/
def readAscii (b : Bytes) : Except Str UploadInfo :=
  if b.all (· < 128) then
    match record.parse (ascii b) with
    | some (info, []) => .ok info
    | _ => .error "invalid record".toList
  else json.fromSlice b

theorem fromSlice_json : json.fromSlice = readAscii := by
  funext b
  unfold readAscii
  split
  · next hall =>
      have hb : ∀ x ∈ b, x < 128 := by simpa using hall
      simp only [json, fromUtf8_ascii hb, Option.bind_some]
  · rfl

def jsonAscii : InfoCodec where
  toVec := json.toVec
  fromSlice := readAscii
  roundTrip := fromSlice_json ▸ json.roundTrip

theorem json_eq : json = jsonAscii := by
  rw [jsonAscii, InfoCodec.mk.injEq]
  exact ⟨rfl, fromSlice_json⟩

end InfoCodec

/-- The store at the path `uploads`. -/
def FileStore.uploads : FileStore :=
  .withPrefix ["uploads".toList] [] .json (by simp)

theorem FileStore.uploads_eq :
    uploads = .withPrefix ["uploads".toList] [] .jsonAscii (by simp) := by
  rw [uploads, InfoCodec.json_eq]

end Fileloft
