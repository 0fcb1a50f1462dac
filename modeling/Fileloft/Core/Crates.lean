import Fileloft.Core.Error
import Mathlib.Algebra.Ring.Int.Defs

/-!
# Code from other crates

What the handlers take from third-party crates is a parameter: base64,
the digests, the printed form of a date and the text of a UTF-8 error.
-/

namespace Fileloft

inductive ChecksumAlgorithm where
  | sha1
  | sha256
  | md5
  deriving DecidableEq, Repr

/-- Nanoseconds since the Unix epoch, in UTC. -/
abbrev DateTime := ℤ

structure Crates where
  b64Encode : Bytes → Str
  /-- The error is its own `Display` text. -/
  b64Decode : Str → Except Str Bytes
  /-- The `Display` text of the error for bytes that are not UTF-8. -/
  utf8Error : Bytes → Str
  digest : ChecksumAlgorithm → Bytes → Bytes
  /-- `DateTime::format` with the HTTP date pattern. -/
  httpDate : DateTime → Str

/-- The characters of a byte string, when it is UTF-8. -/
def fromUtf8 (b : Bytes) : Option Str := ((ByteArray.mk b.toArray).utf8Decode?).map Array.toList

def toUtf8 (s : Str) : Bytes := s.flatMap String.utf8EncodeChar

theorem fromUtf8_toUtf8 (s : Str) : fromUtf8 (toUtf8 s) = some s := by
  have hbytes : (ByteArray.mk (toUtf8 s).toArray) = s.utf8Encode := by
    rw [List.utf8Encode, toUtf8]
    exact ByteArray.ext (List.data_toByteArray).symm
  rw [fromUtf8, hbytes, List.utf8Decode?_utf8Encode, Option.map_some]

/-- The characters with these codes. -/
def ascii (b : Bytes) : Str := b.map fun x => Char.ofNat x.toNat

theorem utf8EncodeChar_ascii : ∀ n < 128,
    String.utf8EncodeChar (Char.ofNat n) = [UInt8.ofNat n] := by
  decide

theorem toUtf8_ascii {b : Bytes} (hb : ∀ x ∈ b, x < 128) : toUtf8 (ascii b) = b := by
  induction b with
  | nil => rfl
  | cons x b ih =>
      obtain ⟨hx, hb⟩ := List.forall_mem_cons.mp hb
      have hchar := utf8EncodeChar_ascii x.toNat (UInt8.lt_iff_toNat_lt.mp hx)
      rw [UInt8.ofNat_toNat] at hchar
      change String.utf8EncodeChar (Char.ofNat x.toNat) ++ toUtf8 (ascii b) = x :: b
      rw [hchar, ih hb, List.singleton_append]

theorem fromUtf8_ascii {b : Bytes} (hb : ∀ x ∈ b, x < 128) : fromUtf8 b = some (ascii b) := by
  have hascii := fromUtf8_toUtf8 (ascii b)
  rwa [toUtf8_ascii hb] at hascii

/-- Three decoded bytes for `AAAA`, and the SHA-1 digest of `a`. -/
def Crates.fixed : Crates where
  b64Encode := fun _ => "AAAA".toList
  b64Decode := fun _ => .ok [0, 0, 0]
  utf8Error := fun _ => "invalid utf-8 sequence".toList
  digest := fun _ _ =>
    [0x86, 0xf7, 0xe4, 0x37, 0xfa, 0xa5, 0xa7, 0xfc, 0xe1, 0x5d, 0x1d, 0xdc, 0xb9, 0xea, 0xea,
      0xea, 0x37, 0x76, 0x67, 0xb8]
  httpDate := fun _ => "Thu, 01 Jan 1970 00:00:00 GMT".toList

/-- `str::len`: the number of bytes of the UTF-8 form. -/
def byteLen (s : Str) : ℕ := (s.map Char.utf8Size).sum

end Fileloft
