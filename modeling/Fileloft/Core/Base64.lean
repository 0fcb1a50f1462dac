import Fileloft.Core.Info
import Mathlib.Tactic.IntervalCases

/-!
# Base64

The standard alphabet with padding, as a stand-in for the crate that the
handlers use.
-/

namespace Fileloft.Base64

/-- The 64 digits. -/
def alphabet : Str := "ABCDEFGHIJKLMNOPQRSTUVWXYZabcdefghijklmnopqrstuvwxyz0123456789+/".toList

def digit (n : ℕ) : Char := alphabet.getD n 'A'

def value (c : Char) : Option ℕ := if c ∈ alphabet then some (alphabet.idxOf c) else none

def encode : Bytes → Str
  | [] => []
  | [x] => [digit (x.toNat / 4), digit (x.toNat % 4 * 16), '=', '=']
  | [x, y] =>
    [digit (x.toNat / 4), digit (x.toNat % 4 * 16 + y.toNat / 16), digit (y.toNat % 16 * 4), '=']
  | x :: y :: z :: rest =>
    digit (x.toNat / 4) :: digit (x.toNat % 4 * 16 + y.toNat / 16) ::
      digit (y.toNat % 16 * 4 + z.toNat / 64) :: digit (z.toNat % 64) :: encode rest

/-- The bytes of four digits, the last ones of which may be padding. -/
def group (a b c d : Char) : Option Bytes := do
  let i ← value a
  let j ← value b
  if c = '=' ∧ d = '=' then
    if j % 16 = 0 then some [.ofNat (i * 4 + j / 16)] else none
  else
    let k ← value c
    if d = '=' then
      if k % 4 = 0 then some [.ofNat (i * 4 + j / 16), .ofNat (j % 16 * 16 + k / 4)] else none
    else
      let l ← value d
      some [.ofNat (i * 4 + j / 16), .ofNat (j % 16 * 16 + k / 4), .ofNat (k % 4 * 64 + l)]

def decode : Str → Option Bytes
  | [] => some []
  | a :: b :: c :: d :: rest => do
    let first ← group a b c d
    if rest = [] then return first
    if d = '=' then none
    let others ← decode rest
    return first ++ others
  | _ => none

theorem value_digit : ∀ n < 64, value (digit n) = some n := by
  decide +kernel

theorem digit_ne_pad : ∀ n < 64, digit n ≠ '=' := by
  decide +kernel

theorem digit_plain : ∀ n < 64, digit n ≠ ',' ∧ Text.isWhitespace (digit n) = false := by
  decide +kernel

/-! ## Reading back what is written -/

section Groups

variable (x y z : UInt8)

theorem ofNat_eq {n : ℕ} (h : n = x.toNat) : UInt8.ofNat n = x := by
  rw [h, UInt8.ofNat_toNat]

theorem group_one :
    group (digit (x.toNat / 4)) (digit (x.toNat % 4 * 16)) '=' '=' = some [x] := by
  have hx := x.toNat_lt
  unfold group
  rw [value_digit _ (by omega), value_digit _ (by omega)]
  simp only [Option.bind_eq_bind, Option.bind_some, and_self, if_true]
  rw [if_pos (by omega), ofNat_eq x (by omega)]

theorem group_two :
    group (digit (x.toNat / 4)) (digit (x.toNat % 4 * 16 + y.toNat / 16))
      (digit (y.toNat % 16 * 4)) '=' = some [x, y] := by
  have hx := x.toNat_lt
  have hy := y.toNat_lt
  unfold group
  rw [value_digit _ (by omega), value_digit _ (by omega), value_digit _ (by omega)]
  simp only [Option.bind_eq_bind, Option.bind_some, and_true, if_true]
  rw [if_neg (digit_ne_pad _ (by omega)), if_pos (by omega), ofNat_eq x (by omega),
    ofNat_eq y (by omega)]

theorem group_three :
    group (digit (x.toNat / 4)) (digit (x.toNat % 4 * 16 + y.toNat / 16))
      (digit (y.toNat % 16 * 4 + z.toNat / 64)) (digit (z.toNat % 64)) = some [x, y, z] := by
  have hx := x.toNat_lt
  have hy := y.toNat_lt
  have hz := z.toNat_lt
  have hpad := digit_ne_pad (z.toNat % 64) (by omega)
  unfold group
  rw [value_digit _ (by omega), value_digit _ (by omega), value_digit _ (by omega),
    value_digit _ (by omega)]
  simp only [Option.bind_eq_bind, Option.bind_some, hpad, and_false, if_false]
  rw [ofNat_eq x (by omega), ofNat_eq y (by omega), ofNat_eq z (by omega)]

end Groups

theorem group_ne_nil {a b c d : Char} (h : group a b c d = some []) : False := by
  unfold group at h
  simp only [Option.bind_eq_bind, Option.bind_eq_some_iff] at h
  obtain ⟨i, -, j, -, h⟩ := h
  split at h
  · split at h <;> cases h
  · obtain ⟨k, -, h⟩ := Option.bind_eq_some_iff.mp h
    split at h
    · split at h <;> cases h
    · obtain ⟨l, -, h⟩ := Option.bind_eq_some_iff.mp h
      cases h

theorem decode_encode (b : Bytes) : decode (encode b) = some b := by
  induction b using encode.induct with
  | case1 => rfl
  | case2 x => simp [encode, decode, group_one]
  | case3 x y => simp [encode, decode, group_two]
  | case4 x y z rest ih =>
      have hpad := digit_ne_pad (z.toNat % 64) (by have := z.toNat_lt; omega)
      simp only [encode, decode, group_three, Option.bind_eq_bind, Option.bind_some, ih, hpad,
        if_false]
      split
      · next hrest =>
          rw [hrest] at ih
          cases ih
          rfl
      · rfl

theorem eq_nil_of_decode {s : Str} (h : decode s = some []) : s = [] := by
  unfold decode at h
  split at h
  · rfl
  · simp only [Option.bind_eq_bind, Option.bind_eq_some_iff] at h
    obtain ⟨first, hfirst, h⟩ := h
    have hne : first ≠ [] := by
      rintro rfl
      exact group_ne_nil hfirst
    split at h
    · exact absurd (Option.some.inj h) hne
    · split at h
      · cases h
      · obtain ⟨others, -, h⟩ := Option.bind_eq_some_iff.mp h
        exact absurd (List.append_eq_nil_iff.mp (Option.some.inj h)).1 hne
  · cases h

/-- A character the metadata syntax does not use. -/
def Plain (c : Char) : Prop := c ≠ ',' ∧ Text.isWhitespace c = false

theorem encode_plain (b : Bytes) : ∀ c ∈ encode b, Plain c := by
  have hpad : Plain '=' := by
    unfold Plain
    decide
  induction b using encode.induct with
  | case1 =>
      intro c hc
      cases hc
  | case2 x =>
      have hx := x.toNat_lt
      simp only [encode, List.forall_mem_cons]
      exact ⟨digit_plain _ (by omega), digit_plain _ (by omega), hpad, hpad,
        fun c hc => by cases hc⟩
  | case3 x y =>
      have hx := x.toNat_lt
      have hy := y.toNat_lt
      simp only [encode, List.forall_mem_cons]
      exact ⟨digit_plain _ (by omega), digit_plain _ (by omega), digit_plain _ (by omega), hpad,
        fun c hc => by cases hc⟩
  | case4 x y z rest ih =>
      have hx := x.toNat_lt
      have hy := y.toNat_lt
      have hz := z.toNat_lt
      simp only [encode, List.forall_mem_cons]
      exact ⟨digit_plain _ (by omega), digit_plain _ (by omega), digit_plain _ (by omega),
        digit_plain _ (by omega), ih⟩

end Fileloft.Base64
