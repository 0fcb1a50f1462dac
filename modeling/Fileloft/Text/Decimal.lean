import Mathlib.Data.Nat.Notation
import Mathlib.Logic.Basic

/-!
# Unsigned decimals

Formatting writes the digits without leading zeros. Parsing is the one of
fixed-width unsigned integers: one optional plus sign, at least one digit,
nothing else, and a value below the bound.
-/

namespace Text

def decimal (n : ℕ) : List Char := Nat.toDigits 10 n

/-- What is left to parse after one optional plus sign. -/
def unsigned : List Char → List Char
  | '+' :: rest => rest
  | s => s

def parseUInt (bound : ℕ) (s : List Char) : Option ℕ :=
  if unsigned s ≠ [] ∧ (unsigned s).all Char.isDigit = true ∧
      Nat.ofDigitChars 10 (unsigned s) 0 < bound then
    some (Nat.ofDigitChars 10 (unsigned s) 0)
  else none

theorem isDigit_of_mem_decimal {c : Char} {n : ℕ} (h : c ∈ decimal n) : c.isDigit = true :=
  Nat.isDigit_of_mem_toDigits (by decide) (by decide) h

theorem decimal_ne_nil (n : ℕ) : decimal n ≠ [] := Nat.toDigits_ne_nil

theorem ofDigitChars_decimal (n : ℕ) : Nat.ofDigitChars 10 (decimal n) 0 = n :=
  Nat.ofDigitChars_ten_toDigits

theorem decimal_injective {m n : ℕ} (h : decimal m = decimal n) : m = n := by
  rw [← ofDigitChars_decimal m, h, ofDigitChars_decimal]

theorem unsigned_decimal (n : ℕ) : unsigned (decimal n) = decimal n := by
  cases h : decimal n with
  | nil => rfl
  | cons c rest =>
      have hc : c.isDigit = true := isDigit_of_mem_decimal (n := n) (by simp [h])
      have hne : c ≠ '+' := by
        rintro rfl
        revert hc
        decide
      unfold unsigned
      split
      · next heq =>
          injection heq with heq
          exact (hne heq).elim
      · rfl

/-- Parsing reads back what formatting wrote. -/
theorem parseUInt_decimal {bound n : ℕ} (h : n < bound) :
    parseUInt bound (decimal n) = some n := by
  have hall : (decimal n).all Char.isDigit = true :=
    List.all_eq_true.mpr fun c hc => isDigit_of_mem_decimal hc
  simp [parseUInt, unsigned_decimal, decimal_ne_nil, ofDigitChars_decimal, h, hall]

theorem eq_of_parseUInt_decimal {bound m n : ℕ} (h : parseUInt bound (decimal m) = some n) :
    n = m := by
  unfold parseUInt at h
  rw [unsigned_decimal, ofDigitChars_decimal] at h
  split at h
  · exact (Option.some.inj h).symm
  · cases h

/-- Only digits parse, after the sign. -/
theorem parseUInt_eq_some {bound n : ℕ} {s : List Char} (h : parseUInt bound s = some n) :
    n < bound ∧ ∀ c ∈ s, c.isDigit = true ∨ c = '+' := by
  unfold parseUInt at h
  split at h
  · next hs =>
      obtain ⟨-, hall, hlt⟩ := hs
      cases h
      refine ⟨hlt, fun c hc => ?_⟩
      unfold unsigned at hall
      split at hall
      · rcases List.mem_cons.mp hc with rfl | hc
        · exact Or.inr rfl
        · exact Or.inl (List.all_eq_true.mp hall c hc)
      · exact Or.inl (List.all_eq_true.mp hall c hc)
  · cases h

end Text
