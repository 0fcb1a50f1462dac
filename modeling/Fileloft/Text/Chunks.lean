import Mathlib.Data.List.Infix
import Mathlib.Data.Nat.Notation
import Mathlib.Tactic.Common

/-!
# Cutting a list into chunks

Chunks of one length, of which only the last may be shorter.
-/

namespace Text

variable {α β : Type} {n : ℕ} {xs : List α}

/-- `slice::chunks`. -/
def chunks (n : ℕ) (xs : List α) : List (List α) :=
  (List.range ((xs.length + n - 1) / n)).map fun i => (xs.drop (i * n)).take n

theorem length_chunks (n : ℕ) (xs : List α) :
    (chunks n xs).length = (xs.length + n - 1) / n := by
  rw [chunks, List.length_map, List.length_range]

theorem chunks_nil (hn : 0 < n) : chunks n ([] : List α) = [] := by
  apply List.eq_nil_of_length_eq_zero
  rw [length_chunks, List.length_nil, Nat.div_eq_of_lt]
  omega

/-- The first chunk, and the chunks of the rest. -/
theorem chunks_eq_cons (hn : 0 < n) (hxs : xs ≠ []) :
    chunks n xs = xs.take n :: chunks n (xs.drop n) := by
  have hpos : 0 < xs.length := List.length_pos_iff.mpr hxs
  have hcount : (xs.length + n - 1) / n = (xs.length - n + n - 1) / n + 1 := by
    rcases Nat.le_total xs.length n with hle | hge
    · have hone : (xs.length + n - 1) / n = 1 := by
        apply Nat.div_eq_of_lt_le <;> omega
      have hzero : (xs.length - n + n - 1) / n = 0 := by
        apply Nat.div_eq_of_lt
        omega
      rw [hone, hzero]
    · rw [Nat.sub_add_cancel hge, ← Nat.add_div_right _ hn]
      congr 1
      omega
  rw [chunks, chunks, List.length_drop, hcount, List.range_succ_eq_map, List.map_cons, List.map_map]
  congr 1
  · simp
  · apply List.map_congr_left
    intro i _
    simp [Function.comp_apply, List.drop_drop, Nat.succ_mul, Nat.add_comm]

/-- The induction that follows the chunks. -/
theorem chunks_induction {P : List α → Prop} (hn : 0 < n) (hnil : P [])
    (hcons : ∀ xs, xs ≠ [] → P (xs.drop n) → P xs) (xs : List α) : P xs := by
  induction hlen : xs.length using Nat.strong_induction_on generalizing xs with
  | _ len ih =>
      by_cases hxs : xs = []
      · exact hxs ▸ hnil
      · have hpos : 0 < xs.length := List.length_pos_iff.mpr hxs
        apply hcons xs hxs
        apply ih (xs.drop n).length _ _ rfl
        rw [List.length_drop]
        omega

theorem flatten_chunks (hn : 0 < n) (xs : List α) : (chunks n xs).flatten = xs := by
  induction xs using chunks_induction hn with
  | hnil => rw [chunks_nil hn, List.flatten_nil]
  | hcons xs hxs ih => rw [chunks_eq_cons hn hxs, List.flatten_cons, ih, List.take_append_drop]

/-- The first chunks hold what comes first. -/
theorem flatten_take_chunks (hn : 0 < n) (xs : List α) (i : ℕ) :
    ((chunks n xs).take i).flatten = xs.take (n * i) := by
  induction i generalizing xs with
  | zero => rw [Nat.mul_zero, List.take_zero, List.take_zero, List.flatten_nil]
  | succ i ih =>
      by_cases hxs : xs = []
      · rw [hxs, chunks_nil hn, List.take_nil, List.take_nil, List.flatten_nil]
      · rw [chunks_eq_cons hn hxs, List.take_succ_cons, List.flatten_cons, ih, Nat.mul_succ,
          Nat.add_comm (n * i) n, List.take_add]

theorem length_le_of_mem_chunks {c : List α} (hc : c ∈ chunks n xs) : c.length ≤ n := by
  obtain ⟨i, -, rfl⟩ := List.mem_map.mp hc
  exact List.length_take_le _ _

theorem ne_nil_of_mem_chunks (hn : 0 < n) {c : List α} (hc : c ∈ chunks n xs) : c ≠ [] := by
  induction xs using chunks_induction hn with
  | hnil =>
      rw [chunks_nil hn] at hc
      cases hc
  | hcons xs hxs ih =>
      rw [chunks_eq_cons hn hxs, List.mem_cons] at hc
      rcases hc with rfl | hc
      · intro hnil
        rcases List.take_eq_nil_iff.mp hnil with hzero | hempty
        · omega
        · exact hxs hempty
      · exact ih hc

/-- Only the last chunk may be short. -/
theorem length_of_mem_dropLast_chunks (hn : 0 < n) {c : List α}
    (hc : c ∈ (chunks n xs).dropLast) : c.length = n := by
  induction xs using chunks_induction hn with
  | hnil =>
      rw [chunks_nil hn] at hc
      cases hc
  | hcons xs hxs ih =>
      rw [chunks_eq_cons hn hxs] at hc
      by_cases hrest : xs.drop n = []
      · rw [hrest, chunks_nil hn, List.dropLast_singleton] at hc
        cases hc
      · have hnext : chunks n (xs.drop n) ≠ [] := by
          rw [chunks_eq_cons hn hrest]
          exact List.cons_ne_nil _ _
        rw [List.dropLast_cons_of_ne_nil hnext, List.mem_cons] at hc
        rcases hc with rfl | hc
        · have hlong : n ≤ xs.length := by
            by_contra hshort
            exact hrest (List.drop_eq_nil_of_le (Nat.le_of_not_le hshort))
          rw [List.length_take, Nat.min_eq_left hlong]
        · exact ih hc

/-- A list with at most one chunk is that chunk. -/
theorem chunks_eq_singleton (hn : 0 < n) (hxs : xs ≠ []) (hlen : xs.length ≤ n) :
    chunks n xs = [xs] := by
  rw [chunks_eq_cons hn hxs, List.take_of_length_le hlen, List.drop_eq_nil_of_le hlen,
    chunks_nil hn]

/-- Blocks of one length from the front of a list, and what is left over. -/
structure Cut (n : ℕ) (xs : List α) (blocks : List (List α)) (rest : List α) : Prop where
  eq : xs = blocks.flatten ++ rest
  length : ∀ block ∈ blocks, block.length = n

namespace Cut

variable {ys rest rest' : List α} {blocks blocks' : List (List α)}

theorem none (n : ℕ) (xs : List α) : Cut n xs [] xs where
  eq := by rw [List.flatten_nil, List.nil_append]
  length block hblock := by cases hblock

theorem cons (hlen : n ≤ xs.length) (hcut : Cut n (xs.drop n) blocks rest) :
    Cut n xs (xs.take n :: blocks) rest where
  eq := by rw [List.flatten_cons, List.append_assoc, ← hcut.eq, List.take_append_drop]
  length block hblock := by
    rcases List.mem_cons.mp hblock with rfl | hblock
    · rw [List.length_take, Nat.min_eq_left hlen]
    · exact hcut.length block hblock

/-- What is left over stays in front of what comes next. -/
theorem append (hcut : Cut n xs blocks rest) (hcut' : Cut n (rest ++ ys) blocks' rest') :
    Cut n (xs ++ ys) (blocks ++ blocks') rest' where
  eq := by
    rw [hcut.eq, List.append_assoc, hcut'.eq, List.flatten_append, List.append_assoc]
  length block hblock := by
    rcases List.mem_append.mp hblock with hblock | hblock
    · exact hcut.length block hblock
    · exact hcut'.length block hblock

theorem extend (hcut : Cut n xs blocks rest) (ys : List α) :
    Cut n (xs ++ ys) blocks (rest ++ ys) where
  eq := by rw [hcut.eq, List.append_assoc]
  length := hcut.length

/-- The blocks are the first chunks. -/
theorem chunks (hn : 0 < n) (hcut : Cut n xs blocks rest) :
    chunks n xs = blocks ++ Text.chunks n rest := by
  obtain ⟨rfl, hlength⟩ := hcut
  induction blocks with
  | nil => rfl
  | cons block blocks ih =>
      have hblock : block.length = n := hlength block List.mem_cons_self
      have hne : block ++ (blocks.flatten ++ rest) ≠ [] := by
        intro hnil
        have hempty := (List.append_eq_nil_iff.mp hnil).1
        rw [hempty, List.length_nil] at hblock
        omega
      rw [List.flatten_cons, List.append_assoc, chunks_eq_cons hn hne,
        List.take_left' hblock, List.drop_left' hblock, List.cons_append,
        ih fun b hb => hlength b (List.mem_cons_of_mem _ hb)]

end Cut

example : chunks 2 [1, 2, 3, 4, 5] = [[1, 2], [3, 4], [5]] := rfl

end Text
