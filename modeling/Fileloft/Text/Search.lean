import Mathlib.Data.List.DropRight
import Mathlib.Data.List.Infix

/-!
# Searching and cutting character lists

The string operations of a standard library, on lists. Positions count
elements, and an occurrence of `pat` at `i` means that `pat` is a prefix
of what is left after dropping `i` elements.
-/

namespace Text

/-- The Unicode property `White_Space`. -/
def isWhitespace (c : Char) : Bool :=
  let n := c.toNat
  (9 ≤ n && n ≤ 13) || n == 32 || n == 0x85 || n == 0xA0 || n == 0x1680 ||
    (0x2000 ≤ n && n ≤ 0x200A) || n == 0x2028 || n == 0x2029 || n == 0x202F ||
    n == 0x205F || n == 0x3000

section Search

variable {α : Type} [DecidableEq α] {pat s x y d e : List α}

/-- The part after a leading `pat`. -/
def strip (pat s : List α) : Option (List α) :=
  if pat <+: s then some (s.drop pat.length) else none

/-- The position of the last occurrence of `pat`. -/
def rfind (pat : List α) : List α → Option ℕ
  | [] => if pat = [] then some 0 else none
  | c :: s =>
    match rfind pat s with
    | some i => some (i + 1)
    | none => if pat <+: c :: s then some 0 else none

/-- What stands before and after the first occurrence of `c`. -/
def splitOnce (c : α) (s : List α) : Option (List α × List α) :=
  if c ∈ s then some (s.takeWhile (· != c), (s.dropWhile (· != c)).drop 1) else none

/-- Cut what satisfies `p` from both ends. -/
def trimBoth (p : α → Bool) (s : List α) : List α := (s.dropWhile p).rdropWhile p

/-- The maximal pieces without an element that satisfies `p`. -/
def words (p : α → Bool) (s : List α) : List (List α) :=
  (s.splitOnP p).filter fun w => !w.isEmpty

theorem strip_eq_some_iff {rest : List α} : strip pat s = some rest ↔ s = pat ++ rest := by
  unfold strip
  split
  · next h =>
      obtain ⟨t, rfl⟩ := h
      simp [eq_comm]
  · next h =>
      constructor
      · intro hn
        cases hn
      · rintro rfl
        exact (h (List.prefix_append _ _)).elim

theorem rfind_eq_none_iff : rfind pat s = none ↔ ∀ i ≤ s.length, ¬ pat <+: s.drop i := by
  induction s with
  | nil => simp [rfind]
  | cons c s ih =>
      unfold rfind
      cases hs : rfind pat s with
      | some i =>
          have hex : ∃ j ≤ s.length, pat <+: s.drop j := by
            by_contra hno
            push Not at hno
            simp [ih.mpr hno] at hs
          obtain ⟨j, hj, hpre⟩ := hex
          simp only [reduceCtorEq, false_iff, not_forall, not_not]
          exact ⟨j + 1, by simpa using hj, by simpa using hpre⟩
      | none =>
          have hno := ih.mp hs
          constructor
          · intro h i hi
            cases i with
            | zero =>
                intro hpre
                simp only [List.drop_zero] at hpre
                simp [hpre] at h
            | succ i => exact hno i (by simpa using hi)
          · intro h
            have h0 := h 0 (Nat.zero_le _)
            simp only [List.drop_zero] at h0
            simp [h0]

theorem rfind_eq_some_iff {i : ℕ} :
    rfind pat s = some i ↔
      i ≤ s.length ∧ pat <+: s.drop i ∧ ∀ j, i < j → j ≤ s.length → ¬ pat <+: s.drop j := by
  induction s generalizing i with
  | nil =>
      simp only [rfind, List.length_nil, Nat.le_zero, List.drop_nil, List.prefix_nil]
      constructor
      · intro h
        split at h
        · next hp =>
            cases h
            exact ⟨rfl, hp, fun j hj hj0 => by omega⟩
        · cases h
      · rintro ⟨rfl, hp, -⟩
        simp [hp]
  | cons c s ih =>
      unfold rfind
      cases hs : rfind pat s with
      | some k =>
          obtain ⟨hk, hpre, hlast⟩ := ih.mp hs
          constructor
          · intro h
            cases h
            refine ⟨by simpa using hk, by simpa using hpre, ?_⟩
            intro j hj hjs
            obtain ⟨j, rfl⟩ : ∃ m, j = m + 1 := ⟨j - 1, by omega⟩
            simpa using hlast j (by omega) (by simpa using hjs)
          · rintro ⟨hi, hprei, hlasti⟩
            have hle : k + 1 ≤ i := by
              by_contra hlt
              exact hlasti (k + 1) (by omega) (by simpa using hk) (by simpa using hpre)
            obtain ⟨i, rfl⟩ : ∃ m, i = m + 1 := ⟨i - 1, by omega⟩
            have hge : i ≤ k := by
              by_contra hlt
              exact hlast i (by omega) (by simpa using hi) (by simpa using hprei)
            have heq : k = i := by omega
            rw [heq]
      | none =>
          have hno := rfind_eq_none_iff.mp hs
          constructor
          · intro h
            simp only at h
            split at h
            · next hp =>
                cases h
                refine ⟨Nat.zero_le _, by simpa using hp, ?_⟩
                intro j hj hjs
                obtain ⟨j, rfl⟩ : ∃ m, j = m + 1 := ⟨j - 1, by omega⟩
                simpa using hno j (by simpa using hjs)
            · cases h
          · rintro ⟨hi, hprei, -⟩
            cases i with
            | zero =>
                simp only [List.drop_zero] at hprei
                simp [hprei]
            | succ i => exact (hno i (by simpa using hi) (by simpa using hprei)).elim

/-- The text around an occurrence that was found. -/
theorem eq_of_rfind {i : ℕ} (hfind : rfind pat s = some i) :
    s = s.take i ++ pat ++ s.drop (i + pat.length) := by
  obtain ⟨-, ⟨rest, hrest⟩, -⟩ := rfind_eq_some_iff.mp hfind
  have htail : s.drop (i + pat.length) = rest := by
    rw [← List.drop_drop, ← hrest, List.drop_left]
  rw [htail, List.append_assoc, hrest, List.take_append_drop]

/-- When `pat` does not overlap itself in `pat ++ d`, the last occurrence
in `x ++ pat ++ d` is the one written there. -/
theorem rfind_append (h : ∀ k, 0 < k → ¬ pat <+: (pat ++ d).drop k) :
    rfind pat (x ++ (pat ++ d)) = some x.length := by
  refine rfind_eq_some_iff.mpr ⟨by simp, by simp, ?_⟩
  intro j hj _
  obtain ⟨k, rfl⟩ : ∃ k, j = x.length + k := ⟨j - x.length, by omega⟩
  rw [List.drop_length_add_append]
  exact h k (by omega)

/-- The last occurrence in `s` is the last one in a longer text. -/
theorem rfind_append_of_some {i : ℕ} (h : rfind pat s = some i) :
    rfind pat (x ++ s) = some (x.length + i) := by
  induction x with
  | nil => simpa using h
  | cons a x ih =>
      rw [List.cons_append, rfind, ih]
      simp only [List.length_cons, Option.some.injEq]
      omega

omit [DecidableEq α] in
/-- A last piece that satisfies `p` throughout is determined when the
piece before it ends in an element that does not. -/
theorem append_inj_of_last {p : α → Prop} {c c' : α} (hd : ∀ a ∈ d, p a) (he : ∀ a ∈ e, p a)
    (hc : ¬ p c) (hc' : ¬ p c') (h : x ++ c :: d = y ++ c' :: e) :
    x ++ [c] = y ++ [c'] ∧ d = e := by
  rcases List.append_eq_append_iff.mp h with ⟨t, hy, ht⟩ | ⟨t, hx, ht⟩
  · cases t with
    | nil => simp_all
    | cons a t =>
        obtain ⟨rfl, rfl⟩ : c = a ∧ d = t ++ c' :: e := by simpa using ht
        exact (hc' (hd c' (by simp))).elim
  · cases t with
    | nil => simp_all
    | cons a t =>
        obtain ⟨rfl, rfl⟩ : c' = a ∧ e = t ++ c :: d := by simpa using ht
        exact (hc (he c (by simp))).elim

/-! ### Trimming and cutting -/

section Trim

variable {p : α → Bool} {c : α}

omit [DecidableEq α] in
theorem mem_of_mem_trimBoth {a : α} (h : a ∈ trimBoth p s) : a ∈ s :=
  (List.dropWhile_suffix p).subset ((List.rdropWhile_prefix p _).subset h)

/-- Neither end satisfies `p`. -/
structure Trimmed (p : α → Bool) (s : List α) : Prop where
  head : ∀ a ∈ s.head?, p a = false
  last : ∀ a ∈ s.getLast?, p a = false

omit [DecidableEq α] in
theorem Trimmed.dropWhile_eq (h : Trimmed p s) : s.dropWhile p = s := by
  cases s with
  | nil => rfl
  | cons a s => rw [List.dropWhile_cons_of_neg (by simp [h.head a rfl])]

omit [DecidableEq α] in
theorem Trimmed.trimBoth_eq (h : Trimmed p s) : trimBoth p s = s := by
  rw [trimBoth, h.dropWhile_eq]
  apply List.rdropWhile_eq_self_iff.mpr
  intro hne hlast
  have hnot := h.last (s.getLast hne) (List.getLast_mem_getLast? hne)
  rw [hnot] at hlast
  cases hlast

omit [DecidableEq α] in
theorem trimmed_trimBoth (p : α → Bool) (s : List α) : Trimmed p (trimBoth p s) := by
  constructor
  · intro a ha
    -- the first element is the first of the text without its leading part
    have hhead : (s.dropWhile p).head? = some a := by
      obtain ⟨t, ht⟩ := List.rdropWhile_prefix p (s.dropWhile p)
      rw [← ht, List.head?_append]
      change (trimBoth p s).head?.or _ = _
      rw [ha]
      rfl
    have hnot := List.head?_dropWhile_not p s
    rw [hhead] at hnot
    simpa using hnot
  · intro a ha
    have hne : (s.dropWhile p).rdropWhile p ≠ [] := List.ne_nil_of_mem (List.mem_of_mem_getLast? ha)
    have hnot := List.rdropWhile_last_not p _ hne
    have hlast : (trimBoth p s).getLast? = some (((s.dropWhile p).rdropWhile p).getLast hne) :=
      List.getLast?_eq_getLast_of_ne_nil hne
    rw [hlast] at ha
    rw [← Option.some.inj ha]
    simpa using hnot

omit [DecidableEq α] in
/-- Only what stands in front is cut from a text with a good end. -/
theorem trimBoth_append (hs : Trimmed p s) (hne : s ≠ []) (x : List α) :
    ∃ y, trimBoth p (x ++ s) = y ++ s := by
  obtain ⟨y, hdrop⟩ : ∃ y, (x ++ s).dropWhile p = y ++ s := by
    rw [List.dropWhile_append]
    split
    · exact ⟨[], by rw [Trimmed.dropWhile_eq hs]; rfl⟩
    · exact ⟨_, rfl⟩
  refine ⟨y, ?_⟩
  rw [trimBoth, hdrop]
  apply List.rdropWhile_eq_self_iff.mpr
  intro hys hlast
  rw [List.getLast_append_of_ne_nil _ hne, hs.last _ (List.getLast_mem_getLast? hne)] at hlast
  cases hlast

omit [DecidableEq α] in
theorem all_of_trimBoth_eq_nil (h : trimBoth p s = []) : ∀ a ∈ s, p a = true := by
  have hall := List.rdropWhile_eq_nil_iff.mp h
  have hdrop : s.dropWhile p = [] := by
    have hhead := List.head?_dropWhile_not p s
    cases hs : s.dropWhile p with
    | nil => rfl
    | cons a rest =>
        rw [hs] at hhead hall
        have ha := hall a List.mem_cons_self
        simp [ha] at hhead
  exact List.dropWhile_eq_nil_iff.mp hdrop

theorem splitOnce_eq_none_iff : splitOnce c s = none ↔ c ∉ s := by
  simp [splitOnce]

theorem splitOnce_append (h : c ∉ x) : splitOnce c (x ++ c :: y) = some (x, y) := by
  have hpass : ∀ a ∈ x, (a != c) = true := fun a ha => by
    simp only [bne_iff_ne]
    rintro rfl
    exact h ha
  rw [splitOnce, if_pos (by simp), List.takeWhile_append_of_pos hpass,
    List.dropWhile_append_of_pos hpass]
  simp

theorem splitOnce_eq_some (h : splitOnce c s = some (x, y)) : s = x ++ c :: y ∧ c ∉ x := by
  unfold splitOnce at h
  split at h
  · next hmem =>
      obtain ⟨rfl, rfl⟩ := Prod.mk.inj (Option.some.inj h)
      constructor
      · have hhead := List.head?_dropWhile_not (· != c) s
        cases hdrop : s.dropWhile (· != c) with
        | nil =>
            have hall := List.dropWhile_eq_nil_iff.mp hdrop c hmem
            simp at hall
        | cons a rest =>
            rw [hdrop] at hhead
            have hac : a = c := by simpa using hhead
            subst hac
            have hparts := List.takeWhile_append_dropWhile (p := (· != a)) (l := s)
            rw [hdrop] at hparts
            exact hparts.symm
      · intro hc
        have hpass := List.mem_takeWhile_imp hc
        simp at hpass
  · cases h

/-- The separator is in no piece. -/
theorem not_mem_of_mem_splitOn : ∀ l ∈ s.splitOn c, c ∉ l := by
  induction s with
  | nil => simp
  | cons a s ih =>
      rw [List.splitOn_cons_eq_if_modifyHead]
      split
      · exact List.forall_mem_cons.mpr ⟨List.not_mem_nil, ih⟩
      · next hne =>
          obtain ⟨l, ls, hsplit⟩ := List.exists_cons_of_ne_nil (List.splitOn_ne_nil c s)
          rw [hsplit] at ih
          rw [hsplit, List.modifyHead_cons]
          obtain ⟨hl, hls⟩ := List.forall_mem_cons.mp ih
          refine List.forall_mem_cons.mpr ⟨fun hmem => ?_, hls⟩
          rcases List.mem_cons.mp hmem with rfl | hmem
          · simp at hne
          · exact hl hmem

omit [DecidableEq α] in
theorem words_append_cons {a : α} (ha : p a = true) :
    words p (x ++ a :: y) = words p x ++ words p y := by
  rw [words, List.splitOnP_append_cons _ _ ha, List.filter_append]
  rfl

omit [DecidableEq α] in
theorem words_eq_singleton (hne : s ≠ []) (hs : ∀ a ∈ s, p a = false) : words p s = [s] := by
  rw [words, List.splitOnP_eq_singleton hs]
  simp [hne]

end Trim

end Search

end Text
