import Fileloft.Core.Info
import Fileloft.Text.Decimal
import Mathlib.Tactic.IntervalCases

/-!
# Object keys

The names of the objects of an upload. No key of one accepted id is a key of
another, nor a key of another kind.
-/

namespace Fileloft

open Text

/-- The objects an upload may have. -/
inductive KeyKind where
  | data
  | info
  | part (n : ℕ)
  | tmp (n : ℕ)
  deriving DecidableEq, Repr

namespace KeyKind

def suffix : KeyKind → Str
  | data => []
  | info => ".info".toList
  | part n => "_part_".toList ++ decimal n
  | tmp n => "_tmp_".toList ++ decimal n

end KeyKind

/-- The name of an object, without the prefix that all keys of a store share. -/
def UploadId.key (id : UploadId) (kind : KeyKind) : Str := id.val ++ kind.suffix

/-- The tokens that number parts and temporaries. -/
def tokens : List Str := ["_part_".toList, "_tmp_".toList]

theorem not_prefix_digits {d rest : Str} {c : Char} (hdigits : ∀ c ∈ d, c.isDigit = true)
    (hc : c.isDigit = false) : ¬ c :: rest <+: d := by
  intro hpre
  have hmem := hdigits c (hpre.subset (by simp))
  rw [hc] at hmem
  cases hmem

/-- A token is not found again inside itself and the digits after it. -/
theorem not_overlap {token d : Str} (htoken : token ∈ tokens)
    (hdigits : ∀ c ∈ d, c.isDigit = true) {k : ℕ} (hk : 0 < k) :
    ¬ token <+: (token ++ d).drop k := by
  have hdrop (j : ℕ) : ∀ c ∈ d.drop j, c.isDigit = true := fun c hc =>
    hdigits c (List.mem_of_mem_drop hc)
  rcases Nat.lt_or_ge k token.length with hlt | hge
  · -- inside the token only its last character can start another one
    have hp := fun rest => @not_prefix_digits d rest 'p' hdigits (by decide)
    have ht := fun rest => @not_prefix_digits d rest 't' hdigits (by decide)
    simp only [tokens, List.mem_cons, List.not_mem_nil, or_false] at htoken
    rcases htoken with rfl | rfl
    · simp at hlt
      interval_cases k <;> simp [hp]
    · simp at hlt
      interval_cases k <;> simp [ht]
  · rw [List.drop_append, List.drop_eq_nil_of_le hge, List.nil_append]
    obtain ⟨rest, htoken'⟩ : ∃ rest, token = '_' :: rest := by
      simp only [tokens, List.mem_cons, List.not_mem_nil, or_false] at htoken
      rcases htoken with rfl | rfl
      · exact ⟨"part_".toList, rfl⟩
      · exact ⟨"tmp_".toList, rfl⟩
    rw [htoken']
    exact not_prefix_digits (hdrop _) (by decide)

theorem collides_of_token {token d x : Str} (htoken : token ∈ tokens)
    (hne : d ≠ []) (hdigits : ∀ c ∈ d, c.isDigit = true) :
    collidesWithReservedKey (x ++ (token ++ d)) = true := by
  have hfind := rfind_append (x := x) fun k hk => not_overlap htoken hdigits (k := k) hk
  have htail : (x ++ (token ++ d)).drop (x.length + token.length) = d := by
    rw [← List.append_assoc, ← List.length_append, List.drop_left]
  have hdigits' : d.all Char.isDigit = true := List.all_eq_true.mpr hdigits
  rw [collidesWithReservedKey, Bool.or_eq_true, List.any_eq_true]
  refine .inr ⟨token, htoken, ?_⟩
  simp only [hfind, htail, hdigits', Bool.and_true]
  simpa using hne

theorem collides_of_info {x : Str} : collidesWithReservedKey (x ++ ".info".toList) = true := by
  simp [collidesWithReservedKey]

/-- The last occurrence of each token decides: a text is refused exactly when
it has the shape of a derived key. -/
theorem collidesWithReservedKey_iff (value : Str) : collidesWithReservedKey value = true ↔
    (∃ x, value = x ++ ".info".toList) ∨
    ∃ x, ∃ token ∈ tokens, ∃ d, d ≠ [] ∧ (∀ c ∈ d, c.isDigit = true) ∧ value = x ++ token ++ d := by
  constructor
  · intro hcollides
    rw [collidesWithReservedKey, Bool.or_eq_true, List.any_eq_true] at hcollides
    rcases hcollides with hinfo | ⟨token, htoken, hfound⟩
    · obtain ⟨x, hx⟩ := List.isSuffixOf_iff_suffix.mp hinfo
      exact .inl ⟨x, hx.symm⟩
    · cases hfind : rfind token value with
      | none =>
          rw [hfind] at hfound
          cases hfound
      | some pos =>
          rw [hfind, Bool.and_eq_true, Bool.not_eq_true', List.isEmpty_eq_false_iff,
            List.all_eq_true] at hfound
          obtain ⟨hne, hdigits⟩ := hfound
          exact .inr ⟨value.take pos, token, htoken, _, hne, hdigits, eq_of_rfind hfind⟩
  · rintro (⟨x, rfl⟩ | ⟨x, token, htoken, d, hne, hdigits, rfl⟩)
    · exact collides_of_info
    · rw [List.append_assoc]
      exact collides_of_token htoken hne hdigits

theorem append_digits_ne {x y d : Str} {c : Char} (hne : d ≠ [])
    (hdigits : ∀ c ∈ d, c.isDigit = true) (hc : c.isDigit = false) : x ++ [c] ≠ y ++ d := by
  intro h
  have hlast := congrArg List.getLast? h
  rw [List.getLast?_append, List.getLast?_append, List.getLast?_eq_getLast_of_ne_nil hne] at hlast
  simp only [List.getLast?_singleton, Option.some_or, Option.some.injEq] at hlast
  have hdigit := hdigits _ (List.getLast_mem hne)
  rw [← hlast, hc] at hdigit
  cases hdigit

/-- A text with a token and digits at its end comes apart in one way. -/
theorem numbered_inj {x y token token' d e : Str} (htoken : token ∈ tokens)
    (htoken' : token' ∈ tokens) (hd : ∀ c ∈ d, c.isDigit = true) (he : ∀ c ∈ e, c.isDigit = true)
    (h : x ++ (token ++ d) = y ++ (token' ++ e)) : x = y ∧ token = token' ∧ d = e := by
  have hnot : Char.isDigit '_' ≠ true := by decide
  simp only [tokens, List.mem_cons, List.not_mem_nil, or_false] at htoken htoken'
  obtain ⟨r, htoken⟩ : ∃ r, token = r ++ ['_'] ∧ (r = "_part".toList ∨ r = "_tmp".toList) := by
    rcases htoken with rfl | rfl
    · exact ⟨"_part".toList, rfl, .inl rfl⟩
    · exact ⟨"_tmp".toList, rfl, .inr rfl⟩
  obtain ⟨s, htoken'⟩ : ∃ s, token' = s ++ ['_'] ∧ (s = "_part".toList ∨ s = "_tmp".toList) := by
    rcases htoken' with rfl | rfl
    · exact ⟨"_part".toList, rfl, .inl rfl⟩
    · exact ⟨"_tmp".toList, rfl, .inr rfl⟩
  obtain ⟨rfl, hr⟩ := htoken
  obtain ⟨rfl, hs⟩ := htoken'
  obtain ⟨hxy, rfl⟩ := append_inj_of_last (x := x ++ r) (y := y ++ s) hd he hnot hnot
    (by simpa using h)
  have hxy := List.append_cancel_right hxy
  -- the tokens end in different letters
  rcases hr with rfl | rfl <;> rcases hs with rfl | rfl
  · exact ⟨List.append_cancel_right hxy, rfl, rfl⟩
  · simpa using congrArg List.getLast? hxy
  · simpa using congrArg List.getLast? hxy
  · exact ⟨List.append_cancel_right hxy, rfl, rfl⟩

namespace KeyKind

theorem suffix_data : data.suffix = [] := rfl

theorem suffix_info : info.suffix = ".info".toList := rfl

theorem suffix_part (n : ℕ) : (part n).suffix = "_part_".toList ++ decimal n := rfl

theorem suffix_tmp (n : ℕ) : (tmp n).suffix = "_tmp_".toList ++ decimal n := rfl

theorem suffix_injective {k l : KeyKind} (h : k.suffix = l.suffix) : k = l := by
  cases k with
  | data => cases l <;> simp [suffix_data, suffix_info, suffix_part, suffix_tmp] at h ⊢
  | info => cases l <;> simp [suffix_data, suffix_info, suffix_part, suffix_tmp] at h ⊢
  | part m =>
      cases l with
      | part n =>
          rw [suffix_part, suffix_part] at h
          exact congrArg part (decimal_injective (List.append_cancel_left h))
      | data | info | tmp n => simp [suffix_data, suffix_info, suffix_part, suffix_tmp] at h
  | tmp m =>
      cases l with
      | tmp n =>
          rw [suffix_tmp, suffix_tmp] at h
          exact congrArg tmp (decimal_injective (List.append_cancel_left h))
      | data | info | part n => simp [suffix_data, suffix_info, suffix_part, suffix_tmp] at h

theorem eq_part_of_suffix {k : KeyKind} {d : Str} (h : k.suffix = "_part_".toList ++ d) :
    ∃ n, k = part n ∧ d = decimal n := by
  cases k with
  | part n =>
      rw [suffix_part] at h
      exact ⟨n, rfl, (List.append_cancel_left h).symm⟩
  | data | info | tmp n => simp [suffix_data, suffix_info, suffix_tmp] at h

end KeyKind

namespace UploadId

variable {a b : UploadId} {k l : KeyKind}

/-- A key of an accepted id that ends in a token and digits has that
number, and its id is what stands before the token. -/
theorem Valid.key_eq_numbered {x token d : Str} (ha : a.Valid) (htoken : token ∈ tokens)
    (hne : d ≠ []) (hdigits : ∀ c ∈ d, c.isDigit = true) (h : a.key k = x ++ (token ++ d)) :
    a.val = x ∧ k.suffix = token ++ d := by
  cases k with
  | data =>
      have hcollides := collides_of_token (x := x) htoken hne hdigits
      rw [← h, key, KeyKind.suffix_data, List.append_nil, ha.spec.unreserved] at hcollides
      cases hcollides
  | info =>
      refine absurd ?_ (append_digits_ne (x := a.val ++ ".inf".toList) (y := x ++ token) (c := 'o')
        hne hdigits (by decide))
      simpa [key, KeyKind.suffix_info] using h
  | part n =>
      rw [key, KeyKind.suffix_part] at h
      obtain ⟨hx, htokens, hd⟩ := numbered_inj (by decide) htoken
        (fun c hc => isDigit_of_mem_decimal hc) hdigits h
      exact ⟨hx, by rw [KeyKind.suffix_part, htokens, hd]⟩
  | tmp n =>
      rw [key, KeyKind.suffix_tmp] at h
      obtain ⟨hx, htokens, hd⟩ := numbered_inj (by decide) htoken
        (fun c hc => isDigit_of_mem_decimal hc) hdigits h
      exact ⟨hx, by rw [KeyKind.suffix_tmp, htokens, hd]⟩

/-- No two accepted ids share a key, and no two kinds do. -/
theorem key_injective (ha : a.Valid) (hb : b.Valid) (h : a.key k = b.key l) : a = b ∧ k = l := by
  have hboth (hval : a.val = b.val) : a = b ∧ k = l := by
    refine ⟨by cases a; cases b; simp_all, KeyKind.suffix_injective ?_⟩
    rw [key, key, hval] at h
    exact List.append_cancel_left h
  have hdigits (n : ℕ) : ∀ c ∈ decimal n, c.isDigit = true := fun c hc => isDigit_of_mem_decimal hc
  cases l with
  | part n => exact hboth (ha.key_eq_numbered (by decide) (decimal_ne_nil n) (hdigits n) h).1
  | tmp n => exact hboth (ha.key_eq_numbered (by decide) (decimal_ne_nil n) (hdigits n) h).1
  | data =>
      cases k with
      | part n =>
          exact hboth (hb.key_eq_numbered (by decide) (decimal_ne_nil n) (hdigits n) h.symm).1.symm
      | tmp n =>
          exact hboth (hb.key_eq_numbered (by decide) (decimal_ne_nil n) (hdigits n) h.symm).1.symm
      | data => exact hboth (List.append_cancel_right h)
      | info =>
          have hcollides := collides_of_info (x := a.val)
          simp only [key, KeyKind.suffix_data, KeyKind.suffix_info, List.append_nil] at h
          rw [h, hb.spec.unreserved] at hcollides
          cases hcollides
  | info =>
      cases k with
      | part n =>
          exact hboth (hb.key_eq_numbered (by decide) (decimal_ne_nil n) (hdigits n) h.symm).1.symm
      | tmp n =>
          exact hboth (hb.key_eq_numbered (by decide) (decimal_ne_nil n) (hdigits n) h.symm).1.symm
      | info => exact hboth (List.append_cancel_right h)
      | data =>
          have hcollides := collides_of_info (x := b.val)
          simp only [key, KeyKind.suffix_data, KeyKind.suffix_info, List.append_nil] at h
          rw [← h, ha.spec.unreserved] at hcollides
          cases hcollides

/-- A name that stands for one entry of the directory it is looked up in. -/
structure IsFileName (name : Str) : Prop where
  ne_nil : name ≠ []
  no_slash : '/' ∉ name
  ne_dot : name ≠ ".".toList
  ne_dots : name ≠ "..".toList

theorem suffix_alphabet (kind : KeyKind) : ∀ c ∈ kind.suffix, idChar c = true := by
  have hdigits (n : ℕ) : ∀ c ∈ decimal n, idChar c = true := fun c hc => by
    simp [idChar, Char.isAlphanum, isDigit_of_mem_decimal hc]
  cases kind with
  | data => simp [KeyKind.suffix_data]
  | info => rw [KeyKind.suffix_info]; exact List.all_eq_true.mp rfl
  | part n =>
      rw [KeyKind.suffix_part]
      exact List.forall_mem_append.mpr ⟨List.all_eq_true.mp rfl, hdigits n⟩
  | tmp n =>
      rw [KeyKind.suffix_tmp]
      exact List.forall_mem_append.mpr ⟨List.all_eq_true.mp rfl, hdigits n⟩

theorem Valid.key_alphabet (ha : a.Valid) : ∀ c ∈ a.key k, idChar c = true :=
  List.forall_mem_append.mpr ⟨ha.spec.alphabet, suffix_alphabet k⟩

theorem three_le_length_suffix {kind : KeyKind} (hkind : kind ≠ .data) :
    3 ≤ kind.suffix.length := by
  cases kind with
  | data => exact absurd rfl hkind
  | info => rw [KeyKind.suffix_info]; decide
  | part n => rw [KeyKind.suffix_part, List.length_append]; simp; omega
  | tmp n => rw [KeyKind.suffix_tmp, List.length_append]; simp; omega

/-- Every key of an accepted id is a plain file name. -/
theorem Valid.isFileName (ha : a.Valid) (k : KeyKind) : IsFileName (a.key k) where
  ne_nil := by simp [key, ha.spec.ne_nil]
  no_slash := fun hmem => by
    have hslash := ha.key_alphabet _ hmem
    revert hslash
    decide
  ne_dot := fun h => by
    by_cases hk : k = .data
    · exact ha.spec.ne_dot (by simpa [key, hk, KeyKind.suffix_data] using h)
    · have hlen := congrArg List.length h
      have hsuffix := three_le_length_suffix hk
      rw [key, List.length_append] at hlen
      simp at hlen
      omega
  ne_dots := fun h => by
    by_cases hk : k = .data
    · exact ha.spec.ne_dots (by simpa [key, hk, KeyKind.suffix_data] using h)
    · have hlen := congrArg List.length h
      have hsuffix := three_le_length_suffix hk
      rw [key, List.length_append] at hlen
      simp at hlen
      omega

/-! ## The ids of the handler -/

theorem uuid_not_mem {u : Uuid} {c : Char} (hc : c.isAlphanum = false) (hne : c ≠ '-') :
    c ∉ u.text := by
  intro hmem
  rcases u.hex c hmem with halnum | rfl
  · rw [hc] at halnum
    cases halnum
  · exact hne rfl

theorem rfind_uuid {u : Uuid} {token : Str} (htoken : '_' ∈ token) :
    Text.rfind token u.text = none := by
  apply Text.rfind_eq_none_iff.mpr
  intro i _ hpre
  apply uuid_not_mem (u := u) (c := '_') rfl (by decide)
  exact List.mem_of_mem_drop (hpre.subset htoken)

theorem byteLen_uuid (u : Uuid) : byteLen u.text = 36 := by
  have hsize : ∀ c ∈ u.text, c.utf8Size = 1 := by
    intro c hc
    have hle : c.val ≤ 127 := by
      rcases u.hex c hc with halnum | rfl
      · have hranges : (decide (c.val ≥ 'A'.val ∧ c.val ≤ 'Z'.val) ||
            (decide (c.val ≥ 'a'.val) && decide (c.val ≤ 'z'.val)) ||
            (decide (c.val ≥ '0'.val) && decide (c.val ≤ '9'.val))) = true := halnum
        simp only [Bool.or_eq_true, Bool.and_eq_true, decide_eq_true_eq] at hranges
        rcases hranges with (⟨-, hle⟩ | ⟨-, hle⟩) | ⟨-, hle⟩
        · exact UInt32.le_trans hle (by decide)
        · exact UInt32.le_trans hle (by decide)
        · exact UInt32.le_trans hle (by decide)
      · decide
    exact Char.utf8Size_eq_one_iff.mpr hle
  rw [byteLen, List.map_congr_left hsize]
  simp [u.length_eq]

/-- The ids the handler makes up are accepted. -/
theorem valid_new (u : Uuid) : (new u).Valid := by
  have hne : u.text ≠ [] := by
    intro hnil
    have hlen := u.length_eq
    simp [hnil] at hlen
  have hdot : '.' ∉ u.text := uuid_not_mem rfl (by decide)
  have hall : u.text.all idChar = true := by
    apply List.all_eq_true.mpr
    intro c hc
    rcases u.hex c hc with halnum | rfl
    · simp [idChar, halnum]
    · rfl
  have hreserved : collidesWithReservedKey u.text = false := by
    have hinfo : ".info".toList.isSuffixOf u.text = false := by
      rw [Bool.eq_false_iff]
      intro hsuf
      exact hdot ((List.isSuffixOf_iff_suffix.mp hsuf).subset (by decide))
    have hpart : Text.rfind "_part_".toList u.text = none := rfind_uuid (by decide)
    have htmp : Text.rfind "_tmp_".toList u.text = none := rfind_uuid (by decide)
    simp only [collidesWithReservedKey, hinfo, List.any_cons, List.any_nil, hpart, htmp]
    rfl
  have hdots : ¬ (u.text = ".".toList ∨ u.text = "..".toList ∨ "..".toList <:+: u.text) := by
    rintro (hone | htwo | hinfix)
    · exact hdot (by rw [hone]; decide)
    · exact hdot (by rw [htwo]; decide)
    · exact hdot (List.IsInfix.subset hinfix (by decide))
  unfold Valid validate validateStr new
  simp only
  rw [if_neg, if_neg hdots, if_neg (by simp [hall]), if_neg (by simp [hreserved])]
  simp [hne, byteLen_uuid]

end UploadId

end Fileloft
