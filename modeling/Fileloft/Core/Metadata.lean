import Fileloft.Core.Base64

/-!
# The `Upload-Metadata` round trip

What `parse` returns for any header, and that `encode` prints it so that it
is read back. A value of no bytes is printed as a key alone.
-/

namespace Fileloft

open Text (Trimmed trimBoth isWhitespace splitOnce)

theorem eq_nil_of_fromUtf8 {b : Bytes} (h : fromUtf8 b = some []) : b = [] := by
  obtain ⟨chars, hchars, hnil⟩ := Option.map_eq_some_iff.mp h
  have hisSome : ((ByteArray.mk b.toArray).utf8Decode?).isSome = true := by rw [hchars]; rfl
  have hencode := ByteArray.utf8Encode_get_utf8Decode? (h := hisSome)
  simp only [hchars, Option.get_some, hnil] at hencode
  have hdata := congrArg ByteArray.data hencode
  simpa [List.utf8Encode] using hdata.symm

/-- What the encoder relies on in the base64 crate. -/
structure Crates.Base64Laws (lib : Crates) : Prop where
  roundTrip : ∀ b, lib.b64Decode (lib.b64Encode b) = .ok b
  no_comma : ∀ b, ',' ∉ lib.b64Encode b
  no_space : ∀ b, ∀ c ∈ lib.b64Encode b, isWhitespace c = false
  decode_ne_nil : ∀ s, lib.b64Decode s = .ok [] → s = []

namespace Crates.Base64Laws

variable {lib : Crates}

theorem trimmed (hlib : lib.Base64Laws) (b : Bytes) : Trimmed isWhitespace (lib.b64Encode b) where
  head c hc := hlib.no_space b c (List.mem_of_mem_head? hc)
  last c hc := hlib.no_space b c (List.mem_of_mem_getLast? hc)

theorem encode_ne_nil (hlib : lib.Base64Laws) {val : Str} (hval : val ≠ []) :
    lib.b64Encode (toUtf8 val) ≠ [] := by
  intro hnil
  have hempty : lib.b64Encode [] = [] := hlib.decode_ne_nil _ (hlib.roundTrip [])
  have hdecode := hlib.roundTrip (toUtf8 val)
  rw [hnil, ← hempty, hlib.roundTrip] at hdecode
  have hval' := fromUtf8_toUtf8 val
  rw [← Except.ok.inj hdecode, ← show toUtf8 [] = [] from rfl, fromUtf8_toUtf8] at hval'
  exact hval (Option.some.inj hval').symm

end Crates.Base64Laws

namespace Metadata

/-- The keys the wire format can carry. -/
structure IsKey (key : Str) : Prop where
  ne_nil : key ≠ []
  no_comma : ',' ∉ key
  no_space : ' ' ∉ key
  trimmed : Trimmed isWhitespace key

theorem isKey_iff {key : Str} : IsKey key ↔
    key ≠ [] ∧ ',' ∉ key ∧ ' ' ∉ key ∧ trimBoth isWhitespace key = key := by
  constructor
  · rintro ⟨hne, hcomma, hspace, htrimmed⟩
    exact ⟨hne, hcomma, hspace, htrimmed.trimBoth_eq⟩
  · rintro ⟨hne, hcomma, hspace, heq⟩
    exact ⟨hne, hcomma, hspace, heq ▸ Text.trimmed_trimBoth isWhitespace key⟩

instance (key : Str) : Decidable (IsKey key) := decidable_of_iff _ isKey_iff.symm

/-- The keys of a map are distinct. -/
def IsMap (m : Metadata) : Prop := (m.entries.map Prod.fst).Nodup

instance (m : Metadata) : Decidable m.IsMap :=
  inferInstanceAs (Decidable (m.entries.map Prod.fst).Nodup)

/-- A value as it is read back. -/
def reread (value : Option Str) : Option Str := if value = some [] then none else value

/-- The map as it is read back. -/
def rereadAll (m : Metadata) : Metadata := ⟨m.entries.map fun e => (e.1, reread e.2)⟩

/-- One pair on the wire. -/
def piece (lib : Crates) (e : Str × Option Str) : Str :=
  match e.2 with
  | none => e.1
  | some val => e.1 ++ ' ' :: lib.b64Encode (toUtf8 val)

theorem encode_eq (lib : Crates) (m : Metadata) :
    m.encode lib = [','].intercalate (m.entries.map (piece lib)) := rfl

variable {lib : Crates}

namespace IsKey

variable {key : Str}

theorem trimmed_pair (hkey : IsKey key) {code : Str} (hcode : Trimmed isWhitespace code)
    (hne : code ≠ []) : Trimmed isWhitespace (key ++ ' ' :: code) where
  head c hc := by
    obtain ⟨k, ks, hcons⟩ := List.exists_cons_of_ne_nil hkey.ne_nil
    apply hkey.trimmed.head
    rw [hcons] at hc ⊢
    exact hc
  last c hc := by
    apply hcode.last
    obtain ⟨last, hlast⟩ := Option.isSome_iff_exists.mp (List.getLast?_isSome.mpr hne)
    simpa [List.getLast?_append, List.getLast?_cons, hlast] using hc

theorem trimBoth_space (hkey : IsKey key) : trimBoth isWhitespace (key ++ [' ']) = key := by
  obtain ⟨k, ks, hcons⟩ := List.exists_cons_of_ne_nil hkey.ne_nil
  have hhead : isWhitespace k = false := hkey.trimmed.head k (by rw [hcons]; rfl)
  have hdrop : (key ++ [' ']).dropWhile isWhitespace = key ++ [' '] := by
    rw [hcons, List.cons_append, List.dropWhile_cons_of_neg (by simp [hhead])]
  rw [trimBoth, hdrop, List.rdropWhile_concat_pos _ _ _ (by decide)]
  apply List.rdropWhile_eq_self_iff.mpr
  intro hne hlast
  rw [hkey.trimmed.last _ (List.getLast_mem_getLast? hne)] at hlast
  cases hlast

theorem no_comma_piece (hlib : lib.Base64Laws) (hkey : IsKey key) (value : Option Str) :
    ',' ∉ piece lib (key, value) := by
  cases value with
  | none => exact hkey.no_comma
  | some val => simp [piece, hkey.no_comma, hlib.no_comma]

theorem parsePair_alone (hkey : IsKey key) {pair : Str} (hpair : trimBoth isWhitespace pair = key)
    (m : Metadata) : parsePair lib m pair = .ok (m.insert key none) := by
  unfold parsePair
  simp only [hpair, Text.splitOnce_eq_none_iff.mpr hkey.no_space, hkey.trimmed.trimBoth_eq]
  rw [if_neg hkey.ne_nil, if_neg hkey.ne_nil]
  rfl

theorem parsePair_piece (hlib : lib.Base64Laws) (hkey : IsKey key) (value : Option Str)
    (m : Metadata) :
    parsePair lib m (piece lib (key, value)) = .ok (m.insert key (reread value)) := by
  cases value with
  | none => exact hkey.parsePair_alone hkey.trimmed.trimBoth_eq m
  | some val =>
      have hdecode := hlib.roundTrip (toUtf8 val)
      by_cases hval : val = []
      · -- no bytes: the key is followed by a space, which the trim removes
        subst hval
        have hnil : lib.b64Encode (toUtf8 []) = [] := hlib.decode_ne_nil _ (hlib.roundTrip [])
        apply hkey.parsePair_alone
        simp only [piece, hnil]
        exact hkey.trimBoth_space
      · have hne : lib.b64Encode (toUtf8 val) ≠ [] := hlib.encode_ne_nil hval
        have hcode := hlib.trimmed (toUtf8 val)
        have hpair := hkey.trimmed_pair hcode hne
        unfold parsePair
        simp only [piece, hpair.trimBoth_eq, Text.splitOnce_append hkey.no_space,
          hkey.trimmed.trimBoth_eq, if_neg hkey.ne_nil, parseValue, hne, if_false,
          hcode.trimBoth_eq, hdecode, fromUtf8_toUtf8]
        rw [if_neg (by simp), reread, if_neg (by simpa using hval)]

end IsKey

/-- Pairs whose keys are new and distinct, read one after the other. -/
theorem foldlM_pieces (hlib : lib.Base64Laws) {entries : List (Str × Option Str)} {m : Metadata}
    (hkeys : ∀ e ∈ entries, IsKey e.1)
    (hnodup : (m.entries.map Prod.fst ++ entries.map Prod.fst).Nodup) :
    (entries.map (piece lib)).foldlM (parsePair lib) m =
      .ok ⟨m.entries ++ entries.map fun e => (e.1, reread e.2)⟩ := by
  induction entries generalizing m with
  | nil => simp [pure, Except.pure]
  | cons e entries ih =>
      obtain ⟨key, value⟩ := e
      have hnew : key ∉ m.entries.map Prod.fst := fun hmem =>
        (List.nodup_append.mp hnodup).2.2 key hmem key (by simp) rfl
      rw [List.map_cons, List.foldlM_cons, (hkeys _ List.mem_cons_self).parsePair_piece hlib]
      change List.foldlM _ (m.insert key (reread value)) _ = _
      rw [insert, if_neg hnew, ih (fun e he => hkeys e (List.mem_cons_of_mem _ he))]
      · simp
      · simpa using hnodup

/-- A map is read back as it was printed, without its empty values. -/
theorem parse_encode (hlib : lib.Base64Laws) {m : Metadata} (hmap : m.IsMap)
    (hkeys : ∀ e ∈ m.entries, IsKey e.1) : parse lib (m.encode lib) = .ok m.rereadAll := by
  unfold parse
  rw [encode_eq]
  by_cases hne : m.entries = []
  · simp [hne, rereadAll, parsePair, trimBoth, empty]
  · rw [List.splitOn_intercalate]
    · exact foldlM_pieces hlib hkeys (by simpa [empty, IsMap] using hmap)
    · intro l hl
      obtain ⟨e, he, rfl⟩ := List.mem_map.mp hl
      exact (hkeys e he).no_comma_piece hlib e.2
    · simpa using hne

/-! ## What `parse` returns -/

/-- A map that the wire format carries unchanged. -/
structure Wire (m : Metadata) : Prop where
  isMap : m.IsMap
  keys : ∀ e ∈ m.entries, IsKey e.1
  values : ∀ e ∈ m.entries, e.2 ≠ some []

theorem wire_empty : Wire empty := by
  constructor
  · exact List.nodup_nil
  · intro e he
    cases he
  · intro e he
    cases he

theorem Wire.insert {m : Metadata} {key : Str} {value : Option Str} (hm : Wire m)
    (hkey : IsKey key) (hvalue : value ≠ some []) : Wire (m.insert key value) := by
  unfold Metadata.insert
  split
  · have hfst : (m.entries.map fun e => if e.1 = key then (key, value) else e).map Prod.fst =
        m.entries.map Prod.fst := by
      rw [List.map_map]
      apply List.map_congr_left
      intro e _
      simp only [Function.comp]
      split
      · next heq => exact heq.symm
      · rfl
    refine ⟨?_, ?_, ?_⟩
    · rw [IsMap, hfst]
      exact hm.isMap
    · intro e he
      obtain ⟨e', he', rfl⟩ := List.mem_map.mp he
      split
      · exact hkey
      · exact hm.keys e' he'
    · intro e he
      obtain ⟨e', he', rfl⟩ := List.mem_map.mp he
      split
      · exact hvalue
      · exact hm.values e' he'
  · next hnew =>
      refine ⟨?_, ?_, ?_⟩
      · rw [IsMap, List.map_append]
        refine List.nodup_append.mpr ⟨hm.isMap, List.pairwise_singleton .., ?_⟩
        rintro k hk _ hmem rfl
        rw [List.mem_singleton.mp hmem] at hk
        exact hnew hk
      · exact List.forall_mem_append.mpr ⟨hm.keys, List.forall_mem_singleton.mpr hkey⟩
      · exact List.forall_mem_append.mpr ⟨hm.values, List.forall_mem_singleton.mpr hvalue⟩

/-- What is decoded from a text that does not end in whitespace is not empty. -/
theorem parseValue_ne (hlib : lib.Base64Laws) {key : Str} {rest value : Option Str}
    (hrest : ∀ r ∈ rest, ∀ c ∈ r.getLast?, isWhitespace c = false)
    (hok : parseValue lib key rest = .ok value) : value ≠ some [] := by
  unfold parseValue at hok
  split at hok
  · rw [← Except.ok.inj hok]
    simp
  · next b64 =>
      split at hok
      · rw [← Except.ok.inj hok]
        simp
      · next hne =>
          split at hok
          · cases hok
          · next decoded hdecode =>
              split at hok
              · next val hval =>
                  rw [← Except.ok.inj hok]
                  intro hsome
                  rw [Option.some.inj hsome] at hval
                  rw [eq_nil_of_fromUtf8 hval] at hdecode
                  have hblank := Text.all_of_trimBoth_eq_nil (hlib.decode_ne_nil _ hdecode)
                  have hlast := hrest b64 rfl _ (List.getLast_mem_getLast? hne)
                  rw [hblank _ (List.getLast_mem hne)] at hlast
                  cases hlast
              · cases hok

theorem Wire.parsePair (hlib : lib.Base64Laws) {m m' : Metadata} {pair : Str} (hm : Wire m)
    (hcomma : ',' ∉ pair) (hok : parsePair lib m pair = .ok m') : Wire m' := by
  have htrimmed := Text.trimmed_trimBoth isWhitespace pair
  have hcomma : ',' ∉ trimBoth isWhitespace pair :=
    fun hmem => hcomma (Text.mem_of_mem_trimBoth hmem)
  unfold Metadata.parsePair at hok
  generalize trimBoth isWhitespace pair = text at hok htrimmed hcomma
  simp only at hok
  split at hok
  · exact Except.ok.inj hok ▸ hm
  · cases hsplit : splitOnce ' ' text with
    | none =>
        simp only [hsplit, htrimmed.trimBoth_eq] at hok
        split at hok
        · cases hok
        · next hne =>
            have hkey : IsKey text :=
              ⟨hne, hcomma, Text.splitOnce_eq_none_iff.mp hsplit, htrimmed⟩
            rw [← Except.ok.inj hok]
            exact hm.insert hkey (by simp)
    | some parts =>
        obtain ⟨first, rest⟩ := parts
        obtain ⟨rfl, hspace⟩ := Text.splitOnce_eq_some hsplit
        simp only [hsplit] at hok
        split at hok
        · cases hok
        · next hne =>
            have hkey : IsKey (trimBoth isWhitespace first) := by
              refine ⟨hne, fun hmem => hcomma ?_, fun hmem => hspace ?_,
                Text.trimmed_trimBoth _ _⟩
              · exact List.mem_append_left _ (Text.mem_of_mem_trimBoth hmem)
              · exact Text.mem_of_mem_trimBoth hmem
            split at hok
            · next value hvalue =>
                rw [← Except.ok.inj hok]
                apply hm.insert hkey (parseValue_ne hlib _ hvalue)
                rintro r ⟨⟩ c hc
                apply htrimmed.last
                rw [List.getLast?_append, List.getLast?_cons, Option.mem_def.mp hc]
                rfl
            · cases hok

theorem wire_parse (hlib : lib.Base64Laws) {header : Str} {m : Metadata}
    (hok : parse lib header = .ok m) : Wire m := by
  unfold parse at hok
  have hfold (pieces : List Str) (hpieces : ∀ pair ∈ pieces, ',' ∉ pair) {m₀ m₁ : Metadata}
      (hm : Wire m₀) (hok : pieces.foldlM (Metadata.parsePair lib) m₀ = .ok m₁) : Wire m₁ := by
    induction pieces generalizing m₀ with
    | nil => exact Except.ok.inj hok ▸ hm
    | cons pair pieces ih =>
        rw [List.foldlM_cons] at hok
        obtain ⟨m₂, hpair, hrest⟩ := bind_eq_ok.mp hok
        exact ih (fun p hp => hpieces p (List.mem_cons_of_mem _ hp))
          (hm.parsePair hlib (hpieces pair List.mem_cons_self) hpair) hrest
  exact hfold _ Text.not_mem_of_mem_splitOn wire_empty hok

theorem Wire.rereadAll_eq {m : Metadata} (hm : Wire m) : m.rereadAll = m := by
  have hsame : m.entries.map (fun e => (e.1, reread e.2)) = m.entries := by
    conv_rhs => rw [← List.map_id m.entries]
    apply List.map_congr_left
    intro e he
    rw [reread, if_neg (hm.values e he)]
    rfl
  rw [rereadAll, hsame]

theorem Wire.perm {m m' : Metadata} (hm : Wire m) (hperm : m'.entries.Perm m.entries) :
    Wire m' where
  isMap := (hperm.map Prod.fst).nodup_iff.mpr hm.isMap
  keys e he := hm.keys e (hperm.subset he)
  values e he := hm.values e (hperm.subset he)

/-- Every map with keys of the wire format is read back as it was printed, in
any order, except that an empty value is none; and every header that parses
gives such a map, which is read back unchanged. -/
theorem metadata_round_trip (hlib : lib.Base64Laws) :
    (∀ m : Metadata, m.IsMap → (∀ e ∈ m.entries, IsKey e.1) →
      parse lib (m.encode lib) = .ok m.rereadAll) ∧
    ∀ header m, parse lib header = .ok m → Wire m ∧
      ∀ m' : Metadata, m'.entries.Perm m.entries → parse lib (m'.encode lib) = .ok m' := by
  constructor
  · intro m hmap hkeys
    exact parse_encode hlib hmap hkeys
  · intro header m hok
    have hm := wire_parse hlib hok
    refine ⟨hm, fun m' hperm => ?_⟩
    have hm' := hm.perm hperm
    rw [parse_encode hlib hm'.isMap hm'.keys, hm'.rereadAll_eq]

end Metadata

/-- Third-party functions with the base64 of the standard alphabet. -/
def Crates.base64 : Crates where
  b64Encode := Base64.encode
  b64Decode s :=
    match Base64.decode s with
    | some b => .ok b
    | none => .error "Invalid input".toList
  utf8Error := fun _ => "invalid utf-8 sequence".toList
  digest := fun _ b => b
  httpDate := fun _ => "Thu, 01 Jan 1970 00:00:00 GMT".toList

theorem Crates.base64_laws : Crates.base64.Base64Laws where
  roundTrip b := by
    change (match Base64.decode (Base64.encode b) with
      | some b => Except.ok b
      | none => .error "Invalid input".toList) = _
    rw [Base64.decode_encode]
  no_comma b hmem := (Base64.encode_plain b _ hmem).1 rfl
  no_space b c hc := (Base64.encode_plain b c hc).2
  decode_ne_nil s hs := by
    apply Base64.eq_nil_of_decode
    change (match Base64.decode s with
      | some b => Except.ok b
      | none => .error "Invalid input".toList) = _ at hs
    split at hs
    · next b hb => rw [hb, Except.ok.inj hs]
    · cases hs

namespace Metadata

/-- A value, a key alone and an empty value. -/
def threeKeys : Metadata :=
  ⟨[("filename".toList, some "test.txt".toList), ("is_private".toList, none),
    ("empty".toList, some [])]⟩

def header : Str := "filename dGVzdC50eHQ=,is_private,empty ".toList

theorem evaluated : threeKeys.IsMap ∧ (∀ e ∈ threeKeys.entries, IsKey e.1) ∧
    threeKeys.encode .base64 = header ∧ parse .base64 header = .ok threeKeys.rereadAll := by
  decide +kernel

theorem metadata_round_trip_three :
    parse .base64 (threeKeys.encode .base64) = .ok threeKeys.rereadAll ∧
      parse .base64 (threeKeys.rereadAll.encode .base64) = .ok threeKeys.rereadAll := by
  obtain ⟨hmap, hkeys, -, hparse⟩ := evaluated
  constructor
  · exact (metadata_round_trip Crates.base64_laws).1 threeKeys hmap hkeys
  · exact ((metadata_round_trip Crates.base64_laws).2 header _ hparse).2 _ (.refl _)

end Metadata

end Fileloft
