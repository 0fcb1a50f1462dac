import Fileloft.Core.Key
import Fileloft.Server.Fixture

/-!
# The `Location` of an upload, read back

A `Location` ends in the base path, a slash and the id. The handler finds
the id of a partial behind the last occurrence of the base path.
-/

namespace Fileloft

open Text (Trimmed trimBoth isWhitespace rfind)

/-- `base_path.trim_end_matches('/')`. -/
def Config.base (config : Config) : Str := config.basePath.rdropWhile (· == '/')

namespace UploadId

variable {id : UploadId}

theorem Valid.parse_eq (hid : id.Valid) : parse id.val = .ok id := by
  unfold parse
  rw [show validateStr id.val = .ok () from hid]

theorem Valid.no_slash (hid : id.Valid) : '/' ∉ id.val := fun hmem => by
  have hslash := hid.spec.alphabet _ hmem
  revert hslash
  decide

theorem isWhitespace_of_idChar {c : Char} (hc : idChar c = true) : isWhitespace c = false := by
  have hcode : 45 ≤ c.toNat ∧ c.toNat ≤ 122 := by
    have hranges : (((((decide (c.val ≥ 'A'.val ∧ c.val ≤ 'Z'.val) ||
        (decide (c.val ≥ 'a'.val) && decide (c.val ≤ 'z'.val))) ||
        (decide (c.val ≥ '0'.val) && decide (c.val ≤ '9'.val))) || c == '-') || c == '_') ||
        c == '.') = true := hc
    simp only [Bool.or_eq_true, Bool.and_eq_true, decide_eq_true_eq, beq_iff_eq, ge_iff_le,
      UInt32.le_iff_toNat_le] at hranges
    rcases hranges with ((((⟨hle, hge⟩ | ⟨hle, hge⟩) | ⟨hle, hge⟩) | rfl) | rfl) | rfl
    · exact ⟨le_trans (by decide) hle, le_trans hge (by decide)⟩
    · exact ⟨le_trans (by decide) hle, le_trans hge (by decide)⟩
    · exact ⟨le_trans (by decide) hle, le_trans hge (by decide)⟩
    · decide
    · decide
    · decide
  simp [isWhitespace]
  omega

theorem Valid.trimmed (hid : id.Valid) : Trimmed isWhitespace id.val where
  head c hc := isWhitespace_of_idChar (hid.spec.alphabet c (List.mem_of_mem_head? hc))
  last c hc := isWhitespace_of_idChar (hid.spec.alphabet c (List.mem_of_mem_getLast? hc))

end UploadId

namespace Post

variable {h : TusHandler} {req : TusRequest} {id : UploadId}

/-- Scheme and host, the base path, a slash, the id. -/
theorem buildLocation_eq : buildLocation h id req =
    requestBaseUrl h.config req.headers ++ (h.config.base ++ '/' :: id.val) := by
  rw [buildLocation, List.append_assoc]
  rfl

/-- The trim of a `Location` only cuts in front of the base path. -/
theorem trimBoth_location (hid : id.Valid) (hslash : ∀ c ∈ h.config.base.head?, c = '/') :
    ∃ x, trimBoth isWhitespace (buildLocation h id req) = x ++
      (h.config.base ++ '/' :: id.val) := by
  rw [buildLocation_eq]
  apply Text.trimBoth_append _ (by simp)
  constructor
  · intro c hc
    have hc : c = '/' := by
      cases hbase : h.config.base with
      | nil => simpa [hbase, eq_comm] using hc
      | cons b bs =>
          rw [hbase] at hc
          apply hslash
          rw [hbase]
          exact hc
    subst hc
    decide
  · intro c hc
    apply hid.trimmed.last
    obtain ⟨last, hlast⟩ := Option.isSome_iff_exists.mp
      (List.getLast?_isSome.mpr hid.spec.ne_nil)
    simpa [List.getLast?_append, List.getLast?_cons, hlast] using hc

/-- The last path segment of a `Location` is the id. -/
theorem lastSegment_location (hid : id.Valid) (x : Str) :
    lastSegment (x ++ '/' :: id.val) = .ok id := by
  have hsplit : (x ++ '/' :: id.val).splitOn '/' = x.splitOn '/' ++ [id.val] := by
    rw [List.splitOn_append_cons_self, List.splitOn_eq_singleton hid.no_slash]
  unfold lastSegment
  simp only [hsplit, List.getLastD_concat, hid.trimmed.trimBoth_eq]
  rw [if_neg hid.spec.ne_nil, hid.parse_eq]

/-- A base path that does not end in a slash does not occur one place later. -/
theorem not_prefix_drop_one {base id : Str} (hne : base ≠ []) (hlast : base.getLast hne ≠ '/') :
    ¬ base <+: (base ++ '/' :: id).drop 1 := by
  intro hpre
  obtain ⟨b, bs, rfl⟩ := List.exists_cons_of_ne_nil hne
  have hlen : bs.length < (bs ++ '/' :: id).length := by simp
  have hget := hpre.getElem (i := bs.length) (by simp)
  apply hlast
  rw [List.getLast_eq_getElem]
  simpa using hget

theorem head_base (hslash : h.config.basePath.head? = some '/') :
    ∀ c ∈ h.config.base.head?, c = '/' := by
  intro c hc
  obtain ⟨t, ht⟩ := List.rdropWhile_prefix (· == '/') h.config.basePath
  rw [← ht, List.head?_append,
    show (h.config.basePath.rdropWhile (· == '/')).head? = some c from hc] at hslash
  exact Option.some.inj hslash

theorem last_base (hne : h.config.base ≠ []) : h.config.base.getLast hne ≠ '/' := by
  have hlast := List.rdropWhile_last_not (· == '/') h.config.basePath hne
  exact fun heq => hlast (beq_iff_eq.mpr heq)

theorem dropWhile_slash (hid : id.Valid) {s : Str} (hs : s <:+ id.val) :
    s.dropWhile (· == '/') = s := by
  cases s with
  | nil => rfl
  | cons c s =>
      apply List.dropWhile_cons_of_neg
      simp only [beq_iff_eq]
      rintro rfl
      exact hid.no_slash (hs.subset List.mem_cons_self)

/-- What the handler reads from a `Location`, by the place where it finds the
base path. -/
theorem extract_location (hid : id.Valid) (hslash : ∀ c ∈ h.config.base.head?, c = '/') {k : ℕ}
    (hk : rfind h.config.base (h.config.base ++ '/' :: id.val) = some k) :
    extractUploadIdFromUrl (buildLocation h id req) h.config.basePath =
      if ('/' :: id.val).drop k = [] then .ok id
      else UploadId.parse (id.val.drop (k - 1)) := by
  obtain ⟨x, hx⟩ : ∃ x, trimBoth isWhitespace (buildLocation h id req) =
      x ++ (h.config.base ++ '/' :: id.val) := trimBoth_location hid hslash
  have hdrop : (x ++ (h.config.base ++ '/' :: id.val)).drop
      (x.length + k + h.config.base.length) = ('/' :: id.val).drop k := by
    rw [Nat.add_assoc, ← List.drop_drop, List.drop_left, Nat.add_comm, ← List.drop_drop,
      List.drop_left]
  have hafter : (('/' :: id.val).drop k).dropWhile (· == '/') =
      if ('/' :: id.val).drop k = [] then [] else id.val.drop (k - 1) := by
    cases k with
    | zero =>
        rw [List.drop_zero, List.dropWhile_cons_of_pos (by simp)]
        simpa using dropWhile_slash hid List.suffix_rfl
    | succ k =>
        simp only [List.drop_succ_cons, Nat.add_sub_cancel]
        rw [dropWhile_slash hid (List.drop_suffix _ _)]
        split
        · assumption
        · rfl
  have hfound := Text.rfind_append_of_some (x := x) hk
  unfold extractUploadIdFromUrl
  rw [hx]
  simp only [show h.config.basePath.rdropWhile (· == '/') = h.config.base from rfl, hfound, hdrop,
    hafter]
  by_cases hend : ('/' :: id.val).drop k = []
  · rw [if_pos hend, if_pos rfl, if_pos hend, ← List.append_assoc]
    exact lastSegment_location hid _
  · have hne : id.val.drop (k - 1) ≠ [] := by
      have hlen : ¬ ('/' :: id.val).length ≤ k := fun hle => hend (List.drop_eq_nil_of_le hle)
      simp only [List.length_cons] at hlen
      rw [ne_eq, List.drop_eq_nil_iff]
      have hpos := List.length_pos_of_ne_nil hid.spec.ne_nil
      omega
    rw [if_neg hend, if_neg hne, if_neg hend]

/-- A `Location` resolves to its upload exactly when the base path occurs for
the last time where it stands or at the very end. -/
theorem location_resolves_iff (hslash : h.config.basePath.head? = some '/') (hid : id.Valid) :
    extractUploadIdFromUrl (buildLocation h id req) h.config.basePath = .ok id ↔
      rfind h.config.base (h.config.base ++ '/' :: id.val) = some 0 ∨
        rfind h.config.base (h.config.base ++ '/' :: id.val) = some (id.val.length + 1) := by
  obtain ⟨k, hk⟩ : ∃ k, rfind h.config.base (h.config.base ++ '/' :: id.val) = some k := by
    apply Option.ne_none_iff_exists'.mp
    intro hnone
    exact Text.rfind_eq_none_iff.mp hnone 0 (Nat.zero_le _) (List.prefix_append _ _)
  obtain ⟨hle, hpre, hlater⟩ := Text.rfind_eq_some_iff.mp hk
  have hbound : k ≤ id.val.length + 1 := by
    have hlen := hpre.length_le
    simp only [List.length_drop, List.length_append, List.length_cons] at hlen hle
    omega
  rw [extract_location hid (head_base hslash) hk, hk]
  simp only [Option.some.injEq]
  constructor
  · intro hok
    split at hok
    · next hend =>
        have hlen := List.drop_eq_nil_iff.mp hend
        simp only [List.length_cons] at hlen
        exact .inr (by omega)
    · by_contra hother
      have hval := congrArg List.length (UploadId.parse_eq_ok hok).1
      rw [List.length_drop] at hval
      have hone : k = 1 := by omega
      subst hone
      have hne : h.config.base ≠ [] := by
        intro hnil
        have hpos := List.length_pos_of_ne_nil hid.spec.ne_nil
        apply hlater (id.val.length + 1) (by omega) (by simp)
        rw [hnil]
        exact List.nil_prefix
      exact not_prefix_drop_one hne (last_base hne) hpre
  · rintro (rfl | rfl)
    · rw [if_neg (by simp)]
      exact hid.parse_eq
    · rw [if_pos (by simp)]

namespace UnderFiles

/-- The default handler, whose base path is `/files`. -/
def handler : TusHandler := ⟨{}, false, .fixed⟩

def get : TusRequest := .ofTexts .get none [(.host, "example.org")] none

/-- An id that a `pre_create` callback may choose. -/
def filesTwo : UploadId := ⟨"files2".toList⟩

theorem evaluated : filesTwo.Valid ∧ handler.config.basePath.head? = some '/' ∧
    extractUploadIdFromUrl (buildLocation handler filesTwo get) handler.config.basePath =
      .ok ⟨"2".toList⟩ ∧
    rfind handler.config.base (handler.config.base ++ '/' :: (UploadId.new .a).val) = some 0 := by
  decide +kernel

end UnderFiles

open UnderFiles in
theorem location_resolves_uuid :
    extractUploadIdFromUrl (buildLocation handler (.new .a) get) handler.config.basePath =
      .ok (.new .a) :=
  (location_resolves_iff evaluated.2.1 (UploadId.valid_new .a)).mpr (.inl evaluated.2.2.2)

open UnderFiles in
theorem location_of_another_upload : ¬ ∀ (h : TusHandler) (req : TusRequest) (id : UploadId),
    h.config.basePath.head? = some '/' → id.Valid →
      extractUploadIdFromUrl (buildLocation h id req) h.config.basePath = .ok id := by
  intro hall
  obtain ⟨hid, hslash, hother, -⟩ := evaluated
  have hok := hall handler get filesTwo hslash hid
  rw [hother] at hok
  cases hok

end Post

/-! ## The id of a Rocket request -/

namespace Rocket

/-- The segments of a path that are not empty. -/
def segments (path : Str) : List Str := Text.words (· == '/') path

def rocketUploadId (path : Str) : Option Str :=
  match segments path with
  | [_, id] => some id
  | _ => none

variable {h : TusHandler} {id : UploadId}

/-- The path of a `Location`: what follows scheme and host. -/
def locationPath (h : TusHandler) (id : UploadId) : Str := h.config.base ++ '/' :: id.val

theorem buildLocation_eq (req : TusRequest) : Post.buildLocation h id req =
    requestBaseUrl h.config req.headers ++ locationPath h id := Post.buildLocation_eq

theorem segments_locationPath (hid : id.Valid) :
    segments (locationPath h id) = segments h.config.base ++ [id.val] := by
  unfold segments locationPath
  rw [Text.words_append_cons (by simp), Text.words_eq_singleton hid.spec.ne_nil]
  intro c hc
  simp only [beq_eq_false_iff_ne]
  rintro rfl
  exact hid.no_slash hc

theorem segments_slash (path : Str) : segments (path ++ ['/']) = segments path := by
  unfold segments
  rw [Text.words_append_cons (by simp)]
  simp [Text.words]

/-- Trailing slashes make no segment. -/
theorem segments_rdropWhile (path : Str) :
    segments (path.rdropWhile (· == '/')) = segments path := by
  induction path using List.reverseRecOn with
  | nil => rfl
  | append_singleton path c ih =>
      by_cases hc : c = '/'
      · subst hc
        rw [List.rdropWhile_concat_pos _ _ _ (by simp), ih, segments_slash]
      · rw [List.rdropWhile_concat_neg _ _ _ (by simpa using hc)]

theorem rocketUploadId_eq_none {path : Str} :
    rocketUploadId path = none ↔ (segments path).length ≠ 2 := by
  unfold rocketUploadId
  split
  · next heq => simp [heq]
  · next hother =>
      simp only [true_iff]
      intro hlen
      obtain ⟨a, b, heq⟩ := List.length_eq_two.mp hlen
      exact hother a b heq

theorem rocketUploadId_location (hid : id.Valid) :
    rocketUploadId (locationPath h id) = some id.val ↔ (segments h.config.base).length = 1 := by
  unfold rocketUploadId
  rw [segments_locationPath hid]
  rcases segments h.config.base with _ | ⟨a, _ | ⟨b, rest⟩⟩
  · simp
  · simp
  · cases rest <;> simp

/-- The adapter finds the id of a `Location`, and none in the mount path,
exactly when it is mounted at a path of one segment. -/
theorem rocket_id_iff (hid : id.Valid) :
    (rocketUploadId (locationPath h id) = some id.val ∧ rocketUploadId h.config.base = none ∧
      rocketUploadId (h.config.base ++ ['/']) = none) ↔
        (segments h.config.basePath).length = 1 := by
  rw [rocketUploadId_location hid, rocketUploadId_eq_none, rocketUploadId_eq_none, segments_slash,
    ← segments_rdropWhile h.config.basePath]
  change _ ↔ (segments h.config.base).length = 1
  omega

namespace TwoSegments

def handler : TusHandler := ⟨{ basePath := "/api/files".toList }, false, .fixed⟩

theorem evaluated : rocketUploadId (locationPath handler (.new .a)) = none ∧
    rocketUploadId handler.config.base = some "files".toList ∧
    (segments Post.UnderFiles.handler.config.basePath).length = 1 := by
  decide +kernel

end TwoSegments

open Post.UnderFiles in
theorem rocket_id_files :
    rocketUploadId (locationPath handler (.new .a)) = some (UploadId.new .a).val ∧
      rocketUploadId handler.config.base = none ∧
        rocketUploadId (handler.config.base ++ ['/']) = none :=
  (rocket_id_iff (UploadId.valid_new .a)).mpr TwoSegments.evaluated.2.2

open TwoSegments in
theorem rocket_id_lost : ¬ ∀ (h : TusHandler) (id : UploadId), id.Valid →
    rocketUploadId (locationPath h id) = some id.val ∧ rocketUploadId h.config.base = none ∧
      rocketUploadId (h.config.base ++ ['/']) = none := by
  intro hall
  have hfound := (hall handler (.new .a) (UploadId.valid_new .a)).1
  rw [evaluated.1] at hfound
  cases hfound

end Rocket

end Fileloft
