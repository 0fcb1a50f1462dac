import Fileloft.Memory.Bounds

/-!
# The maximum size over the in-memory store

A declared length is held against the maximum. Bytes of an upload without a
length and the joined bytes of a final upload are not.
-/

namespace Fileloft.MemoryStore

open Handler

/-- The upload neither holds nor announces more than `limit` bytes. -/
def WithinLimit (limit : ℕ) (info : UploadInfo) : Prop :=
  info.offset ≤ limit ∧ ∀ size, info.size = some size → size ≤ limit

/-- No upload holds or announces more than `limit` bytes. -/
def Limited (limit : ℕ) (st : MemoryStore) : Prop :=
  Every (fun entry => WithinLimit limit entry.info) st

/-- The bytes that enter without a declared length stay within the maximum:
the body of a deferred creation, the joined partials of a final upload, and
each chunk of an upload whose length is still open. -/
structure Capped (h : TusHandler) (w : World MemoryStore) (x : Exchange backend) : Prop where
  body : x.req.method = .post → ∀ p info, Post.prepare h x.env x.req = .ok (p, info) →
    p.isFinal = false → info.size = none → ∀ buf, Post.uploadBody h x.req = some (.ok buf) →
      buf.length < U64_BOUND → buf.length ≤ h.config.maxSize
  partials : x.req.method = .post → ∀ p info, Post.prepare h x.env x.req = .ok (p, info) →
    p.isFinal = true → Ready w.store p info →
      (info.partialUploads.flatMap (dataOf w.store)).length ≤ h.config.maxSize
  chunk : x.req.method = .patch → ∀ id info,
    Patch.Admits interp h x.env x.req w.store id info none → info.size = none →
      ∀ buf, Appends h x.req info none buf → info.offset + buf.length ≤ h.config.maxSize

variable {h : TusHandler} {x : Exchange backend} {w : World MemoryStore} {st : MemoryStore}
  {id : UploadId} {entry : MemoryUploadState} {limit : ℕ}

/-- A settled record announces no more than the maximum. -/
theorem prepared_size {req : TusRequest} {p : Post.Parsed} {info : UploadInfo}
    (hlimit : 0 < h.config.maxSize) (hprepared : Post.Prepared h req p info) :
    ∀ size, info.size = some size → size ≤ h.config.maxSize := by
  have hok := hprepared.parsed
  simp only [Post.parseRequest, bind_eq_ok, guardWith_eq_ok, refuseIf_eq_ok, pure, Except.pure,
    Except.ok.injEq] at hok
  obtain ⟨_, -, _, -, _, -, length, -, _, -, _, -, _, hsize, _, -, rfl⟩ := hok
  intro size heq
  rw [hprepared.size] at heq
  simp only at heq
  simpa [hlimit, heq] using hsize

theorem declared_size {req : TusRequest} {info : UploadInfo} {size : ℕ}
    (hlimit : 0 < h.config.maxSize) (hd : Patch.declaredLength h req info = .ok (some size)) :
    size ≤ h.config.maxSize := by
  unfold Patch.declaredLength at hd
  split at hd
  · simp only [bind_eq_ok] at hd
    obtain ⟨declaredSize, -, hd⟩ := hd
    cases declaredSize with
    | none => cases hd
    | some declaredSize =>
        simp only [bind_eq_ok, refuseIf_eq_ok, pure, Except.pure, Except.ok.injEq,
          Option.some.injEq] at hd
        obtain ⟨_, hle, rfl⟩ := hd
        simpa [hlimit] using hle
  · cases hd

section Creation

variable {req : TusRequest} {p : Post.Parsed} {info : UploadInfo}

theorem final_within_iff (hlimit : 0 < h.config.maxSize) (hprepared : Post.Prepared h req p info)
    (hfinal : p.isFinal = true) (hleaves : Leaves h req st p info entry) :
    WithinLimit h.config.maxSize entry.info ↔ (Ready st p info →
      (info.partialUploads.flatMap (dataOf st)).length ≤ h.config.maxSize) := by
  have hjoined : joined st p info =
      joinedEntry info (info.partialUploads.flatMap (dataOf st)) := by
    rw [joined, if_pos hfinal]
  cases hleaves with
  | created hready =>
      refine iff_of_true ⟨?_, prepared_size hlimit hprepared⟩ fun hready' => absurd hready' hready
      rw [hprepared.offset]
      exact Nat.zero_le _
  | joined hready _ =>
      rw [hjoined]
      constructor
      · intro hwithin _
        exact hwithin.1
      · intro hle
        refine ⟨hle hready, ?_⟩
        rintro size ⟨⟩
        exact hle hready
  | stored hready hfits =>
      have hsize : (stored h req st p info).info.size =
          some (info.partialUploads.flatMap (dataOf st)).length := by
        unfold stored filled
        rw [hjoined]
        split <;> rfl
      constructor
      · intro hwithin _
        exact hwithin.2 _ hsize
      · intro hle
        have hbounded := leaves_bounded hprepared.offset (.stored hready hfits) _ hsize
        refine ⟨hbounded.trans (hle hready), ?_⟩
        intro size heq
        rw [hsize, Option.some.injEq] at heq
        exact heq ▸ hle hready

theorem plain_within_iff (hlimit : 0 < h.config.maxSize) (hprepared : Post.Prepared h req p info)
    (hplain : p.isFinal = false) (hleaves : Leaves h req st p info entry) :
    WithinLimit h.config.maxSize entry.info ↔ (info.size = none → ∀ buf,
      Post.uploadBody h req = some (.ok buf) → buf.length < U64_BOUND →
        buf.length ≤ h.config.maxSize) := by
  have hready : Ready st p info := fun hfinal => by
    rw [hplain] at hfinal
    cases hfinal
  have hjoined : joined st p info = ⟨info, []⟩ := by simp [joined, hplain]
  have hsize := prepared_size hlimit hprepared
  have hempty : WithinLimit h.config.maxSize info := by
    refine ⟨?_, hsize⟩
    rw [hprepared.offset]
    exact Nat.zero_le _
  cases hleaves with
  | created hready' => exact absurd hready hready'
  | joined _ hfits =>
      rw [hjoined] at hfits ⊢
      refine iff_of_true hempty fun hnone buf hbody hbounded => absurd (fun body hbody' => ?_) hfits
      obtain rfl : Except.ok buf = body := by simpa [hbody] using hbody'
      exact ⟨buf, rfl, hbounded, by simp [hnone]⟩
  | stored _ hfits =>
      unfold stored filled
      rw [hjoined] at hfits ⊢
      cases hbody : Post.uploadBody h req with
      | none => exact iff_of_true hempty (by simp)
      | some body =>
          obtain ⟨buf, rfl, hbounded, hfits⟩ := hfits body hbody
          simp only [WithinLimit, Option.some.injEq, Except.ok.injEq, forall_eq', hbounded,
            forall_const]
          constructor
          · intro hwithin _
            exact hwithin.1
          · intro hle
            refine ⟨?_, hsize⟩
            cases hlength : info.size with
            | none => exact hle hlength
            | some size => exact (hfits size hlength).trans (hsize size hlength)

end Creation

section Patch

variable {req : TusRequest} {env : Env} {info : UploadInfo} {size : Option ℕ}

/-- The entry once the length a request declares is recorded. -/
def withLength (entry : MemoryUploadState) : Option ℕ → MemoryUploadState
  | some size =>
      { entry with info := { entry.info with size := some size, sizeIsDeferred := false } }
  | none => entry

theorem declared_eq_update (ha : Patch.Admits interp h env req st id entry.info size)
    (hentry : st id = some entry) :
    declared st id size = Function.update st id (some (withLength entry size)) := by
  cases size with
  | none => exact (Function.update_eq_self_iff.mpr hentry.symm).symm
  | some declaredSize =>
      have hnone := (Patch.declaredLength_eq_some ha.length).1
      simp [declared, declareLength, hentry, hnone, withLength]

theorem withLength_size : (withLength entry size).info.size = size.or entry.info.size := by
  cases size <;> rfl

theorem withLength_offset : (withLength entry size).info.offset = entry.info.offset := by
  cases size <;> rfl

theorem limited_update_iff (hst : Limited limit st) :
    Limited limit (Function.update st id (some entry)) ↔ WithinLimit limit entry.info := by
  constructor
  · intro hlimited
    exact hlimited id entry (Function.update_self ..)
  · intro hwithin
    exact Every.update hst hwithin

theorem withLength_within (hlimit : 0 < h.config.maxSize)
    (ha : Patch.Admits interp h env req st id entry.info size)
    (hwithin : WithinLimit h.config.maxSize entry.info) :
    WithinLimit h.config.maxSize (withLength entry size).info := by
  refine ⟨withLength_offset.le.trans hwithin.1, ?_⟩
  cases size with
  | none => exact hwithin.2
  | some declaredSize =>
      rintro size ⟨⟩
      exact declared_size hlimit ha.length

end Patch

/-- A PATCH keeps the limit exactly when its chunk does, and only a chunk of
an upload without a length can break it. -/
theorem patch_limited_iff (hlimit : 0 < h.config.maxSize) (hw : Limited h.config.maxSize w.store)
    (hpatch : x.req.method = .patch) :
    Limited h.config.maxSize (backend.serve h x w).2.store ↔ Capped h w x := by
  have hcapped : Capped h w x ↔ ∀ id info,
      Patch.Admits interp h x.env x.req w.store id info none → info.size = none →
        ∀ buf, Appends h x.req info none buf → info.offset + buf.length ≤ h.config.maxSize := by
    constructor
    · intro hx
      exact hx.chunk hpatch
    · intro hchunk
      constructor
      · intro hpost
        cases hpatch.symm.trans hpost
      · intro hpost
        cases hpatch.symm.trans hpost
      · intro _
        exact hchunk
  rw [hcapped]
  rcases serve_patch (h := h) (w := w) hpatch with ⟨hnone, hstore⟩ | ⟨id, info, size, ha, hcases⟩
  · rw [hstore]
    exact iff_of_true hw fun id info ha => absurd ha (hnone id info _)
  obtain ⟨entry, hentry, rfl⟩ := entry_of_admits ha
  have hlength := withLength_within hlimit ha (hw id entry hentry)
  rw [declared_eq_update ha hentry] at hcases
  rcases hcases with ⟨buf, happends, hstore⟩ | ⟨hnone, hstore⟩
  · have hend : chunkEnd (withLength entry size).info entry.info.offset buf.length =
        .ok (entry.info.offset + buf.length) :=
      chunkEnd_eq_ok.mpr ⟨rfl, happends.bounded, withLength_size ▸ happends.fits⟩
    simp only [writeChunk, Function.update_self, hend, Function.update_idem] at hstore
    rw [hstore, limited_update_iff hw]
    constructor
    · rintro ⟨hle, -⟩ id' info' ha' hnone' buf' happends'
      obtain ⟨rfl, rfl, rfl⟩ := ha.unique ha'
      obtain rfl : buf = buf' := by
        simpa using happends.read.symm.trans happends'.read
      exact hle
    · intro hchunk
      refine ⟨?_, hlength.2⟩
      cases hsize : size.or entry.info.size with
      | some declaredSize =>
          exact (happends.fits declaredSize hsize).trans
            (hlength.2 declaredSize (withLength_size.trans hsize))
      | none =>
          obtain ⟨rfl, hnone⟩ := Option.or_eq_none_iff.mp hsize
          exact hchunk id entry.info ha hnone buf happends
  · rw [hstore]
    refine iff_of_true (Every.update hw hlength) fun id' info' ha' hnone' buf happends => ?_
    obtain ⟨rfl, rfl, rfl⟩ := ha.unique ha'
    exact absurd happends (hnone buf)

theorem limited_serve_iff (hlimit : 0 < h.config.maxSize) (hkeyed : Keyed w.store)
    (hw : Limited h.config.maxSize w.store) (x : Exchange backend) :
    Limited h.config.maxSize (backend.serve h x w).2.store ↔ Capped h w x := by
  by_cases hpatch : x.req.method = .patch
  · exact patch_limited_iff hlimit hw hpatch
  by_cases hpost : x.req.method = .post
  · rcases hprepare : Post.prepare h x.env x.req with e | ⟨p, info⟩
    · have hsame : (backend.serve h x w).2 = w := Post.serve_unprepared hpost hprepare
      rw [hsame]
      refine iff_of_true hw ⟨fun _ p info hok => ?_, fun _ p info hok => ?_,
        fun hmethod => absurd hmethod hpatch⟩
      · cases hprepare.symm.trans hok
      · cases hprepare.symm.trans hok
    have hprepared := Post.prepare_ok hprepare
    obtain ⟨entry, deleted, hleaves, -, -, hstore⟩ := serve_post hkeyed hpost hprepare
    have hwithout : Limited h.config.maxSize (without w.store deleted) := Every.without hw deleted
    rw [hstore, left, limited_update_iff hwithout]
    cases hfinal : p.isFinal with
    | true =>
        rw [final_within_iff hlimit hprepared hfinal hleaves]
        constructor
        · intro hle
          constructor
          · intro _ p' info' hok hplain
            obtain ⟨rfl, rfl⟩ := Prod.mk.inj (Except.ok.inj (hprepare.symm.trans hok))
            cases hfinal.symm.trans hplain
          · intro _ p' info' hok _
            obtain ⟨rfl, rfl⟩ := Prod.mk.inj (Except.ok.inj (hprepare.symm.trans hok))
            exact hle
          · exact fun hmethod => absurd hmethod hpatch
        · intro hx
          exact hx.partials hpost p info hprepare hfinal
    | false =>
        rw [plain_within_iff hlimit hprepared hfinal hleaves]
        constructor
        · intro hle
          constructor
          · intro _ p' info' hok _
            obtain ⟨rfl, rfl⟩ := Prod.mk.inj (Except.ok.inj (hprepare.symm.trans hok))
            exact hle
          · intro _ p' info' hok hfinal'
            obtain ⟨rfl, rfl⟩ := Prod.mk.inj (Except.ok.inj (hprepare.symm.trans hok))
            cases hfinal.symm.trans hfinal'
          · exact fun hmethod => absurd hmethod hpatch
        · intro hx
          exact hx.body hpost p info hprepare hfinal
  · refine iff_of_true (serve_other (fun st id hst => Every.delete hst id) hpost hpatch hw) ?_
    exact ⟨fun hmethod => absurd hmethod hpost, fun hmethod => absurd hmethod hpost,
      fun hmethod => absurd hmethod hpatch⟩

/-- In a run whose undeclared bytes stay within the maximum no upload exceeds
it, and a further request keeps that exactly when its bytes do too. -/
theorem limited_iff_capped {w : World MemoryStore} (hlimit : 0 < h.config.maxSize)
    (hrun : backend.Follows h (Capped h) backend.initial w) :
    Limited h.config.maxSize w.store ∧
      ∀ x, Limited h.config.maxSize (backend.serve h x w).2.store ↔ Capped h w x := by
  have hlimited : backend.Reachable h w ∧ Limited h.config.maxSize w.store := by
    apply hrun.invariant (I := fun w => backend.Reachable h w ∧ Limited h.config.maxSize w.store)
    · exact ⟨.initial, every_initial⟩
    · intro w x hx hw
      exact ⟨.step x hw.1, (limited_serve_iff hlimit (keyed_of_reachable hw.1) hw.2 x).mpr hx⟩
  exact ⟨hlimited.2,
    fun x => limited_serve_iff hlimit (keyed_of_reachable hlimited.1) hlimited.2 x⟩

namespace Oversized

/-- A limit of one byte. -/
def handler : TusHandler := ⟨{ maxSize := 1 }, true, .fixed⟩

/-- Two bytes of an upload whose length is not known yet. -/
def post : Exchange backend where
  req := .ofTexts .post none [(.tusResumable, "1.0.0"), (.uploadDeferLength, "1"),
    (.contentType, "application/offset+octet-stream")] (some [97, 98])
  env := .permissive .a
  choice := ()

end Oversized

namespace WithinBytes

/-- A limit of three bytes. -/
def handler : TusHandler :=
  ⟨{ maxSize := 3, extensions := { concatenation := true } }, true, .fixed⟩

/-- Two bytes of a partial upload whose length is not known yet. -/
def part : Exchange backend where
  req := .ofTexts .post none [(.tusResumable, "1.0.0"), (.uploadDeferLength, "1"),
    (.uploadConcat, "partial"), (.contentType, "application/offset+octet-stream")] (some [97, 98])
  env := .permissive .a
  choice := ()

/-- More of its bytes, and its length if there is one to declare. -/
def patch (offset : String) (length : List (HeaderName × String)) (body : Bytes) :
    Exchange backend where
  req := .ofTexts .patch (some "a1234567-89ab-4cde-8fed-0123456789ab")
    ([(.tusResumable, "1.0.0"), (.contentType, "application/offset+octet-stream"),
      (.uploadOffset, offset)] ++ length) (some body)
  env := .permissive .b
  choice := ()

/-- A final upload of the partial one. -/
def final : Exchange backend where
  req := .ofTexts .post none [(.tusResumable, "1.0.0"),
    (.uploadConcat, "final;/files/a1234567-89ab-4cde-8fed-0123456789ab")] none
  env := .permissive .b
  choice := ()

def run : List (Exchange backend) :=
  [part, patch "2" [] [99], patch "3" [(.uploadLength, "3")] [], final]

def world : World MemoryStore := backend.serveAll handler run backend.initial

/-- The bytes that a request brings in without a length stay within the limit. -/
def admits (w : World MemoryStore) (x : Exchange backend) : Bool :=
  match x.req.method with
  | .post => (Post.prepare handler x.env x.req).toOption.all fun (p, info) =>
    if p.isFinal then (info.partialUploads.flatMap (dataOf w.store)).length ≤ handler.config.maxSize
    else (Post.uploadBody handler x.req).all fun body => body.toOption.all fun buf =>
      buf.length ≤ handler.config.maxSize
  | .patch =>
    (Patch.admission interp handler x.env x.req w.store).toOption.all fun (_, info, _) =>
      (Patch.chunkReader handler x.req).toOption.all fun body =>
        body.toOption.all fun buf => info.offset + buf.length ≤ handler.config.maxSize
  | _ => true

theorem capped_of_admits {w : World MemoryStore} {x : Exchange backend} (hx : admits w x = true) :
    Capped handler w x := by
  constructor
  · intro hpost p info hok hplain _ buf hbody _
    simpa [admits, hpost, hok, hplain, hbody, Except.toOption] using hx
  · intro hpost p info hok hfinal _
    simpa [admits, hpost, hok, hfinal, Except.toOption] using hx
  · intro hpatch id info ha _ buf happends
    simpa [admits, hpatch, Patch.admission_eq_ok.mpr ha, happends.read, Except.toOption] using hx

theorem evaluated : backend.passes handler admits run backend.initial = true ∧
    [Uuid.a, Uuid.b].map (fun u => (world.store (.new u)).map fun entry =>
      (entry.info.offset, entry.info.size)) = [some (3, some 3), some (3, some 3)] := by
  decide +kernel

end WithinBytes

open WithinBytes in
theorem limited_iff_capped_run :
    [Uuid.a, Uuid.b].map (fun u => (world.store (.new u)).map fun entry =>
        (entry.info.offset, entry.info.size)) = [some (3, some 3), some (3, some 3)] ∧
      Limited 3 world.store ∧
      ∀ x, Limited 3 (backend.serve handler x world).2.store ↔ Capped handler world x :=
  ⟨evaluated.2, @limited_iff_capped handler world (by decide)
    (.serveAll (fun _ _ => capped_of_admits) evaluated.1)⟩

open Oversized in
/-- A deferred creation stores more than the maximum. -/
theorem deferred_body_exceeds_limit :
    handler.config.maxSize = 1 ∧
      backend.Reachable handler (backend.serve handler post backend.initial).2 ∧
      ((backend.serve handler post backend.initial).1.map TusResponse.status) = some 201 ∧
      ((backend.serve handler post backend.initial).2.store (.new .a)).map (fun entry =>
        entry.info.offset) = some 2 ∧
      ¬ Limited 1 (backend.serve handler post backend.initial).2.store := by
  have hslot : ((backend.serve handler post backend.initial).2.store (.new .a)).map (fun entry =>
      entry.info.offset) = some 2 := by
    decide +kernel
  refine ⟨rfl, .step post .initial, by decide +kernel, hslot, fun hlimited => ?_⟩
  obtain ⟨entry, hentry, hoffset⟩ := Option.map_eq_some_iff.mp hslot
  have hle := (hlimited _ entry hentry).1
  omega

end Fileloft.MemoryStore
