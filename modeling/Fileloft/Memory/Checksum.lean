import Fileloft.Memory.Creation
import Fileloft.Memory.Patch
import Fileloft.Server.Checksum

/-!
# Checksums over the in-memory store

Which requests with a checksum are answered with success, and which of them
have stored bytes that nobody compared with it.
-/

namespace Fileloft.MemoryStore

open Handler Patch Post

section Run

variable {h : TusHandler} {env : Env} {req : TusRequest} {x : Exchange backend}
  {w : World MemoryStore} {id : UploadId}

/-- The `pre_finish` callback does not refuse the upload. -/
def Completes (h : TusHandler) (env : Env) (info : UploadInfo) : Prop :=
  info.isComplete = true → env.finishAnswer h info = .ok ()

/-- No check refuses the PATCH: it is admitted, its chunk is accepted, and
the upload may be completed if it then is complete. -/
def PassesPatch (h : TusHandler) (env : Env) (req : TusRequest) (st : MemoryStore) : Prop :=
  ∃ id info size buf, Admits interp h env req st id info size ∧ Appends h req info size buf ∧
    ∀ entry, (writeChunk (declared st id size) id info.offset (.ok buf)).2 id = some entry →
      Completes h env entry.info

/-- No check refuses the creation. -/
def PassesPost (h : TusHandler) (env : Env) (req : TusRequest) (st : MemoryStore) : Prop :=
  ∃ p info, prepare h env req = .ok (p, info) ∧
    ∀ entry deleted, ¬ Stops h env req st p info entry deleted

theorem run_finish_status {entry : MemoryUploadState} (hentry : w.store id = some entry) :
    (∃ resp w', (Patch.finish h id).run (handlerInterp interp env) w = (.ok resp, w') ∧
        resp.status = 204 ∧ Completes h env entry.info) ∨
      ∃ e w', (Patch.finish h id).run (handlerInterp interp env) w = (.error (.error e), w') ∧
        ¬ Completes h env entry.info := by
  have hinfo : (interp (.getInfo id) w.store).1 = .ok entry.info := by
    simp [interp, getInfo, hentry]
  rw [Patch.run_finish pureReads, hinfo]
  obtain ⟨r, w', hrun, houtcome⟩ := run_finishIfComplete interp env h
    (World.afterEmit h w (.uploadProgress entry.info)) id entry.info
  simp only [hrun]
  cases houtcome with
  | incomplete hincomplete =>
      exact .inl ⟨_, _, rfl, rfl, fun hcomplete => absurd hcomplete (by simp [hincomplete])⟩
  | vetoed e _ hcomplete hveto =>
      refine .inr ⟨e, _, rfl, fun hall => ?_⟩
      rw [hall hcomplete] at hveto
      cases hveto
  | failed e _ _ _ hfinal _ => cases hfinal
  | finished _ _ haccept => exact .inl ⟨_, _, rfl, rfl, fun _ => haccept⟩

theorem patch_success_iff (hmethod : x.req.method = .patch) :
    (∃ resp, (backend.serve h x w).1 = some resp ∧ resp.status < 300) ↔
      PassesPatch h x.env x.req w.store := by
  have hserve : (backend.serve h x w).1 =
      respond h ((Patch.handle h x.req).run (handlerInterp interp x.env) w).1 := by
    have heq := serve_eq interp x.env h w x.req
    rw [TusHandler.dispatch, hmethod] at heq
    exact congrArg Prod.fst heq
  have herror {e : TusError} {resp : TusResponse} (hresp : some (h.errorResponse e) = some resp)
      (hstatus : resp.status < 300) : False := by
    have hge := h.errorResponse_status e
    rw [Option.some.inj hresp] at hge
    omega
  rw [hserve, Patch.run_handle pureReads]
  cases hadm : admission interp h x.env x.req w.store with
  | error e =>
      constructor
      · rintro ⟨resp, hresp, hstatus⟩
        exact absurd hstatus fun hlt => herror hresp hlt
      · rintro ⟨id, info, size, buf, ha, -⟩
        rw [admission_eq_ok.mpr ha] at hadm
        cases hadm
  | ok r =>
      obtain ⟨id, info, size⟩ := r
      have ha := admission_eq_ok.mp hadm
      rcases run_accept ha with ⟨buf, happends, hrun⟩ | ⟨e, hnone, hrun⟩
      · obtain ⟨entry, hentry⟩ : ∃ entry,
            (writeChunk (declared w.store id size) id info.offset (.ok buf)).2 id = some entry := by
          obtain ⟨-, -, -, entry, hentry, -⟩ := declared_entry ha
          exact writeChunk_isSome hentry
        have hpasses : PassesPatch h x.env x.req w.store ↔ Completes h x.env entry.info := by
          constructor
          · rintro ⟨id', info', size', buf', ha', happends', hall⟩
            obtain ⟨rfl, rfl, rfl⟩ := ha.unique ha'
            have hread := happends.read.symm.trans happends'.read
            simp only [Except.ok.injEq] at hread
            exact hall entry (hread ▸ hentry)
          · intro hcompletes
            refine ⟨id, info, size, buf, ha, happends, fun entry' hentry' => ?_⟩
            rw [hentry, Option.some.injEq] at hentry'
            exact hentry' ▸ hcompletes
        rw [hpasses]
        rcases @run_finish_status h x.env { w with
            store := (writeChunk (declared w.store id size) id info.offset (.ok buf)).2 } id entry
            hentry with ⟨resp, w', hfinish, hstatus, hcompletes⟩ | ⟨e, w', hfinish, hcompletes⟩
        · simp only [hrun, hfinish, respond]
          exact iff_of_true ⟨resp, rfl, by omega⟩ hcompletes
        · simp only [hrun, hfinish, respond]
          refine iff_of_false ?_ hcompletes
          rintro ⟨resp, hresp, hstatus⟩
          exact herror hresp hstatus
      · simp only [hrun, respond]
        constructor
        · rintro ⟨resp, hresp, hstatus⟩
          exact absurd hstatus fun hlt => herror hresp hlt
        · rintro ⟨id', info', size', buf, ha', happends, -⟩
          obtain ⟨rfl, rfl, rfl⟩ := ha.unique ha'
          exact absurd happends (hnone buf)

theorem post_success_iff (hw : backend.Reachable h w) (hmethod : x.req.method = .post) :
    (∃ resp, (backend.serve h x w).1 = some resp ∧ resp.status < 300) ↔
      PassesPost h x.env x.req w.store := by
  have hkeyed := keyed_of_reachable hw
  constructor
  · rintro ⟨resp, hresp, hstatus⟩
    obtain ⟨p, info, hprepare, hrun⟩ := run_create_of_status hmethod hresp (by omega)
    refine ⟨p, info, hprepare, fun entry deleted hstops => ?_⟩
    obtain ⟨e, w', herror, -⟩ := hstops.run hkeyed (prepare_ok hprepare)
    cases hrun.symm.trans herror
  · rintro ⟨p, info, hprepare, hpass⟩
    obtain ⟨resp, w', hrun, hstatus, -⟩ := run_create_pass hkeyed (prepare_ok hprepare) hpass
    refine ⟨resp, ?_, by omega⟩
    have heq := serve_eq interp x.env h w x.req
    rw [TusHandler.dispatch, hmethod] at heq
    refine (congrArg Prod.fst heq).trans ?_
    change respond h ((Post.handle h x.req).run (handlerInterp interp x.env) w).1 = some resp
    rw [Post.run_handle, hprepare]
    simp only [hrun, respond]

/-- Nothing but a missing comparison with the checksum can be wrong. -/
def Passes (h : TusHandler) (x : Exchange backend) (w : World MemoryStore) : Prop :=
  x.req.method = .patch ∧ PassesPatch h x.env x.req w.store ∨
    x.req.method = .post ∧ PassesPost h x.env x.req w.store

theorem success_iff (hw : backend.Reachable h w) (hcarries : Carries h x.req) :
    (∃ resp, (backend.serve h x w).1 = some resp ∧ resp.status < 300) ↔ Passes h x w := by
  rcases hcarries.body with ⟨hmethod, -⟩ | ⟨hmethod, -⟩
  · rw [patch_success_iff hmethod, Passes, hmethod]
    simp
  · rw [post_success_iff hw hmethod, Passes, hmethod]
    simp

/-- A covered request keeps the law of its checksum over any store. Over the
in-memory store, a request that is not refused keeps it only if it is. -/
theorem checksum_holds_iff (h : TusHandler) :
    (∀ (σ : Type) (impl : Interp StoreSig σ) (env : Env) (req : TusRequest) (w : World σ),
        PureReads impl → Carries h req → Covered h req → ChecksumHolds h impl env req w) ∧
    ∀ (x : Exchange backend) (w : World MemoryStore), backend.Reachable h w → Carries h x.req →
      (ChecksumHolds h interp x.env x.req w ↔ (Passes h x w → Covered h x.req)) := by
  refine ⟨fun σ impl env req w hreads hcarries hcovered => hcovered.checksumHolds hreads hcarries,
    fun x w hw hcarries => ⟨fun hholds hpasses => ?_, fun hcovered resp hresp hstatus => ?_⟩⟩
  · obtain ⟨resp, hresp, hstatus⟩ := (success_iff hw hcarries).mpr hpasses
    have hverified := hholds resp hresp hstatus
    refine ⟨fun _ => ?_, fun hmethod => ?_⟩
    · obtain ⟨text, _, _, _, htext, -⟩ := hverified
      rw [htext]
      rfl
    · have hrun := run_dispatch_of_status hresp (hstatus.trans (by decide))
      rw [trace_handle, TusHandler.dispatch, hmethod] at hverified
      rw [TusHandler.dispatch, hmethod] at hrun
      rwa [Post.chunks_of_ok pureReads hrun] at hverified
  · have hpasses := (success_iff hw hcarries).mp ⟨resp, hresp, hstatus⟩
    exact (hcovered hpasses).checksumHolds pureReads hcarries resp hresp hstatus

end Run

namespace Unchecked

/-- The SHA-1 digest of `a` for every header, as it is for the header below. -/
def crates : Crates :=
    { Crates.fixed with b64Decode := fun _ => .ok (Crates.fixed.digest .sha1 [97]) }

def handler : TusHandler := ⟨{}, true, crates⟩

/-- Create an upload of one byte. -/
def create : Exchange backend where
  req := .ofTexts .post none [(.tusResumable, "1.0.0"), (.uploadLength, "1")] none
  env := .permissive .a
  choice := ()

/-- The byte `a`, with its digest. -/
def patch : Exchange backend where
  req := .ofTexts .patch (some "a1234567-89ab-4cde-8fed-0123456789ab")
    [(.tusResumable, "1.0.0"), (.contentType, "application/offset+octet-stream"),
      (.uploadOffset, "0"), (.uploadChecksum, "sha1 hvfkN/qlp/zhXR3cuerq6jd2Z7g=")] (some [97])
  env := .permissive .b
  choice := ()

def created : World MemoryStore := (backend.serve handler create backend.initial).2

theorem patch_carries : Carries handler patch.req :=
  ⟨rfl, rfl, .inl ⟨rfl, Option.some_ne_none _⟩⟩

theorem patch_covered : Covered handler patch.req :=
  ⟨fun _ => by decide +kernel, fun hmethod => by cases hmethod⟩

/-- Under a handler whose base64 gives three zero bytes for `AAAA`. -/
def plain : TusHandler := ⟨{}, true, .fixed⟩

/-- A creation with the byte `a` and the digest of something else. -/
def post : Exchange backend where
  req := .ofTexts .post none [(.tusResumable, "1.0.0"), (.uploadLength, "1"),
    (.contentType, "application/offset+octet-stream"), (.uploadChecksum, "sha1 AAAA")] (some [97])
  env := .permissive .a
  choice := ()

/-- A PATCH whose checksum header is the single byte `0xff`. -/
def binaryPatch : Exchange backend where
  req := { TusRequest.ofTexts .patch (some "a1234567-89ab-4cde-8fed-0123456789ab")
    [(.tusResumable, "1.0.0"), (.contentType, "application/offset+octet-stream"),
      (.uploadOffset, "0")] (some [97]) with
    headers := [(.tusResumable, .fromStatic "1.0.0".toList),
      (.contentType, .fromStatic "application/offset+octet-stream".toList),
      (.uploadOffset, .fromStatic "0".toList), (.uploadChecksum, ⟨[0xff]⟩)] }
  env := .permissive .b
  choice := ()

end Unchecked

open Unchecked in
theorem checksum_holds_iff_patch :
    ChecksumHolds handler interp patch.env patch.req created ∧
      (ChecksumHolds handler interp patch.env patch.req created ↔
        (Passes handler patch created → Covered handler patch.req)) := by
  obtain ⟨hall, hmemory⟩ := checksum_holds_iff handler
  exact ⟨hall _ interp patch.env patch.req created pureReads patch_carries patch_covered,
    hmemory patch created (.step create .initial) patch_carries⟩

open Unchecked in
/-- Both requests are answered with success, and neither digest was looked at. -/
theorem checksum_is_skipped :
    (Carries plain post.req ∧
      (backend.serve plain post backend.initial).1.map TusResponse.status = some 201 ∧
      ¬ ChecksumHolds plain interp post.env post.req backend.initial) ∧
    Carries handler binaryPatch.req ∧
      (backend.serve handler binaryPatch created).1.map TusResponse.status = some 204 ∧
      ¬ ChecksumHolds handler interp binaryPatch.env binaryPatch.req created := by
  have hpost : (backend.serve plain post backend.initial).1.map TusResponse.status = some 201 := by
    decide +kernel
  have hpatch : (backend.serve handler binaryPatch created).1.map TusResponse.status =
      some 204 := by
    decide +kernel
  refine ⟨⟨⟨rfl, rfl, .inr ⟨rfl, ?_⟩⟩, hpost, fun hholds => ?_⟩,
    ⟨rfl, rfl, .inl ⟨rfl, Option.some_ne_none _⟩⟩, hpatch, fun hholds => ?_⟩
  · exact Option.some_ne_none _
  · obtain ⟨resp, hresp, hstatus⟩ := Option.map_eq_some_iff.mp hpost
    obtain ⟨text, algorithm, expected, buf, htext, hparse, -, hdigest⟩ :=
      hholds resp hresp (by omega)
    obtain rfl := Option.some.inj htext
    obtain ⟨-, rfl⟩ := Prod.mk.inj (Except.ok.inj hparse)
    have hne : Crates.fixed.digest .sha1 [] ≠ [0, 0, 0] := by decide
    exact hne hdigest
  · obtain ⟨resp, hresp, hstatus⟩ := Option.map_eq_some_iff.mp hpatch
    obtain ⟨text, -, -, -, htext, -⟩ := hholds resp hresp (by omega)
    have hnone : HeaderMap.getStr binaryPatch.req.headers .uploadChecksum = none := by
      decide +kernel
    rw [hnone] at htext
    cases htext

end Fileloft.MemoryStore
