import Fileloft.Memory.Final
import Fileloft.Server.Secrecy

/-!
# The bytes of one upload over the in-memory store

Two stores that differ only in the buffer of an upload that is not a partial
stay so, and answer alike whatever does not read that buffer.
-/

namespace Fileloft.MemoryStore

open Handler

section Slots

variable {u id : UploadId} {st st' : MemoryStore} {slot slot' : Option MemoryUploadState}

/-- Two slots of an upload that differ at most in the buffer of `u`. -/
def Masked (u id : UploadId) (slot slot' : Option MemoryUploadState) : Prop :=
  slot = none ∧ slot' = none ∨
    ∃ info data data', slot = some ⟨info, data⟩ ∧ slot' = some ⟨info, data'⟩ ∧
      (id ≠ u → data = data') ∧ (id = u → info.isPartial = false)

/-- The stores differ at most in the buffer of `u`, which is not a partial. -/
structure Apart (u : UploadId) (st st' : MemoryStore) : Prop where
  keyed : Keyed st
  slots : ∀ id, Masked u id (st id) (st' id)

theorem Apart.eq (hst : Apart u st st') (hne : id ≠ u) : st id = st' id := by
  rcases hst.slots id with ⟨hnone, hnone'⟩ | ⟨info, data, data', hsome, hsome', hdata, -⟩
  · rw [hnone, hnone']
  · rw [hsome, hsome', hdata hne]

theorem Apart.update (hst : Apart u st st') (hslot : Masked u id slot slot')
    (hid : ∀ entry, slot = some entry → entry.info.id = id) :
    Apart u (Function.update st id slot) (Function.update st' id slot') where
  keyed := by
    cases slot with
    | some entry => exact hst.keyed.update (hid entry rfl)
    | none =>
        intro i entry hentry
        rw [Function.update_apply] at hentry
        split at hentry
        · cases hentry
        · exact hst.keyed i entry hentry
  slots i := by
    by_cases hi : i = id
    · subst hi
      rw [Function.update_self, Function.update_self]
      exact hslot
    · rw [Function.update_of_ne hi, Function.update_of_ne hi]
      exact hst.slots i

/-- The partials of a final upload are the same in both stores. -/
theorem Apart.combined (hst : Apart u st st') {partials : List UploadInfo}
    (hpartials : ∀ info ∈ partials, info.id ≠ u) :
    MemoryStore.combined st partials = MemoryStore.combined st' partials := by
  induction partials with
  | nil => rfl
  | cons info infos ih =>
      obtain ⟨hne, hrest⟩ := List.forall_mem_cons.mp hpartials
      rw [MemoryStore.combined, MemoryStore.combined, ih hrest, hst.eq hne]

/-- Chunks of the same length are accepted alike, whatever their bytes. -/
theorem Apart.writeChunk (hst : Apart u st st') {offset : ℕ} {buf buf' : Bytes}
    (hlength : buf.length = buf'.length) (hbytes : id ≠ u → buf = buf') :
    (writeChunk st id offset (.ok buf)).1 = (MemoryStore.writeChunk st' id offset (.ok buf')).1 ∧
      Apart u (MemoryStore.writeChunk st id offset (.ok buf)).2
        (MemoryStore.writeChunk st' id offset (.ok buf')).2 := by
  rcases hst.slots id with ⟨hnone, hnone'⟩ | ⟨info, data, data', hsome, hsome', hdata, hwhole⟩
  · simp only [MemoryStore.writeChunk, hnone, hnone']
    exact ⟨trivial, hst⟩
  · simp only [MemoryStore.writeChunk, hsome, hsome', ← hlength]
    cases chunkEnd info offset buf.length with
    | error e => exact ⟨rfl, hst⟩
    | ok finish =>
        refine ⟨rfl, hst.update (.inr ⟨_, _, _, rfl, rfl, fun hne => ?_, hwhole⟩) ?_⟩
        · rw [hdata hne, hbytes hne]
        · have hid : info.id = id := hst.keyed id ⟨info, data⟩ hsome
          rintro _ ⟨⟩
          exact hid

theorem Apart.declareLength (hst : Apart u st st') (id : UploadId) (length : ℕ) :
    (declareLength st id length).1 = (MemoryStore.declareLength st' id length).1 ∧
      Apart u (MemoryStore.declareLength st id length).2
        (MemoryStore.declareLength st' id length).2 := by
  rcases hst.slots id with ⟨hnone, hnone'⟩ | ⟨info, data, data', hsome, hsome', hdata, hwhole⟩
  · simp only [MemoryStore.declareLength, hnone, hnone']
    exact ⟨trivial, hst⟩
  · simp only [MemoryStore.declareLength, hsome, hsome']
    split
    · exact ⟨rfl, hst⟩
    · have hid : info.id = id := hst.keyed id ⟨info, data⟩ hsome
      refine ⟨rfl, hst.update (.inr ⟨_, _, _, rfl, rfl, hdata, hwhole⟩) ?_⟩
      rintro _ ⟨⟩
      exact hid

theorem Apart.delete (hst : Apart u st st') (id : UploadId) :
    (delete st id).1 = (MemoryStore.delete st' id).1 ∧
      Apart u (MemoryStore.delete st id).2 (MemoryStore.delete st' id).2 := by
  rcases hst.slots id with ⟨hnone, hnone'⟩ | ⟨info, data, data', hsome, hsome', -, -⟩
  · simp only [MemoryStore.delete, hnone, hnone']
    exact ⟨trivial, hst⟩
  · simp only [MemoryStore.delete, hsome, hsome']
    exact ⟨trivial, hst.update (.inl ⟨rfl, rfl⟩) fun _ hentry => by cases hentry⟩

theorem Apart.concatenate (hst : Apart u st st') (id : UploadId) {partials : List UploadInfo}
    (hpartials : ∀ info ∈ partials, info.id ≠ u) :
    (concatenate st id partials).1 = (MemoryStore.concatenate st' id partials).1 ∧
      Apart u (MemoryStore.concatenate st id partials).2
        (MemoryStore.concatenate st' id partials).2 := by
  simp only [MemoryStore.concatenate, ← hst.combined hpartials]
  cases MemoryStore.combined st partials with
  | error e => exact ⟨rfl, hst⟩
  | ok joined =>
      rcases hst.slots id with ⟨hnone, hnone'⟩ | ⟨info, data, data', hsome, hsome', -, hwhole⟩
      · simp only [hnone, hnone']
        exact ⟨trivial, hst⟩
      · simp only [hsome, hsome']
        have hid : info.id = id := hst.keyed id ⟨info, data⟩ hsome
        refine ⟨trivial, hst.update (.inr ⟨_, _, _, rfl, rfl, fun _ => rfl, hwhole⟩) ?_⟩
        rintro _ ⟨⟩
        exact hid

theorem hides (u : UploadId) : Hides interp (Apart u) u where
  reads := pureReads
  blind := by
    intro o st st' ho hst
    cases o with
    | createUpload info =>
        refine ⟨rfl, hst.update (.inr ⟨_, _, _, rfl, rfl, fun _ => rfl, ho⟩) ?_⟩
        rintro _ ⟨⟩
        rfl
    | getUpload id =>
        refine ⟨?_, hst⟩
        rcases hst.slots id with ⟨hnone, hnone'⟩ | ⟨info, data, data', hsome, hsome', -, -⟩
        · simp only [interp, getUpload, hnone, hnone']
        · simp only [interp, getUpload, hsome, hsome', Option.isSome_some]
    | getInfo id =>
        refine ⟨?_, hst⟩
        rcases hst.slots id with ⟨hnone, hnone'⟩ | ⟨info, data, data', hsome, hsome', -, -⟩
        · simp only [interp, getInfo, hnone, hnone']
        · simp only [interp, getInfo, hsome, hsome']
    | writeChunk id offset reader =>
        cases reader with
        | error e => exact ⟨rfl, hst⟩
        | ok buf => exact hst.writeChunk rfl fun _ => rfl
    | finalize id => exact ⟨rfl, hst⟩
    | delete id => exact hst.delete id
    | declareLength id length => exact hst.declareLength id length
    | concatenate id partials => exact hst.concatenate id ho
    | readContent id =>
        refine ⟨?_, hst⟩
        simp only [interp, readContent, hst.eq ho]
  whole := by
    rintro id st st' info hst hinfo hpart rfl
    have hid : info.id = id := id_of_getInfo hst.keyed hinfo
    rcases hst.slots id with ⟨hnone, -⟩ | ⟨info', data, data', hsome, -, -, hwhole⟩
    · simp [interp, getInfo, hnone] at hinfo
    · obtain rfl : info' = info := by simpa [interp, getInfo, hsome] using hinfo
      rw [hwhole hid.symm] at hpart
      cases hpart
  written := fun offset buf buf' st st' hst hlength =>
    hst.writeChunk hlength fun hne => absurd rfl hne
  content := fun _ _ hst => hst

end Slots

section Run

variable {h : TusHandler} {u : UploadId}

/-- Runs that differ only in the bytes sent to `u`, which is never a partial:
the same response to every request but a download of `u`, and every other
upload the same after it. -/
theorem other_uploads_unaffected {xs ys : List (Exchange backend)}
    (hxs : List.Forall₂ (Variant h u) xs ys) (hwhole : ∀ x ∈ xs, KeepsWhole h x.env x.req u) :
    List.Forall₂ (fun a b => (¬ Downloads a.1.req u → a.2.1 = b.2.1) ∧
        ∀ id, id ≠ u → a.2.2.store id = b.2.2.store id)
      (backend.steps h xs backend.initial) (backend.steps h ys backend.initial) := by
  have hinitial : Beside (Apart u) backend.initial backend.initial := by
    refine ⟨⟨fun id entry hentry => ?_, fun id => .inl ⟨rfl, rfl⟩⟩, rfl⟩
    cases hentry
  have halike := steps_alike (fun _ => hides u) hxs hwhole hinitial
  refine halike.imp fun a b hab => ⟨hab.1, fun id hne => ?_⟩
  exact hab.2.store.eq hne

end Run

namespace TwoChunks

def handler : TusHandler :=
  ⟨{ extensions := { concatenation := true, cleanupConcatPartials := true } }, true, .fixed⟩

def post : Exchange backend where
  req := .ofTexts .post none [(.tusResumable, "1.0.0"), (.uploadLength, "2")] none
  env := .permissive .a
  choice := ()

def patchOf (bytes : Bytes) : TusRequest :=
  .ofTexts .patch (some "a1234567-89ab-4cde-8fed-0123456789ab")
    [(.tusResumable, "1.0.0"), (.contentType, "application/offset+octet-stream"),
      (.uploadOffset, "0")] (some bytes)

def patch : Exchange backend := ⟨patchOf [97, 98], .permissive .b, ()⟩

def patch' : Exchange backend := ⟨patchOf [99, 100], .permissive .b, ()⟩

/-- Two bytes of a partial upload beside it. -/
def part : Exchange backend where
  req := .ofTexts .post none [(.tusResumable, "1.0.0"), (.uploadLength, "2"),
    (.uploadConcat, "partial"), (.contentType, "application/offset+octet-stream")] (some [97, 98])
  env := .permissive .b
  choice := ()

/-- The final upload of that one, which is then removed. -/
def final : Exchange backend where
  req := .ofTexts .post none [(.tusResumable, "1.0.0"),
    (.uploadConcat, "final;/files/b1234567-89ab-4cde-8fed-0123456789ab")] none
  env := .permissive .c
  choice := ()

def uploadId : UploadId := .new post.env.uuid

/-- The request does not create the upload as a partial one. -/
def keepsWhole (x : Exchange backend) : Bool :=
  (Post.prepare handler x.env x.req).toOption.all fun (p, info) =>
    info.id != uploadId || !p.isPartial

theorem evaluated : (requestId (patchOf [97, 98])).toOption = some uploadId ∧
    [post, part, patch, final].all keepsWhole = true ∧
    HeaderMap.containsKey (patchOf [97, 98]).headers .uploadChecksum = false ∧
    ((backend.serveAll handler [post, part, patch, final] backend.initial).store
      (.new .c)).isSome = true := by
  decide +kernel

theorem variant_patch : Variant handler uploadId patch patch' := by
  obtain ⟨hid, -, hunchecked, -⟩ := evaluated
  refine .bytes patch (patchOf [99, 100]) ⟨⟨[97, 98], [99, 100], rfl, rfl, rfl⟩, hunchecked⟩ ?_
  refine ⟨fun _ => ?_, fun hmethod => by cases hmethod⟩
  change requestId (patchOf [97, 98]) = .ok uploadId
  cases hrequest : requestId (patchOf [97, 98]) with
  | error e => simp [hrequest, Except.toOption] at hid
  | ok id =>
      rw [hrequest] at hid
      exact congrArg _ (Option.some.inj hid)

theorem keepsWhole_of_mem {x : Exchange backend} (hx : x ∈ [post, part, patch, final]) :
    KeepsWhole handler x.env x.req uploadId := by
  rintro - p info hprepare hid
  have hall := List.all_eq_true.mp evaluated.2.1 x hx
  simpa [keepsWhole, hprepare, hid, Except.toOption] using hall

end TwoChunks

open TwoChunks in
theorem other_uploads_unaffected_final :
    ((backend.serveAll handler [post, part, patch, final] backend.initial).store
        (.new .c)).isSome = true ∧
      List.Forall₂ (fun a b => (¬ Downloads a.1.req uploadId → a.2.1 = b.2.1) ∧
          ∀ id, id ≠ uploadId → a.2.2.store id = b.2.2.store id)
        (backend.steps handler [post, part, patch, final] backend.initial)
        (backend.steps handler [post, part, patch', final] backend.initial) :=
  ⟨evaluated.2.2.2, other_uploads_unaffected
    (.cons (.same post) (.cons (.same part) (.cons variant_patch (.cons (.same final) .nil))))
    fun _ => keepsWhole_of_mem⟩

end Fileloft.MemoryStore
