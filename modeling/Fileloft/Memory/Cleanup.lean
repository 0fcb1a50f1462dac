import Fileloft.Memory.Events

/-!
# Removing the partials of a final upload

The ids of a final upload come from its creator, and the cleanup looks each
of them up again after it has removed the ones before.
-/

namespace Fileloft.MemoryStore

open Handler Post

section Cleanup

variable {h : TusHandler} {x : Exchange backend} {w w' : World MemoryStore} {p : Parsed}
  {info : UploadInfo} {entry : MemoryUploadState} {deleted : List UploadId}

/-- The final upload `id` is answered with its partials joined, each of them is
removed with one event, and nothing else is. -/
structure Tidied (w w' : World MemoryStore) (answer : Option TusResponse) (id : UploadId)
    (ids : List UploadId) : Prop where
  created : answer.map TusResponse.status = some 201
  joined : dataOf w'.store id = ids.flatMap (dataOf w.store)
  terminated : ∀ i ∈ ids, w'.store i = none ∧
    wordOf i w'.events = wordOf i w.events ++ [.terminated]
  kept : ∀ i, i ∉ ids → i ≠ id → w'.store i = w.store i

/-- The `Location` of the new upload is a header value. -/
def Located (h : TusHandler) (req : TusRequest) (id : UploadId) : Prop :=
  HeaderValue.fromStr (buildLocation h id req) ≠ none

theorem exists_createdHeaders_error_iff {req : TusRequest} :
    (∃ e, createdHeaders h req info = .error e) ↔ ¬ Located h req info.id := by
  unfold createdHeaders Located
  cases HeaderValue.fromStr (buildLocation h info.id req) <;> simp

theorem stored_id {st : MemoryStore} {req : TusRequest} :
    (stored h req st p info).info.id = info.id := by
  unfold stored filled joined
  split <;> split <;> rfl

/-- Nothing stops the creation of a final upload that names its partials once. -/
theorem not_stops_of_nodup (hbody : uploadBody h x.req = none)
    (hparts : ∀ i ∈ info.partialUploads, ∃ info', IsPart interp w.store i info')
    (hterminate : ∀ info', x.env.terminateAnswer h info' = .ok ())
    (hfinish : ∀ info', x.env.finishAnswer h info' = .ok ())
    (hnodup : info.partialUploads.Nodup) (hid : info.id ∉ info.partialUploads)
    (hlocated : Located h x.req info.id) :
    ¬ Stops h x.env x.req w.store p info entry deleted := by
  have hready : Ready w.store p info := fun _ => ⟨hid, hparts⟩
  have haccepted (i : UploadId) : Accepted h x.env w.store i := fun _ _ => hterminate _
  intro hstops
  cases hstops with
  | parts hunready => exact hunready hready
  | body _ hunfit =>
      apply hunfit
      intro body hsome
      rw [hbody] at hsome
      cases hsome
  | removal _ _ _ hids _ _ hstop =>
      rcases hstop with hmem | hrefused
      · rw [hids] at hnodup
        exact (List.nodup_append.mp hnodup).2.2 _ hmem _ List.mem_cons_self rfl
      · exact hrefused (haccepted _)
  | finish _ _ _ hstop =>
      rcases hstop with ⟨-, e, hrefused⟩ | hheaders
      · rw [hfinish] at hrefused
        cases hrefused
      · rw [exists_createdHeaders_error_iff, stored_id] at hheaders
        exact hheaders hlocated

theorem wordOf_cleanup {gone : List UploadId} {tail : List HookEvent} {i : UploadId}
    (hevents : w'.events = w.events ++ gone.map .uploadTerminated ++ tail) (hnodup : gone.Nodup)
    (hannounces : Announces info.id tail) (hi : i ∈ gone) (hne : i ≠ info.id) :
    wordOf i w'.events = wordOf i w.events ++ [.terminated] := by
  have htail : ∀ e ∈ tail, e.id ≠ i := by
    rcases hannounces with rfl | ⟨info', hid, rfl | rfl⟩
    · simp
    · simp [HookEvent.id, hid, hne.symm]
    · simp [HookEvent.id, hid, hne.symm]
  rw [hevents, wordOf_append, wordOf_append, wordOf_terminated hnodup hi, wordOf_of_ne htail,
    List.append_nil]

/-- A final upload of complete partials removes them as it should exactly when
it names each of them once, is none of them itself, and can be located: a
repeated partial is not found again. -/
theorem final_tidies_iff (hw : backend.Reachable h w)
    (hchannel : 0 < h.config.hooks.channelCapacity)
    (hconcat : h.config.extensions.concatenation = true)
    (hcleanup : h.config.extensions.cleanupConcatPartials = true) (hmethod : x.req.method = .post)
    (hprepare : prepare h x.env x.req = .ok (p, info)) (hfinal : p.isFinal = true)
    (hbody : uploadBody h x.req = none)
    (hparts : ∀ i ∈ info.partialUploads, ∃ info', IsPart interp w.store i info')
    (hterminate : ∀ info', x.env.terminateAnswer h info' = .ok ())
    (hfinish : ∀ info', x.env.finishAnswer h info' = .ok ()) :
    Tidied w (backend.serve h x w).2 (backend.serve h x w).1 info.id info.partialUploads ↔
      info.partialUploads.Nodup ∧ info.id ∉ info.partialUploads ∧ Located h x.req info.id := by
  have hkeyed := keyed_of_reachable hw
  have hp := prepare_ok hprepare
  have htidies : tidies h p = true := by simp [tidies, hfinal, hconcat, hcleanup]
  have hremoved : removed h p info = info.partialUploads := if_pos htidies
  have hserve : backend.serve h x w =
      (respond h ((create h x.req p info).run (handlerInterp interp x.env) w).1,
        ((create h x.req p info).run (handlerInterp interp x.env) w).2) := by
    have heq := serve_eq interp x.env h w x.req
    rw [TusHandler.dispatch, hmethod, Post.run_handle, hprepare] at heq
    exact heq
  constructor
  · intro htidied
    have hpass : ∀ entry deleted, ¬ Stops h x.env x.req w.store p info entry deleted := by
      intro entry deleted hstops
      obtain ⟨e, w', hrun, -⟩ := hstops.run hkeyed hp
      have hcreated := htidied.created
      rw [hserve, hrun] at hcreated
      have hstatus : (h.errorResponse e).status = 201 := Option.some.inj hcreated
      have := h.errorResponse_status e
      omega
    obtain ⟨hready, hfits, hnodup, haccepted⟩ := of_not_stops hpass
    refine ⟨hremoved ▸ hnodup, (hready hfinal).1, ?_⟩
    by_contra hlost
    apply hpass _ _ (.finish hready hfits ⟨hnodup, haccepted⟩ (.inr ?_))
    rw [exists_createdHeaders_error_iff, stored_id]
    exact hlost
  · rintro ⟨hnodup, hid, hlocated⟩
    obtain ⟨resp, w', hrun, hstatus, hstore⟩ := run_create_pass hkeyed hp fun entry deleted =>
      not_stops_of_nodup hbody hparts hterminate hfinish hnodup hid hlocated
    have hafter : (backend.serve h x w).2.store =
        left w.store info (stored h x.req w.store p info) info.partialUploads := by
      rw [hserve, hrun, hstore, hremoved]
    have hgone {i : UploadId} (hi : i ∈ info.partialUploads) :
        (backend.serve h x w).2.store i = none := by
      have hne : i ≠ info.id := fun heq => hid (heq ▸ hi)
      rw [hafter, left, Function.update_of_ne hne]
      exact if_pos hi
    refine ⟨?_, ?_, fun i hi => ⟨hgone hi, ?_⟩, fun i hi hne => ?_⟩
    · rw [hserve, hrun]
      exact congrArg some hstatus
    · have hentry : (backend.serve h x w).2.store info.id =
          some (joinedEntry info (info.partialUploads.flatMap (dataOf w.store))) := by
        rw [hafter, left, Function.update_self]
        simp only [stored, filled, hbody, MemoryStore.joined, hfinal, if_true]
      rw [dataOf, hentry]
      rfl
    · have hne : i ≠ info.id := fun heq => hid (heq ▸ hi)
      obtain ⟨info', hpart⟩ := hparts i hi
      obtain ⟨entry, hentry, -⟩ := IsPart.entry hpart
      obtain ⟨gone, tail, hevents, hgoneNodup, hannounces, -, hkept⟩ :=
        events_prepared hchannel hkeyed hmethod hprepare
      apply wordOf_cleanup hevents hgoneNodup hannounces _ hne
      by_contra hnot
      have hstill := hkept i hnot hne
      rw [hgone hi, hentry] at hstill
      cases hstill
    · rw [hafter, left, Function.update_of_ne hne]
      exact if_neg hi

end Cleanup

theorem isPart_of_entry {st : MemoryStore} {id : UploadId} {entry : MemoryUploadState}
    (hentry : st id = some entry) (hflag : entry.info.isPartial = true)
    (hcomplete : entry.info.isComplete = true) : IsPart interp st id entry.info where
  found := by simp [interp, getUpload, hentry]
  stored := by simp [interp, getInfo, hentry]
  isPartial := hflag
  isComplete := hcomplete

namespace ListedTwice

def handler : TusHandler :=
  ⟨{ extensions := { concatenation := true, cleanupConcatPartials := true }
     hooks := { channelCapacity := 1 } }, true, .fixed⟩

/-- A partial upload of two bytes, created with its content. -/
def partialPost (uuid : Uuid) : Exchange backend where
  req := .ofTexts .post none [(.tusResumable, "1.0.0"), (.uploadLength, "2"),
    (.uploadConcat, "partial"), (.contentType, "application/offset+octet-stream")] (some [97, 98])
  env := .permissive uuid
  choice := ()

/-- The final upload of both partials. -/
def once : Exchange backend where
  req := .ofTexts .post none [(.tusResumable, "1.0.0"), (.uploadConcat,
    "final;/files/a1234567-89ab-4cde-8fed-0123456789ab /files/b1234567-89ab-4cde-8fed-0123456789ab")]
    none
  env := .permissive .c
  choice := ()

/-- The final upload of one partial, twice. -/
def twice : Exchange backend where
  req := .ofTexts .post none [(.tusResumable, "1.0.0"), (.uploadConcat,
    "final;/files/a1234567-89ab-4cde-8fed-0123456789ab /files/a1234567-89ab-4cde-8fed-0123456789ab")]
    none
  env := .permissive .c
  choice := ()

def before : World MemoryStore :=
  (backend.serve handler (partialPost .b)
    (backend.serve handler (partialPost .a) backend.initial).2).2

theorem reachable_before : backend.Reachable handler before :=
  .step (partialPost .b) (.step (partialPost .a) .initial)

theorem isPart_of_mem {i : UploadId} (hi : i ∈ [UploadId.new .a, .new .b]) :
    ∃ info, IsPart interp before.store i info := by
  have hparts : [UploadId.new .a, .new .b].all (fun i =>
      (before.store i).any fun entry => entry.info.isPartial && entry.info.isComplete) = true := by
    decide +kernel
  have hany := List.all_eq_true.mp hparts i hi
  rw [Option.any_eq_true] at hany
  obtain ⟨entry, hentry, hflags⟩ := hany
  rw [Bool.and_eq_true] at hflags
  exact ⟨entry.info, isPart_of_entry hentry hflags.1 hflags.2⟩

theorem prepared {req : TusRequest} {id : UploadId} {ids : List UploadId}
    (hfields : (prepare handler (.permissive .c) req).toOption.map
      (fun r => (r.1.isFinal, r.2.id, r.2.partialUploads)) = some (true, id, ids)) :
    ∃ p info, prepare handler (.permissive .c) req = .ok (p, info) ∧ p.isFinal = true ∧
      info.id = id ∧ info.partialUploads = ids := by
  cases hprepare : prepare handler (.permissive .c) req with
  | error e => simp [hprepare, Except.toOption] at hfields
  | ok r => exact ⟨r.1, r.2, rfl, by simpa [hprepare, Except.toOption] using hfields⟩

end ListedTwice

open ListedTwice in
theorem final_tidies_iff_once :
    (Tidied before (backend.serve handler once before).2 (backend.serve handler once before).1
        (.new .c) [.new .a, .new .b] ↔
      [UploadId.new .a, .new .b].Nodup ∧ UploadId.new .c ∉ [UploadId.new .a, .new .b] ∧
        Located handler once.req (.new .c)) ∧
    [UploadId.new .a, .new .b].Nodup ∧ UploadId.new .c ∉ [UploadId.new .a, .new .b] ∧
      Located handler once.req (.new .c) := by
  have hhandler : 0 < handler.config.hooks.channelCapacity := by decide
  obtain ⟨p, info, hprepare, hfinal, hid, hids⟩ :=
    @prepared once.req (.new .c) [.new .a, .new .b] (by decide +kernel)
  constructor
  · rw [← hid, ← hids]
    exact final_tidies_iff reachable_before hhandler rfl rfl rfl hprepare hfinal rfl
      (fun i hi => isPart_of_mem (hids ▸ hi)) (fun _ => rfl) (fun _ => rfl)
  · exact ⟨by decide, by decide, by unfold Located; decide +kernel⟩

open ListedTwice in
/-- A partial that is listed twice is removed once, and then not found. -/
theorem cleanup_misses_repeated :
    backend.Reachable handler before ∧ twice.req.method = .post ∧
      (∃ p info, prepare handler twice.env twice.req = .ok (p, info) ∧ p.isFinal = true ∧
        info.id = .new .c ∧ info.partialUploads = [.new .a, .new .a]) ∧
      uploadBody handler twice.req = none ∧
      (∀ i ∈ [UploadId.new .a, .new .a], ∃ info, IsPart interp before.store i info) ∧
      (∀ info, twice.env.terminateAnswer handler info = .ok ()) ∧
      (∀ info, twice.env.finishAnswer handler info = .ok ()) ∧
      (backend.serve handler twice before).1.map TusResponse.status = some 404 ∧
      ¬ Tidied before (backend.serve handler twice before).2 (backend.serve handler twice before).1
        (.new .c) [.new .a, .new .a] := by
  have hstatus : (backend.serve handler twice before).1.map TusResponse.status = some 404 := by
    decide +kernel
  refine ⟨reachable_before, rfl, prepared (by decide +kernel), rfl, fun i hi => ?_, fun _ => rfl,
    fun _ => rfl, hstatus, fun htidied => ?_⟩
  · apply isPart_of_mem
    simp only [List.mem_cons, List.not_mem_nil, or_false, or_self] at hi ⊢
    exact .inl hi
  · have hcreated := htidied.created
    rw [hstatus] at hcreated
    cases hcreated

end Fileloft.MemoryStore
