import Fileloft.Memory.Bounds

/-!
# Deferred lengths over the in-memory store

The mark of a deferred length and the missing length come from two headers.
Which creations keep them together.
-/

namespace Fileloft.MemoryStore

open Handler

/-- The length is deferred exactly when there is none. -/
def Consistent (info : UploadInfo) : Prop := info.sizeIsDeferred = true ↔ info.size = none

/-- A creation announces a length or defers it, and not both. A final upload
that joins its partials gets their length, and defers nothing. -/
structure Declares (h : TusHandler) (w : World MemoryStore) (x : Exchange backend) : Prop where
  joined : x.req.method = .post → ∀ p info, Post.prepare h x.env x.req = .ok (p, info) →
    p.isFinal = true → Ready w.store p info → p.defer = false
  announced : x.req.method = .post → ∀ p info, Post.prepare h x.env x.req = .ok (p, info) →
    ¬ (p.isFinal = true ∧ Ready w.store p info) → (p.defer = true ↔ p.uploadLength = none)

variable {h : TusHandler} {x : Exchange backend} {w : World MemoryStore} {st : MemoryStore}
  {id : UploadId} {entry : MemoryUploadState} {req : TusRequest} {p : Post.Parsed}
  {info : UploadInfo}

theorem filled_size : (filled h req entry).info.size = entry.info.size := by
  unfold filled
  split <;> rfl

theorem filled_deferred : (filled h req entry).info.sizeIsDeferred = entry.info.sizeIsDeferred := by
  unfold filled
  split <;> rfl

/-- A body written with the creation changes neither field. -/
theorem leaves_joined (hleaves : Leaves h req st p info entry) (hready : Ready st p info) :
    entry.info.size = (joined st p info).info.size ∧
      entry.info.sizeIsDeferred = (joined st p info).info.sizeIsDeferred := by
  cases hleaves with
  | created hnot => exact absurd hready hnot
  | joined => exact ⟨rfl, rfl⟩
  | stored => exact ⟨filled_size, filled_deferred⟩

/-- The slot of a final upload that joined its partials. -/
theorem joined_consistent_iff (hprepared : Post.Prepared h req p info) (hfinal : p.isFinal = true)
    (hready : Ready st p info) (hleaves : Leaves h req st p info entry) :
    Consistent entry.info ↔ p.defer = false := by
  obtain ⟨hsize, hdeferred⟩ := leaves_joined hleaves hready
  have hjoined : joined st p info =
      joinedEntry info (info.partialUploads.flatMap (dataOf st)) := by
    rw [joined, if_pos hfinal]
  rw [hjoined] at hsize hdeferred
  have hflag : entry.info.sizeIsDeferred = p.defer := hdeferred.trans hprepared.deferred
  rw [Consistent, hsize, hflag]
  simp [joinedEntry]

/-- The slot of every other creation. -/
theorem announced_consistent_iff (hprepared : Post.Prepared h req p info)
    (hother : ¬ (p.isFinal = true ∧ Ready st p info)) (hleaves : Leaves h req st p info entry) :
    Consistent entry.info ↔ (p.defer = true ↔ p.uploadLength = none) := by
  have hentry : entry.info.size = info.size ∧
      entry.info.sizeIsDeferred = info.sizeIsDeferred := by
    by_cases hready : Ready st p info
    · have hplain : p.isFinal = false := by
        rw [← Bool.not_eq_true]
        exact fun hfinal => hother ⟨hfinal, hready⟩
      have hjoined : joined st p info = ⟨info, []⟩ := by simp [joined, hplain]
      have hsame := leaves_joined hleaves hready
      rwa [hjoined] at hsame
    · cases hleaves with
      | created => exact ⟨rfl, rfl⟩
      | joined hready' | stored hready' => exact absurd hready' hready
  rw [Consistent, hentry.1, hentry.2, hprepared.size, hprepared.deferred]

/-- A PATCH that declares a length clears the mark with it. -/
theorem consistent_declareLength (hst : Every (fun entry => Consistent entry.info) st)
    (id : UploadId) (length : ℕ) :
    Every (fun entry => Consistent entry.info) (declareLength st id length).2 := by
  unfold MemoryStore.declareLength
  split
  · exact hst
  · next entry _ =>
      split
      · exact hst
      · apply hst.update
        simp [Consistent]

theorem consistent_writeChunk (hst : Every (fun entry => Consistent entry.info) st)
    (id : UploadId) (offset : ℕ) (reader : Reader) :
    Every (fun entry => Consistent entry.info) (writeChunk st id offset reader).2 := by
  unfold MemoryStore.writeChunk
  split
  · exact hst
  · split
    · exact hst
    · next entry hentry =>
        split
        · exact hst
        · apply hst.update
          exact hst id entry hentry

theorem every_left_iff {P : MemoryUploadState → Prop} (hst : Every P st) (info : UploadInfo)
    (deleted : List UploadId) : Every P (left st info entry deleted) ↔ P entry := by
  constructor
  · intro hevery
    exact hevery info.id entry (Function.update_self ..)
  · intro hentry
    exact hst.left hentry info deleted

theorem consistent_serve_iff (hkeyed : Keyed w.store)
    (hw : Every (fun entry => Consistent entry.info) w.store) (x : Exchange backend) :
    Every (fun entry => Consistent entry.info) (backend.serve h x w).2.store ↔
      Declares h w x := by
  by_cases hpost : x.req.method = .post
  · rcases hprepare : Post.prepare h x.env x.req with e | ⟨p, info⟩
    · have hsame : (backend.serve h x w).2 = w := Post.serve_unprepared hpost hprepare
      rw [hsame]
      refine iff_of_true hw ⟨fun _ p info hok => ?_, fun _ p info hok => ?_⟩
      · cases hprepare.symm.trans hok
      · cases hprepare.symm.trans hok
    obtain ⟨entry, deleted, hleaves, -, -, hstore⟩ := serve_post hkeyed hpost hprepare
    have hprepared := Post.prepare_ok hprepare
    have hsame {p' : Post.Parsed} {info' : UploadInfo}
        (hok : Post.prepare h x.env x.req = .ok (p', info')) : p = p' ∧ info = info' :=
      Prod.mk.inj (Except.ok.inj (hprepare.symm.trans hok))
    rw [hstore, every_left_iff hw]
    by_cases hjoins : p.isFinal = true ∧ Ready w.store p info
    · rw [joined_consistent_iff hprepared hjoins.1 hjoins.2 hleaves]
      constructor
      · intro hdefer
        refine ⟨fun _ p' info' hok _ _ => ?_, fun _ p' info' hok hother => ?_⟩
        · obtain ⟨rfl, rfl⟩ := hsame hok
          exact hdefer
        · obtain ⟨rfl, rfl⟩ := hsame hok
          exact absurd hjoins hother
      · intro hx
        exact hx.joined hpost p info hprepare hjoins.1 hjoins.2
    · rw [announced_consistent_iff hprepared hjoins hleaves]
      constructor
      · intro hlength
        refine ⟨fun _ p' info' hok hfinal hready => ?_, fun _ p' info' hok _ => ?_⟩
        · obtain ⟨rfl, rfl⟩ := hsame hok
          exact absurd ⟨hfinal, hready⟩ hjoins
        · obtain ⟨rfl, rfl⟩ := hsame hok
          exact hlength
      · intro hx
        exact hx.announced hpost p info hprepare hjoins
  · have hdeclares : Declares h w x :=
      ⟨fun hmethod => absurd hmethod hpost, fun hmethod => absurd hmethod hpost⟩
    refine iff_of_true ?_ hdeclares
    by_cases hpatch : x.req.method = .patch
    · rcases serve_patch (h := h) (w := w) hpatch with ⟨-, hstore⟩ | ⟨id, info, size, -, hcases⟩
      · rw [hstore]
        exact hw
      · have hdeclared : Every (fun entry => Consistent entry.info) (declared w.store id size) := by
          cases size with
          | none => exact hw
          | some length => exact consistent_declareLength hw id length
        rcases hcases with ⟨buf, -, hstore⟩ | ⟨-, hstore⟩
        · rw [hstore]
          exact consistent_writeChunk hdeclared id info.offset (.ok buf)
        · rw [hstore]
          exact hdeclared
    · exact serve_other (fun st id hst => hst.delete id) hpost hpatch hw

/-- In a run whose creations announce a length or defer it, the mark of every
upload agrees with its size, and a further request keeps that exactly when it
is such a one. -/
theorem deferred_iff_unsized {w : World MemoryStore}
    (hrun : backend.Follows h (Declares h) backend.initial w) :
    Every (fun entry => Consistent entry.info) w.store ∧
      ∀ x, Every (fun entry => Consistent entry.info) (backend.serve h x w).2.store ↔
        Declares h w x := by
  have hconsistent : backend.Reachable h w ∧
      Every (fun entry => Consistent entry.info) w.store := by
    apply hrun.invariant (I := fun w => backend.Reachable h w ∧
      Every (fun entry => Consistent entry.info) w.store)
    · exact ⟨.initial, every_initial⟩
    · intro w x hx hw
      exact ⟨.step x hw.1, (consistent_serve_iff (keyed_of_reachable hw.1) hw.2 x).mpr hx⟩
  exact ⟨hconsistent.2,
    fun x => consistent_serve_iff (keyed_of_reachable hconsistent.1) hconsistent.2 x⟩

namespace BothHeaders

def handler : TusHandler := ⟨{}, true, .fixed⟩

/-- A length of five bytes that is deferred all the same. -/
def post : Exchange backend where
  req := .ofTexts .post none [(.tusResumable, "1.0.0"), (.uploadLength, "5"),
    (.uploadDeferLength, "1")] none
  env := .permissive .a
  choice := ()

end BothHeaders

namespace OneHeader

def handler : TusHandler := ⟨{ extensions := { concatenation := true } }, true, .fixed⟩

/-- A partial upload of one byte. -/
def sized : Exchange backend where
  req := .ofTexts .post none [(.tusResumable, "1.0.0"), (.uploadLength, "1"),
    (.uploadConcat, "partial"), (.contentType, "application/offset+octet-stream")] (some [97])
  env := .permissive .a
  choice := ()

/-- An upload whose length is deferred. -/
def deferred : Exchange backend where
  req := .ofTexts .post none [(.tusResumable, "1.0.0"), (.uploadDeferLength, "1")] none
  env := .permissive .b
  choice := ()

/-- A final upload of the partial one. -/
def final : Exchange backend where
  req := .ofTexts .post none [(.tusResumable, "1.0.0"),
    (.uploadConcat, "final;/files/a1234567-89ab-4cde-8fed-0123456789ab")] none
  env := .permissive .c
  choice := ()

def world : World MemoryStore := backend.serveAll handler [sized, deferred, final] backend.initial

/-- A creation that has one of the two headers, or finds its partials and
defers nothing. -/
def admits (w : World MemoryStore) (x : Exchange backend) : Bool :=
  x.req.method == .post && (Post.prepare handler x.env x.req).toOption.all fun (p, info) =>
    if p.isFinal then !p.defer && info.id ∉ info.partialUploads &&
      (Post.fetched interp w.store info.partialUploads).toOption.isSome
    else p.defer == p.uploadLength.isNone

theorem declares_of_admits {w : World MemoryStore} {x : Exchange backend} (hx : admits w x = true) :
    Declares handler w x := by
  simp only [admits, Bool.and_eq_true] at hx
  refine ⟨fun _ p info hok hfinal _ => ?_, fun _ p info hok hother => ?_⟩
  · have hdefer := hx.2
    simp only [hok, Except.toOption, Option.all_some, hfinal, if_true, Bool.and_eq_true] at hdefer
    simpa using hdefer.1.1
  · have hp := hx.2
    simp only [hok, Except.toOption, Option.all_some] at hp
    split at hp
    · next hfinal =>
        simp only [Bool.and_eq_true, decide_eq_true_eq] at hp
        obtain ⟨⟨-, hne⟩, hfetched⟩ := hp
        cases hfetch : Post.fetched interp w.store info.partialUploads with
        | error e => simp [hfetch] at hfetched
        | ok infos => exact absurd ⟨hfinal, ready_of_fetched hne hfetch⟩ hother
    · rw [beq_iff_eq] at hp
      rw [hp, Option.isNone_iff_eq_none]

theorem evaluated : backend.passes handler admits [sized, deferred, final] backend.initial = true ∧
    [Uuid.a, .b, .c].map (fun u => (world.store (.new u)).map fun entry =>
      (entry.info.sizeIsDeferred, entry.info.size)) =
        [some (false, some 1), some (true, none), some (false, some 1)] := by
  decide +kernel

end OneHeader

open OneHeader in
theorem deferred_iff_unsized_run :
    [Uuid.a, .b, .c].map (fun u => (world.store (.new u)).map fun entry =>
        (entry.info.sizeIsDeferred, entry.info.size)) =
          [some (false, some 1), some (true, none), some (false, some 1)] ∧
      Every (fun entry => Consistent entry.info) world.store ∧
      ∀ x, Every (fun entry => Consistent entry.info) (backend.serve handler x world).2.store ↔
        Declares handler world x :=
  ⟨evaluated.2, deferred_iff_unsized (.serveAll (fun _ _ => declares_of_admits) evaluated.1)⟩

open BothHeaders in
/-- The length is recorded and the mark of a deferred length with it. -/
theorem sized_upload_is_deferred :
    backend.Reachable handler (backend.serve handler post backend.initial).2 ∧
      (backend.serve handler post backend.initial).1.map TusResponse.status = some 201 ∧
      ((backend.serve handler post backend.initial).2.store (.new .a)).map (fun entry =>
        (entry.info.sizeIsDeferred, entry.info.size)) = some (true, some 5) ∧
      ¬ Every (fun entry => Consistent entry.info)
        (backend.serve handler post backend.initial).2.store := by
  have hslot : ((backend.serve handler post backend.initial).2.store (.new .a)).map (fun entry =>
      (entry.info.sizeIsDeferred, entry.info.size)) = some (true, some 5) := by
    decide +kernel
  refine ⟨.step post .initial, by decide +kernel, hslot, fun hevery => ?_⟩
  obtain ⟨entry, hentry, hfields⟩ := Option.map_eq_some_iff.mp hslot
  obtain ⟨hdeferred, hsize⟩ := Prod.mk.inj hfields
  have hnone := (hevery _ entry hentry).mp hdeferred
  rw [hsize] at hnone
  cases hnone

end Fileloft.MemoryStore
