import Fileloft.Memory.Creation
import Fileloft.Memory.Patch
import Fileloft.Server.Calls

/-!
# Sizes and offsets over the in-memory store

Which requests keep every offset within its size, and which keep all of them
within the configured maximum.
-/

namespace Fileloft.MemoryStore

open Handler

section Run

variable {h : TusHandler} {x : Exchange backend} {w : World MemoryStore}

/-- A request that is neither POST nor PATCH at most deletes. -/
theorem serve_other {I : MemoryStore → Prop} (hdelete : ∀ st id, I st → I (delete st id).2)
    (hpost : x.req.method ≠ .post) (hpatch : x.req.method ≠ .patch) (hw : I w.store) :
    I (backend.serve h x w).2.store := by
  have hstep (o : StoreOp) (st : MemoryStore) (ho : ∃ id, Reads id o ∨ Deletes id o)
      (hst : I st) : I (interp o st).2 := by
    cases o with
    | getUpload _ | getInfo _ | finalize _ | readContent _ => exact hst
    | delete id => exact hdelete st id hst
    | createUpload _ | writeChunk _ _ _ | declareLength _ _ | concatenate _ _ =>
        simp [Reads, Deletes] at ho
  have hserve : (backend.serve h x w).2 =
      ((h.dispatch x.req).run (handlerInterp interp x.env) w).2 :=
    congrArg Prod.snd (serve_eq interp x.env h w x.req)
  rw [hserve]
  exact (TusHandler.makes_other hpost hpatch).run_preserves hstep hw

/-- A PATCH is refused with the store as it was, or appends its chunk, or
leaves at most its declared length. -/
theorem serve_patch (hmethod : x.req.method = .patch) :
    ((∀ id info size, ¬ Patch.Admits interp h x.env x.req w.store id info size) ∧
      (backend.serve h x w).2.store = w.store) ∨
    ∃ id info size, Patch.Admits interp h x.env x.req w.store id info size ∧
      ((∃ buf, Appends h x.req info size buf ∧ (backend.serve h x w).2.store =
          (writeChunk (declared w.store id size) id info.offset (.ok buf)).2) ∨
        (∀ buf, ¬ Appends h x.req info size buf) ∧
          (backend.serve h x w).2.store = declared w.store id size) := by
  have hserve : (backend.serve h x w).2 =
      ((Patch.handle h x.req).run (handlerInterp interp x.env) w).2 := by
    have heq := serve_eq interp x.env h w x.req
    rw [TusHandler.dispatch, hmethod] at heq
    exact congrArg Prod.snd heq
  rw [hserve, Patch.run_handle pureReads]
  cases hadm : Patch.admission interp h x.env x.req w.store with
  | error e =>
      refine .inl ⟨fun id info size ha => ?_, rfl⟩
      rw [Patch.admission_eq_ok.mpr ha] at hadm
      cases hadm
  | ok r =>
      obtain ⟨id, info, size⟩ := r
      have ha := Patch.admission_eq_ok.mp hadm
      refine .inr ⟨id, info, size, ha, ?_⟩
      rcases run_accept ha with ⟨buf, happends, hrun⟩ | ⟨e, hnone, hrun⟩
      · obtain ⟨-, -, -, entry, hentry, -⟩ := declared_entry ha
        obtain ⟨entry', hentry'⟩ := writeChunk_isSome hentry
        refine .inl ⟨buf, happends, ?_⟩
        simp only [hrun]
        exact (run_finish hentry').1
      · exact .inr ⟨hnone, by simp only [hrun]⟩

/-- Every upload in the store satisfies `P`. -/
def Every (P : MemoryUploadState → Prop) (st : MemoryStore) : Prop :=
  ∀ id entry, st id = some entry → P entry

section Every

variable {P : MemoryUploadState → Prop} {st : MemoryStore} {id : UploadId}
  {entry : MemoryUploadState}

theorem Every.update (hst : Every P st) (hentry : P entry) :
    Every P (Function.update st id (some entry)) := by
  intro id' entry' hentry'
  by_cases heq : id' = id
  · subst heq
    rw [Function.update_self, Option.some.injEq] at hentry'
    exact hentry' ▸ hentry
  · rw [Function.update_of_ne heq] at hentry'
    exact hst id' entry' hentry'

theorem Every.without (hst : Every P st) (ids : List UploadId) : Every P (without st ids) := by
  intro id entry hentry
  unfold MemoryStore.without at hentry
  split at hentry
  · cases hentry
  · exact hst id entry hentry

theorem Every.delete (hst : Every P st) (id : UploadId) : Every P (delete st id).2 := by
  unfold MemoryStore.delete
  cases st id with
  | none => exact hst
  | some _ =>
      intro id' entry hentry
      by_cases heq : id' = id
      · simp [heq] at hentry
      · exact hst id' entry (by simpa [heq] using hentry)

theorem every_initial : Every P backend.initial.store := fun id entry hentry => by cases hentry

/-- A creation keeps what holds of the slot it leaves. -/
theorem Every.left (hst : Every P st) (hentry : P entry) (info : UploadInfo)
    (deleted : List UploadId) : Every P (left st info entry deleted) :=
  (hst.without deleted).update hentry

end Every

/-- Every offset is within the size, where there is one. -/
def Bounded (st : MemoryStore) : Prop :=
  Every (fun entry => ∀ size, entry.info.size = some size → entry.info.offset ≤ size) st

/-- No PATCH declares a length below the offset it continues from. -/
def Measured (h : TusHandler) (w : World MemoryStore) (x : Exchange backend) : Prop :=
  x.req.method = .patch → ∀ id info declaredSize,
    Patch.Admits interp h x.env x.req w.store id info (some declaredSize) →
      info.offset ≤ declaredSize

variable {st : MemoryStore} {id : UploadId} {entry : MemoryUploadState}

/-- A chunk that is accepted ends within the size. -/
theorem Bounded.writeChunk (hst : Bounded st) (id : UploadId) (offset : ℕ) (reader : Reader) :
    Bounded (writeChunk st id offset reader).2 := by
  unfold MemoryStore.writeChunk
  cases reader with
  | error e => exact hst
  | ok buf =>
      cases st id with
      | none => exact hst
      | some entry =>
          simp only
          cases hend : chunkEnd entry.info offset buf.length with
          | error e => exact hst
          | ok finish =>
              obtain ⟨rfl, -, hfits⟩ := chunkEnd_eq_ok.mp hend
              exact Every.update hst hfits

theorem leaves_bounded {req : TusRequest} {p : Post.Parsed} {info : UploadInfo}
    (hoffset : info.offset = 0) (hleaves : Leaves h req st p info entry) :
    ∀ size, entry.info.size = some size → entry.info.offset ≤ size := by
  have hjoined : ∀ size, (joined st p info).info.size = some size →
      (joined st p info).info.offset ≤ size := by
    unfold joined
    split
    · intro size hsize
      exact (Option.some.inj hsize).le
    · intro size _
      rw [hoffset]
      exact Nat.zero_le size
  cases hleaves with
  | created =>
      intro size _
      rw [hoffset]
      exact Nat.zero_le size
  | joined => exact hjoined
  | stored _ hfits =>
      unfold stored filled
      cases hbody : Post.uploadBody h req with
      | none => exact hjoined
      | some body =>
          obtain ⟨buf, rfl, -, hsize⟩ := hfits body hbody
          exact hsize

/-- A declared length keeps the bound exactly when it is not below the offset. -/
theorem declared_bounded_iff {env : Env} {req : TusRequest} {info : UploadInfo} {size : Option ℕ}
    (hst : Bounded st) (ha : Patch.Admits interp h env req st id info size) :
    Bounded (declared st id size) ↔
      ∀ declaredSize, size = some declaredSize → info.offset ≤ declaredSize := by
  cases size with
  | none => exact iff_of_true hst (by simp)
  | some declaredSize =>
      obtain ⟨entry, hentry, rfl⟩ := entry_of_admits ha
      have hnone := (Patch.declaredLength_eq_some ha.length).1
      simp only [declared, declareLength, hentry, hnone, Option.isSome_none, Bool.false_eq_true,
        if_false, Option.some.injEq, forall_eq']
      constructor
      · intro hbounded
        exact hbounded id _ (Function.update_self ..) declaredSize rfl
      · intro hle
        apply Every.update hst
        rintro size ⟨⟩
        exact hle

theorem bounded_serve_iff (hkeyed : Keyed w.store) (hw : Bounded w.store) (x : Exchange backend) :
    Bounded (backend.serve h x w).2.store ↔ Measured h w x := by
  by_cases hpatch : x.req.method = .patch
  · rcases serve_patch (h := h) (w := w) hpatch with ⟨hnone, hstore⟩ | ⟨id, info, size, ha, hcases⟩
    · rw [hstore]
      exact iff_of_true hw fun _ id info _ ha => absurd ha (hnone id info _)
    have hmeasured : Measured h w x ↔
        ∀ declaredSize, size = some declaredSize → info.offset ≤ declaredSize := by
      constructor
      · rintro hall declaredSize rfl
        exact hall hpatch id info declaredSize ha
      · intro hall _ id' info' declaredSize ha'
        obtain ⟨-, rfl, hsize⟩ := ha.unique ha'
        exact hall declaredSize hsize
    rw [hmeasured, ← declared_bounded_iff hw ha]
    rcases hcases with ⟨buf, happends, hstore⟩ | ⟨-, hstore⟩
    · rw [hstore]
      have hdeclared : Bounded (declared w.store id size) := by
        rw [declared_bounded_iff hw ha]
        rintro declaredSize rfl
        exact (Nat.le_add_right _ _).trans (happends.fits declaredSize rfl)
      exact iff_of_true (hdeclared.writeChunk id info.offset (.ok buf)) hdeclared
    · rw [hstore]
  · refine iff_of_true ?_ fun hmethod => absurd hmethod hpatch
    by_cases hpost : x.req.method = .post
    · rcases hprepare : Post.prepare h x.env x.req with e | ⟨p, info⟩
      · have hsame : (backend.serve h x w).2 = w := Post.serve_unprepared hpost hprepare
        rw [hsame]
        exact hw
      · obtain ⟨entry, deleted, hleaves, -, -, hstore⟩ := serve_post hkeyed hpost hprepare
        rw [hstore]
        exact Every.left hw (leaves_bounded (Post.prepare_ok hprepare).offset hleaves) info deleted
    · exact serve_other (fun st id hst => Every.delete hst id) hpost hpatch hw

/-- In a run whose PATCH requests declare no length below their offset, every
offset is within its size, and a further request keeps that exactly when it
does not either. -/
theorem offset_le_size_iff {w : World MemoryStore}
    (hrun : backend.Follows h (Measured h) backend.initial w) :
    Bounded w.store ∧ ∀ x, Bounded (backend.serve h x w).2.store ↔ Measured h w x := by
  have hbounded : backend.Reachable h w ∧ Bounded w.store := by
    apply hrun.invariant (I := fun w => backend.Reachable h w ∧ Bounded w.store)
    · exact ⟨.initial, every_initial⟩
    · intro w x hx hw
      exact ⟨.step x hw.1, (bounded_serve_iff (keyed_of_reachable hw.1) hw.2 x).mpr hx⟩
  exact ⟨hbounded.2, fun x => bounded_serve_iff (keyed_of_reachable hbounded.1) hbounded.2 x⟩

end Run

namespace LateLength

def handler : TusHandler := ⟨{}, true, .fixed⟩

/-- Two bytes of an upload whose length is not known yet. -/
def post : Exchange backend where
  req := .ofTexts .post none [(.tusResumable, "1.0.0"), (.uploadDeferLength, "1"),
    (.contentType, "application/offset+octet-stream")] (some [97, 98])
  env := .permissive .a
  choice := ()

/-- Declare one byte for them, and send nothing. -/
def patch : Exchange backend where
  req := .ofTexts .patch (some "a1234567-89ab-4cde-8fed-0123456789ab")
    [(.tusResumable, "1.0.0"), (.contentType, "application/offset+octet-stream"),
      (.uploadOffset, "2"), (.uploadLength, "1")] (some [])
  env := .permissive .b
  choice := ()

def deferred : World MemoryStore := (backend.serve handler post backend.initial).2

/-- Declare three bytes, and send the last one. -/
def declaring : Exchange backend where
  req := .ofTexts .patch (some "a1234567-89ab-4cde-8fed-0123456789ab")
    [(.tusResumable, "1.0.0"), (.contentType, "application/offset+octet-stream"),
      (.uploadOffset, "2"), (.uploadLength, "3")] (some [99])
  env := .permissive .b
  choice := ()

def declared : World MemoryStore := backend.serveAll handler [post, declaring] backend.initial

/-- A length that a PATCH declares is not below the stored offset. -/
def measures (w : World MemoryStore) (x : Exchange backend) : Bool :=
  (Patch.admission interp handler x.env x.req w.store).toOption.all fun (_, info, size) =>
    size.all fun declaredSize => info.offset ≤ declaredSize

theorem measured_of_measures {w : World MemoryStore} {x : Exchange backend}
    (hx : measures w x = true) : Measured handler w x := by
  intro _ id info declaredSize ha
  simpa [measures, Patch.admission_eq_ok.mpr ha, Except.toOption] using hx

theorem evaluated : backend.passes handler measures [post, declaring] backend.initial = true ∧
    (declared.store (.new .a)).map (fun entry => (entry.info.offset, entry.info.size)) =
      some (3, some 3) := by
  decide +kernel

end LateLength

open LateLength in
theorem offset_le_size_iff_declared :
    (LateLength.declared.store (.new .a)).map (fun entry => (entry.info.offset, entry.info.size)) =
        some (3, some 3) ∧
      Bounded LateLength.declared.store ∧
      ∀ x, Bounded (backend.serve handler x LateLength.declared).2.store ↔
        Measured handler LateLength.declared x :=
  ⟨evaluated.2,
    offset_le_size_iff (.serveAll (fun _ _ => measured_of_measures) LateLength.evaluated.1)⟩

open LateLength in
/-- A length below the stored bytes is recorded. -/
theorem late_length_below_offset :
    backend.Reachable handler (backend.serve handler patch deferred).2 ∧
      ((backend.serve handler patch deferred).2.store (.new .a)).map (fun entry =>
        (entry.info.offset, entry.info.size)) = some (2, some 1) ∧
      ¬ Bounded (backend.serve handler patch deferred).2.store := by
  have hslot : ((backend.serve handler patch deferred).2.store (.new .a)).map (fun entry =>
      (entry.info.offset, entry.info.size)) = some (2, some 1) := by
    decide +kernel
  refine ⟨.step patch (.step post .initial), hslot, fun hbounded => ?_⟩
  obtain ⟨entry, hentry, hinfo⟩ := Option.map_eq_some_iff.mp hslot
  obtain ⟨hoffset, hsize⟩ := Prod.mk.inj hinfo
  have hle := hbounded _ entry hentry 1 hsize
  omega

end Fileloft.MemoryStore
