import Fileloft.Server.Calls
import Fileloft.Server.Creation
import Fileloft.Server.Patch

/-!
# Downloads and the `pre_finish` callback

A download is answered once the store has the data of a complete upload. The
callback is asked after the store was filled, so what it refuses, and what
stops before it, may already be there to read.
-/

namespace Fileloft

open Handler

section Approval

variable {σ : Type} (impl : Interp StoreSig σ)

/-- The store would answer a download of `id`. -/
def Readable (s : σ) (id : UploadId) : Prop :=
  ∃ content, (impl (.readContent id) s).1 = .ok content

/-- The `pre_finish` callback accepted an upload `id`. -/
def Approved (log : List Obs) (id : UploadId) : Prop :=
  ∃ info : UploadInfo, info.id = id ∧ Obs.preFinish info (.ok ()) ∈ log

/-- The request fills `id` up to the callback: with the record to show to it,
or with the error that stops the request before it. -/
inductive Submits (h : TusHandler) (env : Env) (req : TusRequest) (s : σ) :
    UploadId → Except TusError UploadInfo → σ → Prop where
  | patch {id : UploadId} {info : UploadInfo} {size : Option ℕ} (hmethod : req.method = .patch)
      (ha : Patch.Admits impl h env req s id info size) :
      Submits h env req s id (Patch.filling impl h req id info.offset size s).1
        (Patch.filling impl h req id info.offset size s).2
  | post {p : Post.Parsed} {info : UploadInfo} (hmethod : req.method = .post)
      (hprepare : Post.prepare h env req = .ok (p, info)) :
      Submits h env req s info.id (Post.building impl h env req p info s).1
        (Post.building impl h env req p info s).2

/-- The callback is asked, and accepts. -/
def Passes (h : TusHandler) (env : Env) : Except TusError UploadInfo → Prop
  | .ok info => env.finishAnswer h info = .ok ()
  | .error _ => False

/-- A call that makes no data of `id` readable. -/
def Quiet (id : UploadId) : StoreOp → Prop
  | .getUpload _ | .getInfo _ | .readContent _ | .delete _ => True
  | o => o.target ≠ id

/-- The uploads whose ids satisfy `K` become readable only by the calls that
fill them, in the states that satisfy `I`. -/
structure Publishes (K : UploadId → Prop) (I : σ → Prop) : Prop where
  reads : PureReads impl
  establishes : ∀ o s, I s → Establishes K (.store o) (impl o s).1
  preserves : ∀ o s, (∀ id ∈ o.handle, K id) → I s → I (impl o s).2
  quiet : ∀ o s id, (∀ i ∈ o.handle, K i) → I s → K id → Quiet id o →
    Readable impl (impl o s).2 id → Readable impl s id
  named : ∀ s id info, I s → K id → (impl (.getInfo id) s).1 = .ok info → info.id = id
  complete : ∀ s id info, I s → K id → (impl (.getInfo id) s).1 = .ok info →
    Readable impl s id → info.isComplete = true

end Approval

theorem Approved.mono {log : List Obs} {id : UploadId} (happroved : Approved log id)
    (l : List Obs) : Approved (log ++ l) id := by
  obtain ⟨info, hid, hmem⟩ := happroved
  exact ⟨info, hid, List.mem_append_left l hmem⟩

section Stages

variable {σ : Type} {impl : Interp StoreSig σ} {h : TusHandler} {env : Env} {req : TusRequest}
  {K : UploadId → Prop} {I : σ → Prop} {id : UploadId} {s : σ}

/-- The calls of a handler keep the invariant of the store. -/
theorem Publishes.run_preserves {α : Type} {C : StoreOp → Prop} {J : σ → Prop} {p : Handler α}
    (hpub : Publishes impl K I) (hp : Makes C K p)
    (hJ : ∀ o s, C o → (∀ id ∈ o.handle, K id) → I s → J s → J (impl o s).2) {w : World σ}
    (hw : I w.store) (hj : J w.store) :
    I (p.run (handlerInterp impl env) w).2.store ∧
      J (p.run (handlerInterp impl env) w).2.store := by
  refine Prog.Uses.run_preserves (I := fun w : World σ => I w.store ∧ J w.store) hp
    (fun o w hw => ?_) (fun o w ho hw => ?_) ⟨hw, hj⟩
  · cases o with
    | store o => exact hpub.establishes o w.store hw.1
    | _ => trivial
  · cases o with
    | store o =>
        simp only [handlerInterp, World.noteStore_store]
        exact ⟨hpub.preserves o w.store ho.2 hw.1, hJ o w.store ho.1 ho.2 hw.1 hw.2⟩
    | _ => exact hw

namespace Patch

theorem filling_info {offset : ℕ} {size : Option ℕ} {s' : σ}
    {newInfo : UploadInfo} (hfill : filling impl h req id offset size s = (.ok newInfo, s')) :
    (impl (.getInfo id) s').1 = .ok newInfo := by
  obtain ⟨_, s₁, -, hchunk⟩ := andThen_eq_ok.mp hfill
  obtain ⟨_, s₂, -, hlast⟩ := andThen_eq_ok.mp hchunk
  obtain ⟨hinfo, rfl⟩ := Prod.mk.inj hlast
  exact hinfo

/-- What both calls of a PATCH keep, it keeps up to the callback. -/
theorem filling_keeps {J : σ → Prop} {offset : ℕ} {size : Option ℕ}
    (hdeclare : ∀ length s, J s → J (impl (.declareLength id length) s).2)
    (hwrite : ∀ reader s, J s → J (impl (.writeChunk id offset reader) s).2) (hs : J s) :
    J (filling impl h req id offset size s).2 := by
  apply andThen_preserves
  · cases size with
    | none => exact hs
    | some declaredSize => exact hdeclare declaredSize s hs
  · intro _ s₁ hlength
    have hs₁ : J s₁ := by
      cases size with
      | none =>
          obtain ⟨-, rfl⟩ := Prod.mk.inj hlength
          exact hs
      | some declaredSize =>
          have hnext := hdeclare declaredSize s hs
          simp only at hlength
          rwa [hlength] at hnext
    apply andThen_preserves
    · cases chunkReader h req with
      | error e => exact hs₁
      | ok reader => exact hwrite reader s₁ hs₁
    · intro _ s₂ hchunk
      cases hreader : chunkReader h req with
      | error e => simp [hreader] at hchunk
      | ok reader =>
          have hnext := hwrite reader s₁ hs₁
          simp only [hreader] at hchunk
          rwa [hchunk] at hnext

theorem filling_preserves (hpub : Publishes impl K I) (hid : K id) {offset : ℕ} {size : Option ℕ}
    (hs : I s) : I (filling impl h req id offset size s).2 :=
  filling_keeps (fun _ s => hpub.preserves _ s (StoreOp.forall_handle hid))
    (fun _ s => hpub.preserves _ s (StoreOp.forall_handle hid)) hs

end Patch

namespace Post

theorem removing_preserves (hpub : Publishes impl K I) (ids : List UploadId) (hs : I s) :
    I (removing impl h env ids s).2 := by
  induction ids generalizing s with
  | nil => exact hs
  | cons i ids ih =>
      rw [removing]
      cases hremovable : removable impl h env i s with
      | error e => exact hs
      | ok _ =>
          have hfound : (impl (.getUpload i) s).1 = .ok () := by
            simp only [removable, bind_eq_ok] at hremovable
            exact hremovable.choose_spec.1
          have hK : K i := hpub.establishes (.getUpload i) s hs hfound
          have hnext := hpub.preserves (.delete i) s (StoreOp.forall_handle hK) hs
          simp only
          cases (impl (.delete i) s).1 with
          | error e => exact hnext
          | ok _ => exact ih hnext

theorem joining_preserves (hpub : Publishes impl K I) {p : Parsed} {info : UploadInfo}
    (hid : K info.id) (hs : I s) : I (joining impl h p info s).2 := by
  unfold joining
  split
  · cases fetched impl s info.partialUploads with
    | error e => exact hs
    | ok infos => exact hpub.preserves _ s (StoreOp.forall_handle hid) hs
  · exact hs

theorem writing_preserves (hpub : Publishes impl K I) (hid : K id) (hs : I s) :
    I (writing impl h req id s).2 := by
  unfold writing
  cases uploadBody h req with
  | none => exact hs
  | some body => exact hpub.preserves _ s (StoreOp.forall_handle hid) hs

theorem filling_preserves (hpub : Publishes impl K I) {p : Parsed} {info : UploadInfo}
    (hid : K info.id) (hs : I s) : I (filling impl h env req p info s).2 := by
  have hjoin := joining_preserves (h := h) (p := p) hpub hid hs
  apply andThen_preserves hjoin
  intro _ s₁ heq
  rw [heq] at hjoin
  have hwrite : I (writing impl h req info.id s₁).2 := writing_preserves hpub hid hjoin
  apply andThen_preserves hwrite
  intro n s₂ heq
  rw [heq] at hwrite
  apply andThen_preserves
  · exact hwrite
  intro finalInfo s₃ hcheck
  obtain ⟨-, rfl⟩ := Prod.mk.inj hcheck
  unfold tidying
  split
  · have hremove : I (removing impl h env finalInfo.partialUploads s₂).2 :=
      removing_preserves hpub finalInfo.partialUploads hwrite
    apply andThen_preserves hremove
    intro _ s₄ heq
    rwa [heq] at hremove
  · exact hwrite

theorem filling_info {p : Parsed} {info finalInfo : UploadInfo} {s' : σ}
    (hfill : filling impl h env req p info s = (.ok finalInfo, s')) :
    (impl (.getInfo info.id) s').1 = .ok finalInfo := by
  obtain ⟨_, s₁, -, hfill⟩ := andThen_eq_ok.mp hfill
  obtain ⟨n, s₂, -, hfill⟩ := andThen_eq_ok.mp hfill
  obtain ⟨checked, s₃, hcheck, htidy⟩ := andThen_eq_ok.mp hfill
  obtain ⟨hrecord, rfl⟩ := Prod.mk.inj hcheck
  unfold tidying at htidy
  split at htidy
  · obtain ⟨_, s₄, -, hlast⟩ := andThen_eq_ok.mp htidy
    obtain ⟨hinfo, rfl⟩ := Prod.mk.inj hlast
    exact hinfo
  · obtain ⟨heq, rfl⟩ := Prod.mk.inj htidy
    obtain rfl : checked = finalInfo := Except.ok.inj heq
    obtain ⟨finalInfo, hinfo, hrest⟩ := bind_eq_ok.mp hrecord
    obtain ⟨_, -, hlast⟩ := bind_eq_ok.mp hrest
    obtain rfl : finalInfo = checked := Except.ok.inj hlast
    exact hinfo

end Post

end Stages

section Serve

variable {σ : Type} {impl : Interp StoreSig σ} {h : TusHandler} {env : Env} {req : TusRequest}
  {K : UploadId → Prop} {I : σ → Prop} {w : World σ}

end Serve

namespace Backend

variable {B : Backend} {h : TusHandler}

end Backend

end Fileloft
