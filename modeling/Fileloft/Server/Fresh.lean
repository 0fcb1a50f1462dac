import Fileloft.Server.Calls
import Fileloft.Server.Post

/-!
# Requests that leave an upload its own

A request that does not create an upload again only looks it up, appends to
it, completes it or deletes it.
-/

namespace Fileloft

open Handler

variable {σ : Type} {impl : Interp StoreSig σ} {h : TusHandler} {env : Env} {req : TusRequest}
  {id : UploadId}

/-- The calls that start an upload over. -/
def Renews (id : UploadId) : StoreOp → Prop
  | .createUpload info => info.id = id
  | .concatenate id' _ => id' = id
  | _ => False

/-- The request does not settle on `id` for a new upload. -/
def Spares (h : TusHandler) (env : Env) (req : TusRequest) (id : UploadId) : Prop :=
  ∀ p info, req.method = .post → Post.prepare h env req = .ok (p, info) → info.id ≠ id

theorem Reads.not_renews {id' : UploadId} {o : StoreOp} (ho : Reads id' o) : ¬ Renews id o := by
  cases o <;> first | exact fun hid => hid | cases ho

theorem Deletes.not_renews {id' : UploadId} {o : StoreOp} (ho : Deletes id' o) : ¬ Renews id o := by
  cases o <;> first | exact fun hid => hid | cases ho

theorem Appends.not_renews {id' : UploadId} {o : StoreOp} (ho : Appends id' o) : ¬ Renews id o := by
  cases o <;> first | exact fun hid => hid | cases ho

theorem Fills.not_renews {id' : UploadId} {o : StoreOp} (hne : id' ≠ id) (ho : Fills id' o) :
    ¬ Renews id o := by
  cases o with
  | concatenate id'' _ => exact fun hid => hne (ho.symm.trans hid)
  | createUpload _ => cases ho
  | _ => exact False.elim

/-- What the calls that do not start `id` over preserve, a request that
spares `id` preserves. -/
theorem Spares.preserves {I : σ → Prop} {w : World σ} (hspares : Spares h env req id)
    (hI : ∀ o s, ¬ Renews id o → I s → I (impl o s).2) (hw : I w.store) :
    I (serve h impl env req w).2.store := by
  have hrun {p : Handler TusResponse} (hp : Makes (fun o => ¬ Renews id o) (fun _ => True) p) :
      I (p.run (handlerInterp impl env) w).2.store := hp.run_preserves hI hw
  rw [serve_eq]
  unfold TusHandler.dispatch
  cases hmethod : req.method with
  | options => exact hrun Options.makes
  | head => exact hrun (Head.makes fun _ _ _ => Reads.not_renews)
  | get => exact hrun (Get.makes fun _ _ _ => Reads.not_renews)
  | delete => exact hrun (Delete.makes fun _ _ _ => Deletes.not_renews)
  | patch => exact hrun (Patch.makes fun _ _ _ _ => Appends.not_renews)
  | other _ => exact hw
  | post =>
      simp only [Post.run_handle]
      rcases hprepare : Post.prepare h env req with e | ⟨p, info⟩
      · exact hw
      · have hne := hspares p info hmethod hprepare
        refine hrun (Post.makes_create.mono fun o ho => ?_)
        rcases ho with rfl | ho
        · exact hne
        · exact ho.not_renews hne

end Fileloft
