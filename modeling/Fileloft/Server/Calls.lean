import Fileloft.Server.Rules

/-!
# The store calls of the handlers

Which store calls each handler can make, and on which uploads. A handle is
only used for an upload that the handler created or found.
-/

namespace Fileloft

open Handler

/-- Neither a store call, nor an operation on a lock, nor an event. -/
def Unshared : HandlerOp → Prop
  | .store _ | .acquire _ | .release _ | .emit _ => False
  | _ => True

section Uses

variable {α : Type} {U : HandlerOp → Prop} {G : (o : HandlerSig.Op) → HandlerSig.Ans o → Prop}
  {h : TusHandler}

theorem uses_check (r : Except TusError α) : (check r).Uses U G := by
  cases r <;> trivial

theorem uses_ensure (cond : Bool) (e : TusError) : (ensure cond e).Uses U G := by
  cases cond <;> trivial

theorem uses_store {o : StoreOp} (ho : U (.store o)) : (store o).Uses U G :=
  ⟨ho, fun r _ => uses_check r⟩

theorem uses_emit {event : HookEvent} (he : U (.emit event)) : (emit h event).Uses U G := by
  unfold emit
  split
  · exact ⟨he, fun _ _ => trivial⟩
  · trivial

variable (hU : ∀ o, Unshared o → U o)
include hU

theorem uses_now : now.Uses U G := ⟨hU _ trivial, fun _ _ => trivial⟩

theorem uses_newUuid : newUuid.Uses U G := ⟨hU _ trivial, fun _ _ => trivial⟩

theorem uses_preFinish (info : UploadInfo) : (preFinish h info).Uses U G := by
  unfold preFinish
  split
  · exact ⟨hU _ trivial, fun r _ => uses_check r⟩
  · trivial

theorem uses_preTerminate (info : UploadInfo) : (preTerminate h info).Uses U G := by
  unfold preTerminate
  split
  · exact ⟨hU _ trivial, fun r _ => uses_check r⟩
  · trivial

theorem uses_preCreate (info : UploadInfo) : (preCreate h info).Uses U G := by
  unfold preCreate
  split
  · refine ⟨hU _ trivial, fun r _ => (uses_check r).bind fun changes => ?_⟩
    exact (uses_check _).bind fun _ => trivial
  · trivial

theorem uses_checkExpiry (expiresAt : Option DateTime) : (checkExpiry expiresAt).Uses U G := by
  cases expiresAt with
  | none => trivial
  | some t => exact (uses_now hU).bind fun clock => uses_ensure _ _

theorem uses_expiry : (Post.expiry h).Uses U G := by
  unfold Post.expiry
  split
  · split
    · refine (uses_now hU).bind fun clock => (uses_check _).bind fun d => ?_
      split <;> trivial
    · trivial
  · trivial

theorem uses_finishIfComplete {id : UploadId} (info : UploadInfo)
    (hfinalize : U (.store (.finalize id)))
    (he : U (.emit (.uploadFinished info))) : (finishIfComplete h id info).Uses U G := by
  unfold finishIfComplete
  split
  · refine (uses_preFinish hU info).bind fun _ => ?_
    exact (uses_store hfinalize).bind fun _ => uses_emit he
  · trivial

end Uses

/-- The store calls of a handler satisfy `C`. -/
def OnStore (C : StoreOp → Prop) : HandlerOp → Prop
  | .store o => C o
  | _ => True

/-- What creating or finding an upload establishes about it. -/
def Establishes (K : UploadId → Prop) : (o : HandlerOp) → o.Ans → Prop
  | .store (.createUpload info), r => r = .ok () → K info.id
  | .store (.getUpload id), r => r = .ok () → K id
  | _, _ => True

/-- The store calls of `p` satisfy `C`, and their handles `K`. -/
def Makes {α : Type} (C : StoreOp → Prop) (K : UploadId → Prop) (p : Handler α) : Prop :=
  p.Uses (OnStore fun o => C o ∧ ∀ id ∈ o.handle, K id) (Establishes K)

section Makes

variable {α β : Type} {C : StoreOp → Prop} {K : UploadId → Prop} {h : TusHandler}

theorem Makes.mono {C' : StoreOp → Prop} {p : Handler α} (hp : Makes C K p)
    (hC : ∀ o, C o → C' o) : Makes C' K p :=
  Prog.Uses.mono hp fun o ho => by
    cases o with
    | store o => exact ⟨hC o ho.1, ho.2⟩
    | _ => trivial

theorem Makes.bind {p : Handler α} {f : α → Handler β} (hp : Makes C K p)
    (hf : ∀ a, Makes C K (f a)) : Makes C K (p.bind f) := Prog.Uses.bind hp hf

theorem makes_ret (a : α) : Makes C K (.ret a) := trivial

theorem onStore_of_unshared (o : HandlerOp) (ho : Unshared o) :
    OnStore (fun o => C o ∧ ∀ id ∈ o.handle, K id) o := by
  cases o with
  | store _ => exact ho.elim
  | _ => trivial

theorem makes_check (r : Except TusError α) : Makes C K (check r) := uses_check r

theorem makes_check_bind {r : Except TusError α} {f : α → Handler β}
    (hf : ∀ a, r = .ok a → Makes C K (f a)) : Makes C K ((check r).bind f) := by
  cases r with
  | ok a => exact hf a rfl
  | error e => trivial

theorem makes_ensure (cond : Bool) (e : TusError) : Makes C K (ensure cond e) := uses_ensure cond e

theorem makes_store {o : StoreOp} (hC : C o) (hK : ∀ id ∈ o.handle, K id) :
    Makes C K (store o) := uses_store ⟨hC, hK⟩

/-- After a successful lookup the handle may be used. -/
theorem makes_getUpload_bind {id : UploadId} {f : Unit → Handler β} (hC : C (.getUpload id))
    (hf : K id → Makes C K (f ())) : Makes C K ((getUpload id).bind f) := by
  refine ⟨⟨hC, fun _ hid => by cases hid⟩, fun r hr => ?_⟩
  cases r with
  | error e => trivial
  | ok u => exact hf (hr rfl)

theorem makes_createUpload_bind {info : UploadInfo} {f : Unit → Handler β}
    (hC : C (.createUpload info)) (hf : K info.id → Makes C K (f ())) :
    Makes C K ((createUpload info).bind f) := by
  refine ⟨⟨hC, fun _ hid => by cases hid⟩, fun r hr => ?_⟩
  cases r with
  | error e => trivial
  | ok u => exact hf (hr rfl)

theorem makes_newUuid : Makes C K newUuid := uses_newUuid onStore_of_unshared

theorem makes_emit (event : HookEvent) : Makes C K (emit h event) := uses_emit trivial

theorem makes_preTerminate (info : UploadInfo) : Makes C K (preTerminate h info) :=
  uses_preTerminate onStore_of_unshared info

theorem makes_preCreate (info : UploadInfo) : Makes C K (preCreate h info) :=
  uses_preCreate onStore_of_unshared info

theorem makes_checkExpiry (expiresAt : Option DateTime) : Makes C K (checkExpiry expiresAt) :=
  uses_checkExpiry onStore_of_unshared expiresAt

theorem makes_withLock {id : UploadId} {p : Handler α} (hp : Makes C K p) :
    Makes C K (withLock h id p) := by
  unfold withLock
  split
  · refine ⟨trivial, fun r _ => makes_check_bind fun _ _ => ?_⟩
    refine Makes.bind (Prog.Uses.attempt hp) fun result => ⟨trivial, fun _ _ => ?_⟩
    exact Prog.uses_ofExcept result
  · exact hp

theorem makes_finishIfComplete {id : UploadId} (info : UploadInfo) (hC : C (.finalize id))
    (hK : K id) : Makes C K (finishIfComplete h id info) :=
  uses_finishIfComplete onStore_of_unshared info ⟨hC, StoreOp.forall_handle hK⟩ trivial

/-- What the store calls of a handler preserve, its run preserves. -/
theorem Makes.run_preserves {σ : Type} {impl : Interp StoreSig σ} {env : Env} {I : σ → Prop}
    {p : Handler α} (hp : Makes C (fun _ => True) p) (hI : ∀ o s, C o → I s → I (impl o s).2)
    {w : World σ} (hw : I w.store) : I (p.run (handlerInterp impl env) w).2.store := by
  refine Prog.Uses.run_preserves (I := fun w : World σ => I w.store) hp (fun o w _ => ?_)
    (fun o w ho hw => ?_) hw
  · cases o with
    | store o =>
        cases o with
        | createUpload info | getUpload id => exact fun _ => trivial
        | _ => trivial
    | _ => trivial
  · cases o with
    | store o =>
        simp only [handlerInterp, World.noteStore_store]
        exact hI o w.store ho.1 hw
    | _ => exact hw

end Makes

/-! ## The calls of each handler -/

/-- The calls on `id` that read. -/
def Reads (id : UploadId) : StoreOp → Prop
  | .getUpload id' | .getInfo id' | .readContent id' => id' = id
  | _ => False

/-- Reading or deleting `id`. -/
def Deletes (id : UploadId) : StoreOp → Prop
  | .getUpload id' | .getInfo id' | .delete id' => id' = id
  | _ => False

/-- The calls of a chunk for `id`. -/
def Appends (id : UploadId) : StoreOp → Prop
  | .getUpload id' | .getInfo id' | .declareLength id' _ | .writeChunk id' _ _ | .finalize id' =>
    id' = id
  | _ => False

/-- The calls that follow the creation of `id`: they fill it, and read or
delete the uploads it is made of. -/
def Fills (id : UploadId) : StoreOp → Prop
  | .getUpload _ | .getInfo _ | .delete _ => True
  | .concatenate id' _ | .writeChunk id' _ _ | .finalize id' => id' = id
  | _ => False

variable {K : UploadId → Prop} {h : TusHandler} {req : TusRequest}

theorem Head.makes {C : StoreOp → Prop}
    (hC : ∀ id, requestId req = .ok id → ∀ o, Reads id o → C o) :
    Makes C K (Head.handle h req) := by
  unfold Head.handle
  refine makes_check_bind fun _ _ => makes_check_bind fun id hid => ?_
  refine makes_getUpload_bind (hC id hid _ rfl) fun hK => ?_
  refine (makes_store (o := .getInfo id) (hC id hid _ rfl) (StoreOp.forall_handle hK)).bind
    fun info => ?_
  exact (makes_checkExpiry _).bind fun _ => makes_ret _

theorem Get.makes {C : StoreOp → Prop}
    (hC : ∀ id, requestId req = .ok id → ∀ o, Reads id o → C o) :
    Makes C K (Get.handle h req) := by
  unfold Get.handle
  refine (makes_ensure _ _).bind fun _ => makes_check_bind fun id hid => makes_withLock ?_
  refine makes_getUpload_bind (hC id hid _ rfl) fun hK => ?_
  refine (makes_store (o := .getInfo id) (hC id hid _ rfl) (StoreOp.forall_handle hK)).bind
    fun info => ?_
  refine (makes_checkExpiry _).bind fun _ => (makes_ensure _ _).bind fun _ => ?_
  exact (makes_store (o := .readContent id) (hC id hid _ rfl) (StoreOp.forall_handle hK)).bind
    fun _ => makes_ret _

theorem Delete.makes {C : StoreOp → Prop}
    (hC : ∀ id, requestId req = .ok id → ∀ o, Deletes id o → C o) :
    Makes C K (Delete.handle h req) := by
  unfold Delete.handle
  refine makes_check_bind fun _ _ => (makes_ensure _ _).bind fun _ => ?_
  refine makes_check_bind fun id hid => ?_
  have hlocked : Makes C K (withLock h id do
      getUpload id
      delete id
      emit h (.uploadTerminated id)
      return h.response 204 [] []) := by
    refine makes_withLock (makes_getUpload_bind (hC id hid _ rfl) fun hK => ?_)
    refine (makes_store (o := .delete id) (hC id hid _ rfl) (StoreOp.forall_handle hK)).bind
      fun _ => ?_
    exact (makes_emit _).bind fun _ => makes_ret _
  split
  · refine makes_getUpload_bind (hC id hid _ rfl) fun hK => ?_
    refine (makes_store (o := .getInfo id) (hC id hid _ rfl) (StoreOp.forall_handle hK)).bind
      fun info => ?_
    exact (makes_preTerminate _).bind fun _ => hlocked
  · exact hlocked

theorem Patch.makes_finish {C : StoreOp → Prop} {id : UploadId} (hK : K id)
    (hinfo : C (.getInfo id)) (hfinalize : C (.finalize id)) : Makes C K (Patch.finish h id) := by
  have hget : Makes C K (getInfo id) := makes_store hinfo (StoreOp.forall_handle hK)
  refine hget.bind fun newInfo => (makes_emit _).bind fun _ => ?_
  exact (makes_finishIfComplete _ hfinalize hK).bind fun _ => makes_ret _

theorem Patch.makes {C : StoreOp → Prop}
    (hC : ∀ offset id, parseRequest req = .ok (offset, id) → ∀ o, Appends id o → C o) :
    Makes C K (Patch.handle h req) := by
  unfold Patch.handle
  refine makes_check_bind fun ⟨offset, id⟩ hparsed => makes_withLock ?_
  have hcall {o : StoreOp} (ho : Appends id o) (hK : K id) (htarget : o.target = id) :
      Makes C K (store o) :=
    makes_store (hC offset id hparsed o ho) (StoreOp.forall_handle (htarget ▸ hK))
  unfold Patch.locked
  refine makes_getUpload_bind (hC offset id hparsed _ rfl) fun hK => ?_
  refine (hcall (o := .getInfo id) rfl hK rfl).bind fun info => ?_
  refine (makes_ensure _ _).bind fun _ => (makes_ensure _ _).bind fun _ => ?_
  refine (makes_checkExpiry _).bind fun _ => makes_check_bind fun size _ => ?_
  have hfinish : Makes C K (Patch.finish h id) :=
    Patch.makes_finish hK (hC offset id hparsed _ rfl) (hC offset id hparsed _ rfl)
  have hrest : Makes C K ((check (Patch.chunkReader h req)).bind fun reader =>
      (writeChunk id offset reader).bind fun _ => Patch.finish h id) :=
    makes_check_bind fun reader _ =>
      (hcall (o := .writeChunk id offset reader) rfl hK rfl).bind fun _ => hfinish
  cases size with
  | none => exact hrest
  | some declaredSize =>
      exact (hcall (o := .declareLength id declaredSize) rfl hK rfl).bind fun _ => hrest

/-- Under its lock a PATCH uses no other. -/
theorem Patch.uses_locked {U : HandlerOp → Prop} {G : (o : HandlerSig.Op) → HandlerSig.Ans o → Prop}
    {offset : ℕ} {id : UploadId} (hU : ∀ o, Unshared o → U o)
    (hC : ∀ o, Appends id o → U (.store o))
    (he : ∀ info, U (.emit (.uploadProgress info)) ∧ U (.emit (.uploadFinished info))) :
    (Patch.locked h req offset id).Uses U G := by
  have hcall {o : StoreOp} (ho : Appends id o) : (store o).Uses U G := uses_store (hC o ho)
  unfold Patch.locked
  refine (hcall (o := .getUpload id) rfl).bind fun _ => ?_
  refine (hcall (o := .getInfo id) rfl).bind fun info => ?_
  refine (uses_ensure _ _).bind fun _ => (uses_ensure _ _).bind fun _ => ?_
  refine (uses_checkExpiry hU _).bind fun _ => (uses_check _).bind fun declared => ?_
  have hfinish : (Patch.finish h id).Uses U G := by
    refine (hcall (o := .getInfo id) rfl).bind fun newInfo => (uses_emit (he _).1).bind fun _ => ?_
    exact (uses_finishIfComplete hU newInfo (hC (.finalize id) rfl) (he _).2).bind fun _ => trivial
  have hrest : ((check (Patch.chunkReader h req)).bind fun reader =>
      (writeChunk id offset reader).bind fun _ => Patch.finish h id).Uses U G :=
    (uses_check _).bind fun reader =>
      (hcall (o := .writeChunk id offset reader) rfl).bind fun _ => hfinish
  cases declared with
  | none => exact hrest
  | some length => exact (hcall (o := .declareLength id length) rfl).bind fun _ => hrest

theorem Options.makes {C : StoreOp → Prop} : Makes C K (Options.handle h req) :=
  makes_check_bind fun _ _ => makes_ret _

theorem Deletes.fills {id i : UploadId} {o : StoreOp} (ho : Deletes i o) : Fills id o := by
  cases o with
  | getUpload _ | getInfo _ | delete _ => trivial
  | _ => cases ho

namespace Post

theorem makes_fetchPartialInfos {id : UploadId} (ids : List UploadId) :
    Makes (Fills id) K (fetchPartialInfos ids) := by
  induction ids with
  | nil => trivial
  | cons i ids ih =>
      refine makes_getUpload_bind trivial fun hK => ?_
      refine (makes_store trivial (StoreOp.forall_handle hK)).bind fun info => ?_
      refine (makes_ensure _ _).bind fun _ => (makes_ensure _ _).bind fun _ => ?_
      exact ih.bind fun _ => makes_ret _

theorem makes_cleanupPartials {C : StoreOp → Prop} (hC : ∀ id o, Deletes id o → C o)
    (ids : List UploadId) : Makes C K (cleanupPartials h ids) := by
  induction ids with
  | nil => trivial
  | cons i ids ih =>
      refine makes_getUpload_bind (hC i _ rfl) fun hK => ?_
      have hcall {o : StoreOp} (ho : Deletes i o) (htarget : o.target = i) : Makes C K (store o) :=
        makes_store (hC i o ho) (StoreOp.forall_handle (htarget ▸ hK))
      have hrest : Makes C K ((delete i).bind fun _ =>
          (emit h (.uploadTerminated i)).bind fun _ => cleanupPartials h ids) :=
        (hcall (o := .delete i) rfl rfl).bind fun _ => (makes_emit _).bind fun _ => ih
      split
      · refine (hcall (o := .getInfo i) rfl rfl).bind fun info => ?_
        exact (makes_preTerminate _).bind fun _ => hrest
      · exact hrest

/-- The cleanup deletes, and reads the new record again. -/
theorem makes_cleanup {C : StoreOp → Prop} {id : UploadId} (hC : ∀ id o, Deletes id o → C o)
    (hK : K id) {p : Parsed} (finalInfo : UploadInfo) : Makes C K (cleanup h p id finalInfo) := by
  unfold cleanup
  split
  · refine (makes_cleanupPartials hC _).bind fun _ => ?_
    exact makes_store (o := .getInfo id) (hC id _ rfl) (StoreOp.forall_handle hK)
  · trivial

theorem makes_fill {p : Parsed} {info : UploadInfo} (hK : K info.id) :
    Makes (Fills info.id) K (fill h req p info) := by
  have hcall {o : StoreOp} (ho : Fills info.id o) (htarget : o.target = info.id) :
      Makes (Fills info.id) K (store o) :=
    makes_store ho (StoreOp.forall_handle (htarget ▸ hK))
  have hassemble : Makes (Fills info.id) K (assemble h p info) := by
    unfold assemble
    split
    · exact (makes_fetchPartialInfos _).bind fun partials => hcall rfl rfl
    · trivial
  have hbody : Makes (Fills info.id) K (writeBody h req info.id) := by
    unfold writeBody
    split
    · exact hcall rfl rfl
    · trivial
  have hcleanup (finalInfo : UploadInfo) :
      Makes (Fills info.id) K (cleanup h p info.id finalInfo) :=
    makes_cleanup (fun _ _ => Deletes.fills) hK finalInfo
  unfold fill
  refine hassemble.bind fun _ => hbody.bind fun bytesWritten => ?_
  refine Makes.bind (hcall trivial rfl) fun finalInfo => ?_
  refine (makes_check _).bind fun _ => (hcleanup finalInfo).bind fun finalInfo => ?_
  refine (makes_emit _).bind fun _ => ?_
  have hfinalize : Fills info.id (.finalize info.id) := rfl
  refine (makes_finishIfComplete finalInfo hfinalize hK).bind fun _ => ?_
  exact (makes_check _).bind fun _ => makes_ret _

theorem makes_expiry {C : StoreOp → Prop} : Makes C K (expiry h) := uses_expiry onStore_of_unshared

theorem makes_create {p : Parsed} {info : UploadInfo} :
    Makes (fun o => o = .createUpload info ∨ Fills info.id o) K (create h req p info) :=
  makes_createUpload_bind (.inl rfl) fun hK => (makes_fill hK).mono fun _ ho => .inr ho

theorem makes : Makes (fun _ => True) K (handle h req) := by
  unfold handle
  refine (makes_check _).bind fun p => makes_newUuid.bind fun uuid => (makes_check _).bind
    fun info => ?_
  refine makes_expiry.bind fun expiresAt => (makes_preCreate _).bind fun info => ?_
  exact makes_create.mono fun _ _ => trivial

end Post

/-- A request that is neither POST nor PATCH reads, and at most deletes. -/
theorem TusHandler.makes_other (hpost : req.method ≠ .post) (hpatch : req.method ≠ .patch) :
    Makes (fun o => ∃ id, Reads id o ∨ Deletes id o) K (h.dispatch req) := by
  unfold TusHandler.dispatch
  cases hmethod : req.method with
  | options => exact Options.makes
  | head => exact Head.makes fun id _ o ho => ⟨id, .inl ho⟩
  | get => exact Get.makes fun id _ o ho => ⟨id, .inl ho⟩
  | post => exact absurd hmethod hpost
  | patch => exact absurd hmethod hpatch
  | delete => exact Delete.makes fun id _ o ho => ⟨id, .inr ho⟩
  | other _ => trivial

/-- Every handle a request uses is of an upload it created or found. -/
theorem TusHandler.makes : Makes (fun _ => True) K (h.handle req) := by
  have hdispatch : Makes (fun _ => True) K (h.dispatch req) := by
    unfold TusHandler.dispatch
    cases req.method with
    | options => exact Options.makes
    | head => exact Head.makes fun _ _ _ _ => trivial
    | get => exact Get.makes fun _ _ _ _ => trivial
    | post => exact Post.makes
    | patch => exact Patch.makes fun _ _ _ _ _ => trivial
    | delete => exact Delete.makes fun _ _ _ _ => trivial
    | other _ => trivial
  refine Makes.bind (Prog.Uses.attempt hdispatch) fun r => ?_
  rcases r with (e | _) | resp <;> trivial

end Fileloft
