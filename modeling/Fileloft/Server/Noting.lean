import Fileloft.Server.Creation
import Fileloft.Server.Patch

/-!
# Notes on store calls

A function of a store call and its answer makes notes of a run. A store that
keeps these notes beside its state goes through the same stages, so the notes
on a request can be read off the stages.
-/

namespace Fileloft

variable {σ β : Type}

/-- The notes on one operation of a handler. -/
def notesOn (f : (o : StoreOp) → Except TusError o.Val → List β) :
    (o : HandlerOp) → HandlerOp.Ans o → List β
  | .store o, answer => f o answer
  | _, _ => []

/-- The notes on the operations of a run, in order. -/
def notes (f : (o : StoreOp) → Except TusError o.Val → List β)
    (t : List ((o : HandlerSig.Op) × HandlerSig.Ans o)) : List β :=
  t.flatMap fun e => notesOn f e.1 e.2

/-- The store together with its notes. -/
def noting (f : (o : StoreOp) → Except TusError o.Val → List β) (impl : Interp StoreSig σ) :
    Interp StoreSig (σ × List β) := fun o s =>
  ((impl o s.1).1, ((impl o s.1).2, s.2 ++ f o (impl o s.1).1))

section Noting

variable {f : (o : StoreOp) → Except TusError o.Val → List β} {impl : Interp StoreSig σ}
  {env : Env}

theorem handlerInterp_noting (o : HandlerOp) (w : World σ) (l : List β) :
    handlerInterp (noting f impl) env o ⟨(w.store, l), w.log⟩ =
      ((handlerInterp impl env o w).1,
        ⟨((handlerInterp impl env o w).2.store, l ++ notesOn f o (handlerInterp impl env o w).1),
          (handlerInterp impl env o w).2.log⟩) := by
  cases o with
  | store o => cases o <;> rfl
  | acquire _ | release _ | newUuid | now | preCreate _ | preFinish _ | preTerminate _ | emit _ =>
      simp [handlerInterp, notesOn, World.note]

/-- The store with notes answers as the store, and notes the trace. -/
theorem run_noting {α : Type} (p : Handler α) (w : World σ) (l : List β) :
    p.run (handlerInterp (noting f impl) env) ⟨(w.store, l), w.log⟩ =
      ((p.run (handlerInterp impl env) w).1,
        ⟨((p.run (handlerInterp impl env) w).2.store,
            l ++ notes f (p.trace (handlerInterp impl env) w)),
          (p.run (handlerInterp impl env) w).2.log⟩) := by
  induction p generalizing w l with
  | ret a => simp [notes]
  | fail e => simp [notes]
  | op o k ih =>
      rw [Prog.run_op, handlerInterp_noting, ih, List.append_assoc]
      rfl

/-- The notes on a run are what the store with notes ends with. -/
theorem notes_trace {α : Type} (p : Handler α) (w : World σ) :
    notes f (p.trace (handlerInterp impl env) w) =
      (p.run (handlerInterp (noting f impl) env) ⟨(w.store, []), w.log⟩).2.store.2 := by
  rw [run_noting]
  rfl

theorem noting_reads (hreads : PureReads impl)
    (hf : ∀ id, (∀ a, f (.getUpload id) a = []) ∧ ∀ a, f (.getInfo id) a = []) :
    PureReads (noting f impl) where
  getUpload id s := by simp [noting, hreads.getUpload, (hf id).1]
  getInfo id s := by simp [noting, hreads.getInfo, (hf id).2]

/-- A call that calls for no note leaves the notes alone. -/
theorem noting_snd {o : StoreOp} (ho : ∀ a, f o a = []) (s : σ × List β) :
    (noting f impl o s).2.2 = s.2 := by
  rw [noting, ho, List.append_nil]

end Noting

section Stages

variable {f : (o : StoreOp) → Except TusError o.Val → List β} {impl : Interp StoreSig σ}
  {h : TusHandler} {env : Env} {req : TusRequest}

/-- The operations of a request are those of its sub-handler. -/
theorem trace_handle {w : World σ} : (h.handle req).trace (handlerInterp impl env) w =
    (h.dispatch req).trace (handlerInterp impl env) w := by
  unfold TusHandler.handle
  rw [Prog.bind_eq, Prog.trace_bind_ok (Prog.run_attempt ..), Prog.trace_attempt]
  rcases ((h.dispatch req).run (handlerInterp impl env) w).1 with (e | _) | resp
  · exact List.append_nil _
  · exact List.append_nil _
  · exact List.append_nil _

theorem completing_notes (hf : ∀ id a, f (.finalize id) a = []) {id : UploadId}
    {info : UploadInfo} {s : σ × List β} :
    (completing (noting f impl) h env id info s).2.2 = s.2 := by
  unfold completing
  split
  · cases env.finishAnswer h info with
    | error e => rfl
    | ok _ => exact noting_snd (hf id) s
  · rfl

theorem Post.removing_notes (hf : ∀ id a, f (.delete id) a = []) (ids : List UploadId)
    (s : σ × List β) : (Post.removing (noting f impl) h env ids s).2.2 = s.2 := by
  induction ids generalizing s with
  | nil => rfl
  | cons id ids ih =>
      have hdelete : (noting f impl (.delete id) s).2.2 = s.2 := noting_snd (hf id) s
      unfold Post.removing
      cases Post.removable (noting f impl) h env id s with
      | error e => rfl
      | ok _ =>
          simp only
          cases (noting f impl (.delete id) s).1 with
          | error e => exact hdelete
          | ok _ => exact (ih _).trans hdelete

theorem Post.tidying_notes (hf : ∀ id a, f (.delete id) a = []) {p : Post.Parsed}
    {id : UploadId} {finalInfo : UploadInfo} {s : σ × List β} :
    (Post.tidying (noting f impl) h env p id finalInfo s).2.2 = s.2 := by
  unfold Post.tidying
  split
  · have hremoving := @Post.removing_notes _ _ f impl h env hf finalInfo.partialUploads s
    rcases hrun : Post.removing (noting f impl) h env finalInfo.partialUploads s with ⟨_ | _, s'⟩
    · rwa [hrun] at hremoving
    · rwa [hrun] at hremoving
  · rfl

end Stages

end Fileloft
