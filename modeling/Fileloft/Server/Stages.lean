import Fileloft.Server.Rules

/-!
# Stages of a request

A stage answers and moves the store. A request that passes through stages
stops at the first one that fails.
-/

namespace Fileloft

open Handler

/-- The next step of a computation on a state, unless this one failed. -/
def andThen {ε α β σ : Type} (r : Except ε α × σ) (f : α → σ → Except ε β × σ) :
    Except ε β × σ :=
  match r with
  | (.ok a, s) => f a s
  | (.error e, s) => (.error e, s)

theorem andThen_eq_ok {ε α β σ : Type} {r : Except ε α × σ} {f : α → σ → Except ε β × σ}
    {b : β} {s' : σ} :
    andThen r f = (.ok b, s') ↔ ∃ a s, r = (.ok a, s) ∧ f a s = (.ok b, s') := by
  rcases r with ⟨_ | a, s⟩ <;> simp [andThen]

theorem andThen_preserves {ε α β σ : Type} {I : σ → Prop} {r : Except ε α × σ}
    {f : α → σ → Except ε β × σ} (hr : I r.2) (hf : ∀ a s, r = (.ok a, s) → I (f a s).2) :
    I (andThen r f).2 := by
  rcases r with ⟨_ | a, s⟩
  · exact hr
  · exact hf a s rfl

theorem World.eq_mk {σ : Type} {w : World σ} {s : σ} {l : List Obs} (hstore : w.store = s)
    (hlog : w.log = l) : w = ⟨s, l⟩ := by
  cases hstore
  cases hlog
  rfl

variable {σ : Type} (impl : Interp StoreSig σ) (h : TusHandler) (env : Env)

/-- The `pre_finish` callback and finalization of a complete upload. -/
def completing (id : UploadId) (info : UploadInfo) (s : σ) : Except TusError Unit × σ :=
  if info.isComplete then
    match env.finishAnswer h info with
    | .error e => (.error e, s)
    | .ok _ => impl (.finalize id) s
  else (.ok (), s)

variable {impl h env}

/-- Completion as a stage. What the callback accepts is logged. -/
theorem run_completing (id : UploadId) (info : UploadInfo) (w : World σ) :
    ∃ l, (finishIfComplete h id info).run (handlerInterp impl env) w =
        (haltWith (completing impl h env id info w.store).1,
          ⟨(completing impl h env id info w.store).2, w.log ++ l⟩) ∧
      (h.config.hooks.preFinish = true → info.isComplete = true →
        env.finishAnswer h info = .ok () → Obs.preFinish info (.ok ()) ∈ l) := by
  unfold finishIfComplete completing
  cases hcomplete : info.isComplete with
  | false => exact ⟨[], by simp [haltWith], fun _ hfalse => by cases hfalse⟩
  | true =>
      simp only [if_true, run_preFinish_bind]
      cases haccept : env.finishAnswer h info with
      | error e =>
          refine ⟨[.preFinish info (.error e)], Prod.ext rfl (World.eq_mk (by simp) ?_),
            fun _ _ hok => by cases hok⟩
          exact World.afterPreFinish_veto env h w haccept
      | ok _ =>
          obtain ⟨m, hlog, happroved⟩ := World.afterPreFinish_approved env h w haccept
          simp only [check_ok, Prog.ret_bind, run_finalize_bind, World.afterPreFinish_store]
          rcases impl (.finalize id) w.store with ⟨e | _, s⟩
          · refine ⟨m ++ [.finalized id (.error e)], Prod.ext rfl (World.eq_mk rfl ?_),
              fun hhook _ _ => by simp [happroved hhook]⟩
            simp [World.note, hlog]
          · simp only [check_ok, Prog.ret_bind, run_emit]
            obtain ⟨n, hfinished⟩ := World.afterEmit_log h
              (({ World.afterPreFinish env h w info with store := s } : World σ).note
                (.finalized id (.ok ()))) (.uploadFinished info)
            refine ⟨m ++ [.finalized id (.ok ())] ++ n,
              Prod.ext rfl (World.eq_mk (World.afterEmit_store ..) ?_),
              fun hhook _ _ => by simp [happroved hhook]⟩
            rw [hfinished, World.note, hlog]
            simp

end Fileloft
