import Fileloft.Fs.Clients
import Fileloft.Fs.Fixture
import Fileloft.Server.Ending

/-!
# Requests over the file store come to an end

A store call takes no lock, so the requests wait for each other no more
when they take turns at single file operations.
-/

namespace Fileloft

open Handler Pool

/-- The store calls themselves are not performed. -/
def stepLocking : Locking StepSig UploadId where
  kind
    | .file _ _ => .other
    | .handler (.store _) => .never
    | .handler o => handlerLocking.kind o
  granted
    | .handler o, r => handlerLocking.granted o r
    | _, _ => False

variable {α γ X : Type} {h : TusHandler} {calls : (o : StoreOp) → FsProg o.Val}
    {out : X → Env × Listing}
  {obs : FileObserver γ}

theorem locks_callSteps_bind {β : Type} {held : Option UploadId} {call : StoreOp} {p : FsProg α}
    {f : Except TusError α → StepProg β} (hf : ∀ r, (f r).Locks stepLocking held) :
    ((callSteps call p).bind f).Locks stepLocking held := by
  apply Prog.locks_then _ (total_callSteps call p) hf
  apply uses_callSteps
  exact Prog.uses_of_forall p fun _ => rfl

theorem locks_fileSteps {held : Option UploadId} {p : Handler α}
    (hp : p.Locks handlerLocking held) :
    (fileSteps calls p).Locks stepLocking held := by
  induction p generalizing held with
  | ret a => exact hp
  | fail e => exact hp
  | op o k ih =>
      have hother (hkind : handlerLocking.kind o = .other)
          (hstep : opSteps calls o = Prog.call (S := StepSig) (.handler o))
          (hkind' : stepLocking.kind (.handler o) = .other) :
          (fileSteps calls (.op o k)).Locks stepLocking held := by
        change ((opSteps calls o).bind fun r => fileSteps calls (k r)).Locks _ _
        rw [hstep]
        refine (Prog.locks_other hkind').mpr fun r => ih r ?_
        exact (Prog.locks_other hkind).mp hp r
      cases o with
      | store o =>
          change ((callSteps o (calls o)).bind fun r => fileSteps calls (k r)).Locks _ _
          apply locks_callSteps_bind
          exact fun r => ih r ((Prog.locks_other rfl).mp hp r)
      | acquire id =>
          obtain ⟨rfl, hk⟩ := (Prog.locks_acquire (i := id) rfl).mp hp
          refine (Prog.locks_acquire (i := id) rfl).mpr ⟨rfl, fun r => ⟨fun hr => ?_, fun hr => ?_⟩⟩
          · exact ih r ((hk r).1 hr)
          · exact ih r ((hk r).2 hr)
      | release id =>
          obtain ⟨rfl, hk⟩ := (Prog.locks_release (i := id) rfl).mp hp
          exact (Prog.locks_release (i := id) rfl).mpr ⟨rfl, fun r => ih r (hk r)⟩
      | _ => exact hother rfl rfl rfl

theorem guards_fileClients : Guards (fileClients h calls out obs) stepLocking Shared.holder where
  program _ := locks_fileSteps TusHandler.takesOne
  enter _ _ _ := rfl
  leave _ _ _ _ := rfl
  other x t o s ho := by
    cases o with
    | file call o => exact ⟨_, _, rfl, rfl⟩
    | handler o =>
        cases o with
        | store o => cases ho
        | acquire id => cases ho
        | release id => cases ho
        | _ => exact ⟨_, _, rfl, rfl⟩
  release x t o s id ho := by
    cases o with
    | file call o => cases ho
    | handler o =>
        cases o with
        | release id' =>
            obtain rfl := LockStep.release.inj ho
            exact ⟨_, _, rfl, rfl⟩
        | _ => cases ho
  acquire x t o s id ho hfree := by
    cases o with
    | file call o => cases ho
    | handler o =>
        cases o with
        | acquire id' =>
            obtain rfl := LockStep.acquire.inj ho
            change (fileAct obs (out x).1 (out x).2 t (.handler (.acquire id')) s).isSome
            simp only [fileAct]
            split
            · rw [if_pos hfree]
              rfl
            · rfl
        | _ => cases ho
  grant x t o s id r s' ho hact := by
    cases o with
    | file call o => cases ho
    | handler o =>
        cases o with
        | acquire id' =>
            obtain rfl := LockStep.acquire.inj ho
            obtain ⟨rfl, hfree, rfl⟩ | ⟨e, rfl, rfl⟩ := fileAct_acquire obs (out x).2 hact
            · exact ⟨fun _ => ⟨hfree, rfl⟩, fun hr => absurd rfl hr⟩
            · exact ⟨fun hr => (by cases hr), fun _ => rfl⟩
        | _ => cases ho

/-- The requests at work come to an end in every order of file operations. -/
theorem file_requests_settle {P : FileClients γ → Move TusRequest ℕ X → Prop} {d : Disk} {notes : γ}
    {c : FileClients γ} (hc : Reach (fileClients h calls out obs) P (onDisk d notes) c) :
    Settles (fileClients h calls out obs) Shared.holder c :=
  guards_fileClients.settles (fun _ => rfl) (fun _ => rfl) hc

def FileObserver.blind : FileObserver Unit where
  enter _ _ _ n := n
  file _ _ _ _ _ n := n
  emit _ n := n
  leave _ n := n

/-- The clients of the examples. -/
abbrev blindClients (h : TusHandler) :
    Machine StepSig Halt TusResponse TusRequest ℕ (Env × Listing) (Shared Disk Unit) :=
  fileClients h FileStore.uploads.call id .blind

open Waiting in
theorem file_requests_settle_waiting : ∃ c,
    moves (blindClients handler)
      [.start 0 delete, .step 0 (.permissive .b, default), .start 1 delete]
      (onDisk Disk.empty ()) = some c ∧
      next (blindClients handler) (.step 1 (.permissive .b, default)) c = none ∧
      Settles (blindClients handler) Shared.holder c := by
  obtain ⟨c, hc, hwaits⟩ : ∃ c, moves (blindClients handler)
      [.start 0 delete, .step 0 (.permissive .b, default), .start 1 delete]
      (onDisk Disk.empty ()) = some c ∧
      next (blindClients handler) (.step 1 (.permissive .b, default)) c = none := ⟨_, rfl, rfl⟩
  have hreach : Reach (blindClients handler) (fun _ _ => True) (onDisk Disk.empty ()) c :=
    reach_of_moves (I := fun _ => True) (fun _ _ _ _ => trivial) (fun _ _ _ _ _ _ => trivial)
      trivial .refl hc
  exact ⟨c, hc, hwaits, file_requests_settle hreach⟩

end Fileloft
