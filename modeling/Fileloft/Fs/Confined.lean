import Fileloft.Fs.Calls
import Fileloft.Fs.Ending

/-!
# The server stays in its directory

Whatever ids requests name, whatever records the disk holds, and in whatever
order their file operations come, nothing is read or written outside the
directory of the store.
-/

namespace Fileloft

open Handler Pool

variable {h : TusHandler} {K : UploadId → Prop} {req : TusRequest}

/-- A request that is not a creation calls the store on the upload it names. -/
theorem TusHandler.makes_named (hpost : req.method ≠ .post) :
    Makes (fun o => requestId req = .ok o.target) K (h.handle req) := by
  have hreads (id : UploadId) (hid : requestId req = .ok id) (o : StoreOp) (ho : Reads id o) :
      requestId req = .ok o.target := by
    cases o with
    | getUpload _ | getInfo _ | readContent _ => exact hid.trans (congrArg _ ho.symm)
    | _ => exact ho.elim
  have hdispatch : Makes (fun o => requestId req = .ok o.target) K (h.dispatch req) := by
    unfold TusHandler.dispatch
    cases hmethod : req.method with
    | options => exact Options.makes
    | head => exact Head.makes hreads
    | get => exact Get.makes hreads
    | post => exact absurd hmethod hpost
    | patch =>
        refine Patch.makes fun offset id hparse o ho => ?_
        have hid := Patch.requestId_of_parse hparse
        cases o with
        | getUpload _ | getInfo _ | writeChunk _ _ _ | declareLength _ _ | finalize _ =>
            exact hid.trans (congrArg _ ho.symm)
        | _ => exact ho.elim
    | delete =>
        refine Delete.makes fun id hid o ho => ?_
        cases o with
        | getUpload _ | getInfo _ | delete _ => exact hid.trans (congrArg _ ho.symm)
        | _ => exact ho.elim
    | other _ => trivial
  refine Makes.bind (Prog.Uses.attempt hdispatch) fun r => ?_
  rcases r with (e | _) | resp <;> trivial

namespace FileStore

variable (s : FileStore)

/-- What an operation of the request may do. -/
def Confines (q : TusRequest) : StepOp → Prop
  | .file call o => s.OwnOp call.target o ∧ call.target.Valid ∧
      (q.method ≠ .post → requestId q = .ok call.target)
  | .handler _ => True

theorem uses_confines (q : TusRequest) :
    (fileSteps s.call (h.handle q)).Uses (s.Confines q) fun _ _ => True := by
  have hmakes : Makes (fun o => q.method ≠ .post → requestId q = .ok o.target) UploadId.Valid
      (h.handle q) := by
    by_cases hpost : q.method = .post
    · exact TusHandler.makes.mono fun o _ hother => absurd hpost hother
    · exact (TusHandler.makes_named hpost).mono fun o ho _ => ho
  apply uses_fileSteps hmakes _ fun _ => trivial
  intro call hcall hid
  exact (s.performs_call call hid).mono fun o ho => ⟨ho, hid, hcall⟩

theorem dirs_interp {o : FsOp} (ho : s.Within o) (order : Listing) {d : Disk} {q : Path}
    (hq : q ∈ (Disk.interp order o d).2.dirs) : q ∈ d.dirs ∨ q <+: s.dir := by
  have hwrite {p : Path} {c : Bytes} (hq : q ∈ (d.write p c).2.dirs) : q ∈ d.dirs := by
    unfold Disk.write at hq
    split at hq
    · exact hq
    · split at hq <;> exact hq
  cases o with
  | createDirAll p =>
      obtain rfl : p = s.dir := ho
      simp only [Disk.interp, Disk.createDirAll] at hq
      split at hq
      · exact .inl hq
      · rcases List.mem_append.mp hq with hq | hq
        · exact .inr ((List.mem_inits q s.dir).mp (List.mem_filter.mp (List.mem_filter.mp hq).1).1)
        · exact .inl hq
  | write p c => exact .inl (hwrite hq)
  | openTruncate p => exact .inl (hwrite hq)
  | removeFile p =>
      simp only [Disk.interp, Disk.removeFile] at hq
      split at hq
      · exact .inl hq
      · split at hq <;> exact .inl hq
  | copy src dst =>
      simp only [Disk.interp, Disk.copy] at hq
      split at hq <;> exact .inl hq
  | _ => exact .inl hq

/-- The files of accepted ids in the directory of the store. -/
def Kept (p : Path) : Prop := ∃ id : UploadId, id.Valid ∧ s.Own id p

/-- The clients are confined to the directory of the store, and each request
that is not a creation to the files of the upload it names. -/
structure Confined {γ : Type} (d : Disk) (c : FileClients γ) : Prop where
  within : ∀ t q call o k, c.threads t = .running q (.op (.file call o) k) → s.Within o
  named : ∀ t q call o k, c.threads t = .running q (.op (.file call o) k) →
    ∀ p ∈ o.modified, s.Kept p ∧ (q.method ≠ .post → ∃ id, requestId q = .ok id ∧ s.Own id p)
  content : ∀ p, ¬ s.Kept p → c.shared.store.content p = d.content p
  dirs : ∀ q ∈ c.shared.store.dirs, q ∈ d.dirs ∨ q <+: s.dir

variable {γ X : Type} {out : X → Env × Listing} {obs : FileObserver γ}

theorem store_handled {env : Env} {order : Listing} {t : ℕ} {o : HandlerOp} {m m' : Shared Disk γ}
    {r : StepSig.Ans (.handler o)} (hact : fileAct obs env order t (.handler o) m = some (r, m')) :
    m'.store = m.store := by
  cases o with
  | store o => cases hact
  | acquire id =>
      obtain ⟨-, -, rfl⟩ | ⟨e, -, rfl⟩ := fileAct_acquire obs order hact
      · rfl
      · rfl
  | _ =>
      obtain ⟨-, rfl⟩ := Prod.mk.inj (Option.some.inj hact)
      rfl

theorem confined_of_reach {P : FileClients γ → Move TusRequest ℕ X → Prop} {d : Disk} {notes : γ}
    {c : FileClients γ} (hc : Reach (fileClients h s.call out obs) P (onDisk d notes) c) :
    s.Confined d c := by
  have hconfines {c : FileClients γ}
      (hc : Reach (fileClients h s.call out obs) P (onDisk d notes) c)
      {t : ℕ} {q : TusRequest} {o : StepOp} {k : StepSig.Ans o → StepProg TusResponse}
      (hrunning : c.threads t = .running q (.op o k)) : s.Confines q o :=
    (hc.uses (fun _ _ q _ => s.uses_confines q) (fun _ => rfl) hrunning).1
  have hstore : (∀ p, ¬ s.Kept p → c.shared.store.content p = d.content p) ∧
      ∀ q ∈ c.shared.store.dirs, q ∈ d.dirs ∨ q <+: s.dir := by
    induction hc with
    | refl => exact ⟨fun _ _ => rfl, fun _ hq => .inl hq⟩
    | @move c _ m _ hnext hreach ih =>
        rcases next_cases hnext with ⟨t, q, rfl, -, rfl⟩ |
          ⟨t, x, q, o, k, r, m', rfl, hrunning, hact, rfl⟩ |
          ⟨t, q, p, r, rfl, -, -, rfl⟩
        · exact ih
        · have hallowed := hconfines hreach hrunning
          cases o with
          | file call o =>
              obtain ⟨-, rfl⟩ := Prod.mk.inj (Option.some.inj hact)
              obtain ⟨hown, hid, -⟩ := hallowed
              refine ⟨fun p hp => ?_, fun q hq => ?_⟩
              · rw [← ih.1 p hp]
                apply Disk.content_interp
                rintro p' hp' rfl
                exact hp ⟨call.target, hid, hown.2 _ hp'⟩
              · rcases s.dirs_interp hown.1 _ hq with hq | hq
                · exact ih.2 q hq
                · exact .inr hq
          | handler o =>
              rw [store_handled hact]
              exact ih
        · exact ih
  refine ⟨fun t q call o k hrunning => ?_, fun t q call o k hrunning p hp => ?_, hstore.1, hstore.2⟩
  · exact (hconfines hc hrunning).1.1
  · obtain ⟨hown, hid, hnamed⟩ := hconfines hc hrunning
    exact ⟨⟨_, hid, hown.2 p hp⟩, fun hpost => ⟨_, hnamed hpost, hown.2 p hp⟩⟩

open Waiting in
theorem confined_of_reach_waiting : ∃ c,
    moves (blindClients handler) [.start 0 Waiting.delete, .step 0 (.permissive .b, default)]
      (onDisk Disk.empty ()) = some c ∧
      (∃ q call o k, c.threads 0 = .running q (.op (.file call o) k)) ∧
      uploads.Confined Disk.empty c := by
  obtain ⟨c, hc, hrunning⟩ : ∃ c, moves (blindClients handler)
      [.start 0 Waiting.delete, .step 0 (.permissive .b, default)] (onDisk Disk.empty ()) = some c ∧
      ∃ q call o k, c.threads 0 = .running q (.op (.file call o) k) :=
    ⟨_, rfl, _, .getUpload ⟨"a".toList⟩, .tryExists (uploads.infoPath ⟨"a".toList⟩), _, rfl⟩
  have hreach : Reach (blindClients handler) (fun _ _ => True) (onDisk Disk.empty ()) c :=
    reach_of_moves (I := fun _ => True) (fun _ _ _ _ => trivial) (fun _ _ _ _ _ _ => trivial)
      trivial .refl hc
  exact ⟨c, hc, hrunning, uploads.confined_of_reach hreach⟩

end FileStore

end Fileloft
