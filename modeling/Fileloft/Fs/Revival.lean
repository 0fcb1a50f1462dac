import Fileloft.Fs.Clients
import Fileloft.Fs.Fixture
import Fileloft.Fs.Refine
import Fileloft.Server.Events
import Fileloft.Server.Fixture

/-!
# Records that come back

A deletion can fall between the read and the write of another call on the
same upload, which then writes the record again. The cleanup after a final
upload deletes without the lock of the upload.
-/

namespace Fileloft

open Handler Pool

namespace Revival

/-- Which ids were taken, which records a deletion has removed, and which
uploads were announced as terminated. -/
structure Fates where
  used : UploadId → Bool
  removed : UploadId → Bool
  terminated : UploadId → Bool

variable (s : FileStore)

/-- The ids that have a record are taken. -/
def Fates.initial (d : Disk) : Fates :=
  ⟨fun id => (d.content (s.infoPath id)).isSome, fun _ => false, fun _ => false⟩

def observer : FileObserver Fates where
  enter _ _ _ n := n
  file _ call o _ d n :=
    match call with
    | .createUpload info =>
      { n with used := Function.update n.used info.id (n.used info.id || o.modified.isSome) }
    | .delete id =>
      if o = .removeFile (s.infoPath id) ∧ d.content (s.infoPath id) = none then
        { n with
          used := Function.update n.used id true
          removed := Function.update n.removed id true }
      else n
    | _ => n
  emit event n :=
    match event with
    | .uploadTerminated id => { n with terminated := Function.update n.terminated id true }
    | _ => n
  leave _ n := n

/-- Clients of the store. -/
abbrev clients (h : TusHandler) :
    Machine StepSig Halt TusResponse TusRequest ℕ (Env × Listing) (Shared Disk Fates) :=
  fileClients h s.call id (observer s)

/-- A write of the record by a call that has read it. -/
def Rewrites (id : UploadId) : StepOp → Prop
  | .file (.createUpload _) _ => False
  | .file _ (.removeFile _) => False
  | .file _ o => s.infoPath id ∈ o.modified
  | .handler _ => False

/-- What a read finds while there is no record. -/
def Missing (id : UploadId) : (o : StepOp) → o.Ans → Prop
  | .file _ (.read p), r => p = s.infoPath id → ∃ e, r = .error e
  | _, _ => True

/-- From here on the client writes the record only if it reads it before. -/
def Harmless {α : Type} (id : UploadId) (p : StepProg α) : Prop :=
  p.Uses (fun o => ¬ Rewrites s id o) (Missing s id)

/-- An upload is only created under an id that was not taken. -/
def Fresh (c : FileClients Fates) (m : Move TusRequest ℕ (Env × Listing)) : Prop :=
  ∀ t x q info o k, m = .step t x →
    c.threads t = .running q (.op (.file (.createUpload info) o) k) → o.modified.isSome →
    c.shared.notes.used info.id = false

/-- A deletion removes a record only while no client is between the read and
the write of it. -/
def Settled (c : FileClients Fates) (m : Move TusRequest ℕ (Env × Listing)) : Prop :=
  ∀ t x q id k, m = .step t x →
    c.threads t = .running q (.op (.file (.delete id) (.removeFile (s.infoPath id))) k) →
    ∀ t' q' p, c.threads t' = .running q' p → Harmless s id p

variable {s} {id a : UploadId} {h : TusHandler} {call : StoreOp} {o : FsOp} {d : Disk}
  {order : Listing}

/-! ## Calls without the record -/

theorem modified_of_rewrites (ho : Rewrites s id (.file call o)) : s.infoPath id ∈ o.modified := by
  unfold Rewrites at ho
  split at ho
  · exact ho.elim
  · exact ho.elim
  · next heq =>
      obtain ⟨rfl, rfl⟩ := StepOp.file.inj heq
      exact ho
  · exact ho.elim

theorem not_rewrites_looks (ho : o.modified = none) : ¬ Rewrites s id (.file call o) := by
  intro hrewrites
  have hmem := modified_of_rewrites hrewrites
  rw [ho] at hmem
  cases hmem

theorem not_rewrites_data (hid : id.Valid) (ho : o.modified = some (s.dataPath id)) :
    ¬ Rewrites s id (.file call o) := by
  intro hrewrites
  have hmem := modified_of_rewrites hrewrites
  rw [ho] at hmem
  cases (s.path_injective hid hid (Option.some.inj hmem)).2

theorem not_rewrites_other (ha : a.Valid) (hid : id.Valid) (hne : id ≠ a) (ho : s.OwnOp a o) :
    ¬ Rewrites s id (.file call o) :=
  fun hrewrites => s.path_not_own ha hid hne (ho.2 _ (modified_of_rewrites hrewrites))

/-- What follows a read of the record does not happen. -/
theorem harmless_readInfo {α : Type} (f : UploadInfo → FsProg α) :
    ((s.readInfo id).bind f).Uses (fun o => ¬ Rewrites s id (.file call o))
      fun o r => Missing s id (.file call o) r := by
  refine ⟨not_rewrites_looks rfl, fun r hr => ?_⟩
  obtain ⟨e, rfl⟩ := hr rfl
  trivial

theorem harmless_concatenate (hid : id.Valid) (partials : List UploadInfo) :
    (s.concatenate id partials).Uses (fun o => ¬ Rewrites s id (.file call o))
      fun o r => Missing s id (.file call o) r := by
  have hlooks (o : FsOp) (_ : s.Within o) (ho : o.modified = none) :
      ¬ Rewrites s id (.file call o) := not_rewrites_looks ho
  have hbefore {α : Type} {p : FsProg α}
      (hp : p.Uses (fun o => ¬ Rewrites s id (.file call o)) FileStore.AnyAnswer) :
      p.Uses (fun o => ¬ Rewrites s id (.file call o)) fun o r => Missing s id (.file call o) r :=
    hp.restrict fun _ _ _ => trivial
  refine (hbefore (s.uses_createParent hlooks hid .data)).bind fun _ => ?_
  refine (hbefore (FileStore.uses_io (not_rewrites_data hid rfl))).bind fun _ => ?_
  refine (hbefore (s.uses_copyPartials hlooks (fun _ _ => not_rewrites_data hid rfl) _)).bind
    fun _ => ?_
  refine (hbefore (FileStore.uses_io (not_rewrites_looks rfl))).bind fun _ => ?_
  exact harmless_readInfo _

theorem harmless_call (hcall : call.target.Valid) (hid : id.Valid) :
    (s.call call).Uses (fun o => ¬ Rewrites s id (.file call o))
      fun o r => Missing s id (.file call o) r := by
  by_cases hne : id = call.target
  · have hlooks (call : StoreOp) (o : FsOp) (_ : s.Within o) (ho : o.modified = none) :
        ¬ Rewrites s id (.file call o) := not_rewrites_looks ho
    cases call with
    | createUpload info =>
        exact ((s.performs_call (.createUpload info) hcall).mono fun _ _ h => h).restrict
          fun _ _ _ => trivial
    | getUpload id' =>
        refine (Prog.uses_ofExcept _).bind fun _ => ⟨not_rewrites_looks rfl, fun r _ => ?_⟩
        rcases r with _ | (_ | _) <;> trivial
    | writeChunk id' offset reader =>
        obtain rfl : id = id' := hne
        exact harmless_readInfo _
    | getInfo id' =>
        obtain rfl : id = id' := hne
        refine ⟨not_rewrites_looks rfl, fun r hr => ?_⟩
        obtain ⟨e, rfl⟩ := hr rfl
        trivial
    | finalize id' =>
        obtain rfl : id = id' := hne
        apply Prog.Uses.restrict _ fun _ _ _ => trivial
        apply s.uses_finalize (hlooks _) hid (not_rewrites_data hid rfl) (not_rewrites_data hid rfl)
        · exact fun _ _ => not_rewrites_data hid rfl
        · exact fun _ _ h => h
    | delete id' =>
        obtain rfl : id = id' := hne
        apply Prog.Uses.restrict _ fun _ _ _ => trivial
        exact s.uses_delete (hlooks _) hid (fun h => h) (fun h => h) fun _ _ h => h
    | declareLength id' length =>
        obtain rfl : id = id' := hne
        exact harmless_readInfo _
    | concatenate id' partials =>
        obtain rfl : id = id' := hne
        exact harmless_concatenate hid partials
    | readContent id' =>
        obtain rfl : id = id' := hne
        exact harmless_readInfo _
  · apply ((s.performs_call call hcall).mono _).restrict fun _ _ _ => trivial
    exact fun o ho => not_rewrites_other hcall hid hne ho

/-! ## Removed records -/

/-- The operation is of a call on an upload with an accepted id, and changes
no file but those of the upload. -/
def Proper (s : FileStore) : StepOp → Prop
  | .file call o => call.target.Valid ∧ s.OwnOp call.target o
  | .handler _ => True

theorem proper_handle (q : TusRequest) :
    (fileSteps s.call (h.handle q)).Uses (Proper s) fun _ _ => True := by
  apply uses_fileSteps TusHandler.makes
  · exact fun o _ ho => (s.performs_call o ho).mono fun _ hop => ⟨ho, hop⟩
  · exact fun _ => trivial

theorem harmless_handle (hid : id.Valid) (q : TusRequest) :
    Harmless s id (fileSteps s.call (h.handle q)) :=
  uses_fileSteps TusHandler.makes (fun _ _ ho => harmless_call ho hid) fun _ hrewrites => hrewrites

/-- No record is removed again from where there is none, and none is written
but by a creation. -/
theorem content_none (ho : Proper s (.file call o)) (hid : id.Valid)
    (hclean : ¬ Rewrites s id (.file call o))
    (hnew : ∀ info, call = .createUpload info → o.modified.isSome → info.id ≠ id)
    (hnone : d.content (s.infoPath id) = none) :
    (Disk.interp order o d).2.content (s.infoPath id) = none := by
  by_cases hmodified : s.infoPath id ∈ o.modified
  · by_cases hne : id = call.target
    · cases o with
      | removeFile p =>
          obtain rfl : p = s.infoPath id := Option.some.inj hmodified
          simp only [Disk.interp, Disk.removeFile]
          split
          · exact AList.lookup_erase ..
          · split <;> exact hnone
      | write _ _ | openTruncate _ | copy _ _ =>
          cases call with
          | createUpload info => exact absurd hne.symm (hnew info rfl rfl)
          | _ => exact absurd hmodified hclean
      | _ => cases hmodified
    · exact absurd (ho.2.2 _ hmodified) (s.path_not_own ho.1 hid hne)
  · rw [Disk.content_interp order o, hnone]
    rintro p hp rfl
    exact hmodified hp

/-- What the clients keep of the removed records. -/
structure Kept (s : FileStore) (c : FileClients Fates) : Prop where
  proper : ∀ t q p, c.threads t = .running q p → p.Uses (Proper s) fun _ _ => True
  gone : ∀ id, c.shared.notes.removed id = true → id.Valid ∧ c.shared.notes.used id = true ∧
    c.shared.store.content (s.infoPath id) = none
  harmless : ∀ id, c.shared.notes.removed id = true → ∀ t q p, c.threads t = .running q p →
    Harmless s id p

/-- What is known of the operations to come is known of those after one. -/
theorem running_update {P : StepProg TusResponse → Prop} {c : FileClients Fates} {t : ℕ}
    {th : Thread StepSig Halt TusResponse TusRequest}
    (hth : ∀ q p, th = .running q p → P p) (hP : ∀ t q p, c.threads t = .running q p → P p) :
    ∀ t' q p, Function.update c.threads t th t' = .running q p → P p := by
  intro t' q p hrunning
  by_cases ht : t' = t
  · subst ht
    rw [Function.update_self] at hrunning
    exact hth q p hrunning
  · rw [Function.update_of_ne ht] at hrunning
    exact hP t' q p hrunning

theorem used_filed {m : Shared Disk Fates} {t : ℕ} (hused : m.notes.used id = true) :
    (m.filed (observer s) order t call o).notes.used id = true := by
  cases call with
  | createUpload info =>
      change Function.update m.notes.used info.id _ id = true
      by_cases hid : id = info.id
      · subst hid
        simp [hused]
      · rwa [Function.update_of_ne hid]
  | delete a =>
      simp only [Shared.filed, observer]
      split
      · change Function.update m.notes.used a true id = true
        by_cases hid : id = a
        · subst hid
          exact Function.update_self ..
        · rwa [Function.update_of_ne hid]
      · exact hused
  | _ => exact hused

/-- A record is removed by a deletion, and its id was taken. -/
theorem removed_filed {m : Shared Disk Fates} {t : ℕ}
    (hremoved : (m.filed (observer s) order t call o).notes.removed id = true) :
    m.notes.removed id = true ∨ call = .delete id ∧ o = .removeFile (s.infoPath id) ∧
      (m.filed (observer s) order t call o).store.content (s.infoPath id) = none ∧
      (m.filed (observer s) order t call o).notes.used id = true := by
  cases call with
  | delete a =>
      simp only [Shared.filed, observer] at hremoved ⊢
      split at hremoved
      · next hgone =>
          by_cases hid : id = a
          · subst hid
            rw [if_pos hgone]
            exact .inr ⟨rfl, hgone.1, hgone.2, Function.update_self ..⟩
          · left
            rwa [← Function.update_of_ne hid true m.notes.removed]
      · exact .inl hremoved
  | _ => exact .inl hremoved

/-- A removal that is not refused leaves no file. -/
theorem content_removeFile {p : Path}
    (hr : (Disk.interp order (.removeFile p) d).1 = .ok () ∨
      (Disk.interp order (.removeFile p) d).1 = .error .notFound) :
    (Disk.interp order (.removeFile p) d).2.content p = none := by
  simp only [Disk.interp, Disk.removeFile] at hr ⊢
  split
  · exact AList.lookup_erase ..
  · next hmem =>
      split
      · simp_all
      · exact AList.lookup_eq_none.mpr hmem

theorem missing_interp (hnone : d.content (s.infoPath id) = none) :
    Missing s id (.file call o) (Disk.interp order o d).1 := by
  cases o with
  | read p =>
      rintro rfl
      simp only [Disk.interp, Disk.read, hnone]
      split
      · exact ⟨_, rfl⟩
      · exact ⟨_, rfl⟩
  | _ => trivial

/-- What a handler does between its store calls touches no file, and of what
is noted only the announcements. -/
theorem handler_act {o : HandlerOp} {env : Env} {t : ℕ} {m m' : Shared Disk Fates} {r : o.Ans}
    (hact : fileAct (observer s) env order t (.handler o) m = some (r, m')) :
    m'.store = m.store ∧ (m'.notes = m.notes ∨ ∃ id, o = .emit (.uploadTerminated id) ∧
      m'.notes = { m.notes with terminated := Function.update m.notes.terminated id true }) := by
  cases o with
  | store o => cases hact
  | acquire a =>
      obtain ⟨-, -, rfl⟩ | ⟨e, -, rfl⟩ := fileAct_acquire (observer s) order hact
      · exact ⟨rfl, .inl rfl⟩
      · exact ⟨rfl, .inl rfl⟩
  | emit event =>
      obtain ⟨-, rfl⟩ := Prod.mk.inj (Option.some.inj hact)
      cases event with
      | uploadTerminated id => exact ⟨rfl, .inr ⟨id, rfl, rfl⟩⟩
      | _ => exact ⟨rfl, .inl rfl⟩
  | _ =>
      obtain ⟨-, rfl⟩ := Prod.mk.inj (Option.some.inj hact)
      exact ⟨rfl, .inl rfl⟩

/-- A move keeps what is known of the removed records. -/
theorem kept_next {c c' : FileClients Fates} {m : Move TusRequest ℕ (Env × Listing)}
    (hfresh : Fresh c m) (hsettled : Settled s c m) (hnext : next (clients s h) m c = some c')
    (hkept : Kept s c) : Kept s c' := by
  obtain ⟨hproper, hgone, hharmless⟩ := hkept
  rcases next_cases hnext with ⟨t, q, rfl, -, rfl⟩ |
    ⟨t, x, q, o, k, r, m', rfl, hrunning, hact, rfl⟩ |
    ⟨t, q, p, r, rfl, -, -, rfl⟩
  · refine ⟨running_update ?_ hproper, hgone, fun id hremoved =>
      running_update ?_ (hharmless id hremoved)⟩
    · rintro q' p ⟨⟩
      exact proper_handle q
    · rintro q' p ⟨⟩
      exact harmless_handle (hgone id hremoved).1 q
  · have huses := hproper t q _ hrunning
    have hafter {P : StepProg TusResponse → Prop} (hP : P (k r)) (q' : TusRequest)
        (p : StepProg TusResponse) (heq : Thread.running q (k r) = .running q' p) : P p := by
      obtain ⟨rfl, rfl⟩ := Thread.running.inj heq
      exact hP
    have hproper' := running_update (t := t) (hafter (huses.2 r trivial)) hproper
    cases o with
    | handler o =>
        obtain ⟨hstore, hnotes⟩ := handler_act hact
        obtain ⟨hused, hremoved⟩ : m'.notes.used = c.shared.notes.used ∧
            m'.notes.removed = c.shared.notes.removed := by
          rcases hnotes with hnotes | ⟨id, -, hnotes⟩
          · rw [hnotes]
            exact ⟨rfl, rfl⟩
          · rw [hnotes]
            exact ⟨rfl, rfl⟩
        refine ⟨hproper', fun id hid => ?_, fun id hid => ?_⟩
        · rw [hremoved] at hid
          obtain ⟨hvalid, hold, hnone⟩ := hgone id hid
          exact ⟨hvalid, by rwa [hused], by rwa [hstore]⟩
        · rw [hremoved] at hid
          have hclean := hharmless id hid
          exact running_update (hafter ((hclean t q _ hrunning).2 r trivial)) hclean
    | file call o =>
        obtain ⟨rfl, rfl⟩ := Prod.mk.inj (Option.some.inj hact)
        have hstep {id : UploadId} (hvalid : id.Valid)
            (hclean : ∀ t q p, c.threads t = .running q p → Harmless s id p)
            (hanswer : Missing s id (.file call o) (Disk.interp x.2 o c.shared.store).1) :
            ∀ t' q' p, Function.update c.threads t (.running q (k _)) t' = .running q' p →
              Harmless s id p :=
          running_update (hafter ((hclean t q _ hrunning).2 _ hanswer)) hclean
        refine ⟨hproper', fun id hid => ?_, fun id hid => ?_⟩
        · rcases removed_filed hid with hid | ⟨rfl, rfl, hnone, hused⟩
          · obtain ⟨hvalid, hused, hnone⟩ := hgone id hid
            refine ⟨hvalid, used_filed hused, ?_⟩
            apply content_none huses.1 hvalid (hharmless id hid t q _ hrunning).1 _ hnone
            rintro info rfl hsome rfl
            have hunused := hfresh t x q info o k rfl hrunning hsome
            rw [hused] at hunused
            cases hunused
          · exact ⟨huses.1.1, hused, hnone⟩
        · rcases removed_filed hid with hid | ⟨rfl, rfl, hnone, -⟩
          · obtain ⟨hvalid, -, hnone⟩ := hgone id hid
            exact hstep hvalid (hharmless id hid) (missing_interp hnone)
          · exact hstep huses.1.1 (hsettled t x q id k rfl hrunning) trivial
  · have hdone {P : StepProg TusResponse → Prop} (q' : TusRequest) (p' : StepProg TusResponse)
        (heq : Thread.done q r = .running q' p') : P p' := by cases heq
    exact ⟨running_update hdone hproper, hgone,
      fun id hremoved => running_update hdone (hharmless id hremoved)⟩

/-! ## Announced terminations -/

/-- Nobody takes back a removal, and every announced upload was removed. -/
def discipline : Discipline StepSig ℕ (Shared Disk Fates) where
  rely _ m m' := ∀ id, m.notes.removed id = true → m'.notes.removed id = true
  inv m := ∀ id, m.notes.terminated id = true → m.notes.removed id = true
  allowed _ _ _ := True
  refl _ _ := fun _ hid => hid
  trans h h' := fun id hid => h' id (h id hid)

/-- Any operation but the announcement of a termination. -/
def Plain : StepOp → Prop
  | .handler (.emit (.uploadTerminated _)) => False
  | _ => True

variable {t : ℕ} {A E : Shared Disk Fates → Prop}

theorem mono_filed (m : Shared Disk Fates) (hid : m.notes.removed id = true) :
    (m.filed (observer s) order t call o).notes.removed id = true := by
  cases call with
  | delete a =>
      simp only [Shared.filed, observer]
      split
      · change Function.update m.notes.removed a true id = true
        by_cases hne : id = a
        · subst hne
          exact Function.update_self ..
        · rwa [Function.update_of_ne hne]
      · exact hid
  | _ => exact hid

theorem terminated_filed (m : Shared Disk Fates) :
    (m.filed (observer s) order t call o).notes.terminated = m.notes.terminated := by
  cases call with
  | delete a =>
      simp only [Shared.filed, observer]
      split <;> rfl
  | _ => rfl

/-- What a client does besides announcing terminations. -/
theorem plain_act {o : StepOp} {x : Env × Listing} {m m' : Shared Disk Fates} {r : o.Ans}
    (ho : Plain o) (hact : (clients s h).act x t o m = some (r, m')) :
    m'.notes.terminated = m.notes.terminated ∧
      ∀ id, m.notes.removed id = true → m'.notes.removed id = true := by
  cases o with
  | file call o =>
      obtain ⟨-, rfl⟩ := Prod.mk.inj (Option.some.inj hact)
      exact ⟨terminated_filed m, fun id => mono_filed m⟩
  | handler o =>
      obtain ⟨-, hnotes | ⟨id, rfl, -⟩⟩ := handler_act hact
      · rw [hnotes]
        exact ⟨rfl, fun _ hid => hid⟩
      · exact ho.elim

theorem triple_plain {α : Type} {p : StepProg α} (hp : p.Uses Plain fun _ _ => True)
    (hA : Stable discipline t A) : Triple (clients s h) discipline t A p (fun _ => A) A := by
  apply Triple.of_uses hp hA
  intro o m x r m' ho hinv _ hs hact
  obtain ⟨hterminated, hremoved⟩ := plain_act ho hact
  refine ⟨⟨fun id hid => ?_, fun _ _ => hremoved⟩, hA m m' hremoved hs⟩
  rw [hterminated] at hid
  exact hremoved id (hinv id hid)

theorem stable_true : Stable discipline t fun _ => True := fun _ _ _ _ => trivial

/-- The record of the upload has been removed. -/
def Removed (id : UploadId) (m : Shared Disk Fates) : Prop := m.notes.removed id = true

theorem stable_removed : Stable discipline t (Removed id) := fun _ _ hrely hs => hrely id hs

/-- A handler that announces no termination. -/
theorem triple_quiet {α : Type} {p : Handler α}
    (hp : p.Uses (fun o => Plain (.handler o)) fun _ _ => True) (hA : Stable discipline t A) :
    Triple (clients s h) discipline t A (fileSteps s.call p) (fun _ => A) A := by
  apply triple_plain _ hA
  apply hp.expand
  intro o ho
  cases o with
  | store o => exact uses_callSteps ((s.call o).uses_of_forall fun _ => trivial)
  | _ => exact ⟨ho, fun _ _ => trivial⟩

/-- A deletion that succeeds has removed the record. -/
theorem triple_delete : FileTriple (clients s h) discipline t (fun _ => True) (.delete id)
    (s.delete id) (fun _ => Removed id) fun _ => True := by
  have hkeeps {m : Shared Disk Fates} {o : FsOp} {order : Listing} (hinv : discipline.inv m) :
      Keeps discipline t m (m.filed (observer s) order t (.delete id) o) := by
    refine ⟨fun a ha => mono_filed m (hinv a ?_), fun _ _ _ => mono_filed m⟩
    rwa [← terminated_filed m]
  have hany {α : Type} {A : Shared Disk Fates → Prop} (hA : Stable discipline t A) (p : FsProg α) :
      FileTriple (clients s h) discipline t A (.delete id) p (fun _ => A) fun _ => True := by
    refine (fileTriple_of_uses (p.uses_of_forall fun o => trivial) hA ?_).conseq (fun _ _ hs => hs)
      (fun _ _ hs => hs) fun _ _ => trivial
    exact fun o order m _ hinv _ hs => ⟨hkeeps hinv, hA m _ (fun _ => mono_filed m) hs⟩
  have hrecord : FileTriple (clients s h) discipline t (fun _ => True) (.delete id)
      (FsProg.removeFileIgnoreNotFound (s.infoPath id)) (fun _ => Removed id) fun _ => True := by
    refine fileTriple_op (C := fun r m => r = .ok () ∨ r = .error .notFound → Removed id m)
      stable_true ?_ ?_
    · intro order m hinv _ _
      refine ⟨hkeeps hinv, fun hr => ?_⟩
      have hnone : (Disk.interp order (.removeFile (s.infoPath id)) m.store).2.content
          (s.infoPath id) = none := content_removeFile hr
      change ((observer s).file t (.delete id) _ m.store _ m.notes).removed id = true
      simp only [observer]
      rw [if_pos ⟨trivial, hnone⟩]
      exact Function.update_self ..
    · intro r
      rcases r with (_ | _) | _
      · exact .ret fun _ _ hs => hs (.inr rfl)
      · exact .fail fun _ _ _ => trivial
      · exact .ret fun _ _ hs => hs (.inl rfl)
  refine (hany stable_true _).bind fun _ => hrecord.bind fun _ => ?_
  exact hany stable_removed _

/-- The announcement that follows a removal. -/
theorem triple_announce : Triple (clients s h) discipline t (Removed id)
    (fileSteps s.call (emit h (.uploadTerminated id))) (fun _ _ => True) E := by
  unfold emit
  split
  · refine Triple.op (C := fun _ _ => True) stable_removed ?_ fun _ => .ret fun _ _ _ => trivial
    intro m x r m' hinv _ hs hact
    obtain ⟨-, rfl⟩ := Prod.mk.inj (Option.some.inj hact)
    refine ⟨⟨fun a ha => ?_, fun _ _ _ hid => hid⟩, trivial⟩
    by_cases hne : a = id
    · subst hne
      exact hs
    · change Function.update m.notes.terminated id true a = true at ha
      rw [Function.update_of_ne hne] at ha
      exact hinv a ha
  · exact .ret fun _ _ _ => trivial

/-- Any outcome of any work. -/
abbrev Sound (h : TusHandler) (s : FileStore) (t : ℕ) {α : Type} (p : Handler α) : Prop :=
  Triple (clients s h) discipline t (fun _ => True) (fileSteps s.call p) (fun _ _ => True)
    fun _ => True

theorem sound_quiet {α : Type} {p : Handler α}
    (hp : p.Uses (fun o => Plain (.handler o)) fun _ _ => True) : Sound h s t p :=
  triple_quiet hp stable_true

theorem sound_terminate {α : Type} {f : Unit → Handler α} (hf : Sound h s t (f ())) :
    Sound h s t ((Handler.delete id).bind fun _ => (emit h (.uploadTerminated id)).bind f) := by
  apply fileSteps_then (fileSteps_store (o := .delete id) triple_delete)
  intro _
  exact fileSteps_then triple_announce fun _ => hf

theorem sound_withLock {α : Type} {p : Handler α} (hp : Sound h s t p) :
    Sound h s t (withLock h id p) := by
  apply fileSteps_withLock_unheeded stable_true (fun _ => stable_true) stable_true
    (fun _ _ => trivial) _ _ hp
  · exact fun m hinv _ => ⟨⟨hinv, fun _ _ _ hid => hid⟩, trivial⟩
  · refine fun r m hinv _ => ⟨⟨hinv, fun _ _ _ hid => hid⟩, ?_⟩
    cases r <;> trivial

theorem plain_of_silent {C : StoreOp → Prop} (o : HandlerOp) (ho : Silent C o) :
    Plain (.handler o) := by
  cases o with
  | emit _ => exact ho.elim
  | _ => trivial

theorem plain_of_unshared (o : HandlerOp) (ho : Unshared o) : Plain (.handler o) := by
  cases o with
  | emit _ => exact ho.elim
  | _ => trivial

theorem sound_hushed {α : Type} {C : StoreOp → Prop} {p : Handler α} (hp : Hushed C p) :
    Sound h s t p :=
  sound_quiet (hp.mono plain_of_silent)

theorem sound_lookUp {α : Type} {f : Unit → Handler α} (hf : Sound h s t (f ())) :
    Sound h s t ((Handler.getUpload id).bind f) :=
  fileSteps_then (sound_quiet (uses_store trivial)) fun _ => hf

/-- The consent to a termination, where a callback gives it. -/
theorem sound_consent {α : Type} {f : Unit → Handler α} (hf : Sound h s t (f ())) :
    Sound h s t ((Handler.getInfo id).bind fun info => (preTerminate h info).bind f) := by
  refine fileSteps_then (sound_quiet (uses_store (o := .getInfo id) trivial)) fun info => ?_
  exact fileSteps_then (sound_quiet (uses_preTerminate plain_of_unshared info)) fun _ => hf

theorem sound_delete (q : TusRequest) : Sound h s t (Delete.handle h q) := by
  have hlocked (a : UploadId) : Sound h s t (withLock h a do
      getUpload a
      delete a
      emit h (.uploadTerminated a)
      return h.response 204 [] []) := by
    refine sound_withLock (sound_lookUp (sound_terminate ?_))
    exact .ret fun _ _ _ => trivial
  unfold Delete.handle
  refine fileSteps_then (sound_quiet (uses_check _)) fun _ => ?_
  refine fileSteps_then (sound_quiet (uses_ensure _ _)) fun _ => ?_
  refine fileSteps_then (sound_quiet (uses_check _)) fun a => ?_
  split
  · exact sound_lookUp (sound_consent (hlocked a))
  · exact hlocked a

theorem sound_patch (q : TusRequest) : Sound h s t (Patch.handle h q) := by
  unfold Patch.handle
  refine fileSteps_then (sound_quiet (uses_check _)) fun ⟨offset, a⟩ => sound_withLock ?_
  apply sound_quiet
  exact Patch.uses_locked plain_of_unshared (fun _ _ => trivial) fun _ => ⟨trivial, trivial⟩

theorem sound_cleanupPartials (ids : List UploadId) : Sound h s t (Post.cleanupPartials h ids) := by
  induction ids with
  | nil => exact .ret fun _ _ _ => trivial
  | cons a ids ih =>
      have hrest : Sound h s t ((Handler.delete a).bind fun _ =>
          (emit h (.uploadTerminated a)).bind fun _ => Post.cleanupPartials h ids) :=
        sound_terminate ih
      apply sound_lookUp
      split
      · exact sound_consent hrest
      · exact hrest

theorem sound_post (q : TusRequest) : Sound h s t (Post.handle h q) := by
  unfold Post.handle
  refine fileSteps_then (sound_quiet (uses_check _)) fun p => ?_
  refine fileSteps_then (sound_quiet (uses_newUuid plain_of_unshared)) fun uuid => ?_
  refine fileSteps_then (sound_quiet (uses_check _)) fun info => ?_
  refine fileSteps_then (sound_quiet (uses_expiry plain_of_unshared)) fun expiresAt => ?_
  refine fileSteps_then (sound_quiet (uses_preCreate plain_of_unshared _)) fun info => ?_
  refine fileSteps_then (sound_quiet (uses_store (o := .createUpload info) trivial)) fun _ => ?_
  rw [Post.fill_eq]
  refine fileSteps_then (sound_hushed Post.hushed_compose) fun bytesWritten => ?_
  refine fileSteps_then (sound_quiet (uses_store (o := .getInfo info.id) trivial))
    fun finalInfo => ?_
  refine fileSteps_then (sound_quiet (uses_check _)) fun _ => ?_
  have hcleanup : Sound h s t (Post.cleanup h p info.id finalInfo) := by
    unfold Post.cleanup
    split
    · refine fileSteps_then (sound_cleanupPartials _) fun _ => ?_
      exact sound_quiet (uses_store (o := .getInfo info.id) trivial)
    · exact .ret fun _ _ _ => trivial
  refine fileSteps_then hcleanup fun finalInfo => ?_
  refine fileSteps_then (sound_quiet (uses_emit trivial)) fun _ => ?_
  refine fileSteps_then (sound_quiet (uses_finishIfComplete plain_of_unshared _ trivial trivial))
    fun _ => ?_
  refine fileSteps_then (sound_quiet (uses_check _)) fun _ => ?_
  exact .ret fun _ _ _ => trivial

theorem sound_handle (q : TusRequest) : Sound h s t (h.handle q) := by
  refine fileSteps_handle (E := fun _ => True) ?_ fun _ _ _ => trivial
  unfold TusHandler.dispatch
  cases q.method with
  | options => exact sound_hushed Options.hushed
  | head => exact sound_hushed (Head.hushed (C := fun _ => True) fun _ => ⟨trivial, trivial⟩)
  | get => exact sound_hushed Get.hushed
  | post => exact sound_post q
  | patch => exact sound_patch q
  | delete => exact sound_delete q
  | other _ => exact .fail fun _ _ _ => trivial

/-- A PATCH, a HEAD, a GET, a DELETE, or a POST that joins other uploads. -/
def Admitted (h : TusHandler) (q : TusRequest) : Prop :=
  q.method = .patch ∨ q.method = .head ∨ q.method = .get ∨ q.method = .delete ∨
    q.method = .post ∧ ∃ p, Post.parseRequest h q = .ok p ∧ p.isFinal = true

/-- Only such requests arrive. -/
def Admits (h : TusHandler) (_ : FileClients Fates) (m : Move TusRequest ℕ (Env × Listing)) :
    Prop :=
  ∀ t q, m = .start t q → Admitted h q

/-- A terminated upload has no record. -/
def Gone (s : FileStore) (c : FileClients Fates) : Prop :=
  ∀ id, c.shared.notes.terminated id = true → c.shared.store.content (s.infoPath id) = none

theorem terminated_gone_of_settled {c : FileClients Fates}
    (hc : Reach (clients s h) (fun c m => Fresh c m ∧ Settled s c m) (onDisk d (.initial s d)) c) :
    Gone s c := by
  have hkept : Kept s c := by
    induction hc with
    | refl => exact ⟨nofun, nofun, nofun⟩
    | move m hm hnext _ ih => exact kept_next hm.1 hm.2 hnext ih
  have hsecured := Reach.secured (D := discipline) (A := fun _ _ _ _ => True)
    (fun _ _ _ => stable_true) (fun _ _ _ _ _ _ _ _ _ _ => trivial) ?_ ?_ (fun _ => rfl) ?_ hc
  · exact fun id hid => (hkept.gone id (hsecured.1 id hid)).2.2
  · intro c t q _ hinv
    refine ⟨⟨hinv, fun _ _ _ hid => hid⟩, ?_⟩
    apply (sound_handle q _ hinv trivial).mono
    exact fun _ _ _ => trivial
  · exact fun t q r m hinv _ => ⟨⟨hinv, fun _ _ _ hid => hid⟩, trivial⟩
  · exact nofun

/-! ## Requests that write nothing -/

/-- The operation changes no file, or a call that is no creation removes one. -/
def Passive : StepOp → Prop
  | .file call o => (∀ info, call ≠ .createUpload info) ∧
      (o.modified = none ∨ ∃ p, o = .removeFile p)
  | .handler _ => True

theorem not_rewrites_of_passive {o : StepOp} (ho : Passive o) : ¬ Rewrites s id o := by
  cases o with
  | file call o =>
      rcases ho.2 with hmodified | ⟨p, rfl⟩
      · exact not_rewrites_looks hmodified
      · cases call <;> exact fun hrewrites => hrewrites
  | handler o => exact fun hrewrites => hrewrites

theorem passive_handle {q : TusRequest} (hpost : q.method ≠ .post) (hpatch : q.method ≠ .patch) :
    (fileSteps s.call (h.handle q)).Uses Passive fun _ _ => True := by
  have hmakes : Makes (fun o => ∃ id, Reads id o ∨ Deletes id o) UploadId.Valid (h.handle q) := by
    refine Makes.bind (Prog.Uses.attempt (TusHandler.makes_other hpost hpatch)) fun r => ?_
    rcases r with (e | _) | resp <;> trivial
  apply uses_fileSteps hmakes _ fun _ => trivial
  rintro call ⟨id, hcall⟩ hid
  have hlooks (hcreate : ∀ info, call ≠ .createUpload info) {o : FsOp} (ho : o.modified = none) :
      Passive (.file call o) := ⟨hcreate, .inl ho⟩
  have hread {o : FsOp} (hcreate : ∀ info, call ≠ .createUpload info) (ho : o.modified = none) :
      (FsProg.io o).Uses (fun o => Passive (.file call o)) FileStore.AnyAnswer :=
    FileStore.uses_io (hlooks hcreate ho)
  have hinfo (hcreate : ∀ info, call ≠ .createUpload info) (id : UploadId) :
      (s.readInfo id).Uses (fun o => Passive (.file call o)) FileStore.AnyAnswer := by
    refine (hread (o := .read (s.infoPath id)) hcreate rfl).bind fun bytes => ?_
    split <;> trivial
  cases call with
  | getUpload id' =>
      refine (Prog.uses_ofExcept _).bind fun _ => ?_
      refine (hread (o := .tryExists (s.infoPath id')) (fun _ => nofun) rfl).bind fun found => ?_
      split <;> trivial
  | getInfo id' => exact hinfo (fun _ => nofun) id'
  | readContent id' =>
      refine (hinfo (fun _ => nofun) id').bind fun info => (Prog.uses_ofExcept _).bind fun _ => ?_
      refine (hread (o := .tryExists (s.dataPath id')) (fun _ => nofun) rfl).bind fun found => ?_
      split
      · exact hread (o := .read (s.dataPath id')) (fun _ => nofun) rfl
      · trivial
  | delete id' =>
      apply s.uses_delete (fun _ _ => hlooks fun _ => nofun) hid
      · exact ⟨fun _ => nofun, .inr ⟨_, rfl⟩⟩
      · exact ⟨fun _ => nofun, .inr ⟨_, rfl⟩⟩
      · exact fun p _ => ⟨fun _ => nofun, .inr ⟨p, rfl⟩⟩
  | _ => rcases hcall with hcall | hcall <;> cases hcall

namespace Racing

open FileStore (uploads)

def handler : TusHandler :=
  ⟨{ extensions := { concatenation := true, cleanupConcatPartials := true }
     hooks := { channelCapacity := 1 } }, true, .fixed⟩

/-- A complete upload of one byte. -/
def info : UploadInfo :=
  { UploadInfo.new ⟨"a".toList⟩ (some 1) with offset := 1, isPartial := true }

def disk : Disk :=
  ((Disk.put ⟨∅, [uploads.dir]⟩ (uploads.infoPath info.id) (uploads.codec.encode info)).put
    (uploads.dataPath info.id) [97])

/-- No byte at the end of the upload. -/
def patch : TusRequest :=
  .ofTexts .patch (some "a") [(.tusResumable, "1.0.0"),
    (.contentType, "application/offset+octet-stream"), (.uploadOffset, "1")] (some [])

def final : TusRequest :=
  .ofTexts .post none [(.tusResumable, "1.0.0"), (.uploadConcat, "final;/files/a")] none

def head : TusRequest := .ofTexts .head (some "a") [(.tusResumable, "1.0.0")] none

def delete : TusRequest := .ofTexts .delete (some "a") [(.tusResumable, "1.0.0")] none

abbrev RaceMove : Type := Move TusRequest ℕ (Env × Listing)

def steps (t n : ℕ) : List RaceMove :=
  List.replicate n (.step t (.permissive .b, ⟨List.reverse, List.reverse_perm⟩))

/-- The PATCH has read the record when the final upload takes it away. -/
def run : List RaceMove :=
  .start 1 patch :: steps 1 4 ++ .start 0 final :: steps 0 19 ++ steps 1 5

/-- A PATCH is over, and a HEAD has found the upload, when it is deleted. -/
def quietRun : List RaceMove :=
  .start 2 patch :: steps 2 21 ++ .finish 2 :: .start 1 head :: steps 1 1 ++
    .start 0 delete :: steps 0 8 ++ steps 1 1 ++ [.finish 1]

/-- Whether the upload was announced as terminated, and whether it has a record. -/
def fate (c : FileClients Fates) : Bool × Bool :=
  (c.shared.notes.terminated info.id, (c.shared.store.content (uploads.infoPath info.id)).isSome)

/-- Whether a move may be part of the run. -/
def admits (c : FileClients Fates) : RaceMove → Bool
  | .start _ q =>
    q.method == .patch || q.method == .post &&
      (Post.parseRequest handler q).toOption.any fun p => p.isFinal
  | .step t _ =>
    match c.threads t with
    | .running _ (.op (.file (.createUpload info) o) _) =>
      !o.modified.isSome || !c.shared.notes.used info.id
    | _ => true
  | .finish _ => true

theorem admits_move {c : FileClients Fates} {m : RaceMove} (hm : admits c m = true) :
    Fresh c m ∧ Admits handler c m := by
  constructor
  · rintro t x q info o k rfl hrunning hsome
    simpa [admits, hrunning, hsome] using hm
  · rintro t q rfl
    simp only [admits, Bool.or_eq_true, Bool.and_eq_true, beq_iff_eq, Option.any_eq_true] at hm
    rcases hm with hpatch | ⟨hpost, p, hp, hfinal⟩
    · exact .inl hpatch
    · exact .inr (.inr (.inr (.inr ⟨hpost, p, ok_of_toOption hp, hfinal⟩)))

/-- Whether a move may be part of the run in which client 2 alone writes, and
nobody deletes while it does. -/
def calm (c : FileClients Fates) : RaceMove → Bool
  | .start t q => q.method != .post && (t == 2 || q.method != .patch)
  | .step t _ =>
    match c.threads t with
    | .running _ (.op (.file (.createUpload _) _) _) => false
    | .running _ (.op (.file (.delete _) _) _) =>
      match c.threads 2 with
      | .running _ _ => false
      | _ => true
    | _ => true
  | .finish _ => true

theorem evaluated :
    (checked (clients uploads handler) admits run (onDisk disk (.initial uploads disk))).map fate =
      some (true, true) := by
  rw [FileStore.uploads_eq]
  decide +kernel

theorem quiet_evaluated :
    (checked (clients uploads handler) calm quietRun (onDisk disk (.initial uploads disk))).map
      fate = some (true, false) := by
  rw [FileStore.uploads_eq]
  decide +kernel

/-- Every client but client 2 has only operations ahead that write nothing. -/
def OthersPassive (c : FileClients Fates) : Prop :=
  ∀ t q p, c.threads t = .running q p → t = 2 ∨ p.Uses Passive fun _ _ => True

theorem othersPassive_next {h : TusHandler} {s : FileStore} {c c' : FileClients Fates}
    {m : RaceMove} (hm : calm c m = true) (hc : OthersPassive c)
    (hnext : next (clients s h) m c = some c') : OthersPassive c' := by
  rcases next_cases hnext with ⟨t, q, rfl, -, rfl⟩ | ⟨t, x, q, o, k, r, m', rfl, hrunning, -, rfl⟩ |
    ⟨t, q, p, r, rfl, -, -, rfl⟩
  · intro t' q' p hrunning
    simp only [calm, Bool.and_eq_true, Bool.or_eq_true, beq_iff_eq, bne_iff_ne, ne_eq] at hm
    by_cases ht : t' = t
    · subst ht
      simp only [Function.update_self] at hrunning
      cases hrunning
      exact hm.2.imp_right fun hpatch => passive_handle hm.1 hpatch
    · simp only [Function.update_of_ne ht] at hrunning
      exact hc t' q' p hrunning
  · intro t' q' p hnow
    by_cases ht : t' = t
    · subst ht
      simp only [Function.update_self] at hnow
      cases hnow
      exact (hc t' q _ hrunning).imp_right fun huses => huses.2 r trivial
    · simp only [Function.update_of_ne ht] at hnow
      exact hc t' q' p hnow
  · intro t' q' p' hnow
    by_cases ht : t' = t
    · subst ht
      simp only [Function.update_self] at hnow
      cases hnow
    · simp only [Function.update_of_ne ht] at hnow
      exact hc t' q' p' hnow

theorem allowed_of_calm {s : FileStore} {c : FileClients Fates} {m : RaceMove}
    (hm : calm c m = true) (hc : OthersPassive c) : Fresh c m ∧ Settled s c m := by
  constructor
  · rintro t x q info o k rfl hrunning _
    simp only [calm, hrunning] at hm
    cases hm
  · rintro t x q id k rfl hrunning t' q' p hrunning'
    simp only [calm, hrunning] at hm
    rcases hc t' q' p hrunning' with rfl | huses
    · simp [hrunning'] at hm
    · apply (huses.mono _).restrict fun _ _ _ => trivial
      exact fun o ho => not_rewrites_of_passive ho

end Racing

open Racing FileStore in
theorem terminated_gone_of_settled_racing : ∃ c,
    checked (clients uploads handler) calm quietRun (onDisk disk (.initial uploads disk)) =
        some c ∧
      c.shared.notes.terminated info.id = true ∧ Gone uploads c := by
  obtain ⟨c, hc, hfate⟩ := Option.map_eq_some_iff.mp quiet_evaluated
  refine ⟨c, hc, (Prod.mk.inj hfate).1, ?_⟩
  apply terminated_gone_of_settled
  apply reach_of_checked_keeping (I := OthersPassive) (fun _ _ => allowed_of_calm)
    (fun _ _ _ => othersPassive_next) _ .refl hc
  rintro t q p ⟨⟩

open Racing FileStore in
theorem terminated_upload_revived : ¬ ∀ (s : FileStore) (h : TusHandler) (d : Disk)
    (c : FileClients Fates), h.hasLocker = true →
      h.config.extensions.cleanupConcatPartials = true →
      Reach (clients s h) (fun c m => Fresh c m ∧ Admits h c m) (onDisk d (.initial s d)) c →
        Gone s c := by
  intro hall
  obtain ⟨c, hc, hfate⟩ := Option.map_eq_some_iff.mp evaluated
  obtain ⟨hterminated, hrecord⟩ := Prod.mk.inj hfate
  have hgone := hall uploads handler disk c rfl rfl
    (reach_of_checked (fun _ _ => admits_move) .refl hc) info.id hterminated
  rw [hgone] at hrecord
  cases hrecord

end Revival

end Fileloft
