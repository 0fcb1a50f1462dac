import Fileloft.Memory.Bounds
import Fileloft.Server.Events
import Fileloft.Server.Fresh

/-!
# Events over the in-memory store

Which events each request emits, and which requests keep the events about
every upload in order.
-/

namespace Fileloft.MemoryStore

open Handler Post

section Emits

variable {h : TusHandler} {env : Env} {req : TusRequest} {x : Exchange backend}
  {w : World MemoryStore} {id : UploadId}

theorem finish_store (id : UploadId) (info : UploadInfo) (w : World MemoryStore) :
    ((Post.finish h req id info).run (handlerInterp interp env) w).2.store = w.store := by
  obtain ⟨l, hrun, -⟩ := @Post.run_finish _ interp h env req id info w
  rw [hrun]
  change (finishing interp h env req id info w.store).2 = w.store
  rw [finishing_snd, completing]
  split
  · cases env.finishAnswer h info <;> rfl
  · rfl

/-- The cleanup terminates partials that it finds, each of them once, and
touches no other upload. -/
theorem cleanupPartials_events (hchannel : 0 < h.config.hooks.channelCapacity)
    (ids : List UploadId) (w : World MemoryStore) :
    ∃ gone : List UploadId,
      ((cleanupPartials h ids).run (handlerInterp interp env) w).2.events =
        w.events ++ gone.map .uploadTerminated ∧ gone.Nodup ∧
      (∀ i ∈ gone, w.store i ≠ none ∧
        ((cleanupPartials h ids).run (handlerInterp interp env) w).2.store i = none) ∧
      ∀ i, i ∉ gone →
        ((cleanupPartials h ids).run (handlerInterp interp env) w).2.store i = w.store i := by
  induction ids generalizing w with
  | nil => exact ⟨[], by simp [cleanupPartials], .nil, by simp, fun _ _ => rfl⟩
  | cons id ids ih =>
      obtain ⟨l, hl, hrun⟩ := @run_removable_bind _ interp h env _ pureReads id (fun _ =>
        (Handler.delete id).bind fun _ => (emit h (.uploadTerminated id)).bind fun _ =>
          cleanupPartials h ids) w
      simp only [cleanupPartials, Prog.bind_eq]
      rw [hrun]
      have hsame : (⟨w.store, w.log ++ l⟩ : World MemoryStore).events = w.events := by
        rw [@World.events_append _ w _ l rfl, hl, List.append_nil]
      cases hremovable : removable interp h env id w.store with
      | error e =>
          exact ⟨[], hsame.trans (List.append_nil _).symm, .nil, by simp, fun _ _ => rfl⟩
      | ok _ =>
          have hfound : w.store id ≠ none := by
            intro hnone
            cases hremovable.symm.trans (removable_none hnone)
          obtain ⟨entry, hentry⟩ := Option.ne_none_iff_exists'.mp hfound
          simp only [check_ok, Prog.ret_bind, run_delete_bind, interp, MemoryStore.delete, hentry,
            run_emit_bind]
          obtain ⟨gone, hevents, hnodup, hgone, hkept⟩ := ih (World.afterEmit h
            ⟨Function.update w.store id none, w.log ++ l⟩ (.uploadTerminated id))
          rw [World.afterEmit_store] at hgone hkept
          have hid : id ∉ gone := fun hmem => (hgone id hmem).1 (Function.update_self ..)
          have hless (i : UploadId) (hi : w.store i = none) :
              Function.update w.store id none i = none := by
            rw [Function.update_apply, hi, ite_self]
          refine ⟨id :: gone, ?_, List.nodup_cons.mpr ⟨hid, hnodup⟩, fun i hi => ?_,
            fun i hi => ?_⟩
          · rw [hevents, World.afterEmit_events hchannel]
            change (⟨w.store, w.log ++ l⟩ : World MemoryStore).events ++ _ ++ _ = _
            rw [hsame, List.append_assoc]
            rfl
          · rcases List.mem_cons.mp hi with rfl | hi
            · exact ⟨hfound, (hkept i hid).trans (Function.update_self ..)⟩
            · obtain ⟨hbefore, hafter⟩ := hgone i hi
              exact ⟨fun hwas => hbefore (hless i hwas), hafter⟩
          · obtain ⟨hne, hi⟩ := List.ne_and_not_mem_of_not_mem_cons hi
            exact (hkept i hi).trans (Function.update_of_ne hne ..)

/-- The events of the new upload `id` that a creation can end with. -/
def Announces (id : UploadId) (tail : List HookEvent) : Prop :=
  tail = [] ∨ ∃ info, info.id = id ∧
    (tail = [.uploadCreated info] ∨ tail = [.uploadCreated info, .uploadFinished info])

/-- The cleanup and the end of a creation. -/
theorem ending_events (hchannel : 0 < h.config.hooks.channelCapacity) (p : Parsed)
    {finalInfo : UploadInfo} (hid : finalInfo.id = id) (hkeyed : Keyed w.store) :
    ∃ (gone : List UploadId) (tail : List HookEvent),
      (((cleanup h p id finalInfo).bind fun info => Post.finish h req id info).run
        (handlerInterp interp env) w).2.events = w.events ++ gone.map .uploadTerminated ++ tail ∧
      gone.Nodup ∧ Announces id tail ∧
      (∀ i ∈ gone, w.store i ≠ none ∧
        (((cleanup h p id finalInfo).bind fun info => Post.finish h req id info).run
          (handlerInterp interp env) w).2.store i = none) ∧
      ∀ i, i ∉ gone →
        (((cleanup h p id finalInfo).bind fun info => Post.finish h req id info).run
          (handlerInterp interp env) w).2.store i = w.store i := by
  have hfinish {info : UploadInfo} (hinfo : info.id = id) (w : World MemoryStore) :
      ∃ tail, ((Post.finish h req id info).run (handlerInterp interp env) w).2.events =
        w.events ++ tail ∧ Announces id tail := by
    obtain ⟨tail, hevents, htail⟩ := @Post.finish_events _ interp env h req hchannel id info w
    refine ⟨_, hevents, .inr ⟨info, hinfo, htail.imp ?_ ?_⟩⟩
    · rintro rfl
      rfl
    · rintro rfl
      rfl
  unfold cleanup
  split
  · obtain ⟨gone, hgone, hnodup, hnone, hkept⟩ :=
      @cleanupPartials_events h env hchannel finalInfo.partialUploads w
    simp only [Prog.bind_eq, Prog.bind_assoc]
    rw [Prog.run_bind]
    have hmakes : Makes (fun _ => True) (fun _ => True)
        (cleanupPartials h finalInfo.partialUploads) :=
      makes_cleanupPartials (fun _ _ _ => trivial) _
    have hkeyed' : Keyed ((cleanupPartials h finalInfo.partialUploads).run
        (handlerInterp interp env) w).2.store :=
      hmakes.run_preserves (fun o _ _ hst => keyed_interp o hst) hkeyed
    rcases hrun : (cleanupPartials h finalInfo.partialUploads).run (handlerInterp interp env) w with
      ⟨e | _, w'⟩
    · rw [hrun] at hgone hnone hkept
      exact ⟨gone, [], by simpa using hgone, hnodup, .inl rfl, hnone, hkept⟩
    · rw [hrun] at hgone hnone hkept hkeyed'
      simp only [run_getInfo_bind, interp]
      cases hinfo : getInfo w'.store id with
      | error e => exact ⟨gone, [], by simpa using hgone, hnodup, .inl rfl, hnone, hkept⟩
      | ok info =>
          simp only [check_ok, Prog.ret_bind]
          have hid' := id_of_getInfo hkeyed' hinfo
          obtain ⟨tail, hevents, htail⟩ := hfinish hid' w'
          have hstore := @finish_store h env req id info w'
          refine ⟨gone, tail, hevents.trans (by rw [hgone]), hnodup, htail, fun i hi => ?_,
            fun i hi => ?_⟩
          · exact ⟨(hnone i hi).1, (congrFun hstore i).trans (hnone i hi).2⟩
          · exact (congrFun hstore i).trans (hkept i hi)
  · obtain ⟨tail, hevents, htail⟩ := hfinish hid w
    have hstore := @finish_store h env req id finalInfo w
    exact ⟨[], tail, hevents.trans (by simp), .nil, htail, by simp, fun i _ => congrFun hstore i⟩

/-- What precedes the cleanup touches only the new upload. -/
theorem compose_store (p : Parsed) (info : UploadInfo) {w : World MemoryStore}
    (hkeyed : Keyed w.store) :
    Keyed ((compose h req p info).run (handlerInterp interp env) w).2.store ∧
      ∀ i, i ≠ info.id →
        ((compose h req p info).run (handlerInterp interp env) w).2.store i = w.store i := by
  apply (@hushed_compose h req p info).store
    (I := fun st => Keyed st ∧ ∀ i, i ≠ info.id → st i = w.store i)
  · rintro o st ho ⟨hst, hsame⟩
    refine ⟨keyed_interp o hst, fun i hi => ?_⟩
    rw [← hsame i hi]
    cases o with
    | getUpload _ | getInfo _ => rfl
    | concatenate id' infos =>
        obtain rfl : id' = info.id := ho
        exact interp_of_ne (o := .concatenate info.id infos) hi.symm st
    | writeChunk id' offset reader =>
        obtain rfl : id' = info.id := ho
        exact interp_of_ne (o := .writeChunk info.id offset reader) hi.symm st
    | createUpload _ | finalize _ | delete _ | declareLength _ _ | readContent _ => cases ho
  · exact ⟨hkeyed, fun _ _ => rfl⟩

/-- The events of a creation that has its record. -/
theorem fill_events (hchannel : 0 < h.config.hooks.channelCapacity) (p : Parsed)
    (info : UploadInfo) (hkeyed : Keyed w.store) :
    ∃ (gone : List UploadId) (tail : List HookEvent),
      ((fill h req p info).run (handlerInterp interp env) w).2.events =
        w.events ++ gone.map .uploadTerminated ++ tail ∧
      gone.Nodup ∧ Announces info.id tail ∧
      (∀ i ∈ gone, (i ≠ info.id → w.store i ≠ none) ∧
        ((fill h req p info).run (handlerInterp interp env) w).2.store i = none) ∧
      ∀ i, i ∉ gone → i ≠ info.id →
        ((fill h req p info).run (handlerInterp interp env) w).2.store i = w.store i := by
  have hevents := @Hushed.events _ _ _ interp env _ (@hushed_compose h req p info) w
  obtain ⟨hkeyed', hsame⟩ := @compose_store h env req p info w hkeyed
  have hstops (w' : World MemoryStore) (hw' : w'.events = w.events) :
      w'.events = w.events ++ ([] : List UploadId).map .uploadTerminated ++ [] := by
    rw [hw', List.map_nil, List.append_nil, List.append_nil]
  rw [fill_eq, Prog.run_bind]
  rcases hrun : (compose h req p info).run (handlerInterp interp env) w with ⟨e | bytesWritten, w₁⟩
  · rw [hrun] at hevents hsame
    exact ⟨[], [], hstops _ hevents, .nil, .inl rfl, by simp, fun i _ => hsame i⟩
  · rw [hrun] at hevents hkeyed' hsame
    simp only [run_getInfo_bind, interp]
    cases hinfo : w₁.store.getInfo info.id with
    | error e =>
        exact ⟨[], [], hstops _ hevents, .nil, .inl rfl, by simp, fun i _ => hsame i⟩
    | ok finalInfo =>
        simp only [check_ok, Prog.ret_bind]
        cases withinLength finalInfo bytesWritten with
        | error e =>
            exact ⟨[], [], hstops _ hevents, .nil, .inl rfl, by simp, fun i _ => hsame i⟩
        | ok _ =>
            simp only [check_ok, Prog.ret_bind]
            obtain ⟨gone, tail, hending, hnodup, hannounces, hgone, hkept⟩ :=
              @ending_events h env req w₁ info.id hchannel p finalInfo
                (id_of_getInfo hkeyed' hinfo) hkeyed'
            refine ⟨gone, tail, ?_, hnodup, hannounces, fun i hi => ⟨fun hne => ?_, (hgone i hi).2⟩,
              fun i hi hne => (hkept i hi).trans (hsame i hne)⟩
            · rw [← hevents]
              exact hending
            · rw [← hsame i hne]
              exact (hgone i hi).1

end Emits

section Run

variable {h : TusHandler} {x : Exchange backend} {w : World MemoryStore} {id : UploadId}

theorem interp_none {o : StoreOp} {st : MemoryStore} (ho : ¬ Renews id o) (hst : st id = none) :
    (interp o st).2 id = none := by
  by_cases htarget : o.target = id
  · subst htarget
    cases o with
    | getUpload _ | getInfo _ | finalize _ | readContent _ => exact hst
    | createUpload info => exact absurd rfl ho
    | concatenate id partials => exact absurd rfl ho
    | writeChunk id offset reader =>
        change st id = none at hst
        cases reader <;> simp [interp, writeChunk, hst, StoreOp.target]
    | delete id =>
        change st id = none at hst
        simp [interp, delete, hst, StoreOp.target]
    | declareLength id length =>
        change st id = none at hst
        simp [interp, declareLength, hst, StoreOp.target]
  · rw [interp_of_ne htarget, hst]

/-- An upload that is gone stays gone until its id is settled on again. -/
theorem serve_none (hspares : Spares h x.env x.req id) (hid : w.store id = none) :
    (backend.serve h x w).2.store id = none :=
  hspares.preserves (I := fun st : MemoryStore => st id = none)
    (fun _ _ ho hst => interp_none ho hst) hid

/-- The creation gets as far as removing `id`, which it names: what comes
before is accepted, and so are the removals up to this one. -/
def Removes (h : TusHandler) (w : World MemoryStore) (x : Exchange backend) (id : UploadId) :
    Prop :=
  ∃ p info, prepare h x.env x.req = .ok (p, info) ∧ Ready w.store p info ∧
    Fits h x.req (joined w.store p info) ∧ tidies h p = true ∧
    ∃ done rest, info.partialUploads = done ++ id :: rest ∧ (done ++ [id]).Nodup ∧
      ∀ i ∈ done ++ [id], Accepted h x.env w.store i

theorem removes_of_mem {p : Parsed} {info : UploadInfo}
    (hprepare : prepare h x.env x.req = .ok (p, info)) (hready : Ready w.store p info)
    (hfits : Fits h x.req (joined w.store p info)) (htidies : tidies h p = true)
    {done rest : List UploadId} (hids : info.partialUploads = done ++ rest) (hdone : done.Nodup)
    (haccepted : ∀ i ∈ done, Accepted h x.env w.store i) (hid : id ∈ done) :
    Removes h w x id := by
  obtain ⟨front, back, rfl⟩ := List.append_of_mem hid
  refine ⟨p, info, hprepare, hready, hfits, htidies, front, back ++ rest, by simp [hids], ?_, ?_⟩
  · rw [List.append_cons] at hdone
    exact (List.nodup_append.mp hdone).1
  · intro i hi
    apply haccepted
    rw [List.append_cons]
    exact List.mem_append_left _ hi

/-- Whatever a creation removes, it gets as far as removing. -/
theorem removes_of_gone {p : Parsed} {info : UploadInfo} (hkeyed : Keyed w.store)
    (hmethod : x.req.method = .post) (hprepare : prepare h x.env x.req = .ok (p, info))
    (hfound : w.store id ≠ none) (hgone : (backend.serve h x w).2.store id = none) :
    Removes h w x id := by
  have hp := prepare_ok hprepare
  have hserve : (backend.serve h x w).2 =
      ((create h x.req p info).run (handlerInterp interp x.env) w).2 :=
    serve_prepared hmethod hprepare
  have hmem {entry : MemoryUploadState} {deleted : List UploadId}
      (hleft : left w.store info entry deleted id = none) : id ∈ deleted := by
    by_contra hnot
    unfold left at hleft
    rw [Function.update_apply] at hleft
    split at hleft
    · cases hleft
    · exact hfound (by simpa [without, hnot] using hleft)
  rw [hserve] at hgone
  by_cases hpass : ∀ entry deleted, ¬ Stops h x.env x.req w.store p info entry deleted
  · obtain ⟨resp, w', hrun, -, hstore⟩ := run_create_pass hkeyed hp hpass
    rw [hrun, hstore] at hgone
    obtain ⟨hready, hfits, hnodup, haccepted⟩ := of_not_stops hpass
    have hremoved := hmem hgone
    unfold removed at hremoved hnodup haccepted
    split at hremoved
    · next htidies =>
        rw [if_pos htidies] at hnodup haccepted
        exact removes_of_mem hprepare hready hfits htidies (List.append_nil _).symm hnodup haccepted
          hremoved
    · cases hremoved
  · push Not at hpass
    obtain ⟨entry, deleted, hstops⟩ := hpass
    obtain ⟨e, w', hrun, hstore⟩ := hstops.run hkeyed hp
    rw [hrun, hstore] at hgone
    have hdeleted := hmem hgone
    cases hstops with
    | parts | body => cases hdeleted
    | removal hready hfits htidies hids hdone haccepted _ =>
        exact removes_of_mem hprepare hready hfits htidies hids hdone haccepted hdeleted
    | finish hready hfits hremoved _ =>
        obtain ⟨hnodup, haccepted⟩ := hremoved
        unfold removed at hdeleted hnodup haccepted
        split at hdeleted
        · next htidies =>
            rw [if_pos htidies] at hnodup haccepted
            exact removes_of_mem hprepare hready hfits htidies (List.append_nil _).symm hnodup
              haccepted hdeleted
        · cases hdeleted

theorem serve_run : (backend.serve h x w).2 =
    ((h.dispatch x.req).run (handlerInterp interp x.env) w).2 :=
  congrArg Prod.snd (serve_eq interp x.env h w x.req)

/-- A request that neither creates, nor appends, nor terminates emits nothing. -/
theorem events_other (hpost : x.req.method ≠ .post) (hpatch : x.req.method ≠ .patch)
    (hdelete : x.req.method ≠ .delete) : (backend.serve h x w).2.events = w.events := by
  rw [serve_run]
  unfold TusHandler.dispatch
  cases hmethod : x.req.method with
  | options => exact Options.hushed.events w
  | head => exact (Head.hushed fun _ => ⟨trivial, trivial⟩ : Hushed (fun _ => True) _).events w
  | get => exact Get.hushed.events w
  | other _ => rfl
  | post => exact absurd hmethod hpost
  | patch => exact absurd hmethod hpatch
  | delete => exact absurd hmethod hdelete

/-- An accepted chunk announces progress, and the end if it is the last. -/
theorem events_patch (hchannel : 0 < h.config.hooks.channelCapacity) (hkeyed : Keyed w.store)
    (hmethod : x.req.method = .patch) :
    (backend.serve h x w).2.events = w.events ∨
    ∃ id info size buf newInfo tail, Patch.Admits interp h x.env x.req w.store id info size ∧
      Appends h x.req info size buf ∧ newInfo.id = id ∧
      (backend.serve h x w).2.events = w.events ++ .uploadProgress newInfo :: tail ∧
      (tail = [] ∨ tail = [.uploadFinished newInfo]) := by
  rw [serve_run, TusHandler.dispatch, hmethod]
  simp only [Patch.run_handle pureReads]
  cases hadmission : Patch.admission interp h x.env x.req w.store with
  | error e => exact .inl rfl
  | ok r =>
      obtain ⟨id, info, size⟩ := r
      have ha := Patch.admission_eq_ok.mp hadmission
      simp only
      rcases run_accept ha with ⟨buf, happends, hrun⟩ | ⟨e, -, hrun⟩
      · right
        rw [hrun]
        obtain ⟨-, -, -, entry, hentry, -⟩ := declared_entry ha
        obtain ⟨entry', hentry'⟩ := @writeChunk_isSome _ id _ info.offset (.ok buf) hentry
        have hkeyed' :
            Keyed (writeChunk (declared w.store id size) id info.offset (.ok buf)).2 := by
          apply keyed_interp (.writeChunk id info.offset (.ok buf))
          cases size with
          | none => exact hkeyed
          | some declaredSize => exact keyed_interp (.declareLength id declaredSize) hkeyed
        obtain ⟨tail, hevents, htail⟩ := @Patch.finish_events _ interp x.env h hchannel pureReads id
          entry'.info ⟨(writeChunk (declared w.store id size) id info.offset (.ok buf)).2, w.log⟩
          (by simp [interp, getInfo, hentry'])
        exact ⟨id, info, size, buf, entry'.info, tail, ha, happends, hkeyed' id entry' hentry',
          hevents, htail⟩
      · left
        rw [hrun]
        rfl

/-- An admitted termination removes the upload and says so. -/
theorem events_delete (hchannel : 0 < h.config.hooks.channelCapacity)
    (hmethod : x.req.method = .delete) :
    (backend.serve h x w).2.events = w.events ∨
    ∃ id, Delete.admission interp h x.env x.req w.store = .ok id ∧ w.store id ≠ none ∧
      (backend.serve h x w).2.events = w.events ++ [.uploadTerminated id] ∧
      (backend.serve h x w).2.store id = none := by
  rw [serve_run, TusHandler.dispatch, hmethod]
  obtain ⟨l, hl, hrun⟩ := @Delete.run_handle _ interp x.env h x.req pureReads w
  simp only [hrun]
  have hsame : (⟨w.store, w.log ++ l⟩ : World MemoryStore).events = w.events := by
    rw [@World.events_append _ w _ l rfl, hl, List.append_nil]
  cases hadmission : Delete.admission interp h x.env x.req w.store with
  | error e => exact .inl hsame
  | ok id =>
      right
      have hfound : w.store id ≠ none := by
        intro hnone
        unfold Delete.admission at hadmission
        simp only [bind_eq_ok, pure, Except.pure, Except.ok.injEq] at hadmission
        obtain ⟨_, -, _, -, id', -, _, -, _, -, _, hget, rfl⟩ := hadmission
        simp [interp, getUpload, hnone] at hget
      obtain ⟨entry, hentry⟩ := Option.ne_none_iff_exists'.mp hfound
      refine ⟨id, rfl, hfound, ?_⟩
      simp only [check_ok, Prog.ret_bind, Delete.remove, Prog.bind_eq, run_delete_bind, interp,
        MemoryStore.delete, hentry, run_emit_bind]
      refine ⟨?_, ?_⟩
      · refine (World.afterEmit_events hchannel _ _).trans ?_
        exact congrArg (· ++ [HookEvent.uploadTerminated id]) hsame
      · refine (congrFun (World.afterEmit_store ..) id).trans ?_
        exact Function.update_self ..

/-- A creation terminates some of the uploads it names, then announces its
own. -/
theorem events_prepared (hchannel : 0 < h.config.hooks.channelCapacity) (hkeyed : Keyed w.store)
    (hmethod : x.req.method = .post) {p : Parsed} {info : UploadInfo}
    (hprepare : prepare h x.env x.req = .ok (p, info)) :
    ∃ (gone : List UploadId) (tail : List HookEvent),
      (backend.serve h x w).2.events = w.events ++ gone.map .uploadTerminated ++ tail ∧
      gone.Nodup ∧ Announces info.id tail ∧
      (∀ i ∈ gone, i ≠ info.id ∧ w.store i ≠ none ∧ Removes h w x i ∧
        (backend.serve h x w).2.store i = none) ∧
      ∀ i, i ∉ gone → i ≠ info.id → (backend.serve h x w).2.store i = w.store i := by
  have hserve : (backend.serve h x w).2 =
      ((create h x.req p info).run (handlerInterp interp x.env) w).2 :=
    serve_prepared hmethod hprepare
  obtain ⟨entry, deleted, -, -, -, hleft⟩ := serve_post hkeyed hmethod hprepare
  obtain ⟨gone, tail, hevents, hnodup, hannounces, hgone, hkept⟩ :=
    @fill_events h x.env x.req
      ⟨Function.update w.store info.id (some ⟨info, []⟩), w.log⟩ hchannel p info
      (hkeyed.update rfl)
  have hfill : (create h x.req p info).run (handlerInterp interp x.env) w =
      (fill h x.req p info).run (handlerInterp interp x.env)
        ⟨Function.update w.store info.id (some ⟨info, []⟩), w.log⟩ := rfl
  rw [← hfill, ← hserve] at hkept
  refine ⟨gone, tail, ?_, hnodup, hannounces, fun i hi => ?_, fun i hi hne => ?_⟩
  · rw [hserve, hfill]
    exact hevents
  · obtain ⟨hfound, hnone⟩ := hgone i hi
    rw [← hfill, ← hserve] at hnone
    have hne : i ≠ info.id := by
      rintro rfl
      rw [hleft, left, Function.update_self] at hnone
      cases hnone
    have hfound' : w.store i ≠ none := by
      have hthere : Function.update w.store info.id (some ⟨info, []⟩) i ≠ none := hfound hne
      rwa [Function.update_of_ne hne] at hthere
    exact ⟨hne, hfound', removes_of_gone hkeyed hmethod hprepare hfound' hnone, hnone⟩
  · exact (hkept i hi hne).trans (Function.update_of_ne hne ..)

/-- The id a creation settles on has no events yet. -/
def Unused (h : TusHandler) (w : World MemoryStore) (x : Exchange backend) : Prop :=
  x.req.method = .post → ∀ p info, prepare h x.env x.req = .ok (p, info) →
    ∀ e ∈ w.events, e.id ≠ info.id

/-- Chunks are accepted for uploads that were announced and not finished, and
only announced uploads are removed. -/
structure Orderly (h : TusHandler) (w : World MemoryStore) (x : Exchange backend) : Prop where
  patch : x.req.method = .patch → ∀ id info size buf,
    Patch.Admits interp h x.env x.req w.store id info size → Appends h x.req info size buf →
      w.Announced id ∧ ¬ w.Finished id
  delete : x.req.method = .delete → ∀ id,
    Delete.admission interp h x.env x.req w.store = .ok id → w.Announced id
  removal : x.req.method = .post → ∀ id, Removes h w x id → w.Announced id

/-- Every upload is in a phase, and those that were terminated are gone. -/
structure Regulated (w : World MemoryStore) : Prop where
  keyed : Keyed w.store
  phase : ∀ id, ∃ phase, w.phase id = some phase
  gone : ∀ id, w.phase id = some .terminated → w.store id = none

theorem phase_of_ne {w' : World MemoryStore} {events : List HookEvent}
    (hevents : w'.events = w.events ++ events) (hne : ∀ e ∈ events, e.id ≠ id) :
    w'.phase id = w.phase id := by
  rw [World.phase_of_append hevents, wordOf_of_ne hne]
  cases w.phase id <;> rfl

theorem phase_of_eq {w' : World MemoryStore} {events : List HookEvent} {phase : Phase}
    (hevents : w'.events = w.events ++ events) (heq : ∀ e ∈ events, e.id = id)
    (hphase : w.phase id = some phase) :
    w'.phase id = (events.map HookEvent.kind).foldlM Phase.next phase := by
  rw [World.phase_of_append hevents, wordOf_of_eq heq, hphase]
  rfl

theorem phase_of_same {w' : World MemoryStore} (hevents : w'.events = w.events) (id : UploadId) :
    w'.phase id = w.phase id :=
  phase_of_ne (hevents.trans (List.append_nil _).symm) (by simp)

/-- An upload that can be removed is open or finished. -/
theorem Regulated.removable (hw : Regulated w) (hannounced : w.Announced id)
    (hfound : w.store id ≠ none) : w.phase id = some .opened ∨ w.phase id = some .finished := by
  obtain ⟨phase, hphase⟩ := hw.phase id
  cases phase with
  | unseen => exact absurd hphase (World.phase_of_announced hannounced)
  | opened => exact .inl hphase
  | finished => exact .inr hphase
  | terminated => exact absurd (hw.gone id hphase) hfound

/-- The phases after a request, and where they end, decide the invariant. -/
theorem Regulated.serve (hw : Regulated w) (hunused : Unused h w x)
    (hphase : ∀ id, (backend.serve h x w).2.phase id = w.phase id ∨
      ∃ phase, (backend.serve h x w).2.phase id = some phase ∧
        (phase = .terminated → (backend.serve h x w).2.store id = none)) :
    Regulated (backend.serve h x w).2 where
  keyed := by
    have hmakes : Makes (fun _ => True) (fun _ => True) (h.handle x.req) := TusHandler.makes
    exact hmakes.run_preserves (fun o _ _ hst => keyed_interp o hst) hw.keyed
  phase id := by
    rcases hphase id with hsame | ⟨phase, hsome, -⟩
    · exact hsame ▸ hw.phase id
    · exact ⟨phase, hsome⟩
  gone id hterminated := by
    rcases hphase id with hsame | ⟨phase, hsome, hgone⟩
    · rw [hsame] at hterminated
      refine serve_none (fun p info hmethod hprepare hid => ?_) (hw.gone id hterminated)
      obtain ⟨n, finished, -, hword⟩ : Phase.words .terminated (wordOf id w.events) :=
        Phase.words_of_after hterminated
      have hmem : EventKind.created ∈ wordOf id w.events := by
        rw [hword]
        exact List.mem_cons_self
      obtain ⟨e, he, heid, -⟩ := mem_wordOf.mp hmem
      exact hunused hmethod p info hprepare e he (heid.trans hid.symm)
    · exact hgone (Option.some.inj (hsome.symm.trans hterminated))

/-- What each request does to the phases of the uploads. -/
theorem Regulated.step (hchannel : 0 < h.config.hooks.channelCapacity) (hw : Regulated w)
    (hunused : Unused h w x) (hx : Orderly h w x) : Regulated (backend.serve h x w).2 := by
  apply hw.serve hunused
  intro i
  by_cases hpatch : x.req.method = .patch
  · rcases events_patch hchannel hw.keyed hpatch with
      hsame | ⟨id, info, size, buf, newInfo, tail, ha, happends, hid, hevents, htail⟩
    · exact .inl (phase_of_same hsame i)
    · by_cases hi : i = id
      · subst hi
        obtain ⟨hannounced, hunfinished⟩ := hx.patch hpatch i info size buf ha happends
        obtain ⟨entry, hentry, -⟩ := entry_of_admits ha
        have hopened : w.phase i = some .opened := by
          rcases hw.removable hannounced (by simp [hentry]) with hopened | hfinished
          · exact hopened
          · exact absurd (World.finished_of_phase hfinished) hunfinished
        right
        rcases htail with rfl | rfl
        · exact ⟨.opened, phase_of_eq hevents (by simp [HookEvent.id, hid]) hopened, by simp⟩
        · exact ⟨.finished, phase_of_eq hevents (by simp [HookEvent.id, hid]) hopened, by simp⟩
      · left
        apply phase_of_ne hevents
        rcases htail with rfl | rfl <;> simp [HookEvent.id, hid, Ne.symm hi]
  by_cases hdelete : x.req.method = .delete
  · rcases events_delete hchannel hdelete with hsame | ⟨id, hadmission, hfound, hevents, hgone⟩
    · exact .inl (phase_of_same hsame i)
    · by_cases hi : i = id
      · subst hi
        right
        refine ⟨.terminated, ?_, fun _ => hgone⟩
        rcases hw.removable (hx.delete hdelete i hadmission) hfound with hphase | hphase <;>
          exact phase_of_eq hevents (by simp [HookEvent.id]) hphase
      · exact .inl (phase_of_ne hevents (by simp [HookEvent.id, Ne.symm hi]))
  by_cases hpost : x.req.method = .post
  · rcases hprepare : prepare h x.env x.req with e | ⟨p, info⟩
    · have hsame : (backend.serve h x w).2 = w := serve_unprepared hpost hprepare
      exact .inl (phase_of_same (congrArg World.events hsame) i)
    · obtain ⟨gone, tail, hevents, hnodup, htail, hgone, -⟩ :=
        events_prepared hchannel hw.keyed hpost hprepare
      have htails : ∀ e ∈ tail, e.id = info.id := by
        rcases htail with rfl | ⟨info', hid, rfl | rfl⟩
        · simp
        · simp [HookEvent.id, hid]
        · simp [HookEvent.id, hid]
      rw [List.append_assoc] at hevents
      by_cases hi : i = info.id
      · -- a new upload: nothing was said about it, and nothing is removed under its id
        subst hi
        have hunseen : w.phase info.id = some .unseen := by
          unfold World.phase
          rw [wordOf_of_ne (hunused hpost p info hprepare)]
          rfl
        have hmap : ∀ e ∈ gone.map HookEvent.uploadTerminated, e.id ≠ info.id := by
          rintro _ he
          obtain ⟨j, hj, rfl⟩ := List.mem_map.mp he
          exact (hgone j hj).1
        have hphase := World.phase_of_append hevents info.id
        rw [wordOf_append, wordOf_of_ne hmap, wordOf_of_eq htails, hunseen] at hphase
        right
        rcases htail with rfl | ⟨info', -, rfl | rfl⟩
        · exact ⟨.unseen, hphase, by simp⟩
        · exact ⟨.opened, hphase, by simp⟩
        · exact ⟨.finished, hphase, by simp⟩
      · have htail' : ∀ e ∈ tail, e.id ≠ i := fun e he hei => hi (hei.symm.trans (htails e he))
        by_cases hmem : i ∈ gone
        · right
          obtain ⟨-, hfound, hremoves, hnone⟩ := hgone i hmem
          refine ⟨.terminated, ?_, fun _ => hnone⟩
          rw [World.phase_of_append hevents, wordOf_append, wordOf_terminated hnodup hmem,
            wordOf_of_ne htail']
          rcases hw.removable (hx.removal hpost i hremoves) hfound with hphase | hphase <;>
            rw [hphase] <;> rfl
        · left
          apply phase_of_ne hevents
          intro e he
          rcases List.mem_append.mp he with he | he
          · obtain ⟨j, hj, rfl⟩ := List.mem_map.mp he
            rintro rfl
            exact hmem hj
          · exact htail' e he
  · exact .inl (phase_of_same (events_other hpost hpatch hdelete) i)

/-- In a run whose requests are orderly, the events about every upload come in
order. -/
theorem events_in_order (hchannel : 0 < h.config.hooks.channelCapacity)
    (hrun : backend.Follows h (fun w x => Unused h w x ∧ Orderly h w x) backend.initial w)
    (id : UploadId) : Regular (wordOf id w.events) := by
  have hw : Regulated w := by
    refine hrun.invariant (I := Regulated) ?_ fun w x hx hw => hw.step hchannel hx.1 hx.2
    constructor
    · intro id entry hentry
      cases hentry
    · exact fun id => ⟨.unseen, rfl⟩
    · exact fun id _ => rfl
  obtain ⟨phase, hphase⟩ := hw.phase id
  rw [regular_iff]
  change (w.phase id).isSome = true
  rw [hphase]
  rfl

end Run

namespace Reannounced

def handler : TusHandler := ⟨{ hooks := { channelCapacity := 1 } }, true, .fixed⟩

def post : Exchange backend where
  req := .ofTexts .post none [(.tusResumable, "1.0.0"), (.uploadLength, "1")] none
  env := .permissive .a
  choice := ()

/-- The only byte of the upload. -/
def patch : Exchange backend where
  req := .ofTexts .patch (some "a1234567-89ab-4cde-8fed-0123456789ab")
    [(.tusResumable, "1.0.0"), (.contentType, "application/offset+octet-stream"),
      (.uploadOffset, "0")] (some [97])
  env := .permissive .b
  choice := ()

/-- No byte, at its end. -/
def emptyPatch : Exchange backend where
  req := .ofTexts .patch (some "a1234567-89ab-4cde-8fed-0123456789ab")
    [(.tusResumable, "1.0.0"), (.contentType, "application/offset+octet-stream"),
      (.uploadOffset, "1")] (some [])
  env := .permissive .c
  choice := ()

def id : UploadId := .new post.env.uuid

def created : World MemoryStore := (backend.serve handler post backend.initial).2

def complete : World MemoryStore := (backend.serve handler patch created).2

theorem evaluated : wordOf id created.events = [.created] ∧
    wordOf id complete.events = [.created, .progress, .finished] ∧
    wordOf id (backend.serve handler emptyPatch complete).2.events =
      [.created, .progress, .finished, .progress, .finished] ∧
    (Patch.parseRequest patch.req).toOption = some (0, id) := by
  decide +kernel

theorem unused_post : Unused handler backend.initial post := fun _ _ _ _ _ he => by cases he

theorem unused_patch (w : World MemoryStore) : Unused handler w patch := fun hmethod => by
  cases hmethod

theorem unused_emptyPatch (w : World MemoryStore) : Unused handler w emptyPatch :=
  fun hmethod => by cases hmethod

theorem orderly_post : Orderly handler backend.initial post where
  patch := fun hmethod => by cases hmethod
  delete := fun hmethod => by cases hmethod
  removal := by
    rintro - i ⟨p, info, -, -, -, htidies, -⟩
    have hkeep : handler.config.extensions.cleanupConcatPartials = false := rfl
    simp [tidies, hkeep] at htidies

theorem orderly_patch : Orderly handler created patch where
  patch := by
    rintro - i info size buf ha -
    obtain ⟨hcreated, -, -, hparsed⟩ := evaluated
    rw [ha.parsed] at hparsed
    obtain ⟨-, rfl⟩ : info.offset = 0 ∧ i = id := Prod.mk.inj (Option.some.inj hparsed)
    rw [World.announced_iff, World.finished_iff, hcreated]
    decide
  delete := fun hmethod => by cases hmethod
  removal := fun hmethod => by cases hmethod

end Reannounced

open Reannounced in
theorem events_in_order_patch :
    0 < handler.config.hooks.channelCapacity ∧ Regular (wordOf id complete.events) ∧
      wordOf id complete.events = [.created, .progress, .finished] :=
  ⟨by decide, events_in_order (by decide) (.step patch ⟨unused_patch _, orderly_patch⟩
    (.step post ⟨unused_post, orderly_post⟩ .refl)) id, evaluated.2.1⟩

open Reannounced in
/-- An empty chunk at the end of a finished upload announces its end again. -/
theorem empty_chunk_reannounces :
    0 < handler.config.hooks.channelCapacity ∧
      backend.Follows handler (Unused handler) backend.initial
        (backend.serve handler emptyPatch complete).2 ∧
      wordOf id (backend.serve handler emptyPatch complete).2.events =
        [.created, .progress, .finished, .progress, .finished] ∧
      ¬ Regular (wordOf id (backend.serve handler emptyPatch complete).2.events) := by
  obtain ⟨-, -, hword, -⟩ := evaluated
  refine ⟨by decide, ?_, hword, ?_⟩
  · exact .step emptyPatch (unused_emptyPatch _) (.step patch (unused_patch _)
      (.step post unused_post .refl))
  · rw [hword, regular_iff]
    decide

end Fileloft.MemoryStore
