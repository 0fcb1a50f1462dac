import Fileloft.Server.Creation
import Fileloft.Server.Patch

/-!
# The events about an upload

An upload is announced as created, then as it grows, at most once as
finished and at most once as terminated. The words of this language are
those that an automaton with four phases can read.
-/

namespace Fileloft

open Handler

inductive EventKind where
  | created
  | progress
  | finished
  | terminated
  deriving DecidableEq, Repr

def HookEvent.kind : HookEvent → EventKind
  | uploadCreated _ => .created
  | uploadFinished _ => .finished
  | uploadTerminated _ => .terminated
  | uploadProgress _ => .progress

/-- A prefix of: created, then progress any number of times, then finished
at most once, then terminated at most once. -/
def Regular (l : List EventKind) : Prop :=
  ∃ (n : ℕ) (finished terminated : List EventKind),
    (finished = [] ∨ finished = [.finished]) ∧ (terminated = [] ∨ terminated = [.terminated]) ∧
      l <+: .created :: (List.replicate n .progress ++ finished ++ terminated)

inductive Phase where
  | unseen
  | opened
  | finished
  | terminated
  deriving DecidableEq, Repr

namespace Phase

def next : Phase → EventKind → Option Phase
  | unseen, .created => some opened
  | opened, .progress => some opened
  | opened, .finished => some finished
  | opened, .terminated => some terminated
  | finished, .terminated => some terminated
  | _, _ => none

/-- The phase after a word, if the automaton can read it. -/
def after (l : List EventKind) : Option Phase := l.foldlM next unseen

theorem after_append (l m : List EventKind) :
    after (l ++ m) = (after l).bind fun phase => m.foldlM next phase := List.foldlM_append

theorem after_concat (l : List EventKind) (k : EventKind) :
    after (l ++ [k]) = (after l).bind fun phase => phase.next k := by
  rw [after_append]
  congr 1
  funext phase
  simp

/-- The words that lead to a phase. -/
def words : Phase → List EventKind → Prop
  | unseen, l => l = []
  | opened, l => ∃ n, l = .created :: List.replicate n .progress
  | finished, l => ∃ n, l = .created :: (List.replicate n .progress ++ [.finished])
  | terminated, l => ∃ n finished, (finished = [] ∨ finished = [.finished]) ∧
      l = .created :: (List.replicate n .progress ++ finished ++ [.terminated])

theorem words_of_after {l : List EventKind} {phase : Phase} (h : after l = some phase) :
    phase.words l := by
  induction l using List.reverseRecOn generalizing phase with
  | nil =>
      obtain rfl := Option.some.inj h
      rfl
  | append_singleton l k ih =>
      rw [after_concat] at h
      obtain ⟨before, hbefore, hnext⟩ := Option.bind_eq_some_iff.mp h
      have hwords := ih hbefore
      cases before with
      | unseen =>
          obtain rfl : l = [] := hwords
          cases k with
          | created =>
              obtain rfl := Option.some.inj hnext
              exact ⟨0, rfl⟩
          | _ => cases hnext
      | opened =>
          obtain ⟨n, rfl⟩ := hwords
          cases k with
          | created => cases hnext
          | progress =>
              obtain rfl := Option.some.inj hnext
              exact ⟨n + 1, by rw [List.cons_append, List.replicate_succ']⟩
          | finished =>
              obtain rfl := Option.some.inj hnext
              exact ⟨n, rfl⟩
          | terminated =>
              obtain rfl := Option.some.inj hnext
              exact ⟨n, [], .inl rfl, by simp⟩
      | finished =>
          obtain ⟨n, rfl⟩ := hwords
          cases k with
          | terminated =>
              obtain rfl := Option.some.inj hnext
              exact ⟨n, [.finished], .inr rfl, rfl⟩
          | _ => cases hnext
      | terminated => cases hnext

theorem foldlM_replicate (n : ℕ) :
    (List.replicate n EventKind.progress).foldlM next opened = some opened := by
  induction n with
  | zero => rfl
  | succ n ih => exact ih

end Phase

/-- The automaton reads the prefixes of these words and no others. -/
theorem regular_iff {l : List EventKind} : Regular l ↔ (Phase.after l).isSome = true := by
  constructor
  · rintro ⟨n, finished, terminated, hfinished, hterminated, m, hm⟩
    have hfull : (Phase.after (l ++ m)).isSome = true := by
      rw [hm, List.append_assoc, ← List.cons_append, ← List.singleton_append, List.append_assoc,
        Phase.after_append, Phase.after, List.foldlM_cons]
      change ((List.replicate n EventKind.progress ++ (finished ++ terminated)).foldlM Phase.next
        .opened).isSome = true
      rw [List.foldlM_append, Phase.foldlM_replicate]
      rcases hfinished with rfl | rfl <;> rcases hterminated with rfl | rfl <;> rfl
    rw [Phase.after_append] at hfull
    cases hafter : Phase.after l with
    | none => simp [hafter] at hfull
    | some phase => rfl
  · intro hsome
    obtain ⟨phase, hafter⟩ := Option.isSome_iff_exists.mp hsome
    have hwords := Phase.words_of_after hafter
    cases phase with
    | unseen =>
        obtain rfl : l = [] := hwords
        exact ⟨0, [], [], .inl rfl, .inl rfl, List.nil_prefix⟩
    | opened =>
        obtain ⟨n, rfl⟩ := hwords
        exact ⟨n, [], [], .inl rfl, .inl rfl, by simp⟩
    | finished =>
        obtain ⟨n, rfl⟩ := hwords
        exact ⟨n, [.finished], [], .inr rfl, .inl rfl, by simp⟩
    | terminated =>
        obtain ⟨n, finished, hfinished, rfl⟩ := hwords
        exact ⟨n, finished, [.terminated], hfinished, .inr rfl, List.prefix_rfl⟩

variable {σ α β : Type}

/-- The events about `id`, as a word. -/
def wordOf (id : UploadId) (events : List HookEvent) : List EventKind :=
  (events.filter fun e => e.id = id).map HookEvent.kind

theorem wordOf_append (id : UploadId) (l m : List HookEvent) :
    wordOf id (l ++ m) = wordOf id l ++ wordOf id m := by
  simp [wordOf]

theorem wordOf_of_ne {id : UploadId} {events : List HookEvent} (h : ∀ e ∈ events, e.id ≠ id) :
    wordOf id events = [] := by
  unfold wordOf
  rw [List.map_eq_nil_iff, List.filter_eq_nil_iff]
  simpa using h

theorem wordOf_of_eq {id : UploadId} {events : List HookEvent} (h : ∀ e ∈ events, e.id = id) :
    wordOf id events = events.map HookEvent.kind := by
  unfold wordOf
  rw [List.filter_eq_self.mpr]
  simpa using h

/-- Of several uploads that are terminated, each once, every one is. -/
theorem wordOf_terminated {id : UploadId} {gone : List UploadId} (hnodup : gone.Nodup)
    (hid : id ∈ gone) : wordOf id (gone.map .uploadTerminated) = [.terminated] := by
  have hfilter : gone.filter (fun i => decide (i = id)) = [id] := by
    rw [List.filter_eq, hnodup.count, if_pos hid]
    rfl
  unfold wordOf
  rw [List.filter_map]
  change ((gone.filter fun i => decide (i = id)).map _).map _ = _
  rw [hfilter]
  rfl

/-- The phase that the events so far have led an upload to. -/
def World.phase (w : World σ) (id : UploadId) : Option Phase := Phase.after (wordOf id w.events)

theorem World.phase_of_append {w w' : World σ} {events : List HookEvent}
    (h : w'.events = w.events ++ events) (id : UploadId) :
    w'.phase id = (w.phase id).bind fun phase => (wordOf id events).foldlM Phase.next phase := by
  rw [phase, h, wordOf_append, Phase.after_append]
  rfl

/-- An upload was announced as created. -/
def World.Announced (w : World σ) (id : UploadId) : Prop :=
  ∃ info : UploadInfo, info.id = id ∧ HookEvent.uploadCreated info ∈ w.events

/-- An upload was announced as finished. -/
def World.Finished (w : World σ) (id : UploadId) : Prop :=
  ∃ info : UploadInfo, info.id = id ∧ HookEvent.uploadFinished info ∈ w.events

theorem mem_wordOf {id : UploadId} {events : List HookEvent} {k : EventKind} :
    k ∈ wordOf id events ↔ ∃ e ∈ events, e.id = id ∧ e.kind = k := by
  simp [wordOf, and_assoc]

theorem World.announced_iff {w : World σ} {id : UploadId} :
    w.Announced id ↔ .created ∈ wordOf id w.events := by
  rw [mem_wordOf]
  constructor
  · rintro ⟨info, hid, hmem⟩
    exact ⟨_, hmem, hid, rfl⟩
  · rintro ⟨e, hmem, hid, hkind⟩
    cases e with
    | uploadCreated info => exact ⟨info, hid, hmem⟩
    | _ => cases hkind

theorem World.finished_iff {w : World σ} {id : UploadId} :
    w.Finished id ↔ .finished ∈ wordOf id w.events := by
  rw [mem_wordOf]
  constructor
  · rintro ⟨info, hid, hmem⟩
    exact ⟨_, hmem, hid, rfl⟩
  · rintro ⟨e, hmem, hid, hkind⟩
    cases e with
    | uploadFinished info => exact ⟨info, hid, hmem⟩
    | _ => cases hkind

/-- An upload that was announced is past the first phase. -/
theorem World.phase_of_announced {w : World σ} {id : UploadId} (h : w.Announced id) :
    w.phase id ≠ some .unseen := by
  intro hphase
  have hword : wordOf id w.events = [] := Phase.words_of_after hphase
  have hmem := World.announced_iff.mp h
  rw [hword] at hmem
  cases hmem

theorem World.finished_of_phase {w : World σ} {id : UploadId} (h : w.phase id = some .finished) :
    w.Finished id := by
  obtain ⟨n, hword⟩ : Phase.words .finished (wordOf id w.events) := Phase.words_of_after h
  rw [World.finished_iff, hword]
  simp

theorem World.events_append {w w' : World σ} {l : List Obs} (h : w'.log = w.log ++ l) :
    w'.events = w.events ++ l.filterMap Obs.event? := by
  rw [events, h, List.filterMap_append]
  rfl

/-! ## Programs that emit nothing -/

/-- An operation that is not an event, and if it is a store call satisfies `C`. -/
def Silent (C : StoreOp → Prop) : HandlerOp → Prop
  | .emit _ => False
  | .store o => C o
  | _ => True

/-- The program emits nothing, and its store calls satisfy `C`. -/
def Hushed (C : StoreOp → Prop) (p : Handler α) : Prop := p.Uses (Silent C) fun _ _ => True

section Hushed

variable {C : StoreOp → Prop} {impl : Interp StoreSig σ} {env : Env} {h : TusHandler}
  {req : TusRequest}

theorem Hushed.bind {p : Handler α} {f : α → Handler β} (hp : Hushed C p)
    (hf : ∀ a, Hushed C (f a)) : Hushed C (p.bind f) := Prog.Uses.bind hp hf

theorem Hushed.events {p : Handler α} (hp : Hushed C p) (w : World σ) :
    (p.run (handlerInterp impl env) w).2.events = w.events := by
  refine Prog.Uses.run_preserves (I := fun w' : World σ => w'.events = w.events) hp
    (fun _ _ _ => trivial) (fun o w' ho hw' => ?_) rfl
  rw [← hw']
  cases o with
  | emit event => cases ho
  | store o =>
      cases o with
      | finalize id => exact (World.events_append rfl).trans (List.append_nil _)
      | _ => rfl
  | preFinish _ | preTerminate _ => exact (World.events_append rfl).trans (List.append_nil _)
  | acquire _ | release _ | newUuid | now | preCreate _ => rfl

theorem Hushed.store {I : σ → Prop} {p : Handler α} (hp : Hushed C p)
    (hI : ∀ o s, C o → I s → I (impl o s).2) {w : World σ} (hw : I w.store) :
    I (p.run (handlerInterp impl env) w).2.store := by
  refine Prog.Uses.run_preserves (I := fun w : World σ => I w.store) hp (fun _ _ _ => trivial)
    (fun o w ho hw => ?_) hw
  cases o with
  | emit event => cases ho
  | store o =>
      simp only [handlerInterp, World.noteStore_store]
      exact hI o w.store ho hw
  | _ => exact hw

theorem hushed_check (r : Except TusError α) : Hushed C (check r) := by
  cases r <;> trivial

theorem hushed_ensure (cond : Bool) (e : TusError) : Hushed C (ensure cond e) := by
  cases cond <;> trivial

theorem hushed_store {o : StoreOp} (ho : C o) : Hushed C (store o) :=
  ⟨ho, fun r _ => hushed_check r⟩

theorem hushed_checkExpiry (expiresAt : Option DateTime) : Hushed C (checkExpiry expiresAt) := by
  cases expiresAt with
  | none => trivial
  | some t => exact ⟨trivial, fun clock _ => hushed_ensure _ _⟩

theorem hushed_withLock {id : UploadId} {p : Handler α} (hp : Hushed C p) :
    Hushed C (withLock h id p) := by
  unfold withLock
  split
  · refine ⟨trivial, fun r _ => (hushed_check r).bind fun _ => ?_⟩
    refine Hushed.bind (Prog.Uses.attempt hp) fun result => ⟨trivial, fun _ _ => ?_⟩
    exact Prog.uses_ofExcept result
  · exact hp

theorem Head.hushed (hC : ∀ id, C (.getUpload id) ∧ C (.getInfo id)) :
    Hushed C (Head.handle h req) := by
  refine (hushed_check _).bind fun _ => (hushed_check _).bind fun id => ?_
  refine (hushed_store (hC id).1).bind fun _ => (hushed_store (hC id).2).bind fun info => ?_
  exact (hushed_checkExpiry _).bind fun _ => trivial

theorem Get.hushed : Hushed (fun _ => True) (Get.handle h req) := by
  refine (hushed_ensure _ _).bind fun _ => (hushed_check _).bind fun id => hushed_withLock ?_
  refine (hushed_store (o := .getUpload id) trivial).bind fun _ => ?_
  refine (hushed_store (o := .getInfo id) trivial).bind fun info => ?_
  refine (hushed_checkExpiry _).bind fun _ => (hushed_ensure _ _).bind fun _ => ?_
  exact (hushed_store (o := .readContent id) trivial).bind fun _ => trivial

theorem Options.hushed : Hushed (fun _ => True) (Options.handle h req) :=
  (hushed_check _).bind fun _ => trivial

/-- What precedes the cleanup of a creation looks uploads up, and writes to
the new one. -/
def Composes (id : UploadId) : StoreOp → Prop
  | .getUpload _ | .getInfo _ => True
  | .concatenate id' _ | .writeChunk id' _ _ => id' = id
  | _ => False

namespace Post

theorem hushed_fetchPartialInfos {id : UploadId} (ids : List UploadId) :
    Hushed (Composes id) (fetchPartialInfos ids) := by
  induction ids with
  | nil => trivial
  | cons i ids ih =>
      refine (hushed_store (o := .getUpload i) trivial).bind fun _ => ?_
      refine (hushed_store (o := .getInfo i) trivial).bind fun info => ?_
      refine (hushed_ensure _ _).bind fun _ => (hushed_ensure _ _).bind fun _ => ?_
      exact ih.bind fun _ => trivial

theorem hushed_assemble {p : Parsed} {info : UploadInfo} :
    Hushed (Composes info.id) (assemble h p info) := by
  unfold assemble
  split
  · refine (hushed_fetchPartialInfos _).bind fun infos => ?_
    exact hushed_store (o := .concatenate info.id infos) rfl
  · trivial

theorem hushed_writeBody {id : UploadId} : Hushed (Composes id) (writeBody h req id) := by
  unfold writeBody
  split
  · next body _ => exact hushed_store (o := .writeChunk id 0 body) rfl
  · trivial

variable (h req) in
/-- The partials joined and the body written. -/
def compose (p : Parsed) (info : UploadInfo) : Handler ℕ := do
  assemble h p info
  writeBody h req info.id

theorem fill_eq (p : Parsed) (info : UploadInfo) :
    fill h req p info = (compose h req p info).bind fun bytesWritten =>
      (Handler.getInfo info.id).bind fun finalInfo =>
        (check (withinLength finalInfo bytesWritten)).bind fun _ =>
          (cleanup h p info.id finalInfo).bind fun info' => finish h req info.id info' := by
  unfold compose
  rw [Prog.bind_eq, Prog.bind_assoc]
  rfl

theorem hushed_compose {p : Parsed} {info : UploadInfo} :
    Hushed (Composes info.id) (compose h req p info) :=
  hushed_assemble.bind fun _ => hushed_writeBody

end Post

end Hushed

/-! ## What the other stages emit -/

section Emits

variable {impl : Interp StoreSig σ} {env : Env} {h : TusHandler} {req : TusRequest}

theorem World.afterEmit_events (hchannel : 0 < h.config.hooks.channelCapacity) (w : World σ)
    (event : HookEvent) : (World.afterEmit h w event).events = w.events ++ [event] := by
  rw [World.afterEmit, if_pos hchannel]
  exact @World.events_append _ w _ [.emitted event] rfl

theorem World.afterPreFinish_events (w : World σ) (info : UploadInfo) :
    (World.afterPreFinish env h w info).events = w.events := by
  unfold World.afterPreFinish
  split
  · exact (@World.events_append _ w _ [.preFinish info (env.preFinish info)] rfl).trans
      (List.append_nil _)
  · rfl

/-- Completion emits at most the event that the upload is finished. -/
theorem finishIfComplete_events (hchannel : 0 < h.config.hooks.channelCapacity) (id : UploadId)
    (info : UploadInfo) (w : World σ) :
    ∃ tail, ((finishIfComplete h id info).run (handlerInterp impl env) w).2.events =
        w.events ++ tail ∧ (tail = [] ∨ tail = [.uploadFinished info]) := by
  unfold finishIfComplete
  cases info.isComplete with
  | false => exact ⟨[], (List.append_nil _).symm, .inl rfl⟩
  | true =>
      simp only [if_true, run_preFinish_bind]
      cases env.finishAnswer h info with
      | error e =>
          refine ⟨[], ?_, .inl rfl⟩
          exact (World.afterPreFinish_events w info).trans (List.append_nil _).symm
      | ok _ =>
          simp only [check_ok, Prog.ret_bind, run_finalize_bind, World.afterPreFinish_store]
          have hfinalized (s : σ) (answer : Except TusError Unit) :
              (({ World.afterPreFinish env h w info with store := s } : World σ).note
                (.finalized id answer)).events = w.events := by
            rw [← @World.afterPreFinish_events _ env h w info]
            exact (@World.events_append _ (World.afterPreFinish env h w info) _
              [.finalized id answer] rfl).trans (List.append_nil _)
          cases (impl (.finalize id) w.store).1 with
          | error e => exact ⟨[], (hfinalized _ _).trans (List.append_nil _).symm, .inl rfl⟩
          | ok _ =>
              simp only [check_ok, Prog.ret_bind, run_emit]
              refine ⟨[.uploadFinished info], ?_, .inr rfl⟩
              rw [World.afterEmit_events hchannel, hfinalized]

/-- The end of a creation announces the upload, and may announce that it is
finished. -/
theorem Post.finish_events (hchannel : 0 < h.config.hooks.channelCapacity) (id : UploadId)
    (info : UploadInfo) (w : World σ) :
    ∃ tail, ((Post.finish h req id info).run (handlerInterp impl env) w).2.events =
        w.events ++ .uploadCreated info :: tail ∧ (tail = [] ∨ tail = [.uploadFinished info]) := by
  obtain ⟨tail, hevents, htail⟩ := @finishIfComplete_events _ impl env h hchannel id info
    (World.afterEmit h w (.uploadCreated info))
  refine ⟨tail, ?_, htail⟩
  rw [World.afterEmit_events hchannel, List.append_assoc] at hevents
  simp only [Post.finish, Prog.bind_eq, run_emit_bind]
  rw [Prog.run_bind]
  rcases hrun : (finishIfComplete h id info).run (handlerInterp impl env)
    (World.afterEmit h w (.uploadCreated info)) with ⟨e | _, w'⟩
  · rw [hrun] at hevents
    exact hevents
  · rw [hrun] at hevents
    simp only
    rw [Prog.run_bind, run_check]
    cases createdHeaders h req info <;> exact hevents

/-- The end of a PATCH announces progress, and may announce that the upload
is finished. -/
theorem Patch.finish_events (hchannel : 0 < h.config.hooks.channelCapacity)
    (hreads : PureReads impl) {id : UploadId} {info : UploadInfo} {w : World σ}
    (hinfo : (impl (.getInfo id) w.store).1 = .ok info) :
    ∃ tail, ((Patch.finish h id).run (handlerInterp impl env) w).2.events =
        w.events ++ .uploadProgress info :: tail ∧ (tail = [] ∨ tail = [.uploadFinished info]) := by
  obtain ⟨tail, hevents, htail⟩ := @finishIfComplete_events _ impl env h hchannel id info
    (World.afterEmit h w (.uploadProgress info))
  refine ⟨tail, ?_, htail⟩
  rw [World.afterEmit_events hchannel, List.append_assoc] at hevents
  rw [Patch.run_finish hreads, hinfo]
  simp only
  rcases hrun : (finishIfComplete h id info).run (handlerInterp impl env)
    (World.afterEmit h w (.uploadProgress info)) with ⟨e | _, w'⟩
  · rw [hrun] at hevents
    exact hevents
  · rw [hrun] at hevents
    exact hevents

/-! ## Termination -/

/-- The lookup and the callback before the lock, where there is a callback. -/
def Delete.consent (impl : Interp StoreSig σ) (h : TusHandler) (env : Env) (id : UploadId)
    (s : σ) : Except TusError Unit :=
  if h.config.hooks.preTerminate then Post.removable impl h env id s else .ok ()

/-- The checks of a termination, the callback among them. -/
def Delete.admission (impl : Interp StoreSig σ) (h : TusHandler) (env : Env) (req : TusRequest)
    (s : σ) : Except TusError UploadId := do
  checkTusResumable req.headers
  guardWith h.config.extensions.termination (.extensionNotEnabled "termination".toList)
  let id ← requestId req
  Delete.consent impl h env id s
  env.lockAnswer h id
  (impl (.getUpload id) s).1
  return id

variable (h) in
/-- The removal of an upload that was found, and its event. -/
def Delete.remove (id : UploadId) : Handler TusResponse := do
  delete id
  emit h (.uploadTerminated id)
  return h.response 204 [] []

/-- What a termination does with the lock of the upload. -/
theorem Delete.run_locked (hreads : PureReads impl) (id : UploadId) (w : World σ) :
    (withLock h id ((getUpload id).bind fun _ => Delete.remove h id)).run
        (handlerInterp impl env) w =
      ((check (do
          env.lockAnswer h id
          (impl (.getUpload id) w.store).1)).bind fun _ => Delete.remove h id).run
        (handlerInterp impl env) w := by
  rw [run_withLock]
  cases env.lockAnswer h id with
  | error e => rfl
  | ok _ =>
      simp only [run_getUpload_bind, hreads.getUpload]
      rfl

theorem Delete.run_handle (hreads : PureReads impl) (w : World σ) :
    ∃ l, l.filterMap Obs.event? = [] ∧ (Delete.handle h req).run (handlerInterp impl env) w =
      ((check (admission impl h env req w.store)).bind (Delete.remove h)).run
        (handlerInterp impl env) ⟨w.store, w.log ++ l⟩ := by
  unfold Delete.handle admission consent
  simp only [Prog.bind_eq]
  cases checkTusResumable req.headers with
  | error e => exact ⟨[], rfl, by simp [bind, Except.bind]⟩
  | ok _ =>
      simp only [check_ok, Prog.ret_bind, ensure_eq, bind, Except.bind]
      cases guardWith h.config.extensions.termination
        (.extensionNotEnabled "termination".toList) with
      | error e => exact ⟨[], rfl, by simp⟩
      | ok _ =>
          simp only [check_ok, Prog.ret_bind]
          cases requestId req with
          | error e => exact ⟨[], rfl, by simp⟩
          | ok id =>
              simp only [check_ok, Prog.ret_bind]
              by_cases hhook : h.config.hooks.preTerminate = true
              · obtain ⟨l, hl, hrun⟩ := @Post.run_removable_bind _ impl h env _ hreads id
                  (fun _ => withLock h id ((getUpload id).bind fun _ => Delete.remove h id)) w
                simp only [hhook, if_true] at hrun ⊢
                refine ⟨l, hl, hrun.trans ?_⟩
                cases Post.removable impl h env id w.store with
                | error e => rfl
                | ok _ =>
                    simp only [check_ok, Prog.ret_bind]
                    rw [Delete.run_locked hreads]
                    simp only [bind, Except.bind]
                    cases env.lockAnswer h id with
                    | error e => rfl
                    | ok _ =>
                        simp only
                        cases (impl (.getUpload id) w.store).1 <;> rfl
              · simp only [hhook, Bool.false_eq_true, if_false]
                refine ⟨[], rfl, (Delete.run_locked hreads id w).trans ?_⟩
                simp only [bind, Except.bind, List.append_nil]
                cases env.lockAnswer h id with
                | error e => rfl
                | ok _ =>
                    simp only
                    cases (impl (.getUpload id) w.store).1 <;> rfl

end Emits

end Fileloft
