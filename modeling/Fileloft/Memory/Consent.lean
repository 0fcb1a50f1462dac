import Fileloft.Memory.Store
import Fileloft.Server.Clients
import Fileloft.Server.Fixture

/-!
# The record a DELETE was accepted for

`pre_terminate` is shown the record before the lock is taken. The removal
is of the same record when no other client changes it in between.
-/

namespace Fileloft.MemoryStore

open Handler Pool

/-- What is noted of clients that delete: who deletes, whose record it has
read and not yet locked, what its callback accepted, and every removal with
the record that was stored. -/
structure Consents where
  deleting : ℕ → Bool
  waiting : ℕ → Option UploadId
  accepted : ℕ → Option UploadInfo
  removals : List (Option UploadInfo × UploadInfo)

namespace Consents

def empty : Consents := ⟨fun _ => false, fun _ => none, fun _ => none, []⟩

def setWaiting (n : Consents) (t : ℕ) (id : Option UploadId) : Consents :=
  { n with waiting := Function.update n.waiting t id }

def call (t : ℕ) :
    (o : StoreOp) → Except TusError o.Val → Shared MemoryStore Consents → Consents
  | .getInfo id, .ok _, s =>
    if s.notes.deleting t then s.notes.setWaiting t (some id) else s.notes
  | .delete id, .ok _, s =>
    match s.store id with
    | some entry =>
      { s.notes with removals := s.notes.removals ++ [(s.notes.accepted t, entry.info)] }
    | none => s.notes
  | _, _, s => s.notes

def answer (t : ℕ) (info : UploadInfo) (r : Except TusError Unit) (n : Consents) : Consents :=
  match r with
  | .ok _ => { n with accepted := Function.update n.accepted t (some info) }
  | .error _ => n.setWaiting t none

def observer : Observer MemoryStore Consents where
  enter t q n := { n with deleting := Function.update n.deleting t (q.method == .delete) }
  call := call
  acquire t _ n := n.setWaiting t none
  preTerminate := answer
  leave _ _ _ n := n

end Consents

/-- The stored record of an upload. -/
def record (st : MemoryStore) (id : UploadId) : Option UploadInfo := (st id).map (·.info)

/-- The upload keeps its record, or is gone. -/
def KeptOrGone (id : UploadId) (st st' : MemoryStore) : Prop :=
  record st' id = none ∨ record st' id = record st id

theorem KeptOrGone.trans {id : UploadId} {st st' st'' : MemoryStore} (h : KeptOrGone id st st')
    (h' : KeptOrGone id st' st'') : KeptOrGone id st st'' := by
  rcases h' with hgone | hsame
  · exact .inl hgone
  · unfold KeptOrGone
    rw [hsame]
    exact h

/-- A move of a run of PATCH and DELETE requests. -/
def PatchOrDelete (_ : Clients MemoryStore Consents) (m : ClientMove) : Prop :=
  ∀ t q, m = .start t q → q.method = .patch ∨ q.method = .delete

/-- No client changes the record that another one has read for its callback
and not locked yet. -/
def Calm (c : Clients MemoryStore Consents) (m : ClientMove) : Prop :=
  ∀ t env q o k, m = .step t env → c.threads t = .running q (.op (.store o) k) →
    ∀ t', t' ≠ t → ∀ id, c.shared.notes.waiting t' = some id →
      KeptOrGone id c.shared.store (interp o c.shared.store).2

namespace Consents

/-- What the moves of the others leave to client `t`. -/
structure Rely (t : ℕ) (s s' : Shared MemoryStore Consents) : Prop where
  locks : SameLocks t s s'
  deleting : s'.notes.deleting t = s.notes.deleting t
  waiting : s'.notes.waiting t = s.notes.waiting t
  accepted : s'.notes.accepted t = s.notes.accepted t
  read : ∀ id, s.notes.waiting t = some id → KeptOrGone id s.store s'.store
  held : ∀ id, s.holder id = some t → record s'.store id = record s.store id

def discipline : Discipline HandlerSig ℕ (Shared MemoryStore Consents) where
  rely := Rely
  inv s := ∀ r ∈ s.notes.removals, r.1 = some r.2
  allowed t o s := ∀ o', o = .store o' → ∀ t', t' ≠ t → ∀ id, s.notes.waiting t' = some id →
    KeptOrGone id s.store (interp o' s.store).2
  refl _ _ := ⟨fun _ => Iff.rfl, rfl, rfl, rfl, fun _ _ => .inr rfl, fun _ _ => rfl⟩
  trans {t s s' s''} h h' := by
    refine ⟨h.locks.trans h'.locks, h'.deleting.trans h.deleting, h'.waiting.trans h.waiting,
      h'.accepted.trans h.accepted, fun id hid => ?_, fun id hid => ?_⟩
    · exact (h.read id hid).trans (h'.read id (h.waiting.trans hid))
    · exact (h'.held id ((h.locks id).mpr hid)).trans (h.held id hid)

variable {h : TusHandler} {t t' : ℕ} {s : Shared MemoryStore Consents} {id : UploadId}

/-- A note about `t` is none about another client. -/
theorem call_of_ne (o : StoreOp) (a : Except TusError o.Val) (ht : t' ≠ t) :
    (call t o a s).deleting t' = s.notes.deleting t' ∧
      (call t o a s).waiting t' = s.notes.waiting t' ∧
      (call t o a s).accepted t' = s.notes.accepted t' := by
  unfold call
  split
  · split
    · exact ⟨rfl, Function.update_of_ne ht .., rfl⟩
    · exact ⟨rfl, rfl, rfl⟩
  · split <;> exact ⟨rfl, rfl, rfl⟩
  · exact ⟨rfl, rfl, rfl⟩

/-- What one client does is no note about another. -/
theorem waiting_act {env : Env} {o : HandlerOp} {r : o.Ans} {s' : Shared MemoryStore Consents}
    (ht : t' ≠ t) (hact : act interp observer env t o s = some (r, s')) :
    s'.notes.waiting t' = s.notes.waiting t' := by
  cases o with
  | store o =>
      obtain ⟨-, rfl⟩ := Prod.mk.inj (Option.some.inj hact)
      exact (call_of_ne o _ ht).2.1
  | acquire id =>
      obtain ⟨-, ⟨-, -, rfl⟩ | ⟨e, -, rfl⟩⟩ := act_acquire interp hact
      · exact Function.update_of_ne ht ..
      · exact Function.update_of_ne ht ..
  | preTerminate info =>
      obtain ⟨-, rfl⟩ := Prod.mk.inj (Option.some.inj hact)
      change (answer t info (env.preTerminate info) s.notes).waiting t' = _
      cases env.preTerminate info with
      | ok _ => rfl
      | error e => exact Function.update_of_ne ht ..
  | _ =>
      obtain ⟨-, rfl⟩ := Prod.mk.inj (Option.some.inj hact)
      rfl

/-- A store call under the lock, or one that changes nothing, keeps what the
others rely on. A removal has to be of the accepted record. -/
theorem keeps_call {o : StoreOp} (hinv : discipline.inv s)
    (hallowed : discipline.allowed t (.store o) s)
    (hlocked : s.holder o.target = some t ∨ (interp o s.store).2 = s.store)
    (hconsent : ∀ id entry, o = .delete id → s.store id = some entry →
      s.notes.accepted t = some entry.info) :
    Keeps discipline t s (s.called interp observer t o) := by
  constructor
  · change ∀ r ∈ (call t o _ s).removals, _
    unfold call
    split
    · split <;> exact hinv
    · split
      · next entry hentry =>
          intro r hr
          rcases List.mem_append.mp hr with hr | hr
          · exact hinv r hr
          · obtain rfl := List.mem_singleton.mp hr
            exact hconsent _ entry rfl hentry
      · exact hinv
    · exact hinv
  · intro t' ht
    obtain ⟨hdeleting, hwaiting, haccepted⟩ := call_of_ne o (interp o s.store).1 ht
    refine ⟨fun _ => Iff.rfl, hdeleting, hwaiting, haccepted, hallowed o rfl t' ht, ?_⟩
    intro u hu
    rcases hlocked with hheld | hsame
    · have hne : o.target ≠ u := by
        rintro rfl
        rw [hheld] at hu
        exact ht (Option.some.inj hu).symm
      exact congrArg (Option.map (·.info)) (interp_of_ne hne s.store)
    · exact congrArg (record · u) hsame

theorem keeps_setWaiting {s' : Shared MemoryStore Consents} (hinv : discipline.inv s)
    (hstore : s'.store = s.store) (hnotes : s'.notes = s.notes.setWaiting t none)
    (hlocks : ∀ t', t' ≠ t → SameLocks t' s s') : Keeps discipline t s s' := by
  constructor
  · change ∀ r ∈ s'.notes.removals, _
    rw [hnotes]
    exact hinv
  · intro t' ht
    refine ⟨hlocks t'
      ht, by rw [hnotes]; rfl, ?_, by rw [hnotes]; rfl, fun u _ => ?_, fun u _ => ?_⟩
    · rw [hnotes]
      exact Function.update_of_ne ht ..
    · rw [hstore]
      exact .inr rfl
    · rw [hstore]

theorem keeps_released (hinv : discipline.inv s) (hheld : s.holder id = some t) :
    Keeps discipline t s (s.released id) :=
  ⟨hinv, fun _ ht => ⟨sameLocks_released ht hheld, rfl, rfl, rfl, fun _ _ => .inr rfl,
    fun _ _ => rfl⟩⟩

/-! ## The two handlers -/

theorem stable_held (id : UploadId) : Stable discipline t (Held t id) :=
  fun _ _ hrely hs => (hrely.locks id).mpr hs

theorem stable_true : Stable discipline t fun _ => True := fun _ _ _ _ => trivial

/-- A call on the locked upload that removes nothing. -/
theorem triple_held {o : StoreOp} (hdelete : ∀ id, o ≠ .delete id) :
    Triple (clients h interp observer) discipline t (Held t o.target)
      (store o) (fun _ => Held t o.target) (Held t o.target) := by
  apply triple_store (stable_held _)
  intro s hinv hallowed hheld
  refine ⟨keeps_call hinv hallowed (.inl hheld) ?_, fun _ _ => hheld, fun _ _ => hheld⟩
  exact fun id _ ho => absurd ho (hdelete id)

theorem triple_finishIfComplete {info : UploadInfo} :
    Triple (clients h interp observer) discipline t (Held t id)
      (finishIfComplete h id info) (fun _ => Held t id)
      (Held t id) := by
  unfold finishIfComplete
  split
  · apply (triple_preFinish (stable_held id) fun _ _ hs => hs).bind
    intro _
    apply (triple_held (o := .finalize id) fun _ => nofun).bind
    intro _
    exact triple_emit (stable_held id)
  · exact .ret fun _ _ hs => hs

theorem triple_patchFinish :
    Triple (clients h interp observer) discipline t (Held t id)
      (Patch.finish h id) (fun _ => Held t id) (Held t id) := by
  have hheld := stable_held (t := t) id
  unfold Patch.finish
  apply (triple_held (o := .getInfo id) fun _ => nofun).bind
  intro newInfo
  apply (triple_emit hheld).bind
  intro _
  apply triple_finishIfComplete.bind
  intro _
  exact .ret fun _ _ hs => hs

theorem triple_patchLocked {q : TusRequest} {offset : ℕ} :
    Triple (clients h interp observer) discipline t (Held t id)
      (Patch.locked h q offset id) (fun _ => Held t id) (Held t id) := by
  have hheld := stable_held (t := t) id
  unfold Patch.locked
  apply (triple_held (o := .getUpload id) fun _ => nofun).bind
  intro _
  apply (triple_held (o := .getInfo id) fun _ => nofun).bind
  intro info
  apply (triple_ensure fun _ _ hs => hs).bind
  intro _
  apply (triple_ensure fun _ _ hs => hs.2).bind
  intro _
  apply ((triple_checkExpiry hheld fun _ _ hs => hs).pre fun _ _ hs => hs.2.2).bind
  intro _
  apply (triple_check fun _ _ hs => hs).bind
  intro declared
  have hwrite : Triple (clients h interp observer) discipline t (Held t id)
      ((check (Patch.chunkReader h q)).bind fun reader =>
        (Handler.writeChunk id offset reader).bind fun _ => Patch.finish h id)
      (fun _ => Held t id) (Held t id) := by
    apply (triple_check fun _ _ hs => hs).bind
    intro reader
    apply ((triple_held (o := .writeChunk id offset reader) fun _ => nofun).pre
      fun _ _ hs => hs.2).bind
    exact fun _ => triple_patchFinish
  cases declared with
  | some length =>
      apply ((triple_held (o := .declareLength id length) fun _ => nofun).pre
        fun _ _ hs => hs.2).bind
      exact fun _ => hwrite
  | none => exact hwrite.pre fun _ _ hs => hs.2

/-- Work under the lock, from what its grant leaves. -/
theorem triple_locked {p : Handler TusResponse} {A A' : Shared MemoryStore Consents → Prop}
    (hlocker : h.hasLocker = true) (hA : Stable discipline t A)
    (hgrant : ∀ s, A s → A' (s.granted observer t id))
    (hp : Triple (clients h interp observer) discipline t A' p (fun _ => Held t id) (Held t id)) :
    Triple (clients h interp observer) discipline t A (withLock h id p) (fun _ _ => True)
      fun _ => True := by
  refine triple_withLock hlocker hA ?_ ?_ hp (fun _ => stable_held id) (stable_held id) ?_
  · intro s hinv _
    exact ⟨keeps_setWaiting hinv rfl rfl fun _ _ _ => Iff.rfl, trivial⟩
  · intro s hinv hs hfree
    exact ⟨keeps_setWaiting hinv rfl rfl fun _ ht => sameLocks_granted ht hfree, hgrant s hs⟩
  · intro r s hinv hs
    have hheld : Held t id s := by cases r <;> exact hs
    refine ⟨keeps_released hinv hheld, ?_⟩
    cases r <;> trivial

theorem triple_patch {q : TusRequest} (hlocker : h.hasLocker = true) :
    Triple (clients h interp observer) discipline t (fun _ => True)
      (Patch.handle h q) (fun _ _ => True) fun _ => True := by
  unfold Patch.handle
  apply (triple_check fun _ _ hs => hs).bind
  rintro ⟨offset, id⟩
  apply Triple.pre (triple_locked hlocker stable_true _ triple_patchLocked) fun _ _ hs => hs.2
  exact fun s _ => held_granted observer t id s

/-- The record a DELETE was shown is still stored, unless the upload is gone. -/
def Shown (id : UploadId) (info : UploadInfo) (s : Shared MemoryStore Consents) : Prop :=
  record s.store id = none ∨ record s.store id = some info

/-- From the read to the callback. -/
def Reading (t : ℕ) (id : UploadId) (info : UploadInfo) (s : Shared MemoryStore Consents) : Prop :=
  s.notes.waiting t = some id ∧ Shown id info s

/-- From the callback to the lock. -/
def Waiting (t : ℕ) (id : UploadId) (info : UploadInfo) (s : Shared MemoryStore Consents) : Prop :=
  s.notes.accepted t = some info ∧ Reading t id info s

/-- Under the lock. -/
def Locked (t : ℕ) (id : UploadId) (info : UploadInfo) (s : Shared MemoryStore Consents) : Prop :=
  s.holder id = some t ∧ s.notes.accepted t = some info ∧ Shown id info s

theorem stable_reading {info : UploadInfo} : Stable discipline t (Reading t id info) := by
  rintro s s' hrely ⟨hwaiting, hshown⟩
  refine ⟨hrely.waiting.trans hwaiting, ?_⟩
  rcases hrely.read id hwaiting with hgone | hsame
  · exact .inl hgone
  · unfold Shown
    rw [hsame]
    exact hshown

theorem stable_waiting {info : UploadInfo} : Stable discipline t (Waiting t id info) :=
  fun s s' hrely hs => ⟨hrely.accepted.trans hs.1, stable_reading s s' hrely hs.2⟩

theorem stable_locked {info : UploadInfo} : Stable discipline t (Locked t id info) := by
  rintro s s' hrely ⟨hheld, haccepted, hshown⟩
  refine ⟨(hrely.locks id).mpr hheld, hrely.accepted.trans haccepted, ?_⟩
  unfold Shown
  rw [hrely.held id hheld]
  exact hshown

theorem stable_deleting : Stable discipline t fun s => s.notes.deleting t = true :=
  fun _ _ hrely hs => hrely.deleting.trans hs

/-- What the callback answers is noted of this client alone. -/
theorem keeps_answered {info : UploadInfo} {r : Except TusError Unit} (hinv : discipline.inv s) :
    Keeps discipline t s (s.answered observer t info r) := by
  cases r with
  | error e => exact keeps_setWaiting hinv rfl rfl fun _ _ _ => Iff.rfl
  | ok _ =>
      refine ⟨hinv, fun t' ht => ⟨fun _ => Iff.rfl, rfl, rfl, Function.update_of_ne ht .., ?_, ?_⟩⟩
      · exact fun _ _ => .inr rfl
      · exact fun _ _ => rfl

theorem triple_lookup {A E : Shared MemoryStore Consents → Prop} (hA : Stable discipline t A)
    (hE : ∀ s, A s → E s) :
    Triple (clients h interp observer) discipline t A (Handler.getUpload id) (fun _ => A) E := by
  apply triple_store (o := .getUpload id) hA
  intro s hinv hallowed hs
  exact ⟨keeps_call hinv hallowed (.inr rfl) fun _ _ => nofun, fun _ _ => hs, fun _ _ => hE s hs⟩

theorem triple_read :
    Triple (clients h interp observer) discipline t (fun s => s.notes.deleting t = true)
      (Handler.getInfo id) (fun info => Reading t id info) fun _ => True := by
  apply triple_store (o := .getInfo id) stable_deleting
  intro s hinv hallowed hdeleting
  refine ⟨keeps_call hinv hallowed (.inr rfl) fun _ _ => nofun, ?_, fun _ _ => trivial⟩
  intro info hinfo
  have hentry : record s.store id = some info := by
    simp only [interp, getInfo] at hinfo
    split at hinfo
    · next entry hentry =>
        rw [record, hentry]
        exact congrArg some (Except.ok.inj hinfo)
    · cases hinfo
  refine ⟨?_, .inr hentry⟩
  change (call t (.getInfo id) (interp (.getInfo id) s.store).1 s).waiting t = some id
  rw [hinfo, call, if_pos hdeleting]
  exact Function.update_self ..

theorem triple_consent {info : UploadInfo} (hset : h.config.hooks.preTerminate = true) :
    Triple (clients h interp observer) discipline t (Reading t id info)
      (preTerminate h info) (fun _ => Waiting t id info) fun _ => True := by
  apply triple_preTerminate stable_reading (by simp [hset])
  intro s r hinv hs
  refine ⟨keeps_answered hinv, ?_⟩
  cases r with
  | error e => trivial
  | ok _ => exact ⟨Function.update_self .., hs⟩

theorem triple_removal {info : UploadInfo} :
    Triple (clients h interp observer) discipline t (Locked t id info)
      (Handler.delete id) (fun _ => Held t id) (Held t id) := by
  apply triple_store (o := .delete id) stable_locked
  rintro s hinv hallowed ⟨hheld, haccepted, hshown⟩
  refine ⟨keeps_call hinv hallowed (.inl hheld) ?_, fun _ _ => hheld, fun _ _ => hheld⟩
  rintro _ entry ⟨⟩ hentry
  rw [haccepted]
  rcases hshown with hgone | hsame
  · simp [record, hentry] at hgone
  · simpa [record, hentry, eq_comm] using hsame

theorem triple_delete {q : TusRequest} (hlocker : h.hasLocker = true)
    (hset : h.config.hooks.preTerminate = true) :
    Triple (clients h interp observer) discipline t (fun s => s.notes.deleting t = true)
      (Delete.handle h q) (fun _ _ => True) fun _ => True := by
  unfold Delete.handle
  apply (triple_check fun _ _ _ => trivial).bind
  intro _
  apply (triple_ensure fun _ _ _ => trivial).bind
  intro _
  apply (triple_check fun _ _ _ => trivial).bind
  intro id
  rw [if_pos hset]
  -- the callback, on a record read without the lock
  apply ((triple_lookup stable_deleting fun _ _ => trivial).pre fun _ _ hs => hs.2.2.2).bind
  intro _
  apply triple_read.bind
  intro info
  apply (triple_consent hset).bind
  intro _
  have hwork : Triple (clients h interp observer) discipline t (Locked t id info)
      ((Handler.getUpload id).bind fun _ => (Handler.delete id).bind fun _ =>
        (emit h (.uploadTerminated id)).bind fun _ => .ret (h.response 204 [] []))
      (fun _ => Held t id) (Held t id) := by
    apply (triple_lookup stable_locked fun _ hs => hs.1).bind
    intro _
    apply triple_removal.bind
    intro _
    apply (triple_emit (stable_held id)).bind
    intro _
    exact .ret fun _ _ hs => hs
  apply triple_locked hlocker stable_waiting _ hwork
  exact fun s hs => ⟨held_granted observer t id s, hs.1, hs.2.2⟩

/-- Every request of the run keeps the discipline. -/
theorem triple_dispatch {q : TusRequest} (hlocker : h.hasLocker = true)
    (hset : h.config.hooks.preTerminate = true) (hq : q.method = .patch ∨ q.method = .delete) :
    Triple (clients h interp observer) discipline t
      (fun s => s.notes.deleting t = (q.method == .delete))
      (h.dispatch q) (fun _ _ => True) fun _ => True := by
  unfold TusHandler.dispatch
  rcases hq with hq | hq
  · rw [hq]
    exact (triple_patch hlocker).pre fun _ _ _ => trivial
  · rw [hq]
    exact triple_delete hlocker hset

end Consents

open Consents

/-- Unless a record changes between the callback that is shown it and the
lock, every removal is of the record that was accepted. -/
theorem removals_accepted {h : TusHandler} {st : MemoryStore} {c : Clients MemoryStore Consents}
    (hlocker : h.hasLocker = true) (hset : h.config.hooks.preTerminate = true)
    (hc : Reach (clients h interp observer) (fun c m => PatchOrDelete c m ∧ Calm c m)
      (opened st .empty) c) :
    ∀ r ∈ c.shared.notes.removals, r.1 = some r.2 := by
  refine (Reach.secured (D := discipline) (A := fun _ _ _ _ => True)
    (fun _ _ _ => stable_true) ?_ ?_ ?_ (fun _ => rfl) ?_ hc).1
  · intro c m hm t env q o k hstep hrunning o' ho'
    subst ho'
    exact hm.2 t env q o' k hstep hrunning
  · intro c t q hm hinv
    constructor
    · exact ⟨hinv, fun t' ht => ⟨fun _ => Iff.rfl, Function.update_of_ne ht .., rfl, rfl,
        fun _ _ => .inr rfl, fun _ _ => rfl⟩⟩
    · have hhandle := triple_handle (triple_dispatch (t := t) hlocker hset (hm.1 t q rfl))
        fun _ _ _ => trivial
      have hdeleting : (observer.enter t q c.shared.notes).deleting t = (q.method == .delete) :=
        Function.update_self ..
      apply (hhandle ((clients h interp observer).enter t q c.shared) hinv hdeleting).mono
      exact fun _ _ _ => trivial
  · exact fun t q r s hinv _ => ⟨⟨hinv, fun t' _ => discipline.refl t' s⟩, trivial⟩
  · intro r hr
    cases hr

namespace RacingDelete

/-- A handler with a locker and a `pre_terminate` callback. -/
def handler : TusHandler := ⟨{ hooks := { preTerminate := true } }, true, .fixed⟩

def uploadId : UploadId := .new .a

/-- An upload of two bytes that has none yet. -/
def started : MemoryStore :=
  Function.update (fun _ => none) uploadId (some ⟨UploadInfo.new uploadId (some 2), []⟩)

def deleteRequest : TusRequest :=
  .ofTexts .delete (some "a1234567-89ab-4cde-8fed-0123456789ab") [(.tusResumable, "1.0.0")] none

def patchRequest : TusRequest :=
  .ofTexts .patch (some "a1234567-89ab-4cde-8fed-0123456789ab")
    [(.tusResumable, "1.0.0"), (.contentType, "application/offset+octet-stream"),
      (.uploadOffset, "0")] (some [97, 98])

def steps (t n : ℕ) : List ClientMove := List.replicate n (.step t (.permissive .b))

/-- Client 1 writes the whole upload before client 0 deletes it. -/
def apart : List ClientMove :=
  .start 1 patchRequest :: steps 1 7 ++ .finish 1 :: .start 0 deleteRequest :: steps 0 6

/-- Client 0 reads the record and its callback accepts. Client 1 then writes
the whole upload, and client 0 goes on. -/
def racing : List ClientMove :=
  .start 0 deleteRequest :: steps 0 3 ++ .start 1 patchRequest :: steps 1 7 ++ steps 0 3

/-- The removals of a run, by the offsets in the two records. -/
def removedOffsets (ms : List ClientMove) : Option (List (Option ℕ × ℕ)) :=
  (moves (clients handler interp observer) ms (opened started .empty)).map fun c =>
    c.shared.notes.removals.map fun r => (r.1.map (·.offset), r.2.offset)

/-- No client but the clients 0 and 1 waits for a lock with a record it has
read. -/
def FewWait (c : Clients MemoryStore Consents) : Prop :=
  ∀ t, 1 < t → c.shared.notes.waiting t = none

/-- Whether a move may be part of the run: a call is made while the other one
of the two clients does not wait, or it leaves the store as it is. -/
def admits (c : Clients MemoryStore Consents) : ClientMove → Bool
  | .start _ q => q.method == .patch || q.method == .delete
  | .step t _ => t ≤ 1 && c.shared.notes.waiting (1 - t) == none
  | .finish _ => true

theorem evaluated :
    (checked (clients handler interp observer) admits apart (opened started .empty)).map
      (fun c => c.shared.notes.removals.map fun r => (r.1.map (·.offset), r.2.offset)) =
        some [(some 2, 2)] ∧
    removedOffsets racing = some [(some 0, 2)] := by
  decide +kernel

theorem calm_of_admits {c : Clients MemoryStore Consents} {m : ClientMove}
    (hm : admits c m = true) (hwaits : FewWait c) : PatchOrDelete c m ∧ Calm c m := by
  constructor
  · rintro t q rfl
    simpa [admits] using hm
  · rintro t env q o k rfl - t' ht id hid
    simp only [admits, Bool.and_eq_true, decide_eq_true_eq, beq_iff_eq] at hm
    obtain ⟨hfew, hother⟩ := hm
    rcases Nat.lt_or_ge 1 t' with hlarge | hsmall
    · rw [hwaits t' hlarge] at hid
      cases hid
    · obtain rfl : t' = 1 - t := by omega
      rw [hother] at hid
      cases hid

theorem fewWait_next {c c' : Clients MemoryStore Consents} {m : ClientMove}
    (hm : admits c m = true) (hwaits : FewWait c)
    (hnext : next (clients handler interp observer) m c = some c') : FewWait c' := by
  intro t' ht
  rcases next_cases hnext with ⟨t, q, rfl, -, rfl⟩ | ⟨t, env, q, o, k, r, s, rfl, -, hact, rfl⟩ |
    ⟨t, q, p, r, rfl, -, -, rfl⟩
  · exact hwaits t' ht
  · simp only [admits, Bool.and_eq_true, decide_eq_true_eq] at hm
    rw [← hwaits t' ht]
    exact waiting_act (by omega) hact
  · exact hwaits t' ht

end RacingDelete

open RacingDelete in
theorem removals_accepted_apart : ∃ c,
    checked (clients handler interp observer) admits apart (opened started .empty) = some c ∧
      c.shared.notes.removals ≠ [] ∧ ∀ r ∈ c.shared.notes.removals, r.1 = some r.2 := by
  obtain ⟨c, hc, hremovals⟩ := Option.map_eq_some_iff.mp evaluated.1
  have hreach := reach_of_checked_keeping (I := FewWait) (fun _ _ => calm_of_admits)
    (fun _ _ _ => fewWait_next) (fun _ _ => rfl) .refl hc
  refine ⟨c, hc, fun hnil => by simp [hnil] at hremovals, ?_⟩
  exact removals_accepted rfl rfl hreach

open RacingDelete in
theorem stale_record_accepted : ¬ ∀ (h : TusHandler) (st : MemoryStore)
    (c : Clients MemoryStore Consents), h.hasLocker = true → h.config.hooks.preTerminate = true →
      Reach (clients h interp observer) PatchOrDelete (opened st .empty) c →
        ∀ r ∈ c.shared.notes.removals, r.1 = some r.2 := by
  intro hall
  obtain ⟨c, hc, hremovals⟩ := Option.map_eq_some_iff.mp evaluated.2
  have hreach : Reach (clients handler interp observer) PatchOrDelete
      (opened started .empty) c := by
    apply reach_of_moves (I := fun _ => True) _ (fun _ _ _ _ _ _ => trivial) trivial .refl hc
    rintro c m hm - t q rfl
    simp [racing, steps] at hm
    rcases hm with ⟨-, rfl⟩ | ⟨-, rfl⟩
    · exact .inr rfl
    · exact .inl rfl
  obtain ⟨r, hr, hoffsets⟩ := List.map_eq_singleton_iff.mp hremovals
  have haccepted := hall handler started c rfl rfl hreach r (by simp [hr])
  rw [haccepted] at hoffsets
  obtain ⟨hread, hstored⟩ := Prod.mk.inj hoffsets
  rw [Option.map_some, hstored] at hread
  cases hread

end Fileloft.MemoryStore
