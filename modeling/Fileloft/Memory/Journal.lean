import Fileloft.Memory.Store
import Fileloft.Server.Clients
import Fileloft.Server.Fixture
import Fileloft.Server.Post

/-!
# What concurrent clients write

Any number of clients create, write, read and remove uploads. The store does
not compare the offset of a chunk with the stored one; the lock around a PATCH
does. The buffer of an upload is then the chunks that were accepted for it.
-/

namespace Fileloft.MemoryStore

open Handler Pool

/-- A chunk that the store accepted: the client it came from, the offset it was
written at, and its bytes. -/
structure Written where
  client : ℕ
  offset : ℕ
  bytes : Bytes
  deriving DecidableEq

/-- The client that created each upload, whether a `201` named it, and the
chunks accepted for it, in order. -/
structure Journal where
  owner : UploadId → Option ℕ
  named : UploadId → Bool
  chunks : UploadId → List Written

/-- Every chunk starts where the one before it ended. -/
def Contiguous : ℕ → List Written → Prop
  | _, [] => True
  | offset, c :: cs => c.offset = offset ∧ Contiguous (offset + c.bytes.length) cs

/-- The bytes of some chunks. -/
def writtenBytes (cs : List Written) : Bytes := (cs.map Written.bytes).flatten

theorem writtenBytes_append (cs : List Written) (c : Written) :
    writtenBytes (cs ++ [c]) = writtenBytes cs ++ c.bytes := by
  rw [writtenBytes, writtenBytes, List.map_append, List.flatten_append, List.map_singleton,
    List.flatten_singleton]

theorem contiguous_append {offset : ℕ} {cs : List Written} {c : Written}
    (hcs : Contiguous offset cs) (hc : c.offset = offset + (writtenBytes cs).length) :
    Contiguous offset (cs ++ [c]) := by
  induction cs generalizing offset with
  | nil => exact ⟨hc, trivial⟩
  | cons first cs ih =>
      obtain ⟨hfirst, hrest⟩ := hcs
      refine ⟨hfirst, ih hrest ?_⟩
      rw [hc, writtenBytes, List.map_cons, List.flatten_cons, List.length_append, writtenBytes,
        Nat.add_assoc]

theorem offset_le_of_mem {offset : ℕ} {cs : List Written} (hcs : Contiguous offset cs) :
    ∀ c ∈ cs, offset ≤ c.offset := by
  induction cs generalizing offset with
  | nil => nofun
  | cons first cs ih =>
      obtain ⟨rfl, hrest⟩ := hcs
      refine List.forall_mem_cons.mpr ⟨le_rfl, fun c hc => ?_⟩
      have hle := ih hrest c hc
      omega

/-- Of the chunks with bytes, one starts at each offset. -/
theorem eq_of_offset_eq {offset : ℕ} {cs : List Written} (hcs : Contiguous offset cs)
    {a b : Written} (ha : a ∈ cs) (hb : b ∈ cs) (hane : a.bytes ≠ []) (hbne : b.bytes ≠ [])
    (heq : a.offset = b.offset) : a = b := by
  induction cs generalizing offset with
  | nil => cases ha
  | cons first cs ih =>
      obtain ⟨rfl, hrest⟩ := hcs
      have hlater {c : Written} (hc : c ∈ cs) (hne : first.bytes ≠ []) :
          first.offset < c.offset := by
        have hpos := List.length_pos_of_ne_nil hne
        have hle := offset_le_of_mem hrest c hc
        omega
      rcases List.mem_cons.mp ha with rfl | ha'
      · rcases List.mem_cons.mp hb with rfl | hb'
        · rfl
        · have hlt := hlater hb' hane
          omega
      · rcases List.mem_cons.mp hb with rfl | hb'
        · have hlt := hlater ha' hbne
          omega
        · exact ih hrest ha' hb'

namespace Journal

def empty : Journal := ⟨fun _ => none, fun _ => false, fun _ => []⟩

def setOwner (n : Journal) (id : UploadId) (t : ℕ) : Journal :=
  { n with owner := Function.update n.owner id (some t) }

def add (n : Journal) (id : UploadId) (c : Written) : Journal :=
  { n with chunks := Function.update n.chunks id (n.chunks id ++ [c]) }

def call (t : ℕ) :
    (o : StoreOp) → Except TusError o.Val → Shared MemoryStore Journal → Journal
  | .createUpload info, .ok _, s => s.notes.setOwner info.id t
  | .writeChunk id offset (.ok buf), .ok _, s => s.notes.add id ⟨t, offset, buf⟩
  | _, _, s => s.notes

/-- A `201` names the uploads that its request created. -/
def leave (t : ℕ) (r : Except Halt TusResponse) (n : Journal) : Journal :=
  match r with
  | .ok resp =>
    if resp.status = 201 then
      { n with named := fun id => n.named id || decide (n.owner id = some t) }
    else n
  | .error _ => n

def observer : Observer MemoryStore Journal where
  enter _ _ n := n
  call := call
  acquire _ _ n := n
  preTerminate _ _ _ n := n
  leave t _ r n := leave t r n

/-- A request of the run: a PATCH, HEAD, GET or DELETE of an upload that a
`201` has named, or a POST that is not final. -/
def Admitted (n : Journal) (q : TusRequest) : Prop :=
  (q.method = .post ∧ Post.isFinalHeader (HeaderMap.getStr q.headers .uploadConcat) = false) ∨
  ((q.method = .patch ∨ q.method = .head ∨ q.method = .get ∨ q.method = .delete) ∧
    ∀ id : UploadId, q.uploadId = some id.val → n.named id = true)

/-- A request starts only when it is admitted, and an id is taken only once. -/
def Fresh (c : Clients MemoryStore Journal) (m : ClientMove) : Prop :=
  (∀ t q, m = .start t q → Admitted c.shared.notes q) ∧
  ∀ t env q info k, m = .step t env →
    c.threads t = .running q (.op (.store (.createUpload info)) k) →
      c.shared.notes.owner info.id = none

/-- The record and the buffer of an upload, and the chunks noted of it. -/
structure Tracks (id : UploadId) (s : Shared MemoryStore Journal) : Prop where
  fresh : s.notes.owner id = none →
    s.store id = none ∧ s.notes.named id = false ∧ s.notes.chunks id = []
  contiguous : Contiguous 0 (s.notes.chunks id)
  stored : ∀ entry, s.store id = some entry →
    entry.data = writtenBytes (s.notes.chunks id) ∧ entry.info.offset = entry.data.length

/-- The upload is this client's for now: it holds the lock of one that is
named, or has created it and not named it yet. -/
def Mine (t : ℕ) (id : UploadId) (s : Shared MemoryStore Journal) : Prop :=
  (s.holder id = some t ∧ s.notes.named id = true) ∨
    (s.notes.owner id = some t ∧ s.notes.named id = false)

/-- What the moves of the others leave to client `t`. -/
structure Rely (t : ℕ) (s s' : Shared MemoryStore Journal) : Prop where
  locks : SameLocks t s s'
  owner : ∀ id, s'.notes.owner id = some t ↔ s.notes.owner id = some t
  named : ∀ id, s.notes.named id = true → s'.notes.named id = true
  unnamed : ∀ id, s.notes.owner id = some t → s'.notes.named id = s.notes.named id
  chunks : ∀ id, s.notes.chunks id <+: s'.notes.chunks id
  mine : ∀ id, Mine t id s → s'.store id = s.store id ∧ s'.notes.chunks id = s.notes.chunks id

theorem mine_of_rely {t : ℕ} {id : UploadId} {s s' : Shared MemoryStore Journal}
    (hlocks : SameLocks t s s') (howner : ∀ id, s'.notes.owner id = some t ↔
      s.notes.owner id = some t)
    (hnamed : ∀ id, s.notes.named id = true → s'.notes.named id = true)
    (hunnamed : ∀ id, s.notes.owner id = some t → s'.notes.named id = s.notes.named id)
    (hmine : Mine t id s) : Mine t id s' := by
  rcases hmine with ⟨hheld, hnamed'⟩ | ⟨howned, hnot⟩
  · exact .inl ⟨(hlocks id).mpr hheld, hnamed id hnamed'⟩
  · exact .inr ⟨(howner id).mpr howned, (hunnamed id howned).trans hnot⟩

theorem Rely.keepsMine {t : ℕ} {id : UploadId} {s s' : Shared MemoryStore Journal}
    (h : Rely t s s') (hmine : Mine t id s) : Mine t id s' :=
  mine_of_rely h.locks h.owner h.named h.unnamed hmine

def discipline : Discipline HandlerSig ℕ (Shared MemoryStore Journal) where
  rely := Rely
  inv s := ∀ id, Tracks id s
  allowed _ o s := ∀ info, o = .store (.createUpload info) → s.notes.owner info.id = none
  refl _ _ := ⟨fun _ => Iff.rfl, fun _ => Iff.rfl, fun _ h => h, fun _ _ => rfl,
    fun _ => List.prefix_refl _, fun _ _ => ⟨rfl, rfl⟩⟩
  trans {t s s' s''} h h' := by
    refine ⟨h.locks.trans h'.locks, fun id => (h'.owner id).trans (h.owner id),
      fun id hid => h'.named id (h.named id hid), fun id hid => ?_,
      fun id => (h.chunks id).trans (h'.chunks id), fun id hid => ?_⟩
    · exact (h'.unnamed id ((h.owner id).mpr hid)).trans (h.unnamed id hid)
    · obtain ⟨hstore, hchunks⟩ := h.mine id hid
      obtain ⟨hstore', hchunks'⟩ := h'.mine id (h.keepsMine hid)
      exact ⟨hstore'.trans hstore, hchunks'.trans hchunks⟩

variable {h : TusHandler} {t t' : ℕ} {s : Shared MemoryStore Journal} {id : UploadId}

/-! ### Store calls -/

/-- A call is noted of the upload it is made on only. -/
theorem call_of_ne {o : StoreOp} (hne : o.target ≠ id) (a : Except TusError o.Val) :
    (call t o a s).owner id = s.notes.owner id ∧
      (call t o a s).chunks id = s.notes.chunks id := by
  unfold call
  split
  · exact ⟨Function.update_of_ne hne.symm .., rfl⟩
  · exact ⟨rfl, Function.update_of_ne hne.symm ..⟩
  · exact ⟨rfl, rfl⟩

theorem named_call (o : StoreOp) (a : Except TusError o.Val) :
    (call t o a s).named = s.notes.named := by
  unfold call
  split <;> rfl

theorem owner_call {o : StoreOp} (hcreate : ∀ info, o ≠ .createUpload info)
    (a : Except TusError o.Val) : (call t o a s).owner = s.notes.owner := by
  unfold call
  split
  · next info _ => exact absurd rfl (hcreate info)
  · rfl
  · rfl

theorem prefix_call (o : StoreOp) (a : Except TusError o.Val) (id : UploadId) :
    s.notes.chunks id <+: (call t o a s).chunks id := by
  unfold call
  split
  · exact List.prefix_refl _
  · next u offset buf _ =>
      by_cases hu : id = u
      · subst hu
        change s.notes.chunks id <+: Function.update s.notes.chunks id _ id
        rw [Function.update_self]
        exact List.prefix_append _ _
      · change s.notes.chunks id <+: Function.update s.notes.chunks u _ id
        rw [Function.update_of_ne hu]
  · exact List.prefix_refl _

theorem Tracks.called (htracks : Tracks id s) {o : StoreOp} (hne : o.target ≠ id) :
    Tracks id (s.called interp observer t o) := by
  obtain ⟨howner, hchunks⟩ := call_of_ne (t := t) hne (interp o s.store).1 (s := s)
  have hstore := interp_of_ne hne s.store
  have hnamed := named_call (t := t) (s := s) o (interp o s.store).1
  constructor
  · intro hfree
    obtain ⟨hnone, hunnamed, hempty⟩ := htracks.fresh (howner.symm.trans hfree)
    exact ⟨hstore.trans hnone, (congrFun hnamed id).trans hunnamed, hchunks.trans hempty⟩
  · change Contiguous 0 ((call t o _ s).chunks id)
    rw [hchunks]
    exact htracks.contiguous
  · intro entry hentry
    change entry.data = writtenBytes ((call t o _ s).chunks id) ∧ _
    rw [hchunks]
    exact htracks.stored entry (hstore.symm.trans hentry)

theorem Mine.unique (ht : Mine t id s) (ht' : Mine t' id s) : t = t' := by
  rcases ht with ⟨hheld, hnamed⟩ | ⟨howned, hunnamed⟩
  · rcases ht' with ⟨hheld', -⟩ | ⟨-, hunnamed⟩
    · exact Option.some.inj (hheld.symm.trans hheld')
    · rw [hnamed] at hunnamed
      cases hunnamed
  · rcases ht' with ⟨-, hnamed⟩ | ⟨howned', -⟩
    · rw [hunnamed] at hnamed
      cases hnamed
    · exact Option.some.inj (howned.symm.trans howned')

/-- A call on an upload of the client keeps the discipline when the record
and the buffer still fit the notes. -/
theorem keeps_call {o : StoreOp} (hinv : discipline.inv s)
    (hcreate : ∀ info, o ≠ .createUpload info)
    (hmine : Mine t o.target s) (htarget : Tracks o.target (s.called interp observer t o)) :
    Keeps discipline t s (s.called interp observer t o) := by
  constructor
  · intro id
    by_cases hne : o.target = id
    · rw [← hne]
      exact htarget
    · exact (hinv id).called hne
  · intro t' ht
    refine ⟨fun _ => Iff.rfl, fun id => ?_, fun id hid => ?_, fun id _ => ?_, fun id => ?_,
      fun id hid => ?_⟩
    · change (call t o _ s).owner id = _ ↔ _
      rw [owner_call hcreate]
    · exact (congrFun (named_call o _) id).trans hid
    · exact congrFun (named_call o _) id
    · exact prefix_call o _ id
    · have hne : o.target ≠ id := by
        rintro rfl
        exact ht (hid.unique hmine)
      exact ⟨interp_of_ne hne s.store, (call_of_ne hne _).2⟩

/-- So does the creation of an upload under a new id. -/
theorem keeps_create {info : UploadInfo} (hinv : discipline.inv s)
    (hfree : s.notes.owner info.id = none) (hoffset : info.offset = 0) :
    Keeps discipline t s (s.called interp observer t (.createUpload info)) := by
  obtain ⟨-, hunnamed, hempty⟩ := (hinv info.id).fresh hfree
  constructor
  · intro id
    by_cases hne : info.id = id
    · subst hne
      constructor
      · intro hnone
        change Function.update s.notes.owner info.id (some t) info.id = none at hnone
        rw [Function.update_self] at hnone
        cases hnone
      · exact (hinv info.id).contiguous
      · intro entry hentry
        change Function.update s.store info.id _ info.id = some entry at hentry
        rw [Function.update_self] at hentry
        obtain rfl := Option.some.inj hentry
        change [] = writtenBytes (s.notes.chunks info.id) ∧ _
        rw [hempty]
        exact ⟨rfl, hoffset⟩
    · exact (hinv id).called (o := .createUpload info) hne
  · intro t' ht
    refine ⟨fun _ => Iff.rfl, fun id => ?_, fun _ hid => hid, fun _ _ => rfl,
      fun id => List.prefix_refl _, fun id hid => ?_⟩
    · change Function.update s.notes.owner info.id (some t) id = _ ↔ _
      by_cases hne : id = info.id
      · subst hne
        rw [Function.update_self, hfree]
        exact iff_of_false (fun heq => ht (Option.some.inj heq).symm) nofun
      · rw [Function.update_of_ne hne]
    · have hne : info.id ≠ id := by
        rintro rfl
        rcases hid with ⟨-, hnamed⟩ | ⟨howned, -⟩
        · rw [hunnamed] at hnamed
          cases hnamed
        · rw [hfree] at howned
          cases howned
      exact ⟨interp_of_ne (o := .createUpload info) hne s.store, rfl⟩

/-- A chunk at the stored offset goes behind the bytes there. -/
theorem tracks_write {offset : ℕ} {reader : Reader} (htracks : Tracks id s)
    (hoffset : ∀ entry, s.store id = some entry → entry.info.offset = offset) :
    Tracks id (s.called interp observer t (.writeChunk id offset reader)) := by
  have hcalled : s.called interp observer t (.writeChunk id offset reader) =
      { s with
        store := (writeChunk s.store id offset reader).2
        notes := call t (.writeChunk id offset reader)
          (writeChunk s.store id offset reader).1 s } :=
    rfl
  have hrefused {e : TusError} (hwrite : writeChunk s.store id offset reader =
      (.error e, s.store)) :
      Tracks id (s.called interp observer t (.writeChunk id offset reader)) := by
    rw [hcalled, hwrite]
    cases reader <;> exact htracks
  cases reader with
  | error e => exact htracks
  | ok buf =>
      cases hentry : s.store id with
      | none => exact hrefused (by rw [writeChunk, hentry])
      | some entry =>
          obtain ⟨hdata, hlength⟩ := htracks.stored entry hentry
          have hat := hoffset entry hentry
          cases hend : chunkEnd entry.info offset buf.length with
          | error e => exact hrefused (e := e) (by simp only [writeChunk, hentry, hend])
          | ok endOffset =>
              obtain ⟨hsum, -, -⟩ := chunkEnd_eq_ok.mp hend
              have hstart : offset = entry.data.length := hat.symm.trans hlength
              have hwrite : writeChunk s.store id offset (.ok buf) =
                  (.ok buf.length, Function.update s.store id (some
                    { info := { entry.info with offset := endOffset }
                      data := writeAt entry.data offset buf })) := by
                simp only [writeChunk, hentry, hend]
              rw [hcalled, hwrite]
              constructor
              · intro hfree
                have hnone := (htracks.fresh hfree).1
                rw [hentry] at hnone
                cases hnone
              · change Contiguous 0 (Function.update s.notes.chunks id _ id)
                rw [Function.update_self]
                apply contiguous_append htracks.contiguous
                rw [← hdata, Nat.zero_add]
                exact hstart
              · intro entry' hentry'
                change Function.update s.store id _ id = some entry' at hentry'
                rw [Function.update_self] at hentry'
                obtain rfl := Option.some.inj hentry'
                change writeAt entry.data offset buf =
                  writtenBytes (Function.update s.notes.chunks id _ id) ∧
                  endOffset = (writeAt entry.data offset buf).length
                rw [Function.update_self, writtenBytes_append, ← hdata, hsum, hstart, writeAt_end,
                  List.length_append]
                exact ⟨rfl, rfl⟩

/-- A declared length changes neither the bytes nor the offset. -/
theorem offset_of_declare {st : MemoryStore} {length : ℕ} {entry : MemoryUploadState}
    (hentry : (declareLength st id length).2 id = some entry) :
    ∃ entry', st id = some entry' ∧ entry.data = entry'.data ∧
      entry.info.offset = entry'.info.offset := by
  rw [declareLength] at hentry
  split at hentry
  · exact ⟨entry, hentry, rfl, rfl⟩
  · next entry' hentry' =>
      split at hentry
      · exact ⟨entry, hentry, rfl, rfl⟩
      · change Function.update st id _ id = some entry at hentry
        rw [Function.update_self] at hentry
        obtain rfl := Option.some.inj hentry
        exact ⟨entry', hentry', rfl, rfl⟩

theorem tracks_declare {length : ℕ} (htracks : Tracks id s) :
    Tracks id (s.called interp observer t (.declareLength id length)) := by
  refine ⟨fun hfree => ?_, htracks.contiguous, fun entry hentry => ?_⟩
  · obtain ⟨hnone, hrest⟩ := htracks.fresh hfree
    refine ⟨?_, hrest⟩
    change (declareLength s.store id length).2 id = none
    rw [declareLength, hnone]
    exact hnone
  · obtain ⟨entry', hentry', hdata, hoffset⟩ := offset_of_declare hentry
    obtain ⟨hchunks, hlength⟩ := htracks.stored entry' hentry'
    exact ⟨hdata.trans hchunks, by rw [hoffset, hlength, hdata]⟩

theorem tracks_delete (htracks : Tracks id s) :
    Tracks id (s.called interp observer t (.delete id)) := by
  have hgone : (delete s.store id).2 id = none := by
    rw [delete]
    split
    · exact Function.update_self ..
    · next hnone => exact hnone
  refine ⟨fun hfree => ⟨hgone, (htracks.fresh hfree).2⟩, htracks.contiguous, fun entry hentry => ?_⟩
  have hnone : some entry = none := hentry.symm.trans hgone
  cases hnone

/-! ### Under the lock -/

/-- The client holds the lock of an upload that a `201` has named. -/
def Locked (t : ℕ) (id : UploadId) (s : Shared MemoryStore Journal) : Prop :=
  s.holder id = some t ∧ s.notes.named id = true

/-- Under the lock, the upload is at this offset. -/
def At (t : ℕ) (id : UploadId) (offset : ℕ) (s : Shared MemoryStore Journal) : Prop :=
  Locked t id s ∧ ∀ entry, s.store id = some entry → entry.info.offset = offset

/-- A chunk of this client has been accepted. -/
def Accepted (t : ℕ) (id : UploadId) (offset : ℕ) (buf : Bytes) (s : Shared MemoryStore Journal) :
    Prop := ⟨t, offset, buf⟩ ∈ s.notes.chunks id

/-- The upload that the request is about has been named. -/
def Named (q : TusRequest) (s : Shared MemoryStore Journal) : Prop :=
  ∀ id : UploadId, q.uploadId = some id.val → s.notes.named id = true

theorem stable_locked : Stable discipline t (Locked t id) :=
  fun _ _ hrely hs => ⟨(hrely.locks id).mpr hs.1, hrely.named id hs.2⟩

theorem stable_at {offset : ℕ} : Stable discipline t (At t id offset) := by
  rintro s s' hrely ⟨hlocked, hoffset⟩
  refine ⟨stable_locked s s' hrely hlocked, ?_⟩
  rw [(hrely.mine id (.inl hlocked)).1]
  exact hoffset

theorem stable_accepted {offset : ℕ} {buf : Bytes} :
    Stable discipline t (Accepted t id offset buf) :=
  fun _ _ hrely hs => (hrely.chunks id).subset hs

theorem stable_named {q : TusRequest} : Stable discipline t (Named q) :=
  fun _ _ hrely hs u hu => hrely.named u (hs u hu)

theorem Stable.and {A B : Shared MemoryStore Journal → Prop} (hA : Stable discipline t A)
    (hB : Stable discipline t B) : Stable discipline t fun s => A s ∧ B s :=
  fun s s' hrely hs => ⟨hA s s' hrely hs.1, hB s s' hrely hs.2⟩

/-- A call that only looks. -/
theorem triple_looks {o : StoreOp} {A : Shared MemoryStore Journal → Prop}
    (hlooks : ∀ s : Shared MemoryStore Journal, s.called interp observer t o = s)
    (hA : Stable discipline t A) :
    Triple (clients h interp observer) discipline t A (store o) (fun _ => A) A := by
  apply triple_store hA
  intro s hinv _ hs
  rw [hlooks s]
  exact ⟨⟨hinv, fun t' _ => discipline.refl t' s⟩, fun _ _ => hs, fun _ _ => hs⟩

theorem triple_finishIfComplete {info : UploadInfo} {A : Shared MemoryStore Journal → Prop}
    (hA : Stable discipline t A) :
    Triple (clients h interp observer) discipline t A (finishIfComplete h id info)
      (fun _ => A) A := by
  unfold finishIfComplete
  split
  · apply (triple_preFinish hA fun _ _ hs => hs).bind
    intro _
    apply (triple_looks (o := .finalize id) (fun _ => rfl) hA).bind
    intro _
    exact triple_emit hA
  · exact .ret fun _ _ hs => hs

theorem inv_congr {s' : Shared MemoryStore Journal} (hinv : discipline.inv s)
    (hstore : s'.store = s.store) (hnotes : s'.notes = s.notes) : discipline.inv s' := by
  intro id
  obtain ⟨hfresh, hcontiguous, hstored⟩ := hinv id
  constructor
  · rw [hstore, hnotes]
    exact hfresh
  · rw [hnotes]
    exact hcontiguous
  · rw [hstore, hnotes]
    exact hstored

/-- Work under the lock that keeps it. -/
theorem triple_locked {q : TusRequest} {p : Handler TusResponse}
    {B : TusResponse → Shared MemoryStore Journal → Prop} (hlocker : h.hasLocker = true)
    (hid : q.uploadId = some id.val) (hB : ∀ resp, Stable discipline t (B resp))
    (hrelease : ∀ resp s, B resp s → B resp (s.released id))
    (hp : Triple (clients h interp observer) discipline t (Locked t id) p
      (fun resp s => Locked t id s ∧ B resp s) (Locked t id)) :
    Triple (clients h interp observer) discipline t (Named q) (withLock h id p) B
      fun _ => True := by
  have hreleased {s : Shared MemoryStore Journal} (hinv : discipline.inv s)
      (hlocked : Locked t id s) :
      Keeps discipline t s (s.released id) :=
    ⟨inv_congr hinv rfl rfl, fun t' ht => ⟨sameLocks_released ht hlocked.1, fun _ => Iff.rfl,
      fun _ hu => hu, fun _ _ => rfl, fun _ => List.prefix_refl _, fun _ _ => ⟨rfl, rfl⟩⟩⟩
  refine triple_withLock hlocker stable_named ?_ ?_ hp
    (fun resp => Stable.and stable_locked (hB resp)) stable_locked ?_
  · exact fun s hinv _ => ⟨⟨hinv, fun t' _ => discipline.refl t' s⟩, trivial⟩
  · intro s hinv hs hfree
    refine ⟨⟨inv_congr hinv rfl rfl, fun t' ht => ⟨sameLocks_granted ht hfree, fun _ => Iff.rfl,
      fun _ hu => hu, fun _ _ => rfl, fun _ => List.prefix_refl _, fun _ _ => ⟨rfl, rfl⟩⟩⟩, ?_⟩
    exact ⟨held_granted observer t id s, hs id hid⟩
  · intro r s hinv hs
    cases r with
    | ok resp => exact ⟨hreleased hinv hs.1, hrelease resp s hs.2⟩
    | error e => exact ⟨hreleased hinv hs, trivial⟩

/-! ### The handlers -/

theorem uploadId_of_requestId {q : TusRequest} (hid : requestId q = .ok id) :
    q.uploadId = some id.val := by
  unfold requestId at hid
  split at hid
  · next value hvalue =>
      rw [hvalue, (UploadId.parse_eq_ok hid).1]
  · cases hid

theorem uploadId_of_parse {q : TusRequest} {offset : ℕ}
    (hparse : Patch.parseRequest q = .ok (offset, id)) : q.uploadId = some id.val :=
  uploadId_of_requestId (Patch.requestId_of_parse hparse)

/-- What a PATCH that is answered has done. -/
def Patched (t : ℕ) (q : TusRequest) (s : Shared MemoryStore Journal) : Prop :=
  ∃ offset id buf, Patch.parseRequest q = .ok (offset, id) ∧ q.body = some (.ok buf) ∧
    Accepted t id offset buf s

theorem stable_patched {q : TusRequest} : Stable discipline t (Patched t q) := by
  rintro s s' hrely ⟨offset, id, buf, hparse, hbody, haccepted⟩
  exact ⟨offset, id, buf, hparse, hbody, stable_accepted s s' hrely haccepted⟩

theorem triple_write {offset : ℕ} {reader : Reader} :
    Triple (clients h interp observer) discipline t (At t id offset)
      (Handler.writeChunk id offset reader)
      (fun _ s => Locked t id s ∧ ∃ buf, reader = .ok buf ∧ Accepted t id offset buf s)
      (Locked t id) := by
  apply triple_store (o := .writeChunk id offset reader) stable_at
  rintro s hinv - ⟨hlocked, hoffset⟩
  have hcalled : Locked t id (s.called interp observer t (.writeChunk id offset reader)) :=
    ⟨hlocked.1, (congrFun (named_call _ _) id).trans hlocked.2⟩
  refine ⟨keeps_call hinv nofun (.inl hlocked) (tracks_write (hinv id) hoffset), ?_,
    fun _ _ => hcalled⟩
  intro n hn
  refine ⟨hcalled, ?_⟩
  cases reader with
  | error e => cases hn
  | ok buf =>
      refine ⟨buf, rfl, ?_⟩
      change _ ∈ (call t (.writeChunk id offset (.ok buf)) _ s).chunks id
      rw [hn]
      change _ ∈ Function.update s.notes.chunks id _ id
      rw [Function.update_self]
      exact List.mem_append_right _ (List.mem_singleton_self _)

theorem triple_getInfo :
    Triple (clients h interp observer) discipline t (Locked t id) (Handler.getInfo id)
      (fun info => At t id info.offset) (Locked t id) := by
  apply triple_store (o := .getInfo id) stable_locked
  intro s hinv _ hlocked
  refine ⟨⟨hinv, fun t' _ => discipline.refl t' s⟩, ?_, fun _ _ => hlocked⟩
  intro info hinfo
  refine ⟨hlocked, fun entry hentry => ?_⟩
  change s.store id = some entry at hentry
  change getInfo s.store id = .ok info at hinfo
  rw [getInfo, hentry] at hinfo
  exact congrArg UploadInfo.offset (Except.ok.inj hinfo)

theorem triple_declareLength {offset length : ℕ} :
    Triple (clients h interp observer) discipline t (At t id offset)
      (Handler.declareLength id length) (fun _ => At t id offset) (Locked t id) := by
  apply triple_store (o := .declareLength id length) stable_at
  rintro s hinv - ⟨hlocked, hoffset⟩
  refine ⟨keeps_call hinv nofun (.inl hlocked) (tracks_declare (hinv id)), ?_, fun _ _ => hlocked⟩
  intro _ _
  refine ⟨hlocked, fun entry hentry => ?_⟩
  obtain ⟨entry', hentry', -, heq⟩ := offset_of_declare hentry
  exact heq.trans (hoffset entry' hentry')

/-- The chunk of a PATCH, and what follows it. -/
theorem triple_chunk {q : TusRequest} {offset : ℕ}
    (hparse : Patch.parseRequest q = .ok (offset, id)) :
    Triple (clients h interp observer) discipline t (At t id offset)
      ((check (Patch.chunkReader h q)).bind fun reader =>
        (Handler.writeChunk id offset reader).bind fun _ => Patch.finish h id)
      (fun _ s => Locked t id s ∧ Patched t q s) (Locked t id) := by
  have hdone : Stable discipline t fun s => Locked t id s ∧ Patched t q s :=
    Stable.and stable_locked stable_patched
  apply (triple_check fun _ _ hs => hs.1).bind
  intro reader
  apply Triple.fact
  intro hreader
  apply triple_write.bind
  intro n
  have hfinish : Triple (clients h interp observer) discipline t
      (fun s => Locked t id s ∧ Patched t q s) (Patch.finish h id)
      (fun _ s => Locked t id s ∧ Patched t q s) (fun s => Locked t id s ∧ Patched t q s) := by
    unfold Patch.finish
    apply (triple_looks (o := .getInfo id) (fun _ => rfl) hdone).bind
    intro info
    apply (triple_emit hdone).bind
    intro _
    apply (triple_finishIfComplete hdone).bind
    intro _
    exact .ret fun _ _ hs => hs
  apply hfinish.conseq _ (fun _ _ hs => hs) fun _ hs => hs.1
  rintro s - ⟨hlocked, buf, rfl, haccepted⟩
  exact ⟨hlocked, offset, id, buf, hparse, Patch.body_of_chunkReader hreader, haccepted⟩

theorem triple_patchLocked {q : TusRequest} {offset : ℕ}
    (hparse : Patch.parseRequest q = .ok (offset, id)) :
    Triple (clients h interp observer) discipline t (Locked t id) (Patch.locked h q offset id)
      (fun _ s => Locked t id s ∧ Patched t q s) (Locked t id) := by
  unfold Patch.locked
  apply (triple_looks (o := .getUpload id) (fun _ => rfl) stable_locked).bind
  intro _
  apply triple_getInfo.bind
  intro info
  apply (triple_ensure fun _ _ hs => hs.1).bind
  intro _
  apply Triple.fact
  intro _
  apply (triple_ensure fun _ _ hs => hs.1).bind
  intro _
  apply Triple.fact
  intro heq
  obtain rfl := eq_of_beq heq
  apply (triple_checkExpiry stable_at fun _ _ hs => hs.1).bind
  intro _
  apply (triple_check fun _ _ hs => hs.1).bind
  intro declared
  apply Triple.fact
  intro _
  cases declared with
  | some length =>
      apply triple_declareLength.bind
      exact fun _ => triple_chunk hparse
  | none => exact triple_chunk hparse

theorem triple_patch {q : TusRequest} (hlocker : h.hasLocker = true) :
    Triple (clients h interp observer) discipline t (Named q) (Patch.handle h q)
      (fun _ => Patched t q) fun _ => True := by
  unfold Patch.handle
  apply (triple_check fun _ _ _ => trivial).bind
  rintro ⟨offset, id⟩
  apply Triple.fact
  intro hparse
  exact triple_locked hlocker (uploadId_of_parse hparse)
    (fun _ => stable_patched) (fun _ _ hs => hs) (triple_patchLocked hparse)

theorem stable_true : Stable discipline t fun _ => True := fun _ _ _ _ => trivial

theorem triple_head {q : TusRequest} :
    Triple (clients h interp observer) discipline t (fun _ => True) (Head.handle h q)
      (fun _ _ => True) fun _ => True := by
  unfold Head.handle
  apply (triple_check fun _ _ _ => trivial).bind
  intro _
  apply Triple.fact
  intro _
  apply (triple_check fun _ _ _ => trivial).bind
  intro id
  apply Triple.fact
  intro _
  apply (triple_looks (o := .getUpload id) (fun _ => rfl) stable_true).bind
  intro _
  apply (triple_looks (o := .getInfo id) (fun _ => rfl) stable_true).bind
  intro info
  apply (triple_checkExpiry stable_true fun _ _ _ => trivial).bind
  intro _
  exact .ret fun _ _ _ => trivial

/-- Work under the lock that answers nothing about the notes. -/
theorem triple_guarded {q : TusRequest} {p : Handler TusResponse} (hlocker : h.hasLocker = true)
    (hid : requestId q = .ok id)
    (hp : Triple (clients h interp observer) discipline t (Locked t id) p (fun _ => Locked t id)
      (Locked t id)) :
    Triple (clients h interp observer) discipline t (Named q) (withLock h id p) (fun _ _ => True)
      fun _ => True := by
  apply triple_locked hlocker (uploadId_of_requestId hid) (fun _ => stable_true)
    fun _ _ _ => trivial
  exact hp.conseq (fun _ _ hs => hs) (fun _ _ hs => ⟨hs, trivial⟩) fun _ hs => hs

theorem triple_get {q : TusRequest} (hlocker : h.hasLocker = true) :
    Triple (clients h interp observer) discipline t (Named q) (Get.handle h q)
      (fun _ _ => True) fun _ => True := by
  unfold Get.handle
  apply (triple_ensure fun _ _ _ => trivial).bind
  intro _
  apply Triple.fact
  intro _
  apply (triple_check fun _ _ _ => trivial).bind
  intro id
  apply Triple.fact
  intro hid
  apply triple_guarded hlocker hid
  apply (triple_looks (o := .getUpload id) (fun _ => rfl) stable_locked).bind
  intro _
  apply (triple_looks (o := .getInfo id) (fun _ => rfl) stable_locked).bind
  intro info
  apply (triple_checkExpiry stable_locked fun _ _ hs => hs).bind
  intro _
  apply (triple_ensure fun _ _ hs => hs).bind
  intro _
  apply Triple.fact
  intro _
  apply (triple_looks (o := .readContent id) (fun _ => rfl) stable_locked).bind
  intro content
  exact .ret fun _ _ hs => hs

theorem triple_removal :
    Triple (clients h interp observer) discipline t (Locked t id) (Handler.delete id)
      (fun _ => Locked t id) (Locked t id) := by
  apply triple_store (o := .delete id) stable_locked
  intro s hinv _ hlocked
  have hcalled : Locked t id (s.called interp observer t (.delete id)) :=
    ⟨hlocked.1, (congrFun (named_call _ _) id).trans hlocked.2⟩
  exact ⟨keeps_call hinv nofun (.inl hlocked) (tracks_delete (hinv id)), fun _ _ => hcalled,
    fun _ _ => hcalled⟩

theorem triple_delete {q : TusRequest} (hlocker : h.hasLocker = true) :
    Triple (clients h interp observer) discipline t (Named q) (Delete.handle h q)
      (fun _ _ => True) fun _ => True := by
  unfold Delete.handle
  apply (triple_check fun _ _ _ => trivial).bind
  intro _
  apply Triple.fact
  intro _
  apply (triple_ensure fun _ _ _ => trivial).bind
  intro _
  apply Triple.fact
  intro _
  apply (triple_check fun _ _ _ => trivial).bind
  intro id
  apply Triple.fact
  intro hid
  have hwork : Triple (clients h interp observer) discipline t (Named q)
      (withLock h id ((Handler.getUpload id).bind fun _ => (Handler.delete id).bind fun _ =>
        (emit h (.uploadTerminated id)).bind fun _ => .ret (h.response 204 [] [])))
      (fun _ _ => True) fun _ => True := by
    apply triple_guarded hlocker hid
    apply (triple_looks (o := .getUpload id) (fun _ => rfl) stable_locked).bind
    intro _
    apply triple_removal.bind
    intro _
    apply (triple_emit stable_locked).bind
    intro _
    exact .ret fun _ _ hs => hs
  by_cases hset : h.config.hooks.preTerminate = true
  · rw [if_pos hset]
    have hlooks {o : StoreOp} (ho : ∀ s : Shared MemoryStore Journal,
        s.called interp observer t o = s) :
        Triple (clients h interp observer) discipline t (Named q) (store o) (fun _ => Named q)
          fun _ => True :=
      (triple_looks ho stable_named).conseq (fun _ _ hs => hs) (fun _ _ hs => hs) fun _ _ => trivial
    apply (hlooks (o := .getUpload id) fun _ => rfl).bind
    intro _
    apply (hlooks (o := .getInfo id) fun _ => rfl).bind
    intro info
    have hconsent : Triple (clients h interp observer) discipline t (Named q)
        (preTerminate h info) (fun _ => Named q) fun _ => True := by
      apply triple_preTerminate stable_named (fun _ _ hs => hs)
      intro s r hinv hs
      refine ⟨⟨hinv, fun t' _ => discipline.refl t' s⟩, ?_⟩
      cases r with
      | ok _ => exact hs
      | error e => trivial
    exact hconsent.bind fun _ => hwork
  · rw [if_neg hset]
    exact hwork

/-- An upload of the client that no `201` has named, still without bytes. -/
def Created (t : ℕ) (id : UploadId) (s : Shared MemoryStore Journal) : Prop :=
  (s.notes.owner id = some t ∧ s.notes.named id = false) ∧
    ∀ entry, s.store id = some entry → entry.info.offset = 0

theorem stable_created : Stable discipline t (Created t id) := by
  rintro s s' hrely ⟨hmine, hoffset⟩
  refine ⟨⟨(hrely.owner id).mpr hmine.1, (hrely.unnamed id hmine.1).trans hmine.2⟩, ?_⟩
  rw [(hrely.mine id (.inr hmine)).1]
  exact hoffset

theorem triple_create {info : UploadInfo} (hoffset : info.offset = 0) :
    Triple (clients h interp observer) discipline t (fun _ => True) (Handler.createUpload info)
      (fun _ => Created t info.id) fun _ => True := by
  apply triple_store (o := .createUpload info) stable_true
  intro s hinv hallowed _
  have hfree := hallowed info rfl
  refine ⟨keeps_create hinv hfree hoffset, fun _ _ => ⟨⟨?_, ?_⟩, ?_⟩, fun _ _ => trivial⟩
  · exact Function.update_self ..
  · exact ((hinv info.id).fresh hfree).2.1
  · intro entry hentry
    change Function.update s.store info.id _ info.id = some entry at hentry
    rw [Function.update_self] at hentry
    obtain rfl := Option.some.inj hentry
    exact hoffset

theorem triple_writeBody {q : TusRequest} :
    Triple (clients h interp observer) discipline t (Created t id) (Post.writeBody h q id)
      (fun _ _ => True) fun _ => True := by
  unfold Post.writeBody
  split
  · next reader _ =>
      apply triple_store (o := .writeChunk id 0 reader) stable_created
      rintro s hinv - ⟨hmine, hoffset⟩
      exact ⟨keeps_call hinv nofun (.inr hmine) (tracks_write (hinv id) hoffset),
        fun _ _ => trivial, fun _ _ => trivial⟩
  · exact .ret fun _ _ _ => trivial

theorem triple_fill {q : TusRequest} {p : Post.Parsed} {info : UploadInfo}
    (hfinal : p.isFinal = false) :
    Triple (clients h interp observer) discipline t (Created t info.id) (Post.fill h q p info)
      (fun _ _ => True) fun _ => True := by
  unfold Post.fill Post.assemble Post.cleanup
  simp only [hfinal, Bool.false_and, Bool.false_eq_true, if_false, Prog.bind_eq, Prog.pure_eq,
    Prog.ret_bind]
  apply triple_writeBody.bind
  intro n
  apply (triple_looks (o := .getInfo info.id) (fun _ => rfl) stable_true).bind
  intro finalInfo
  apply (triple_check fun _ _ _ => trivial).bind
  intro _
  apply Triple.fact
  intro _
  unfold Post.finish
  apply (triple_emit stable_true).bind
  intro _
  apply (triple_finishIfComplete stable_true).bind
  intro _
  apply (triple_check fun _ _ _ => trivial).bind
  intro m
  exact .ret fun _ _ _ => trivial

theorem triple_creation {q : TusRequest} {p : Post.Parsed} {info : UploadInfo}
    (hfinal : p.isFinal = false) (hoffset : info.offset = 0) :
    Triple (clients h interp observer) discipline t (fun _ => True) (Post.create h q p info)
      (fun _ _ => True) fun _ => True := by
  unfold Post.create
  apply (triple_create hoffset).bind
  exact fun _ => triple_fill hfinal

theorem triple_post {q : TusRequest}
    (hfinal : Post.isFinalHeader (HeaderMap.getStr q.headers .uploadConcat) = false) :
    Triple (clients h interp observer) discipline t (fun _ => True) (Post.handle h q)
      (fun _ _ => True) fun _ => True := by
  unfold Post.handle
  apply (triple_check fun _ _ _ => trivial).bind
  intro p
  apply Triple.fact
  intro hparse
  apply (triple_newUuid stable_true).bind
  intro uuid
  apply (triple_check fun _ _ _ => trivial).bind
  intro info
  apply Triple.fact
  intro hbuild
  apply (triple_expiry stable_true fun _ _ _ => trivial).bind
  intro expiresAt
  apply (triple_preCreate stable_true fun _ _ _ => trivial).bind
  intro info'
  apply Triple.fact
  rintro ⟨id, metadata, storage, rfl⟩
  have hoffset : info.offset = 0 := by
    simp only [Post.buildInfo, bind_eq_ok] at hbuild
    obtain ⟨ids, -, hinfo⟩ := hbuild
    obtain rfl := Except.ok.inj hinfo
    rfl
  have hnot : p.isFinal = false := by
    obtain ⟨hheader, hisFinal, -⟩ := Post.parseRequest_ok hparse
    rw [hisFinal, hheader]
    exact hfinal
  exact triple_creation hnot hoffset

/-- What is known of a client at the end of its request. -/
def Answered (t : ℕ) (q : TusRequest) (r : Except Halt TusResponse)
    (s : Shared MemoryStore Journal) :
    Prop :=
  q.method = .patch → ∀ resp, r = .ok resp → resp.status = 204 → Patched t q s

theorem stable_answered {q : TusRequest} {r : Except Halt TusResponse} :
    Stable discipline t (Answered t q r) :=
  fun s s' hrely hs hmethod resp hr hstatus =>
    stable_patched s s' hrely (hs hmethod resp hr hstatus)

theorem triple_request {q : TusRequest} (hlocker : h.hasLocker = true) :
    Triple (clients h interp observer) discipline t (fun s => Admitted s.notes q) (h.handle q)
      (fun resp => Answered t q (.ok resp)) fun _ => True := by
  intro s hinv hadmitted
  have herror (e : TusError) (s : Shared MemoryStore Journal) :
      Answered t q (.ok (h.errorResponse e)) s := by
    rintro - _ ⟨⟩ hstatus
    have hge := h.errorResponse_status e
    omega
  have hother {p : Handler TusResponse} {A : Shared MemoryStore Journal → Prop}
      (hmethod : q.method ≠ .patch)
      (hp : Triple (clients h interp observer) discipline t A p (fun _ _ => True) fun _ => True) :
      Triple (clients h interp observer) discipline t A p
        (fun resp => Answered t q (.ok resp)) fun _ => True :=
    hp.conseq (fun _ _ hs => hs) (fun _ _ _ hpatch => absurd hpatch hmethod) fun _ hs => hs
  have hdispatch {A : Shared MemoryStore Journal → Prop} (hs : A s)
      (hp : Triple (clients h interp observer) discipline t A (h.dispatch q)
        (fun resp => Answered t q (.ok resp)) fun _ => True) :
      Secured (clients h interp observer) discipline t
        (Outcome (fun resp => Answered t q (.ok resp)) fun _ => True) (h.handle q) s :=
    triple_handle hp (fun e s _ => herror e s) s hinv hs
  rcases hadmitted with ⟨hmethod, hfinal⟩ | ⟨hmethod | hmethod | hmethod | hmethod, hnamed⟩
  · apply hdispatch (A := fun _ => True) trivial
    rw [TusHandler.dispatch, hmethod]
    exact hother (by simp [hmethod]) (triple_post hfinal)
  · apply hdispatch (A := Named q) hnamed
    rw [TusHandler.dispatch, hmethod]
    apply (triple_patch hlocker).conseq (fun _ _ hs => hs) _ fun _ hs => hs
    rintro resp s hs - _ ⟨⟩ -
    exact hs
  · apply hdispatch (A := fun _ => True) trivial
    rw [TusHandler.dispatch, hmethod]
    exact hother (by simp [hmethod]) triple_head
  · apply hdispatch (A := Named q) hnamed
    rw [TusHandler.dispatch, hmethod]
    exact hother (by simp [hmethod]) (triple_get hlocker)
  · apply hdispatch (A := Named q) hnamed
    rw [TusHandler.dispatch, hmethod]
    exact hother (by simp [hmethod]) (triple_delete hlocker)

/-- An answer names the uploads of its client alone. -/
theorem keeps_leave {r : Except Halt TusResponse} {q : TusRequest} (hinv : discipline.inv s) :
    Keeps discipline t s { s with notes := observer.leave t q r s.notes } := by
  have hsame : Keeps discipline t s s := ⟨hinv, fun t' _ => discipline.refl t' s⟩
  change Keeps discipline t s { s with notes := leave t r s.notes }
  cases r with
  | error e => exact hsame
  | ok resp =>
      by_cases hstatus : resp.status = 201
      · simp only [leave, if_pos hstatus]
        constructor
        · intro id
          obtain ⟨hfresh, hcontiguous, hstored⟩ := hinv id
          refine ⟨fun hfree => ?_, hcontiguous, hstored⟩
          obtain ⟨hnone, hunnamed, hempty⟩ := hfresh hfree
          refine ⟨hnone, ?_, hempty⟩
          simp [hunnamed, show s.notes.owner id = none from hfree]
        · intro t' ht
          refine ⟨fun _ => Iff.rfl, fun _ => Iff.rfl, fun id hid => ?_, fun id hid => ?_,
            fun _ => List.prefix_refl _, fun _ _ => ⟨rfl, rfl⟩⟩
          · simp [hid]
          · simp [hid, ht]
      · simp only [leave, if_neg hstatus]
        exact hsame

end Journal

open Journal

/-- The clients of a handler with a locker, from the empty store. -/
theorem secured {h : TusHandler} {c : Clients MemoryStore Journal} (hlocker : h.hasLocker = true)
    (hc : Reach (clients h interp Journal.observer) Fresh (opened (fun _ => none) .empty) c) :
    Journal.discipline.inv c.shared ∧ ∀ t, Safe (clients h interp Journal.observer)
      Journal.discipline (Answered t) t (c.threads t) c.shared := by
  refine Reach.secured (fun _ _ _ => stable_answered) ?_ ?_ ?_ (fun _ => rfl) ?_ hc
  · rintro c m hm t env q o k rfl hrunning info rfl
    exact hm.2 t env q info k rfl hrunning
  · intro c t q hm hinv
    refine ⟨⟨hinv, fun t' _ => Journal.discipline.refl t' _⟩, ?_⟩
    apply (triple_request hlocker _ hinv (hm.1 t q rfl)).mono
    intro r s hr
    cases r with
    | ok resp => exact hr
    | error e =>
        rintro - resp ⟨⟩
  · intro t q r s hinv hs
    refine ⟨keeps_leave hinv, ?_⟩
    intro hmethod resp hr hstatus
    obtain ⟨offset, id, buf, hparse, hbody, haccepted⟩ := hs hmethod resp hr hstatus
    refine ⟨offset, id, buf, hparse, hbody, ?_⟩
    change _ ∈ (leave t r s.notes).chunks id
    unfold leave
    split
    · split <;> exact haccepted
    · exact haccepted
  · intro id
    exact ⟨fun _ => ⟨rfl, rfl, rfl⟩, trivial, nofun⟩

/-- What the clients see of each other: an upload is the chunks accepted for
it, in order and without a gap, and of two chunks for one offset only one is
accepted. -/
structure Serialized (c : Clients MemoryStore Journal) : Prop where
  stored : ∀ id entry, c.shared.store id = some entry →
    entry.data = writtenBytes (c.shared.notes.chunks id) ∧ entry.info.offset = entry.data.length
  contiguous : ∀ id, Contiguous 0 (c.shared.notes.chunks id)
  exclusive : ∀ t t' q q' resp resp' offset id, t ≠ t' →
    c.threads t = .done q (.ok resp) → c.threads t' = .done q' (.ok resp') →
    q.method = .patch → q'.method = .patch →
    Patch.parseRequest q = .ok (offset, id) → Patch.parseRequest q' = .ok (offset, id) →
    q.body ≠ some (.ok []) → q'.body ≠ some (.ok []) → ¬ (resp.status = 204 ∧ resp'.status = 204)

theorem serialized_of_reach {h : TusHandler} {c : Clients MemoryStore Journal}
    (hlocker : h.hasLocker = true)
    (hc : Reach (clients h interp Journal.observer) Fresh (opened (fun _ => none) .empty) c) :
    Serialized c := by
  obtain ⟨hinv, hsafe⟩ := secured hlocker hc
  have hwrote {t : ℕ} {q : TusRequest} {resp : TusResponse} {offset : ℕ} {id : UploadId}
      (hdone : c.threads t = .done q (.ok resp)) (hmethod : q.method = .patch)
      (hparse : Patch.parseRequest q = .ok (offset, id)) (hbody : q.body ≠ some (.ok []))
      (hstatus : resp.status = 204) :
      ∃ buf, buf ≠ [] ∧ ⟨t, offset, buf⟩ ∈ c.shared.notes.chunks id := by
    have hanswered := hsafe t
    rw [hdone] at hanswered
    obtain ⟨offset', id', buf, hparse', hbody', haccepted⟩ := hanswered hmethod resp rfl hstatus
    obtain ⟨rfl, rfl⟩ := Prod.mk.inj (Except.ok.inj (hparse'.symm.trans hparse))
    refine ⟨buf, ?_, haccepted⟩
    rintro rfl
    exact hbody hbody'
  refine ⟨fun id => (hinv id).stored, fun id => (hinv id).contiguous, ?_⟩
  rintro t t' q q' resp resp' offset id hne hdone hdone' hmethod hmethod' hparse hparse' hbody
    hbody' ⟨hstatus, hstatus'⟩
  obtain ⟨buf, hbuf, hmem⟩ := hwrote hdone hmethod hparse hbody hstatus
  obtain ⟨buf', hbuf', hmem'⟩ := hwrote hdone' hmethod' hparse' hbody' hstatus'
  have hsame := eq_of_offset_eq (hinv id).contiguous hmem hmem' hbuf hbuf' rfl
  exact hne (congrArg Written.client hsame)

namespace RacingChunks

def handler : TusHandler := ⟨{}, true, .fixed⟩

/-- Whether a move may be part of the run. -/
def admits (c : Clients MemoryStore Journal) : ClientMove → Bool
  | .start _ q =>
    (q.method == .post && !Post.isFinalHeader (HeaderMap.getStr q.headers .uploadConcat)) ||
      (q.method == .patch && q.uploadId.all fun value => c.shared.notes.named ⟨value⟩)
  | .step t _ =>
    match c.threads t with
    | .running _ (.op (.store (.createUpload info)) _) => (c.shared.notes.owner info.id).isNone
    | _ => true
  | .finish _ => true

theorem fresh_of_admits {c : Clients MemoryStore Journal}
    {m : ClientMove} (hm : admits c m = true) :
    Fresh c m := by
  constructor
  · rintro t q rfl
    simp only [admits, Bool.or_eq_true, Bool.and_eq_true, beq_iff_eq, Bool.not_eq_true'] at hm
    rcases hm with ⟨hpost, hfinal⟩ | ⟨hpatch, hnamed⟩
    · exact .inl ⟨hpost, hfinal⟩
    · refine .inr ⟨.inl hpatch, fun id hid => ?_⟩
      rw [hid] at hnamed
      exact hnamed
  · rintro t env q info k rfl hrunning
    simp only [admits, hrunning] at hm
    exact Option.isNone_iff_eq_none.mp hm

def post : TusRequest :=
  .ofTexts .post none [(.tusResumable, "1.0.0"), (.uploadLength, "2")] none

def patch (chunk : Bytes) : TusRequest :=
  .ofTexts .patch (some "a1234567-89ab-4cde-8fed-0123456789ab")
    [(.tusResumable, "1.0.0"), (.contentType, "application/offset+octet-stream"),
      (.uploadOffset, "0")] (some chunk)

def steps (t n : ℕ) : List ClientMove := List.replicate n (.step t (.permissive .a))

/-- Client 0 creates an upload. Clients 1 and 2 each have a byte for its
start, and client 1 is the first at the lock. -/
def run : List ClientMove :=
  .start 0 post :: steps 0 3 ++ .finish 0 :: .start 1 (patch [97]) :: .start 2 (patch [98]) ::
    steps 1 6 ++ .finish 1 :: steps 2 4 ++ [.finish 2]

def status (c : Clients MemoryStore Journal) (t : ℕ) : Option ℕ :=
  match c.threads t with
  | .done _ (.ok resp) => some resp.status
  | _ => none

theorem evaluated : (checked (clients handler interp Journal.observer) admits run
    (opened (fun _ => none) .empty)).map (fun c => [0, 1, 2].map (status c)) =
      some [some 201, some 204, some 409] := by
  decide +kernel

end RacingChunks

open RacingChunks in
theorem serialized_of_reach_racing : ∃ c,
    checked (clients handler interp Journal.observer) admits run (opened (fun _ => none) .empty) =
      some c ∧ [0, 1, 2].map (status c) = [some 201, some 204, some 409] ∧ Serialized c := by
  obtain ⟨c, hc, hstatuses⟩ := Option.map_eq_some_iff.mp evaluated
  exact ⟨c, hc, hstatuses,
    serialized_of_reach rfl (reach_of_checked (fun _ _ => fresh_of_admits) .refl hc)⟩

end Fileloft.MemoryStore
