import Fileloft.Fs.Fixture
import Fileloft.Fs.Serve
import Fileloft.Server.Fixture
import Fileloft.Server.Fresh

/-!
# Records between two requests

Every handler writes whole records, from a copy that it read before. What a
client was told about an upload stays true all the same.
-/

namespace Fileloft

open Handler

/-- What may change in the record of an upload: the offset grows, and an
unknown size can become known. -/
structure UploadInfo.Persists (info info' : UploadInfo) : Prop where
  offset : info.offset ≤ info'.offset
  size : ∀ n, info.size = some n → info'.size = some n
  id : info'.id = info.id
  metadata : info'.metadata = info.metadata
  isPartial : info'.isPartial = info.isPartial
  isFinal : info'.isFinal = info.isFinal
  partialUploads : info'.partialUploads = info.partialUploads
  storage : info'.storage = info.storage
  expiresAt : info'.expiresAt = info.expiresAt

namespace UploadInfo.Persists

variable {info info' info'' : UploadInfo}

theorem refl (info : UploadInfo) : info.Persists info :=
  ⟨le_rfl, fun _ hn => hn, rfl, rfl, rfl, rfl, rfl, rfl, rfl⟩

theorem trans (h : info.Persists info') (h' : info'.Persists info'') : info.Persists info'' where
  offset := h.offset.trans h'.offset
  size n hn := h'.size n (h.size n hn)
  id := h'.id.trans h.id
  metadata := h'.metadata.trans h.metadata
  isPartial := h'.isPartial.trans h.isPartial
  isFinal := h'.isFinal.trans h.isFinal
  partialUploads := h'.partialUploads.trans h.partialUploads
  storage := h'.storage.trans h.storage
  expiresAt := h'.expiresAt.trans h.expiresAt

end UploadInfo.Persists

namespace Slot

variable {slot : Slot} {info info' : UploadInfo}

/-- A slot whose record, if it is still there, follows `info`. -/
def Follows (slot : Slot) (info : UploadInfo) : Prop :=
  ∀ info', slot.info = some info' → info.Persists info'

theorem Follows.writeChunk (hslot : slot.Follows info) (offset : ℕ) (reader : Reader) :
    (slot.writeChunk offset reader).2.Follows info := by
  cases hinfo : slot.info with
  | none => simpa [Slot.writeChunk, Slot.record, hinfo] using hslot
  | some old =>
      have hold := hslot old hinfo
      simp only [Slot.writeChunk, Slot.record, hinfo]
      cases haccept : FileStore.acceptChunk old offset reader with
      | error e => exact hslot
      | ok r =>
          obtain ⟨buf, endOffset⟩ := r
          intro info' hinfo'
          obtain rfl := Option.some.inj hinfo'
          cases reader with
          | error e => simp [FileStore.acceptChunk, FileStore.readToEnd, bind_eq_ok] at haccept
          | ok bytes =>
              obtain ⟨hoffset, -, hend⟩ := FileStore.acceptChunk_ok haccept
              refine hold.trans ⟨?_, fun _ hn => hn, rfl, rfl, rfl, rfl, rfl, rfl, rfl⟩
              change old.offset ≤ endOffset
              omega

theorem Follows.declareLength (hslot : slot.Follows info) (length : ℕ) :
    (slot.declareLength length).2.Follows info := by
  cases hinfo : slot.info with
  | none => simpa [Slot.declareLength, hinfo] using hslot
  | some old =>
      have hold := hslot old hinfo
      cases hsize : old.size with
      | some n => simpa [Slot.declareLength, hinfo, hsize] using hslot
      | none =>
          simp only [Slot.declareLength, hinfo, hsize, Option.isSome_none, Bool.false_eq_true,
            if_false]
          intro info' hinfo'
          obtain rfl := Option.some.inj hinfo'
          refine hold.trans ⟨le_rfl, fun n hn => ?_, rfl, rfl, rfl, rfl, rfl, rfl, rfl⟩
          rw [hsize] at hn
          cases hn

end Slot

namespace Slots

variable {t : Slots} {id : UploadId} {info : UploadInfo}

theorem update_follows {id' : UploadId} {slot : Slot} (ht : (t id).Follows info)
    (hslot : id' = id → slot.Follows info) : (Function.update t id' slot id).Follows info := by
  by_cases heq : id' = id
  · subst heq
    rw [Function.update_self]
    exact hslot rfl
  · rwa [Function.update_of_ne (Ne.symm heq)]

/-- A call that does not start the upload over keeps what is known of it. -/
theorem interp_follows (o : StoreOp) (ho : ¬ Renews id o) (ht : (t id).Follows info) :
    ((interp o t).2 id).Follows info := by
  cases o with
  | createUpload info' =>
      simp only [interp, createUpload]
      split
      · exact ht
      · exact update_follows ht fun heq => absurd heq ho
  | getUpload _ | getInfo _ | readContent _ => exact ht
  | finalize id' =>
      refine update_follows ht fun heq => ?_
      subst heq
      exact ht
  | delete id' =>
      refine update_follows ht fun _ info' hinfo' => ?_
      cases hinfo'
  | writeChunk id' offset reader =>
      refine update_follows ht fun heq => ?_
      subst heq
      exact ht.writeChunk offset reader
  | declareLength id' length =>
      refine update_follows ht fun heq => ?_
      subst heq
      exact ht.declareLength length
  | concatenate id' partials =>
      simp only [interp, concatenate]
      split <;> exact update_follows ht fun heq => absurd heq ho

end Slots

namespace FileStore

section Run

variable {s : FileStore} {h : TusHandler} {w : World Disk} {x : Exchange s.backend} {id : UploadId}

/-- A creation does not settle on an id that has a record. -/
def Fresh (s : FileStore) (h : TusHandler) (w : World Disk) (x : Exchange s.backend) : Prop :=
  ∀ p info, x.req.method = .post → Post.prepare h x.env x.req = .ok (p, info) →
    w.store.content (s.infoPath info.id) = none

theorem Fresh.spares (hx : s.Fresh h w x) (hrecord : w.store.content (s.infoPath id) ≠ none) :
    Spares h x.env x.req id := by
  rintro p info hmethod hprepare rfl
  exact hrecord (hx p info hmethod hprepare)

/-- The record of an upload, as the store reads it. -/
theorem Tracks.getInfo {v : World Slots} (hw : s.Tracks w v) (hid : id.Valid) (order : Listing)
    {info : UploadInfo} :
    (s.interp order (.getInfo id) w.store).1 = .ok info ↔ (v.store id).info = some info := by
  rw [(hw.store.call (.getInfo id) (StoreOp.forall_handle hid) order).1]
  simp only [Slots.interp, Slot.record]
  cases (v.store id).info <;> simp

/-- From one request to the next, the record of an upload that both find
changes only by a growing offset and a size that becomes known. -/
theorem record_persists (hrun : s.backend.Follows h (s.Fresh h) s.backend.initial w)
    (hx : s.Fresh h w x) (hid : id.Valid) {order order' : Listing} {info info' : UploadInfo}
    (hbefore : (s.interp order (.getInfo id) w.store).1 = .ok info)
    (hafter : (s.interp order' (.getInfo id) (s.backend.serve h x w).2.store).1 = .ok info') :
    info.Persists info' := by
  obtain ⟨v, -, hwv⟩ := tracks_of_reachable (hrun.reachable .initial)
  rw [hwv.getInfo hid] at hbefore
  have hspares : Spares h x.env x.req id := by
    apply hx.spares
    rw [infoPath, hwv.store.file id hid .info, FileStore.file, hbefore]
    exact Option.some_ne_none _
  rw [(hwv.step x).2.getInfo hid] at hafter
  have hfollows : (v.store id).Follows info := by
    intro info'' hinfo''
    rw [hbefore] at hinfo''
    exact Option.some.inj hinfo'' ▸ .refl info
  exact hspares.preserves (I := fun t : Slots => (t id).Follows info)
    (fun o _ ho ht => Slots.interp_follows o ho ht) hfollows info' hafter

end Run

namespace GrowingUpload

def handler : TusHandler := ⟨{}, true, .fixed⟩

def order : Listing := ⟨List.reverse, List.reverse_perm⟩

/-- An upload whose length is not known yet. -/
def post : Exchange uploads.backend where
  req := .ofTexts .post none [(.tusResumable, "1.0.0"), (.uploadDeferLength, "1")] none
  env := .permissive .a
  choice := order

/-- Its length, and its first byte. -/
def patch : Exchange uploads.backend where
  req := .ofTexts .patch (some "a1234567-89ab-4cde-8fed-0123456789ab")
    [(.tusResumable, "1.0.0"), (.contentType, "application/offset+octet-stream"),
      (.uploadOffset, "0"), (.uploadLength, "2")] (some [97])
  env := .permissive .b
  choice := order

def id : UploadId := .new post.env.uuid

def slots : World Slots := (Slots.backend.serve handler (slotted post) Slots.backend.initial).2

theorem evaluated : id.Valid ∧
    ((slots.store id).info.map fun info => (info.offset, info.size)) = some (0, none) ∧
    (((Slots.backend.serve handler (slotted patch) slots).2.store id).info.map fun info =>
      (info.offset, info.size)) = some (1, some 2) := by
  decide +kernel

theorem fresh_post : uploads.Fresh handler uploads.backend.initial post := fun _ _ _ _ => rfl

theorem fresh_patch (w : World Disk) : uploads.Fresh handler w patch := fun _ _ hmethod => by
  cases hmethod

end GrowingUpload

open GrowingUpload in
theorem record_persists_patch :
    ∃ info info', (uploads.interp order (.getInfo id)
        (uploads.backend.serve handler post uploads.backend.initial).2.store).1 = .ok info ∧
      (uploads.interp order (.getInfo id) (uploads.backend.serve handler patch
        (uploads.backend.serve handler post uploads.backend.initial).2).2.store).1 = .ok info' ∧
      (info.offset, info.size) = (0, none) ∧ (info'.offset, info'.size) = (1, some 2) ∧
      info.Persists info' := by
  obtain ⟨hid, hbefore, hafter⟩ := evaluated
  obtain ⟨info, hinfo, hfields⟩ := Option.map_eq_some_iff.mp hbefore
  obtain ⟨info', hinfo', hfields'⟩ := Option.map_eq_some_iff.mp hafter
  have htracks := (tracks_initial.step post (h := handler)).2
  rw [slots] at hinfo hinfo'
  rw [← htracks.getInfo hid order] at hinfo
  rw [← (htracks.step patch).2.getInfo hid order] at hinfo'
  exact ⟨info, info', hinfo, hinfo', hfields, hfields',
    record_persists (.step post fresh_post .refl) (fresh_patch _) hid hinfo hinfo'⟩

end FileStore

end Fileloft
