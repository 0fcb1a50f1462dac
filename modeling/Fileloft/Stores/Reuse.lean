import Fileloft.Fs.Creation
import Fileloft.Fs.Fixture
import Fileloft.Memory.Creation

/-!
# Creating an upload over an existing one

The callback may settle on the id of an upload that exists. The creation then
overwrites it, in memory and on disk, and no other upload is touched.
-/

namespace Fileloft

open Handler Post

variable {h : TusHandler}

namespace MemoryStore

/-- The uploads of a store are kept by a creation. -/
def KeepsUploads (st st' : MemoryStore) : Prop :=
  ∀ id entry, st id = some entry → st' id = some entry

theorem keepsUploads_iff {x : Exchange backend} {w : World MemoryStore}
    (hkeep : h.config.extensions.cleanupConcatPartials = false) (hw : backend.Reachable h w)
    (hmethod : x.req.method = .post) :
    KeepsUploads w.store (backend.serve h x w).2.store ↔
      ∀ p info, prepare h x.env x.req = .ok (p, info) →
        w.store info.id = none ∨
          ∃ entry, w.store info.id = some entry ∧ Leaves h x.req w.store p info entry := by
  rcases hprepare : prepare h x.env x.req with e | ⟨p, info⟩
  · have hsame : (backend.serve h x w).2 = w := serve_unprepared hmethod hprepare
    rw [hsame]
    exact iff_of_true (fun _ _ hentry => hentry) fun p info hok => by cases hok
  obtain ⟨entry, deleted, hleaves, -, hdeleted, hstore⟩ :=
    serve_post (keyed_of_reachable hw) hmethod hprepare
  have hnone : deleted = [] := hdeleted (by simp [tidies, hkeep])
  rw [hstore, hnone, left_nil]
  constructor
  · rintro hkept p' info' ⟨⟩
    cases hold : w.store info.id with
    | none => exact .inl rfl
    | some old =>
        have heq := hkept _ _ hold
        rw [Function.update_self, Option.some.injEq] at heq
        exact .inr ⟨old, rfl, heq ▸ hleaves⟩
  · intro hfree id old hold
    by_cases heq : id = info.id
    · subst heq
      rcases hfree p info rfl with hnone | ⟨entry', hentry', hleaves'⟩
      · rw [hnone] at hold
        cases hold
      · rw [Function.update_self, hleaves.unique hleaves', ← hentry', hold]
    · rw [Function.update_of_ne heq, hold]

end MemoryStore

namespace FileStore

variable {s : FileStore}

/-- The uploads of a directory, each with all of its files, are kept. -/
def KeepsUploads (s : FileStore) (d d' : Disk) : Prop :=
  ∀ id : UploadId, id.Valid → d.content (s.infoPath id) ≠ none →
    ∀ kind, d'.content (s.path id kind) = d.content (s.path id kind)

theorem keepsUploads_slots {d d' : Disk} {t t' : Slots} (hd : s.Keeps d t) (hd' : s.Keeps d' t') :
    s.KeepsUploads d d' ↔ ∀ id : UploadId, id.Valid → (t id).info ≠ none → t' id = t id := by
  have hinfo (id : UploadId) (hid : id.Valid) :
      d.content (s.infoPath id) ≠ none ↔ (t id).info ≠ none := by
    rw [infoPath, hd.file id hid, file]
    simp
  constructor
  · intro hkept id hid hsome
    apply file_injective (s := s)
    funext kind
    rw [← hd.file id hid, ← hd'.file id hid]
    exact hkept id hid ((hinfo id hid).mpr hsome) kind
  · intro hkept id hid hsome kind
    rw [hd.file id hid, hd'.file id hid, hkept id hid ((hinfo id hid).mp hsome)]

theorem keepsUploads_iff {x : Exchange s.backend} {w : World Disk}
    (hkeep : h.config.extensions.cleanupConcatPartials = false) (hw : s.backend.Reachable h w)
    (hmethod : x.req.method = .post) :
    s.KeepsUploads w.store (s.backend.serve h x w).2.store ↔
      ∀ p info, prepare h x.env x.req = .ok (p, info) →
        w.store.content (s.infoPath info.id) = none ∨
          ∃ t, s.Keeps w.store t ∧ Slots.Keyed t ∧
            Slots.Leaves h x.env x.req p info t (t info.id) := by
  obtain ⟨v, hreach, hv⟩ := tracks_of_reachable hw
  have hkeyed : Slots.Keyed v.store := Slots.keyed_of_reachable hreach
  rcases hprepare : prepare h x.env x.req with e | ⟨p, info⟩
  · have hsame : (s.backend.serve h x w).2 = w := serve_unprepared hmethod hprepare
    rw [hsame]
    exact iff_of_true (fun _ _ _ _ => rfl) fun p info hok => by cases hok
  have hvalid : info.id.Valid := prepare_valid hprepare
  constructor
  · rintro hkept p' info' ⟨⟩
    obtain ⟨-, hleaves⟩ := Slots.serve_post (x := slotted x) hkeyed hkeep hmethod hprepare
    rw [keepsUploads_slots hv.store (hv.step x).2.store] at hkept
    cases hinfo : (v.store info.id).info with
    | none =>
        left
        rw [infoPath, hv.store.file info.id hvalid, file, hinfo, Option.map_none]
    | some old =>
        right
        refine ⟨v.store, hv.store, hkeyed, ?_⟩
        rwa [hkept info.id hvalid (by simp [hinfo])] at hleaves
  · intro hfree
    obtain hnone | ⟨t, ht, hkeyed', hleaves⟩ := hfree p info rfl
    · obtain ⟨hothers, -⟩ := Slots.serve_post (x := slotted x) hkeyed hkeep hmethod hprepare
      rw [keepsUploads_slots hv.store (hv.step x).2.store]
      intro id hid hsome
      apply hothers
      rintro rfl
      rw [infoPath, hv.store.file info.id hvalid, file] at hnone
      exact hsome (by simpa using hnone)
    · have ht' : s.Tracks w ⟨t, w.log⟩ := ⟨ht, rfl⟩
      obtain ⟨hothers, hleaves'⟩ :=
        Slots.serve_post (v := ⟨t, w.log⟩) (x := slotted x) hkeyed' hkeep hmethod hprepare
      rw [keepsUploads_slots ht (ht'.step x).2.store]
      intro id _ _
      by_cases heq : id = info.id
      · subst heq
        exact hleaves'.unique hleaves
      · exact hothers id heq

end FileStore

/-- A creation keeps every upload that exists, over either store, exactly
when the settled id is free or the creation leaves there what it found. -/
theorem post_keeps_uploads_iff (s : FileStore)
    (hkeep : h.config.extensions.cleanupConcatPartials = false) :
    (∀ (x : Exchange MemoryStore.backend) (w : World MemoryStore),
      MemoryStore.backend.Reachable h w → x.req.method = .post →
        (MemoryStore.KeepsUploads w.store (MemoryStore.backend.serve h x w).2.store ↔
          ∀ p info, prepare h x.env x.req = .ok (p, info) →
            w.store info.id = none ∨ ∃ entry, w.store info.id = some entry ∧
              MemoryStore.Leaves h x.req w.store p info entry)) ∧
    ∀ (x : Exchange s.backend) (w : World Disk),
      s.backend.Reachable h w → x.req.method = .post →
        (s.KeepsUploads w.store (s.backend.serve h x w).2.store ↔
          ∀ p info, prepare h x.env x.req = .ok (p, info) →
            w.store.content (s.infoPath info.id) = none ∨
              ∃ t, s.Keeps w.store t ∧ Slots.Keyed t ∧
                Slots.Leaves h x.env x.req p info t (t info.id)) :=
  ⟨fun _ _ hw hmethod => MemoryStore.keepsUploads_iff hkeep hw hmethod,
    fun _ _ hw hmethod => FileStore.keepsUploads_iff hkeep hw hmethod⟩

namespace SettledTwice

def handler : TusHandler := ⟨{ hooks := { preCreate := true } }, true, .fixed⟩

/-- Two bytes under an id of the handler. -/
def first : Exchange MemoryStore.backend where
  req := .ofTexts .post none [(.tusResumable, "1.0.0"), (.uploadLength, "2"),
    (.contentType, "application/offset+octet-stream")] (some [97, 98])
  env := .permissive .a
  choice := ()

/-- A callback that settles on the id of the first upload. -/
def second : Exchange MemoryStore.backend where
  req := .ofTexts .post none [(.tusResumable, "1.0.0"), (.uploadLength, "1")] none
  env := { Env.permissive .b with preCreate := fun _ => .ok ⟨some (.new .a), none, none⟩ }
  choice := ()

def before : World MemoryStore :=
  (MemoryStore.backend.serve handler first MemoryStore.backend.initial).2

/-- The same requests over a directory. -/
def firstOnDisk : Exchange FileStore.uploads.backend := ⟨first.req, first.env, default⟩

def secondOnDisk : Exchange FileStore.uploads.backend := ⟨second.req, second.env, default⟩

def beforeOnDisk : World Disk :=
  FileStore.uploads.backend.serveAll handler [firstOnDisk] FileStore.uploads.backend.initial

theorem stored_onDisk :
    beforeOnDisk.store.content (FileStore.uploads.infoPath (.new .a)) ≠ none := by
  have htracks := FileStore.tracks_initial.serveAll (h := handler) [firstOnDisk]
  have hslot : ((Slots.backend.serveAll handler [FileStore.slotted firstOnDisk]
      Slots.backend.initial).store (.new .a)).info.isSome = true := by
    decide +kernel
  rw [beforeOnDisk, FileStore.infoPath, htracks.store.file (.new .a) (by decide), FileStore.file]
  simpa [Option.isSome_iff_ne_none] using hslot

end SettledTwice

open SettledTwice in
theorem post_keeps_uploads_iff_second :
    (MemoryStore.KeepsUploads before.store
        (MemoryStore.backend.serve handler second before).2.store ↔
      ∀ p info, prepare handler second.env second.req = .ok (p, info) →
        before.store info.id = none ∨ ∃ entry, before.store info.id = some entry ∧
          MemoryStore.Leaves handler second.req before.store p info entry) ∧
    beforeOnDisk.store.content (FileStore.uploads.infoPath (.new .a)) ≠ none ∧
    (FileStore.uploads.KeepsUploads beforeOnDisk.store
        (FileStore.uploads.backend.serve handler secondOnDisk beforeOnDisk).2.store ↔
      ∀ p info, prepare handler second.env second.req = .ok (p, info) →
        beforeOnDisk.store.content (FileStore.uploads.infoPath info.id) = none ∨
          ∃ t, FileStore.uploads.Keeps beforeOnDisk.store t ∧ Slots.Keyed t ∧
            Slots.Leaves handler second.env second.req p info t (t info.id)) := by
  obtain ⟨hmemory, hdisk⟩ := post_keeps_uploads_iff FileStore.uploads (h := handler) rfl
  exact ⟨hmemory second before (.step first .initial) rfl, stored_onDisk,
    hdisk secondOnDisk beforeOnDisk (.serveAll .initial [firstOnDisk]) rfl⟩

open SettledTwice in
/-- A creation under the id of a complete upload empties it. -/
theorem post_overwrites_upload :
    MemoryStore.backend.Reachable handler before ∧ second.req.method = .post ∧
      handler.config.extensions.cleanupConcatPartials = false ∧
      (MemoryStore.backend.serve handler second before).1.map TusResponse.status = some 201 ∧
      MemoryStore.dataOf before.store (.new .a) = [97, 98] ∧
      MemoryStore.dataOf (MemoryStore.backend.serve handler second before).2.store (.new .a) = [] ∧
      ¬ MemoryStore.KeepsUploads before.store
        (MemoryStore.backend.serve handler second before).2.store := by
  have hruns : (MemoryStore.backend.serve handler second before).1.map
      TusResponse.status = some 201 ∧
      MemoryStore.dataOf before.store (.new .a) = [97, 98] ∧
      MemoryStore.dataOf (MemoryStore.backend.serve handler second before).2.store
        (.new .a) = [] := by
    decide +kernel
  obtain ⟨hstatus, hbefore, hafter⟩ := hruns
  refine ⟨.step first .initial, rfl, rfl, hstatus, hbefore, hafter, fun hkept => ?_⟩
  cases hentry : before.store (.new .a) with
  | none => simp [MemoryStore.dataOf, hentry] at hbefore
  | some entry =>
      simp only [MemoryStore.dataOf, hentry] at hbefore
      simp [MemoryStore.dataOf, hkept _ _ hentry, hbefore] at hafter

end Fileloft
