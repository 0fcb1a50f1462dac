import Fileloft.Fs.Calls
import Fileloft.Fs.Fixture

/-!
# Chunks and their assembly

Successive chunks of a new upload become its parts, numbered from zero, and
the first finalize joins them in that order.
-/

namespace Fileloft.FileStore

variable {s : FileStore} {d d' : Disk} {t : Slots} {id a : UploadId}

/-- The disks that calls on accepted ids reach from the empty one, each
call with its own order of listing. -/
inductive Reachable (s : FileStore) : Disk → Prop where
  | empty : Reachable s Disk.empty
  | call {d : Disk} (o : StoreOp) (order : Listing) (ho : ∀ id ∈ o.handle, id.Valid) :
      Reachable s d → Reachable s (s.interp order o d).2

theorem Reachable.keeps (hd : s.Reachable d) : ∃ t, s.Keeps d t := by
  induction hd with
  | empty => exact ⟨_, keeps_empty⟩
  | call o order ho _ ih =>
      obtain ⟨t, ht⟩ := ih
      exact ⟨_, (ht.call o ho order).2⟩

/-- Between two states of one store, a file that both slots agree on has not
changed. -/
theorem Keeps.content_eq (hd : s.Keeps d t) {slot : Slot}
    (hd' : s.Keeps d' (Function.update t a slot)) {p : Path}
    (hp : ∀ kind, p = s.path a kind → s.file slot kind = s.file (t a) kind) :
    d'.content p = d.content p := by
  have hkey (id : UploadId) (kind : KeyKind) (hid : id.Valid) (hpath : p = s.path id kind) :
      d'.content p = d.content p := by
    rw [hpath, hd.file id hid, hd'.file id hid]
    by_cases heq : id = a
    · subst heq
      rw [Function.update_self, hp kind hpath]
    · rw [Function.update_of_ne heq]
  by_cases hnone : d.content p = none
  · by_cases hnone' : d'.content p = none
    · rw [hnone, hnone']
    · obtain ⟨id, kind, hid, hpath⟩ := hd'.known p hnone'
      exact hkey id kind hid hpath
  · obtain ⟨id, kind, hid, hpath⟩ := hd.known p hnone
    exact hkey id kind hid hpath

/-- `chunks` were written to `id` one after the other, each successfully. -/
inductive Writes (s : FileStore) (id : UploadId) : Disk → List Bytes → Disk → Prop where
  | nil (d : Disk) : Writes s id d [] d
  | snoc {d d' : Disk} {chunks : List Bytes} (order : Listing) (offset : ℕ) (buf : Bytes) (n : ℕ)
      (hprev : Writes s id d chunks d')
      (hanswer : (s.interp order (.writeChunk id offset (.ok buf)) d').1 = .ok n) :
      Writes s id d (chunks ++ [buf]) (s.interp order (.writeChunk id offset (.ok buf)) d').2

/-- What the slots hold after the writes of one upload. -/
structure Filled (t : Slots) (id : UploadId) (chunks : List Bytes) : Prop where
  parts : (t id).parts = chunks
  info : ∃ info, (t id).info = some info ∧ info.offset = (chunks.map List.length).sum

theorem Writes.filled {chunks : List Bytes} (hw : s.Writes id d chunks d') (hid : id.Valid)
    (hcount : chunks.length < U32_BOUND) (hd : s.Keeps d t) (ht : Filled t id []) :
    ∃ t', s.Keeps d' t' ∧ Filled t' id chunks := by
  induction hw with
  | nil => exact ⟨t, hd, ht⟩
  | @snoc d' chunks order offset buf n hprev hok ih =>
      have hlt : chunks.length < U32_BOUND := by
        simp only [List.length_append, List.length_singleton] at hcount
        omega
      obtain ⟨t', hd', hparts, info, hinfo, hoffset⟩ := ih hlt
      obtain ⟨hanswer, hd''⟩ := hd'.call (.writeChunk id offset (.ok buf))
        (StoreOp.forall_handle hid) order
      rw [hok] at hanswer
      obtain ⟨info', hinfo', rfl, -, hslot⟩ := Slot.writeChunk_ok hanswer.symm
      obtain rfl : info = info' := by simpa [hinfo] using hinfo'
      simp only [Slots.interp, hslot] at hd''
      refine ⟨_, hd'', ?_, { info with offset := info.offset + buf.length }, ?_, ?_⟩
      · simp [Slot.storeChunk, Slot.addPart, hparts, hlt]
      · simp [Slot.storeChunk]
      · simp [hoffset]

/-- The disk holds exactly these chunks as the parts of `id`, and nothing
else that would be listed as one. -/
structure HasParts (s : FileStore) (d : Disk) (id : UploadId) (chunks : List Bytes) : Prop where
  part : ∀ n, d.content (s.partPath id n) = chunks[n]?
  listed : ∀ name n, d.content (s.dir ++ [name]) ≠ none → partIndex id name = some n →
    n < chunks.length ∧ s.dir ++ [name] = s.partPath id n

theorem Keeps.hasParts (hd : s.Keeps d t) (hid : id.Valid) :
    s.HasParts d id (t id).parts where
  part n := by rw [partPath, hd.file id hid, FileStore.file]
  listed name n hcontent hindex := by
    have hname := hd.laid.mem_names.mpr hcontent
    obtain ⟨hn, rfl⟩ := (hd.laid.mem_listed hid (hd.numbers hid)).mp ⟨hname, hindex⟩
    exact ⟨List.mem_range.mp hn, (s.path_eq hid _).symm⟩

/-- An upload none of whose files exist has an empty slot. -/
theorem Keeps.slot_empty (hd : s.Keeps d t) (hid : id.Valid)
    (hfresh : ∀ kind, d.content (s.path id kind) = none) : t id = .empty := by
  have hfile (kind : KeyKind) : s.file (t id) kind = none := by rw [← hd.file id hid, hfresh]
  have hinfo : (t id).info = none := by simpa [FileStore.file] using hfile .info
  have hparts : (t id).parts = [] := by simpa [FileStore.file] using hfile (.part 0)
  have hdata : (t id).data = none := hfile .data
  rcases h : t id with ⟨info, parts, data⟩
  simp_all [Slot.empty]

/-- A new upload whose chunks are written one after the other has them as
its numbered parts, and the first finalize joins them in that order, removes
the parts and leaves every other file alone. -/
theorem chunks_assemble {info : UploadInfo} {d₀ d₂ : Disk} {chunks : List Bytes}
    {order : Listing} (hd : s.Reachable d₀) (hid : info.id.Valid)
    (hfresh : ∀ kind, d₀.content (s.path info.id kind) = none) (hoffset : info.offset = 0)
    (hwrites : s.Writes info.id (s.interp order (.createUpload info) d₀).2 chunks d₂)
    (hcount : chunks.length < U32_BOUND) :
    s.HasParts d₂ info.id chunks ∧
      (∀ order, ∃ info', (s.interp order (.getInfo info.id) d₂).1 = .ok info' ∧
        info'.offset = (chunks.map List.length).sum) ∧
      ∀ order, (s.interp order (.finalize info.id) d₂).1 = .ok () ∧
        (s.interp order (.finalize info.id) d₂).2.content (s.dataPath info.id) =
          some chunks.flatten ∧
        s.HasParts (s.interp order (.finalize info.id) d₂).2 info.id [] ∧
        ∀ p, p ≠ s.dataPath info.id → (∀ n, p ≠ s.partPath info.id n) →
          (s.interp order (.finalize info.id) d₂).2.content p = d₂.content p := by
  obtain ⟨t, ht⟩ := hd.keeps
  have hslot := ht.slot_empty hid hfresh
  have ht₁ := (ht.call (.createUpload info) (by simp [StoreOp.handle]) order).2
  have hvalid : info.id.validate = .ok () := hid
  simp only [Slots.interp, Slots.createUpload, hvalid, hslot] at ht₁
  obtain ⟨t₂, ht₂, hparts, info₂, hinfo₂, hsum⟩ := hwrites.filled hid hcount ht₁
    ⟨by simp [Slot.empty], info, by simp, by simpa using hoffset⟩
  refine ⟨hparts ▸ ht₂.hasParts hid, fun order => ⟨info₂, ?_, hsum⟩, fun order => ?_⟩
  · rw [(ht₂.call (.getInfo info.id) (StoreOp.forall_handle hid) order).1]
    simp [Slots.interp, Slot.record, hinfo₂]
  · obtain ⟨hanswer, ht₃⟩ := ht₂.call (.finalize info.id) (StoreOp.forall_handle hid) order
    have hparts₃ := ht₃.hasParts hid
    have hdata := ht₃.file info.id hid .data
    simp only [Slots.interp, Function.update_self, Slot.finalize, FileStore.file,
      hparts] at hparts₃ hdata
    refine ⟨hanswer, hdata, hparts₃, fun p hdata hpart => ht₂.content_eq ht₃ fun kind hkind => ?_⟩
    cases kind with
    | data => exact absurd hkind hdata
    | part n => exact absurd hkind (hpart n)
    | info | tmp n => rfl

namespace TwoChunks

def order : Listing := ⟨List.reverse, List.reverse_perm⟩

def info : UploadInfo := .new ⟨"a_part".toList⟩ (some 3)

def created : Disk := (uploads.interp order (.createUpload info) Disk.empty).2

def first : Disk := (uploads.interp order (.writeChunk info.id 0 (.ok [1, 2])) created).2

def second : Disk := (uploads.interp order (.writeChunk info.id 2 (.ok [3])) first).2

theorem valid : info.id.Valid := by decide +kernel

/-- A call on the upload answers as on the slots, and keeps them. -/
theorem keeps_call {d : Disk} {t : Slots} (hd : uploads.Keeps d t) (o : StoreOp)
    (ho : o.target = info.id) :
    (uploads.interp order o d).1 = (Slots.interp o t).1 ∧
      uploads.Keeps (uploads.interp order o d).2 (Slots.interp o t).2 :=
  hd.call o (StoreOp.forall_handle (ho ▸ valid)) order

def slots : Slots := (Slots.interp (.createUpload info) Slots.empty).2

def slotsFirst : Slots := (Slots.interp (.writeChunk info.id 0 (.ok [1, 2])) slots).2

def slotsSecond : Slots := (Slots.interp (.writeChunk info.id 2 (.ok [3])) slotsFirst).2

theorem answers : (Slots.interp (.writeChunk info.id 0 (.ok [1, 2])) slots).1 = .ok 2 ∧
    (Slots.interp (.writeChunk info.id 2 (.ok [3])) slotsFirst).1 = .ok 1 := ⟨rfl, rfl⟩

theorem keeps_created : uploads.Keeps created slots := by
  rw [created, slots]
  exact (keeps_call keeps_empty (.createUpload info) rfl).2

theorem keeps_first : uploads.Keeps first slotsFirst := by
  rw [first, slotsFirst]
  exact (keeps_call keeps_created (.writeChunk info.id 0 (.ok [1, 2])) rfl).2

theorem keeps_second : uploads.Keeps second slotsSecond := by
  rw [second, slotsSecond]
  exact (keeps_call keeps_first (.writeChunk info.id 2 (.ok [3])) rfl).2

theorem writes : uploads.Writes info.id created [[1, 2], [3]] second := by
  have hfirst := (keeps_call keeps_created (.writeChunk info.id 0 (.ok [1, 2])) rfl).1
  have hsecond := (keeps_call keeps_first (.writeChunk info.id 2 (.ok [3])) rfl).1
  have hone : uploads.Writes info.id created ([] ++ [[1, 2]]) first := by
    rw [first]
    exact .snoc order 0 [1, 2] 2 (.nil _) (hfirst.trans answers.1)
  have htwo : uploads.Writes info.id created ([[1, 2]] ++ [[3]]) second := by
    rw [second]
    exact .snoc order 2 [3] 1 hone (hsecond.trans answers.2)
  exact htwo

end TwoChunks

open TwoChunks in
theorem chunks_assemble_two :
    uploads.HasParts second info.id [[1, 2], [3]] ∧
      (uploads.interp order (.finalize info.id) second).2.content (uploads.dataPath info.id) =
        some [1, 2, 3] := by
  obtain ⟨hparts, -, hfinalize⟩ := chunks_assemble .empty valid (fun _ => rfl) rfl writes
    (by decide)
  exact ⟨hparts, (hfinalize order).2.1⟩

end Fileloft.FileStore
