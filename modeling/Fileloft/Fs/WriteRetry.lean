import Fileloft.Fs.Chunks

/-!
# Chunks written in spite of failures

A chunk is two writes, the part and then the record. When the second one
does not happen the client retries at the old offset, and the part of the
first attempt stays.
-/

namespace Fileloft.FileStore

variable {s : FileStore} {d d' : Disk} {t : Slots} {id : UploadId}

/-- One attempt to write a chunk: what the client sends, the fates of the
file operations, the error of those that are refused, and the order of the
directory listing. The operations are, in turn, the read of the record, the
existence check and listing of the directory, its creation, the write of the
part and the write of the record. -/
structure Attempt where
  offset : ℕ
  reader : Reader
  fates : ℕ → Fate
  error : IoError
  order : Listing

namespace Attempt

variable (a : Attempt)

/-- The bytes the client sends. -/
def bytes : Bytes := (readToEnd a.reader).toOption.getD []

/-- Every operation up to the write of the part is performed. -/
def reachesPart : Bool := (List.range 5).all fun n => a.fates n = .perform

/-- The write of the record is performed. -/
def reachesRecord : Bool := a.fates 5 = .perform

end Attempt

variable (s id) in
/-- `write_chunk` under the fates of the attempt. -/
def attempt (a : Attempt) (d : Disk) : Option (Except TusError ℕ) × Disk :=
  (s.writeChunk id a.offset a.reader).runFated (Disk.interp a.order)
    (fun _ => .error a.error) a.fates d

variable (s id) in
/-- The attempt returns `Ok`. -/
def acknowledged (a : Attempt) (d : Disk) : Bool :=
  match (s.attempt id a d).1 with
  | some (.ok _) => true
  | _ => false

variable (s id) in
/-- The attempt passes the checks of `write_chunk` on the stored record. -/
def accepted (a : Attempt) (d : Disk) : Bool :=
  match (s.interp a.order (.getInfo id) d).1 with
  | .ok info => (acceptChunk info a.offset a.reader).isOk
  | .error _ => false

variable (s id) in
/-- The disk after a list of attempts. -/
def attempts (as : List Attempt) (d : Disk) : Disk := as.foldl (fun d a => (s.attempt id a d).2) d

variable (s id) in
/-- The chunks sent by those attempts that satisfy `p` where they start. -/
def chunksWhere (p : Attempt → Disk → Bool) : List Attempt → Disk → List Bytes
  | [], _ => []
  | a :: as, d =>
    (if p a d then [a.bytes] else []) ++ chunksWhere p as (s.attempt id a d).2

/-! ## One attempt -/

/-- What an attempt answered, and the slot it left. -/
structure Attempted (s : FileStore) (t : Slots) (id : UploadId)
    (r : Option (Except TusError ℕ) × Disk) (ok : Bool) (slot : Slot) : Prop where
  answer : (match r.1 with
    | some (.ok _) => true
    | _ => false) = ok
  keeps : s.Keeps r.2 (Function.update t id slot)

theorem Keeps.attempted_none (hd : s.Keeps d t) {r : Option (Except TusError ℕ)}
    (hr : ∀ n, r ≠ some (.ok n)) : s.Attempted t id (r, d) false (t id) where
  answer := by
    rcases r with _ | _ | n
    · rfl
    · rfl
    · exact absurd rfl (hr n)
  keeps := by rwa [Function.update_eq_self]

/-- An operation that would succeed is either performed or ends the attempt
where it stands. -/
theorem Attempted.io_bind {o : FsOp} {v : o.Val} {f : o.Val → FsProg ℕ} {fates : ℕ → Fate}
    {e : IoError} {order : Listing} {ok : Bool} {slot : Slot}
    (hop : Disk.interp order o d = (.ok v, d'))
    (hstop : fates 0 ≠ .perform → ∀ r : Option (Except TusError ℕ), (∀ n, r ≠ some (.ok n)) →
      s.Attempted t id (r, d) ok slot)
    (hgo : fates 0 = .perform → s.Attempted t id ((f v).runFated (Disk.interp order)
      (fun _ => .error e) (fun n => fates (n + 1)) d') ok slot) :
    s.Attempted t id
      (((FsProg.io o).bind f).runFated (Disk.interp order) (fun _ => .error e) fates d)
      ok slot := by
  rw [fated_io_bind]
  cases hfate : fates 0 with
  | perform =>
      simp only [hop]
      exact hgo hfate
  | refuse => exact hstop (by simp [hfate]) _ (by simp)
  | stop => exact hstop (by simp [hfate]) _ (by simp)

theorem reachesPart_iff {a : Attempt} : a.reachesPart = true ↔ a.fates 0 = .perform ∧
    a.fates 1 = .perform ∧ a.fates 2 = .perform ∧ a.fates 3 = .perform ∧ a.fates 4 = .perform := by
  simp [Attempt.reachesPart, List.range, List.range.loop]

theorem Keeps.interp_createDirAll (hd : s.Keeps d t) (hid : id.Valid) (order : Listing) :
    ∃ d', Disk.interp order (.createDirAll s.dir) d = (.ok (), d') ∧ s.Keeps d' t ∧
      s.dir ∈ d'.dirs := by
  obtain ⟨d', hcreate, hd', hmade, hfiles⟩ := hd.laid.interp_createDirAll hid order
  exact ⟨d', hcreate, hd.of_files hd' hfiles, hmade⟩

/-- The two writes of an accepted chunk. -/
theorem Keeps.attempted_storeChunk (hd : s.Keeps d t) (hid : id.Valid) {info : UploadInfo}
    (hinfo : (t id).info = some info) (buf : Bytes) (endOffset : ℕ) (a : Attempt)
    (hread : a.fates 0 = .perform) :
    s.Attempted t id ((s.storeChunk id info buf endOffset).runFated (Disk.interp a.order)
        (fun _ => .error a.error) (fun n => a.fates (n + 1)) d)
      (a.reachesPart && a.reachesRecord)
      (if a.reachesPart then
        if a.reachesRecord then (t id).storeChunk info buf endOffset
        else { t id with parts := Slot.addPart (t id).parts buf }
      else t id) := by
  have hmade := hd.dir_mem_of_record hid hinfo
  have hstop {n : ℕ} (hn : n < 5) (hfate : a.fates n ≠ .perform) : a.reachesPart = false := by
    rw [← Bool.not_eq_true, reachesPart_iff]
    rintro ⟨h0, h1, h2, h3, h4⟩
    interval_cases n <;> exact absurd ‹_› hfate
  -- before the part is written the slot is as it was
  have hnone {d : Disk} (hd : s.Keeps d t) {n : ℕ} (hn : n < 5) (hfate : a.fates n ≠ .perform)
      (r : Option (Except TusError ℕ)) (hr : ∀ n, r ≠ some (.ok n)) :
      s.Attempted t id (r, d) (a.reachesPart && a.reachesRecord)
        (if a.reachesPart then
          if a.reachesRecord then (t id).storeChunk info buf endOffset
          else { t id with parts := Slot.addPart (t id).parts buf }
        else t id) := by
    simp only [hstop hn hfate, Bool.false_and, Bool.false_eq_true, if_false]
    exact hd.attempted_none hr
  obtain ⟨d₁, hcreate, hd₁, hmade₁⟩ := hd.interp_createDirAll hid a.order
  have hd₂ := hd₁.putPart hid buf hmade₁
  have hexists : Disk.interp a.order (.tryExists s.dir) d = (.ok true, d) := by
    simp [Disk.interp, hmade]
  have hlist : Disk.interp a.order (.readDir s.dir) d = (.ok (a.order.1 (d.names s.dir)), d) := by
    simp only [Disk.interp, hmade, if_true]
  have hwrite : Disk.interp a.order
      (.write (s.path id (.part ((t id).parts.length % U32_BOUND))) buf) d₁ =
        (.ok (), d₁.put (s.partPath id ((t id).parts.length % U32_BOUND)) buf) :=
    hd₁.laid.write_eq hid _ buf hmade₁
  have hrecordWrite :=
    hd₂.laid.write_eq hid .info (s.codec.encode { info with offset := endOffset }) hmade₁
  simp only [storeChunk, listPartPathsSorted, infoPath, s.parent_path hid, Prog.bind_eq,
    Prog.bind_assoc]
  refine Attempted.io_bind hexists (hnone hd (n := 1) (by omega)) fun h1 => ?_
  simp only [if_true, Prog.bind_assoc]
  refine Attempted.io_bind hlist (hnone hd (n := 2) (by omega)) fun h2 => ?_
  simp only [Prog.pure_eq, Prog.ret_bind, hd.laid.sortedParts_eq hid (hd.numbers hid),
    List.length_map, List.length_range, createParent, partPath, s.parent_path hid]
  refine Attempted.io_bind hcreate (hnone hd (n := 3) (by omega)) fun h3 => ?_
  refine Attempted.io_bind hwrite (hnone hd₁ (n := 4) (by omega)) fun h4 => ?_
  have hpart : a.reachesPart = true := reachesPart_iff.mpr ⟨hread, h1, h2, h3, h4⟩
  simp only [hpart, Bool.true_and, if_true, writeInfo, run_toVec, Prog.bind_eq, Prog.ret_bind]
  refine Attempted.io_bind hrecordWrite (fun hfate r hr => ?_) fun h5 => ?_
  · -- the part is there and the record is the old one
    have hrecord : a.reachesRecord = false := by simpa [Attempt.reachesRecord] using hfate
    simp only [hrecord, Bool.false_eq_true, if_false]
    refine ⟨?_, hd₂⟩
    rcases r with _ | _ | n
    · rfl
    · rfl
    · exact absurd rfl (hr n)
  · have hrecord : a.reachesRecord = true := by simpa [Attempt.reachesRecord] using h5
    have hd₃ := hd₂.putInfo hid { info with offset := endOffset } hmade₁
    simp only [hrecord, if_true]
    exact ⟨rfl, by simpa [Slot.storeChunk, infoPath] using hd₃⟩

/-- What an attempt does to a slot. -/
def Attempt.apply (a : Attempt) (slot : Slot) : Slot :=
  match slot.record with
  | .error _ => slot
  | .ok info =>
    match acceptChunk info a.offset a.reader with
    | .error _ => slot
    | .ok (buf, endOffset) =>
      if a.reachesPart then
        if a.reachesRecord then slot.storeChunk info buf endOffset
        else { slot with parts := Slot.addPart slot.parts buf }
      else slot

variable (s id) in
/-- The attempt leaves a part. -/
def stored (a : Attempt) (d : Disk) : Bool := s.accepted id a d && a.reachesPart

variable (s id) in
/-- The attempt leaves a part without its record. -/
def orphaned (a : Attempt) (d : Disk) : Bool := s.stored id a d && !a.reachesRecord

theorem Keeps.accepted_eq (hd : s.Keeps d t) (hid : id.Valid) (a : Attempt) :
    s.accepted id a d = match (t id).record with
      | .ok info => (acceptChunk info a.offset a.reader).isOk
      | .error _ => false := by
  rw [accepted, (hd.call (.getInfo id) (StoreOp.forall_handle hid) a.order).1]
  simp only [Slots.interp]
  cases (t id).record <;> rfl

theorem Keeps.attempted (hd : s.Keeps d t) (hid : id.Valid) (a : Attempt) :
    s.Attempted t id (s.attempt id a d) (s.stored id a d && a.reachesRecord) (a.apply (t id)) := by
  have hfalse {fates : ℕ → Fate} {e e' : IoError} :
      Disk.interp a.order (.read (s.infoPath id)) d = (.error e', d) →
        s.Attempted t id ((s.writeChunk id a.offset a.reader).runFated (Disk.interp a.order)
          (fun _ => .error e) fates d) false (t id) := by
    intro hread
    rw [writeChunk, readInfo, Prog.bind_eq, Prog.bind_eq, Prog.bind_assoc, FsProg.read,
      fated_io_bind]
    cases fates 0 with
    | perform =>
        simp only [hread]
        exact hd.attempted_none (by simp)
    | refuse => exact hd.attempted_none (by simp)
    | stop => exact hd.attempted_none (by simp)
  have hfile := hd.file id hid .info
  rw [stored, hd.accepted_eq hid, Attempt.apply, Slot.record]
  cases hinfo : (t id).info with
  | none =>
      apply @hfalse _ _ .notFound
      rw [FileStore.file, hinfo, Option.map_none] at hfile
      have hdir := hd.laid.isDir_path hid .info
      simp [Disk.interp, Disk.read, infoPath, hfile, hdir]
  | some info =>
      rw [FileStore.file, hinfo, Option.map_some] at hfile
      have hread : Disk.interp a.order (.read (s.infoPath id)) d =
          (.ok (s.codec.encode info), d) := by
        simp [Disk.interp, Disk.read, infoPath, hfile]
      simp only [attempt, writeChunk, readInfo, Prog.bind_eq, Prog.bind_assoc, FsProg.read]
      have hstop (hfate : a.fates 0 ≠ .perform) : a.reachesPart = false := by
        rw [← Bool.not_eq_true, reachesPart_iff]
        exact fun hall => hfate hall.1
      refine Attempted.io_bind hread (fun hfate r hr => ?_) fun hfate => ?_
      · simp only [hstop hfate, Bool.and_false, Bool.false_and, Bool.false_eq_true, if_false]
        cases acceptChunk info a.offset a.reader with
        | error e => exact hd.attempted_none hr
        | ok r => exact hd.attempted_none hr
      · simp only [s.codec.fromSlice_encode, Prog.pure_eq, Prog.ret_bind]
        cases acceptChunk info a.offset a.reader with
        | error e => exact hd.attempted_none (by simp)
        | ok r =>
            have hstore := hd.attempted_storeChunk hid hinfo r.1 r.2 a hfate
            simp only [hinfo] at hstore
            exact hstore

/-! ## All attempts -/

theorem acceptChunk_bytes {info : UploadInfo} {a : Attempt} {buf : Bytes} {endOffset : ℕ}
    (h : acceptChunk info a.offset a.reader = .ok (buf, endOffset)) : buf = a.bytes := by
  simp only [acceptChunk, bind_eq_ok, pure, Except.pure, Except.ok.injEq, Prod.mk.injEq] at h
  obtain ⟨_, -, buf', hread, _, -, rfl, -⟩ := h
  rw [Attempt.bytes, hread]
  rfl

theorem Keeps.apply_parts (hd : s.Keeps d t) (hid : id.Valid) (a : Attempt) :
    (a.apply (t id)).parts =
      (if s.stored id a d then [a.bytes] else []).foldl Slot.addPart (t id).parts := by
  rw [stored, hd.accepted_eq hid, Attempt.apply]
  cases (t id).record with
  | error e => rfl
  | ok info =>
      obtain ⟨r, haccept⟩ : ∃ r, acceptChunk info a.offset a.reader = r := ⟨_, rfl⟩
      simp only [haccept]
      cases r with
      | error e => rfl
      | ok r =>
          obtain ⟨buf, endOffset⟩ := r
          obtain rfl := acceptChunk_bytes haccept
          by_cases hpart : a.reachesPart = true <;> by_cases hrecord : a.reachesRecord = true <;>
            simp [hpart, hrecord, Slot.storeChunk, Except.isOk, Except.toBool]

/-- The parts after all attempts are the chunks that were stored. -/
theorem Keeps.attempts (hd : s.Keeps d t) (hid : id.Valid) (as : List Attempt) :
    ∃ t', s.Keeps (s.attempts id as d) t' ∧
      (t' id).parts = (s.chunksWhere id (s.stored id) as d).foldl Slot.addPart (t id).parts := by
  induction as generalizing d t with
  | nil => exact ⟨t, hd, rfl⟩
  | cons a as ih =>
      obtain ⟨t', hd', hparts⟩ := ih (hd.attempted hid a).keeps
      refine ⟨t', hd', ?_⟩
      rw [hparts, chunksWhere, List.foldl_append, Function.update_self, hd.apply_parts hid]

/-- Chunks that were stored are acknowledged or orphaned. -/
theorem Keeps.chunks_split (hd : s.Keeps d t) (hid : id.Valid) (as : List Attempt) :
    ((s.chunksWhere id (s.stored id) as d).flatten).length =
        ((s.chunksWhere id (s.acknowledged id) as d).flatten).length +
          ((s.chunksWhere id (s.orphaned id) as d).flatten).length ∧
      ((s.chunksWhere id (s.orphaned id) as d).flatten = [] →
        (s.chunksWhere id (s.stored id) as d).flatten =
          (s.chunksWhere id (s.acknowledged id) as d).flatten) := by
  induction as generalizing d t with
  | nil => exact ⟨rfl, fun _ => rfl⟩
  | cons a as ih =>
      obtain ⟨hlength, hflatten⟩ := ih (hd.attempted hid a).keeps
      have hacked : s.acknowledged id a d = (s.stored id a d && a.reachesRecord) :=
        (hd.attempted hid a).answer
      simp only [chunksWhere, hacked, orphaned, List.flatten_append, List.length_append, hlength]
      by_cases hstored : s.stored id a d = true
      · by_cases hrecord : a.reachesRecord = true
        · refine ⟨by simp [hstored, hrecord]; omega, fun hnil => ?_⟩
          simp only [hstored, hrecord, Bool.not_true, Bool.and_false, Bool.false_eq_true, if_false,
            List.flatten_nil, List.nil_append] at hnil
          simp [hstored, hrecord, hflatten hnil]
        · refine ⟨by simp [hstored, hrecord]; omega, fun hnil => ?_⟩
          simp only [hstored, hrecord, Bool.not_false, Bool.and_true, if_true,
            List.append_eq_nil_iff] at hnil
          simp [hstored, hrecord, hnil.1, hflatten hnil.2]
      · exact ⟨by simp [hstored], by simpa [hstored] using hflatten⟩

theorem Keeps.stored_eq_acknowledged_iff (hd : s.Keeps d t) (hid : id.Valid) (as : List Attempt) :
    (s.chunksWhere id (s.stored id) as d).flatten =
        (s.chunksWhere id (s.acknowledged id) as d).flatten ↔
      ∀ chunk ∈ s.chunksWhere id (s.orphaned id) as d, chunk = [] := by
  obtain ⟨hlength, hflatten⟩ := hd.chunks_split hid as
  rw [← List.flatten_eq_nil_iff]
  refine ⟨fun heq => ?_, hflatten⟩
  rw [heq] at hlength
  exact List.length_eq_zero_iff.mp (by omega)

/-- When the attempts leave an upload complete, finalizing makes it the
acknowledged chunks exactly when every orphaned one is empty. Beyond the last
part number the first part is overwritten, and it is what is left that has to
be the acknowledged chunks. -/
theorem retries_assemble_iff {info info' : UploadInfo} {d₀ d₁ d₂ d₃ : Disk} {order order' : Listing}
    {as : List Attempt} (hd : s.Reachable d₀) (hid : info.id.Valid)
    (hfresh : ∀ kind, d₀.content (s.path info.id kind) = none)
    (hd₁ : d₁ = (s.interp order (.createUpload info) d₀).2) (hd₂ : d₂ = s.attempts info.id as d₁)
    (hrecord : (s.interp order (.getInfo info.id) d₂).1 = .ok info')
    (hcomplete : info'.isComplete = true)
    (hd₃ : d₃ = (s.interp order' (.finalize info.id) d₂).2) :
    (∀ order, (s.interp order (.readContent info.id) d₃).1 =
        .ok (s.chunksWhere info.id (s.acknowledged info.id) as d₁).flatten) ↔
      let chunks := s.chunksWhere info.id (s.stored info.id) as d₁
      if chunks.length ≤ U32_BOUND then
        ∀ chunk ∈ s.chunksWhere info.id (s.orphaned info.id) as d₁, chunk = []
      else
        ((chunks.take U32_BOUND).set 0 (chunks.getLastD [])).flatten =
          (s.chunksWhere info.id (s.acknowledged info.id) as d₁).flatten := by
  obtain ⟨t₀, ht₀⟩ := hd.keeps
  have ht₁ := (ht₀.call (.createUpload info) (by simp [StoreOp.handle]) order).2
  have hvalid : info.id.validate = .ok () := hid
  simp only [Slots.interp, Slots.createUpload, hvalid, ht₀.slot_empty hid hfresh] at ht₁
  rw [← hd₁] at ht₁
  obtain ⟨t₂, ht₂, hparts⟩ := ht₁.attempts hid as
  rw [← hd₂] at ht₂
  have hslot : (t₂ info.id).info = some info' := by
    rw [(ht₂.call (.getInfo info.id) (StoreOp.forall_handle hid) order).1] at hrecord
    simp only [Slots.interp, Slot.record] at hrecord
    cases hinfo : (t₂ info.id).info with
    | none => simp [hinfo] at hrecord
    | some info'' => simpa [hinfo] using hrecord
  have ht₃ := (ht₂.call (.finalize info.id) (StoreOp.forall_handle hid) order').2
  rw [← hd₃] at ht₃
  have hread (order : Listing) : (s.interp order (.readContent info.id) d₃).1 =
      .ok (t₂ info.id).parts.flatten := by
    rw [(ht₃.call (.readContent info.id) (StoreOp.forall_handle hid) order).1]
    simp [Slots.interp, Slot.readContent, Slot.record, Slot.finalize, hslot, hcomplete]
  simp only [Function.update_self, Slot.empty, Slot.foldl_addPart] at hparts
  simp only [hread, Except.ok.injEq, forall_const, hparts]
  split
  · exact ht₁.stored_eq_acknowledged_iff hid as
  · rfl

namespace LostRecord

def order : Listing := ⟨List.reverse, List.reverse_perm⟩

def info : UploadInfo := .new ⟨"a".toList⟩ (some 1)

/-- The write of the record fails. -/
def failed : Attempt :=
  ⟨0, .ok [1], fun n => if n = 5 then .refuse else .perform, .other, order⟩

def retried : Attempt := ⟨0, .ok [1], fun _ => .perform, .other, order⟩

def created : Disk := (uploads.interp order (.createUpload info) Disk.empty).2

def written : Disk := uploads.attempts info.id [failed, retried] created

def finalized : Disk := (uploads.interp order (.finalize info.id) written).2

theorem valid : info.id.Valid := by decide +kernel

def slots : Slots := (Slots.interp (.createUpload info) Slots.empty).2

def slotsFailed : Slots := Function.update slots info.id (failed.apply (slots info.id))

def slotsRetried : Slots :=
  Function.update slotsFailed info.id (retried.apply (slotsFailed info.id))

theorem keeps_created : uploads.Keeps created slots := by
  rw [created, slots]
  exact (keeps_empty.call _ (by simp [StoreOp.handle]) order).2

theorem keeps_failed : uploads.Keeps (uploads.attempt info.id failed created).2 slotsFailed := by
  rw [slotsFailed]
  exact (keeps_created.attempted valid failed).keeps

theorem keeps_written : uploads.Keeps written slotsRetried := by
  rw [written, slotsRetried, FileStore.attempts, List.foldl_cons, List.foldl_cons, List.foldl_nil]
  exact (keeps_failed.attempted valid retried).keeps

theorem record_written :
    (uploads.interp order (.getInfo info.id) written).1 = .ok { info with offset := 1 } := by
  rw [(keeps_written.call (.getInfo info.id) (StoreOp.forall_handle valid) order).1]
  rfl

theorem finalize_written : (uploads.interp order (.finalize info.id) written).1 = .ok () :=
  (keeps_written.call (.finalize info.id) (StoreOp.forall_handle valid) order).1

theorem keeps_finalized :
    uploads.Keeps finalized (Slots.interp (.finalize info.id) slotsRetried).2 := by
  rw [finalized]
  exact (keeps_written.call (.finalize info.id) (StoreOp.forall_handle valid) order).2

theorem content_finalized : (uploads.interp order (.readContent info.id) finalized).1 =
    .ok [1, 1] := by
  rw [(keeps_finalized.call (.readContent info.id) (StoreOp.forall_handle valid) order).1]
  rfl

/-- The first attempt stops at the write of its record. -/
theorem attempt_fails :
    (uploads.attempt info.id failed created).1 = some (.error (.io .other)) := by
  decide +kernel

theorem acknowledged_written :
    uploads.chunksWhere info.id (uploads.acknowledged info.id)
      [failed, retried] created = [[1]] := by
  have hfailed : uploads.acknowledged info.id failed created = false := by
    rw [FileStore.acknowledged, attempt_fails]
  have hretried :
      uploads.acknowledged info.id retried (uploads.attempt info.id failed created).2 = true := by
    have hanswer := (keeps_failed.attempted valid retried).answer
    have hstored : uploads.accepted info.id retried (uploads.attempt info.id failed created).2 =
        true := by
      rw [keeps_failed.accepted_eq valid]
      rfl
    rw [FileStore.stored, hstored] at hanswer
    rw [FileStore.acknowledged]
    exact hanswer.trans rfl
  simp only [FileStore.chunksWhere, hfailed, hretried, if_true, Bool.false_eq_true, if_false]
  rfl

end LostRecord

open LostRecord in
theorem retries_assemble_iff_twice :
    (∀ order, (uploads.interp order (.readContent info.id) finalized).1 =
        .ok (uploads.chunksWhere info.id (uploads.acknowledged info.id) [failed, retried]
          created).flatten) ↔
      let chunks := uploads.chunksWhere info.id (uploads.stored info.id) [failed, retried] created
      if chunks.length ≤ U32_BOUND then
        ∀ chunk ∈ uploads.chunksWhere info.id (uploads.orphaned info.id) [failed, retried] created,
          chunk = []
      else
        ((chunks.take U32_BOUND).set 0 (chunks.getLastD [])).flatten =
          (uploads.chunksWhere info.id (uploads.acknowledged info.id) [failed, retried]
            created).flatten :=
  retries_assemble_iff .empty valid (fun _ => rfl) (by rw [created]) (by rw [written])
    record_written rfl (by rw [finalized])

open LostRecord in
/-- The write of a record fails once, the client retries, and the byte is
there twice. -/
theorem retry_duplicates_chunk :
    (uploads.attempt info.id failed created).1 = some (.error (.io .other)) ∧
      (uploads.interp order (.getInfo info.id) written).1 = .ok { info with offset := 1 } ∧
      UploadInfo.isComplete { info with offset := 1 } = true ∧
      (uploads.interp order (.finalize info.id) written).1 = .ok () ∧
      uploads.chunksWhere info.id (uploads.acknowledged info.id) [failed, retried] created = [[1]] ∧
      (uploads.interp order (.readContent info.id) finalized).1 = .ok [1, 1] :=
  ⟨attempt_fails, record_written, rfl, finalize_written, acknowledged_written, content_finalized⟩

end Fileloft.FileStore
