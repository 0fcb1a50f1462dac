import Fileloft.Object.Multipart
import Fileloft.Object.Slot

/-!
# Finishing an upload in S3

The chunks are joined through a multipart upload, whose parts all have the
least size. What a chunk may bring in is not bounded by what the parts hold.
-/

namespace Fileloft.S3Upload

open ObjectStore Prog

variable {s : ObjectStore} {svc : Service} {id : UploadId} {dest : Str} {slot : Slot}
  {kept : svc.State → Str → Str → Option (ℕ → Option (Str × Bytes))} {st st' : svc.State}
  {data : Bytes}

/-- The most that the parts of one assembly hold. -/
def capacity : ℕ := MAX_MULTIPART_PARTS * MIN_MULTIPART_PART

theorem flatten_blocksOf (data : Bytes) : (blocksOf data).flatten = data := by
  rw [blocksOf]
  split
  · next hdata => rw [hdata, List.flatten_singleton]
  · exact Text.flatten_chunks min_pos data

theorem blocksOf_ne_nil (data : Bytes) : blocksOf data ≠ [] := by
  rw [blocksOf]
  split
  · exact List.cons_ne_nil _ _
  · next hdata =>
      rw [Text.chunks_eq_cons min_pos hdata]
      exact List.cons_ne_nil _ _

/-- Only the last block may be short. -/
theorem length_of_mem_dropLast_blocksOf
    {block : Bytes} (hblock : block ∈ (blocksOf data).dropLast) :
    block.length = MIN_MULTIPART_PART := by
  rw [blocksOf] at hblock
  split at hblock
  · cases hblock
  · exact Text.length_of_mem_dropLast_chunks min_pos hblock

theorem length_blocksOf_le_iff :
    (blocksOf data).length ≤ MAX_MULTIPART_PARTS ↔ data.length ≤ capacity := by
  rw [blocksOf]
  split
  · next hdata =>
      rw [hdata]
      exact iff_of_true (by decide) (Nat.zero_le _)
  · rw [Text.length_chunks, capacity, MAX_MULTIPART_PARTS, MIN_MULTIPART_PART]
    omega

section Assemble

variable (hs : svc.Stores) (hm : svc.Multipart kept) {sources deleteAfterOk : List Str}
  {cs : List Bytes}

include hs hm

/-- With no failing call an assembly joins its sources when the parts can
hold them, and fails otherwise. -/
theorem after_assemble (hne : sources ≠ []) (hcs : svc.contents st sources = some cs) :
    After svc.impl (multipartAssembleFromSources s id dest sources deleteAfterOk) st
      fun r st' _ =>
        (cs.flatten.length ≤ capacity → r = .ok () ∧ svc.content st' = fun key =>
          if key ∈ deleteAfterOk then none
          else Function.update (svc.content st) dest (some cs.flatten) key) ∧
        (capacity < cs.flatten.length → ∃ e, r = .error e) := by
  rw [multipartAssembleFromSources, if_neg hne]
  obtain ⟨uploadId, hcreate, hopen⟩ := hm.create_ok dest st
  have hcontent := hm.create_content dest st
  apply after_send
  · intro v hv
    rw [hcreate] at hv
    cases hv
    generalize (svc.impl (.createMultipart dest) st).2 = st₁ at hopen hcontent ⊢
    have hcs₁ : svc.contents st₁ sources = some cs := by rw [Service.contents, hcontent, ← hcs]; rfl
    apply After.bind_attempt (after_multipartUploadParts hs hm hcs₁ hopen)
    intro r st₂ l hparts
    cases r with
    | error e =>
        obtain ⟨hmany, -⟩ := hparts
        apply After.op
        apply After.fail
        rw [← Nat.not_le, length_blocksOf_le_iff, Nat.not_le] at hmany
        exact ⟨fun hfew => by omega, fun _ => ⟨e, rfl⟩⟩
    | ok listed =>
        obtain ⟨a, rfl, hsends⟩ := hparts
        have hfew : cs.flatten.length ≤ capacity := length_blocksOf_le_iff.mp hsends.sent.few
        obtain ⟨parts, hkept, hpicked⟩ := hsends.sent.parts
        have hnumbers := hsends.sent.numbers
        rw [List.nil_append] at hnumbers hpicked
        have hlisted : a.completed ≠ [] := by
          intro hnil
          rw [hnil] at hpicked
          exact blocksOf_ne_nil cs.flatten (Option.some.inj hpicked).symm
        have hascending : (a.completed.map Prod.snd).Pairwise (· < ·) := by
          rw [hnumbers]
          exact List.pairwise_lt_range' 1
        obtain ⟨hanswer, hcontent₂⟩ := hm.complete_ok hkept hlisted hascending hpicked
          fun c hc => (length_of_mem_dropLast_blocksOf hc).ge
        change After svc.impl (if a.completed = [] then _ else _) st₂ _
        rw [if_neg hlisted]
        apply after_send
        · intro v _
          obtain ⟨st₃, hdelete, hcontent₃⟩ := @run_deleteAll svc
            (svc.impl (.completeMultipart dest uploadId a.completed) st₂).2 hs deleteAfterOk
          change _ ∧ _
          rw [hdelete]
          refine ⟨fun _ => ⟨rfl, ?_⟩, fun hmany => by omega⟩
          rw [hcontent₃, hcontent₂, flatten_blocksOf, hsends.sent.content, hcontent]
        · intro e he
          rw [hanswer] at he
          cases he
  · intro e he
    rw [hcreate] at he
    cases he

/-- A finalize joins the parts of the slot when they fit into one assembly,
and fails otherwise. -/
theorem run_finalize (hh : s.Holds svc id st slot) :
    (slot.parts.flatten.length ≤ capacity → ∃ st',
      (finalize s id).run svc.impl st = (.ok (), st') ∧
        svc.content st' (s.dataKey id) = some slot.parts.flatten) ∧
    (capacity < slot.parts.flatten.length → ∃ e, ((finalize s id).run svc.impl st).1 =
      .error e) := by
  by_cases hparts : slot.parts = []
  · have hrun : (finalize s id).run svc.impl st =
        (.ok (), (svc.impl (.put (s.dataKey id) []) st).2) := by
      rw [finalize, bind_eq, run_bind_ok (run_listParts hs hh), hparts]
      change (Prog.run svc.impl (s.request id _ (.put (s.dataKey id) [])) st) = _
      rw [request, send, run_op, hs.put_ok]
      rfl
    rw [hrun, hparts]
    refine ⟨fun _ => ⟨_, rfl, ?_⟩, fun hmany => absurd hmany (by simp)⟩
    rw [hs.put_content, Function.update_self]
    rfl
  · have hnames : (List.range slot.parts.length).map (s.partKey id) ≠ [] := by
      simpa using hparts
    have hrun : (finalize s id).run svc.impl st =
        (multipartAssembleFromSources s id (s.dataKey id)
          ((List.range slot.parts.length).map (s.partKey id))
          ((List.range slot.parts.length).map (s.partKey id))).run svc.impl st := by
      rw [finalize, bind_eq, run_bind_ok (run_listParts hs hh), if_neg hnames]
    obtain ⟨hfew, hmany⟩ := after_assemble hs hm hnames hh.contents
    rw [hrun]
    refine ⟨fun hle => ⟨_, Prod.ext (hfew hle).1 rfl, ?_⟩, hmany⟩
    have hdata : s.dataKey id ∉ (List.range slot.parts.length).map (s.partKey id) := by
      intro hmem
      obtain ⟨n, -, hn⟩ := List.mem_map.mp hmem
      cases key_injective hn
    rw [(hfew hle).2]
    exact (if_neg hdata).trans (Function.update_self ..)

end Assemble

/-- Calls on one upload, each successful, that bring in `chunks`. Its length
may be declared on the way. -/
inductive Fills (s : ObjectStore) (svc : Service) (id : UploadId) :
    svc.State → List Bytes → svc.State → Prop where
  | nil (st : svc.State) : Fills s svc id st [] st
  | chunk {st st' : svc.State} {chunks : List Bytes} (offset : ℕ) (buf : Bytes) (n : ℕ)
      (hprev : Fills s svc id st chunks st')
      (hanswer : ((s.writeChunk id offset (.ok buf)).run svc.impl st').1 = .ok n) :
      Fills s svc id st (chunks ++ [buf]) ((s.writeChunk id offset (.ok buf)).run svc.impl st').2
  | declare {st st' : svc.State} {chunks : List Bytes} (length : ℕ)
      (hprev : Fills s svc id st chunks st')
      (hanswer : ((s.declareLength id length).run svc.impl st').1 = .ok ()) :
      Fills s svc id st chunks ((s.declareLength id length).run svc.impl st').2

/-- What the chunks leave in the slot. -/
structure Filled (slot : Slot) (chunks : List Bytes) : Prop where
  parts : slot.parts = chunks.foldl Slot.addPart []
  offset : ∃ info, slot.info = some info ∧ info.offset = chunks.flatten.length

theorem Fills.filled (hs : svc.Stores) {chunks : List Bytes} (hfills : Fills s svc id st chunks st')
    (hh : s.Holds svc id st slot) (hnew : Filled slot []) :
    ∃ slot', s.Holds svc id st' slot' ∧ Filled slot' chunks := by
  induction hfills with
  | nil => exact ⟨slot, hh, hnew⟩
  | @chunk st' chunks offset buf n hprev hanswer ih =>
      obtain ⟨slot', hh', hparts, info, hinfo, hoffset⟩ := ih
      obtain ⟨st'', hrun, hh''⟩ := ObjectStore.run_writeChunk hs hh' hinfo offset (.ok buf)
      rw [hrun] at hanswer ⊢
      obtain ⟨info', hinfo', rfl, -, hslot⟩ := Slot.writeChunk_ok hanswer
      obtain rfl : info = info' := by simpa [hinfo] using hinfo'
      refine ⟨_, hh'', ?_, ?_⟩
      · rw [hslot, Slot.storeChunk, hparts, List.foldl_append, List.foldl_cons, List.foldl_nil]
      · rw [hslot, Slot.storeChunk]
        refine ⟨_, rfl, ?_⟩
        rw [List.flatten_append, List.flatten_singleton, List.length_append, hoffset]
  | @declare st' chunks length hprev hanswer ih =>
      obtain ⟨slot', hh', hparts, info, hinfo, hoffset⟩ := ih
      obtain ⟨st'', hrun, hh''⟩ := run_declareLength hs hh' hinfo length
      rw [hrun] at hanswer ⊢
      refine ⟨_, hh'', ?_⟩
      cases hsize : info.size with
      | some size => simp [Slot.declareLength, hinfo, hsize] at hanswer
      | none =>
          simp only [Slot.declareLength, hinfo, hsize]
          exact ⟨hparts, _, rfl, hoffset⟩

/-- A finalize answers `Ok` and leaves `data`. -/
def Joins (s : ObjectStore) (svc : Service) (id : UploadId) (st : svc.State) (data : Bytes) :
    Prop :=
  ((finalize s id).run svc.impl st).1 = .ok () ∧
    svc.content ((finalize s id).run svc.impl st).2 (s.dataKey id) = some data

theorem joins_iff (hs : svc.Stores) (hm : svc.Multipart kept) (hh : s.Holds svc id st slot) :
    Joins s svc id st data ↔ slot.parts.flatten = data ∧ data.length ≤ capacity := by
  obtain ⟨hfew, hmany⟩ := run_finalize hs hm hh
  rcases Nat.lt_or_ge capacity slot.parts.flatten.length with hlt | hle
  · obtain ⟨e, he⟩ := hmany hlt
    refine iff_of_false ?_ ?_
    · rintro ⟨hok, -⟩
      rw [he] at hok
      cases hok
    · rintro ⟨rfl, hle⟩
      omega
  · obtain ⟨st', hrun, hcontent⟩ := hfew hle
    rw [Joins, hrun, hcontent]
    constructor
    · rintro ⟨-, hdata⟩
      obtain rfl := Option.some.inj hdata
      exact ⟨rfl, hle⟩
    · rintro ⟨rfl, -⟩
      exact ⟨rfl, rfl⟩

/-- The chunks of a new upload that is complete become its data exactly when
no chunk replaced another and they fit into one assembly. -/
theorem finalize_joins_iff (hs : svc.Stores) (hm : svc.Multipart kept) {info last : UploadInfo}
    {size : ℕ} {chunks : List Bytes}
    (hfresh : ∀ key, key = s.infoKey info.id ∨ key = s.dataKey info.id ∨
      s.partPrefix info.id <+: key → svc.content st key = none)
    (hnew : info.offset = 0)
    (hfills : Fills s svc info.id ((s.createUpload info).run svc.impl st).2 chunks st')
    (hlast : ((s.readInfo info.id).run svc.impl st').1 = .ok last)
    (hsize : last.size = some size) (hdone : last.offset = size) :
    Joins s svc info.id st' chunks.flatten ↔
      (chunks.foldl Slot.addPart []).flatten = chunks.flatten ∧
        size ≤ MAX_MULTIPART_PARTS * MIN_MULTIPART_PART := by
  obtain ⟨st₁, hcreate, hh⟩ := run_createUpload hs (holds_empty hfresh)
  rw [hcreate] at hfills
  obtain ⟨slot, hslot, hparts, info', hinfo, hoffset⟩ :=
    hfills.filled hs hh ⟨rfl, info, rfl, hnew⟩
  have hread : (s.readInfo info.id).run svc.impl st' = (.ok info', st') := by
    apply run_readInfo hs
    rw [hslot.info, hinfo, Option.map_some]
  rw [hread] at hlast
  obtain rfl : info' = last := Except.ok.inj hlast
  rw [joins_iff hs hm hslot, hparts, ← hoffset, hdone]
  rfl

theorem acceptChunk_of_end {info : UploadInfo} {offset endOffset : ℕ} {buf : Bytes}
    (hoffset : info.offset = offset) (hend : chunkEnd info offset buf.length = .ok endOffset) :
    FileStore.acceptChunk info offset (.ok buf) = .ok (buf, endOffset) := by
  simp only [FileStore.acceptChunk, bind_eq_ok, guardWith_eq_ok, FileStore.readToEnd, pure,
    Except.pure]
  exact ⟨(), beq_iff_eq.mpr hoffset, buf, rfl, endOffset, hend, rfl⟩

/-- Chunks that fit into the declared length can all be written. -/
theorem fills_of_fits (hs : svc.Stores) {info : UploadInfo} {size : ℕ} {chunks : List Bytes}
    (hh : s.Holds svc id st { Slot.empty with info := some info }) (hnew : info.offset = 0)
    (hsize : info.size = some size)
      (hbound : size < U64_BOUND) (hfits : chunks.flatten.length ≤ size) :
    ∃ st' slot, Fills s svc id st chunks st' ∧ s.Holds svc id st' slot ∧
      slot.parts = chunks.foldl Slot.addPart [] ∧
      slot.info = some { info with offset := chunks.flatten.length } := by
  induction chunks using List.reverseRecOn with
  | nil =>
      exact ⟨st, _, .nil st, hh, rfl,
        congrArg some (by rw [List.flatten_nil, List.length_nil, ← hnew])⟩
  | append_singleton chunks buf ih =>
      have htotal : (chunks ++ [buf]).flatten.length = chunks.flatten.length + buf.length := by
        rw [List.flatten_append, List.flatten_singleton, List.length_append]
      rw [htotal] at hfits
      obtain ⟨st', slot, hfills, hslot, hparts, hinfo⟩ := ih (by omega)
      obtain ⟨st'', hrun, hslot'⟩ :=
        ObjectStore.run_writeChunk hs hslot hinfo chunks.flatten.length (.ok buf)
      have haccept : FileStore.acceptChunk { info with offset := chunks.flatten.length }
          chunks.flatten.length (.ok buf) = .ok (buf, chunks.flatten.length + buf.length) := by
        have hend : chunkEnd { info with offset := chunks.flatten.length } chunks.flatten.length
            buf.length = .ok (chunks.flatten.length + buf.length) := by
          refine chunkEnd_eq_ok.mpr ⟨rfl, by omega, fun declaredSize hdeclared => ?_⟩
          obtain rfl : size = declaredSize := Option.some.inj (hsize.symm.trans hdeclared)
          exact hfits
        exact acceptChunk_of_end rfl hend
      have hwrite : slot.writeChunk chunks.flatten.length (.ok buf) = (.ok buf.length,
          slot.storeChunk { info with offset := chunks.flatten.length } buf
            (chunks.flatten.length + buf.length)) := by
        have hrecord : slot.record = .ok { info with offset := chunks.flatten.length } := by
          rw [Slot.record, hinfo]
        rw [Slot.writeChunk, hrecord]
        simp only [haccept]
      rw [hwrite] at hrun hslot'
      have hnext := hfills.chunk chunks.flatten.length buf buf.length (by rw [hrun])
      rw [hrun] at hnext
      refine ⟨st'', _, hnext, hslot', ?_, ?_⟩
      · rw [Slot.storeChunk, hparts, List.foldl_append, List.foldl_cons, List.foldl_nil]
      · rw [Slot.storeChunk, htotal]

namespace BeyondCapacity

open TwoSources

/-- The size of an upload. -/
def record (size : ℕ) : UploadInfo := .new upload (some size)

def begun (size : ℕ) : Bucket :=
  ((bucket.createUpload (record size)).run Bucket.service.impl Bucket.empty).2

theorem fresh (key : Str) : Bucket.service.content Bucket.empty key = none :=
  Bucket.service.content_empty key

/-- Every list of chunks of a small enough size can be written to the end. -/
theorem filled {size : ℕ} {chunks : List Bytes} (hbound : size < U64_BOUND)
    (htotal : chunks.flatten.length = size) :
    ∃ st slot, Fills bucket Bucket.service upload (begun size) chunks st ∧
      bucket.Holds Bucket.service upload st slot ∧ slot.parts = chunks.foldl Slot.addPart [] ∧
      ((bucket.readInfo upload).run Bucket.service.impl st).1 =
        .ok { record size with offset := size } := by
  obtain ⟨st, hcreate, hh⟩ := @run_createUpload bucket Bucket.service Bucket.empty Bucket.stores
    (record size) (holds_empty fun key _ => fresh key)
  have hstate : begun size = st := congrArg Prod.snd hcreate
  obtain ⟨st', slot, hfills, hslot, hparts, hinfo⟩ :=
    fills_of_fits Bucket.stores hh rfl rfl hbound htotal.le
  have hread : (bucket.readInfo upload).run Bucket.service.impl st' =
      (.ok { record size with offset := size }, st') := by
    have hrecord := hslot.info
    rw [hinfo, Option.map_some, htotal] at hrecord
    exact run_readInfo Bucket.stores hrecord
  rw [hstate]
  exact ⟨st', slot, hfills, hslot, hparts, congrArg Prod.fst hread⟩

/-- One more part than an assembly may have. -/
def bodies : List Bytes :=
  List.replicate (MAX_MULTIPART_PARTS + 1) (List.replicate MIN_MULTIPART_PART 0)

theorem length_bodies : bodies.flatten.length = (MAX_MULTIPART_PARTS + 1) * MIN_MULTIPART_PART := by
  rw [bodies, List.length_flatten, List.map_replicate, List.sum_replicate_nat,
    List.length_replicate]

end BeyondCapacity

open TwoSources BeyondCapacity in
theorem finalize_joins_iff_two :
    ∃ st, Fills bucket Bucket.service upload (begun 3) [[1, 2], [3]] st ∧
      (Joins bucket Bucket.service upload st [1, 2, 3] ↔
        ([[1, 2], [3]].foldl Slot.addPart []).flatten = [1, 2, 3] ∧
          3 ≤ MAX_MULTIPART_PARTS * MIN_MULTIPART_PART) := by
  obtain ⟨st, slot, hfills, -, -, hlast⟩ := @filled 3 [[1, 2], [3]] (by decide) rfl
  have hwritten : Fills bucket Bucket.service (record 3).id
    ((bucket.createUpload (record 3)).run Bucket.service.impl Bucket.empty).2 [[1, 2], [3]] st :=
      hfills
  exact ⟨st, hfills, finalize_joins_iff Bucket.stores Bucket.multipart (fun key _ => fresh key) rfl
    hwritten hlast rfl rfl⟩

open TwoSources BeyondCapacity in
/-- An upload of 10001 chunks of 5 MiB takes all its bytes and cannot be
finished. -/
theorem full_upload_cannot_finish :
    ∃ st size, Fills bucket Bucket.service upload (begun size) bodies st ∧
      ((bucket.readInfo upload).run Bucket.service.impl st).1 =
        .ok { record size with offset := size } ∧
      size ≤ 5 * 2 ^ 40 ∧
      (∃ e, ((finalize bucket upload).run Bucket.service.impl st).1 = .error e) ∧
      ¬ Joins bucket Bucket.service upload st bodies.flatten := by
  obtain ⟨st, slot, hfills, hslot, hparts, hlast⟩ := filled (by decide) length_bodies
  have hfew : bodies.length ≤ FileStore.U32_BOUND := by
    rw [bodies, List.length_replicate]
    decide
  rw [Slot.foldl_addPart, if_pos hfew] at hparts
  have hmany : capacity < slot.parts.flatten.length := by
    rw [hparts, length_bodies]
    decide
  obtain ⟨e, he⟩ := (run_finalize Bucket.stores Bucket.multipart hslot).2 hmany
  refine ⟨st, _, hfills, hlast, by decide, ⟨e, he⟩, ?_⟩
  rintro ⟨hok, -⟩
  rw [he] at hok
  cases hok

end Fileloft.S3Upload
