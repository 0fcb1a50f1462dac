import Fileloft.Effect.Fault
import Fileloft.Fs.Refine

/-!
# The calls of the file store

What each call answers on a disk that keeps the slots of a store, and that
the disk then keeps the slots of the store after the call.
-/

namespace Fileloft.FileStore

variable {s : FileStore} {d d' : Disk} {t : Slots} {id a : UploadId} {order : Listing}

/-! ## Single operations -/

theorem run_read {p : Path} {c : Bytes} (h : d.content p = some c) :
    (FsProg.read p).run (Disk.interp order) d = (.ok c, d) := by
  simp [FsProg.read, FsProg.io, Disk.interp, Disk.read, h]

theorem run_read_missing {p : Path} (h : d.content p = none) (hdir : d.isDir p = false) :
    (FsProg.read p).run (Disk.interp order) d = (.error (.io .notFound), d) := by
  simp [FsProg.read, FsProg.io, Disk.interp, Disk.read, h, hdir]

theorem run_write {p : Path} {c : Bytes} (h : d.write p c = (.ok (), d')) :
    (FsProg.write p c).run (Disk.interp order) d = (.ok (), d') := by
  simp [FsProg.write, FsProg.io, Disk.interp, h]

theorem run_openTruncate {p : Path} (h : d.write p [] = (.ok (), d')) :
    (FsProg.openTruncate p).run (Disk.interp order) d = (.ok (), d') := by
  simp [FsProg.openTruncate, FsProg.io, Disk.interp, h]

theorem run_tryExists {p : Path} :
    (FsProg.tryExists p).run (Disk.interp order) d = (.ok (p ∈ d.dirs || p ∈ d.files), d) := by
  simp [FsProg.tryExists, FsProg.io, Disk.interp]

theorem run_readDir {p : Path} (h : p ∈ d.dirs) :
    (FsProg.readDir p).run (Disk.interp order) d = (.ok (order.1 (d.names p)), d) := by
  simp [FsProg.readDir, FsProg.io, Disk.interp, h]

theorem run_openRead {p : Path} {c : Bytes} (h : d.content p = some c) :
    (FsProg.openRead p).run (Disk.interp order) d = (.ok (), d) := by
  simp [FsProg.openRead, FsProg.io, Disk.interp, Disk.read, h, Except.map]

theorem run_openRead_missing {p : Path} (h : d.content p = none) (hdir : d.isDir p = false) :
    (FsProg.openRead p).run (Disk.interp order) d = (.error (.io .notFound), d) := by
  simp [FsProg.openRead, FsProg.io, Disk.interp, Disk.read, h, hdir, Except.map]

theorem run_copy {src dst : Path} {c e : Bytes} (hsrc : d.content src = some c)
    (hdst : d.content dst = some e) :
    (FsProg.copy src dst).run (Disk.interp order) d = (.ok (), d.put dst (e ++ c)) := by
  simp [FsProg.copy, FsProg.io, Disk.interp, Disk.copy, hsrc, hdst]

theorem run_flush {p : Path} : (FsProg.flush p).run (Disk.interp order) d = (.ok (), d) := by
  simp [FsProg.flush, FsProg.io, Disk.interp]

/-- One operation of a run with fates. -/
theorem fated_io_bind {β : Type} {o : FsOp} {f : o.Val → FsProg β} {fates : ℕ → Fate}
    {e : IoError} {order : Listing} :
    ((FsProg.io o).bind f).runFated (Disk.interp order) (fun _ => .error e) fates d =
      match fates 0 with
      | .perform =>
        match Disk.interp order o d with
        | (.ok v, d') =>
          (f v).runFated (Disk.interp order) (fun _ => .error e) (fun n => fates (n + 1)) d'
        | (.error e, d') => (some (.error (.io e)), d')
      | .refuse => (some (.error (.io e)), d)
      | .stop => (none, d) := by
  simp only [FsProg.io, Prog.op_bind, Prog.runFated]
  cases fates 0 with
  | perform =>
      rcases Disk.interp order o d with ⟨_ | _, _⟩ <;> rfl
  | refuse => rfl
  | stop => rfl

/-! ## Records and listings -/

theorem Keeps.run_readInfo (hd : s.Keeps d t) (ha : a.Valid) (order : Listing) :
    (s.readInfo a).run (Disk.interp order) d = ((t a).record, d) := by
  have hcontent := hd.file a ha .info
  rw [FileStore.file] at hcontent
  rw [readInfo, infoPath, Slot.record]
  cases hinfo : (t a).info with
  | none =>
      rw [hinfo] at hcontent
      have hdir := hd.laid.not_isDir (a.key .info)
      rw [← s.path_eq ha] at hdir
      exact Prog.run_bind_error (run_read_missing hcontent hdir)
  | some info =>
      rw [hinfo] at hcontent
      rw [Prog.bind_eq, Prog.run_bind_ok (run_read hcontent)]
      simp [s.codec.fromSlice_encode]

theorem run_toVec (info : UploadInfo) : s.toVec info = .ret (s.codec.encode info) := by
  rw [toVec, s.codec.toVec_eq]

theorem Keeps.run_writeInfo (hd : s.Keeps d t) (ha : a.Valid) (info : UploadInfo)
    (hmade : s.dir ∈ d.dirs) :
    (s.writeInfo a info).run (Disk.interp order) d =
      (.ok (), d.put (s.infoPath a) (s.codec.encode info)) := by
  rw [writeInfo, run_toVec]
  exact run_write (hd.laid.write_eq ha .info _ hmade)

theorem Laid.run_listPartPathsSorted (hd : s.Laid d) (ha : a.Valid) {idxs : List ℕ}
    (hidxs : s.Numbers d a idxs) :
    (s.listPartPathsSorted a).run (Disk.interp order) d = (.ok (idxs.map (s.partPath a)), d) := by
  have hfile : s.dir ∉ d.files := by simp [mem_files_iff, hd.dir_not_file List.prefix_rfl]
  simp only [listPartPathsSorted, infoPath, s.parent_path ha, Prog.bind_eq]
  rw [Prog.run_bind_ok run_tryExists]
  by_cases hmade : s.dir ∈ d.dirs
  · simp only [hmade, decide_true, Bool.true_or, if_true]
    rw [Prog.run_bind_ok (run_readDir hmade), hd.sortedParts_eq ha hidxs]
    rfl
  · have hnone : idxs = [] := by
      rw [List.eq_nil_iff_forall_not_mem]
      exact fun n hn => hmade (hd.made _ ((hidxs.mem_iff n).mp hn))
    simp [hmade, hfile, hnone]

theorem Keeps.run_listPartPathsSorted (hd : s.Keeps d t) (ha : a.Valid) :
    (s.listPartPathsSorted a).run (Disk.interp order) d =
      (.ok ((List.range (t a).parts.length).map (s.partPath a)), d) :=
  hd.laid.run_listPartPathsSorted ha (hd.numbers ha)

theorem Laid.interp_createDirAll (hd : s.Laid d) (ha : a.Valid) (order : Listing) :
    ∃ d', Disk.interp order (.createDirAll s.dir) d = (.ok (), d') ∧ s.Laid d' ∧
      s.dir ∈ d'.dirs ∧ d'.files = d.files := by
  obtain ⟨d', hrun, hd', hmade, hfiles⟩ := hd.run_createParent ha .info order
  refine ⟨d', ?_, hd', hmade, hfiles⟩
  rw [createParent, s.parent_path ha] at hrun
  simp only [FsProg.createDirAll, FsProg.io, Prog.run_op] at hrun
  rcases hcreate : Disk.interp order (.createDirAll s.dir) d with ⟨_ | _, _⟩
  · simp [hcreate] at hrun
  · simp only [hcreate, Prog.run_ret, Prod.mk.injEq] at hrun
    rw [hrun.2]

/-- An operation that removes a file, or changes one of an upload. -/
def KeyedOp (s : FileStore) (o : FsOp) : Prop :=
  (∃ p, o = .removeFile p) ∨ ∀ p ∈ o.modified, ∃ (b : UploadId) (kind : KeyKind),
    b.Valid ∧ p = s.path b kind

theorem Laid.write (hd : s.Laid d) (ha : a.Valid) (kind : KeyKind) (c : Bytes) :
    s.Laid (d.write (s.path a kind) c).2 := by
  unfold Disk.write
  split
  · exact hd
  · split
    · next hdir =>
        have hmade : s.dir ∈ d.dirs := by
          rw [s.path_eq ha, List.dropLast_concat] at hdir
          simpa [Disk.isDir, s.dir_ne_nil] using hdir
        refine ⟨fun p hp => ?_, hd.dirs, fun _ _ => hmade⟩
        by_cases hpath : p = s.path a kind
        · exact ⟨a, kind, ha, hpath⟩
        · rw [Disk.content_put_of_ne hpath] at hp
          exact hd.known p hp
    · exact hd

/-- The files stay laid out, whatever order the operations come in. -/
theorem Laid.interp (hd : s.Laid d) {o : FsOp} (ho : s.Within o) (hkeyed : s.KeyedOp o)
    (order : Listing) : s.Laid (Disk.interp order o d).2 := by
  have hkey {p : Path} (hp : p ∈ o.modified) (hremove : ∀ q, o ≠ .removeFile q) :
      ∃ (b : UploadId) (kind : KeyKind), b.Valid ∧ p = s.path b kind := by
    rcases hkeyed with ⟨q, rfl⟩ | hkeyed
    · exact absurd rfl (hremove q)
    · exact hkeyed p hp
  cases o with
  | write p c =>
      obtain ⟨b, kind, hb, rfl⟩ := hkey (p := p) rfl fun _ h => by cases h
      exact hd.write hb kind c
  | openTruncate p =>
      obtain ⟨b, kind, hb, rfl⟩ := hkey (p := p) rfl fun _ h => by cases h
      exact hd.write hb kind []
  | removeFile p =>
      simp only [Disk.interp, Disk.removeFile]
      split
      · refine hd.of_le (fun q hq hnone => hq ?_) rfl
        by_cases hp : q = p
        · subst hp
          exact AList.lookup_erase ..
        · exact (AList.lookup_erase_ne hp).trans hnone
      · split <;> exact hd
  | copy src dst =>
      obtain ⟨b, kind, hb, rfl⟩ := hkey (p := dst) rfl fun _ h => by cases h
      simp only [Disk.interp, Disk.copy]
      split
      · next new old hnew hold =>
          refine ⟨fun p hp => ?_, hd.dirs, fun _ _ => hd.made (s.path b kind) (by simp [hold])⟩
          by_cases hpath : p = s.path b kind
          · exact ⟨b, kind, hb, hpath⟩
          · rw [Disk.content_put_of_ne hpath] at hp
            exact hd.known p hp
      · exact hd
  | createDirAll p =>
      obtain rfl : p = s.dir := ho
      simp only [Disk.interp, Disk.createDirAll]
      split
      · exact hd
      · refine hd.of_files rfl (fun q hq => ?_) fun hdir => List.mem_append_right _ hdir
        rcases List.mem_append.mp hq with hq | hq
        · exact (List.mem_inits q s.dir).mp (List.mem_filter.mp (List.mem_filter.mp hq).1).1
        · exact hd.dirs q hq
  | read _ | tryExists _ | readDir _ | openRead _ | flush _ => exact hd

/-! ## Chunks -/

theorem file_part_addPart {parts : List Bytes} {buf : Bytes} {n : ℕ}
    (hbound : parts.length ≤ U32_BOUND) :
    (Slot.addPart parts buf)[n]? =
      if n = parts.length % U32_BOUND then some buf else parts[n]? := by
  unfold Slot.addPart
  by_cases hlt : parts.length < U32_BOUND
  · rw [if_pos hlt, Nat.mod_eq_of_lt hlt]
    grind
  · obtain hfull : parts.length = U32_BOUND := by omega
    rw [if_neg hlt, hfull, Nat.mod_self, List.getElem?_set]
    have hpos : 0 < parts.length := by rw [hfull]; decide
    grind

theorem length_addPart {parts : List Bytes} {buf : Bytes} (hbound : parts.length ≤ U32_BOUND) :
    (Slot.addPart parts buf).length ≤ U32_BOUND := by
  unfold Slot.addPart
  split
  · simpa using ‹_›
  · simpa using hbound

theorem Keeps.putPart (hd : s.Keeps d t) (ha : a.Valid) (buf : Bytes) (hmade : s.dir ∈ d.dirs) :
    s.Keeps (d.put (s.partPath a ((t a).parts.length % U32_BOUND)) buf)
      (Function.update t a { t a with parts := Slot.addPart (t a).parts buf }) := by
  have hbound := hd.bounded a ha
  refine hd.put ha ?_ (fun k hk => ?_) (length_addPart hbound) hmade
  · simp [FileStore.file, file_part_addPart hbound]
  · cases k with
    | part n =>
        have hn : n ≠ (t a).parts.length % U32_BOUND := fun h => hk (congrArg KeyKind.part h)
        simp [FileStore.file, file_part_addPart hbound, hn]
    | data | info | tmp n => rfl

theorem Keeps.putInfo (hd : s.Keeps d t) (ha : a.Valid) (info : UploadInfo)
    (hmade : s.dir ∈ d.dirs) :
    s.Keeps (d.put (s.infoPath a) (s.codec.encode info))
      (Function.update t a { t a with info := some info }) := by
  refine hd.put ha rfl (fun k hk => ?_) (hd.bounded a ha) hmade
  cases k with
  | info => exact absurd rfl hk
  | data | part n | tmp n => rfl

theorem Keeps.putData (hd : s.Keeps d t) (ha : a.Valid) (c : Bytes) (hmade : s.dir ∈ d.dirs) :
    s.Keeps (d.put (s.dataPath a) c) (Function.update t a { t a with data := some c }) := by
  refine hd.put ha rfl (fun k hk => ?_) (hd.bounded a ha) hmade
  cases k with
  | data => exact absurd rfl hk
  | info | part n | tmp n => rfl

theorem Keeps.dir_mem_of_record (hd : s.Keeps d t) (ha : a.Valid) {info : UploadInfo}
    (hinfo : (t a).info = some info) : s.dir ∈ d.dirs := by
  refine hd.made (s.infoPath a) ?_
  rw [infoPath, hd.file a ha, FileStore.file, hinfo]
  simp

theorem Keeps.run_storeChunk (hd : s.Keeps d t) (ha : a.Valid) (info : UploadInfo) (buf : Bytes)
    (endOffset : ℕ) (order : Listing) :
    ∃ d', (s.storeChunk a info buf endOffset).run (Disk.interp order) d = (.ok buf.length, d') ∧
      s.Keeps d' (Function.update t a ((t a).storeChunk info buf endOffset)) := by
  obtain ⟨d₁, hparent, hd₁, hmade, -⟩ :=
    hd.run_createParent ha (.part ((t a).parts.length % U32_BOUND)) order
  have hd₂ := hd₁.putPart ha buf hmade
  have hd₃ := hd₂.putInfo ha { info with offset := endOffset } hmade
  refine ⟨(d₁.put (s.partPath a ((t a).parts.length % U32_BOUND)) buf).put (s.infoPath a)
    (s.codec.encode { info with offset := endOffset }), ?_, ?_⟩
  · rw [storeChunk, Prog.bind_eq, Prog.run_bind_ok (hd.run_listPartPathsSorted ha)]
    simp only [List.length_map, List.length_range, Prog.bind_eq, partPath]
    rw [Prog.run_bind_ok hparent, Prog.run_bind_ok (run_write (hd₁.laid.write_eq ha _ buf hmade))]
    exact Prog.run_bind_ok (hd₂.run_writeInfo ha _ hmade)
  · simpa [Slot.storeChunk] using hd₃

theorem Keeps.run_writeChunk (hd : s.Keeps d t) (ha : a.Valid) (offset : ℕ) (reader : Reader)
    (order : Listing) :
    ∃ d', (s.writeChunk a offset reader).run (Disk.interp order) d =
        (((t a).writeChunk offset reader).1, d') ∧
      s.Keeps d' (Function.update t a ((t a).writeChunk offset reader).2) := by
  have hread := hd.run_readInfo ha order
  rw [writeChunk, Slot.writeChunk]
  cases hrecord : (t a).record with
  | error e =>
      rw [hrecord] at hread
      exact ⟨d, Prog.run_bind_error hread, by simpa using hd⟩
  | ok info =>
      rw [hrecord] at hread
      rw [Prog.bind_eq, Prog.run_bind_ok hread]
      simp only
      cases acceptChunk info offset reader with
      | error e => exact ⟨d, rfl, by simpa using hd⟩
      | ok chunk => exact hd.run_storeChunk ha info chunk.1 chunk.2 order

/-! ## Finalizing and deleting -/

theorem run_copyAll {dst : Path} {srcs : List Path} {acc : Bytes} (hdst : d.content dst = some acc)
    (hsrcs : ∀ p ∈ srcs, p ≠ dst ∧ d.content p ≠ none) (order : Listing) :
    ∃ d', (copyAll dst srcs).run (Disk.interp order) d = (.ok (), d') ∧ d'.dirs = d.dirs ∧
      ∀ q, d'.content q =
        if q = dst then some (acc ++ srcs.flatMap fun p => (d.content p).getD [])
        else d.content q := by
  induction srcs generalizing d acc with
  | nil =>
      refine ⟨d, rfl, rfl, fun q => ?_⟩
      by_cases hq : q = dst
      · simp [hq, hdst]
      · simp [hq]
  | cons src srcs ih =>
      obtain ⟨⟨hne, hsome⟩, hsrcs⟩ := List.forall_mem_cons.mp hsrcs
      obtain ⟨c, hsrc⟩ := Option.ne_none_iff_exists'.mp hsome
      have hput {q : Path} (hq : q ≠ dst) : (d.put dst (acc ++ c)).content q = d.content q :=
        Disk.content_put_of_ne hq
      have hsrcs₁ : ∀ p ∈ srcs, p ≠ dst ∧ (d.put dst (acc ++ c)).content p ≠ none := by
        intro p hp
        rw [hput (hsrcs p hp).1]
        exact hsrcs p hp
      obtain ⟨d', hrun, hdirs, hcontent⟩ := ih (Disk.content_put_self ..) hsrcs₁
      refine ⟨d', ?_, hdirs, fun q => ?_⟩
      · rw [copyAll, Prog.bind_eq, Prog.run_bind_ok (run_openRead hsrc), Prog.bind_eq,
          Prog.run_bind_ok (run_copy hsrc hdst), hrun]
      · have hrest : (srcs.flatMap fun p => ((d.put dst (acc ++ c)).content p).getD []) =
            srcs.flatMap fun p => (d.content p).getD [] :=
          List.flatMap_congr fun p hp => by rw [hput (hsrcs p hp).1]
        rw [hcontent, hrest]
        by_cases hq : q = dst
        · simp [hq, hsrc]
        · simp [hq, hput hq]

theorem run_removeFile {p : Path} (hp : d.isDir p = false) (order : Listing) :
    ∃ d', (FsProg.removeFileIgnoreNotFound p).run (Disk.interp order) d = (.ok (), d') ∧
      d'.dirs = d.dirs ∧ ∀ q, d'.content q = if q = p then none else d.content q := by
  by_cases hfile : p ∈ d.files
  · refine ⟨{ d with files := d.files.erase p }, ?_, rfl, fun q => ?_⟩
    · simp [FsProg.removeFileIgnoreNotFound, Disk.interp, Disk.removeFile, hfile]
    · by_cases hq : q = p
      · rw [if_pos hq, hq]
        exact AList.lookup_erase ..
      · rw [if_neg hq]
        exact AList.lookup_erase_ne hq
  · refine ⟨d, ?_, rfl, fun q => ?_⟩
    · simp [FsProg.removeFileIgnoreNotFound, Disk.interp, Disk.removeFile, hfile, hp]
    · by_cases hq : q = p
      · simpa [hq, mem_files_iff] using hfile
      · simp [hq]

theorem run_removeAll {ps : List Path} (hps : ∀ p ∈ ps, d.isDir p = false) (order : Listing) :
    ∃ d', (removeAll ps).run (Disk.interp order) d = (.ok (), d') ∧ d'.dirs = d.dirs ∧
      ∀ q, d'.content q = if q ∈ ps then none else d.content q := by
  induction ps generalizing d with
  | nil => exact ⟨d, rfl, rfl, by simp⟩
  | cons p ps ih =>
      obtain ⟨hp, hps⟩ := List.forall_mem_cons.mp hps
      obtain ⟨d₁, hrun₁, hdirs₁, hcontent₁⟩ := run_removeFile hp order
      have hps₁ : ∀ q ∈ ps, d₁.isDir q = false := fun q hq => by
        have hq := hps q hq
        rwa [Disk.isDir, hdirs₁]
      obtain ⟨d', hrun, hdirs, hcontent⟩ := ih hps₁
      refine ⟨d', ?_, hdirs.trans hdirs₁, fun q => ?_⟩
      · rw [removeAll, Prog.bind_eq, Prog.run_bind_ok hrun₁, hrun]
      · rw [hcontent, hcontent₁]
        by_cases hq : q = p <;> by_cases hqs : q ∈ ps <;> simp [hq, hqs]

theorem Keeps.exists_eq (hd : s.Keeps d t) (ha : a.Valid) (kind : KeyKind) :
    (s.path a kind ∈ d.dirs || s.path a kind ∈ d.files : Bool) = (s.file (t a) kind).isSome := by
  have hdir := hd.laid.isDir_path ha kind
  simp only [Disk.isDir, Bool.or_eq_false_iff] at hdir
  rw [hdir.2, Bool.false_or, ← hd.file a ha, Bool.eq_iff_iff]
  simp [mem_files_iff, Option.isSome_iff_ne_none]

/-- The disk once the parts of `a` are gone. -/
theorem Keeps.dropParts (hd : s.Keeps d t) (ha : a.Valid) (hdirs : d'.dirs = d.dirs)
    (hcontent : ∀ q, d'.content q =
      if q ∈ (List.range (t a).parts.length).map (s.partPath a) then none else d.content q) :
    s.Keeps d' (Function.update t a { t a with parts := [] }) := by
  have hpart (k : KeyKind) : s.path a k ∈ (List.range (t a).parts.length).map (s.partPath a) ↔
      ∃ n < (t a).parts.length, k = .part n := by
    simp only [List.mem_map, List.mem_range]
    constructor
    · rintro ⟨n, hn, hpath⟩
      exact ⟨n, hn, (s.path_injective ha ha hpath).2.symm⟩
    · rintro ⟨n, hn, rfl⟩
      exact ⟨n, hn, rfl⟩
  refine hd.remove ha hdirs hcontent (fun q hq => ?_) (fun k => ?_) (Nat.zero_le _)
  · obtain ⟨n, -, rfl⟩ := List.mem_map.mp hq
    exact ⟨.part n, rfl⟩
  · simp only [hpart]
    cases k with
    | part n => by_cases hn : n < (t a).parts.length <;> simp [hn, FileStore.file]
    | data | info | tmp n => simp [FileStore.file]

theorem Keeps.dropKey (hd : s.Keeps d t) (ha : a.Valid) {slot : Slot} (kind : KeyKind)
    (hdirs : d'.dirs = d.dirs)
    (hcontent : ∀ q, d'.content q = if q = s.path a kind then none else d.content q)
    (hkind : s.file slot kind = none) (hrest : ∀ k ≠ kind, s.file slot k = s.file (t a) k)
    (hbound : slot.parts.length ≤ U32_BOUND) : s.Keeps d' (Function.update t a slot) := by
  have hcontent : ∀ q, d'.content q = if q ∈ [s.path a kind] then none else d.content q := by
    simpa using hcontent
  refine hd.remove ha hdirs hcontent (fun q hq => ⟨kind, by simpa using hq⟩) (fun k => ?_) hbound
  by_cases hk : k = kind
  · simp [hk, hkind]
  · have hne : s.path a k ≠ s.path a kind := fun h => hk (s.path_injective ha ha h).2
    simp [hne, hrest k hk]

theorem flatMap_getD_range (parts : List Bytes) :
    ((List.range parts.length).flatMap fun n => parts[n]?.getD []) = parts.flatten := by
  rw [List.flatMap_def]
  congr 1
  refine List.ext_getElem (by simp) fun n h₁ h₂ => ?_
  simp [h₂]

/-- Finalizing joins the parts that are there, and removes them. -/
theorem Laid.run_finalize (hd : s.Laid d) (ha : a.Valid) {idxs : List ℕ}
    (hidxs : s.Numbers d a idxs) (order : Listing) :
    ∃ d', (s.finalize a).run (Disk.interp order) d = (.ok (), d') ∧ s.Laid d' ∧
      ∀ q, d'.content q =
        if q = s.dataPath a then some (idxs.flatMap fun n => (d.content (s.partPath a n)).getD [])
        else if q ∈ idxs.map (s.partPath a) then none else d.content q := by
  obtain ⟨d₁, hparent, hd₁, hmade, hfiles⟩ := hd.run_createParent ha .data order
  have hcontent₁ (q : Path) : d₁.content q = d.content q := by
    rw [Disk.content, hfiles]
    rfl
  have hopen := hd₁.write_eq ha .data [] hmade
  have hlaid {d' : Disk} (hdirs : d'.dirs = d₁.dirs)
      (hcontent : ∀ q, q ≠ s.path a .data → d'.content q ≠ none → d.content q ≠ none) :
      s.Laid d' := by
    refine ⟨fun q hq => ?_, hdirs ▸ hd₁.dirs, fun _ _ => hdirs ▸ hmade⟩
    by_cases hdata : q = s.path a .data
    · exact ⟨a, .data, ha, hdata⟩
    · exact hd.known q (hcontent q hdata hq)
  rw [finalize, Prog.bind_eq, Prog.run_bind_ok (hd.run_listPartPathsSorted ha hidxs), Prog.bind_eq,
    dataPath, Prog.run_bind_ok hparent]
  by_cases hnone : idxs = []
  · refine ⟨d₁.put (s.path a .data) [], ?_, hlaid rfl fun q hq hsome => ?_, fun q => ?_⟩
    · simp only [hnone, List.map_nil, if_true]
      exact run_write hopen
    · rwa [Disk.content_put_of_ne hq, hcontent₁] at hsome
    · by_cases hq : q = s.path a .data
      · simp [hnone, hq, Disk.content_put_self]
      · simp [hnone, hq, Disk.content_put_of_ne hq, hcontent₁]
  · have hne (n : ℕ) : s.partPath a n ≠ s.path a .data := fun hpath => by
      cases (s.path_injective ha ha hpath).2
    have hsrcs : ∀ p ∈ idxs.map (s.partPath a), p ≠ s.path a .data ∧
        (d₁.put (s.path a .data) []).content p ≠ none := by
      refine List.forall_mem_map.mpr fun n hn => ⟨hne n, ?_⟩
      rw [Disk.content_put_of_ne (hne n), hcontent₁]
      exact (hidxs.mem_iff n).mp hn
    obtain ⟨d₂, hcopy, hdirs₂, hcontent₂⟩ := run_copyAll (Disk.content_put_self ..) hsrcs order
    have hother {q : Path} (hq : q ≠ s.path a .data) : d₂.content q = d.content q := by
      rw [hcontent₂, if_neg hq, Disk.content_put_of_ne hq, hcontent₁]
    have hd₂ : s.Laid d₂ := hlaid hdirs₂ fun q hq hsome => hother hq ▸ hsome
    have hfiles₂ : ∀ p ∈ idxs.map (s.partPath a), d₂.isDir p = false :=
      List.forall_mem_map.mpr fun n _ => hd₂.isDir_path ha _
    obtain ⟨d₃, hremove, hdirs₃, hcontent₃⟩ := run_removeAll hfiles₂ order
    have hmap : idxs.map (s.partPath a) ≠ [] := by simpa using hnone
    refine ⟨d₃, ?_, hlaid (hdirs₃.trans hdirs₂) fun q hq hsome => ?_, fun q => ?_⟩
    · rw [if_neg hmap, Prog.bind_eq, Prog.run_bind_ok (run_openTruncate hopen), Prog.bind_eq,
        Prog.run_bind_ok hcopy, Prog.bind_eq, Prog.run_bind_ok run_flush, hremove]
    · rw [hcontent₃] at hsome
      split at hsome
      · exact absurd rfl hsome
      · rwa [hother hq] at hsome
    · rw [hcontent₃]
      by_cases hq : q = s.path a .data
      · have hnot : s.path a .data ∉ idxs.map (s.partPath a) := by
          simp only [List.mem_map, not_exists, not_and]
          exact fun n _ => hne n
        have hdata : d₂.content (s.path a .data) =
            some (idxs.flatMap fun n => (d.content (s.partPath a n)).getD []) := by
          rw [hcontent₂, if_pos rfl, List.nil_append, List.flatMap_map]
          congr 1
          refine List.flatMap_congr fun n _ => ?_
          rw [Disk.content_put_of_ne (hne n), hcontent₁]
        rw [hq, if_neg hnot, if_pos rfl, hdata]
      · rw [if_neg hq, hother hq]

theorem Keeps.run_finalize (hd : s.Keeps d t) (ha : a.Valid) (order : Listing) :
    ∃ d', (s.finalize a).run (Disk.interp order) d = (.ok (), d') ∧
      s.Keeps d' (Function.update t a (t a).finalize) := by
  obtain ⟨d', hrun, hd', hcontent⟩ := hd.laid.run_finalize ha (hd.numbers ha) order
  refine ⟨d', hrun, hd.update_laid hd' (fun kind => ?_) (fun p hp => ?_) ha (Nat.zero_le _)⟩
  · have hmem : s.path a kind ∈ (List.range (t a).parts.length).map (s.partPath a) ↔
        ∃ n < (t a).parts.length, kind = .part n := by
      simp only [List.mem_map, List.mem_range]
      constructor
      · rintro ⟨n, hn, hpath⟩
        exact ⟨n, hn, ((s.path_injective ha ha hpath).2).symm⟩
      · rintro ⟨n, hn, rfl⟩
        exact ⟨n, hn, rfl⟩
    have hpart (n : ℕ) : (d.content (s.partPath a n)).getD [] = (t a).parts[n]?.getD [] := by
      rw [partPath, hd.file a ha, FileStore.file]
    simp only [hcontent, hmem, hd.file a ha]
    cases kind with
    | data => simp [FileStore.file, Slot.finalize, dataPath, hpart, flatMap_getD_range]
    | info | tmp n =>
        have hne {kind : KeyKind} (hk : kind ≠ .data) : s.path a kind ≠ s.dataPath a :=
          fun hpath => hk (s.path_injective ha ha hpath).2
        simp [hne, FileStore.file, Slot.finalize]
    | part n =>
        have hne : s.path a (.part n) ≠ s.dataPath a := fun hpath => by
          cases (s.path_injective ha ha hpath).2
        by_cases hn : n < (t a).parts.length <;> simp [hne, hn, FileStore.file, Slot.finalize]
  · have hnot : p ∉ (List.range (t a).parts.length).map (s.partPath a) := by
      simp only [List.mem_map, not_exists, not_and]
      exact fun n _ hpath => hp (.part n) hpath.symm
    rw [hcontent, dataPath, if_neg (hp .data), if_neg hnot]

theorem Keeps.run_delete (hd : s.Keeps d t) (ha : a.Valid) (order : Listing) :
    ∃ d', (s.delete a).run (Disk.interp order) d = (.ok (), d') ∧
      s.Keeps d' (Function.update t a .empty) := by
  obtain ⟨d₁, hrun₁, hdirs₁, hcontent₁⟩ := run_removeFile (hd.laid.isDir_path ha .data) order
  have hd₁ : s.Keeps d₁ (Function.update t a { t a with data := none }) := by
    refine hd.dropKey ha .data hdirs₁ hcontent₁ rfl (fun k hk => ?_) (hd.bounded a ha)
    cases k with
    | data => exact absurd rfl hk
    | info | part n | tmp n => rfl
  obtain ⟨d₂, hrun₂, hdirs₂, hcontent₂⟩ := run_removeFile (hd₁.laid.isDir_path ha .info) order
  have hd₂ : s.Keeps d₂ (Function.update (Function.update t a { t a with data := none }) a
      { t a with info := none, data := none }) := by
    refine hd₁.dropKey ha .info hdirs₂ hcontent₂ rfl (fun k hk => ?_) (hd.bounded a ha)
    rw [Function.update_self]
    cases k with
    | info => exact absurd rfl hk
    | data | part n | tmp n => rfl
  have hfiles : ∀ p ∈ (List.range (t a).parts.length).map (s.partPath a), d₂.isDir p = false :=
    List.forall_mem_map.mpr fun n _ => hd₂.laid.isDir_path ha _
  obtain ⟨d₃, hrun₃, hdirs₃, hcontent₃⟩ := run_removeAll hfiles order
  have hd₃ := hd₂.dropParts ha hdirs₃ (by simpa using hcontent₃)
  refine ⟨d₃, ?_, by simpa [Slot.empty] using hd₃⟩
  rw [delete, Prog.bind_eq, dataPath, Prog.run_bind_ok hrun₁, Prog.bind_eq, infoPath,
    Prog.run_bind_ok hrun₂, Prog.bind_eq, Prog.run_bind_ok (hd₂.run_listPartPathsSorted ha)]
  simpa using hrun₃

/-! ## Lengths, contents and concatenation -/

theorem Keeps.run_declareLength (hd : s.Keeps d t) (ha : a.Valid) (length : ℕ) (order : Listing) :
    ∃ d', (s.declareLength a length).run (Disk.interp order) d =
        (((t a).declareLength length).1, d') ∧
      s.Keeps d' (Function.update t a ((t a).declareLength length).2) := by
  have hread := hd.run_readInfo ha order
  rw [declareLength, Slot.declareLength]
  rw [Slot.record] at hread
  cases hinfo : (t a).info with
  | none =>
      rw [hinfo] at hread
      exact ⟨d, Prog.run_bind_error hread, by simpa using hd⟩
  | some info =>
      rw [hinfo] at hread
      rw [Prog.bind_eq, Prog.run_bind_ok hread]
      have hmade := hd.dir_mem_of_record ha hinfo
      cases hsize : info.size with
      | some size =>
          simp only [hsize, Option.isSome_some, refuseIf, if_true]
          exact ⟨d, rfl, by simpa using hd⟩
      | none =>
          simp only [hsize, Option.isSome_none, refuseIf, Bool.false_eq_true, if_false]
          exact ⟨_, hd.run_writeInfo ha _ hmade, hd.putInfo ha _ hmade⟩

theorem Keeps.run_readContent (hd : s.Keeps d t) (ha : a.Valid) (order : Listing) :
    (s.readContent a).run (Disk.interp order) d = ((t a).readContent, d) := by
  have hread := hd.run_readInfo ha order
  rw [readContent, Slot.readContent]
  cases hrecord : (t a).record with
  | error e =>
      rw [hrecord] at hread
      exact Prog.run_bind_error hread
  | ok info =>
      rw [hrecord] at hread
      rw [Prog.bind_eq, Prog.run_bind_ok hread]
      simp only
      cases info.isComplete with
      | false => rfl
      | true =>
          have hcontent := hd.file a ha .data
          simp only [guardWith, if_true, Prog.ofExcept_ok, Prog.bind_eq, Prog.ret_bind, dataPath]
          rw [Prog.run_bind_ok run_tryExists, hd.exists_eq ha, FileStore.file]
          rw [FileStore.file] at hcontent
          cases hdata : (t a).data with
          | none => rfl
          | some data =>
              rw [hdata] at hcontent
              exact run_read hcontent

theorem Keeps.run_createUpload (hd : s.Keeps d t) (info : UploadInfo) (order : Listing) :
    ∃ d', (s.createUpload info).run (Disk.interp order) d = ((t.createUpload info).1, d') ∧
      s.Keeps d' (t.createUpload info).2 := by
  rw [createUpload, Slots.createUpload]
  cases hvalid : info.id.validate with
  | error e => exact ⟨d, rfl, hd⟩
  | ok _ =>
      have ha : info.id.Valid := hvalid
      obtain ⟨d₁, hparent, hd₁, hmade, -⟩ := hd.run_createParent ha .info order
      refine ⟨_, ?_, hd₁.putInfo ha info hmade⟩
      simp only [Prog.ofExcept_ok, Prog.bind_eq, Prog.ret_bind, infoPath, run_toVec]
      rw [Prog.run_bind_ok hparent]
      exact run_write (hd₁.laid.write_eq ha .info _ hmade)

theorem Keeps.run_getUpload (hd : s.Keeps d t) (id : UploadId) (order : Listing) :
    (s.getUpload id).run (Disk.interp order) d = (t.getUpload id, d) := by
  rw [getUpload, Slots.getUpload]
  cases hvalid : id.validate with
  | error e => rfl
  | ok _ =>
      have ha : id.Valid := hvalid
      simp only [Prog.ofExcept_ok, Prog.bind_eq, Prog.ret_bind, infoPath]
      rw [Prog.run_bind_ok run_tryExists, hd.exists_eq ha, FileStore.file, Option.isSome_map]
      cases (t id).info <;> rfl

theorem appendData_update {slot : Slot} {acc : Bytes} (infos : List UploadInfo) :
    Slots.appendData (Function.update t a slot) a acc infos = t.appendData a acc infos := by
  induction infos generalizing acc with
  | nil => rfl
  | cons info infos ih =>
      simp only [Slots.appendData]
      cases info.id.validate with
      | error e => rfl
      | ok _ =>
          by_cases hself : info.id = a
          · simp only [hself, if_true, ih]
          · simp only [hself, if_false, Function.update_of_ne hself, ih]

theorem Keeps.run_copyPartials (hd : s.Keeps d t) (ha : a.Valid) (hmade : s.dir ∈ d.dirs)
    {acc : Bytes} (hdata : (t a).data = some acc) (infos : List UploadInfo) (order : Listing) :
    ∃ d', (s.copyPartials (s.dataPath a) infos).run (Disk.interp order) d =
        ((t.appendData a acc infos).1, d') ∧ d'.dirs = d.dirs ∧
      s.Keeps d' (Function.update t a { t a with
        data := some (t.appendData a acc infos).2 }) := by
  have hself (acc : Bytes) (hdata : (t a).data = some acc) :
      { t a with data := some acc } = t a := by
    rw [← hdata]
  induction infos generalizing d t acc with
  | nil => exact ⟨d, rfl, rfl, by simpa [Slots.appendData, hself acc hdata] using hd⟩
  | cons info infos ih =>
      simp only [copyPartials, Slots.appendData, Prog.bind_eq]
      cases hvalid : info.id.validate with
      | error e => exact ⟨d, rfl, rfl, by simpa [hself acc hdata] using hd⟩
      | ok _ =>
          have hb : info.id.Valid := hvalid
          simp only [Prog.ofExcept_ok, Prog.ret_bind]
          have hsrc : d.content (s.dataPath info.id) =
              if info.id = a then some acc else (t info.id).data := by
            rw [dataPath, hd.file info.id hb, FileStore.file]
            split
            · next heq => rw [heq, hdata]
            · rfl
          cases hfound : if info.id = a then some acc else (t info.id).data with
          | none =>
              rw [hfound] at hsrc
              refine ⟨d, ?_, rfl, by simpa [hself acc hdata] using hd⟩
              exact Prog.run_bind_error (run_openRead_missing hsrc (hd.laid.isDir_path hb .data))
          | some data =>
              rw [hfound] at hsrc
              have hdst : d.content (s.dataPath a) = some acc := by
                rw [dataPath, hd.file a ha, FileStore.file, hdata]
              have hd₁ := hd.putData ha (acc ++ data) hmade
              have hdata₁ : (Function.update t a { t a with data := some (acc ++ data) } a).data =
                  some (acc ++ data) := by rw [Function.update_self]
              obtain ⟨d', hrun, hdirs, hd'⟩ := ih hd₁ hmade hdata₁ fun acc' hdata' => by
                rw [← hdata']
              refine ⟨d', ?_, hdirs, by simpa [appendData_update] using hd'⟩
              rw [Prog.run_bind_ok (run_openRead hsrc), Prog.run_bind_ok (run_copy hsrc hdst), hrun,
                appendData_update]

theorem Keeps.run_concatenate (hd : s.Keeps d t) (ha : a.Valid) (partials : List UploadInfo)
    (order : Listing) :
    ∃ d', (s.concatenate a partials).run (Disk.interp order) d =
        ((t.concatenate a partials).1, d') ∧ s.Keeps d' (t.concatenate a partials).2 := by
  obtain ⟨d₁, hparent, hd₁, hmade, -⟩ := hd.run_createParent ha .data order
  have hd₂ := hd₁.putData ha [] hmade
  have hdata₂ : (Function.update t a { t a with data := some [] } a).data = some [] := by
    rw [Function.update_self]
  obtain ⟨d₃, hcopy, hdirs₃, hd₃⟩ := hd₂.run_copyPartials ha hmade hdata₂ partials order
  rw [appendData_update] at hcopy
  have hread := hd₃.run_readInfo ha order
  rw [dataPath] at hcopy
  rw [concatenate, Prog.bind_eq, dataPath, Prog.run_bind_ok hparent, Prog.bind_eq,
    Prog.run_bind_ok (run_openTruncate (hd₁.laid.write_eq ha .data [] hmade)), Slots.concatenate]
  simp only [appendData_update, Function.update_self, Function.update_idem] at hd₃ hread
  rcases hresult : t.appendData a [] partials with ⟨result, data⟩
  rw [hresult] at hcopy hd₃ hread
  cases result with
  | error e => exact ⟨d₃, Prog.run_bind_error hcopy, hd₃⟩
  | ok _ =>
      rw [Prog.bind_eq, Prog.run_bind_ok hcopy, Prog.bind_eq, Prog.run_bind_ok run_flush]
      simp only
      rw [Slot.record] at hread
      cases hinfo : (t a).info with
      | none =>
          simp only [hinfo] at hread
          exact ⟨d₃, Prog.run_bind_error hread, by simpa [hinfo] using hd₃⟩
      | some info =>
          simp only [hinfo] at hread
          have hmade₃ : s.dir ∈ d₃.dirs := hdirs₃ ▸ hmade
          have hd₄ := hd₃.putInfo ha { info with
            size := some (wrappingSum (partials.filterMap UploadInfo.size))
            offset := wrappingSum (partials.filterMap UploadInfo.size), isFinal := true } hmade₃
          refine ⟨_, ?_, by simpa using hd₄⟩
          rw [Prog.bind_eq, Prog.run_bind_ok hread]
          exact hd₃.run_writeInfo ha _ hmade₃

/-! ## The refinement -/

/-- Every call on an accepted id answers as the slots do, and the disk goes
on keeping them. -/
theorem Keeps.call (hd : s.Keeps d t) (o : StoreOp) (ho : ∀ id ∈ o.handle, id.Valid)
    (order : Listing) :
    (s.interp order o d).1 = (Slots.interp o t).1 ∧
      s.Keeps (s.interp order o d).2 (Slots.interp o t).2 := by
  have hpair {α : Type} {p : FsProg α} {r : Except TusError α} {t' : Slots}
      (h : ∃ d', p.run (Disk.interp order) d = (r, d') ∧ s.Keeps d' t') :
      (p.run (Disk.interp order) d).1 = r ∧ s.Keeps (p.run (Disk.interp order) d).2 t' := by
    obtain ⟨d', hrun, hd'⟩ := h
    rw [hrun]
    exact ⟨rfl, hd'⟩
  cases o with
  | createUpload info => exact hpair (hd.run_createUpload info order)
  | getUpload id => exact hpair ⟨d, hd.run_getUpload id order, hd⟩
  | writeChunk id offset reader => exact hpair (hd.run_writeChunk (ho id rfl) offset reader order)
  | getInfo id => exact hpair ⟨d, hd.run_readInfo (ho id rfl) order, hd⟩
  | finalize id => exact hpair (hd.run_finalize (ho id rfl) order)
  | delete id => exact hpair (hd.run_delete (ho id rfl) order)
  | declareLength id length => exact hpair (hd.run_declareLength (ho id rfl) length order)
  | concatenate id partials => exact hpair (hd.run_concatenate (ho id rfl) partials order)
  | readContent id => exact hpair ⟨d, hd.run_readContent (ho id rfl) order, hd⟩

end Fileloft.FileStore
