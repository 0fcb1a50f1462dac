import Fileloft.Fs.Clients
import Fileloft.Fs.Fixture
import Fileloft.Fs.Refine
import Fileloft.Server.Fixture

/-!
# Reading a record while it is written

A write truncates the file before it writes the bytes. PATCH rewrites the
record under the lock, HEAD reads it without.
-/

namespace Fileloft

open Handler Pool

/-- `fs::write` truncates the file, and a read in between finds it empty. -/
def truncateFirst : (o : FsOp) → FsProg (FsSig.Ans o)
  | .write p content => Prog.op (S := FsSig) (.openTruncate p) fun r =>
      match r with
      | .ok _ => Prog.call (S := FsSig) (.write p content)
      | .error e => .ret (.error e)
  | o => Prog.call (S := FsSig) o

/-- A store call whose writes take two operations each. -/
def torn {α : Type} (p : FsProg α) : FsProg α := p.expand truncateFirst

variable {α β : Type}

theorem torn_bind (p : FsProg α) (f : α → FsProg β) :
    torn (p.bind f) = (torn p).bind fun a => torn (f a) :=
  Prog.expand_bind p f

/-- Any other operation stays one. -/
theorem torn_io {o : FsOp} (ho : ∀ p content, o ≠ .write p content) :
    torn (FsProg.io o) = FsProg.io o := by
  have hone : truncateFirst o = Prog.call (S := FsSig) o := by
    cases o with
    | write p content => exact absurd rfl (ho p content)
    | _ => rfl
  change (truncateFirst o).bind _ = _
  rw [hone]
  refine congrArg (Prog.op (S := FsSig) o) (funext fun r => ?_)
  cases r <;> rfl

theorem torn_read (p : Path) : torn (FsProg.read p) = FsProg.read p :=
  torn_io (o := .read p) fun _ _ => nofun

namespace TornRecord

/-- Which requests are HEADs, which are under way, and the offsets that were
stored meanwhile. -/
structure Sightings where
  heading : ℕ → Bool
  active : ℕ → Bool
  seen : ℕ → List ℕ

def Sightings.empty : Sightings := ⟨fun _ => false, fun _ => false, fun _ => []⟩

variable (s : FileStore) (id : UploadId)

/-- The offset in the record of the upload. -/
def storedOffset (d : Disk) : Option ℕ :=
  (d.content (s.infoPath id)).bind fun b => (s.codec.fromSlice b).toOption.map (·.offset)

def observer : FileObserver Sightings where
  enter t q d n :=
    { heading := Function.update n.heading t (q.method == .head)
      active := Function.update n.active t true
      seen := Function.update n.seen t (storedOffset s id d).toList }
  file _ _ _ _ d n :=
    { n with
      seen := fun t => if n.active t then (storedOffset s id d).toList ++ n.seen t else n.seen t }
  emit _ n := n
  leave t n := { n with active := Function.update n.active t false }

/-- The record can be written: it is no directory, and lies in one. -/
structure Placed (d : Disk) : Prop where
  file : d.isDir (s.infoPath id) = false
  dir : d.isDir s.dir = true

/-- The file holds a record, with this expiry. -/
def Whole (expiresAt : Option DateTime) (d : Disk) : Prop :=
  ∃ info, info.expiresAt = expiresAt ∧ d.content (s.infoPath id) = some (s.codec.encode info)

/-- What the clients keep of the upload. -/
structure Sound (expiresAt : Option DateTime) (m : Shared Disk Sightings) : Prop where
  placed : Placed s id m.store
  record : m.store.content (s.infoPath id) = some [] ∨ Whole s id expiresAt m.store
  whole : m.holder id = none → Whole s id expiresAt m.store
  seen : ∀ t, m.notes.active t = true → ∀ offset, storedOffset s id m.store = some offset →
    offset ∈ m.notes.seen t

/-- What the moves of the others leave to client `t`. -/
structure Rely (t : ℕ) (m m' : Shared Disk Sightings) : Prop where
  locks : SameLocks t m m'
  heading : m'.notes.heading t = m.notes.heading t
  active : m'.notes.active t = m.notes.active t
  seen : ∀ offset ∈ m.notes.seen t, offset ∈ m'.notes.seen t
  held : m.holder id = some t →
    m'.store.content (s.infoPath id) = m.store.content (s.infoPath id)

/-- A HEAD does not read the record while it is empty. -/
def discipline (expiresAt : Option DateTime) : Discipline StepSig ℕ (Shared Disk Sightings) where
  rely := Rely s id
  inv := Sound s id expiresAt
  allowed t o m := ∀ call, o = .file call (.read (s.infoPath id)) → m.notes.heading t = true →
    m.store.content (s.infoPath id) ≠ some []
  refl _ _ := ⟨fun _ => Iff.rfl, rfl, rfl, fun _ hseen => hseen, fun _ => rfl⟩
  trans h h' :=
    ⟨h.locks.trans h'.locks, h'.heading.trans h.heading, h'.active.trans h.active,
      fun offset hseen => h'.seen offset (h.seen offset hseen), fun hheld =>
        (h'.held ((h.locks id).mpr hheld)).trans (h.held hheld)⟩

/-- The environments in which the upload has not expired. -/
abbrev Unexpired (expiresAt : Option DateTime) : Type :=
  { x : Env × Listing // ∀ e, expiresAt = some e → x.1.clock ≤ e }

/-- The clients of the upload, writing in two operations. -/
abbrev tornClients (h : TusHandler) (expiresAt : Option DateTime) :
    Machine StepSig Halt TusResponse TusRequest ℕ (Unexpired expiresAt) (Shared Disk Sightings) :=
  fileClients h (fun o => torn (s.call o)) Subtype.val (observer s id)

variable {s id} {h : TusHandler} {expiresAt : Option DateTime} {t : ℕ} {m : Shared Disk Sightings}
  {call : StoreOp} {order : Listing} {d : Disk} {α β : Type}

/-! ## The disk -/

theorem Placed.write (hd : Placed s id d) (hid : id.Valid) (content : Bytes) :
    d.write (s.infoPath id) content = (.ok (), d.put (s.infoPath id) content) := by
  have hparent : (s.infoPath id).dropLast = s.dir := by
    rw [FileStore.infoPath, s.path_eq hid, List.dropLast_concat]
  rw [Disk.write, hd.file, hparent, hd.dir]
  rfl

theorem Placed.interp (hd : Placed s id d) (hid : id.Valid) {o : FsOp} (ho : s.Within o) :
    Placed s id (Disk.interp order o d).2 := by
  have hsame {d' : Disk} (hdirs : d'.dirs = d.dirs) : Placed s id d' := by
    obtain ⟨hfile, hdir⟩ := hd
    unfold Disk.isDir at hfile hdir
    constructor
    · rw [Disk.isDir, hdirs, hfile]
    · rw [Disk.isDir, hdirs, hdir]
  have hwrite (p : Path) (content : Bytes) : (d.write p content).2.dirs = d.dirs := by
    unfold Disk.write
    split
    · rfl
    · split <;> rfl
  cases o with
  | write p content => exact hsame (hwrite p content)
  | openTruncate p => exact hsame (hwrite p [])
  | removeFile p =>
      apply hsame
      simp only [Disk.interp, Disk.removeFile]
      split
      · rfl
      · split <;> rfl
  | copy src dst =>
      apply hsame
      simp only [Disk.interp, Disk.copy]
      split <;> rfl
  | createDirAll p =>
      obtain rfl : p = s.dir := ho
      simp only [Disk.interp, Disk.createDirAll]
      split
      · exact hd
      · obtain ⟨hfile, hdir⟩ := hd
        simp only [Disk.isDir, Bool.or_eq_false_iff, decide_eq_false_iff_not, Bool.or_eq_true,
          decide_eq_true_eq] at hfile hdir
        constructor
        · have hfar : s.infoPath id ∉ Disk.ancestors s.dir := by
            intro hmem
            have hle := ((List.mem_inits _ _).mp (List.mem_filter.mp hmem).1).length_le
            rw [FileStore.infoPath, s.path_eq hid] at hle
            simp at hle
          simp [Disk.isDir, hfile.1, hfile.2, hfar]
        · rcases hdir with hnil | hmem
          · exact absurd hnil s.dir_ne_nil
          · simp [Disk.isDir, hmem]
  | read _ | tryExists _ | readDir _ | openRead _ | flush _ => exact hsame rfl

/-- The operation stays in the directory and leaves the record alone. -/
def Spares (s : FileStore) (id : UploadId) (o : FsOp) : Prop :=
  s.Within o ∧ s.infoPath id ∉ o.modified

theorem Spares.content {o : FsOp} (ho : Spares s id o) :
    (Disk.interp order o d).2.content (s.infoPath id) = d.content (s.infoPath id) := by
  apply Disk.content_interp
  rintro p hp rfl
  exact ho.2 hp

theorem spares_looks {o : FsOp} (ho : s.Within o) (hmodified : o.modified = none) : Spares s id o :=
  ⟨ho, by simp [hmodified]⟩

/-! ## Moves -/

/-- A file operation may change the record when the client has its lock. -/
theorem keeps_filed {o : FsOp} (hid : id.Valid) (hinv : Sound s id expiresAt m) (ho : s.Within o)
    (hrecord : (Disk.interp order o m.store).2.content (s.infoPath id) = some [] ∨
      Whole s id expiresAt (Disk.interp order o m.store).2)
    (hsame : m.holder id = some t ∨ (Disk.interp order o m.store).2.content (s.infoPath id) =
      m.store.content (s.infoPath id)) :
    Keeps (discipline s id expiresAt) t m (m.filed (observer s id) order t call o) := by
  constructor
  · refine ⟨hinv.placed.interp hid ho, hrecord, fun hfree => ?_, fun u hactive offset hoffset => ?_⟩
    · rcases hsame with hheld | hsame
      · have hnone : m.holder id = none := hfree
        rw [hheld] at hnone
        cases hnone
      · obtain ⟨info, hexpires, hcontent⟩ := hinv.whole hfree
        exact ⟨info, hexpires, hsame.trans hcontent⟩
    · have hactive' : m.notes.active u = true := hactive
      change offset ∈ if m.notes.active u then _ else _
      rw [if_pos hactive']
      exact List.mem_append_left _ (Option.mem_toList.mpr hoffset)
  · intro t' ht
    refine ⟨fun _ => Iff.rfl, rfl, rfl, ?_, fun hheld => ?_⟩
    · intro offset hseen
      change offset ∈ if m.notes.active t' then _ else _
      split
      · exact List.mem_append_right _ hseen
      · exact hseen
    · rcases hsame with hmine | hsame
      · exact absurd (Option.some.inj (hheld.symm.trans hmine)) ht
      · exact hsame

theorem keeps_spared {o : FsOp} (hid : id.Valid) (hinv : Sound s id expiresAt m)
    (ho : Spares s id o) :
    Keeps (discipline s id expiresAt) t m (m.filed (observer s id) order t call o) := by
  have hsame : (Disk.interp order o m.store).2.content _ = m.store.content _ := ho.content
  apply keeps_filed hid hinv ho.1 _ (.inr hsame)
  rcases hinv.record with hempty | ⟨info, hexpires, hcontent⟩
  · exact .inl (hsame.trans hempty)
  · exact .inr ⟨info, hexpires, hsame.trans hcontent⟩

/-! ## Under the lock -/

/-- The client holds the lock, and the record is whole. -/
def Locked (s : FileStore) (id : UploadId) (expiresAt : Option DateTime) (t : ℕ)
    (m : Shared Disk Sightings) : Prop :=
  m.holder id = some t ∧ Whole s id expiresAt m.store

theorem stable_locked : Stable (discipline s id expiresAt) t (Locked s id expiresAt t) := by
  rintro m m' hrely ⟨hheld, info, hexpires, hcontent⟩
  exact ⟨(hrely.locks id).mpr hheld, info, hexpires, (hrely.held hheld).trans hcontent⟩

theorem stable_held : Stable (discipline s id expiresAt) t fun m => m.holder id = some t :=
  fun _ _ hrely hheld => (hrely.locks id).mpr hheld

theorem uses_torn {p : FsProg α} (hp : p.Uses (Spares s id) fun _ _ => True) :
    (torn p).Uses (Spares s id) fun _ _ => True := by
  apply hp.expand
  intro o ho
  cases o with
  | write p content =>
      refine ⟨ho, fun r _ => ?_⟩
      cases r with
      | ok _ => exact ⟨ho, fun _ _ => trivial⟩
      | error e => trivial
  | _ => exact ⟨ho, fun _ _ => trivial⟩

/-- A call that leaves the record alone. -/
theorem triple_spared {p : FsProg α} (hid : id.Valid) (hp : p.Uses (Spares s id) fun _ _ => True) :
    FileTriple (tornClients s id h expiresAt) (discipline s id expiresAt) t
      (Locked s id expiresAt t) call (torn p) (fun _ => Locked s id expiresAt t)
      (Locked s id expiresAt t) := by
  apply fileTriple_of_uses (uses_torn hp) stable_locked
  rintro o order m ho hinv - ⟨hheld, info, hexpires, hcontent⟩
  exact ⟨keeps_spared hid hinv ho, hheld, info, hexpires, ho.content.trans hcontent⟩

/-- A whole record is read. -/
theorem triple_readInfo {A E : Shared Disk Sightings → Prop}
    {B : UploadInfo → Shared Disk Sightings → Prop} (hid : id.Valid)
    (hA : Stable (discipline s id expiresAt) t A)
    (hread : ∀ m call, Sound s id expiresAt m →
      (discipline s id expiresAt).allowed t (.file call (.read (s.infoPath id))) m → A m →
      ∃ info, m.store.content (s.infoPath id) = some (s.codec.encode info) ∧
        ∀ call order, B info (m.filed (observer s id) order t call (.read (s.infoPath id)))) :
    FileTriple (tornClients s id h expiresAt) (discipline s id expiresAt) t A call
      (torn (s.readInfo id)) B E := by
  unfold FileStore.readInfo
  simp only [Prog.bind_eq]
  rw [torn_bind, torn_read]
  have hop : FileTriple (tornClients s id h expiresAt) (discipline s id expiresAt) t A call
      (FsProg.io (.read (s.infoPath id)))
      (fun bytes m => ∃ info, bytes = s.codec.encode info ∧ B info m) E := by
    apply fileTriple_io hA
    intro order m hinv hallowed hs
    obtain ⟨info, hcontent, hB⟩ := hread m call hinv hallowed hs
    refine ⟨keeps_spared hid hinv (spares_looks (s.direct_path hid .info) rfl), ?_⟩
    have hans : (Disk.interp order (.read (s.infoPath id)) m.store).1 =
        .ok (s.codec.encode info) := by
      simp only [Disk.interp, Disk.read, hcontent]
    rw [hans]
    exact ⟨info, rfl, hB call order⟩
  apply hop.bind
  rintro bytes m hinv ⟨info, rfl, hB⟩
  rw [s.codec.fromSlice_encode]
  exact hB

theorem triple_readLocked {E : Shared Disk Sightings → Prop} (hid : id.Valid) :
    FileTriple (tornClients s id h expiresAt) (discipline s id expiresAt) t
      (Locked s id expiresAt t) call (torn (s.readInfo id))
      (fun info m => info.expiresAt = expiresAt ∧ Locked s id expiresAt t m) E := by
  apply triple_readInfo hid stable_locked
  rintro m call - - ⟨hheld, info, hexpires, hcontent⟩
  exact ⟨info, hcontent, fun _ _ => ⟨hexpires, hheld, info, hexpires, hcontent⟩⟩

/-- The record is rewritten in two operations, and is empty in between. -/
theorem triple_writeInfo {info : UploadInfo} {E : Shared Disk Sightings → Prop} (hid : id.Valid)
    (hexpires : info.expiresAt = expiresAt) :
    FileTriple (tornClients s id h expiresAt) (discipline s id expiresAt) t
      (Locked s id expiresAt t) call (torn (s.writeInfo id info)) (fun _ => Locked s id expiresAt t)
      E := by
  have hdirect : s.Direct (s.infoPath id) := s.direct_path hid .info
  unfold FileStore.writeInfo FileStore.toVec
  rw [s.codec.toVec_eq]
  refine fileTriple_op (C := fun r m => r = .ok () ∧ m.holder id = some t) stable_locked ?_ ?_
  · rintro order m hinv - ⟨hheld, -⟩
    have hwrite : Disk.interp order (.openTruncate (s.infoPath id)) m.store =
        (.ok (), m.store.put (s.infoPath id) []) := hinv.placed.write hid []
    rw [hwrite]
    refine ⟨keeps_filed hid hinv hdirect (.inl ?_) (.inl hheld), rfl, hheld⟩
    rw [hwrite]
    exact Disk.content_put_self ..
  · intro r
    apply FileTriple.fact
    rintro rfl
    refine fileTriple_op (C := fun r m => r = .ok () ∧ Locked s id expiresAt t m) stable_held ?_ ?_
    · rintro order m hinv - hheld
      have hwrite : Disk.interp order (.write (s.infoPath id) (s.codec.encode info)) m.store =
          (.ok (), m.store.put (s.infoPath id) (s.codec.encode info)) := hinv.placed.write hid _
      have hwhole : Whole s id expiresAt
          (Disk.interp order (.write (s.infoPath id) (s.codec.encode info)) m.store).2 := by
        rw [hwrite]
        exact ⟨info, hexpires, Disk.content_put_self ..⟩
      refine ⟨keeps_filed hid hinv hdirect (.inr hwhole) (.inl hheld), ?_, hheld, hwhole⟩
      rw [hwrite]
    · intro r
      apply FileTriple.fact
      rintro rfl
      exact .ret fun _ _ hs => hs

theorem not_mem_path (hid : id.Valid) {kind : KeyKind} (hkind : kind ≠ .info) :
    s.infoPath id ∉ some (s.path id kind) := by
  intro hmem
  exact hkind (s.path_injective hid hid (Option.some.inj hmem)).2

theorem triple_storeChunk {info : UploadInfo} {buf : Bytes} {endOffset : ℕ} (hid : id.Valid)
    (hexpires : info.expiresAt = expiresAt) :
    FileTriple (tornClients s id h expiresAt) (discipline s id expiresAt) t
      (Locked s id expiresAt t) call (torn (s.storeChunk id info buf endOffset))
      (fun _ => Locked s id expiresAt t) (Locked s id expiresAt t) := by
  have hexpires' : ({ info with offset := endOffset } : UploadInfo).expiresAt = expiresAt :=
    hexpires
  unfold FileStore.storeChunk
  rw [Prog.bind_eq, torn_bind]
  apply (triple_spared hid (s.uses_listPartPathsSorted (fun _ => spares_looks) hid).1).bind
  intro parts
  rw [Prog.bind_eq, torn_bind]
  apply (triple_spared hid (s.uses_createParent (fun _ => spares_looks) hid (.part _))).bind
  intro _
  have hwrite : Spares s id (.write (s.partPath id (parts.length % FileStore.U32_BOUND)) buf) :=
    ⟨s.direct_path hid (.part _), not_mem_path hid nofun⟩
  rw [Prog.bind_eq, torn_bind]
  apply (triple_spared hid (FileStore.uses_io hwrite)).bind
  intro _
  rw [Prog.bind_eq, torn_bind]
  apply (triple_writeInfo hid hexpires').bind
  intro _
  exact .ret fun _ _ hs => hs

/-- The calls of a PATCH keep the record whole. -/
theorem triple_append {o : StoreOp} (hid : id.Valid) (ho : Appends id o) :
    FileTriple (tornClients s id h expiresAt) (discipline s id expiresAt) t
      (Locked s id expiresAt t) o (torn (s.call o)) (fun _ => Locked s id expiresAt t)
      (Locked s id expiresAt t) := by
  cases o with
  | getUpload i =>
      obtain rfl : i = id := ho
      have hlooks : Spares s i (.tryExists (s.infoPath i)) :=
        spares_looks (.inr (s.direct_path hid .info)) rfl
      apply triple_spared hid
      refine (Prog.uses_ofExcept _).bind fun _ => (FileStore.uses_io hlooks).bind fun found => ?_
      split <;> trivial
  | getInfo i =>
      obtain rfl : i = id := ho
      exact (triple_readLocked hid).conseq (fun _ _ hs => hs) (fun _ _ hs => hs.2) fun _ hs => hs
  | declareLength i length =>
      obtain rfl : i = id := ho
      change FileTriple _ _ t _ _ (torn ((s.readInfo i).bind _)) _ _
      rw [torn_bind]
      apply (triple_readLocked hid).bind
      intro info
      apply FileTriple.fact
      intro hexpires
      rw [Prog.bind_eq, torn_bind, torn, Prog.expand_ofExcept]
      apply (FileTriple.ofExcept fun _ _ hs => hs).bind
      intro _
      apply FileTriple.fact
      intro _
      exact triple_writeInfo hid hexpires
  | writeChunk i offset reader =>
      obtain rfl : i = id := ho
      change FileTriple _ _ t _ _ (torn ((s.readInfo i).bind _)) _ _
      rw [torn_bind]
      apply (triple_readLocked hid).bind
      intro info
      apply FileTriple.fact
      intro hexpires
      rw [Prog.bind_eq, torn_bind, torn, Prog.expand_ofExcept]
      apply (FileTriple.ofExcept fun _ _ hs => hs).bind
      rintro ⟨buf, endOffset⟩
      apply FileTriple.fact
      intro _
      exact triple_storeChunk hid hexpires
  | finalize i =>
      obtain rfl : i = id := ho
      have hdirect := s.direct_path hid .data
      have hdata : s.infoPath i ∉ some (s.dataPath i) := not_mem_path hid nofun
      apply triple_spared hid
      apply s.uses_finalize (fun _ => spares_looks) hid
      · exact ⟨hdirect, hdata⟩
      · exact ⟨hdirect, hdata⟩
      · exact fun p hp => ⟨⟨hp.direct hid, hdirect⟩, hdata⟩
      · exact fun p hp => ⟨hp.direct hid, fun hmem => hp.ne_infoPath hid (Option.some.inj hmem)⟩
  | _ => exact ho.elim

theorem triple_patch {q : TusRequest} (hlocker : h.hasLocker = true) (hq : requestId q = .ok id) :
    Triple (tornClients s id h expiresAt) (discipline s id expiresAt) t (fun _ => True)
      (fileSteps (fun o => torn (s.call o)) (Patch.handle h q)) (fun _ _ => True)
        fun _ => True := by
  have hid : id.Valid := valid_of_requestId hq
  unfold Patch.handle
  apply fileSteps_then (fileSteps_check fun _ _ _ => trivial)
  rintro ⟨offset, id'⟩
  apply Triple.fact
  intro hparse
  obtain rfl : id' = id := Except.ok.inj ((Patch.requestId_of_parse hparse).symm.trans hq)
  refine fileSteps_withLock (L := Locked s id' expiresAt t) (B := fun _ => Locked s id' expiresAt t)
    (H := Locked s id' expiresAt t) hlocker (fun _ _ _ _ => trivial) (fun _ _ _ => trivial) ?_ ?_
    (fun _ => stable_locked) stable_locked ?_
  · intro m hinv _ hfree
    refine ⟨⟨⟨hinv.placed, hinv.record, fun hnone => ?_, hinv.seen⟩, fun t' ht => ?_⟩, ?_⟩
    · have hheld : (m.locked t id').holder id' = some t := Function.update_self ..
      rw [hheld] at hnone
      cases hnone
    · exact ⟨sameLocks_locked ht hfree, rfl, rfl, fun _ hseen => hseen, fun _ => rfl⟩
    · exact ⟨Function.update_self .., hinv.whole hfree⟩
  · apply fileSteps_of_uses (C := Appends id')
      (Patch.uses_locked calling_of_unshared (fun _ ho => ho) fun _ => ⟨trivial, trivial⟩)
        stable_locked
    · exact fun o ho => triple_append hid ho
    · exact fun event m hinv hs => ⟨Keeps.refl hinv, hs⟩
  · intro r m hinv hs
    have hlocked : Locked s id' expiresAt t m := by cases r <;> exact hs
    refine ⟨⟨⟨hinv.placed, hinv.record, fun _ => hlocked.2, hinv.seen⟩, fun t' ht => ?_⟩, ?_⟩
    · exact ⟨sameLocks_released ht hlocked.1, rfl, rfl, fun _ hseen => hseen, fun _ => rfl⟩
    · cases r <;> trivial

/-! ## Without the lock -/

/-- The client is a HEAD under way. -/
def Heading (t : ℕ) (m : Shared Disk Sightings) : Prop :=
  m.notes.active t = true ∧ m.notes.heading t = true

/-- The HEAD has read a record with an offset that was stored meanwhile. -/
def Saw (t : ℕ) (info : UploadInfo) (m : Shared Disk Sightings) : Prop :=
  info.offset ∈ m.notes.seen t

theorem stable_heading : Stable (discipline s id expiresAt) t (Heading t) :=
  fun _ _ hrely hs => ⟨hrely.active.trans hs.1, hrely.heading.trans hs.2⟩

theorem stable_saw {info : UploadInfo} : Stable (discipline s id expiresAt) t (Saw t info) :=
  fun _ _ hrely hs => hrely.seen _ hs

theorem triple_found {E : Shared Disk Sightings → Prop} (hid : id.Valid) :
    FileTriple (tornClients s id h expiresAt) (discipline s id expiresAt) t (Heading t)
      call (torn (s.getUpload id)) (fun _ => Heading t) E := by
  have hlooks : Spares s id (.tryExists (s.infoPath id)) :=
    spares_looks (.inr (s.direct_path hid .info)) rfl
  unfold FileStore.getUpload
  rw [show id.validate = .ok () from hid]
  change FileTriple _ _ t _ _ (torn ((FsProg.tryExists (s.infoPath id)).bind _)) _ _
  rw [torn_bind, FsProg.tryExists, torn_io (o := .tryExists (s.infoPath id)) fun _ _ => nofun]
  have hop : FileTriple (tornClients s id h expiresAt) (discipline s id expiresAt) t (Heading t)
      call (FsProg.io (.tryExists (s.infoPath id))) (fun found m => found = true ∧
        Heading t m) E := by
    apply fileTriple_io stable_heading
    intro order m hinv _ hs
    have hcontent : m.store.content (s.infoPath id) ≠ none := by
      rcases hinv.record with hempty | ⟨info, -, hwhole⟩
      · simp [hempty]
      · simp [hwhole]
    refine ⟨keeps_spared hid hinv hlooks, ?_, hs⟩
    simp [FileStore.mem_files_iff.mpr hcontent]
  apply hop.bind
  intro found
  apply FileTriple.fact
  rintro rfl
  exact .ret fun _ _ hs => hs

theorem triple_seen {E : Shared Disk Sightings → Prop} (hid : id.Valid) :
    FileTriple (tornClients s id h expiresAt) (discipline s id expiresAt) t (Heading t)
      call (torn (s.readInfo id)) (fun info m => info.expiresAt = expiresAt ∧ Saw t info m) E := by
  apply triple_readInfo hid stable_heading
  rintro m call hinv hallowed ⟨hactive, hheading⟩
  rcases hinv.record with hempty | ⟨info, hexpires, hcontent⟩
  · exact absurd hempty (hallowed call rfl hheading)
  · refine ⟨info, hcontent, fun call order => ⟨hexpires, ?_⟩⟩
    have hstored : storedOffset s id m.store = some info.offset := by
      rw [storedOffset, hcontent, Option.bind_some, s.codec.fromSlice_encode]
      rfl
    change info.offset ∈ if m.notes.active t then (storedOffset s id m.store).toList ++ _ else _
    rw [if_pos hactive, hstored]
    exact List.mem_cons_self

/-- The upload has not expired at the clock of the request. -/
theorem triple_unexpired {A E : Shared Disk Sightings → Prop}
    (hA : Stable (discipline s id expiresAt) t A) :
    Triple (tornClients s id h expiresAt) (discipline s id expiresAt) t A
      (fileSteps (fun o => torn (s.call o)) (checkExpiry expiresAt)) (fun _ => A) E := by
  cases expiresAt with
  | none => exact .ret fun _ _ hs => hs
  | some e =>
      refine Triple.op (C := fun (clock : DateTime) m => clock ≤ e ∧ A m) hA ?_ ?_
      · intro m x r m' hinv _ hs hr
        obtain ⟨rfl, rfl⟩ := Prod.mk.inj (Option.some.inj hr)
        exact ⟨Keeps.refl hinv, x.2 e rfl, hs⟩
      · intro clock
        apply Triple.fact
        intro hle
        change Triple _ _ t A (fileSteps _ (ensure (clock ≤ e) .gone)) _ _
        rw [ensure, if_pos (by simpa using hle)]
        exact .ret fun _ _ hs => hs

/-- The answer of a HEAD. -/
def Answered (t : ℕ) (resp : TusResponse) (m : Shared Disk Sightings) : Prop :=
  ∃ offset, resp.status = 204 ∧
    HeaderMap.get resp.headers .uploadOffset = some (u64Header offset) ∧
    offset ∈ m.notes.seen t

theorem triple_head {q : TusRequest} (hq : requestId q = .ok id)
    (hresumable : checkTusResumable q.headers = .ok ()) :
    Triple (tornClients s id h expiresAt) (discipline s id expiresAt) t (Heading t)
      (fileSteps (fun o => torn (s.call o)) (Head.handle h q)) (Answered t) fun _ => False := by
  have hid : id.Valid := valid_of_requestId hq
  unfold Head.handle
  rw [hresumable, hq]
  change Triple _ _ t _ (fileSteps _ ((Handler.getUpload id).bind _)) _ _
  apply fileSteps_then (fileSteps_store (o := .getUpload id) (triple_found hid))
  intro _
  apply fileSteps_then (fileSteps_store (o := .getInfo id) (triple_seen hid))
  intro info
  apply Triple.fact
  rintro rfl
  apply fileSteps_then (triple_unexpired stable_saw)
  intro _
  exact .ret fun m _ hs => ⟨info.offset, rfl, Head.get_uploadOffset h info, hs⟩

theorem triple_request {q : TusRequest} (hlocker : h.hasLocker = true) (hq : requestId q = .ok id)
    (hmethod : q.method = .patch ∨ q.method = .head ∧ checkTusResumable q.headers = .ok ()) :
    Triple (tornClients s id h expiresAt) (discipline s id expiresAt) t
      (fun m => m.notes.active t = true ∧ m.notes.heading t = (q.method == .head))
      (fileSteps (fun o => torn (s.call o)) (h.handle q))
      (fun resp m => q.method = .head → Answered t resp m) fun _ => q.method ≠ .head := by
  rcases hmethod with hpatch | ⟨hhead, hresumable⟩
  · have hnot : q.method ≠ .head := by simp [hpatch]
    apply fileSteps_handle
    · rw [TusHandler.dispatch, hpatch]
      exact (triple_patch hlocker hq).conseq (fun _ _ _ => trivial)
        (fun _ _ _ hhead => absurd hhead nofun) fun _ _ => nofun
    · exact fun _ _ _ hhead => absurd hhead hnot
  · apply fileSteps_handle
    · rw [TusHandler.dispatch, hhead]
      apply (triple_head hq hresumable).conseq _ (fun _ _ hs _ => hs) fun _ hs => hs.elim
      exact fun _ _ hs => hs
    · exact fun _ _ hnot => absurd hhead hnot

/-- A HEAD or a PATCH of the upload. -/
def Admitted (id : UploadId) (q : TusRequest) : Prop :=
  requestId q = .ok id ∧
    (q.method = .patch ∨ q.method = .head ∧ checkTusResumable q.headers = .ok ())

variable (id) in
/-- Only such requests arrive. -/
def Admits (_ : FileClients Sightings) (m : Move TusRequest ℕ (Unexpired expiresAt)) : Prop :=
  ∀ t q, m = .start t q → Admitted id q

variable (s id) in
/-- No HEAD reads the record while it is empty. -/
def Undisturbed (c : FileClients Sightings) (m : Move TusRequest ℕ (Unexpired expiresAt)) : Prop :=
  ∀ t x q call k, m = .step t x →
    c.threads t = .running q (.op (.file call (.read (s.infoPath id))) k) →
    c.shared.notes.heading t = true → c.shared.store.content (s.infoPath id) ≠ some []

/-- Every HEAD is answered, with an offset that was stored meanwhile. -/
def HeadsAnswered (c : FileClients Sightings) : Prop :=
  ∀ t q r, c.threads t = .done q r → q.method = .head → ∃ resp, r = .ok resp ∧
    Answered t resp c.shared

theorem heads_answered_of_undisturbed {info : UploadInfo} {c : FileClients Sightings}
    (hlocker : h.hasLocker = true) (hplaced : Placed s id d)
    (hrecord : d.content (s.infoPath id) = some (s.codec.encode info))
    (hc : Reach (tornClients s id h info.expiresAt)
      (fun c m => Admits id c m ∧ Undisturbed s id c m)
      (onDisk d .empty) c) : HeadsAnswered c := by
  have hsecured := Reach.secured (D := discipline s id info.expiresAt)
    (A := fun t q r m => q.method = .head → ∃ resp, r = .ok resp ∧ Answered t resp m)
    ?_ ?_ ?_ ?_ (fun _ => rfl) ?_ hc
  · intro t q r hdone
    have hsafe := hsecured.2 t
    rw [hdone] at hsafe
    exact hsafe
  · rintro t q r m m' hrely hs hhead
    obtain ⟨resp, hr, offset, hstatus, hheader, hseen⟩ := hs hhead
    exact ⟨resp, hr, offset, hstatus, hheader, hrely.seen offset hseen⟩
  · rintro c m hm t x q o k rfl hrunning call rfl
    exact hm.2 t x q call k rfl hrunning
  · intro c t q hm hinv
    obtain ⟨hq, hmethod⟩ := hm.1 t q rfl
    have hkeeps : Keeps (discipline s id info.expiresAt) t c.shared
        ((tornClients s id h info.expiresAt).enter t q c.shared) := by
      refine ⟨⟨hinv.placed, hinv.record, hinv.whole, fun u hactive offset hoffset => ?_⟩,
        fun t' ht => ?_⟩
      · change offset ∈ Function.update c.shared.notes.seen t _ u
        by_cases hu : u = t
        · subst hu
          rw [Function.update_self]
          exact Option.mem_toList.mpr hoffset
        · rw [Function.update_of_ne hu]
          refine hinv.seen u ?_ offset hoffset
          change Function.update c.shared.notes.active t true u = true at hactive
          rwa [Function.update_of_ne hu] at hactive
      · refine ⟨fun _ => Iff.rfl, Function.update_of_ne ht .., Function.update_of_ne ht .., ?_,
          fun _ => rfl⟩
        intro offset hoffset
        change offset ∈ Function.update c.shared.notes.seen t _ t'
        rwa [Function.update_of_ne ht]
    refine ⟨hkeeps, ?_⟩
    apply (triple_request (t := t) hlocker hq hmethod _ hkeeps.1 ⟨Function.update_self ..,
      Function.update_self ..⟩).mono
    intro r m hs hhead
    cases r with
    | ok resp => exact ⟨resp, rfl, hs hhead⟩
    | error e => exact absurd hhead hs
  · intro t q r m hinv hs
    refine ⟨⟨⟨hinv.placed, hinv.record, hinv.whole, fun u hactive => hinv.seen u ?_⟩,
      fun t' ht => ?_⟩, hs⟩
    · change Function.update m.notes.active t false u = true at hactive
      by_cases hu : u = t
      · subst hu
        rw [Function.update_self] at hactive
        cases hactive
      · rwa [Function.update_of_ne hu] at hactive
    · exact ⟨fun _ => Iff.rfl, rfl, Function.update_of_ne ht .., fun _ hseen => hseen, fun _ => rfl⟩
  · exact ⟨hplaced, .inr ⟨info, rfl, hrecord⟩, fun _ => ⟨info, rfl, hrecord⟩, nofun⟩

namespace Racing

open FileStore (uploads)

def handler : TusHandler := ⟨{}, true, .fixed⟩

def uploadId : UploadId := .new .a

/-- An upload of two bytes that has none yet. -/
def info : UploadInfo := UploadInfo.new uploadId (some 2)

def disk : Disk :=
  Disk.put ⟨∅, [uploads.dir]⟩ (uploads.infoPath uploadId) (uploads.codec.encode info)

def head : TusRequest :=
  .ofTexts .head (some "a1234567-89ab-4cde-8fed-0123456789ab") [(.tusResumable, "1.0.0")] none

def patch : TusRequest :=
  .ofTexts .patch (some "a1234567-89ab-4cde-8fed-0123456789ab")
    [(.tusResumable, "1.0.0"), (.contentType, "application/offset+octet-stream"),
      (.uploadOffset, "0")] (some [97])

def unexpired : Unexpired info.expiresAt :=
  ⟨(.permissive .a, ⟨List.reverse, List.reverse_perm⟩), nofun⟩

abbrev RaceMove : Type := Move TusRequest ℕ (Unexpired info.expiresAt)

def steps (t n : ℕ) : List RaceMove := List.replicate n (.step t unexpired)

/-- Client 1 writes a byte, and client 0 asks for the offset after the first
`n` steps of that. -/
def run (n : ℕ) : List RaceMove :=
  .start 1 patch :: steps 1 n ++ .start 0 head :: steps 0 2 ++ [.finish 0]

/-- The status that a request of client `t` has been answered with. -/
def answer (c : FileClients Sightings) (t : ℕ) : Option (Method × ℕ) :=
  match c.threads t with
  | .done q (.ok resp) => some (q.method, resp.status)
  | _ => none

def admissible (q : TusRequest) : Bool :=
  (requestId q).toOption == some uploadId &&
    (q.method == .patch || q.method == .head && (checkTusResumable q.headers).toOption == some ())

theorem admitted_of_admissible {q : TusRequest} (hq : admissible q = true) :
    Admitted uploadId q := by
  have hok {α : Type} {r : Except TusError α} {a : α} (hr : r.toOption = some a) : r = .ok a := by
    cases r with
    | ok b => exact congrArg Except.ok (Option.some.inj hr)
    | error e => cases hr
  simp only [admissible, Bool.and_eq_true, Bool.or_eq_true, beq_iff_eq] at hq
  obtain ⟨hid, hmethod⟩ := hq
  refine ⟨hok hid, ?_⟩
  rcases hmethod with hpatch | ⟨hhead, hresumable⟩
  · exact .inl hpatch
  · exact .inr ⟨hhead, hok hresumable⟩

/-- Whether a move may be part of the run. -/
def admits (c : FileClients Sightings) : RaceMove → Bool
  | .start _ q => admissible q
  | .step t _ =>
    match c.threads t with
    | .running _ (.op (.file _ (.read p)) _) =>
      !(p == uploads.infoPath uploadId && c.shared.store.content p == some [])
    | _ => true
  | .finish _ => true

theorem admits_move {c : FileClients Sightings} {m : RaceMove} (hm : admits c m = true) :
    Admits uploadId c m ∧ Undisturbed uploads uploadId c m := by
  constructor
  · rintro t q rfl
    exact admitted_of_admissible hm
  · rintro t x q call k rfl hrunning -
    simpa [admits, hrunning] using hm

theorem placed : Placed uploads uploadId disk where
  file := by decide +kernel
  dir := by decide +kernel

theorem recorded : disk.content (uploads.infoPath uploadId) = some (uploads.codec.encode info) :=
  Disk.content_put_self ..

theorem evaluated :
    (moves (tornClients uploads uploadId handler info.expiresAt) (run 10) (onDisk disk .empty)).map
      (answer · 0) = some (some (.head, 500)) ∧
    (checked (tornClients uploads uploadId handler info.expiresAt) admits (run 11)
      (onDisk disk .empty)).map (answer · 0) = some (some (.head, 204)) ∧
    admissible patch = true ∧ admissible head = true := by
  rw [FileStore.uploads_eq]
  decide +kernel

end Racing

open Racing FileStore in
theorem heads_answered_of_undisturbed_racing : ∃ c,
    checked (tornClients uploads uploadId handler info.expiresAt) admits (run 11)
      (onDisk disk .empty) = some c ∧ answer c 0 = some (.head, 204) ∧ HeadsAnswered c := by
  obtain ⟨c, hc, hanswer⟩ := Option.map_eq_some_iff.mp evaluated.2.1
  refine ⟨c, hc, hanswer, ?_⟩
  exact heads_answered_of_undisturbed rfl placed recorded
    (reach_of_checked (fun _ _ => admits_move) .refl hc)

open Racing FileStore in
theorem torn_record_not_answered : ¬ ∀ (s : FileStore) (id : UploadId) (h : TusHandler)
    (info : UploadInfo) (d : Disk) (c : FileClients Sightings), h.hasLocker = true →
      Placed s id d → d.content (s.infoPath id) = some (s.codec.encode info) →
      Reach (tornClients s id h info.expiresAt) (Admits id) (onDisk d .empty) c →
        HeadsAnswered c := by
  intro hall
  obtain ⟨c, hc, hanswer⟩ := Option.map_eq_some_iff.mp evaluated.1
  have hreach : Reach (tornClients uploads uploadId handler info.expiresAt) (Admits uploadId)
      (onDisk disk .empty) c := by
    apply reach_of_moves (I := fun _ => True) _ (fun _ _ _ _ _ _ => trivial) trivial .refl hc
    rintro c m hm - t q rfl
    simp [run, steps] at hm
    rcases hm with ⟨-, rfl⟩ | ⟨-, rfl⟩
    · exact admitted_of_admissible evaluated.2.2.1
    · exact admitted_of_admissible evaluated.2.2.2
  have hanswered := hall uploads uploadId handler info disk c rfl placed recorded hreach
  unfold answer at hanswer
  split at hanswer
  · next q resp hdone =>
      obtain ⟨hmethod, hstatus⟩ := Prod.mk.inj (Option.some.inj hanswer)
      obtain ⟨_, hresp, _, h204, -⟩ := hanswered 0 q _ hdone hmethod
      obtain rfl := Except.ok.inj hresp
      rw [hstatus] at h204
      cases h204
  · cases hanswer

end TornRecord

end Fileloft
