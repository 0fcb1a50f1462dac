import Fileloft.Fs.Clients
import Fileloft.Fs.Fixture
import Fileloft.Fs.FinalizeRetry
import Fileloft.Server.Fixture
import Fileloft.Server.Post

/-!
# Joining a partial upload that is being finished

The last chunk of a partial upload makes its record complete before its data
file is put together. A final upload that is created meanwhile copies the
data files of its partials, without their locks.
-/

namespace Fileloft

open Handler Pool

namespace Joining

/-- Whether `finalize` is putting the data file together, whether a deletion
has begun, whether `concatenate` has written the record of the final upload,
and what it has copied from where. -/
structure Copies where
  building : Bool
  deleting : Bool
  joined : Bool
  copied : List (Path × Option Bytes)

def Copies.none : Copies := ⟨false, false, false, []⟩

variable (s : FileStore) (a : UploadId)

def observer : FileObserver Copies where
  enter _ _ _ n := n
  file _ call o d d' n :=
    match call, o with
    | .finalize id, .openTruncate _ => { n with building := n.building || id == a }
    | .finalize id, .flush _ => { n with building := n.building && id != a }
    | .delete _, .removeFile _ => { n with deleting := true }
    | .concatenate _ _, .copy src _ => { n with copied := (src, d.content src) :: n.copied }
    | .concatenate _ _, .write p content => { n with joined := d'.content p == some content }
    | _, _ => n
  emit _ n := n
  leave _ n := n

/-- Clients of the store: number 1 appends to the partial upload, and number
0 joins it. -/
abbrev clients (h : TusHandler) :
    Machine StepSig Halt TusResponse TusRequest ℕ (Env × Listing) (Shared Disk Copies) :=
  fileClients h s.call id (observer a)

variable (old : UploadId → Prop) (complete : UploadId → Bytes)

/-- What the clients keep. The old uploads are those that had a record before. -/
structure Sound (m : Shared Disk Copies) : Prop where
  laid : s.Laid m.store
  record : ∀ i : UploadId, i.Valid → ∀ bytes info, m.store.content (s.infoPath i) = some bytes →
    s.codec.fromSlice bytes = .ok info → info.id = i ∧ (info.isPartial = true → old i)
  data : m.notes.deleting = false → ∀ b : UploadId, b.Valid → old b →
    (b = a → m.notes.building = false) → ∀ bytes, m.store.content (s.dataPath b) = some bytes →
    bytes = complete b
  copied : ∀ e ∈ m.notes.copied, ∀ b : UploadId, b.Valid → e.1 = s.dataPath b →
    e.2 = some (complete b)

/-- What the client that joins leaves to the one that appends. -/
structure Spared (m m' : Shared Disk Copies) : Prop where
  deleting : m.notes.deleting = false
  building : m'.notes.building = m.notes.building
  content : ∀ kind, m'.store.content (s.path a kind) = m.store.content (s.path a kind)

/-- What the client that appends leaves to the one that joins. -/
structure Awaited (m m' : Shared Disk Copies) : Prop where
  deleting : m'.notes.deleting = m.notes.deleting
  data : ∀ b : UploadId, b.Valid → m.store.content (s.dataPath b) ≠ none →
    m'.store.content (s.dataPath b) ≠ none

/-- The data file is not copied while it is put together, and an upload is
only created under a new id. -/
def discipline : Discipline StepSig ℕ (Shared Disk Copies) where
  rely t m m' :=
    (t = 0 → Awaited s m m') ∧ (t = 1 → m'.notes.deleting = false → Spared s a m m')
  inv := Sound s a old complete
  allowed _ o m :=
    (∀ i infos dst, o = .file (.concatenate i infos) (.copy (s.dataPath a) dst) →
      m.notes.building = false) ∧
    ∀ info o', o = .file (.createUpload info) o' → o'.modified.isSome → ¬ old info.id
  refl _ _ := ⟨fun _ => ⟨rfl, fun _ _ h => h⟩, fun _ h => ⟨h, rfl, fun _ => rfl⟩⟩
  trans h h' := by
    refine ⟨fun ht => ?_, fun ht hdeleting => ?_⟩
    · exact ⟨(h'.1 ht).deleting.trans (h.1 ht).deleting,
        fun b hb hdata => (h'.1 ht).data b hb ((h.1 ht).data b hb hdata)⟩
    · have hsecond := h'.2 ht hdeleting
      have hfirst := h.2 ht hsecond.deleting
      exact ⟨hfirst.deleting, hsecond.building.trans hfirst.building,
        fun kind => (hsecond.content kind).trans (hfirst.content kind)⟩

variable {s a old complete} {h : TusHandler} {t : ℕ} {m : Shared Disk Copies} {call : StoreOp}
  {order : Listing} {o : FsOp} {b : UploadId} {α : Type}

/-! ## Moves -/

variable (s old) in
/-- A record is written under its id, and of a partial upload only for an old one. -/
def Faithful (o : FsOp) : Prop :=
  ∀ i : UploadId, i.Valid → s.infoPath i ∈ o.modified → (∃ p, o = .removeFile p) ∨
    ∃ info : UploadInfo, o = .write (s.infoPath i) (s.codec.encode info) ∧ info.id = i ∧
      (info.isPartial = true → old i)

variable (s old) in
/-- An operation of a call on `b`. -/
structure Tidy (b : UploadId) (o : FsOp) : Prop where
  own : s.OwnOp b o
  keyed : s.KeyedOp o
  faithful : Faithful s old o

theorem tidy_looks (ho : s.Within o) (hmodified : o.modified = none) : Tidy s old b o where
  own := s.performs_looks ho hmodified
  keyed := .inr fun p hp => by rw [hmodified] at hp; cases hp
  faithful i _ hi := by rw [hmodified] at hi; cases hi

theorem tidy_path (hb : b.Valid) {kind : KeyKind} (hkind : kind ≠ .info) (ho : s.Within o)
    (hmodified : o.modified = some (s.path b kind)) : Tidy s old b o where
  own := by
    refine ⟨ho, fun p hp => ?_⟩
    rw [hmodified] at hp
    obtain rfl := Option.some.inj hp
    exact s.own_path hb kind
  keyed := by
    refine .inr fun p hp => ?_
    rw [hmodified] at hp
    obtain rfl := Option.some.inj hp
    exact ⟨b, kind, hb, rfl⟩
  faithful i hi hmem := by
    rw [hmodified] at hmem
    exact absurd (s.path_injective hb hi (Option.some.inj hmem)).2 hkind

theorem tidy_remove {p : Path} (ho : s.Direct p) (hown : s.Own b p) :
    Tidy s old b (.removeFile p) where
  own := ⟨ho, fun q hq => by obtain rfl := Option.some.inj hq; exact hown⟩
  keyed := .inl ⟨p, rfl⟩
  faithful _ _ _ := .inl ⟨p, rfl⟩

theorem tidy_record {info : UploadInfo} (hb : b.Valid) (hid : info.id = b)
    (hold : info.isPartial = true → old b) :
    Tidy s old b (.write (s.infoPath b) (s.codec.encode info)) where
  own := ⟨s.direct_path hb .info,
    fun p hp => by obtain rfl := Option.some.inj hp; exact s.own_path hb .info⟩
  keyed := .inr fun p hp => ⟨b, .info, hb, (Option.some.inj hp).symm⟩
  faithful i hi hmem := by
    obtain ⟨rfl, -⟩ := s.path_injective hb hi (Option.some.inj hmem)
    exact .inr ⟨info, rfl, hid, hold⟩

/-- A record that is there afterwards was there before, or has been written. -/
theorem record_filed (hinv : Sound s a old complete m) (ho : Faithful s old o) {i : UploadId}
    (hi : i.Valid) {bytes : Bytes} {info : UploadInfo}
    (hcontent : (Disk.interp order o m.store).2.content (s.infoPath i) = some bytes)
    (hinfo : s.codec.fromSlice bytes = .ok info) :
    info.id = i ∧ (info.isPartial = true → old i) := by
  by_cases hmodified : s.infoPath i ∈ o.modified
  · rcases ho i hi hmodified with ⟨p, rfl⟩ | ⟨info', rfl, hid, hold⟩
    · obtain rfl : p = s.infoPath i := Option.some.inj hmodified
      simp only [Disk.interp, Disk.removeFile] at hcontent
      split at hcontent
      · rw [Disk.content, AList.lookup_erase] at hcontent
        cases hcontent
      · split at hcontent
        · exact hinv.record i hi bytes info hcontent hinfo
        · exact hinv.record i hi bytes info hcontent hinfo
    · simp only [Disk.interp, Disk.write] at hcontent
      split at hcontent
      · exact hinv.record i hi bytes info hcontent hinfo
      · split at hcontent
        · rw [Disk.content_put_self] at hcontent
          obtain rfl := Option.some.inj hcontent
          rw [s.codec.fromSlice_encode] at hinfo
          obtain rfl := Except.ok.inj hinfo
          exact ⟨hid, hold⟩
        · exact hinv.record i hi bytes info hcontent hinfo
  · refine hinv.record i hi bytes info ?_ hinfo
    rwa [Disk.content_interp order o] at hcontent
    rintro p hp rfl
    exact hmodified hp

theorem content_kept {d : Disk} {p : Path} (ho : o ≠ .removeFile p) (hp : d.content p ≠ none) :
    (Disk.interp order o d).2.content p ≠ none := by
  have hput {q : Path} {c : Bytes} : (d.put q c).content p ≠ none := by
    by_cases hq : p = q
    · subst hq
      simp
    · rwa [Disk.content_put_of_ne hq]
  have hwrite (q : Path) (c : Bytes) : (d.write q c).2.content p ≠ none := by
    unfold Disk.write
    split
    · exact hp
    · split
      · exact hput
      · exact hp
  cases o with
  | write q c => exact hwrite q c
  | openTruncate q => exact hwrite q []
  | copy src dst =>
      simp only [Disk.interp, Disk.copy]
      split
      · exact hput
      · exact hp
  | removeFile q =>
      rw [Disk.content_interp order]
      · exact hp
      · rintro r hr rfl
        obtain rfl := Option.some.inj hr
        exact ho rfl
  | _ =>
      rw [Disk.content_interp order]
      · exact hp
      · exact fun r hr => by cases hr

/-- What is noted of an operation that is neither a deletion nor a copy. -/
structure Unnoted (a : UploadId) (call : StoreOp) (o : FsOp) : Prop where
  build : ∀ i, call = .finalize i → i = a → ∀ p, o ≠ .openTruncate p ∧ o ≠ .flush p
  delete : ∀ i p, call = .delete i → o ≠ .removeFile p
  copy : ∀ i infos src dst, call = .concatenate i infos → o ≠ .copy src dst

variable (m t order) in
theorem notes_filed (ho : Unnoted a call o) :
    (m.filed (observer a) order t call o).notes.building = m.notes.building ∧
      (m.filed (observer a) order t call o).notes.deleting = m.notes.deleting ∧
      (m.filed (observer a) order t call o).notes.copied = m.notes.copied := by
  simp only [Shared.filed, observer]
  split
  · next i p =>
      have hne : i ≠ a := fun hi => (ho.build i rfl hi p).1 rfl
      simp [hne]
  · next i p =>
      have hne : i ≠ a := fun hi => (ho.build i rfl hi p).2 rfl
      simp [hne]
  · next i p => exact absurd rfl (ho.delete i p rfl)
  · next i infos src dst => exact absurd rfl (ho.copy i infos src dst rfl)
  · exact ⟨rfl, rfl, rfl⟩
  · exact ⟨rfl, rfl, rfl⟩

/-- A move that leaves the data files of old uploads alone, or builds that of `a`. -/
theorem keeps_noted (hinv : Sound s a old complete m) (ha : a.Valid) (hb : b.Valid)
    (ho : Tidy s old b o)
    (hbuilding : (m.filed (observer a) order t call o).notes.building = m.notes.building)
    (hdeleting : (m.filed (observer a) order t call o).notes.deleting = m.notes.deleting)
    (hcopied : ∀ e ∈ (m.filed (observer a) order t call o).notes.copied, ∀ b' : UploadId, b'.Valid →
      e.1 = s.dataPath b' → e.2 = some (complete b'))
    (hdata : m.notes.deleting = false → ∀ b' : UploadId, b'.Valid → old b' →
      s.dataPath b' ∈ o.modified → b' = a ∧ m.notes.building = true)
    (hpost : t ≠ 1 → a ≠ b) (hpatch : t ≠ 0 → ∀ b' : UploadId, b'.Valid →
      o ≠ .removeFile (s.dataPath b')) :
    Keeps (discipline s a old complete) t m (m.filed (observer a) order t call o) := by
  refine ⟨⟨hinv.laid.interp ho.own.1 ho.keyed order, fun i hi bytes info => ?_, ?_, hcopied⟩, ?_⟩
  · exact record_filed hinv ho.faithful hi
  · intro hfree b' hb' hold hbuild bytes hcontent
    rw [hdeleting] at hfree
    rw [hbuilding] at hbuild
    refine hinv.data hfree b' hb' hold hbuild bytes ?_
    have hspared : ∀ p ∈ o.modified, p ≠ s.dataPath b' := by
      rintro p hp rfl
      obtain ⟨heq, htrue⟩ := hdata hfree b' hb' hold hp
      rw [hbuild heq] at htrue
      cases htrue
    rw [← Disk.content_interp order o hspared]
    exact hcontent
  · intro t' ht
    refine ⟨?_, ?_⟩
    · rintro rfl
      exact ⟨hdeleting, fun b' hb' hsome => content_kept (hpatch ht.symm b' hb') hsome⟩
    · rintro rfl hfree
      rw [hdeleting] at hfree
      refine ⟨hfree, hbuilding, fun kind => ?_⟩
      apply Disk.content_interp order o
      rintro p hp rfl
      exact s.path_not_own hb ha (hpost ht.symm) (ho.own.2 _ hp)

theorem keeps_filed (hinv : Sound s a old complete m) (ha : a.Valid) (hb : b.Valid)
    (ho : Tidy s old b o) (hnotes : Unnoted a call o)
    (hdata : m.notes.deleting = false → ∀ b' : UploadId, b'.Valid → old b' →
      s.dataPath b' ∈ o.modified → b' = a ∧ m.notes.building = true)
    (hpost : t ≠ 1 → a ≠ b) (hpatch : t ≠ 0 → ∀ b' : UploadId, b'.Valid →
      o ≠ .removeFile (s.dataPath b')) :
    Keeps (discipline s a old complete) t m (m.filed (observer a) order t call o) := by
  obtain ⟨hbuilding, hdeleting, hcopied⟩ := notes_filed t m order hnotes
  apply keeps_noted hinv ha hb ho hbuilding hdeleting _ hdata hpost hpatch
  rw [hcopied]
  exact hinv.copied

/-! ## Looking -/

variable {A E : Shared Disk Copies → Prop}

/-- An operation that changes no file and is not noted. -/
def Looks (s : FileStore) (o : FsOp) : Prop :=
  s.Within o ∧ o.modified = none ∧ ∀ p, o ≠ .flush p

theorem Looks.unnoted (ho : Looks s o) : Unnoted a call o where
  build i _ _ p := by
    refine ⟨?_, ho.2.2 p⟩
    rintro rfl
    cases ho.2.1
  delete i p _ := by
    rintro rfl
    cases ho.2.1
  copy i infos src dst _ := by
    rintro rfl
    cases ho.2.1

theorem keeps_looks (hwithin : s.Within o) (hmodified : o.modified = none)
    (hnotes : Unnoted a call o) (hinv : Sound s a old complete m) :
    Keeps (discipline s a old complete) t m (m.filed (observer a) order t call o) ∧
      (discipline s a old complete).rely t m (m.filed (observer a) order t call o) := by
  have hcontent (p : Path) : (Disk.interp order o m.store).2.content p = m.store.content p := by
    apply Disk.content_interp order o
    intro q hq
    rw [hmodified] at hq
    cases hq
  have htidy : Tidy s old a o := tidy_looks hwithin hmodified
  obtain ⟨hbuilding, hdeleting, hcopied⟩ := notes_filed t m order hnotes
  have hawaited : Awaited s m (m.filed (observer a) order t call o) :=
    ⟨hdeleting, fun b _ hsome => by rwa [← hcontent] at hsome⟩
  have hspared (hfree : (m.filed (observer a) order t call o).notes.deleting = false) :
      Spared s a m (m.filed (observer a) order t call o) :=
    ⟨hdeleting ▸ hfree, hbuilding, fun kind => hcontent _⟩
  refine ⟨⟨⟨hinv.laid.interp hwithin htidy.keyed order, ?_, ?_, ?_⟩,
    fun t' _ => ⟨fun _ => hawaited, fun _ => hspared⟩⟩, fun _ => hawaited, fun _ => hspared⟩
  · intro i hi bytes info
    exact record_filed hinv htidy.faithful hi
  · intro hfree b hb hold hbuild bytes hbytes
    rw [hdeleting] at hfree
    rw [hbuilding] at hbuild
    exact hinv.data hfree b hb hold hbuild bytes ((hcontent _).symm.trans hbytes)
  · intro e he
    rw [hcopied] at he
    exact hinv.copied e he

theorem Looks.keeps (ho : Looks s o) (hinv : Sound s a old complete m) :
    Keeps (discipline s a old complete) t m (m.filed (observer a) order t call o) ∧
      (discipline s a old complete).rely t m (m.filed (observer a) order t call o) :=
  keeps_looks ho.1 ho.2.1 ho.unnoted hinv

/-- A call that only looks. -/
theorem triple_looks {p : FsProg α}
    (hp : p.Uses (Looks s) fun _ _ => True) (hA : Stable (discipline s a old complete) t A) :
    FileTriple (clients s a h) (discipline s a old complete) t A call p (fun _ => A)
      fun _ => True := by
  refine (fileTriple_of_uses hp hA ?_).conseq (fun _ _ hs => hs) (fun _ _ hs => hs)
    fun _ _ => trivial
  intro o order m ho hinv _ hs
  obtain ⟨hkeeps, hrely⟩ := ho.keeps hinv
  exact ⟨hkeeps, hA _ _ hrely hs⟩

/-- One operation that only looks, and what its answer says. -/
theorem triple_look {B : o.Val → Shared Disk Copies → Prop} (ho : Looks s o)
    (hA : Stable (discipline s a old complete) t A)
    (hB : ∀ v, Stable (discipline s a old complete) t (B v))
    (hanswer : ∀ order m v, Sound s a old complete m → A m →
      (Disk.interp order o m.store).1 = .ok v → B v m) :
    FileTriple (clients s a h) (discipline s a old complete) t A call (FsProg.io o) B
      fun _ => True := by
  apply fileTriple_io hA
  intro order m hinv _ hs
  obtain ⟨hkeeps, hrely⟩ := ho.keeps hinv
  refine ⟨hkeeps, ?_⟩
  cases hr : (Disk.interp order o m.store).1 with
  | ok v => exact hB v _ _ hrely (hanswer order m v hinv hs hr)
  | error e => trivial

/-- A record that is read is that of the upload. -/
theorem triple_readInfo (hb : b.Valid)
    (hA : Stable (discipline s a old complete) t A) :
    FileTriple (clients s a h) (discipline s a old complete) t A call (s.readInfo b)
      (fun info m => (info.id = b ∧ (info.isPartial = true → old b)) ∧ A m) fun _ => True := by
  have hread : FileTriple (clients s a h) (discipline s a old complete) t A call
      (FsProg.read (s.infoPath b)) (fun bytes m => (∀ info, s.codec.fromSlice bytes = .ok info →
        info.id = b ∧ (info.isPartial = true → old b)) ∧ A m) fun _ => True := by
    apply triple_look (o := .read (s.infoPath b)) ⟨s.direct_path hb .info, rfl,
      fun _ h => by cases h⟩ hA
    · exact fun _ m m' hrely hs => ⟨hs.1, hA m m' hrely hs.2⟩
    · intro order m bytes hinv hs hr
      refine ⟨fun info hinfo => ?_, hs⟩
      simp only [Disk.interp, Disk.read] at hr
      split at hr
      · next content hcontent =>
          obtain rfl := Except.ok.inj hr
          exact hinv.record b hb content info hcontent hinfo
      · cases hr
  apply hread.bind
  intro bytes
  apply FileTriple.fact
  intro hinfo
  split
  · next info hslice => exact .ret fun _ _ hs => ⟨hinfo info hslice, hs⟩
  · exact .fail fun _ _ _ => trivial

theorem uses_createParent (hb : b.Valid) (kind : KeyKind) :
    (createParent (s.path b kind)).Uses (Looks s) FileStore.AnyAnswer := by
  rw [createParent, s.parent_path hb]
  exact FileStore.uses_io (o := .createDirAll s.dir) ⟨rfl, rfl, fun _ h => by cases h⟩

theorem triple_getUpload (hA : Stable (discipline s a old complete) t A) :
    FileTriple (clients s a h) (discipline s a old complete) t A call (s.getUpload b)
      (fun _ m => b.Valid ∧ A m) fun _ => True := by
  apply (FileTriple.ofExcept fun _ _ _ => trivial).bind
  intro _
  apply FileTriple.fact
  intro hb
  have hlooks : Looks s (.tryExists (s.infoPath b)) :=
    ⟨.inr (s.direct_path hb .info), rfl, fun _ h => by cases h⟩
  have hexists : (FsProg.tryExists (s.infoPath b)).Uses (Looks s) FileStore.AnyAnswer :=
    FileStore.uses_io hlooks
  apply (triple_looks hexists hA).bind
  intro found
  split
  · exact .ret fun _ _ hs => ⟨hb, hs⟩
  · exact .fail fun _ _ _ => trivial

/-- A record is written under its id. -/
theorem triple_writeInfo {info : UploadInfo} (ha : a.Valid) (hb : b.Valid) (hid : info.id = b)
    (hold : info.isPartial = true → old b)
    (hnotes : Unnoted a call (.write (s.infoPath b) (s.codec.encode info)))
    (hpost : t ≠ 1 → a ≠ b) (hA : Stable (discipline s a old complete) t A)
    (hkept : ∀ order m, A m →
      A (m.filed (observer a) order t call (.write (s.infoPath b) (s.codec.encode info)))) :
    FileTriple (clients s a h) (discipline s a old complete) t A call (s.writeInfo b info)
      (fun _ => A) fun _ => True := by
  rw [FileStore.writeInfo, FileStore.run_toVec]
  have hwrite : (FsProg.write (s.infoPath b) (s.codec.encode info)).Uses
      (fun o : FsOp => o = .write (s.infoPath b) (s.codec.encode info)) FileStore.AnyAnswer :=
    FileStore.uses_io rfl
  refine (fileTriple_of_uses hwrite hA ?_).conseq (fun _ _ hs => hs) (fun _ _ hs => hs)
    fun _ _ => trivial
  rintro o order m rfl hinv _ hs
  refine ⟨?_, hkept order m hs⟩
  apply keeps_filed hinv ha hb (tidy_record hb hid hold) hnotes _ hpost fun _ _ _ h => by cases h
  intro _ b' hb' _ hmem
  cases (s.path_injective hb hb' (Option.some.inj hmem)).2

/-! ## The client that appends -/

/-- The parts of the upload, unless a deletion has begun. -/
def Holds (s : FileStore) (a : UploadId) (parts : List Bytes) (m : Shared Disk Copies) : Prop :=
  m.notes.deleting = false →
    m.notes.building = false ∧ ∀ n, m.store.content (s.partPath a n) = parts[n]?

variable {parts : List Bytes}

theorem stable_holds : Stable (discipline s a old complete) 1 (Holds s a parts) := by
  intro m m' hrely hs hfree
  obtain ⟨hdeleting, hbuilding, hcontent⟩ := hrely.2 rfl hfree
  obtain ⟨hbuild, hparts⟩ := hs hdeleting
  exact ⟨hbuilding.trans hbuild, fun n => (hcontent (.part n)).trans (hparts n)⟩

theorem holds_filed (hs : Holds s a parts m) (hnotes : Unnoted a call o)
    (ho : ∀ n, s.partPath a n ∉ o.modified) :
    Holds s a parts (m.filed (observer a) order t call o) := by
  obtain ⟨hbuilding, hdeleting, -⟩ := notes_filed t m order hnotes
  intro hfree
  rw [hdeleting] at hfree
  obtain ⟨hbuild, hparts⟩ := hs hfree
  refine ⟨hbuilding.trans hbuild, fun n => ?_⟩
  rw [← hparts n]
  apply Disk.content_interp order o
  rintro p hp rfl
  exact ho n hp

/-- A fact that is known unless a deletion has begun. -/
theorem stable_unless {F : Prop} : Stable (discipline s a old complete) 1
    fun m => (m.notes.deleting = false → F) ∧ Holds s a parts m := by
  intro m m' hrely hs
  exact ⟨fun hfree => hs.1 (hrely.2 rfl hfree).deleting, stable_holds m m' hrely hs.2⟩

/-- The parts are found in their order, unless a deletion has begun. -/
theorem triple_list (ha : a.Valid) (hlen : parts.length ≤ FileStore.U32_BOUND) :
    FileTriple (clients s a h) (discipline s a old complete) 1 (Holds s a parts) call
      (s.listPartPathsSorted a)
      (fun paths m => (∀ p ∈ paths, s.PartOf a p) ∧ (m.notes.deleting = false →
        paths = (List.range parts.length).map (s.partPath a)) ∧ Holds s a parts m)
      fun _ => True := by
  have hholds {m : Shared Disk Copies} (hinv : Sound s a old complete m) (hs : Holds s a parts m)
      (hfree : m.notes.deleting = false) : s.HoldsParts a parts m.store :=
    ⟨hinv.laid, (hs hfree).2⟩
  simp only [FileStore.listPartPathsSorted, FileStore.infoPath, s.parent_path ha, Prog.bind_eq]
  have hfound : FileTriple (clients s a h) (discipline s a old complete) 1 (Holds s a parts) call
      (FsProg.tryExists s.dir)
      (fun found m => (m.notes.deleting = false → found = false → parts = []) ∧ Holds s a parts m)
      fun _ => True := by
    apply triple_look (o := .tryExists s.dir) ⟨.inl rfl, rfl, fun _ h => by cases h⟩ stable_holds
      fun _ => stable_unless
    intro order m found hinv hs hr
    refine ⟨fun hfree hmissing => ?_, hs⟩
    obtain rfl := Except.ok.inj hr
    simp only [Bool.or_eq_false_iff, decide_eq_false_iff_not] at hmissing
    by_contra hne
    have hfirst := (hholds hinv hs hfree).part 0
    rw [List.getElem?_eq_getElem (List.length_pos_iff.mpr hne)] at hfirst
    exact hmissing.1 (hinv.laid.made _ (by rw [hfirst]; exact Option.some_ne_none _))
  apply hfound.bind
  intro found
  cases found with
  | true =>
      have hnames : FileTriple (clients s a h) (discipline s a old complete) 1
          (fun m => (m.notes.deleting = false → true = false → parts = []) ∧ Holds s a parts m) call
          (FsProg.readDir s.dir)
          (fun names m => (m.notes.deleting = false → FileStore.sortedParts a s.dir names =
            (List.range parts.length).map (s.partPath a)) ∧ Holds s a parts m)
          fun _ => True := by
        apply (triple_look (o := .readDir s.dir) (A := Holds s a parts) ⟨rfl, rfl,
          fun _ h => by cases h⟩ stable_holds
          (fun _ => stable_unless) _).conseq (fun _ _ hs => hs.2) (fun _ _ hs => hs) fun _ hs => hs
        intro order m names hinv hs hr
        refine ⟨fun hfree => ?_, hs⟩
        simp only [Disk.interp] at hr
        split at hr
        · obtain rfl := Except.ok.inj hr
          exact hinv.laid.sortedParts_eq ha ((hholds hinv hs hfree).numbers hlen) order
        · cases hr
      apply hnames.bind
      intro names
      exact .ret fun _ _ hs => ⟨s.partOf_sortedParts names, hs⟩
  | false =>
      apply FileTriple.ret
      rintro m - ⟨hnone, hs⟩
      refine ⟨fun p hp => (by cases hp), fun hfree => ?_, hs⟩
      rw [hnone hfree rfl]
      rfl

theorem content_write {d : Disk} {p : Path} {c : Bytes} (hr : (d.write p c).1 = .ok ()) :
    (d.write p c).2.content p = some c := by
  unfold Disk.write at hr ⊢
  split
  · next hdir => simp [hdir] at hr
  · next hdir =>
      split
      · exact Disk.content_put_self ..
      · next hparent => simp [hdir, hparent] at hr

theorem data_not_part (ha : a.Valid) (hb : b.Valid) {n : ℕ} : s.dataPath b ≠ s.partPath a n := by
  intro hpath
  cases (s.path_injective hb ha hpath).2

theorem info_not_part (ha : a.Valid) (n : ℕ) : s.partPath a n ∉ some (s.infoPath a) := by
  intro hmem
  cases (s.path_injective ha ha (Option.some.inj hmem)).2

/-- A chunk becomes the next part. -/
theorem triple_storeChunk {info : UploadInfo} {buf : Bytes} {offset endOffset : ℕ} {reader : Reader}
    (ha : a.Valid) (hid : info.id = a) (hold : info.isPartial = true → old a)
    (hlen : parts.length < FileStore.U32_BOUND) :
    FileTriple (clients s a h) (discipline s a old complete) 1 (Holds s a parts)
      (.writeChunk a offset reader) (s.storeChunk a info buf endOffset)
      (fun _ => Holds s a (parts ++ [buf])) fun _ => True := by
  have hunnoted (o : FsOp) : Unnoted a (.writeChunk a offset reader) o := ⟨nofun, nofun, nofun⟩
  apply (triple_list ha hlen.le).bind
  intro paths
  apply FileTriple.fact
  intro _
  apply (triple_looks (uses_createParent ha (.part _)) stable_unless).bind
  intro _
  have hwrite : FileTriple (clients s a h) (discipline s a old complete) 1
      (fun m => (m.notes.deleting = false →
        paths = (List.range parts.length).map (s.partPath a)) ∧ Holds s a parts m)
      (.writeChunk a offset reader)
      (FsProg.write (s.partPath a (paths.length % FileStore.U32_BOUND)) buf)
      (fun _ => Holds s a (parts ++ [buf])) fun _ => True := by
    apply fileTriple_io stable_unless
    rintro order m hinv - ⟨hpaths, hs⟩
    have htidy : Tidy s old a (.write (s.partPath a (paths.length % FileStore.U32_BOUND)) buf) :=
      tidy_path ha (fun hkind => by cases hkind) (s.direct_path ha (.part _)) rfl
    refine ⟨?_, ?_⟩
    · apply keeps_filed hinv ha ha htidy (hunnoted _) _ (fun ht => absurd rfl ht)
        fun _ _ _ h => by cases h
      intro _ b' hb' _ hmem
      exact absurd (Option.some.inj hmem).symm (data_not_part ha hb')
    · cases hr : (Disk.interp order (.write (s.partPath a (paths.length % FileStore.U32_BOUND)) buf)
          m.store).1 with
      | error e => trivial
      | ok _ =>
          obtain ⟨hbuilding, hdeleting, -⟩ := notes_filed 1 m order
            (hunnoted (.write (s.partPath a (paths.length % FileStore.U32_BOUND)) buf))
          intro hfree
          rw [hdeleting] at hfree
          obtain ⟨hbuild, hparts⟩ := hs hfree
          refine ⟨hbuilding.trans hbuild, fun n => ?_⟩
          have hnext : paths.length % FileStore.U32_BOUND = parts.length := by
            rw [hpaths hfree, List.length_map, List.length_range, Nat.mod_eq_of_lt hlen]
          by_cases hn : n = parts.length
          · subst hn
            rw [List.getElem?_concat_length, ← hnext]
            exact content_write hr
          · have hother : (parts ++ [buf])[n]? = parts[n]? := by
              rcases lt_or_gt_of_ne hn with hlt | hgt
              · exact List.getElem?_append_left hlt
              · rw [List.getElem?_eq_none (by simp; omega), List.getElem?_eq_none (by omega)]
            rw [hother, ← hparts n]
            apply Disk.content_interp order
            rintro p hp rfl
            have hpath := Option.some.inj hp
            rw [hnext] at hpath
            cases (s.path_injective ha ha hpath).2
            exact hn rfl
  apply hwrite.bind
  intro _
  have hrecord : FileTriple (clients s a h) (discipline s a old complete) 1
      (Holds s a (parts ++ [buf]))
      (.writeChunk a offset reader) (s.writeInfo a { info with offset := endOffset })
      (fun _ => Holds s a (parts ++ [buf])) fun _ => True := by
    refine triple_writeInfo ha ha ?_ ?_ (hunnoted _) (fun ht => absurd rfl ht) stable_holds ?_
    · exact hid
    · exact hold
    · exact fun order m hs => holds_filed hs (hunnoted _) (info_not_part ha)
  apply hrecord.bind
  intro _
  exact .ret fun _ _ hs => hs

theorem reader_of_acceptChunk {info : UploadInfo} {offset endOffset : ℕ} {reader : Reader}
    {buf : Bytes}
    (haccept : FileStore.acceptChunk info offset reader = .ok (buf, endOffset)) :
    reader = .ok buf := by
  simp only [FileStore.acceptChunk, bind_eq_ok] at haccept
  obtain ⟨_, -, buf', hread, endOffset', -, heq⟩ := haccept
  obtain ⟨rfl, rfl⟩ := Prod.mk.inj (Except.ok.inj heq)
  cases reader with
  | ok buf'' => exact congrArg Except.ok (Except.ok.inj hread)
  | error e => cases hread

theorem triple_writeChunk {offset : ℕ} {reader : Reader} (ha : a.Valid)
    (hlen : parts.length < FileStore.U32_BOUND) :
    FileTriple (clients s a h) (discipline s a old complete) 1 (Holds s a parts)
      (.writeChunk a offset reader) (s.writeChunk a offset reader)
      (fun _ m => ∃ buf, reader = .ok buf ∧ Holds s a (parts ++ [buf]) m) fun _ => True := by
  apply (triple_readInfo ha stable_holds).bind
  intro info
  apply FileTriple.fact
  rintro ⟨hid, hold⟩
  apply (FileTriple.ofExcept fun _ _ _ => trivial).bind
  rintro ⟨buf, endOffset⟩
  apply FileTriple.fact
  intro haccept
  obtain rfl : reader = .ok buf := reader_of_acceptChunk haccept
  apply (triple_storeChunk ha hid hold hlen).conseq (fun _ _ hs => hs) _ fun _ hs => hs
  exact fun _ m hs => ⟨buf, rfl, hs⟩

theorem triple_declareLength {length : ℕ} (ha : a.Valid) :
    FileTriple (clients s a h) (discipline s a old complete) 1 (Holds s a parts)
      (.declareLength a length) (s.declareLength a length) (fun _ => Holds s a parts)
      fun _ => True := by
  have hunnoted (o : FsOp) : Unnoted a (.declareLength a length) o := ⟨nofun, nofun, nofun⟩
  apply (triple_readInfo ha stable_holds).bind
  intro info
  apply FileTriple.fact
  rintro ⟨hid, hold⟩
  apply (FileTriple.ofExcept fun _ _ _ => trivial).bind
  intro _
  apply FileTriple.fact
  intro _
  refine triple_writeInfo ha ha ?_ ?_ (hunnoted _) (fun ht => absurd rfl ht) stable_holds ?_
  · exact hid
  · exact hold
  · exact fun order m hs => holds_filed hs (hunnoted _) (info_not_part ha)

/-! ### The data file -/

theorem unnoted_finalize (ho : ∀ p, o ≠ .openTruncate p ∧ o ≠ .flush p) :
    Unnoted a (.finalize b) o where
  build _ _ _ := ho
  delete _ _ hcall := by cases hcall
  copy _ _ _ _ hcall := by cases hcall

/-- The data file has been put together up to these sources, unless a
deletion has begun. -/
def Assembling (s : FileStore) (a : UploadId) (total : Bytes) (srcs : List Path)
    (m : Shared Disk Copies) : Prop :=
  m.notes.deleting = false → m.notes.building = true ∧
    ∃ (idxs : List ℕ) (done : Bytes) (rest : List Bytes), srcs = idxs.map (s.partPath a) ∧
      m.store.content (s.dataPath a) = some done ∧
      idxs.map (fun n => m.store.content (s.partPath a n)) = rest.map some ∧
      done ++ rest.flatten = total

variable {total : Bytes} {srcs : List Path}

theorem stable_assembling : Stable (discipline s a old complete) 1 (Assembling s a total srcs) := by
  intro m m' hrely hs hfree
  obtain ⟨hdeleting, hbuilding, hcontent⟩ := hrely.2 rfl hfree
  obtain ⟨hbuild, idxs, done, rest, rfl, hdone, hrest, htotal⟩ := hs hdeleting
  refine ⟨hbuilding.trans hbuild, idxs, done, rest, rfl, (hcontent .data).trans hdone, ?_, htotal⟩
  rw [← hrest]
  exact List.map_congr_left fun n _ => hcontent (.part n)

/-- Opening the data file begins to put it together. -/
theorem triple_openTruncate {paths : List Path} (ha : a.Valid) :
    FileTriple (clients s a h) (discipline s a old complete) 1
      (fun m => (m.notes.deleting = false →
        paths = (List.range parts.length).map (s.partPath a)) ∧ Holds s a parts m)
      (.finalize a) (FsProg.openTruncate (s.dataPath a))
      (fun _ => Assembling s a parts.flatten paths) fun _ => True := by
  apply fileTriple_io stable_unless
  rintro order m hinv - ⟨hpaths, hs⟩
  have htidy : Tidy s old a (.openTruncate (s.dataPath a)) :=
    tidy_path ha (fun hkind => by cases hkind) (s.direct_path ha .data) rfl
  have hbuilding : (m.filed (observer a) order 1 (.finalize a)
      (.openTruncate (s.dataPath a))).notes.building = true := by simp [Shared.filed, observer]
  have hothers {p : Path} (hp : p ≠ s.dataPath a) :
      (Disk.interp order (.openTruncate (s.dataPath a)) m.store).2.content p =
        m.store.content p := by
    apply Disk.content_interp order
    rintro q hq rfl
    exact hp (Option.some.inj hq).symm
  refine ⟨⟨⟨hinv.laid.interp htidy.own.1 htidy.keyed order, fun i hi bytes info => ?_, ?_,
    hinv.copied⟩, fun t' ht => ⟨?_, fun ht' => absurd ht' ht⟩⟩, ?_⟩
  · exact record_filed hinv htidy.faithful hi
  · intro hfree b hb hold hbuild bytes hcontent
    by_cases hba : b = a
    · rw [hbuild hba] at hbuilding
      cases hbuilding
    · refine hinv.data hfree b hb hold (fun heq => absurd heq hba) bytes ?_
      have hne : s.dataPath b ≠ s.dataPath a := fun hpath => hba (s.path_injective hb ha hpath).1
      rw [← hothers hne]
      exact hcontent
  · exact fun _ => ⟨rfl, fun b hb hsome => content_kept nofun hsome⟩
  · cases hr : (Disk.interp order (.openTruncate (s.dataPath a)) m.store).1 with
    | error e => trivial
    | ok _ =>
        intro hfree
        obtain ⟨-, hparts⟩ := hs hfree
        refine ⟨hbuilding, List.range parts.length, [], parts, hpaths hfree,
          content_write hr, ?_, rfl⟩
        apply List.ext_getElem (by simp)
        intro n hn _
        have hlt : n < parts.length := by simpa using hn
        simp only [List.getElem_map, List.getElem_range]
        rw [← List.getElem?_eq_getElem hlt, ← hparts n]
        exact hothers (data_not_part ha ha).symm

/-- Each source is copied to the end of the data file. -/
theorem triple_copyAll (ha : a.Valid) (hsrcs : ∀ p ∈ srcs, s.PartOf a p) :
    FileTriple (clients s a h) (discipline s a old complete) 1 (Assembling s a total srcs)
      (.finalize a) (FileStore.copyAll (s.dataPath a) srcs)
      (fun _ => Assembling s a total []) fun _ => True := by
  induction srcs with
  | nil => exact .ret fun _ _ hs => hs
  | cons src srcs ih =>
      obtain ⟨hsrc, hsrcs⟩ := List.forall_mem_cons.mp hsrcs
      have hdirect : s.Direct src := hsrc.direct ha
      have hopen : (FsProg.openRead src).Uses (Looks s) FileStore.AnyAnswer :=
        FileStore.uses_io (o := .openRead src) ⟨hdirect, rfl, fun _ h => by cases h⟩
      apply (triple_looks hopen stable_assembling).bind
      intro _
      have hcopy : FileTriple (clients s a h) (discipline s a old complete) 1
          (Assembling s a total (src :: srcs)) (.finalize a) (FsProg.copy src (s.dataPath a))
          (fun _ => Assembling s a total srcs) fun _ => True := by
        apply fileTriple_io stable_assembling
        intro order m hinv _ hs
        have htidy : Tidy s old a (.copy src (s.dataPath a)) :=
          tidy_path ha (fun hkind => by cases hkind) ⟨hdirect, s.direct_path ha .data⟩ rfl
        refine ⟨?_, ?_⟩
        · apply keeps_filed hinv ha ha htidy (unnoted_finalize fun _ => ⟨nofun, nofun⟩) _
            (fun ht => absurd rfl ht) fun _ _ _ h => by cases h
          intro hfree b hb _ hmem
          exact ⟨(s.path_injective ha hb (Option.some.inj hmem)).1.symm, (hs hfree).1⟩
        · intro hfree
          obtain ⟨hbuild, idxs, done, rest, hidxs, hdone, hrest, htotal⟩ := hs hfree
          obtain _ | ⟨n, idxs⟩ := idxs
          · cases hidxs
          · obtain ⟨rfl, rfl⟩ := List.cons.inj hidxs
            obtain _ | ⟨c, rest⟩ := rest
            · cases hrest
            · obtain ⟨hc, hrest⟩ := List.cons.inj hrest
              have hdisk : (Disk.interp order (.copy (s.partPath a n) (s.dataPath a)) m.store).2 =
                  m.store.put (s.dataPath a) (done ++ c) := by
                simp only [Disk.interp, Disk.copy, hc, hdone]
              refine ⟨hbuild, idxs, done ++ c, rest, rfl, ?_, ?_, ?_⟩
              · change (Disk.interp order _ m.store).2.content _ = _
                rw [hdisk]
                exact Disk.content_put_self ..
              · rw [← hrest]
                refine List.map_congr_left fun k _ => ?_
                change (Disk.interp order _ m.store).2.content _ = _
                rw [hdisk]
                exact Disk.content_put_of_ne (data_not_part ha ha).symm
              · rw [← htotal, List.flatten_cons, List.append_assoc]
      exact hcopy.bind fun _ => ih hsrcs

/-- Flushing the data file ends it. -/
theorem triple_flush (ha : a.Valid) :
    FileTriple (clients s a h) (discipline s a old complete) 1 (Assembling s a (complete a) [])
      (.finalize a) (FsProg.flush (s.dataPath a)) (fun _ _ => True) fun _ => True := by
  apply fileTriple_io stable_assembling
  intro order m hinv _ hs
  refine ⟨⟨⟨hinv.laid, hinv.record, ?_, hinv.copied⟩, fun t' ht => ⟨?_, fun ht' => absurd ht' ht⟩⟩,
    trivial⟩
  · intro hfree b hb hold _ bytes hcontent
    by_cases hba : b = a
    · subst hba
      obtain ⟨-, idxs, done, rest, hidxs, hdone, hrest, htotal⟩ := hs hfree
      obtain rfl : idxs = [] := List.map_eq_nil_iff.mp hidxs.symm
      obtain rfl : rest = [] := List.map_eq_nil_iff.mp hrest.symm
      rw [List.flatten_nil, List.append_nil] at htotal
      rw [← htotal]
      exact Option.some.inj (hcontent.symm.trans hdone)
    · exact hinv.data hfree b hb hold (fun heq => absurd heq hba) bytes hcontent
  · exact fun _ => ⟨rfl, fun _ _ hsome => hsome⟩

theorem stable_true : Stable (discipline s a old complete) t fun _ => True :=
  fun _ _ _ _ => trivial

/-- The data file of a complete upload is put together from its parts. -/
theorem triple_finalize (ha : a.Valid) (hlen : parts.length ≤ FileStore.U32_BOUND)
    (hparts : parts ≠ []) (hcomplete : complete a = parts.flatten) :
    FileTriple (clients s a h) (discipline s a old complete) 1 (Holds s a parts)
      (.finalize a) (s.finalize a) (fun _ _ => True) fun _ => True := by
  apply (triple_list ha hlen).bind
  intro paths
  apply FileTriple.fact
  intro hpaths
  apply (triple_looks (uses_createParent ha .data) stable_unless).bind
  intro _
  split
  · next hnil =>
      -- nothing is found only if a deletion has begun
      apply fileTriple_io stable_unless
      rintro order m hinv - ⟨hfound, -⟩
      have hdeleting : m.notes.deleting ≠ false := by
        intro hfree
        have hmap := (hnil.symm.trans (hfound hfree)).symm
        rw [List.map_eq_nil_iff, List.range_eq_nil] at hmap
        exact hparts (List.eq_nil_of_length_eq_zero hmap)
      have htidy : Tidy s old a (.write (s.dataPath a) []) :=
        tidy_path ha (fun hkind => by cases hkind) (s.direct_path ha .data) rfl
      refine ⟨?_, ?_⟩
      · apply keeps_filed hinv ha ha htidy (unnoted_finalize fun _ => ⟨nofun, nofun⟩)
          (fun hfree => absurd hfree hdeleting) (fun ht => absurd rfl ht) fun _ _ _ h => by cases h
      · generalize (Disk.interp order (.write (s.dataPath a) []) m.store).1 = r
        cases r <;> trivial
  · apply (triple_openTruncate ha).bind
    intro _
    rw [← hcomplete]
    apply (triple_copyAll ha hpaths).bind
    intro _
    apply (triple_flush ha).bind
    intro _
    have hremove := FileStore.uses_removeAll (U := fun o => ∃ p, s.PartOf a p ∧ o = .removeFile p)
      fun p hp => ⟨p, hpaths p hp, rfl⟩
    refine (fileTriple_of_uses hremove stable_true ?_).conseq (fun _ _ hs => hs) (fun _ _ hs => hs)
      fun _ hs => hs
    rintro o order m ⟨p, hp, rfl⟩ hinv - -
    have hne {b : UploadId} (hb : b.Valid) : p ≠ s.dataPath b := hp.ne_path hb nofun
    refine ⟨?_, trivial⟩
    apply keeps_filed hinv ha ha (tidy_remove (hp.direct ha) hp.own)
      (unnoted_finalize fun _ => ⟨nofun, nofun⟩) _ (fun ht => absurd rfl ht)
    · rintro _ b hb heq
      exact hne hb (FsOp.removeFile.inj heq)
    · intro _ b hb _ hmem
      exact absurd (Option.some.inj hmem) (hne hb)

/-! ### The request -/

theorem triple_aside {p : Handler α} (hp : p.Uses (Calling fun _ => False) fun _ _ => True)
    (hA : Stable (discipline s a old complete) t A) :
    Triple (clients s a h) (discipline s a old complete) t A (fileSteps s.call p) (fun _ => A)
      fun _ => True := by
  refine (fileSteps_of_uses hp hA (fun _ hcall => hcall.elim) ?_).conseq (fun _ _ hs => hs)
    (fun _ _ hs => hs) fun _ _ => trivial
  exact fun _ _ hinv hs => ⟨Keeps.refl hinv, hs⟩

theorem triple_getInfo
    {B : UploadId} (hb : B.Valid) (hA : Stable (discipline s a old complete) t A) :
    Triple (clients s a h) (discipline s a old complete) t A (fileSteps s.call (Handler.getInfo B))
      (fun info m => (info.id = B ∧ (info.isPartial = true → old B)) ∧ A m) fun _ => True :=
  fileSteps_store (o := .getInfo B) (triple_readInfo hb hA)

/-- What is not shared may be used aside. -/
theorem aside_of_unshared (o : HandlerOp) (ho : Unshared o) : Calling (fun _ => False) o :=
  calling_of_unshared o ho

/-- Nothing depends on who holds which lock. -/
theorem keeps_holder (holder : UploadId → Option ℕ) (hinv : Sound s a old complete m) :
    Keeps (discipline s a old complete) t m { m with holder := holder } :=
  ⟨⟨hinv.laid, hinv.record, hinv.data, hinv.copied⟩,
    fun _ _ => ⟨fun _ => ⟨rfl, fun _ _ hsome => hsome⟩, fun _ hfree => ⟨hfree, rfl, fun _ => rfl⟩⟩⟩

theorem triple_finish (ha : a.Valid) (hlen : parts.length ≤ FileStore.U32_BOUND)
    (hparts : parts ≠ []) (hcomplete : complete a = parts.flatten) :
    Triple (clients s a h) (discipline s a old complete) 1 (Holds s a parts)
      (fileSteps s.call (Patch.finish h a)) (fun _ _ => True) fun _ => True := by
  apply fileSteps_then (triple_getInfo ha stable_holds)
  intro newInfo
  apply Triple.fact
  intro _
  apply fileSteps_then (triple_aside (uses_emit trivial) stable_holds)
  intro _
  have hfinish : Triple (clients s a h) (discipline s a old complete) 1 (Holds s a parts)
      (fileSteps s.call (finishIfComplete h a newInfo)) (fun _ _ => True) fun _ => True := by
    unfold finishIfComplete
    split
    · apply fileSteps_then (triple_aside (uses_preFinish aside_of_unshared newInfo) stable_holds)
      intro _
      apply fileSteps_then
        (fileSteps_store (o := .finalize a) (triple_finalize ha hlen hparts hcomplete))
      intro _
      exact triple_aside (uses_emit trivial) stable_true
    · exact .ret fun _ _ _ => trivial
  apply fileSteps_then hfinish
  intro _
  exact .ret fun _ _ _ => trivial

theorem triple_patch {q : TusRequest} (hq : requestId q = .ok a)
    (hlen : parts.length < FileStore.U32_BOUND)
    (hcomplete : ∀ buf, q.body = some (.ok buf) → complete a = (parts ++ [buf]).flatten) :
    Triple (clients s a h) (discipline s a old complete) 1 (Holds s a parts)
      (fileSteps s.call (Patch.handle h q)) (fun _ _ => True) fun _ => True := by
  have ha : a.Valid := valid_of_requestId hq
  unfold Patch.handle
  apply fileSteps_then (fileSteps_check fun _ _ _ => trivial)
  rintro ⟨offset, id⟩
  apply Triple.fact
  intro hparse
  obtain rfl : id = a := Except.ok.inj ((Patch.requestId_of_parse hparse).symm.trans hq)
  apply fileSteps_withLock_unheeded stable_holds (fun _ => stable_true) stable_true
    (fun _ _ => trivial)
  · exact fun m hinv hs => ⟨keeps_holder _ hinv, hs⟩
  · refine fun r m hinv _ => ⟨keeps_holder _ hinv, ?_⟩
    cases r <;> trivial
  · unfold Patch.locked
    apply fileSteps_then (fileSteps_store (o := .getUpload id) (triple_getUpload stable_holds))
    intro _
    apply Triple.fact
    intro _
    apply fileSteps_then (triple_getInfo ha stable_holds)
    intro info
    apply Triple.fact
    intro _
    apply fileSteps_then (triple_aside (uses_ensure _ _) stable_holds)
    intro _
    apply fileSteps_then (triple_aside (uses_ensure _ _) stable_holds)
    intro _
    apply fileSteps_then (triple_aside (uses_checkExpiry aside_of_unshared _) stable_holds)
    intro _
    apply fileSteps_then (triple_aside (uses_check _) stable_holds)
    intro declared
    have hrest : Triple (clients s id h) (discipline s id old complete) 1 (Holds s id parts)
        (fileSteps s.call ((check (Patch.chunkReader h q)).bind fun reader =>
          (Handler.writeChunk id offset reader).bind fun _ => Patch.finish h id))
        (fun _ _ => True) fun _ => True := by
      apply fileSteps_then (fileSteps_check fun _ _ _ => trivial)
      intro reader
      apply Triple.fact
      intro hreader
      apply fileSteps_then (fileSteps_store (o := .writeChunk id offset reader)
        (triple_writeChunk ha hlen))
      rintro n m hinv ⟨buf, rfl, hs⟩
      have hbody := Patch.body_of_chunkReader hreader
      exact triple_finish ha (by simp; omega) (by simp) (hcomplete buf hbody) m hinv hs
    cases declared with
    | none => exact hrest
    | some length =>
        apply fileSteps_then
          (fileSteps_store (o := .declareLength id length) (triple_declareLength ha))
        exact fun _ => hrest

/-! ## The client that joins -/

/-- No deletion has begun. -/
def Undeleted (m : Shared Disk Copies) : Prop := m.notes.deleting = false

theorem stable_undeleted : Stable (discipline s a old complete) 0 Undeleted :=
  fun _ _ hrely hs => (hrely.1 rfl).deleting.trans hs

theorem undeleted_filed (hs : Undeleted m) (ho : Unnoted a call o) :
    Undeleted (m.filed (observer a) order t call o) := (notes_filed t m order ho).2.1.trans hs

/-- A call on a new upload, whose operations are not noted. -/
theorem triple_new {B : UploadId} {p : FsProg α} (ha : a.Valid) (hB : B.Valid) (hold : old a)
    (hnew : ¬ old B) (hp : p.Uses (fun o => Tidy s old B o ∧ Unnoted a call o) fun _ _ => True)
    (hA : Stable (discipline s a old complete) 0 A)
    (hkept : ∀ order o m, Unnoted a call o → A m → A (m.filed (observer a) order 0 call o)) :
    FileTriple (clients s a h) (discipline s a old complete) 0 A call p (fun _ => A) A := by
  apply fileTriple_of_uses hp hA
  rintro o order m ⟨ho, hnotes⟩ hinv - hs
  refine ⟨?_, hkept order o m hnotes hs⟩
  apply keeps_filed hinv ha hB ho hnotes _ _ fun ht => absurd rfl ht
  · intro _ b hb holdb hmem
    have hne : B ≠ b := fun heq => hnew (heq ▸ holdb)
    exact absurd (ho.own.2 _ hmem) (s.path_not_own hB hb fun heq => hne heq.symm)
  · rintro - rfl
    exact hnew hold

/-- A final upload is created under a new id. -/
theorem triple_createUpload {info : UploadInfo} (ha : a.Valid) (hold : old a)
    (hflag : info.isPartial = false) :
    FileTriple (clients s a h) (discipline s a old complete) 0 Undeleted (.createUpload info)
      (s.createUpload info) (fun _ m => (info.id.Valid ∧ ¬ old info.id) ∧ Undeleted m)
      fun _ => True := by
  apply (FileTriple.ofExcept fun _ _ _ => trivial).bind
  intro _
  apply FileTriple.fact
  intro hb
  apply (triple_looks (uses_createParent hb .info) stable_undeleted).bind
  intro _
  rw [FileStore.run_toVec]
  apply fileTriple_io stable_undeleted
  intro order m hinv hallowed hs
  have hnew : ¬ old info.id := hallowed.2 info _ rfl rfl
  have hnotes : Unnoted a (.createUpload info)
      (.write (s.infoPath info.id) (s.codec.encode info)) :=
    ⟨nofun, nofun, nofun⟩
  refine ⟨?_, ?_⟩
  · apply keeps_filed hinv ha hb (tidy_record hb rfl (by simp [hflag])) hnotes _ _
      fun ht => absurd rfl ht
    · intro _ b' hb' _ hmem
      cases (s.path_injective hb hb' (Option.some.inj hmem)).2
    · rintro - rfl
      exact hnew hold
  · generalize (Disk.interp order _ m.store).1 = r
    cases r with
    | ok _ => exact ⟨⟨hb, hnew⟩, undeleted_filed hs hnotes⟩
    | error e => trivial

theorem triple_ensure {cond : Bool} {e : TusError} :
    Triple (clients s a h) (discipline s a old complete) t A (fileSteps s.call (ensure cond e))
      (fun _ m => cond = true ∧ A m) fun _ => True := by
  unfold ensure
  split
  · next hcond => exact .ret fun _ _ hs => ⟨hcond, hs⟩
  · exact .fail fun _ _ _ => trivial

/-- The partials that a final upload names are old uploads. -/
theorem triple_fetchPartialInfos (ids : List UploadId) :
    Triple (clients s a h) (discipline s a old complete) 0 Undeleted
      (fileSteps s.call (Post.fetchPartialInfos ids))
      (fun infos m => (∀ info ∈ infos, old info.id) ∧ Undeleted m) fun _ => True := by
  induction ids with
  | nil => exact .ret fun _ _ hs => ⟨fun info hinfo => (by cases hinfo), hs⟩
  | cons id ids ih =>
      apply fileSteps_then
        (fileSteps_store (o := .getUpload id) (triple_getUpload stable_undeleted))
      intro _
      apply Triple.fact
      intro hid
      apply fileSteps_then (triple_getInfo hid stable_undeleted)
      intro info
      apply Triple.fact
      rintro ⟨rfl, hold⟩
      apply fileSteps_then triple_ensure
      intro _
      apply Triple.fact
      intro hflag
      apply fileSteps_then triple_ensure
      intro _
      apply Triple.fact
      intro _
      apply fileSteps_then ih
      intro infos
      apply Triple.fact
      intro hinfos
      refine .ret fun _ _ hs => ⟨?_, hs⟩
      exact List.forall_mem_cons.mpr ⟨hold hflag, hinfos⟩

theorem copied_filed {i : UploadId} {infos : List UploadInfo} {src dst : Path} :
    (m.filed (observer a) order t (.concatenate i infos) (.copy src dst)).notes =
      { m.notes with copied := (src, m.store.content src) :: m.notes.copied } := rfl

/-- What is copied of an old upload is all of it. -/
theorem triple_copyPartials {B : UploadId} {infos all : List UploadInfo} (ha : a.Valid)
    (hB : B.Valid) (hold : old a) (hnew : ¬ old B) (hinfos : ∀ info ∈ infos, old info.id) :
    FileTriple (clients s a h) (discipline s a old complete) 0 Undeleted (.concatenate B all)
      (s.copyPartials (s.dataPath B) infos) (fun _ => Undeleted) fun _ => True := by
  induction infos with
  | nil => exact .ret fun _ _ hs => hs
  | cons info infos ih =>
      obtain ⟨hinfo, hinfos⟩ := List.forall_mem_cons.mp hinfos
      apply (FileTriple.ofExcept fun _ _ _ => trivial).bind
      intro _
      apply FileTriple.fact
      intro hid
      have hdirect : s.Direct (s.dataPath info.id) := s.direct_path hid .data
      have hthere : Stable (discipline s a old complete) 0
          fun m => m.store.content (s.dataPath info.id) ≠ none ∧ Undeleted m :=
        fun m m' hrely hs => ⟨(hrely.1 rfl).data _ hid hs.1, stable_undeleted m m' hrely hs.2⟩
      have hopen : FileTriple (clients s a h) (discipline s a old complete) 0 Undeleted
          (.concatenate B all) (FsProg.openRead (s.dataPath info.id))
          (fun _ m => m.store.content (s.dataPath info.id) ≠ none ∧ Undeleted m) fun _ => True := by
        apply triple_look (o := .openRead (s.dataPath info.id))
          ⟨hdirect, rfl, fun _ h => by cases h⟩ stable_undeleted fun _ => hthere
        intro order m _ _ hs hr
        refine ⟨fun hnone => ?_, hs⟩
        simp [Disk.interp, Disk.read, hnone, Except.map] at hr
      apply hopen.bind
      intro _
      have hcopy : FileTriple (clients s a h) (discipline s a old complete) 0
          (fun m => m.store.content (s.dataPath info.id) ≠ none ∧ Undeleted m) (.concatenate B all)
          (FsProg.copy (s.dataPath info.id) (s.dataPath B)) (fun _ => Undeleted) fun _ => True := by
        apply fileTriple_io hthere
        intro order m hinv hallowed hs
        have htidy : Tidy s old B (.copy (s.dataPath info.id) (s.dataPath B)) :=
          tidy_path hB (fun hkind => by cases hkind) ⟨hdirect, s.direct_path hB .data⟩ rfl
        refine ⟨?_, hs.2⟩
        apply keeps_noted hinv ha hB htidy rfl rfl _ _ _ fun ht => absurd rfl ht
        · intro e he b hb hsrc
          rw [copied_filed] at he
          rcases List.mem_cons.mp he with rfl | he
          · obtain rfl := (s.path_injective hid hb hsrc).1
            obtain ⟨bytes, hbytes⟩ := Option.ne_none_iff_exists'.mp hs.1
            rw [hinv.data hs.2 _ hid hinfo _ bytes hbytes] at hbytes
            · exact hbytes
            · rintro rfl
              exact hallowed.1 B all (s.dataPath B) rfl
          · exact hinv.copied e he b hb hsrc
        · intro _ b hb holdb hmem
          obtain rfl := (s.path_injective hB hb (Option.some.inj hmem)).1
          exact absurd holdb hnew
        · rintro - rfl
          exact hnew hold
      exact hcopy.bind fun _ => ih hinfos

theorem triple_concatenate {B : UploadId} {infos : List UploadInfo} (ha : a.Valid) (hB : B.Valid)
    (hold : old a) (hnew : ¬ old B) (hinfos : ∀ info ∈ infos, old info.id) :
    FileTriple (clients s a h) (discipline s a old complete) 0 Undeleted (.concatenate B infos)
      (s.concatenate B infos) (fun _ => Undeleted) fun _ => True := by
  have hunnoted {o : FsOp} (ho : ∀ src dst, o ≠ .copy src dst) :
      Unnoted a (.concatenate B infos) o := ⟨nofun, nofun, fun _ _ src dst _ => ho src dst⟩
  have hone {o : FsOp} (ho : Tidy s old B o) (hcopy : ∀ src dst, o ≠ .copy src dst) :
      FileTriple (clients s a h) (discipline s a old complete) 0 Undeleted (.concatenate B infos)
        (FsProg.io o) (fun _ => Undeleted) fun _ => True :=
    (triple_new ha hB hold hnew (FileStore.uses_io ⟨ho, hunnoted hcopy⟩) stable_undeleted
      fun _ _ _ hnotes hs => undeleted_filed hs hnotes).conseq (fun _ _ hs => hs) (fun _ _ hs => hs)
        fun _ _ => trivial
  apply (triple_looks (uses_createParent hB .data) stable_undeleted).bind
  intro _
  have htruncate : Tidy s old B (.openTruncate (s.dataPath B)) :=
    tidy_path hB (fun hkind => by cases hkind) (s.direct_path hB .data) rfl
  apply (hone htruncate nofun).bind
  intro _
  apply (triple_copyPartials ha hB hold hnew hinfos).bind
  intro _
  apply (hone (tidy_looks (o := .flush (s.dataPath B)) (s.direct_path hB .data) rfl) nofun).bind
  intro _
  apply (triple_readInfo hB stable_undeleted).bind
  intro info
  apply FileTriple.fact
  rintro ⟨hid, hflag⟩
  refine triple_writeInfo ha hB ?_ ?_ (hunnoted nofun) ?_ stable_undeleted ?_
  · exact hid
  · exact hflag
  · rintro - rfl
    exact hnew hold
  · exact fun order m hs => undeleted_filed hs (hunnoted nofun)

/-- The first chunk of the new upload. -/
theorem triple_writeFirst {B : UploadId} {offset : ℕ} {reader : Reader} (ha : a.Valid)
    (hB : B.Valid) (hold : old a) (hnew : ¬ old B) :
    FileTriple (clients s a h) (discipline s a old complete) 0 (fun _ => True)
      (.writeChunk B offset reader) (s.writeChunk B offset reader) (fun _ _ => True)
      fun _ => True := by
  have hunnoted (o : FsOp) : Unnoted a (.writeChunk B offset reader) o := ⟨nofun, nofun, nofun⟩
  have hlist : FileTriple (clients s a h) (discipline s a old complete) 0 (fun _ => True)
      (.writeChunk B offset reader) (s.listPartPathsSorted B) (fun _ _ => True) fun _ => True := by
    apply triple_new ha hB hold hnew _ stable_true fun _ _ _ _ hs => hs
    exact (s.uses_listPartPathsSorted (fun o ho hmodified =>
      ⟨tidy_looks ho hmodified, hunnoted o⟩) hB).1
  apply (triple_readInfo hB stable_true).bind
  intro info
  apply FileTriple.fact
  rintro ⟨hid, hflag⟩
  apply (FileTriple.ofExcept fun _ _ _ => trivial).bind
  rintro ⟨buf, endOffset⟩
  apply FileTriple.fact
  intro _
  apply hlist.bind
  intro paths
  apply (triple_looks (uses_createParent hB (.part _)) stable_true).bind
  intro _
  have hpart : FileTriple (clients s a h) (discipline s a old complete) 0 (fun _ => True)
      (.writeChunk B offset reader)
      (FsProg.write (s.partPath B (paths.length % FileStore.U32_BOUND)) buf) (fun _ _ => True)
      fun _ => True := by
    apply triple_new ha hB hold hnew _ stable_true fun _ _ _ _ hs => hs
    apply FileStore.uses_io
    exact ⟨tidy_path hB (fun hkind => by cases hkind) (s.direct_path hB (.part _)) rfl, hunnoted _⟩
  apply hpart.bind
  intro _
  have hrecord : FileTriple (clients s a h) (discipline s a old complete) 0 (fun _ => True)
      (.writeChunk B offset reader) (s.writeInfo B { info with offset := endOffset })
      (fun _ _ => True) fun _ => True := by
    refine triple_writeInfo ha hB ?_ ?_ (hunnoted _) ?_ stable_true fun _ _ hs => hs
    · exact hid
    · exact hflag
    · rintro - rfl
      exact hnew hold
  apply hrecord.bind
  intro _
  exact .ret fun _ _ hs => hs

/-- The data file of the new upload. -/
theorem triple_finalizeFirst {B : UploadId} (ha : a.Valid) (hB : B.Valid) (hold : old a)
    (hnew : ¬ old B) :
    FileTriple (clients s a h) (discipline s a old complete) 0 (fun _ => True) (.finalize B)
      (s.finalize B) (fun _ _ => True) fun _ => True := by
  have hne : B ≠ a := fun heq => hnew (heq ▸ hold)
  have hunnoted (o : FsOp) : Unnoted a (.finalize B) o :=
    ⟨fun i hi heq => absurd ((StoreOp.finalize.inj hi).trans heq) hne, nofun, nofun⟩
  have hdata {o : FsOp} (ho : s.Within o) (hmodified : o.modified = some (s.dataPath B)) :
      Tidy s old B o := tidy_path hB (fun hkind => by cases hkind) ho hmodified
  have hdirect := s.direct_path hB .data
  apply triple_new ha hB hold hnew _ stable_true fun _ _ _ _ hs => hs
  apply s.uses_finalize (fun o ho hmodified => ⟨tidy_looks ho hmodified, hunnoted o⟩) hB
  · exact ⟨hdata hdirect rfl, hunnoted _⟩
  · exact ⟨hdata hdirect rfl, hunnoted _⟩
  · exact fun p hp => ⟨hdata ⟨hp.direct hB, hdirect⟩ rfl, hunnoted _⟩
  · exact fun p hp => ⟨tidy_remove (hp.direct hB) hp.own, hunnoted _⟩

/-- With the first deletion there is nothing left to keep. -/
theorem keeps_deletion {p : Path} (hinv : Sound s a old complete m) (hp : s.Direct p) :
    Keeps (discipline s a old complete) 0 m
      (m.filed (observer a) order 0 (.delete b) (.removeFile p)) := by
  have hdeleting :
      (m.filed (observer a) order 0 (.delete b) (.removeFile p)).notes.deleting = true := rfl
  have hlaid := hinv.laid.interp (o := .removeFile p) hp (.inl ⟨p, rfl⟩) order
  refine ⟨⟨hlaid, fun i hi bytes info => ?_, ?_, hinv.copied⟩, fun t' ht =>
    ⟨fun ht' => absurd ht' ht, ?_⟩⟩
  · exact record_filed hinv (fun _ _ _ => .inl ⟨p, rfl⟩) hi
  · intro hfree
    rw [hdeleting] at hfree
    cases hfree
  · intro _ hfree
    rw [hdeleting] at hfree
    cases hfree

theorem triple_delete (hb : b.Valid) :
    FileTriple (clients s a h) (discipline s a old complete) 0 (fun _ => True) (.delete b)
      (s.delete b) (fun _ _ => True) fun _ => True := by
  have huses : (s.delete b).Uses
      (fun o : FsOp => s.Within o ∧ o.modified = none ∨ ∃ p, s.Direct p ∧ o = .removeFile p)
      FileStore.AnyAnswer := by
    apply s.uses_delete (fun o ho hmodified => .inl ⟨ho, hmodified⟩) hb
    · exact .inr ⟨_, s.direct_path hb .data, rfl⟩
    · exact .inr ⟨_, s.direct_path hb .info, rfl⟩
    · exact fun p hp => .inr ⟨p, hp.direct hb, rfl⟩
  apply fileTriple_of_uses huses stable_true
  rintro o order m ho hinv - -
  rcases ho with ⟨hwithin, hmodified⟩ | ⟨p, hp, rfl⟩
  · have hunnoted : Unnoted a (.delete b) o := by
      refine ⟨nofun, ?_, nofun⟩
      rintro i p - rfl
      cases hmodified
    exact ⟨(keeps_looks hwithin hmodified hunnoted hinv).1, trivial⟩
  · exact ⟨keeps_deletion hinv hp, trivial⟩

/-! ### The request -/

theorem triple_settle (info : UploadInfo) :
    Triple (clients s a h) (discipline s a old complete) 0 Undeleted
      (fileSteps s.call (preCreate h info))
      (fun info' m => info'.isPartial = info.isPartial ∧ Undeleted m) fun _ => True := by
  have hreturns : (preCreate h info).Returns (fun _ _ => True)
      fun info' => info'.isPartial = info.isPartial := by
    unfold preCreate
    split
    · refine fun r _ => (Prog.returns_true _).bind fun changes _ => ?_
      exact (Prog.returns_true _).bind fun _ _ => rfl
    · rfl
  refine (fileSteps_of_returns (uses_preCreate aside_of_unshared info) hreturns stable_undeleted
    (fun _ hcall => hcall.elim) ?_).conseq (fun _ _ hs => hs) (fun _ _ hs => hs) fun _ _ => trivial
  exact fun _ _ hinv hs => ⟨Keeps.refl hinv, hs⟩

theorem triple_assemble {p : Post.Parsed} {info : UploadInfo} (ha : a.Valid) (hid : info.id.Valid)
    (hold : old a) (hnew : ¬ old info.id) :
    Triple (clients s a h) (discipline s a old complete) 0 Undeleted
      (fileSteps s.call (Post.assemble h p info)) (fun _ => Undeleted) fun _ => True := by
  unfold Post.assemble
  split
  · apply fileSteps_then (triple_fetchPartialInfos _)
    intro infos
    apply Triple.fact
    intro hinfos
    exact fileSteps_store (o := .concatenate info.id infos)
      (triple_concatenate ha hid hold hnew hinfos)
  · exact .ret fun _ _ hs => hs

theorem triple_cleanupPartials (ids : List UploadId) :
    Triple (clients s a h) (discipline s a old complete) 0 (fun _ => True)
      (fileSteps s.call (Post.cleanupPartials h ids)) (fun _ _ => True) fun _ => True := by
  induction ids with
  | nil => exact .ret fun _ _ hs => hs
  | cons id ids ih =>
      apply fileSteps_then (fileSteps_store (o := .getUpload id) (triple_getUpload stable_true))
      intro _
      apply Triple.fact
      intro hid
      have hrest : Triple (clients s a h) (discipline s a old complete) 0 (fun _ => True)
          (fileSteps s.call ((Handler.delete id).bind fun _ =>
            (emit h (.uploadTerminated id)).bind fun _ => Post.cleanupPartials h ids))
          (fun _ _ => True) fun _ => True := by
        apply fileSteps_then (fileSteps_store (o := .delete id) (triple_delete hid))
        intro _
        apply fileSteps_then (triple_aside (uses_emit trivial) stable_true)
        exact fun _ => ih
      split
      · simp only [Prog.bind_eq]
        apply fileSteps_then (triple_getInfo hid stable_true)
        intro info
        apply Triple.fact
        intro _
        apply fileSteps_then (triple_aside (uses_preTerminate aside_of_unshared info) stable_true)
        exact fun _ => hrest
      · exact hrest

theorem triple_fill {q : TusRequest} {p : Post.Parsed} {info : UploadInfo} (ha : a.Valid)
    (hid : info.id.Valid) (hold : old a) (hnew : ¬ old info.id) :
    Triple (clients s a h) (discipline s a old complete) 0 Undeleted
      (fileSteps s.call (Post.fill h q p info)) (fun _ _ => True) fun _ => True := by
  apply fileSteps_then (triple_assemble ha hid hold hnew)
  intro _
  have hbody : Triple (clients s a h) (discipline s a old complete) 0 Undeleted
      (fileSteps s.call (Post.writeBody h q info.id)) (fun _ _ => True) fun _ => True := by
    unfold Post.writeBody
    split
    · next body _ =>
        apply (fileSteps_store (o := .writeChunk info.id 0 body)
          (triple_writeFirst ha hid hold hnew)).pre
        exact fun _ _ _ => trivial
    · exact .ret fun _ _ _ => trivial
  apply fileSteps_then hbody
  intro bytesWritten
  apply fileSteps_then (triple_getInfo hid stable_true)
  intro finalInfo
  apply Triple.fact
  intro _
  apply fileSteps_then (triple_aside (uses_check _) stable_true)
  intro _
  have hcleanup : Triple (clients s a h) (discipline s a old complete) 0 (fun _ => True)
      (fileSteps s.call (Post.cleanup h p info.id finalInfo)) (fun _ _ => True) fun _ => True := by
    unfold Post.cleanup
    split
    · apply fileSteps_then (triple_cleanupPartials _)
      intro _
      apply (triple_getInfo hid stable_true).conseq (fun _ _ hs => hs) _ fun _ hs => hs
      exact fun _ _ _ => trivial
    · exact .ret fun _ _ _ => trivial
  apply fileSteps_then hcleanup
  intro finalInfo
  apply fileSteps_then (triple_aside (uses_emit trivial) stable_true)
  intro _
  have hfinish : Triple (clients s a h) (discipline s a old complete) 0 (fun _ => True)
      (fileSteps s.call (finishIfComplete h info.id finalInfo)) (fun _ _ => True)
        fun _ => True := by
    unfold finishIfComplete
    split
    · apply fileSteps_then (triple_aside (uses_preFinish aside_of_unshared finalInfo) stable_true)
      intro _
      apply fileSteps_then
        (fileSteps_store (o := .finalize info.id) (triple_finalizeFirst ha hid hold hnew))
      intro _
      exact triple_aside (uses_emit trivial) stable_true
    · exact .ret fun _ _ _ => trivial
  apply fileSteps_then hfinish
  intro _
  apply fileSteps_then (triple_aside (uses_check _) stable_true)
  intro _
  exact .ret fun _ _ _ => trivial

theorem triple_post {q : TusRequest} {p : Post.Parsed} (hparse : Post.parseRequest h q = .ok p)
    (hfinal : p.isFinal = true) (ha : a.Valid) (hold : old a) :
    Triple (clients s a h) (discipline s a old complete) 0 Undeleted
      (fileSteps s.call (Post.handle h q)) (fun _ _ => True) fun _ => True := by
  unfold Post.handle
  rw [hparse]
  have hflag := Post.isPartial_of_isFinal hparse hfinal
  apply fileSteps_then (triple_aside (uses_newUuid aside_of_unshared) stable_undeleted)
  intro uuid
  apply fileSteps_then (fileSteps_check fun _ _ _ => trivial)
  intro built
  apply Triple.fact
  intro hbuilt
  apply fileSteps_then (triple_aside (uses_expiry aside_of_unshared) stable_undeleted)
  intro expiresAt
  apply fileSteps_then (triple_settle _)
  intro info
  apply Triple.fact
  intro hinfo
  have hplain : built.isPartial = false := by
    simp only [Post.buildInfo, bind_eq_ok] at hbuilt
    obtain ⟨ids, -, heq⟩ := hbuilt
    obtain rfl := Except.ok.inj heq
    exact hflag
  apply fileSteps_then
    (fileSteps_store (o := .createUpload info) (triple_createUpload ha hold (hinfo.trans hplain)))
  intro _
  apply Triple.fact
  exact fun hid => triple_fill ha hid.1 hold hid.2

/-! ## Runs -/

variable (s a) in
/-- The data file is not copied while `finalize` puts it together. -/
def Waits (c : FileClients Copies) (m : Move TusRequest ℕ (Env × Listing)) : Prop :=
  ∀ t x q i infos dst k, m = .step t x →
    c.threads t = .running q (.op (.file (.concatenate i infos) (.copy (s.dataPath a) dst)) k) →
    c.shared.notes.building = false

variable (s) in
/-- No upload is created under an id that has a record in `d`. -/
def Fresh (d : Disk) (c : FileClients Copies) (m : Move TusRequest ℕ (Env × Listing)) : Prop :=
  ∀ t x q info o k, m = .step t x → c.threads t = .running q
    (.op (.file (.createUpload info) o) k) →
    o.modified.isSome → d.content (s.infoPath info.id) = none

variable (a h) in
/-- Client 1 appends `body` to the upload, and client 0 creates a final upload. -/
def Admits (body : Bytes) (m : Move TusRequest ℕ (Env × Listing)) : Prop :=
  ∀ t q, m = .start t q →
    (t = 1 ∧ q.method = .patch ∧ requestId q = .ok a ∧ q.body = some (.ok body)) ∨
      t = 0 ∧ q.method = .post ∧ ∃ p, Post.parseRequest h q = .ok p ∧ p.isFinal = true

variable (s a) in
/-- The content of each upload once `body` is appended. -/
def whole (d : Disk) (parts : List Bytes) (body : Bytes) (b : UploadId) : Bytes :=
  if b = a then (parts ++ [body]).flatten else (d.content (s.dataPath b)).getD []

theorem copied_complete {d : Disk} {body : Bytes} {c : FileClients Copies} (ha : a.Valid)
    (hd : s.HoldsParts a parts d) (hlen : parts.length < FileStore.U32_BOUND)
    (hrecord : d.content (s.infoPath a) ≠ none) (hdata : d.content (s.dataPath a) = none)
    (hnamed : ∀ i : UploadId, i.Valid → ∀ bytes info, d.content (s.infoPath i) = some bytes →
      s.codec.fromSlice bytes = .ok info → info.id = i)
    (hc : Reach (clients s a h) (fun c m => Waits s a c m ∧ Fresh s d c m ∧ Admits a h body m)
      (onDisk d .none) c) :
    ∀ b : UploadId, b.Valid → ∀ r, (s.dataPath b, r) ∈ c.shared.notes.copied →
      r = some (whole s a d parts body b) := by
  have hcomplete : whole s a d parts body a = (parts ++ [body]).flatten := if_pos rfl
  let D := discipline s a (fun i => d.content (s.infoPath i) ≠ none) (whole s a d parts body)
  let start (t : ℕ) (m : Shared Disk Copies) : Prop :=
    (t = 0 → Undeleted m) ∧ (t = 1 → Holds s a parts m)
  have hsound : D.inv (onDisk d Copies.none).shared := by
    refine ⟨hd.1, ?_, ?_, fun e he => (by cases he)⟩
    · intro i hi bytes info hcontent hinfo
      exact ⟨hnamed i hi bytes info hcontent hinfo, fun _ hnone => by
        change d.content _ = _ at hcontent
        rw [hnone] at hcontent
        cases hcontent⟩
    · intro _ b hb _ _ bytes hcontent
      change d.content _ = _ at hcontent
      unfold whole
      split
      · next hba =>
          rw [hba, hdata] at hcontent
          cases hcontent
      · rw [hcontent]
        rfl
  have hsecured := Reach.secured_from (D := D) (A := fun _ _ _ _ => True) (I := start)
    (fun _ _ _ => stable_true) ?_ ?_ ?_ (fun _ _ _ _ hinv _ => ⟨Keeps.refl hinv, trivial⟩)
      ?_ hsound hc
  · exact fun b hb r hr => hsecured.1.copied _ hr b hb rfl
  · intro t m m' hrely hs
    refine ⟨?_, ?_⟩
    · rintro rfl
      exact stable_undeleted m m' hrely (hs.1 rfl)
    · rintro rfl
      exact stable_holds m m' hrely (hs.2 rfl)
  · rintro c m ⟨hwaits, hfresh, -⟩ t x q o k rfl hrunning
    refine ⟨?_, ?_⟩
    · rintro i infos dst rfl
      exact hwaits t x q i infos dst k rfl hrunning
    · rintro info o' rfl hsome
      exact not_not_intro (hfresh t x q info o' k rfl hrunning hsome)
  · rintro c t q ⟨-, -, hadmits⟩ hinv hs
    refine ⟨Keeps.refl hinv, ?_⟩
    rcases hadmits t q rfl with ⟨rfl, hmethod, hid, hbody⟩ | ⟨rfl, hmethod, p, hparse, hfinal⟩
    · have hpatch : Triple (clients s a h) D 1 (Holds s a parts) (fileSteps s.call (h.handle q))
          (fun _ _ => True) fun _ => True := by
        apply fileSteps_handle _ fun _ _ _ => trivial
        unfold TusHandler.dispatch
        rw [hmethod]
        apply triple_patch hid hlen
        intro buf hbuf
        obtain rfl := Except.ok.inj (Option.some.inj (hbody.symm.trans hbuf))
        exact hcomplete
      exact (hpatch _ hinv (hs.2 rfl)).mono fun _ _ _ => trivial
    · have hpost : Triple (clients s a h) D 0 Undeleted (fileSteps s.call (h.handle q))
          (fun _ _ => True) fun _ => True := by
        apply fileSteps_handle _ fun _ _ _ => trivial
        unfold TusHandler.dispatch
        rw [hmethod]
        exact triple_post hparse hfinal ha hrecord
      exact (hpost _ hinv (hs.1 rfl)).mono fun _ _ _ => trivial
  · exact fun t => ⟨rfl, fun _ => rfl, fun _ _ => ⟨rfl, hd.2⟩⟩

namespace Late

open FileStore (uploads)

def handler : TusHandler := ⟨{ extensions := { concatenation := true } }, true, .fixed⟩

/-- A partial upload of one byte, none of which has arrived. -/
def info : UploadInfo := { UploadInfo.new ⟨"a".toList⟩ (some 1) with isPartial := true }

def disk : Disk :=
  Disk.put ⟨∅, [uploads.dir]⟩ (uploads.infoPath info.id) (uploads.codec.encode info)

def patch : TusRequest :=
  .ofTexts .patch (some "a") [(.tusResumable, "1.0.0"),
    (.contentType, "application/offset+octet-stream"), (.uploadOffset, "0")] (some [97])

def final : TusRequest :=
  .ofTexts .post none [(.tusResumable, "1.0.0"), (.uploadConcat, "final;/files/a")] none

def steps (t n : ℕ) : List (Move TusRequest ℕ (Env × Listing)) :=
  List.replicate n (.step t (.permissive .b, ⟨List.reverse, List.reverse_perm⟩))

/-- The final upload is created while the chunk arrives, and joins the
partial once its data file is there. -/
def run : List (Move TusRequest ℕ (Env × Listing)) :=
  .start 0 final :: steps 0 3 ++ .start 1 patch :: steps 1 17 ++ steps 0 6

/-- Whether a move may be part of the run. -/
def admits (c : FileClients Copies) : Move TusRequest ℕ (Env × Listing) → Bool
  | .start t q =>
    t == 1 && q.method == .patch && (requestId q).toOption == some info.id &&
        q.body.any (fun body => body.toOption == some [97]) ||
      t == 0 && q.method == .post &&
        (Post.parseRequest handler q).toOption.any fun p => p.isFinal
  | .step t _ =>
    match c.threads t with
    | .running _ (.op (.file (.concatenate _ _) (.copy _ _)) _) => !c.shared.notes.building
    | .running _ (.op (.file (.createUpload info) o) _) =>
      !o.modified.isSome || disk.content (uploads.infoPath info.id) == none
    | _ => true
  | .finish _ => true

theorem admits_move {c : FileClients Copies} {m : Move TusRequest ℕ (Env × Listing)}
    (hm : admits c m = true) :
    Waits uploads info.id c m ∧ Fresh uploads disk c m ∧ Admits info.id handler [97] m := by
  refine ⟨?_, ?_, ?_⟩
  · rintro t x q i infos dst k rfl hrunning
    simpa [admits, hrunning] using hm
  · rintro t x q info o k rfl hrunning hsome
    simpa [admits, hrunning, hsome] using hm
  · rintro t q rfl
    simp only [admits, Bool.or_eq_true, Bool.and_eq_true, beq_iff_eq, Option.any_eq_true] at hm
    rcases hm with ⟨⟨⟨ht, hmethod⟩, hid⟩, body, hbody, hbytes⟩ | ⟨⟨ht, hmethod⟩, p, hparse, hfinal⟩
    · exact .inl ⟨ht, hmethod, ok_of_toOption hid,
        hbody.trans (congrArg some (ok_of_toOption hbytes))⟩
    · exact .inr ⟨ht, hmethod, p, ok_of_toOption hparse, hfinal⟩

theorem evaluated :
    (checked (clients uploads info.id handler) admits run (onDisk disk .none)).map
      (fun c => c.shared.notes.copied) = some [(uploads.dataPath info.id, some [97])] := by
  rw [FileStore.uploads_eq]
  decide +kernel

theorem valid : info.id.Valid := by decide +kernel

theorem content_disk (p : Path) : disk.content p =
    if p = uploads.infoPath info.id then some (uploads.codec.encode info) else none := by
  split
  · next hp =>
      rw [hp]
      exact Disk.content_put_self ..
  · next hp => exact Disk.content_put_of_ne hp

theorem recorded_disk {p : Path} (hp : disk.content p ≠ none) : p = uploads.infoPath info.id := by
  rw [content_disk] at hp
  by_contra hne
  exact hp (if_neg hne)

theorem holds_disk : uploads.HoldsParts info.id [] disk where
  laid := {
    known := fun p hp => ⟨info.id, .info, valid, recorded_disk hp⟩
    dirs := fun q hq => by
      obtain rfl := List.mem_singleton.mp hq
      exact List.prefix_refl _
    made := fun _ _ => List.mem_singleton_self _ }
  part n := by
    rw [content_disk, if_neg]
    · rfl
    · intro hpath
      cases (uploads.path_injective valid valid hpath).2

theorem named_disk {i : UploadId} (hi : i.Valid) {bytes : Bytes} {info' : UploadInfo}
    (hcontent : disk.content (uploads.infoPath i) = some bytes)
    (hinfo : uploads.codec.fromSlice bytes = .ok info') : info'.id = i := by
  have hpath := recorded_disk (by rw [hcontent]; exact Option.some_ne_none _)
  obtain rfl := (uploads.path_injective hi valid hpath).1
  rw [content_disk, if_pos rfl] at hcontent
  obtain rfl := Option.some.inj hcontent
  rw [uploads.codec.fromSlice_encode] at hinfo
  rw [← Except.ok.inj hinfo]

end Late

open Late FileStore in
theorem copied_complete_late : ∃ c,
    checked (clients uploads info.id handler) admits run (onDisk disk .none) = some c ∧
      c.shared.notes.copied = [(uploads.dataPath info.id, some [97])] ∧
      whole uploads info.id disk [] [97] info.id = [97] := by
  obtain ⟨c, hc, hcopied⟩ := Option.map_eq_some_iff.mp evaluated
  refine ⟨c, hc, hcopied, ?_⟩
  have hreach := reach_of_checked (fun _ _ => admits_move) .refl hc
  have hrecord : disk.content (uploads.infoPath info.id) ≠ none := by
    rw [content_disk, if_pos rfl]
    exact Option.some_ne_none _
  have hdata : disk.content (uploads.dataPath info.id) = none := by
    rw [content_disk, if_neg]
    intro hpath
    cases (uploads.path_injective valid valid hpath).2
  have hall := copied_complete valid holds_disk (by decide) hrecord hdata (fun _ => named_disk)
    hreach info.id valid
  exact (Option.some.inj (hall _ (by rw [hcopied]; exact List.mem_singleton_self _))).symm

end Joining

end Fileloft
