import Fileloft.Fs.Store

/-!
# Paths of the file store

Every path a call builds lies directly in the directory of the store, and
the paths of two uploads are different. So a call leaves the files of every
other upload alone, whatever the directory holds.
-/

namespace Fileloft

namespace FileStore

variable (s : FileStore) {id a b : UploadId}

/-- The directory named by the root and the prefix. -/
def dir : Path := s.keyToPath s.keyPrefix

theorem dir_ne_nil : s.dir ≠ [] := by
  simp [dir, keyToPath, s.rooted]

theorem keyToPath_name {name : Str} (hname : UploadId.IsFileName name) :
    s.keyToPath (s.keyPrefix ++ name) = s.dir ++ [name] := by
  have hsplit : name.splitOn '/' = [name] := List.splitOn_eq_singleton hname.no_slash
  rcases s.slashed with hnil | hlast
  · simp [dir, keyToPath, hnil, hsplit, hname.ne_nil]
  · obtain ⟨front, hfront⟩ := List.getLast?_eq_some_iff.mp hlast
    have hboth : (front ++ '/' :: name).splitOn '/' = front.splitOn '/' ++ name.splitOn '/' :=
      List.splitOn_append_cons_of_beq _ _ (by simp)
    have hend : (front ++ '/' :: []).splitOn '/' = front.splitOn '/' ++ [].splitOn '/' :=
      List.splitOn_append_cons_of_beq _ _ (by simp)
    simp [dir, keyToPath, hfront, hboth, hend, hsplit, hname.ne_nil]

theorem path_eq (ha : a.Valid) (kind : KeyKind) : s.path a kind = s.dir ++ [a.key kind] :=
  s.keyToPath_name (ha.isFileName kind)

/-- No two accepted ids share a path, and no two kinds do. -/
theorem path_injective {k l : KeyKind} (ha : a.Valid) (hb : b.Valid)
    (h : s.path a k = s.path b l) : a = b ∧ k = l := by
  rw [s.path_eq ha, s.path_eq hb] at h
  exact UploadId.key_injective ha hb (by simpa using h)

/-- `p` lies directly in the directory of the store. -/
def Direct (p : Path) : Prop := ∃ name, UploadId.IsFileName name ∧ p = s.dir ++ [name]

theorem direct_path (ha : a.Valid) (kind : KeyKind) : s.Direct (s.path a kind) :=
  ⟨a.key kind, ha.isFileName kind, s.path_eq ha kind⟩

theorem parent_path (ha : a.Valid) (kind : KeyKind) : parent (s.path a kind) = some s.dir := by
  simp [parent, s.path_eq ha]

/-- The operation stays in the directory of the store. -/
def Within : FsOp → Prop
  | .createDirAll p => p = s.dir
  | .readDir p => p = s.dir
  | .tryExists p => p = s.dir ∨ s.Direct p
  | .copy src dst => s.Direct src ∧ s.Direct dst
  | .read p => s.Direct p
  | .write p _ => s.Direct p
  | .removeFile p => s.Direct p
  | .openTruncate p => s.Direct p
  | .openRead p => s.Direct p
  | .flush p => s.Direct p

end FileStore

/-- The file an operation may change. -/
def FsOp.modified : FsOp → Option Path
  | .write p _ => some p
  | .removeFile p => some p
  | .openTruncate p => some p
  | .copy _ dst => some dst
  | _ => none

namespace Disk

variable {d : Disk} {p q : Path}

@[simp] theorem content_put_self (content : Bytes) : (d.put p content).content p = some content :=
  AList.lookup_insert ..

@[simp] theorem content_put_of_ne {content : Bytes} (hne : q ≠ p) :
    (d.put p content).content q = d.content q :=
  AList.lookup_insert_ne hne

theorem content_write_of_ne {content : Bytes} (hne : q ≠ p) :
    (d.write p content).2.content q = d.content q := by
  unfold write
  split
  · rfl
  · split
    · exact content_put_of_ne hne
    · rfl

/-- An operation changes no file but the one it names. -/
theorem content_interp (order : Listing) (o : FsOp) (hne : ∀ q ∈ o.modified, q ≠ p) :
    (interp order o d).2.content p = d.content p := by
  cases o with
  | write q content => exact content_write_of_ne (hne q rfl).symm
  | openTruncate q => exact content_write_of_ne (hne q rfl).symm
  | createDirAll q =>
      simp only [interp, createDirAll]
      split <;> rfl
  | removeFile q =>
      simp only [interp, removeFile]
      split
      · exact AList.lookup_erase_ne (hne q rfl).symm
      · split <;> rfl
  | copy src dst =>
      simp only [interp, copy]
      split
      · exact content_put_of_ne (hne dst rfl).symm
      · rfl
  | read _ | tryExists _ | readDir _ | openRead _ | flush _ => rfl

end Disk

namespace FileStore

variable (s : FileStore) {id a b : UploadId}

/-- A path a call on `a` may change: a key of `a`, or an entry listed as one
of its parts. -/
def Own (a : UploadId) (p : Path) : Prop :=
  ∃ name, p = s.dir ++ [name] ∧ ((∃ kind, name = a.key kind) ∨ (partIndex a name).isSome)

/-- A listed entry with the name of a key of an accepted id is a part of the
upload it was listed for. -/
theorem partIndex_key {k : KeyKind} {n : ℕ} (hb : b.Valid) (h : partIndex a (b.key k) = some n) :
    a = b ∧ k = .part n := by
  unfold partIndex at h
  split at h
  · next rest hstrip =>
      obtain ⟨hbound, hchars⟩ := Text.parseUInt_eq_some h
      have hkey : b.key k = a.val ++ ("_part_".toList ++ rest) := by
        simpa using Text.strip_eq_some_iff.mp hstrip
      have hdigits : ∀ c ∈ rest, c.isDigit = true := by
        intro c hc
        refine (hchars c hc).resolve_right fun hplus => ?_
        have halphabet := hb.key_alphabet (k := k) c (by simp [hkey, hc])
        rw [hplus] at halphabet
        revert halphabet
        decide
      have hne : rest ≠ [] := by
        rintro rfl
        simp [Text.parseUInt, Text.unsigned] at h
      obtain ⟨hval, hsuffix⟩ := hb.key_eq_numbered (by decide) hne hdigits hkey
      obtain ⟨m, rfl, rfl⟩ := KeyKind.eq_part_of_suffix hsuffix
      exact ⟨UploadId.ext hval.symm, congrArg KeyKind.part (Text.eq_of_parseUInt_decimal h).symm⟩
  · cases h

theorem path_not_own {k : KeyKind} (ha : a.Valid) (hb : b.Valid) (hne : b ≠ a) :
    ¬ s.Own a (s.path b k) := by
  rintro ⟨name, hname, hown⟩
  rw [s.path_eq hb] at hname
  obtain rfl : b.key k = name := by simpa using hname
  rcases hown with ⟨kind, hkey⟩ | hlisted
  · exact hne (UploadId.key_injective hb ha hkey).1
  · obtain ⟨n, hn⟩ := Option.isSome_iff_exists.mp hlisted
    exact hne (partIndex_key hb hn).1.symm

/-! ## What each call performs -/

/-- An operation of a call on `a`: in the directory, and changing only what
belongs to `a`. -/
def OwnOp (a : UploadId) (o : FsOp) : Prop := s.Within o ∧ ∀ p ∈ o.modified, s.Own a p

theorem own_path (ha : a.Valid) (kind : KeyKind) : s.Own a (s.path a kind) :=
  ⟨a.key kind, s.path_eq ha kind, .inl ⟨kind, rfl⟩⟩

/-- Any answer may come back. -/
abbrev AnyAnswer : (o : FsSig.Op) → FsSig.Ans o → Prop := fun _ _ => True

abbrev Performs {α : Type} (a : UploadId) (p : FsProg α) : Prop := p.Uses (s.OwnOp a) AnyAnswer

theorem performs_io {o : FsOp} (ho : s.OwnOp a o) : s.Performs a (FsProg.io o) :=
  ⟨ho, fun r _ => by cases r <;> trivial⟩

theorem performs_read (ha : a.Valid) (kind : KeyKind) :
    s.Performs a (FsProg.read (s.path a kind)) :=
  s.performs_io ⟨s.direct_path ha kind, by simp [FsOp.modified]⟩

theorem performs_write (ha : a.Valid) (kind : KeyKind) (content : Bytes) :
    s.Performs a (FsProg.write (s.path a kind) content) :=
  s.performs_io ⟨s.direct_path ha kind, by simp [FsOp.modified, s.own_path ha kind]⟩

theorem performs_tryExists {p : Path} (hp : p = s.dir ∨ s.Direct p) :
    s.Performs a (FsProg.tryExists p) :=
  s.performs_io ⟨hp, by simp [FsOp.modified]⟩

theorem performs_openTruncate {p : Path} (hp : s.Direct p) (hown : s.Own a p) :
    s.Performs a (FsProg.openTruncate p) :=
  s.performs_io ⟨hp, by simpa [FsOp.modified] using hown⟩

theorem performs_flush {p : Path} (hp : s.Direct p) : s.Performs a (FsProg.flush p) :=
  s.performs_io ⟨hp, by simp [FsOp.modified]⟩

theorem performs_readInfo (ha : a.Valid) : s.Performs a (s.readInfo a) := by
  refine (s.performs_read ha .info).bind fun bytes => ?_
  split <;> trivial

theorem performs_writeInfo (ha : a.Valid) (info : UploadInfo) :
    s.Performs a (s.writeInfo a info) := by
  have hvec : s.Performs a (s.toVec info) := by
    unfold toVec
    split <;> trivial
  exact hvec.bind fun json => s.performs_write ha .info json

theorem performs_createParent (ha : a.Valid) (kind : KeyKind) :
    s.Performs a (createParent (s.path a kind)) := by
  rw [createParent, s.parent_path ha]
  exact s.performs_io ⟨rfl, by simp [FsOp.modified]⟩

theorem isFileName_of_partIndex {name : Str} {n : ℕ} (ha : a.Valid)
    (h : partIndex a name = some n) : UploadId.IsFileName name := by
  unfold partIndex at h
  split at h
  · next rest hstrip =>
      have hchars := (Text.parseUInt_eq_some h).2
      obtain rfl : name = a.val ++ "_part_".toList ++ rest := Text.strip_eq_some_iff.mp hstrip
      have hlength : 6 < (a.val ++ "_part_".toList ++ rest).length := by
        have hne := List.length_pos_iff.mpr ha.spec.ne_nil
        simp
        omega
      refine ⟨by simp [ha.spec.ne_nil], fun hmem => ?_, fun heq => ?_, fun heq => ?_⟩
      · rcases List.mem_append.mp hmem with hmem | hmem
        · rcases List.mem_append.mp hmem with hmem | hmem
          · have halphabet := ha.spec.alphabet _ hmem
            revert halphabet
            decide
          · revert hmem
            decide
        · have hdigit := hchars _ hmem
          revert hdigit
          decide
      · rw [heq] at hlength
        revert hlength
        decide
      · rw [heq] at hlength
        revert hlength
        decide
  · cases h

/-- What a listing takes for a part of `a`. -/
def PartOf (a : UploadId) (p : Path) : Prop :=
  ∃ name n, p = s.dir ++ [name] ∧ partIndex a name = some n

variable {s} in
theorem PartOf.direct {p : Path} (ha : a.Valid) (hp : s.PartOf a p) : s.Direct p := by
  obtain ⟨name, n, rfl, hindex⟩ := hp
  exact ⟨name, isFileName_of_partIndex ha hindex, rfl⟩

variable {s} in
theorem PartOf.own {p : Path} (hp : s.PartOf a p) : s.Own a p := by
  obtain ⟨name, n, rfl, hindex⟩ := hp
  exact ⟨name, rfl, .inr (Option.isSome_iff_exists.mpr ⟨n, hindex⟩)⟩

variable {s} in
/-- No record and no data file is taken for a part. -/
theorem PartOf.ne_path {p : Path} {kind : KeyKind} (hb : b.Valid) (hp : s.PartOf a p)
    (hkind : ∀ n, kind ≠ .part n) : p ≠ s.path b kind := by
  obtain ⟨name, n, rfl, hindex⟩ := hp
  intro heq
  rw [s.path_eq hb] at heq
  obtain rfl : name = b.key kind := by simpa using heq
  exact hkind n (partIndex_key hb hindex).2

variable {s} in
theorem PartOf.ne_infoPath {p : Path} (hb : b.Valid) (hp : s.PartOf a p) : p ≠ s.infoPath b :=
  hp.ne_path hb nofun

theorem partOf_sortedParts (names : List Str) : ∀ p ∈ sortedParts a s.dir names, s.PartOf a p := by
  intro p hp
  simp only [sortedParts, List.mem_map, List.mem_mergeSort, List.mem_filterMap] at hp
  obtain ⟨⟨n, q⟩, ⟨name, -, hname⟩, rfl⟩ := hp
  obtain ⟨m, hindex, heq⟩ := Option.map_eq_some_iff.mp hname
  obtain ⟨-, rfl⟩ := Prod.mk.inj heq
  exact ⟨name, m, rfl, hindex⟩

/-! ### Calls whose operations are allowed

Which operations a caller allows is up to it, as long as it allows those
that change no file. -/

section Allowed

variable {U : FsOp → Prop}

theorem uses_io {o : FsOp} (ho : U o) : (FsProg.io o).Uses U AnyAnswer :=
  ⟨ho, fun r _ => by cases r <;> trivial⟩

theorem uses_removeFile {p : Path} (hp : U (.removeFile p)) :
    (FsProg.removeFileIgnoreNotFound p).Uses U AnyAnswer := by
  refine ⟨hp, fun r _ => ?_⟩
  rcases r with (_ | _) | _ <;> trivial

theorem uses_copyAll {dst : Path} {srcs : List Path} (hopen : ∀ p ∈ srcs, U (.openRead p))
    (hcopy : ∀ p ∈ srcs, U (.copy p dst)) : (copyAll dst srcs).Uses U AnyAnswer := by
  induction srcs with
  | nil => trivial
  | cons src srcs ih =>
      obtain ⟨hopen, hopens⟩ := List.forall_mem_cons.mp hopen
      obtain ⟨hcopy, hcopies⟩ := List.forall_mem_cons.mp hcopy
      refine (uses_io hopen).bind fun _ => ?_
      exact (uses_io hcopy).bind fun _ => ih hopens hcopies

theorem uses_removeAll {ps : List Path} (hps : ∀ p ∈ ps, U (.removeFile p)) :
    (removeAll ps).Uses U AnyAnswer := by
  induction ps with
  | nil => trivial
  | cons p ps ih =>
      obtain ⟨hp, hps⟩ := List.forall_mem_cons.mp hps
      exact (uses_removeFile hp).bind fun _ => ih hps

variable (hlooks : ∀ o, s.Within o → o.modified = none → U o)
include hlooks

theorem uses_createParent (ha : a.Valid) (kind : KeyKind) :
    (createParent (s.path a kind)).Uses U AnyAnswer := by
  rw [createParent, s.parent_path ha]
  exact uses_io (hlooks _ rfl rfl)

theorem uses_listPartPathsSorted (ha : a.Valid) :
    (s.listPartPathsSorted a).Uses U AnyAnswer ∧
      (s.listPartPathsSorted a).Returns AnyAnswer fun parts => ∀ p ∈ parts, s.PartOf a p := by
  have hnil : ∀ p ∈ ([] : List Path), s.PartOf a p := fun p hp => by cases hp
  simp only [listPartPathsSorted, infoPath, s.parent_path ha]
  constructor
  · refine (uses_io (hlooks (.tryExists s.dir) (.inl rfl) rfl)).bind fun b => ?_
    split
    · exact (uses_io (hlooks (.readDir s.dir) rfl rfl)).bind fun names => trivial
    · trivial
  · refine (Prog.returns_true _).bind fun b _ => ?_
    split
    · refine (Prog.returns_true _).bind fun names _ => ?_
      exact s.partOf_sortedParts names
    · exact hnil

/-- `finalize` rewrites the data file and removes parts. -/
theorem uses_finalize (ha : a.Valid) (hwrite : U (.write (s.dataPath a) []))
    (hopen : U (.openTruncate (s.dataPath a)))
    (hcopy : ∀ p, s.PartOf a p → U (.copy p (s.dataPath a)))
    (hremove : ∀ p, s.PartOf a p → U (.removeFile p)) : (s.finalize a).Uses U AnyAnswer := by
  obtain ⟨hlist, hparts⟩ := s.uses_listPartPathsSorted hlooks ha
  refine hlist.bind_of_returns hparts fun parts hparts => ?_
  refine (s.uses_createParent hlooks ha .data).bind fun _ => ?_
  split
  · exact uses_io hwrite
  · refine (uses_io hopen).bind fun _ => ?_
    have hcopies : (copyAll (s.dataPath a) parts).Uses U AnyAnswer :=
      uses_copyAll (fun p hp => hlooks (.openRead p) ((hparts p hp).direct ha) rfl)
        fun p hp => hcopy p (hparts p hp)
    refine hcopies.bind fun _ => ?_
    refine (uses_io (hlooks (.flush (s.dataPath a)) (s.direct_path ha .data) rfl)).bind fun _ => ?_
    exact uses_removeAll fun p hp => hremove p (hparts p hp)

/-- `delete` removes the data file, the record and parts. -/
theorem uses_delete (ha : a.Valid) (hdata : U (.removeFile (s.dataPath a)))
    (hinfo : U (.removeFile (s.infoPath a))) (hremove : ∀ p, s.PartOf a p → U (.removeFile p)) :
    (s.delete a).Uses U AnyAnswer := by
  obtain ⟨hlist, hparts⟩ := s.uses_listPartPathsSorted hlooks ha
  refine (uses_removeFile hdata).bind fun _ => (uses_removeFile hinfo).bind fun _ => ?_
  exact hlist.bind_of_returns hparts fun parts hparts =>
    uses_removeAll fun p hp => hremove p (hparts p hp)

theorem uses_copyPartials {dst : Path} (hcopy : ∀ src, s.Direct src → U (.copy src dst))
    (partials : List UploadInfo) : (s.copyPartials dst partials).Uses U AnyAnswer := by
  induction partials with
  | nil => trivial
  | cons info partials ih =>
      simp only [copyPartials, Prog.bind_eq]
      cases hvalid : info.id.validate with
      | error e => trivial
      | ok _ =>
          have hsrc := s.direct_path (a := info.id) hvalid .data
          refine (uses_io (hlooks (.openRead (s.dataPath info.id)) hsrc rfl)).bind fun _ => ?_
          exact (uses_io (hcopy _ hsrc)).bind fun _ => ih

end Allowed

theorem performs_looks {o : FsOp} (ho : s.Within o) (hmodified : o.modified = none) :
    s.OwnOp a o := by
  refine ⟨ho, fun p hp => ?_⟩
  rw [hmodified] at hp
  cases hp

theorem performs_listPartPathsSorted (ha : a.Valid) : s.Performs a (s.listPartPathsSorted a) :=
  (s.uses_listPartPathsSorted (fun _ => s.performs_looks) ha).1

theorem performs_finalize (ha : a.Valid) : s.Performs a (s.finalize a) := by
  have hdst := s.direct_path ha .data
  have hown := s.own_path ha .data
  apply s.uses_finalize (fun _ => s.performs_looks) ha
  · exact ⟨hdst, by simpa [FsOp.modified, dataPath] using hown⟩
  · exact ⟨hdst, by simpa [FsOp.modified, dataPath] using hown⟩
  · exact fun p hp => ⟨⟨hp.direct ha, hdst⟩, by simpa [FsOp.modified, dataPath] using hown⟩
  · exact fun p hp => ⟨hp.direct ha, by simpa [FsOp.modified] using hp.own⟩

theorem performs_delete (ha : a.Valid) : s.Performs a (s.delete a) := by
  apply s.uses_delete (fun _ => s.performs_looks) ha
  · exact ⟨s.direct_path ha .data, by simpa [FsOp.modified, dataPath] using s.own_path ha .data⟩
  · exact ⟨s.direct_path ha .info, by simpa [FsOp.modified, infoPath] using s.own_path ha .info⟩
  · exact fun p hp => ⟨hp.direct ha, by simpa [FsOp.modified] using hp.own⟩

theorem performs_copyPartials {dst : Path} (hdst : s.Direct dst) (hown : s.Own a dst)
    (partials : List UploadInfo) : s.Performs a (s.copyPartials dst partials) :=
  s.uses_copyPartials (fun _ => s.performs_looks)
    (fun _ hsrc => ⟨⟨hsrc, hdst⟩, by simpa [FsOp.modified] using hown⟩) partials

theorem performs_concatenate (ha : a.Valid) (partials : List UploadInfo) :
    s.Performs a (s.concatenate a partials) := by
  have hdst := s.direct_path ha .data
  have hown := s.own_path ha .data
  refine (s.performs_createParent ha .data).bind fun _ => ?_
  refine (s.performs_openTruncate hdst hown).bind fun _ => ?_
  refine (s.performs_copyPartials hdst hown partials).bind fun _ => ?_
  refine (s.performs_flush hdst).bind fun _ => ?_
  exact (s.performs_readInfo ha).bind fun info => s.performs_writeInfo ha _

theorem performs_storeChunk (ha : a.Valid) (info : UploadInfo) (buf : Bytes) (endOffset : ℕ) :
    s.Performs a (s.storeChunk a info buf endOffset) := by
  refine (s.performs_listPartPathsSorted ha).bind fun parts => ?_
  refine (s.performs_createParent ha (.part _)).bind fun _ => ?_
  refine (s.performs_write ha (.part _) buf).bind fun _ => ?_
  exact (s.performs_writeInfo ha _).bind fun _ => trivial

theorem performs_writeChunk (ha : a.Valid) (offset : ℕ) (reader : Reader) :
    s.Performs a (s.writeChunk a offset reader) := by
  refine (s.performs_readInfo ha).bind fun info => (Prog.uses_ofExcept _).bind fun chunk => ?_
  exact s.performs_storeChunk ha info chunk.1 chunk.2

theorem performs_call (o : StoreOp) (ha : o.target.Valid) : s.Performs o.target (s.call o) := by
  cases o with
  | createUpload info =>
      refine (Prog.uses_ofExcept _).bind fun _ => ?_
      refine (s.performs_createParent ha .info).bind fun _ => ?_
      exact s.performs_writeInfo ha info
  | getUpload id =>
      refine (Prog.uses_ofExcept _).bind fun _ => ?_
      refine (s.performs_tryExists (.inr (s.direct_path ha .info))).bind fun b => ?_
      split <;> trivial
  | writeChunk id offset reader => exact s.performs_writeChunk ha offset reader
  | getInfo id => exact s.performs_readInfo ha
  | finalize id => exact s.performs_finalize ha
  | delete id => exact s.performs_delete ha
  | declareLength id length =>
      refine (s.performs_readInfo ha).bind fun info => ?_
      exact (Prog.uses_ofExcept _).bind fun _ => s.performs_writeInfo ha _
  | concatenate id partials => exact s.performs_concatenate ha partials
  | readContent id =>
      refine (s.performs_readInfo ha).bind fun info => (Prog.uses_ofExcept _).bind fun _ => ?_
      refine (s.performs_tryExists (.inr (s.direct_path ha .data))).bind fun b => ?_
      split
      · exact s.performs_read ha .data
      · trivial

/-- A call changes no file but those of its upload. -/
theorem content_call {o : StoreOp} {p : Path} (ha : o.target.Valid) (order : Listing) (d : Disk)
    (hp : ¬ s.Own o.target p) : (s.interp order o d).2.content p = d.content p := by
  refine Prog.Uses.run_preserves (I := fun d' : Disk => d'.content p = d.content p)
    (s.performs_call o ha) (fun _ _ _ => trivial) (fun op d' hop hd' => ?_) rfl
  rw [Disk.content_interp order op, hd']
  rintro q hq rfl
  exact hp (hop.2 q hq)

/-- Keys of accepted ids are never shared, so every call stays in the
directory of the store and leaves the files of every other upload alone. -/
theorem keys_isolate_uploads (s : FileStore) :
    (∀ (a b : UploadId) (k l : KeyKind), a.Valid → b.Valid → a.key k = b.key l →
      a = b ∧ k = l) ∧
    ∀ o : StoreOp, o.target.Valid →
      (s.call o).Uses s.Within AnyAnswer ∧
      ∀ (order : Listing) (d : Disk) (b : UploadId) (kind : KeyKind), b.Valid → b ≠ o.target →
        (s.interp order o d).2.content (s.path b kind) = d.content (s.path b kind) := by
  refine ⟨fun a b k l => UploadId.key_injective, fun o ha => ⟨?_, fun order d b kind hb hne => ?_⟩⟩
  · exact (s.performs_call o ha).mono fun op hop => hop.1
  · exact s.content_call ha order d (path_not_own s ha hb hne)

end FileStore

end Fileloft
