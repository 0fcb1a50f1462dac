import Fileloft.Fs.Frame
import Fileloft.Fs.Slots

/-!
# The directory keeps the slots

A disk keeps the slots of a store when it has exactly the files the slots
ask for, under their keys. Every call on an accepted id then answers as the
slots do, in whatever order directories are listed.
-/

namespace Fileloft

namespace InfoCodec

variable (codec : InfoCodec) (info : UploadInfo)

/-- The bytes of a record. -/
def encode : Bytes := ((codec.toVec info).toOption).getD []

theorem toVec_eq : codec.toVec info = .ok (codec.encode info) := by
  obtain ⟨b, hb, -⟩ := codec.roundTrip info
  simp [encode, hb, Except.toOption]

theorem fromSlice_encode : codec.fromSlice (codec.encode info) = .ok info := by
  obtain ⟨b, hb, hback⟩ := codec.roundTrip info
  simpa [encode, hb, Except.toOption] using hback

theorem encode_injective : Function.Injective codec.encode := by
  intro info info' heq
  have hback := codec.fromSlice_encode info
  rw [heq, fromSlice_encode] at hback
  exact (Except.ok.inj hback).symm

end InfoCodec

namespace FileStore

variable (s : FileStore)

/-- The content a slot has under each key. -/
def file (slot : Slot) : KeyKind → Option Bytes
  | .data => slot.data
  | .info => slot.info.map s.codec.encode
  | .part n => slot.parts[n]?
  | .tmp _ => none

/-- Files that are the same are those of one slot. -/
theorem file_injective : Function.Injective s.file := by
  rintro ⟨info, parts, data⟩ ⟨info', parts', data'⟩ hfile
  have hinfo : info = info' :=
    Option.map_injective s.codec.encode_injective (congrFun hfile .info)
  have hparts : parts = parts' := List.ext_getElem? fun n => congrFun hfile (.part n)
  have hdata : data = data' := congrFun hfile .data
  rw [hinfo, hparts, hdata]

/-- Every file is one of an upload, and they all lie in one directory. -/
structure Laid (d : Disk) : Prop where
  known : ∀ p, d.content p ≠ none → ∃ (id : UploadId) (kind : KeyKind), id.Valid ∧
    p = s.path id kind
  dirs : ∀ q ∈ d.dirs, q <+: s.dir
  made : ∀ p, d.content p ≠ none → s.dir ∈ d.dirs

structure Keeps (d : Disk) (t : Slots) : Prop where
  file : ∀ id : UploadId, id.Valid → ∀ kind, d.content (s.path id kind) = s.file (t id) kind
  bounded : ∀ id : UploadId, id.Valid → (t id).parts.length ≤ U32_BOUND
  known : ∀ p, d.content p ≠ none → ∃ (id : UploadId) (kind : KeyKind), id.Valid ∧
    p = s.path id kind
  dirs : ∀ q ∈ d.dirs, q <+: s.dir
  made : ∀ p, d.content p ≠ none → s.dir ∈ d.dirs

variable {s} {d d' : Disk} {t : Slots} {id a : UploadId}

theorem keeps_empty : s.Keeps Disk.empty Slots.empty where
  file id _ kind := by
    cases kind <;> simp [Disk.content, Disk.empty, FileStore.file, Slots.empty, Slot.empty]
  bounded id _ := by simp [Slots.empty, Slot.empty]
  known p hp := absurd rfl hp
  dirs q hq := by cases hq
  made p hp := absurd rfl hp

/-! ## Directories -/

theorem Keeps.laid (hd : s.Keeps d t) : s.Laid d := ⟨hd.known, hd.dirs, hd.made⟩

/-- No entry of the directory is a directory. -/
theorem Laid.not_isDir (hd : s.Laid d) (name : Str) : d.isDir (s.dir ++ [name]) = false := by
  have hnot : s.dir ++ [name] ∉ d.dirs := fun hmem => by
    have hlen := (hd.dirs _ hmem).length_le
    simp at hlen
  simp [Disk.isDir, hnot]

theorem Laid.isDir_path (hd : s.Laid d) (ha : a.Valid) (kind : KeyKind) :
    d.isDir (s.path a kind) = false := by
  rw [s.path_eq ha]
  exact hd.not_isDir _

theorem Laid.dir_not_file (hd : s.Laid d) {q : Path} (hq : q <+: s.dir) :
    d.content q = none := by
  by_contra hcontent
  obtain ⟨id, kind, hvalid, rfl⟩ := hd.known q hcontent
  have hlen := hq.length_le
  rw [s.path_eq hvalid] at hlen
  simp at hlen

/-- A disk without some of the files. -/
theorem Laid.of_le (hd : s.Laid d) (hfiles : ∀ p, d'.content p ≠ none → d.content p ≠ none)
    (hdirs : d'.dirs = d.dirs) : s.Laid d' := by
  refine ⟨fun p hp => hd.known p (hfiles p hp), hdirs ▸ hd.dirs, fun p hp => ?_⟩
  rw [hdirs]
  exact hd.made p (hfiles p hp)

theorem Laid.of_files (hd : s.Laid d) (hfiles : d'.files = d.files)
    (hdirs : ∀ q ∈ d'.dirs, q <+: s.dir) (hmade : s.dir ∈ d.dirs → s.dir ∈ d'.dirs) :
    s.Laid d' := by
  have hcontent : ∀ p, d'.content p = d.content p := fun p => by rw [Disk.content, hfiles]; rfl
  refine ⟨fun p hp => ?_, hdirs, fun p hp => ?_⟩
  · exact hd.known p (by rwa [hcontent] at hp)
  · exact hmade (hd.made p (by rwa [hcontent] at hp))

/-- Two disks with the same files keep the same slots. -/
theorem Keeps.of_files (hd : s.Keeps d t) (hd' : s.Laid d') (hfiles : d'.files = d.files) :
    s.Keeps d' t := by
  refine ⟨fun id hvalid kind => ?_, hd.bounded, hd'.known, hd'.dirs, hd'.made⟩
  rw [Disk.content, hfiles]
  exact hd.file id hvalid kind

theorem mem_files_iff {p : Path} : p ∈ d.files ↔ d.content p ≠ none := by
  rw [← AList.lookup_isSome, Disk.content, Option.isSome_iff_ne_none]

theorem Laid.run_createParent (hd : s.Laid d) (ha : a.Valid) (kind : KeyKind) (order : Listing) :
    ∃ d', (createParent (s.path a kind)).run (Disk.interp order) d = (.ok (), d') ∧
      s.Laid d' ∧ s.dir ∈ d'.dirs ∧ d'.files = d.files := by
  have hfree : ((Disk.ancestors s.dir).any fun q => q ∈ d.files) = false := by
    rw [List.any_eq_false]
    intro q hq
    have hpre : q <+: s.dir := (List.mem_inits q s.dir).mp (List.mem_filter.mp hq).1
    simp [mem_files_iff, hd.dir_not_file hpre]
  have hself : s.dir ∈ Disk.ancestors s.dir := by
    simp [Disk.ancestors, s.dir_ne_nil]
  refine ⟨{ d with dirs := (Disk.ancestors s.dir).filter (· ∉ d.dirs) ++ d.dirs }, ?_, ?_, ?_, rfl⟩
  · rw [createParent, s.parent_path ha]
    simp [FsProg.createDirAll, FsProg.io, Disk.interp, Disk.createDirAll, hfree]
  · refine hd.of_files rfl (fun q hq => ?_) fun hdir => List.mem_append_right _ hdir
    rcases List.mem_append.mp hq with hq | hq
    · exact (List.mem_inits q s.dir).mp (List.mem_filter.mp (List.mem_filter.mp hq).1).1
    · exact hd.dirs q hq
  · by_cases hdir : s.dir ∈ d.dirs
    · exact List.mem_append_right _ hdir
    · exact List.mem_append_left _ (List.mem_filter.mpr ⟨hself, by simpa using hdir⟩)

theorem Keeps.run_createParent (hd : s.Keeps d t) (ha : a.Valid) (kind : KeyKind)
    (order : Listing) :
    ∃ d', (createParent (s.path a kind)).run (Disk.interp order) d = (.ok (), d') ∧
      s.Keeps d' t ∧ s.dir ∈ d'.dirs ∧ d'.files = d.files := by
  obtain ⟨d', hrun, hd', hmade, hfiles⟩ := hd.laid.run_createParent ha kind order
  exact ⟨d', hrun, hd.of_files hd' hfiles, hmade, hfiles⟩

/-! ## Files -/

/-- A disk that differs from `d` in the files of `a` only keeps a store that
differs from `t` in the slot of `a` only. -/
theorem Keeps.update_laid (hd : s.Keeps d t) {slot : Slot} (hd' : s.Laid d')
    (hown : ∀ kind, d'.content (s.path a kind) = s.file slot kind)
    (hother : ∀ p, (∀ kind, p ≠ s.path a kind) → d'.content p = d.content p) (ha : a.Valid)
    (hbound : slot.parts.length ≤ U32_BOUND) : s.Keeps d' (Function.update t a slot) := by
  refine ⟨fun id hid kind => ?_, fun id hid => ?_, hd'.known, hd'.dirs, hd'.made⟩
  · by_cases heq : id = a
    · subst heq
      rw [hown, Function.update_self]
    · rw [Function.update_of_ne heq, ← hd.file id hid]
      exact hother _ fun kind' hpath => heq (s.path_injective hid ha hpath).1
  · by_cases heq : id = a
    · subst heq
      rwa [Function.update_self]
    · rw [Function.update_of_ne heq]
      exact hd.bounded id hid

theorem Keeps.update (hd : s.Keeps d t) {slot : Slot} (hdirs : d'.dirs = d.dirs)
    (hown : ∀ kind, d'.content (s.path a kind) = s.file slot kind)
    (hother : ∀ p, (∀ kind, p ≠ s.path a kind) → d'.content p = d.content p) (ha : a.Valid)
    (hbound : slot.parts.length ≤ U32_BOUND)
    (hmade : ∀ p, d'.content p ≠ none → s.dir ∈ d.dirs) :
    s.Keeps d' (Function.update t a slot) := by
  refine hd.update_laid ⟨fun p hp => ?_, fun q hq => ?_, fun p hp => ?_⟩ hown hother ha hbound
  · by_cases hkey : ∃ kind, p = s.path a kind
    · obtain ⟨kind, rfl⟩ := hkey
      exact ⟨a, kind, ha, rfl⟩
    · rw [hother p (by simpa using hkey)] at hp
      exact hd.known p hp
  · exact hd.dirs q (hdirs ▸ hq)
  · rw [hdirs]
    exact hmade p hp

theorem Keeps.put (hd : s.Keeps d t) (ha : a.Valid) {slot : Slot} {kind : KeyKind} {c : Bytes}
    (hkind : s.file slot kind = some c) (hrest : ∀ k ≠ kind, s.file slot k = s.file (t a) k)
    (hbound : slot.parts.length ≤ U32_BOUND) (hmade : s.dir ∈ d.dirs) :
    s.Keeps (d.put (s.path a kind) c) (Function.update t a slot) := by
  refine hd.update rfl (fun k => ?_) (fun p hp => ?_) ha hbound fun _ _ => hmade
  · by_cases hk : k = kind
    · subst hk
      rw [Disk.content_put_self, hkind]
    · have hne : s.path a k ≠ s.path a kind := fun h => hk (s.path_injective ha ha h).2
      rw [Disk.content_put_of_ne hne, hd.file a ha, hrest k hk]
  · exact Disk.content_put_of_ne (hp kind)

theorem Laid.write_eq (hd : s.Laid d) (ha : a.Valid) (kind : KeyKind) (c : Bytes)
    (hmade : s.dir ∈ d.dirs) :
    d.write (s.path a kind) c = (.ok (), d.put (s.path a kind) c) := by
  have hnot := hd.not_isDir (a.key kind)
  have hdir : d.isDir s.dir = true := by simp [Disk.isDir, hmade]
  rw [s.path_eq ha, Disk.write, hnot, List.dropLast_concat, hdir]
  simp

/-- The disk without some files of `a`. -/
theorem Keeps.remove (hd : s.Keeps d t) (ha : a.Valid) {slot : Slot} {ps : List Path}
    (hdirs : d'.dirs = d.dirs)
    (hcontent : ∀ q, d'.content q = if q ∈ ps then none else d.content q)
    (hown : ∀ q ∈ ps, ∃ kind, q = s.path a kind)
    (hslot : ∀ kind, s.file slot kind = if s.path a kind ∈ ps then none else s.file (t a) kind)
    (hbound : slot.parts.length ≤ U32_BOUND) : s.Keeps d' (Function.update t a slot) := by
  refine hd.update hdirs (fun k => ?_) (fun q hq => ?_) ha hbound fun q hq => ?_
  · rw [hcontent, hslot, hd.file a ha]
  · rw [hcontent, if_neg]
    intro hmem
    obtain ⟨kind, rfl⟩ := hown q hmem
    exact hq kind rfl
  · rw [hcontent] at hq
    split at hq
    · exact absurd rfl hq
    · exact hd.made q hq

/-! ## Listing the parts -/

theorem nameIn_eq_some {dir p : Path} {name : Str} :
    Disk.nameIn dir p = some name ↔ p = dir ++ [name] := by
  unfold Disk.nameIn
  constructor
  · intro h
    split at h
    · next hdrop => exact hdrop ▸ (List.dropLast_append_getLast? name h).symm
    · cases h
  · rintro rfl
    simp

theorem Laid.mem_names (hd : s.Laid d) {name : Str} :
    name ∈ d.names s.dir ↔ d.content (s.dir ++ [name]) ≠ none := by
  have hnot := hd.not_isDir name
  simp only [Disk.isDir, Bool.or_eq_false_iff, decide_eq_false_iff_not] at hnot
  simp [Disk.names, nameIn_eq_some, ← mem_files_iff, AList.mem_keys, hnot.2]

theorem Laid.nodup_names (hd : s.Laid d) : (d.names s.dir).Nodup := by
  have hdirs : d.dirs.filterMap (Disk.nameIn s.dir) = [] := by
    rw [List.filterMap_eq_nil_iff]
    intro q hq
    rw [Option.eq_none_iff_forall_ne_some]
    intro name hname
    have hnot := hd.not_isDir name
    rw [← nameIn_eq_some.mp hname] at hnot
    simp [Disk.isDir, hq] at hnot
  rw [Disk.names, List.filterMap_append, hdirs, List.append_nil]
  refine d.files.keys_nodup.filterMap fun p q name hp hq => ?_
  rw [nameIn_eq_some.mp hp, nameIn_eq_some.mp hq]

theorem partIndex_key_part {n : ℕ} (hn : n < U32_BOUND) :
    partIndex a (a.key (.part n)) = some n := by
  have hstrip : Text.strip (a.val ++ "_part_".toList) (a.key (.part n)) =
      some (Text.decimal n) := by
    rw [Text.strip_eq_some_iff, UploadId.key, KeyKind.suffix_part, List.append_assoc]
  rw [partIndex, hstrip]
  exact Text.parseUInt_decimal hn

variable (s) in
/-- The numbers of the parts of `a` that are there, in order. -/
structure Numbers (d : Disk) (a : UploadId) (idxs : List ℕ) : Prop where
  sorted : idxs.Pairwise (· < ·)
  bounded : ∀ n ∈ idxs, n < U32_BOUND
  mem_iff : ∀ n, n ∈ idxs ↔ d.content (s.partPath a n) ≠ none

theorem Keeps.numbers (hd : s.Keeps d t) (ha : a.Valid) :
    s.Numbers d a (List.range (t a).parts.length) where
  sorted := List.pairwise_lt_range
  bounded n hn := (List.mem_range.mp hn).trans_le (hd.bounded a ha)
  mem_iff n := by
    rw [partPath, hd.file a ha, FileStore.file, List.mem_range]
    simp

/-- The entries listed as parts of `a` are its parts, each under its number. -/
theorem Laid.mem_listed (hd : s.Laid d) (ha : a.Valid) {idxs : List ℕ}
    (hidxs : s.Numbers d a idxs) {name : Str} {n : ℕ} :
    name ∈ d.names s.dir ∧ partIndex a name = some n ↔ n ∈ idxs ∧ name = a.key (.part n) := by
  rw [hd.mem_names]
  constructor
  · rintro ⟨hcontent, hindex⟩
    obtain ⟨id, kind, hid, hpath⟩ := hd.known _ hcontent
    rw [s.path_eq hid] at hpath
    obtain rfl : name = id.key kind := by simpa using hpath
    obtain ⟨rfl, rfl⟩ := partIndex_key hid hindex
    rw [hidxs.mem_iff, partPath, s.path_eq ha]
    exact ⟨hcontent, rfl⟩
  · rintro ⟨hn, rfl⟩
    refine ⟨?_, partIndex_key_part (hidxs.bounded n hn)⟩
    rw [← s.path_eq ha]
    exact (hidxs.mem_iff n).mp hn

/-- Whatever the order of the listing, the parts come out by number. -/
theorem Laid.sortedParts_eq (hd : s.Laid d) (ha : a.Valid) {idxs : List ℕ}
    (hidxs : s.Numbers d a idxs) (order : Listing) :
    sortedParts a s.dir (order.1 (d.names s.dir)) = idxs.map (s.partPath a) := by
  let f : Str → Option (ℕ × Path) := fun name =>
    (partIndex a name).map fun idx => (idx, s.dir ++ [name])
  have hf {name : Str} {n : ℕ} {p : Path} :
      f name = some (n, p) ↔ partIndex a name = some n ∧ p = s.dir ++ [name] := by
    simp [f, eq_comm]
  have hperm := order.2 (d.names s.dir)
  have hnodup : ((order.1 (d.names s.dir)).filterMap f).Nodup := by
    refine (hperm.nodup_iff.mpr hd.nodup_names).filterMap fun x y np hx hy => ?_
    have hxp := (hf.mp hx).2
    have hyp := (hf.mp hy).2
    simpa using hxp.symm.trans hyp
  have hindexed : ((order.1 (d.names s.dir)).filterMap f).Perm
      (idxs.map fun n => (n, s.partPath a n)) := by
    refine (List.perm_ext_iff_of_nodup hnodup ?_).mpr fun np => ?_
    · have hnodup : idxs.Nodup := hidxs.sorted.imp ne_of_lt
      exact hnodup.map fun m n h => (Prod.mk.inj h).1
    · obtain ⟨n, p⟩ := np
      simp only [List.mem_filterMap, List.mem_map, hf, hperm.mem_iff, Prod.mk.injEq]
      constructor
      · rintro ⟨name, hname, hindex, rfl⟩
        obtain ⟨hn, rfl⟩ := (hd.mem_listed ha hidxs).mp ⟨hname, hindex⟩
        exact ⟨n, hn, rfl, s.path_eq ha _⟩
      · rintro ⟨m, hm, rfl, rfl⟩
        obtain ⟨hname, hindex⟩ := (hd.mem_listed ha hidxs).mpr ⟨hm, rfl⟩
        exact ⟨_, hname, hindex, s.path_eq ha _⟩
  have hsorted : ((order.1 (d.names s.dir)).filterMap f).mergeSort (fun a b => a.1 ≤ b.1) =
      idxs.map fun n => (n, s.partPath a n) := by
    have hall := (List.mergeSort_perm _ fun a b : ℕ × Path => decide (a.1 ≤ b.1)).trans hindexed
    have hpart {np : ℕ × Path} (hnp : np ∈ idxs.map fun n => (n, s.partPath a n)) :
        np.2 = s.partPath a np.1 := by
      obtain ⟨n, -, rfl⟩ := List.mem_map.mp hnp
      rfl
    have hpairwise : List.Pairwise (fun x y : ℕ × Path => decide (x.1 ≤ y.1) = true)
        (((order.1 (d.names s.dir)).filterMap f).mergeSort fun a b => a.1 ≤ b.1) :=
      List.pairwise_mergeSort (fun x y z hxy hyz => by simp_all; omega)
        (fun x y => by simp; omega) _
    refine hall.eq_of_pairwise (fun x y hx hy hxy hyx => ?_) hpairwise ?_
    · have heq := Nat.le_antisymm (by simpa using hxy) (by simpa using hyx)
      exact Prod.ext heq (by rw [hpart (hall.mem_iff.mp hx), hpart hy, heq])
    · rw [List.pairwise_map]
      exact hidxs.sorted.imp fun hab => by simpa using Nat.le_of_lt hab
  change (((order.1 (d.names s.dir)).filterMap f).mergeSort fun a b => a.1 ≤ b.1).map Prod.snd = _
  rw [hsorted, List.map_map]
  rfl

end FileStore

end Fileloft
