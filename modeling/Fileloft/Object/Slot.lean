import Fileloft.Effect.After
import Fileloft.Fs.Refine
import Fileloft.Object.Calls
import Fileloft.Text.Collect

/-!
# One upload in an object store

The objects of an upload hold its slot. Reading the record, listing the parts
and writing a chunk do to the objects what they do to the slot.
-/

namespace Fileloft.ObjectStore

open Prog

variable {s : ObjectStore} {svc : Service} {id : UploadId} {st st' : svc.State} {slot : Slot}

theorem mem_sortedParts {key : Str} {names : List Str} :
    key ∈ sortedParts names ↔ key ∈ names ∧ key ≠ [] := by
  rw [sortedParts, List.mem_mergeSort, List.mem_filter, decide_eq_true_iff]

/-- Of the keys of an upload, the prefix of its parts fits its parts only. -/
theorem partPrefix_key (k : KeyKind) : s.partPrefix id <+: s.key id k ↔ ∃ n, k = .part n := by
  rw [partPrefix, key, UploadId.key, List.prefix_append_right_inj, List.prefix_append_right_inj]
  constructor
  · rintro ⟨d, hd⟩
    obtain ⟨n, hn, -⟩ := KeyKind.eq_part_of_suffix hd.symm
    exact ⟨n, hn⟩
  · rintro ⟨n, rfl⟩
    rw [KeyKind.suffix_part]
    exact List.prefix_append _ _

theorem key_injective {k l : KeyKind} (h : s.key id k = s.key id l) : k = l := by
  rw [key, key, UploadId.key, UploadId.key] at h
  exact KeyKind.suffix_injective (List.append_cancel_left (List.append_cancel_left h))

theorem partKey_ne_nil (n : ℕ) : s.partKey id n ≠ [] := by
  simp [partKey, key, UploadId.key, KeyKind.suffix_part]

/-- The number of a part is read back from its name. -/
theorem partIndex_partKey {n : ℕ} (hn : n < FileStore.U32_BOUND) :
    partIndex (s.partKey id n) = n := by
  have hlast : (s.partKey id n).rtakeWhile (· ≠ '_') = Text.decimal n := by
    have hkey : s.partKey id n =
        (s.keyPrefix ++ (id.val ++ "_part".toList)) ++ '_' :: Text.decimal n := by
      simp [partKey, key, UploadId.key, KeyKind.suffix_part]
    have hdigits : ∀ c ∈ (Text.decimal n).reverse, decide (c ≠ '_') = true := by
      intro c hc
      have hdigit := Text.isDigit_of_mem_decimal (List.mem_reverse.mp hc)
      rw [decide_eq_true_iff]
      rintro rfl
      cases hdigit
    rw [hkey, List.rtakeWhile, List.reverse_append, List.reverse_cons, List.append_assoc,
      List.takeWhile_append_of_pos hdigits, List.singleton_append,
      List.takeWhile_cons_of_neg (by decide), List.append_nil, List.reverse_reverse]
  rw [partIndex, hlast, Text.parseUInt_decimal hn, Option.getD_some]

/-- The names of parts are in the order of their numbers. -/
theorem sortedParts_eq_map {names : List Str} {numbers : List ℕ}
    (hsorted : numbers.Pairwise (· < ·)) (hbound : ∀ n ∈ numbers, n < FileStore.U32_BOUND)
    (hnames : names.Nodup) (hmem : ∀ name, name ∈ names ↔ ∃ n ∈ numbers, name = s.partKey id n) :
    sortedParts names = numbers.map (s.partKey id) := by
  have hinjective {m n : ℕ} (heq : s.partKey id m = s.partKey id n) : m = n :=
    KeyKind.part.inj (key_injective heq)
  have hnodup : numbers.Nodup := hsorted.imp fun hlt => Nat.ne_of_lt hlt
  have hperm : (sortedParts names).Perm (numbers.map (s.partKey id)) := by
    apply (List.mergeSort_perm _ _).trans
    apply (List.perm_ext_iff_of_nodup (hnames.filter _) (hnodup.map fun _ _ => hinjective)).mpr
    intro name
    rw [List.mem_filter, hmem, List.mem_map]
    constructor
    · rintro ⟨⟨n, hn, rfl⟩, -⟩
      exact ⟨n, hn, rfl⟩
    · rintro ⟨n, hn, rfl⟩
      exact ⟨⟨n, hn, rfl⟩, decide_eq_true (partKey_ne_nil n)⟩
  have hsortedNames : List.Pairwise (fun a b => decide (partIndex a ≤ partIndex b) = true)
      (sortedParts names) :=
    List.pairwise_mergeSort (fun x y z hxy hyz => by simp_all; omega) (fun x y => by simp; omega) _
  apply hperm.eq_of_pairwise _ hsortedNames
  · rw [List.pairwise_map]
    apply hsorted.imp_of_mem
    intro m n hm hn hlt
    rw [partIndex_partKey (hbound m hm), partIndex_partKey (hbound n hn)]
    exact decide_eq_true hlt.le
  · intro a b ha hb hab hba
    obtain ⟨m, hm, rfl⟩ := List.mem_map.mp (hperm.mem_iff.mp ha)
    obtain ⟨n, hn, rfl⟩ := List.mem_map.mp hb
    rw [partIndex_partKey (hbound m hm), partIndex_partKey (hbound n hn)] at hab hba
    rw [Nat.le_antisymm (of_decide_eq_true hab) (of_decide_eq_true hba)]

/-- A listing names the parts that exist, in the order of their numbers. -/
theorem run_listParts_of_numbers (hs : svc.Stores) {numbers : List ℕ}
    (hsorted : numbers.Pairwise (· < ·)) (hbound : ∀ n ∈ numbers, n < FileStore.U32_BOUND)
    (hlisted : ∀ key, s.partPrefix id <+: key → svc.content st key ≠ none →
      ∃ n, key = s.partKey id n)
    (hparts : ∀ n, svc.content st (s.partKey id n) ≠ none ↔ n ∈ numbers) :
    (s.listParts id).run svc.impl st = (.ok (numbers.map (s.partKey id)), st) := by
  obtain ⟨names, hnames, hnodup, hmem⟩ := hs.list_ok (s.partPrefix id) st
  have hnumbers : sortedParts names = numbers.map (s.partKey id) := by
    apply sortedParts_eq_map hsorted hbound hnodup
    intro name
    rw [hmem]
    constructor
    · rintro ⟨hcontent, hprefix⟩
      obtain ⟨n, rfl⟩ := hlisted name hprefix hcontent
      exact ⟨n, (hparts n).mp hcontent, rfl⟩
    · rintro ⟨n, hn, rfl⟩
      exact ⟨(hparts n).mpr hn, (partPrefix_key _).mpr ⟨n, rfl⟩⟩
  rw [listParts, request, send, bind_eq, op_bind, run_op, hnames, hs.list_keeps, ret_bind, pure_eq,
    run_ret, hnumbers]

/-- The objects of one upload hold its slot, and no other object would be
listed as a part of it. -/
structure Holds (s : ObjectStore) (svc : Service) (id : UploadId) (st : svc.State) (slot : Slot) :
    Prop where
  info : svc.content st (s.infoKey id) = slot.info.map s.codec.encode
  part : ∀ n, svc.content st (s.partKey id n) = slot.parts[n]?
  data : svc.content st (s.dataKey id) = slot.data
  listed : ∀ key, s.partPrefix id <+: key → svc.content st key ≠ none → ∃ n, key = s.partKey id n
  few : slot.parts.length ≤ FileStore.U32_BOUND

/-- A new upload starts with an empty slot. -/
theorem holds_empty
    (hfresh : ∀ key, key = s.infoKey id ∨ key = s.dataKey id ∨ s.partPrefix id <+: key →
      svc.content st key = none) : s.Holds svc id st .empty where
  info := hfresh _ (.inl rfl)
  part n := hfresh _ (.inr (.inr ((partPrefix_key _).mpr ⟨n, rfl⟩)))
  data := hfresh _ (.inr (.inl rfl))
  listed key hprefix hkey := absurd (hfresh key (.inr (.inr hprefix))) hkey
  few := Nat.zero_le _

theorem run_listParts (hs : svc.Stores) (hh : s.Holds svc id st slot) :
    (s.listParts id).run svc.impl st =
      (.ok ((List.range slot.parts.length).map (s.partKey id)), st) := by
  apply run_listParts_of_numbers hs List.pairwise_lt_range _ hh.listed
  · intro n
    rw [hh.part, List.mem_range, Ne, List.getElem?_eq_none_iff, Nat.not_le]
  · intro n hn
    exact (List.mem_range.mp hn).trans_le hh.few

theorem run_readInfo (hs : svc.Stores) {info : UploadInfo}
    (hinfo : svc.content st (s.infoKey id) = some (s.codec.encode info)) :
    (s.readInfo id).run svc.impl st = (.ok info, st) := by
  obtain ⟨body, hbody, hwhole, hflat, -⟩ := hs.get_found hinfo
  have hcollect : s.collect id "read info".toList "read chunk".toList body =
      .ok (s.codec.encode info) := by
    rw [collect, hwhole, hflat]
  rw [readInfo, request, send, bind_eq, op_bind, run_op, hbody, hs.get_keeps, ret_bind, bind_eq,
    hcollect, ofExcept_ok, ret_bind, s.codec.fromSlice_encode]
  rfl

theorem run_writeInfo (hs : svc.Stores) (info : UploadInfo) :
    ∃ st', (s.writeInfo id info).run svc.impl st = (.ok (), st') ∧
      svc.content st' =
        Function.update (svc.content st) (s.infoKey id) (some (s.codec.encode info)) := by
  refine ⟨(svc.impl (.put (s.infoKey id) (s.codec.encode info)) st).2, ?_, hs.put_content _ _ _⟩
  rw [writeInfo, toVec, s.codec.toVec_eq, bind_eq, ret_bind, request, send, run_op, hs.put_ok]
  rfl

theorem run_readInfo_missing (hs : svc.Stores) (hinfo : svc.content st (s.infoKey id) = none) :
    ∃ e, (s.readInfo id).run svc.impl st = (.error e, st) := by
  obtain ⟨e, hanswer, -⟩ := hs.get_missing hinfo
  refine ⟨s.provider.error id.val "read info".toList e, ?_⟩
  rw [readInfo, request, send, bind_eq, op_bind, run_op, hanswer, hs.get_keeps]
  rfl

/-- A chunk goes where the number of parts says. -/
theorem getElem?_addPart {parts : List Bytes} {buf : Bytes}
    (hfew : parts.length ≤ FileStore.U32_BOUND) (n : ℕ) :
    (Slot.addPart parts buf)[n]? =
      if n = parts.length % FileStore.U32_BOUND then some buf else parts[n]? := by
  rcases Nat.lt_or_eq_of_le hfew with hlt | hfull
  · rw [Slot.addPart, if_pos hlt, Nat.mod_eq_of_lt hlt]
    rcases Nat.lt_trichotomy n parts.length with hless | heq | hmore
    · rw [List.getElem?_append_left hless, if_neg (by omega)]
    · rw [heq, List.getElem?_concat_length, if_pos rfl]
    · have hlength : (parts ++ [buf]).length ≤ n := by
        rw [List.length_append, List.length_singleton]
        exact hmore
      rw [if_neg (by omega), List.getElem?_eq_none hlength, List.getElem?_eq_none hmore.le]
  · have hpos : 0 < parts.length := by
      rw [hfull]
      decide
    rw [Slot.addPart, if_neg (by omega), hfull, Nat.mod_self, List.getElem?_set]
    by_cases hn : n = 0
    · rw [if_pos hn, if_pos hn.symm, if_pos (by omega)]
    · rw [if_neg hn, if_neg (Ne.symm hn)]

namespace Holds

variable {info : UploadInfo} {buf : Bytes}

theorem putInfo (hh : s.Holds svc id st slot)
    (hcontent : svc.content st' =
      Function.update (svc.content st) (s.infoKey id) (some (s.codec.encode info))) :
    s.Holds svc id st' { slot with info := some info } where
  info := by
    rw [hcontent, Function.update_self]
    rfl
  part n := by
    have hne : s.partKey id n ≠ s.infoKey id := fun heq => nomatch key_injective heq
    rw [hcontent, Function.update_of_ne hne, hh.part]
  data := by
    have hne : s.dataKey id ≠ s.infoKey id := fun heq => nomatch key_injective heq
    rw [hcontent, Function.update_of_ne hne, hh.data]
  listed key hprefix hkey := by
    have hne : key ≠ s.infoKey id := by
      rintro rfl
      obtain ⟨n, hn⟩ := (partPrefix_key _).mp hprefix
      cases hn
    rw [hcontent, Function.update_of_ne hne] at hkey
    exact hh.listed key hprefix hkey
  few := hh.few

theorem putPart (hh : s.Holds svc id st slot)
    (hcontent : svc.content st' = Function.update (svc.content st)
      (s.partKey id (slot.parts.length % FileStore.U32_BOUND)) (some buf)) :
    s.Holds svc id st' { slot with parts := Slot.addPart slot.parts buf } where
  info := by
    have hne (n : ℕ) : s.infoKey id ≠ s.partKey id n := fun heq => nomatch key_injective heq
    rw [hcontent, Function.update_of_ne (hne _), hh.info]
  part n := by
    have hupdate (m : ℕ) : Function.update (svc.content st) (s.partKey id m) (some buf)
        (s.partKey id n) = if n = m then some buf else slot.parts[n]? := by
      by_cases heq : n = m
      · rw [heq, Function.update_self, if_pos rfl]
      · have hne : s.partKey id n ≠ s.partKey id m := fun hkey =>
          heq (KeyKind.part.inj (key_injective hkey))
        rw [Function.update_of_ne hne, hh.part, if_neg heq]
    rw [hcontent, hupdate]
    exact (getElem?_addPart hh.few n).symm
  data := by
    have hne (n : ℕ) : s.dataKey id ≠ s.partKey id n := fun heq => nomatch key_injective heq
    rw [hcontent, Function.update_of_ne (hne _), hh.data]
  listed key hprefix hkey := by
    by_cases heq : key = s.partKey id (slot.parts.length % FileStore.U32_BOUND)
    · exact ⟨_, heq⟩
    · rw [hcontent, Function.update_of_ne heq] at hkey
      exact hh.listed key hprefix hkey
  few := by
    have hfew := hh.few
    change (Slot.addPart slot.parts buf).length ≤ _
    rw [Slot.addPart]
    split
    · rw [List.length_append, List.length_singleton]
      omega
    · rw [List.length_set]
      exact hfew

end Holds

theorem run_storeChunk (hs : svc.Stores) (hh : s.Holds svc id st slot) (info : UploadInfo)
    (buf : Bytes) (endOffset : ℕ) :
    ∃ st', (s.storeChunk id info buf endOffset).run svc.impl st = (.ok buf.length, st') ∧
      s.Holds svc id st' (slot.storeChunk info buf endOffset) := by
  have hpart := hh.putPart
    (hs.put_content (s.partKey id (slot.parts.length % FileStore.U32_BOUND)) buf st)
  generalize hst : (svc.impl (.put
    (s.partKey id (slot.parts.length % FileStore.U32_BOUND)) buf) st).2 = st₁ at hpart
  obtain ⟨st', hwrite, hcontent⟩ :=
    @run_writeInfo s svc id st₁ hs { info with offset := endOffset }
  refine ⟨st', ?_, hpart.putInfo hcontent⟩
  rw [storeChunk, bind_eq, run_bind_ok (run_listParts hs hh), request, send, bind_eq, op_bind,
    run_op, List.length_map, List.length_range, hs.put_ok, hst, ret_bind, bind_eq,
    run_bind_ok hwrite, pure_eq, run_ret]

/-- A chunk for an upload with a record does to the objects what it does to
the slot. -/
theorem run_writeChunk (hs : svc.Stores) (hh : s.Holds svc id st slot) {info : UploadInfo}
    (hinfo : slot.info = some info) (offset : ℕ) (reader : Reader) :
    ∃ st', (s.writeChunk id offset reader).run svc.impl st =
        ((slot.writeChunk offset reader).1, st') ∧
      s.Holds svc id st' (slot.writeChunk offset reader).2 := by
  have hrecord : slot.record = .ok info := by rw [Slot.record, hinfo]
  have hread : (s.readInfo id).run svc.impl st = (.ok info, st) := by
    apply run_readInfo hs
    rw [hh.info, hinfo, Option.map_some]
  rw [writeChunk, bind_eq, run_bind_ok hread, Slot.writeChunk, hrecord]
  cases haccept : FileStore.acceptChunk info offset reader with
  | error e => exact ⟨st, by simp [haccept], by simpa [haccept] using hh⟩
  | ok accepted =>
      obtain ⟨buf, endOffset⟩ := accepted
      obtain ⟨st', hrun, hslot⟩ := run_storeChunk hs hh info buf endOffset
      exact ⟨st', by simp [haccept, hrun], by simpa [haccept] using hslot⟩

/-- A new upload where none of its objects exist. -/
theorem run_createUpload (hs : svc.Stores) {info : UploadInfo}
    (hh : s.Holds svc info.id st .empty) :
    ∃ st', (s.createUpload info).run svc.impl st = (.ok (), st') ∧
      s.Holds svc info.id st' { Slot.empty with info := some info } := by
  obtain ⟨st', hrun, hcontent⟩ := @run_writeInfo s svc info.id st hs info
  exact ⟨st', hrun, hh.putInfo hcontent⟩

theorem run_declareLength (hs : svc.Stores) (hh : s.Holds svc id st slot) {info : UploadInfo}
    (hinfo : slot.info = some info) (length : ℕ) :
    ∃ st', (s.declareLength id length).run svc.impl st = ((slot.declareLength length).1, st') ∧
      s.Holds svc id st' (slot.declareLength length).2 := by
  have hread : (s.readInfo id).run svc.impl st = (.ok info, st) := by
    apply run_readInfo hs
    rw [hh.info, hinfo, Option.map_some]
  rw [declareLength, bind_eq, run_bind_ok hread, Slot.declareLength, hinfo]
  cases hsize : info.size with
  | some size => exact ⟨st, by simp [refuseIf, hsize], by simpa [hsize] using hh⟩
  | none =>
      obtain ⟨st', hrun, hcontent⟩ := @run_writeInfo s svc id st hs
        { info with size := some length, sizeIsDeferred := false }
      exact ⟨st', by simp [refuseIf, hsize, hrun], by simpa [hsize] using hh.putInfo hcontent⟩

/-- Removals take what they name. -/
theorem run_deleteAll (hs : svc.Stores) (keys : List Str) :
    ∃ st', (deleteAll keys).run svc.impl st = (.ok (), st') ∧
      svc.content st' = fun k => if k ∈ keys then none else svc.content st k := by
  induction keys generalizing st with
  | nil => exact ⟨st, rfl, by simp⟩
  | cons key keys ih =>
      obtain ⟨st', hrun, hcontent⟩ := @ih (svc.impl (.delete key) st).2
      refine ⟨st', hrun, ?_⟩
      rw [hcontent, hs.delete_content]
      funext k
      by_cases hk : k = key
      · subst hk
        simp
      · simp [hk]

/-- Whatever fails, removals return `Ok` and do nothing else. -/
theorem after_deleteAll {σ : Type} {h : Interp ObjectSig σ} {st : σ} (keys : List Str) :
    After h (deleteAll keys) st fun r _ l => r = .ok () ∧ ∀ c ∈ l, ∃ key, c.1 = .delete key := by
  induction keys generalizing st with
  | nil => exact ⟨rfl, nofun⟩
  | cons key keys ih =>
      apply After.op
      apply (@ih (h (.delete key) st).2).mono
      rintro r st' l ⟨hr, hl⟩
      exact ⟨hr, List.forall_mem_cons.mpr ⟨⟨key, rfl⟩, hl⟩⟩

theorem filterMap_removals {α : Type} {f : (o : ObjectOp) × ObjectSig.Ans o → Option α}
    {l : Calls ObjectSig} (hf : ∀ key r, f ⟨.delete key, r⟩ = none)
    (hl : ∀ c ∈ l, ∃ key, c.1 = .delete key) : l.filterMap f = [] := by
  rw [List.filterMap_eq_nil_iff]
  rintro ⟨o, r⟩ hc
  obtain ⟨key, hkey⟩ := hl _ hc
  obtain rfl : o = .delete key := hkey
  exact hf key r

/-- The parts of the slot, by their names. -/
theorem Holds.contents (hh : s.Holds svc id st slot) :
    svc.contents st ((List.range slot.parts.length).map (s.partKey id)) = some slot.parts := by
  rw [Service.contents, Text.mapM_eq_some_iff, List.forall₂_map_left_iff,
    List.forall₂_iff_get]
  refine ⟨List.length_range, fun n hn hn' => ?_⟩
  rw [List.get_eq_getElem, List.getElem_range, hh.part, List.getElem?_eq_getElem hn']
  rfl

end Fileloft.ObjectStore
