import Fileloft.Effect.Fault
import Fileloft.Fs.Chunks
import Fileloft.Object.Bucket
import Fileloft.Object.Slot

/-!
# Deleting an upload while calls fail

A call to the file system or to the object service may fail without an
effect. A deletion makes each call at most once, so a pattern of failures
says of each call whether it fails.
-/

namespace Fileloft

/-- What the handler relies on: a deletion that returns `Ok` leaves no object
of the upload, and one that returns an error leaves its record. -/
structure Deleted (answer : Except TusError Unit) (objects : KeyKind → Option Bytes) : Prop where
  gone : answer = .ok () →
    objects .data = none ∧ objects .info = none ∧ ∀ n, objects (.part n) = none
  repeatable : ∀ e, answer = .error e → objects .info ≠ none

namespace FileStore

variable {s : FileStore} {id : UploadId} {d d' : Disk} {order : Listing} {fails : FsOp → Bool}

/-- An upload that can be looked up, with any of its parts. -/
structure Stored (s : FileStore) (id : UploadId) (d : Disk) : Prop where
  laid : s.Laid d
  bounded : ∀ n, d.content (s.partPath id n) ≠ none → n < U32_BOUND
  record : d.content (s.infoPath id) ≠ none

/-- The disk operations, of which some fail. -/
def failingDisk (fails : FsOp → Bool) (order : Listing) : Interp FsSig Disk :=
  Prog.failing (Disk.interp order) fails fun _ => .error .other

theorem run_failing_removeFile {p : Path} (hp : d.isDir p = false) :
    ∃ d', (FsProg.removeFileIgnoreNotFound p).run (failingDisk fails order) d =
        (if fails (.removeFile p) then .error (.io .other) else .ok (), d') ∧
      d'.dirs = d.dirs ∧
      ∀ q, d'.content q = if q = p ∧ fails (.removeFile p) = false then none else d.content q := by
  cases hfail : fails (.removeFile p) with
  | true =>
      refine ⟨d, ?_, rfl, fun q => by simp⟩
      rw [FsProg.removeFileIgnoreNotFound, Prog.run_op, failingDisk, Prog.failing_of_fails hfail]
      rfl
  | false =>
      obtain ⟨d', hrun, hdirs, hcontent⟩ := run_removeFile hp order
      refine ⟨d', ?_, hdirs, fun q => by simp [hcontent]⟩
      rw [FsProg.removeFileIgnoreNotFound, Prog.run_op] at hrun ⊢
      rw [failingDisk, Prog.failing_of_not hfail]
      generalize Disk.interp order (.removeFile p) d = answer at hrun ⊢
      obtain ⟨(_ | _) | _, d₁⟩ := answer <;> exact hrun

/-- The first removal that fails ends the sequence. -/
theorem run_failing_removeAll {ps : List Path} (hps : ∀ p ∈ ps, d.isDir p = false) :
    ∃ r d', (removeAll ps).run (failingDisk fails order) d = (r, d') ∧
      (∀ q, d'.content q ≠ none → d.content q ≠ none) ∧
      ((∀ p ∈ ps, fails (.removeFile p) = false) → r = .ok () ∧
        ∀ q, d'.content q = if q ∈ ps then none else d.content q) ∧
      ((∃ p ∈ ps, fails (.removeFile p) = true) → r = .error (.io .other)) := by
  induction ps generalizing d with
  | nil => exact ⟨.ok (), d, rfl, fun _ h => h, by simp, by simp⟩
  | cons p ps ih =>
      obtain ⟨hp, hps⟩ := List.forall_mem_cons.mp hps
      obtain ⟨d₁, hrun₁, hdirs₁, hcontent₁⟩ := @run_failing_removeFile d order fails p hp
      have hless (q : Path) (hq : d₁.content q ≠ none) : d.content q ≠ none := by
        rw [hcontent₁] at hq
        split at hq
        · exact absurd rfl hq
        · exact hq
      cases hfail : fails (.removeFile p) with
      | true =>
          rw [hfail] at hrun₁
          refine ⟨_, d₁, ?_, hless, fun hall => ?_, fun _ => rfl⟩
          · rw [removeAll, Prog.bind_eq, Prog.run_bind_error hrun₁]
          · cases hfail.symm.trans (hall p List.mem_cons_self)
      | false =>
          rw [hfail] at hrun₁ hcontent₁
          have hps₁ : ∀ q ∈ ps, d₁.isDir q = false := fun q hq => by
            have hq := hps q hq
            rwa [Disk.isDir, hdirs₁]
          obtain ⟨r, d', hrun, hless', hok, herror⟩ := ih hps₁
          refine ⟨r, d', ?_, fun q hq => hless q (hless' q hq), fun hall => ?_, ?_⟩
          · rw [removeAll, Prog.bind_eq, Prog.run_bind_ok hrun₁, hrun]
          · obtain ⟨hr, hcontent⟩ := hok fun q hq => hall q (List.mem_cons_of_mem _ hq)
            refine ⟨hr, fun q => ?_⟩
            rw [hcontent, hcontent₁]
            by_cases hq : q = p <;> by_cases hqs : q ∈ ps <;> simp [hq, hqs]
          · rintro ⟨q, hq, hfails⟩
            rcases List.mem_cons.mp hq with rfl | hq
            · cases hfail.symm.trans hfails
            · exact herror ⟨q, hq, hfails⟩

theorem run_failing_list (hd : s.Laid d) (hid : id.Valid) {idxs : List ℕ}
    (hidxs : s.Numbers d id idxs) (hmade : s.dir ∈ d.dirs) :
    (s.listPartPathsSorted id).run (failingDisk fails order) d =
      (if fails (.tryExists s.dir) = false ∧ fails (.readDir s.dir) = false
        then .ok (idxs.map (s.partPath id)) else .error (.io .other), d) := by
  simp only [listPartPathsSorted, infoPath, s.parent_path hid, FsProg.tryExists, FsProg.readDir,
    FsProg.io, Prog.bind_eq, Prog.op_bind, Prog.run_op, failingDisk]
  cases hexists : fails (.tryExists s.dir) with
  | true =>
      rw [Prog.failing_of_fails hexists]
      simp
  | false =>
      rw [Prog.failing_of_not hexists]
      simp only [Disk.interp, hmade, decide_true, Bool.true_or, Prog.ret_bind, if_true,
        Prog.run_op, true_and]
      cases hread : fails (.readDir s.dir) with
      | true =>
          rw [Prog.failing_of_fails hread]
          simp
      | false =>
          rw [Prog.failing_of_not hread]
          simp [Disk.interp, hmade, hd.sortedParts_eq hid hidxs]

theorem Stored.numbers (hd : s.Stored id d) :
    ∃ idxs, s.Numbers d id idxs := by
  refine ⟨(List.range U32_BOUND).filter fun n => d.content (s.partPath id n) ≠ none, ?_, ?_, ?_⟩
  · exact List.pairwise_lt_range.filter _
  · intro n hn
    exact List.mem_range.mp (List.mem_filter.mp hn).1
  · intro n
    rw [List.mem_filter, List.mem_range, decide_eq_true_iff]
    exact and_iff_right_of_imp (hd.bounded n)

/-- No call after the removal of the record fails. -/
def FinishesRemoval (s : FileStore) (id : UploadId) (fails : FsOp → Bool) (d : Disk) : Prop :=
  fails (.tryExists s.dir) = false ∧ fails (.readDir s.dir) = false ∧
    ∀ n, d.content (s.partPath id n) ≠ none → fails (.removeFile (s.partPath id n)) = false

/-- The part of a deletion that follows the removal of the record. -/
theorem run_failing_parts (hd : s.Laid d) (hid : id.Valid) {idxs : List ℕ}
    (hidxs : s.Numbers d id idxs) (hmade : s.dir ∈ d.dirs) :
    ∃ r d', ((s.listPartPathsSorted id).bind removeAll).run (failingDisk fails order) d = (r, d') ∧
      (∀ q, d'.content q ≠ none → d.content q ≠ none) ∧
      (s.FinishesRemoval id fails d → r = .ok () ∧ ∀ n, d'.content (s.partPath id n) = none) ∧
      (¬ s.FinishesRemoval id fails d → ∃ e, r = .error e) := by
  have hlist := @run_failing_list s id d order fails hd hid idxs hidxs hmade
  by_cases hlisted : fails (.tryExists s.dir) = false ∧ fails (.readDir s.dir) = false
  · rw [if_pos hlisted] at hlist
    obtain ⟨r, d', hrun, hless, hok, herror⟩ :=
      @run_failing_removeAll d order fails (idxs.map (s.partPath id))
        (List.forall_mem_map.mpr fun n _ => hd.isDir_path hid _)
    refine ⟨r, d', by rw [Prog.run_bind_ok hlist, hrun], hless, fun hfinish => ?_, fun hnot => ?_⟩
    · obtain ⟨hr, hcontent⟩ := hok (List.forall_mem_map.mpr fun n hn =>
        hfinish.2.2 n ((hidxs.mem_iff n).mp hn))
      refine ⟨hr, fun n => ?_⟩
      rw [hcontent]
      split
      · rfl
      · next hmem =>
          by_contra hpart
          exact hmem (List.mem_map_of_mem ((hidxs.mem_iff n).mpr hpart))
    · simp only [FinishesRemoval, hlisted, true_and, not_forall] at hnot
      obtain ⟨n, hpart, hfails⟩ := hnot
      exact ⟨_, herror ⟨_,
        List.mem_map_of_mem ((hidxs.mem_iff n).mpr hpart), by simpa using hfails⟩⟩
  · rw [if_neg hlisted] at hlist
    refine ⟨_, d, Prog.run_bind_error hlist, fun _ hq => hq, fun hfinish => ?_, fun _ => ⟨_, rfl⟩⟩
    exact absurd ⟨hfinish.1, hfinish.2.1⟩ hlisted

/-- A deletion is lost when a call fails after the record is gone. -/
theorem deleted_iff (hd : s.Stored id d) (hid : id.Valid) :
    Deleted ((s.delete id).run (failingDisk fails order) d).1
        (fun kind => ((s.delete id).run (failingDisk fails order) d).2.content (s.path id kind)) ↔
      fails (.removeFile (s.dataPath id)) = true ∨ fails (.removeFile (s.infoPath id)) = true ∨
        s.FinishesRemoval id fails d := by
  have hne {k l : KeyKind} (hkl : k ≠ l) : s.path id k ≠ s.path id l := fun heq =>
    hkl (s.path_injective hid hid heq).2
  obtain ⟨d₁, hrun₁, hdirs₁, hcontent₁⟩ :=
    @run_failing_removeFile d order fails _ (hd.laid.isDir_path hid .data)
  have hinfo₁ : d₁.content (s.path id .info) ≠ none := by
    rw [hcontent₁, if_neg fun h => hne (by decide) h.1]
    exact hd.record
  rw [delete, Prog.bind_eq, dataPath]
  cases hdata : fails (.removeFile (s.path id .data)) with
  | true =>
      rw [hdata] at hrun₁
      rw [Prog.run_bind_error hrun₁]
      exact iff_of_true ⟨fun hok => (by cases hok), fun _ _ => hinfo₁⟩ (.inl rfl)
  | false =>
      rw [hdata] at hrun₁ hcontent₁
      rw [Prog.run_bind_ok hrun₁, Prog.bind_eq, infoPath]
      have hdir₁ : d₁.isDir (s.path id .info) = false := by
        rw [Disk.isDir, hdirs₁]
        exact hd.laid.isDir_path hid .info
      obtain ⟨d₂, hrun₂, hdirs₂, hcontent₂⟩ := @run_failing_removeFile d₁ order fails _ hdir₁
      cases hinfo : fails (.removeFile (s.path id .info)) with
      | true =>
          rw [hinfo] at hrun₂ hcontent₂
          rw [Prog.run_bind_error hrun₂]
          refine iff_of_true ⟨fun hok => (by cases hok), fun _ _ => ?_⟩ (.inr (.inl rfl))
          rw [hcontent₂]
          simpa using hinfo₁
      | false =>
          rw [hinfo] at hrun₂ hcontent₂
          rw [Prog.run_bind_ok hrun₂, Prog.bind_eq]
          -- the record is gone, so from here on every failure breaks the law
          have hkey (k : KeyKind) : d₂.content (s.path id k) =
              if k = .info ∨ k = .data then none else d.content (s.path id k) := by
            rw [hcontent₂, hcontent₁]
            by_cases hkinfo : k = .info
            · simp [hkinfo]
            · by_cases hkdata : k = .data
              · simp [hkdata]
              · simp [hkinfo, hkdata, hne hkinfo, hne hkdata]
          have hpart (n : ℕ) : d₂.content (s.partPath id n) = d.content (s.partPath id n) := by
            rw [partPath, hkey, if_neg (by simp)]
          have hlaid₂ : s.Laid d₂ := by
            apply hd.laid.of_le
            · intro q hq
              rw [hcontent₂, hcontent₁] at hq
              by_contra hnone
              exact hq (by simp [hnone])
            · rw [hdirs₂, hdirs₁]
          have hmade₂ : s.dir ∈ d₂.dirs := by
            rw [hdirs₂, hdirs₁]
            exact hd.laid.made _ hd.record
          have hfinishes : s.FinishesRemoval id fails d₂ ↔ s.FinishesRemoval id fails d := by
            simp only [FinishesRemoval, hpart]
          obtain ⟨idxs, hidxs⟩ := hd.numbers
          have hidxs₂ : s.Numbers d₂ id idxs :=
            ⟨hidxs.sorted, hidxs.bounded, fun n => by rw [hidxs.mem_iff, hpart]⟩
          obtain ⟨r, d₃, hrun₃, hless, hok, herror⟩ :=
            @run_failing_parts s id d₂ order fails hlaid₂ hid idxs hidxs₂ hmade₂
          have hnone {k : KeyKind} (hk : k = .info ∨ k = .data) :
              d₃.content (s.path id k) = none := by
            by_contra hkept
            exact hless _ hkept (by rw [hkey, if_pos hk])
          rw [hrun₃, ← hfinishes]
          simp only [Bool.false_eq_true, false_or]
          constructor
          · intro hdeleted
            by_contra hnot
            obtain ⟨e, rfl⟩ := herror hnot
            exact hdeleted.repeatable e rfl (hnone (.inl rfl))
          · intro hfinish
            obtain ⟨rfl, hparts⟩ := hok hfinish
            exact ⟨fun _ => ⟨hnone (.inr rfl), hnone (.inl rfl), hparts⟩, fun e he => by cases he⟩

end FileStore

namespace ObjectStore

variable {s : ObjectStore} {svc : Service} {id : UploadId} {st : svc.State}
  {fails : ObjectOp → Bool} {error : ServiceError}

/-- The service calls, of which some fail. -/
def failingCalls (svc : Service) (fails : ObjectOp → Bool) (error : ServiceError) :
    Interp ObjectSig svc.State :=
  Prog.failing svc.impl fails fun _ => .error error

theorem run_bestEffort (o : ObjectOp) {β : Type} (f : Unit → ObjectProg β) :
    ((bestEffort o).bind f).run (failingCalls svc fails error) st =
      (f ()).run (failingCalls svc fails error) (failingCalls svc fails error o st).2 := rfl

/-- A removal that fails leaves the objects as they are. -/
theorem content_failing_delete (hsvc : svc.Stores) (key : Str) :
    svc.content (failingCalls svc fails error (.delete key) st).2 = fun k =>
      if k = key ∧ fails (.delete key) = false then none else svc.content st k := by
  cases hfail : fails (.delete key) with
  | true =>
      rw [failingCalls, Prog.failing_of_fails hfail]
      simp
  | false =>
      rw [failingCalls, Prog.failing_of_not hfail, hsvc.delete_content]
      funext k
      simp [Function.update_apply]

theorem run_failing_deleteAll (hsvc : svc.Stores) (keys : List Str) :
    ∃ st', (deleteAll keys).run (failingCalls svc fails error) st = (.ok (), st') ∧
      svc.content st' = fun k =>
        if k ∈ keys ∧ fails (.delete k) = false then none else svc.content st k := by
  induction keys generalizing st with
  | nil => exact ⟨st, rfl, by simp⟩
  | cons key keys ih =>
      obtain ⟨st', hrun, hcontent⟩ := @ih (failingCalls svc fails error (.delete key) st).2
      refine ⟨st', ?_, ?_⟩
      · rw [deleteAll, Prog.bind_eq, run_bestEffort, hrun]
      · rw [hcontent, content_failing_delete hsvc]
        funext k
        by_cases hk : k = key
        · subst hk
          cases fails (.delete k) <;> simp
        · simp [hk]

/-- The removal that takes an object of the upload does not fail, nor does
the listing that finds it. -/
def Takes (s : ObjectStore) (id : UploadId) (fails : ObjectOp → Bool) (k : KeyKind) : Prop :=
  fails (.delete (s.key id k)) = false ∧
    ((∃ n, k = .part n) → fails (.list (s.partPrefix id)) = false)

/-- A deletion answers `Ok`, and takes what no failure leaves. -/
theorem run_failing_delete_all (hsvc : svc.Stores) :
    ∃ st', (s.delete id).run (failingCalls svc fails error) st = (.ok (), st') ∧
      ∀ k, k = .data ∨ k = .info ∨ (∃ n, k = .part n) →
        (svc.content st' (s.key id k) = none ↔
          svc.content st (s.key id k) = none ∨ s.Takes id fails k) := by
  rw [delete, Prog.bind_eq, run_bestEffort, Prog.bind_eq, run_bestEffort]
  generalize hst₁ : (failingCalls svc fails error (.delete (s.dataKey id)) st).2 = st₁
  generalize hst₂ : (failingCalls svc fails error (.delete (s.infoKey id)) st₁).2 = st₂
  have hkey₂ (k : KeyKind) : svc.content st₂ (s.key id k) =
      if (k = .data ∨ k = .info) ∧ fails (.delete (s.key id k)) = false then none
      else svc.content st (s.key id k) := by
    have hiff (l : KeyKind) : s.key id k = s.key id l ↔ k = l := ⟨key_injective, congrArg _⟩
    rw [← hst₂, content_failing_delete hsvc, ← hst₁, content_failing_delete hsvc]
    simp only [dataKey, infoKey, hiff]
    by_cases hinfo : k = .info
    · subst hinfo
      simp
    · by_cases hdata : k = .data
      · subst hdata
        simp
      · simp [hinfo, hdata]
  rw [listParts, request, send, Prog.bind_eq, Prog.bind_eq, Prog.op_bind, Prog.attempt,
    Prog.op_bind, Prog.run_op]
  cases hlist : fails (.list (s.partPrefix id)) with
  | true =>
      rw [failingCalls, Prog.failing_of_fails hlist]
      refine ⟨st₂, rfl, fun k hk => ?_⟩
      rw [hkey₂, Takes, hlist]
      rcases hk with rfl | rfl | ⟨n, rfl⟩
      · cases fails (.delete (s.key id .data)) <;> simp
      · cases fails (.delete (s.key id .info)) <;> simp
      · simp
  | false =>
      obtain ⟨names, hnames, -, hmem⟩ := hsvc.list_ok (s.partPrefix id) st₂
      obtain ⟨st', hrun', hcontent⟩ :=
        @run_failing_deleteAll svc st₂ fails error hsvc (sortedParts names)
      rw [failingCalls, Prog.failing_of_not hlist, hnames, hsvc.list_keeps]
      refine ⟨st', hrun', fun k hk => ?_⟩
      have hlisted : s.key id k ∈ sortedParts names ↔
          svc.content st₂ (s.key id k) ≠ none ∧ ∃ n, k = .part n := by
        rw [mem_sortedParts, hmem, partPrefix_key]
        refine and_iff_left_of_imp ?_
        rintro ⟨-, n, rfl⟩
        simp [key, UploadId.key, KeyKind.suffix_part]
      rw [hcontent]
      simp only [hlisted, hkey₂, Takes, hlist]
      rcases hk with rfl | rfl | ⟨n, rfl⟩
      · cases fails (.delete (s.key id .data)) <;> simp
      · cases fails (.delete (s.key id .info)) <;> simp
      · by_cases hpart : svc.content st (s.key id (.part n)) = none
        · simp [hpart]
        · have hmember : s.key id (.part n) ∈ sortedParts names := by
            rw [hlisted, hkey₂]
            simpa using hpart
          simp [hpart, hmember]

/-- A deletion is complete when no failure hits what has to go. -/
theorem deleted_iff (hsvc : svc.Stores) :
    Deleted ((s.delete id).run (failingCalls svc fails error) st).1
        (fun k => svc.content ((s.delete id).run (failingCalls svc fails error) st).2
          (s.key id k)) ↔
      ∀ k, k = .data ∨ k = .info ∨ (∃ n, k = .part n) →
        svc.content st (s.key id k) ≠ none → s.Takes id fails k := by
  obtain ⟨st', hrun, hkeys⟩ := @run_failing_delete_all s svc id st fails error hsvc
  rw [hrun]
  have hgone (k : KeyKind) (hk : k = .data ∨ k = .info ∨ ∃ n, k = .part n) :
      svc.content st' (s.key id k) = none ↔
        (svc.content st (s.key id k) ≠ none → s.Takes id fails k) := by
    rw [hkeys k hk, or_iff_not_imp_left]
  constructor
  · intro hdeleted k hk
    obtain ⟨hdata, hinfo, hparts⟩ := hdeleted.gone rfl
    apply (hgone k hk).mp
    rcases hk with rfl | rfl | ⟨n, rfl⟩
    · exact hdata
    · exact hinfo
    · exact hparts n
  · intro hall
    refine ⟨fun _ => ⟨?_, ?_, fun n => ?_⟩, fun e he => by cases he⟩
    · exact (hgone _ (.inl rfl)).mpr (hall _ (.inl rfl))
    · exact (hgone _ (.inr (.inl rfl))).mpr (hall _ (.inr (.inl rfl)))
    · exact (hgone _ (.inr (.inr ⟨n, rfl⟩))).mpr (hall _ (.inr (.inr ⟨n, rfl⟩)))

end ObjectStore

/-- The file store deletes for good unless a call fails after the record is
gone, and the object store unless a failure hits something that has to go. -/
theorem delete_complete_iff (s : FileStore) (o : ObjectStore) (svc : Service) (hsvc : svc.Stores) :
    (∀ (id : UploadId) (d : Disk) (order : Listing) (fails : FsOp → Bool), id.Valid →
        s.Stored id d →
      (Deleted ((s.delete id).run (FileStore.failingDisk fails order) d).1
          (fun k => ((s.delete id).run (FileStore.failingDisk fails order) d).2.content
            (s.path id k)) ↔
        fails (.removeFile (s.dataPath id)) = true ∨ fails (.removeFile (s.infoPath id)) = true ∨
          s.FinishesRemoval id fails d)) ∧
    ∀ (id : UploadId) (st : svc.State) (fails : ObjectOp → Bool) (error : ServiceError),
      Deleted ((o.delete id).run (ObjectStore.failingCalls svc fails error) st).1
          (fun k => svc.content
            ((o.delete id).run (ObjectStore.failingCalls svc fails error) st).2 (o.key id k)) ↔
        ∀ k, k = .data ∨ k = .info ∨ (∃ n, k = .part n) →
          svc.content st (o.key id k) ≠ none → o.Takes id fails k :=
  ⟨fun _ _ _ _ hid hd => FileStore.deleted_iff hd hid, fun _ _ _ _ => ObjectStore.deleted_iff hsvc⟩

namespace HalfDeleted

open FileStore TwoChunks

/-- The removal of the first part fails. -/
def partFails (o : FsOp) : Bool := o = .removeFile (uploads.partPath info.id 0)

theorem stored : uploads.Stored info.id second := by
  have hparts : ∀ n, second.content (uploads.partPath info.id n) =
      (slotsSecond info.id).parts[n]? :=
    fun n => keeps_second.file info.id valid (.part n)
  refine ⟨keeps_second.laid, fun n hn => ?_, ?_⟩
  · rw [hparts] at hn
    have hlt : n < 2 := by
      by_contra hge
      have hlength : (slotsSecond info.id).parts.length = 2 := rfl
      exact hn (List.getElem?_eq_none (by omega))
    exact hlt.trans (by decide)
  · rw [infoPath, keeps_second.file info.id valid .info]
    exact Option.some_ne_none _

def bucket : ObjectStore := ⟨.s3, [], .json, slashed_nil⟩

/-- The record of the upload alone. -/
def created : Bucket.service.State :=
  (Bucket.service.impl (.put (bucket.infoKey info.id) [1]) Bucket.service.empty).2

/-- The removal of the record fails. -/
def recordFails (o : ObjectOp) : Bool := o = .delete (bucket.infoKey info.id)

def unavailable : ServiceError := ⟨false, "service unavailable".toList⟩

theorem created_record : Bucket.service.content created (bucket.key info.id .info) ≠ none := by
  rw [created, Bucket.stores.put_content, ObjectStore.infoKey, Function.update_self]
  exact Option.some_ne_none _

end HalfDeleted

open FileStore HalfDeleted TwoChunks in
theorem delete_complete_iff_two :
    (Deleted ((uploads.delete info.id).run (failingDisk partFails order) second).1
        (fun k => ((uploads.delete info.id).run (failingDisk partFails order) second).2.content
          (uploads.path info.id k)) ↔
      partFails (.removeFile (uploads.dataPath info.id)) = true ∨
        partFails (.removeFile (uploads.infoPath info.id)) = true ∨
        uploads.FinishesRemoval info.id partFails second) ∧
    (Deleted ((bucket.delete info.id).run
          (ObjectStore.failingCalls Bucket.service recordFails unavailable) created).1
        (fun k => Bucket.service.content ((bucket.delete info.id).run
          (ObjectStore.failingCalls Bucket.service recordFails unavailable) created).2
            (bucket.key info.id k)) ↔
      ∀ k, k = .data ∨ k = .info ∨ (∃ n, k = .part n) →
        Bucket.service.content created (bucket.key info.id k) ≠ none →
          bucket.Takes info.id recordFails k) := by
  obtain ⟨hfiles, hobjects⟩ := delete_complete_iff uploads bucket Bucket.service Bucket.stores
  exact ⟨hfiles info.id second order partFails valid stored,
    hobjects info.id created recordFails unavailable⟩

open FileStore HalfDeleted TwoChunks in
/-- The first deletion fails and cannot be repeated, the second returns `Ok`
and leaves the record. -/
theorem delete_is_incomplete :
    ¬ Deleted ((uploads.delete info.id).run (failingDisk partFails order) second).1
        (fun k => ((uploads.delete info.id).run (failingDisk partFails order) second).2.content
          (uploads.path info.id k)) ∧
    ¬ Deleted ((bucket.delete info.id).run
          (ObjectStore.failingCalls Bucket.service recordFails unavailable) created).1
        (fun k => Bucket.service.content ((bucket.delete info.id).run
          (ObjectStore.failingCalls Bucket.service recordFails unavailable) created).2
            (bucket.key info.id k)) := by
  constructor
  · rw [deleted_iff stored valid]
    have hne {k : KeyKind} (hk : k ≠ .part 0) : partFails (.removeFile (uploads.path info.id k)) =
        false := by
      simp only [partFails, FsOp.removeFile.injEq, decide_eq_false_iff_not]
      exact fun heq => hk (uploads.path_injective valid valid heq).2
    rintro (hdata | hinfo | hfinish)
    · rw [dataPath, hne (by decide)] at hdata
      cases hdata
    · rw [infoPath, hne (by decide)] at hinfo
      cases hinfo
    · have hpart := hfinish.2.2 0 (by
        rw [partPath, keeps_second.file info.id valid (.part 0)]
        exact Option.some_ne_none _)
      simp [partFails] at hpart
  · rw [ObjectStore.deleted_iff Bucket.stores]
    intro hall
    have htakes := (hall .info (.inr (.inl rfl)) created_record).1
    simp [recordFails, ObjectStore.infoKey] at htakes

end Fileloft
