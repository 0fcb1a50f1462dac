import Fileloft.Object.Commit
import Fileloft.Object.Finish

/-!
# Composing many objects in GCS

More than 32 sources are composed in batches, and the temporaries of the
batches at once. No further level follows.
-/

namespace Fileloft.GcsUpload

open ObjectStore AzureUpload Prog

/-- Every compose request has a source, and at most 32 of them. -/
def Batched (l : Calls ObjectSig) : Prop :=
  ∀ c ∈ l, ∀ dest sources deleteSources, c.1 = .compose dest sources deleteSources →
    1 ≤ sources.length ∧ sources.length ≤ MAX_COMPOSE_SOURCES

theorem Batched.nil : Batched [] := nofun

theorem batched_append {l l' : Calls ObjectSig} :
    Batched (l ++ l') ↔ Batched l ∧ Batched l' := List.forall_mem_append

variable {s : ObjectStore} {svc : Service} {id : UploadId} {st st' : svc.State} {dest : Str}
  {sources batch pre : List Str} {objects : Str → Option Bytes} {data : Bytes} {counter : ℕ}

/-- One request joins its sources and removes them. -/
theorem after_composeChunk (hc : svc.Composes) {cs : List Bytes} (hne : batch ≠ [])
    (hfew : batch.length ≤ MAX_COMPOSE_SOURCES) (hdest : dest ∉ batch)
    (hcs : svc.contents st batch = some cs) :
    After svc.impl (composeChunk s id dest batch) st fun r st' l =>
      r = .ok () ∧ Batched l ∧ svc.content st' = fun key => if key ∈ batch then none
        else Function.update (svc.content st) dest (some cs.flatten) key := by
  obtain ⟨hanswer, hcontent⟩ :=
    @Service.Composes.compose_ok svc hc dest batch true cs st hne hfew hdest hcs
  rw [composeChunk, if_neg hne]
  apply After.op
  rw [hanswer]
  refine ⟨rfl, ?_, ?_⟩
  · rintro c hmem dest' sources' deleteSources heq
    obtain rfl := List.mem_singleton.mp hmem
    obtain ⟨-, rfl, -⟩ := ObjectOp.compose.inj heq
    exact ⟨List.length_pos_iff.mpr hne, hfew⟩
  · refine hcontent.trans (funext fun key => ?_)
    rw [Service.composed]
    by_cases hkey : key = dest
    · subst hkey
      rw [if_pos rfl, if_neg hdest, Function.update_self]
    · rw [if_neg hkey, Function.update_of_ne hkey]
      simp only [true_and]

/-- A request with too many sources is sent all the same, and refused. -/
theorem after_composeChunk_many (hc : svc.Composes) (hmany : MAX_COMPOSE_SOURCES < batch.length) :
    After svc.impl (composeChunk s id dest batch) st fun r _ l =>
      (∃ e, r = .error e) ∧ ¬ Batched l := by
  obtain ⟨e, hanswer, -⟩ := @Service.Composes.compose_many svc hc dest batch true st hmany
  have hne : batch ≠ [] := List.length_pos_iff.mp (Nat.zero_lt_of_lt hmany)
  rw [composeChunk, if_neg hne]
  apply After.op
  rw [hanswer]
  refine ⟨⟨_, rfl⟩, fun hbatched => ?_⟩
  have hfew := (hbatched _ List.mem_cons_self dest batch true rfl).2
  omega

section Batches

variable (hc : svc.Composes) (hfree : ∀ key ∈ sources, ∀ k, key ≠ s.tmpKey id k)

include hc hfree

theorem after_composeBatches {batches : List (List Str)}
    (hbatches : ∀ batch ∈ batches, batch ≠ [] ∧ batch.length ≤ MAX_COMPOSE_SOURCES)
    (hmerging : Merging s svc id objects sources data counter (pre ++ batches.flatten) st) :
    After svc.impl (composeBatches s id counter batches) st fun r st' l =>
      r = .ok (tmpKeys s id counter batches.length) ∧ Batched l ∧
        Merging s svc id objects sources data (counter + batches.length)
          (pre ++ tmpKeys s id counter batches.length) st' := by
  induction batches generalizing counter pre st with
  | nil => exact ⟨rfl, .nil, hmerging⟩
  | cons batch batches ih =>
      obtain ⟨⟨hne, hfew⟩, hrest⟩ := List.forall_mem_cons.mp hbatches
      rw [List.flatten_cons] at hmerging
      obtain ⟨all, hall, -⟩ := hmerging.joined
      obtain ⟨-, bs, -, hbs, -⟩ := Text.mapM_append_eq_some.mp hall
      obtain ⟨cs, -, hcs, -, -⟩ := Text.mapM_append_eq_some.mp hbs
      have hdest : s.tmpKey id counter ∉ batch := by
        intro hmem
        apply not_touched_tmpKey hfree
        apply hmerging.touched
        exact List.mem_append_right _ (List.mem_append_left _ hmem)
      apply After.bind (after_composeChunk hc hne hfew hdest hcs)
      · rintro _ st₁ l ⟨-, hl, hcontent⟩
        have hmerging₁ := hmerging.commit hfree hcs hcontent
        rw [List.append_cons] at hmerging₁
        apply After.bind (ih hrest hmerging₁)
        · rintro tmps st₂ l' ⟨htmps, hl', hmerging₂⟩
          obtain rfl := Except.ok.inj htmps
          apply After.ret
          rw [List.length_cons, tmpKeys_succ]
          refine ⟨rfl, ?_, ?_⟩
          · rw [List.append_nil]
            exact batched_append.mpr ⟨hl, hl'⟩
          · rw [List.append_cons, ← Nat.add_assoc, Nat.add_right_comm]
            exact hmerging₂
        · rintro e st₂ l' ⟨he, -⟩
          cases he
      · rintro e st₁ l ⟨he, -⟩
        cases he

/-- Up to 32 batches of 32 sources are composed into the destination. More of
them make a request that is too large. -/
theorem after_composeAll (hne : sources ≠ []) (hdest : ∀ n, ¬ Touched s id sources n dest)
    (hmerging : Merging s svc id objects sources data 0 sources st) :
    After svc.impl (composeAll s id dest sources) st fun r st' l =>
      (sources.length ≤ MAX_COMPOSE_SOURCES * MAX_COMPOSE_SOURCES →
        r = .ok () ∧ Batched l ∧ svc.content st' dest = some data ∧
          ∀ key, key ≠ dest → (∀ n, ¬ Touched s id sources n key) →
            svc.content st' key = objects key) ∧
      (MAX_COMPOSE_SOURCES * MAX_COMPOSE_SOURCES < sources.length →
        (∃ e, r = .error e) ∧ ¬ Batched l) := by
  have hjoins {n : ℕ} {srcs : List Str} {st : svc.State} (hne : srcs ≠ [])
      (hfew : srcs.length ≤ MAX_COMPOSE_SOURCES)
      (hmerging : Merging s svc id objects sources data n srcs st) :
      After svc.impl (composeChunk s id dest srcs) st fun r st' l =>
        r = .ok () ∧ Batched l ∧ svc.content st' dest = some data ∧
          ∀ key, key ≠ dest → (∀ n, ¬ Touched s id sources n key) →
            svc.content st' key = objects key := by
    obtain ⟨cs, hcs, hdata⟩ := hmerging.joined
    have hnot : dest ∉ srcs := fun hmem => hdest _ (hmerging.touched dest hmem)
    apply (after_composeChunk hc hne hfew hnot hcs).mono
    rintro r st' l ⟨hr, hl, hcontent⟩
    refine ⟨hr, hl, ?_, fun key hkey htouched => ?_⟩
    · rw [hcontent]
      exact (if_neg hnot).trans ((Function.update_self ..).trans (congrArg some hdata))
    · have hmem : key ∉ srcs := fun hmem => htouched _ (hmerging.touched key hmem)
      rw [hcontent]
      refine (if_neg hmem).trans ((Function.update_of_ne hkey ..).trans ?_)
      exact hmerging.kept key (htouched n)
  rw [composeAll]
  split
  · next hfew =>
      apply (hjoins hne hfew hmerging).mono
      intro r st' l hafter
      refine ⟨fun _ => hafter, fun hmany => ?_⟩
      rw [MAX_COMPOSE_SOURCES] at hfew hmany
      omega
  · next hmany =>
      have hbatches : ∀ batch ∈ Text.chunks MAX_COMPOSE_SOURCES sources,
          batch ≠ [] ∧ batch.length ≤ MAX_COMPOSE_SOURCES := fun batch hbatch =>
        ⟨Text.ne_nil_of_mem_chunks (by decide) hbatch, Text.length_le_of_mem_chunks hbatch⟩
      have hcount := Text.length_chunks MAX_COMPOSE_SOURCES sources
      have hflatten : (Text.chunks MAX_COMPOSE_SOURCES sources).flatten = sources :=
        Text.flatten_chunks (by decide) sources
      have hstart : Merging s svc id objects sources data 0
          ([] ++ (Text.chunks MAX_COMPOSE_SOURCES sources).flatten) st := by
        rw [hflatten]
        exact hmerging
      generalize Text.chunks MAX_COMPOSE_SOURCES sources = batches at *
      apply After.bind (after_composeBatches hc hfree hbatches hstart)
      · rintro tmps st₁ l ⟨htmps, hl, hmerging₁⟩
        obtain rfl := Except.ok.inj htmps
        rw [List.nil_append] at hmerging₁
        have hlength : (tmpKeys s id 0 batches.length).length = batches.length := by
          rw [tmpKeys, List.length_map, List.length_range']
        by_cases hfew : batches.length ≤ MAX_COMPOSE_SOURCES
        · have hne₁ : tmpKeys s id 0 batches.length ≠ [] := by
            rw [← List.length_pos_iff, hlength, hcount]
            rw [MAX_COMPOSE_SOURCES] at hmany ⊢
            omega
          apply (hjoins hne₁ (hlength.trans_le hfew) hmerging₁).mono
          rintro r st' l' ⟨hr, hl', hrest⟩
          refine ⟨fun _ => ⟨hr, batched_append.mpr ⟨hl, hl'⟩, hrest⟩, fun hlarge => ?_⟩
          rw [MAX_COMPOSE_SOURCES] at hcount hfew hlarge
          omega
        · apply (after_composeChunk_many hc (by omega)).mono
          rintro r st' l' ⟨hr, hl'⟩
          refine ⟨fun hsmall => ?_, fun _ =>
            ⟨hr, fun hbatched => hl' (batched_append.mp hbatched).2⟩⟩
          rw [MAX_COMPOSE_SOURCES] at hcount hfew hsmall
          omega
      · rintro e st₁ l ⟨he, -⟩
        cases he

end Batches

/-! ## The calls of the store -/

/-- Every compose request is within its bounds, the program answers `Ok`, and
`dest` holds the data. -/
def Joins (svc : Service) (program : ObjectProg Unit) (st : svc.State) (dest : Str) (data : Bytes) :
    Prop :=
  Batched (program.trace svc.impl st) ∧ (program.run svc.impl st).1 = .ok () ∧
    svc.content (program.run svc.impl st).2 dest = some data

theorem joins_iff_of_after {program : ObjectProg Unit} {count bound : ℕ}
    (hafter : After svc.impl program st fun r st' l =>
      (count ≤ bound → r = .ok () ∧ Batched l ∧ svc.content st' dest = some data) ∧
        (bound < count → ¬ Batched l)) :
    Joins svc program st dest data ↔ count ≤ bound := by
  obtain ⟨hfew, hmany⟩ := hafter
  constructor
  · rintro ⟨hbatched, -⟩
    by_contra hlt
    exact hmany (Nat.lt_of_not_le hlt) hbatched
  · intro hle
    obtain ⟨hok, hbatched, hdata⟩ := hfew hle
    exact ⟨hbatched, hok, hdata⟩

/-- A call that is not a compose request. -/
def Plain (o : ObjectOp) : Prop :=
    ∀ dest sources deleteSources, o ≠ .compose dest sources deleteSources

theorem batched_of_uses {α : Type} {program : ObjectProg α}
    (huses : program.Uses Plain fun _ _ => True) :
    After svc.impl program st fun _ _ l => Batched l := by
  apply (After.of_uses huses).mono
  intro r st' l hl c hmem dest sources deleteSources heq
  exact absurd heq (hl c hmem dest sources deleteSources)

theorem after_listParts {slot : Slot} (hs : svc.Stores) (hh : s.Holds svc id st slot) :
    After svc.impl (s.listParts id) st fun r st' l =>
      (r = .ok ((List.range slot.parts.length).map (s.partKey id)) ∧ st' = st) ∧ Batched l := by
  have hrun := run_listParts hs hh
  apply After.and _ (batched_of_uses (uses_listParts nofun))
  exact ⟨congrArg Prod.fst hrun, congrArg Prod.snd hrun⟩

/-- The record of a final upload is written beside its data. -/
theorem after_writeFinalInfo (hs : svc.Stores) {info : UploadInfo}
    (hinfo : svc.content st (s.infoKey id) = some (s.codec.encode info))
    (hdata : svc.content st (s.dataKey id) = some data) (partials : List UploadInfo) :
    After svc.impl (s.writeFinalInfo id partials) st fun r st' l =>
      (r = .ok () ∧ svc.content st' (s.dataKey id) = some data) ∧ Batched l := by
  apply After.and _ (batched_of_uses (uses_writeFinalInfo nofun (fun _ => nofun) partials))
  have hread := run_readInfo hs hinfo
  have hne : s.dataKey id ≠ s.infoKey id := fun heq => nomatch key_injective heq
  obtain ⟨st', hwrite, hcontent⟩ := @run_writeInfo s svc id st hs
    { info with
      size := some (wrappingSum (partials.filterMap UploadInfo.size))
      offset := wrappingSum (partials.filterMap UploadInfo.size)
      isFinal := true }
  have hrun : (s.writeFinalInfo id partials).run svc.impl st = (.ok (), st') :=
    (run_bind_ok hread).trans hwrite
  change ((s.writeFinalInfo id partials).run svc.impl st).1 = _ ∧
    svc.content ((s.writeFinalInfo id partials).run svc.impl st).2 _ = _
  rw [hrun, hcontent, Function.update_of_ne hne]
  exact ⟨rfl, hdata⟩

theorem parts_join_iff (hs : svc.Stores) (hc : svc.Composes) {slot : Slot}
    (hh : s.Holds svc id st slot) (hparts : slot.parts ≠ []) :
    Joins svc (finalize s id) st (s.dataKey id) slot.parts.flatten ↔
      slot.parts.length ≤ MAX_COMPOSE_SOURCES * MAX_COMPOSE_SOURCES := by
  let sources := (List.range slot.parts.length).map (s.partKey id)
  have hlength : sources.length = slot.parts.length := by
    rw [List.length_map, List.length_range]
  have hne : sources ≠ [] := by
    rw [← List.length_pos_iff, hlength]
    exact List.length_pos_iff.mpr hparts
  have hnodup : sources.Nodup :=
    List.nodup_range.map fun _ _ heq => KeyKind.part.inj (key_injective heq)
  have hfree : ∀ key ∈ sources, ∀ k, key ≠ s.tmpKey id k := by
    intro key hkey k heq
    obtain ⟨n, -, rfl⟩ := List.mem_map.mp hkey
    cases key_injective heq
  have hdest (n : ℕ) : ¬ Touched s id sources n (s.dataKey id) := by
    rintro (hmem | ⟨k, -, heq⟩)
    · obtain ⟨n, -, heq⟩ := List.mem_map.mp hmem
      cases key_injective heq
    · cases key_injective heq
  have hall : After svc.impl (finalize s id) st fun r st' l =>
      (slot.parts.length ≤ MAX_COMPOSE_SOURCES * MAX_COMPOSE_SOURCES →
        r = .ok () ∧ Batched l ∧ svc.content st' (s.dataKey id) = some slot.parts.flatten) ∧
      (MAX_COMPOSE_SOURCES * MAX_COMPOSE_SOURCES < slot.parts.length → ¬ Batched l) := by
    apply After.bind (after_listParts hs hh)
    · rintro parts _ l ⟨⟨hlisted, rfl⟩, hl⟩
      obtain rfl := Except.ok.inj hlisted
      rw [if_neg hne]
      apply (after_composeAll hc hfree hne hdest (merging_start hnodup hh.contents)).mono
      rintro r st' l' ⟨hfew, hmany⟩
      rw [hlength] at hfew hmany
      refine ⟨fun hle => ?_, fun hlt hbatched => (hmany hlt).2 (batched_append.mp hbatched).2⟩
      obtain ⟨hr, hl', hdata, -⟩ := hfew hle
      exact ⟨hr, batched_append.mpr ⟨hl, hl'⟩, hdata⟩
    · rintro e st' l ⟨⟨he, -⟩, -⟩
      cases he
  exact joins_iff_of_after hall

theorem dataKey_injective {a b : UploadId} (heq : s.dataKey a = s.dataKey b) : a = b := by
  have hval := List.append_cancel_left heq
  rw [UploadId.key, UploadId.key] at hval
  cases a
  cases b
  exact congrArg _ (List.append_cancel_right hval)

theorem partials_join_iff (hs : svc.Stores) (hc : svc.Composes) (hid : id.Valid)
    {partials : List UploadInfo} {info : UploadInfo} {cs : List Bytes}
    (hinfo : svc.content st (s.infoKey id) = some (s.codec.encode info)) (hne : partials ≠ [])
    (hnodup : (partials.map UploadInfo.id).Nodup)
    (hvalid : ∀ p ∈ partials, p.id.Valid ∧ p.id ≠ id)
    (hcs : svc.contents st (s.sourceKeys partials) = some cs) :
    Joins svc (concatenate s id partials) st (s.dataKey id) cs.flatten ↔
      partials.length ≤ MAX_COMPOSE_SOURCES * MAX_COMPOSE_SOURCES := by
  have hlength : (s.sourceKeys partials).length = partials.length := List.length_map ..
  have hsources : s.sourceKeys partials ≠ [] := by
    rw [← List.length_pos_iff, hlength]
    exact List.length_pos_iff.mpr hne
  have hkeys : (s.sourceKeys partials).Nodup := by
    have hmap : s.sourceKeys partials = (partials.map UploadInfo.id).map s.dataKey := by
      rw [List.map_map]
      rfl
    rw [hmap]
    exact hnodup.map fun _ _ => dataKey_injective
  have hother {k : KeyKind} {key : Str} (hkey : key ∈ s.sourceKeys partials) :
      key ≠ s.key id k := by
    obtain ⟨p, hp, rfl⟩ := List.mem_map.mp hkey
    intro heq
    have heq := List.append_cancel_left heq
    exact (hvalid p hp).2 (UploadId.key_injective (hvalid p hp).1 hid heq).1
  have huntouched {k : KeyKind} (hk : ∀ i, k ≠ .tmp i) (n : ℕ) :
      ¬ Touched s id (s.sourceKeys partials) n (s.key id k) := by
    rintro (hmem | ⟨i, -, heq⟩)
    · exact hother hmem rfl
    · exact hk i (key_injective heq)
  have hall : After svc.impl (concatenate s id partials) st fun r st' l =>
      (partials.length ≤ MAX_COMPOSE_SOURCES * MAX_COMPOSE_SOURCES →
        r = .ok () ∧ Batched l ∧ svc.content st' (s.dataKey id) = some cs.flatten) ∧
      (MAX_COMPOSE_SOURCES * MAX_COMPOSE_SOURCES < partials.length → ¬ Batched l) := by
    rw [← hlength]
    apply After.bind (after_composeAll hc (fun _ hkey _ => hother hkey) hsources
      (@huntouched .data fun _ => nofun) (merging_start hkeys hcs))
    · rintro _ st₁ l ⟨hfew, hmany⟩
      rcases Nat.lt_or_ge (MAX_COMPOSE_SOURCES * MAX_COMPOSE_SOURCES)
        (s.sourceKeys partials).length with hlt | hle
      · have hany : After svc.impl (s.writeFinalInfo id partials) st₁ fun _ _ _ => True := trivial
        apply hany.mono
        intro r st' l' _
        exact ⟨fun hle => by
          omega, fun hlt hbatched => (hmany hlt).2 (batched_append.mp hbatched).1⟩
      · obtain ⟨-, hl, hdata, hkept⟩ := hfew hle
        have hinfo₁ : svc.content st₁ (s.infoKey id) = some (s.codec.encode info) := by
          have hapart : s.infoKey id ≠ s.dataKey id := fun heq => nomatch key_injective heq
          rw [hkept _ hapart (@huntouched .info fun _ => nofun)]
          exact hinfo
        apply (after_writeFinalInfo hs hinfo₁ hdata partials).mono
        rintro r st' l' ⟨⟨hr, hdata'⟩, hl'⟩
        exact ⟨fun _ => ⟨hr, batched_append.mpr ⟨hl, hl'⟩, hdata'⟩, fun hlt => by omega⟩
    · rintro e st₁ l ⟨hfew, hmany⟩
      refine ⟨fun hle => ?_, fun hlt => (hmany hlt).2⟩
      cases (hfew hle).1
  exact joins_iff_of_after hall

/-- Parts and partials are joined by requests within their bounds exactly when
there are at most 1024 of them. -/
theorem assembly_joins_iff (hs : svc.Stores) (hc : svc.Composes) (hid : id.Valid) :
    (∀ st slot, s.Holds svc id st slot → slot.parts ≠ [] →
      (Joins svc (finalize s id) st (s.dataKey id) slot.parts.flatten ↔
        slot.parts.length ≤ MAX_COMPOSE_SOURCES * MAX_COMPOSE_SOURCES)) ∧
    ∀ st partials info cs, svc.content st (s.infoKey id) = some (s.codec.encode info) →
      partials ≠ [] → (partials.map UploadInfo.id).Nodup →
      (∀ p ∈ partials, p.id.Valid ∧ p.id ≠ id) →
      svc.contents st (s.sourceKeys partials) = some cs →
      (Joins svc (concatenate s id partials) st (s.dataKey id) cs.flatten ↔
        partials.length ≤ MAX_COMPOSE_SOURCES * MAX_COMPOSE_SOURCES) :=
  ⟨fun _ _ hh hparts => parts_join_iff hs hc hh hparts,
    fun _ _ _ _ hinfo hne hnodup hvalid hcs =>
      partials_join_iff hs hc hid hinfo hne hnodup hvalid hcs⟩

namespace ManyParts

def store : ObjectStore := ⟨.gcs, [], .json, slashed_nil⟩

def upload : UploadId := ⟨"u".toList⟩

/-- Partials of one byte each, more than one request joins. -/
def partials : List UploadInfo :=
  (List.range 33).map fun n => .new ⟨'p' :: Text.decimal n⟩ (some 1)

theorem valid : upload.Valid ∧ ∀ p ∈ partials, p.id.Valid ∧ p.id ≠ upload := by decide +kernel

/-- A new upload of so many bytes. -/
def begun (size : ℕ) : Bucket :=
  ((store.createUpload (.new upload (some size))).run Bucket.service.impl Bucket.empty).2

/-- The new upload beside the data of the partials. -/
def beside : Bucket :=
  partials.foldl (fun b p => b.put (store.dataKey p.id) [1]) (begun 33)

/-- Chunks of one byte each. -/
theorem filled (count : ℕ) (hcount : count < U64_BOUND) (hfew : count ≤ FileStore.U32_BOUND) :
    ∃ st slot, S3Upload.Fills store Bucket.service upload (begun count) (List.replicate count [0])
        st ∧
      store.Holds Bucket.service upload st slot ∧ slot.parts = List.replicate count [0] := by
  have hempty : store.Holds Bucket.service upload Bucket.empty .empty :=
    holds_empty fun key _ => Bucket.service.content_empty key
  obtain ⟨st, hcreate, hh⟩ := @run_createUpload store Bucket.service Bucket.empty Bucket.stores
    (.new upload (some count)) hempty
  have hstate : begun count = st := congrArg Prod.snd hcreate
  have htotal : (List.replicate count ([0] : Bytes)).flatten.length = count := by
    rw [List.length_flatten, List.map_replicate, List.sum_replicate_nat, List.length_singleton,
      Nat.mul_one]
  obtain ⟨st', slot, hfills, hslot, hparts, -⟩ :=
    S3Upload.fills_of_fits Bucket.stores hh rfl rfl hcount htotal.le
  rw [Slot.foldl_addPart, List.length_replicate, if_pos hfew] at hparts
  rw [hstate]
  exact ⟨st', slot, hfills, hslot, hparts⟩

end ManyParts

open ManyParts in
theorem assembly_joins_iff_batched :
    (∃ st, S3Upload.Fills store Bucket.service upload (begun 33) (List.replicate 33 [0]) st ∧
      (Joins Bucket.service (finalize store upload) st (store.dataKey upload)
        (List.replicate 33 ([0] : Bytes)).flatten ↔ 33 ≤ 32 * 32)) ∧
    (Joins Bucket.service (concatenate store upload partials) beside (store.dataKey upload)
      (List.replicate 33 ([1] : Bytes)).flatten ↔ 33 ≤ 32 * 32) := by
  obtain ⟨hfinalize, hconcatenate⟩ :=
    @assembly_joins_iff store Bucket.service upload Bucket.stores Bucket.composes valid.1
  obtain ⟨st, slot, hfills, hh, hparts⟩ := filled 33 (by decide) (by decide)
  constructor
  · have hiff := hfinalize st slot hh (by rw [hparts]; decide)
    rw [hparts, List.length_replicate] at hiff
    exact ⟨st, hfills, hiff⟩
  · have hinfo : beside.content (store.infoKey upload) =
        some (store.codec.encode (.new upload (some 33))) := by
      decide +kernel
    have hcs : Bucket.service.contents beside (store.sourceKeys partials) =
        some (List.replicate 33 [1]) := by
      decide +kernel
    have hnodup : (partials.map UploadInfo.id).Nodup := by decide +kernel
    exact hconcatenate beside partials _ _ hinfo (List.cons_ne_nil _ _) hnodup valid.2 hcs

open ManyParts in
/-- With 1025 parts the temporaries are one too many. -/
theorem too_many_parts :
    ∃ st, S3Upload.Fills store Bucket.service upload (begun 1025) (List.replicate 1025 [0]) st ∧
      ¬ Joins Bucket.service (finalize store upload) st (store.dataKey upload)
        (List.replicate 1025 ([0] : Bytes)).flatten := by
  obtain ⟨st, slot, hfills, hh, hparts⟩ := filled 1025 (by decide) (by decide)
  have hlength : slot.parts.length = 1025 := by rw [hparts, List.length_replicate]
  have hne : slot.parts ≠ [] := by
    rw [← List.length_pos_iff, hlength]
    exact Nat.succ_pos _
  have hiff := parts_join_iff Bucket.stores Bucket.composes hh hne
  rw [hlength, hparts] at hiff
  refine ⟨st, hfills, fun hjoins => ?_⟩
  have hle := hiff.mp hjoins
  rw [MAX_COMPOSE_SOURCES] at hle
  omega

end Fileloft.GcsUpload
