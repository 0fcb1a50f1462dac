import Fileloft.Fs.Fixture
import Fileloft.Object.Bucket
import Fileloft.Object.Isolation

/-!
# What becomes of the sources

A final upload is assembled by the functions that assemble the parts of an
upload, and these remove their sources.
-/

namespace Fileloft.ObjectStore

open Prog

variable {s : ObjectStore} {svc : Service} {id : UploadId} {own : Str → Prop} {α β : Type}
  {sources sources' : List Str}

/-- Outside `own`, a call does not bring an object into being. -/
def Fades (svc : Service) (own : Str → Prop) (o : ObjectOp) : Prop :=
  ∀ st key, ¬ own key → svc.content st key = none → svc.content (svc.impl o st).2 key = none

/-- Outside `own`, a program brings no object into being, and with its success
the sources are gone. -/
structure Drains (svc : Service) (own : Str → Prop) (sources : List Str) (p : ObjectProg α) :
    Prop where
  absent : ∀ st key, ¬ own key → svc.content st key = none →
    svc.content (p.run svc.impl st).2 key = none
  removed : ∀ st a, (p.run svc.impl st).1 = .ok a → ∀ key ∈ sources, ¬ own key →
    svc.content (p.run svc.impl st).2 key = none

namespace Drains

theorem of_uses {p : ObjectProg α} (huses : p.Uses (Fades svc own) fun _ _ => True) :
    Drains svc own [] p where
  absent _ key hkey hnone :=
    huses.run_preserves (I := fun st => svc.content st key = none) (fun _ _ _ => trivial)
      (fun _ st hfades hnone => hfades st key hkey hnone) hnone
  removed _ _ _ _ hmem := absurd hmem List.not_mem_nil

theorem fail (e : TusError) : Drains svc own sources (.fail e : ObjectProg α) where
  absent _ _ _ hnone := hnone
  removed _ _ hok := by cases hok

theorem mono {p : ObjectProg α} (hp : Drains svc own sources p) (hsub : sources' ⊆ sources) :
    Drains svc own sources' p where
  absent := hp.absent
  removed st a hok key hkey := hp.removed st a hok key (hsub hkey)

theorem bind {p : ObjectProg α} {f : α → ObjectProg β} {Q : α → Prop}
    (hp : Drains svc own sources p) (hreturns : p.Returns (fun _ _ => True) Q)
    (hf : ∀ a, Q a → Drains svc own sources' (f a)) :
    Drains svc own (sources ++ sources') (p.bind f) where
  absent st key hkey hnone := by
    have hfirst := hp.absent st key hkey hnone
    rcases hrun : p.run svc.impl st with ⟨e | a, st'⟩
    · rw [run_bind_error hrun]
      rwa [hrun] at hfirst
    · rw [run_bind_ok hrun]
      rw [hrun] at hfirst
      have hQ := hreturns.of_run (fun _ _ => trivial) (congrArg Prod.fst hrun)
      exact (hf a hQ).absent st' key hkey hfirst
  removed st b hok key hmem hkey := by
    rcases hrun : p.run svc.impl st with ⟨e | a, st'⟩
    · rw [run_bind_error hrun] at hok
      cases hok
    · have hQ := hreturns.of_run (fun _ _ => trivial) (congrArg Prod.fst hrun)
      rw [run_bind_ok hrun] at hok ⊢
      rcases List.mem_append.mp hmem with hfirst | hsecond
      · have hgone := hp.removed st a (congrArg Prod.fst hrun) key hfirst hkey
        rw [hrun] at hgone
        exact (hf a hQ).absent st' key hkey hgone
      · exact (hf a hQ).removed st' b hok key hsecond hkey

/-- A sequence whose second part removes nothing that counts. -/
theorem bind_left {p : ObjectProg α} {f : α → ObjectProg β} {Q : α → Prop}
    (hp : Drains svc own sources p) (hreturns : p.Returns (fun _ _ => True) Q)
    (hf : ∀ a, Q a → Drains svc own [] (f a)) : Drains svc own sources (p.bind f) :=
  (hp.bind hreturns hf).mono (List.subset_append_left _ _)

/-- A sequence whose first part removes nothing that counts. -/
theorem bind_right {p : ObjectProg α} {f : α → ObjectProg β} (hp : Drains svc own [] p)
    (hf : ∀ a, Drains svc own sources (f a)) : Drains svc own sources (p.bind f) :=
  hp.bind (returns_true p) fun a _ => hf a

theorem send {fails : ServiceError → TusError} {o : ObjectOp} (hfades : Fades svc own o)
    (hgone : ∀ st v, (svc.impl o st).1 = .ok v → ∀ key ∈ sources, ¬ own key →
      svc.content (svc.impl o st).2 key = none) :
    Drains svc own sources (ObjectStore.send fails o) where
  absent st key hkey hnone := by
    have hnone' := hfades st key hkey hnone
    rw [ObjectStore.send, run_op]
    cases (svc.impl o st).1 <;> exact hnone'
  removed st a hok key hmem hkey := by
    rw [ObjectStore.send, run_op] at hok ⊢
    cases hanswer : (svc.impl o st).1 with
    | ok v => exact hgone st v hanswer key hmem hkey
    | error e =>
        rw [hanswer] at hok
        cases hok

theorem deleteAll (hs : svc.Stores) (keys : List Str) :
    Drains svc own keys (ObjectStore.deleteAll keys) where
  absent st key _ hnone := by
    obtain ⟨st', hrun, hcontent⟩ := @run_deleteAll svc st hs keys
    rw [hrun, hcontent]
    simp only [hnone, ite_self]
  removed st _ _ key hkey _ := by
    obtain ⟨st', hrun, hcontent⟩ := @run_deleteAll svc st hs keys
    rw [hrun, hcontent]
    exact if_pos hkey

end Drains

/-! ## The assemblies -/

section Assemblies

variable (hs : svc.Stores) (hl : svc.Local) {dest op : Str}

include hl in
/-- A call that names an object of its own only. -/
theorem fades_own {o : ObjectOp} {key : Str} (hkeys : o.keys = [key]) (hkey : own key) :
    Fades svc own o := by
  intro st key' hown hnone
  rw [hl o key' st, hnone]
  rw [hkeys, List.mem_singleton]
  rintro rfl
  exact hown hkey

include hs in
theorem fades_get (key : Str) : Fades svc own (.get key) := by
  intro st key' _ hnone
  rw [hs.get_keeps, hnone]

include hs hl in
theorem drains_assemble (hdest : own dest) (hne : sources ≠ []) :
    Drains svc own sources
      (S3Upload.multipartAssembleFromSources s id dest sources sources) := by
  have hown {o : ObjectOp} (hkeys : o.keys = [dest]) : Fades svc own o := fades_own hl hkeys hdest
  have habort {uploadId : Str} {e : TusError} : Drains svc own sources
      ((bestEffort (.abortMultipart dest uploadId)).bind fun _ => (.fail e : ObjectProg Unit)) := by
    apply Drains.bind_right (.of_uses (uses_bestEffort (hown rfl)))
    intro _
    exact .fail e
  rw [S3Upload.multipartAssembleFromSources, if_neg hne]
  apply Drains.bind_right (.of_uses (uses_send_end (hown rfl)))
  intro v
  cases v with
  | none => exact .fail _
  | some uploadId =>
      have hloop : (S3Upload.multipartUploadParts s id dest uploadId sources).Uses
          (Fades svc own) fun _ _ => True :=
        S3Upload.uses_multipartUploadParts (fun _ _ => hown rfl) fun key _ => fades_get hs key
      apply Drains.bind_right (.of_uses hloop.attempt)
      intro r
      cases r with
      | error e => exact habort
      | ok completed =>
          simp only
          split
          · exact habort
          · apply Drains.bind_right (.of_uses (uses_send_end (hown rfl)))
            intro _
            exact .deleteAll hs sources

theorem drains_composeChunk (hc : svc.Composes) (hdest : own dest) (hnot : dest ∉ sources) :
    Drains svc own sources (GcsUpload.composeChunk s id dest sources) := by
  rw [GcsUpload.composeChunk]
  split
  · next hnil =>
      subst hnil
      exact .of_uses trivial
  · next hne =>
      -- a request is refused without an effect, or its sources are gone
      have hcompose (st : svc.State) :
          ((∃ e, (svc.impl (.compose dest sources true) st).1 = .error e) ∧
            svc.content (svc.impl (.compose dest sources true) st).2 = svc.content st) ∨
          ∀ key, ¬ own key → svc.content (svc.impl (.compose dest sources true) st).2 key =
            if key ∈ sources then none else svc.content st key := by
        rcases Nat.lt_or_ge Service.COMPOSE_LIMIT sources.length with hmany | hfew
        · obtain ⟨e, he, hcontent⟩ := hc.compose_many hmany
          exact .inl ⟨⟨e, he⟩, hcontent⟩
        · cases hcs : svc.contents st sources with
          | none =>
              obtain ⟨e, he, hcontent⟩ := hc.compose_missing hcs
              exact .inl ⟨⟨e, he⟩, hcontent⟩
          | some cs =>
              right
              intro key hkey
              obtain ⟨-, hcontent⟩ :=
                @Service.Composes.compose_ok svc hc dest sources true cs st hne hfew hnot hcs
              have hapart : key ≠ dest := by
                rintro rfl
                exact hkey hdest
              rw [hcontent, Service.composed, if_neg hapart]
              simp only [true_and]
      apply Drains.send
      · intro st key hkey hnone
        rcases hcompose st with ⟨-, hcontent⟩ | hcontent
        · rw [hcontent, hnone]
        · rw [hcontent key hkey, hnone, ite_self]
      · intro st v hok key hmem hkey
        rcases hcompose st with ⟨⟨e, he⟩, -⟩ | hcontent
        · rw [he] at hok
          cases hok
        · rw [hcontent key hkey]
          exact if_pos hmem

theorem drains_composeBatches (hc : svc.Composes) (htmp : ∀ i, own (s.tmpKey id i))
    {batches : List (List Str)} (hbatches : ∀ key ∈ batches.flatten, ¬ own key) (i : ℕ) :
    Drains svc own batches.flatten (GcsUpload.composeBatches s id i batches) ∧
      (GcsUpload.composeBatches s id i batches).Returns (fun _ _ => True)
        fun tmps => ∀ key ∈ tmps, ∃ k, key = s.tmpKey id k := by
  induction batches generalizing i with
  | nil => exact ⟨.of_uses trivial, nofun⟩
  | cons batch batches ih =>
      rw [List.flatten_cons] at hbatches ⊢
      obtain ⟨hbatch, hrest⟩ := List.forall_mem_append.mp hbatches
      obtain ⟨hdrains, hreturns⟩ := ih hrest (i + 1)
      have hnot : s.tmpKey id i ∉ batch := fun hmem => hbatch _ hmem (htmp i)
      constructor
      · apply (drains_composeChunk hc (htmp i) hnot).bind (returns_true _)
        intro _ _
        exact hdrains.bind_left hreturns fun _ _ => .of_uses trivial
      · apply (returns_true (GcsUpload.composeChunk s id (s.tmpKey id i) batch)).bind
        intro _ _
        apply hreturns.bind
        intro tmps htmps
        exact List.forall_mem_cons.mpr ⟨⟨i, rfl⟩, htmps⟩

theorem drains_composeAll (hc : svc.Composes) (htmp : ∀ i, own (s.tmpKey id i)) (hdest : own dest)
    (happart : ∀ i, s.tmpKey id i ≠ dest) (hsources : ∀ key ∈ sources, ¬ own key) :
    Drains svc own sources (GcsUpload.composeAll s id dest sources) := by
  rw [GcsUpload.composeAll]
  split
  · exact drains_composeChunk hc hdest fun hmem => hsources dest hmem hdest
  · have hflatten : (Text.chunks GcsUpload.MAX_COMPOSE_SOURCES sources).flatten = sources :=
      Text.flatten_chunks (by decide) sources
    obtain ⟨hdrains, hreturns⟩ := @drains_composeBatches s svc id own hc htmp
      (Text.chunks GcsUpload.MAX_COMPOSE_SOURCES sources) (by rwa [hflatten]) 0
    rw [hflatten] at hdrains
    apply hdrains.bind_left hreturns
    intro tmps htmps
    have hnot : dest ∉ tmps := by
      intro hmem
      obtain ⟨k, hk⟩ := htmps dest hmem
      exact happart k hk.symm
    exact (drains_composeChunk hc hdest hnot).mono (List.nil_subset _)

include hs hl in
theorem drains_commitAndDeleteSources (hdest : own dest) :
    Drains svc own sources (AzureUpload.commitAndDeleteSources s id op dest sources) := by
  have hown {o : ObjectOp} (hkeys : o.keys = [dest]) : Fades svc own o := fades_own hl hkeys hdest
  have hcommit : (AzureUpload.commitBlobNamesToDest s id op dest sources).Uses (Fades svc own)
      fun _ _ => True := by
    rw [AzureUpload.commitBlobNamesToDest]
    split
    · trivial
    · have hstage : (AzureUpload.stageBlocks s id op dest 0 sources).Uses (Fades svc own)
          fun _ _ => True :=
        AzureUpload.uses_stageBlocks (fun _ _ => hown rfl) 0 fun key _ => fades_get hs key
      apply hstage.bind
      intro blocks
      exact uses_send_end (hown rfl)
  apply Drains.bind_right (.of_uses hcommit)
  intro _
  exact .deleteAll hs sources

include hs hl in
theorem drains_commitBatches (htmp : ∀ i, own (s.tmpKey id i)) (batches : List (List Str))
    (counter : ℕ) :
    Drains svc own batches.flatten (AzureUpload.commitBatches s id op counter batches) := by
  induction batches generalizing counter with
  | nil => exact .of_uses trivial
  | cons batch batches ih =>
      apply (drains_commitAndDeleteSources hs hl (htmp counter)).bind (returns_true _)
      intro _ _
      exact ih _

include hs hl in
theorem drains_commitRounds (htmp : ∀ i, own (s.tmpKey id i)) (hdest : own dest) (counter : ℕ)
    (sources : List Str) :
    Drains svc own sources (AzureUpload.commitRounds s id op dest counter sources) := by
  induction hlen : sources.length using Nat.strong_induction_on generalizing counter sources with
  | _ len ih =>
      rw [AzureUpload.commitRounds]
      split
      · next hmany =>
          have hflatten : (Text.chunks AzureUpload.MAX_COMMIT_SOURCES sources).flatten = sources :=
            Text.flatten_chunks (by decide) sources
          have hbatches := @drains_commitBatches s svc id own hs hl op htmp
            (Text.chunks AzureUpload.MAX_COMMIT_SOURCES sources) counter
          rw [hflatten] at hbatches
          apply hbatches.bind_left (returns_true _)
          intro _ _
          refine (ih _ ?_ _ _ rfl).mono (List.nil_subset _)
          rw [AzureUpload.length_temporaries, Text.length_chunks]
          rw [AzureUpload.MAX_COMMIT_SOURCES] at hmany ⊢
          omega
      · exact drains_commitAndDeleteSources hs hl hdest

end Assemblies

/-- A concatenation that returns `Ok` has removed all its sources. -/
theorem drains_concatenate (hs : svc.Stores) (hl : svc.Local)
    (hc : s.provider = .gcs → svc.Composes) {partials : List UploadInfo} (hne : partials ≠ [])
    (hother : ∀ key ∈ s.sourceKeys partials, ∀ kind, key ≠ s.key id kind) :
    Drains svc (fun key => ∃ kind, key = s.key id kind) (s.sourceKeys partials)
      (s.concatenate id partials) := by
  have hsources : s.sourceKeys partials ≠ [] := by
    rw [← List.length_pos_iff, sourceKeys, List.length_map]
    exact List.length_pos_iff.mpr hne
  have hrecord : Drains svc (fun key => ∃ kind, key = s.key id kind) []
      (s.writeFinalInfo id partials) := by
    apply Drains.of_uses
    exact uses_writeFinalInfo (fades_get hs _) (fun _ => fades_own hl rfl ⟨.info, rfl⟩) partials
  have happart (i : ℕ) : s.tmpKey id i ≠ s.dataKey id := fun heq => nomatch key_injective heq
  have hforeign : ∀ key ∈ s.sourceKeys partials, ¬ ∃ kind, key = s.key id kind := by
    rintro key hkey ⟨kind, heq⟩
    exact hother key hkey kind heq
  rw [concatenate]
  split
  · exact (drains_assemble hs hl ⟨.data, rfl⟩ hsources).bind_left (returns_true _)
      fun _ _ => hrecord
  · next hgcs =>
      exact (drains_composeAll (hc hgcs) (fun i => ⟨.tmp i, rfl⟩) ⟨.data, rfl⟩ happart
        hforeign).bind_left (returns_true _) fun _ _ => hrecord
  · have hcommit : Drains svc (fun key => ∃ kind, key = s.key id kind) (s.sourceKeys partials)
        (AzureUpload.commitManyBlobs s id "concatenate".toList (s.dataKey id)
          (s.sourceKeys partials)) := by
      rw [AzureUpload.commitManyBlobs, if_neg hsources]
      exact drains_commitRounds hs hl (fun i => ⟨.tmp i, rfl⟩) ⟨.data, rfl⟩ 0 _
    exact hcommit.bind_left (returns_true _) fun _ _ => hrecord

/-- A concatenation that returns `Ok` leaves the data of its partials only if
it has none. -/
theorem concatenate_keeps_iff {st : svc.State} (hs : svc.Stores) (hl : svc.Local)
    (hc : s.provider = .gcs → svc.Composes) (hid : id.Valid) {partials : List UploadInfo}
    (hvalid : ∀ p ∈ partials, p.id.Valid ∧ p.id ≠ id)
    (hfound : ∀ p ∈ partials, svc.content st (s.dataKey p.id) ≠ none)
    (hok : (s.interp svc (.concatenate id partials) st).1 = .ok ()) :
    (∀ p ∈ partials, svc.content (s.interp svc (.concatenate id partials) st).2 (s.dataKey p.id) =
        svc.content st (s.dataKey p.id)) ↔ partials = [] := by
  constructor
  · intro hkept
    by_contra hne
    have hother : ∀ key ∈ s.sourceKeys partials, ∀ kind, key ≠ s.key id kind := by
      intro key hkey kind heq
      obtain ⟨p, hp, rfl⟩ := List.mem_map.mp hkey
      have heq := List.append_cancel_left heq
      exact (hvalid p hp).2 (UploadId.key_injective (hvalid p hp).1 hid heq).1
    obtain ⟨p, hp⟩ := List.exists_mem_of_ne_nil partials hne
    have hmem : s.dataKey p.id ∈ s.sourceKeys partials := List.mem_map_of_mem hp
    have hgone := (drains_concatenate hs hl hc hne hother).removed st () hok _ hmem
      fun ⟨kind, heq⟩ => hother _ hmem kind heq
    apply hfound p hp
    rw [← hkept p hp]
    exact hgone
  · rintro rfl p hp
    cases hp

namespace OnePartial

def store : ObjectStore := ⟨.gcs, [], .json, slashed_nil⟩

theorem store_eq : store = ⟨.gcs, [], .jsonAscii, slashed_nil⟩ := by
  rw [store, InfoCodec.json_eq]

def part : UploadInfo := { UploadInfo.new ⟨"p".toList⟩ (some 2) with isPartial := true }

def final : UploadId := ⟨"f".toList⟩

/-- The bucket after some calls. -/
def after (calls : List StoreOp) : Bucket :=
  calls.foldl (fun b o => (store.interp Bucket.service o b).2) Bucket.empty

/-- A finalized partial of two bytes, and a new final upload. -/
def before : Bucket :=
  after [.createUpload part, .writeChunk part.id 0 (.ok [1, 2]), .finalize part.id,
    .createUpload { UploadInfo.new final none with isFinal := true }]

theorem reaches_before : Reaches store Bucket.service before :=
  .step _ (.step _ (.step _ (.step _ .empty)))

/-- The record of the complete partial. -/
def complete : UploadInfo := { part with offset := 2 }

theorem valid : final.Valid ∧ complete.id.Valid := by decide +kernel

theorem evaluated :
    (store.interp Bucket.service (.getInfo complete.id) before).1 = .ok complete ∧
      complete.isComplete = true ∧ before.content (store.dataKey complete.id) = some [1, 2] ∧
      (store.interp Bucket.service (.readContent complete.id) before).1 = .ok [1, 2] ∧
      (store.interp Bucket.service (.concatenate final [complete]) before).1 = .ok () ∧
      (store.interp Bucket.service (.readContent complete.id)
        (store.interp Bucket.service (.concatenate final [complete]) before).2).1 =
          .error (.notFound complete.id.val) := by
  rw [before, after, store_eq]
  decide +kernel

end OnePartial

open OnePartial in
theorem concatenate_keeps_iff_one :
    (∀ p ∈ [complete], Bucket.service.content
        (store.interp Bucket.service (.concatenate final [complete]) before).2
          (store.dataKey p.id) =
        Bucket.service.content before (store.dataKey p.id)) ↔ [complete] = [] := by
  apply concatenate_keeps_iff Bucket.stores Bucket.local_impl (fun _ => Bucket.composes) valid.1
  · intro p hp
    obtain rfl := List.mem_singleton.mp hp
    exact ⟨valid.2, by decide⟩
  · intro p hp
    obtain rfl := List.mem_singleton.mp hp
    have hdata : Bucket.service.content before (store.dataKey complete.id) = some [1, 2] :=
      evaluated.2.2.1
    rw [hdata]
    exact Option.some_ne_none _
  · exact evaluated.2.2.2.2.1

open OnePartial in
/-- A partial can be downloaded until a final upload has joined it. -/
theorem concatenate_removes_partial :
    Reaches store Bucket.service before ∧
      (store.interp Bucket.service (.getInfo complete.id) before).1 = .ok complete ∧
      complete.isComplete = true ∧
      (store.interp Bucket.service (.readContent complete.id) before).1 = .ok [1, 2] ∧
      (store.interp Bucket.service (.concatenate final [complete]) before).1 = .ok () ∧
      ∃ e, (store.interp Bucket.service (.readContent complete.id)
        (store.interp Bucket.service (.concatenate final [complete]) before).2).1 = .error e := by
  obtain ⟨hrecord, hcomplete, -, hcontent, hok, hgone⟩ := evaluated
  exact ⟨reaches_before, hrecord, hcomplete, hcontent, hok, _, hgone⟩

end Fileloft.ObjectStore
