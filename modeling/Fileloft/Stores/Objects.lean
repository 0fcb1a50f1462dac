import Fileloft.Object.Commit
import Fileloft.Object.Compose
import Fileloft.Object.Finish
import Fileloft.Object.Sources
import Fileloft.Stores.Transfer

/-!
# The object stores keep what is sent

Over a service where no call fails, each of the object stores keeps the
chunks of an upload, as long as no other upload has parts that a listing
confuses with its own. The stores are taken at whole store calls.
-/

namespace Fileloft

namespace ObjectStore

open Prog

variable {s : ObjectStore} {svc : Service} {id j : UploadId} {st st' : svc.State} {slot : Slot}
  {op : Str} {sources : List Str}

/-! ## Uploads that are told apart -/

/-- Neither of the two lists the other's objects among its parts. -/
structure Clear (id j : UploadId) : Prop where
  valid : j.Valid
  unlisted : ¬ id.val ++ "_part_".toList <+: j.val ++ ['_']
  lists_none : ¬ j.val ++ "_part_".toList <+: id.val ++ ['_']

theorem clear_self (hid : id.Valid) : Clear id id := by
  have hlong : ¬ id.val ++ "_part_".toList <+: id.val ++ ['_'] := by
    intro hstarts
    have hlength := hstarts.length_le
    simp at hlength
  exact ⟨hid, hlong, hlong⟩

/-- A key that is not of the upload and not listed with its parts. -/
def Beyond (s : ObjectStore) (id : UploadId) (key : Str) : Prop :=
  (∀ kind, key ≠ s.key id kind) ∧ ¬ s.partPrefix id <+: key

theorem key_ne (hid : id.Valid) (hj : j.Valid) (hne : j ≠ id) (k l : KeyKind) :
    s.key j k ≠ s.key id l := by
  intro heq
  rw [key, key, List.append_right_inj] at heq
  exact hne (UploadId.key_injective hj hid heq).1

/-- All that another upload names or lists is beyond this one. -/
theorem Clear.owns (hj : Clear id j) (hid : id.Valid) (hne : j ≠ id) :
    Owns s j (Beyond s id) where
  key kind := by
    refine ⟨key_ne hid hj.valid hne kind, fun hstarts => ?_⟩
    exact hj.unlisted ((exists_partPrefix_iff hne.symm).mp ⟨kind, hstarts⟩)
  listed key hstarts := by
    constructor
    · rintro kind rfl
      exact hj.lists_none ((exists_partPrefix_iff hne).mp ⟨kind, hstarts⟩)
    · intro hboth
      rcases List.prefix_or_prefix_of_prefix hstarts hboth with hle | hle
      · apply hj.lists_none
        apply (exists_partPrefix_iff (s := s) hne).mp
        exact ⟨.part 0, hle.trans ((partPrefix_key _).mpr ⟨0, rfl⟩)⟩
      · apply hj.unlisted
        apply (exists_partPrefix_iff (s := s) hne.symm).mp
        exact ⟨.part 0, hle.trans ((partPrefix_key _).mpr ⟨0, rfl⟩)⟩

/-- The record of an upload is no object of another. -/
theorem eq_of_infoKey {i : UploadId} {kind : KeyKind} (hj : j.Valid)
    (heq : s.infoKey i = s.key j kind) : i = j := by
  have hdigits {token : Str} (n : ℕ) : i.val ++ ".info".toList ≠ j.val ++
      (token ++ Text.decimal n) := by
    intro heq
    apply append_digits_ne (x := i.val ++ ".inf".toList) (y := j.val ++ token) (c := 'o')
      (Text.decimal_ne_nil n) (fun _ hc => Text.isDigit_of_mem_decimal hc) (by decide)
    simpa using heq
  have heq : i.key .info = j.key kind := List.append_cancel_left heq
  cases kind with
  | info =>
      have hval := List.append_cancel_right heq
      cases i
      cases j
      exact congrArg _ hval
  | data =>
      have hcollides := collides_of_info (x := i.val)
      rw [UploadId.key, UploadId.key, KeyKind.suffix_data, KeyKind.suffix_info,
        List.append_nil] at heq
      rw [heq, hj.spec.unreserved] at hcollides
      cases hcollides
  | part n => exact absurd heq (hdigits n)
  | tmp n => exact absurd heq (hdigits n)

/-- Every upload of the bucket is clear of `id`. -/
def Neighbours (s : ObjectStore) (svc : Service) (id : UploadId) (st : svc.State) : Prop :=
  ∀ j, svc.content st (s.infoKey j) ≠ none → Clear id j

theorem Neighbours.of_absent (hst : s.Neighbours svc id st) (hj : Clear id j)
    (habsent : ∀ key, (∀ kind, key ≠ s.key j kind) → svc.content st key = none →
      svc.content st' key = none) : s.Neighbours svc id st' := by
  intro i hi
  by_cases hij : i = j
  · rw [hij]
    exact hj
  · apply hst
    intro hnone
    exact hi (habsent _ (fun kind heq => hij (eq_of_infoKey hj.valid heq)) hnone)

theorem Holds.congr (hh : s.Holds svc id st slot)
    (hsame : ∀ key, ¬ Beyond s id key → svc.content st' key = svc.content st key) :
    s.Holds svc id st' slot := by
  have hown (kind : KeyKind) : svc.content st' (s.key id kind) = svc.content st (s.key id kind) :=
    hsame _ fun hbeyond => hbeyond.1 kind rfl
  refine ⟨(hown .info).trans hh.info, fun n => (hown (.part n)).trans (hh.part n),
    (hown .data).trans hh.data, fun key hstarts hkey => hh.listed key hstarts ?_, hh.few⟩
  rwa [hsame key fun hbeyond => hbeyond.2 hstarts] at hkey

/-- A call whose requests stay beyond the upload leaves it alone. -/
theorem Holds.of_confined {α : Type} {p : ObjectProg α} {listed : Str} (hs : svc.Stores)
    (hl : svc.Local)
    (hp : p.Uses (Confined (Beyond s id) listed) Lists) (hh : s.Holds svc id st slot) :
    s.Holds svc id (p.run svc.impl st).2 slot := by
  apply hh.congr
  intro key hkey
  apply hp.run_preserves (I := fun st' => svc.content st' key = svc.content st key)
    (fun o st' _ => lists hs o st') _ rfl
  intro o st' hconfined hsame
  rw [hl o key st' fun hmem => hkey (hconfined.keys key hmem), hsame]

/-! ## Assembling -/

/-- `multipart_assemble_from_sources`, `compose_all` and `commit_many_blobs`,
into the data object. -/
def assemble (s : ObjectStore) (id : UploadId) (op : Str) (sources : List Str) : ObjectProg Unit :=
  match s.provider with
  | .s3 => S3Upload.multipartAssembleFromSources s id (s.dataKey id) sources sources
  | .gcs => GcsUpload.composeAll s id (s.dataKey id) sources
  | .azure => AzureUpload.commitManyBlobs s id op (s.dataKey id) sources

theorem finalize_eq : ∃ fails op, s.finalize id = (s.listParts id).bind fun parts =>
    if parts = [] then send fails (.put (s.dataKey id) []) else s.assemble id op parts := by
  unfold finalize assemble
  cases s.provider with
  | s3 => exact ⟨_, [], rfl⟩
  | gcs => exact ⟨_, [], rfl⟩
  | azure => exact ⟨_, _, rfl⟩

theorem concatenate_eq (partials : List UploadInfo) : ∃ op, s.concatenate id partials =
    (s.assemble id op (s.sourceKeys partials)).bind fun _ => s.writeFinalInfo id partials := by
  unfold concatenate assemble
  cases s.provider with
  | s3 => exact ⟨[], rfl⟩
  | gcs => exact ⟨[], rfl⟩
  | azure => exact ⟨_, rfl⟩

/-- What the service does for the assemblies of the store. -/
def Assembles (s : ObjectStore) (svc : Service) : Prop :=
  match s.provider with
  | .s3 => ∃ kept, svc.Multipart kept
  | .gcs => svc.Composes
  | .azure => ∃ staged, svc.Blocks staged

/-- How many chunks the store can assemble. -/
def room (s : ObjectStore) (chunks : List Bytes) : Prop :=
  chunks.length < FileStore.U32_BOUND ∧
    match s.provider with
    | .s3 => chunks.flatten.length ≤ S3Upload.MAX_MULTIPART_PARTS * S3Upload.MIN_MULTIPART_PART
    | .gcs => chunks.length ≤ GcsUpload.MAX_COMPOSE_SOURCES * GcsUpload.MAX_COMPOSE_SOURCES
    | .azure => True

theorem confined_assembly {P : Str → Prop} {G : (o : ObjectOp) → ObjectSig.Ans o → Prop} {p : Str}
    (ho : Owns s id P) (hsources : ∀ key ∈ sources, P key) :
    (s.assemble id op sources).Uses (Confined P p) G := by
  have hdata : P (s.dataKey id) := ho.key .data
  have htmp (i : ℕ) : P (s.tmpKey id i) := ho.key (.tmp i)
  unfold assemble
  split
  · exact confined_assemble hdata hsources hsources
  · exact confined_composeAll htmp hdata hsources
  · unfold AzureUpload.commitManyBlobs
    split
    · trivial
    · exact confined_commitRounds htmp hdata 0 hsources

/-- The destination of an assembly and its temporaries. -/
def Built (s : ObjectStore) (id : UploadId) (key : Str) : Prop :=
  key = s.dataKey id ∨ ∃ n, key = s.tmpKey id n

theorem not_built_partKey (n : ℕ) : ¬ Built s id (s.partKey id n) := by
  rintro (heq | ⟨k, heq⟩)
  · cases key_injective heq
  · cases key_injective heq

theorem not_built_listed {key : Str} (hstarts : s.partPrefix id <+: key) : ¬ Built s id key := by
  rintro (rfl | ⟨k, rfl⟩)
  · obtain ⟨n, hn⟩ := (partPrefix_key _).mp hstarts
    cases hn
  · obtain ⟨n, hn⟩ := (partPrefix_key _).mp hstarts
    cases hn

section Service

variable (hs : svc.Stores) (hl : svc.Local) (ha : s.Assembles svc)

include hs hl ha

/-- An assembly brings in nothing but what it builds, and with its success
its sources are gone. -/
theorem drains_assembly (op : Str) (hsources : ∀ key ∈ sources, ¬ Built s id key) :
    Drains svc (Built s id) sources (s.assemble id op sources) := by
  have hdata : Built s id (s.dataKey id) := .inl rfl
  have htmp (i : ℕ) : Built s id (s.tmpKey id i) := .inr ⟨i, rfl⟩
  unfold assemble
  unfold Assembles at ha
  by_cases hne : sources = []
  · subst hne
    split
    · exact .of_uses trivial
    · exact .of_uses trivial
    · exact .of_uses trivial
  split
  · exact drains_assemble hs hl hdata hne
  · next hgcs =>
      rw [hgcs] at ha
      exact drains_composeAll ha htmp hdata (fun i heq => nomatch key_injective heq) hsources
  · unfold AzureUpload.commitManyBlobs
    rw [if_neg hne]
    exact drains_commitRounds hs hl htmp hdata 0 sources

omit hl in
/-- Within its room, an assembly joins the parts and changes nothing beside. -/
theorem run_assembly (op : Str) (hh : s.Holds svc id st slot)
    (hne : slot.parts ≠ []) (hroom : s.room slot.parts) :
    let names := (List.range slot.parts.length).map (s.partKey id)
    ∃ st', (s.assemble id op names).run svc.impl st = (.ok (), st') ∧
      svc.content st' (s.dataKey id) = some slot.parts.flatten ∧
      ∀ key, ¬ Built s id key → key ∉ names → svc.content st' key = svc.content st key := by
  intro names
  have hlength : names.length = slot.parts.length := by
    rw [List.length_map, List.length_range]
  have hnames : names ≠ [] := by
    rw [← List.length_pos_iff, hlength]
    exact List.length_pos_iff.mpr hne
  have hnodup : names.Nodup :=
    List.nodup_range.map fun _ _ heq => KeyKind.part.inj (key_injective heq)
  have hbuilt : ∀ key ∈ names, ¬ Built s id key := by
    intro key hkey
    obtain ⟨n, -, rfl⟩ := List.mem_map.mp hkey
    exact not_built_partKey n
  have hfree : ∀ key ∈ names, ∀ k, key ≠ s.tmpKey id k := fun key hkey k heq =>
    hbuilt key hkey (.inr ⟨k, heq⟩)
  have hdest : s.dataKey id ∉ names := fun hmem => hbuilt _ hmem (.inl rfl)
  have huntouched {key : Str} (hkey : ¬ Built s id key) (hmem : key ∉ names) (n : ℕ) :
      ¬ AzureUpload.Touched s id names n key := by
    rintro (hsource | ⟨k, -, heq⟩)
    · exact hmem hsource
    · exact hkey (.inr ⟨k, heq⟩)
  have hdata (n : ℕ) : ¬ AzureUpload.Touched s id names n (s.dataKey id) := by
    rintro (hsource | ⟨k, -, heq⟩)
    · exact hdest hsource
    · cases key_injective heq
  obtain ⟨hfew, hfits⟩ := hroom
  unfold assemble
  unfold Assembles at ha
  split
  · next hs3 =>
      simp only [hs3] at ha hfits
      obtain ⟨kept, hm⟩ := ha
      obtain ⟨hok, hcontent⟩ := (S3Upload.after_assemble hs hm hnames hh.contents).1 hfits
      refine ⟨_, Prod.ext hok rfl, ?_, fun key hkey hmem => ?_⟩
      · rw [hcontent]
        exact (if_neg hdest).trans (Function.update_self ..)
      · rw [hcontent]
        exact (if_neg hmem).trans (Function.update_of_ne (fun heq => hkey (.inl heq)) ..)
  · next hgcs =>
      simp only [hgcs] at ha hfits
      obtain ⟨hok, -, hcontent, hkept⟩ := (GcsUpload.after_composeAll ha hfree hnames hdata
        (AzureUpload.merging_start hnodup hh.contents)).1 (hlength.trans_le hfits)
      refine ⟨_, Prod.ext hok rfl, hcontent, fun key hkey hmem => ?_⟩
      exact hkept key (fun heq => hkey (.inl heq)) (huntouched hkey hmem)
  · next hazure =>
      simp only [hazure] at ha
      obtain ⟨staged, hb⟩ := ha
      have hprogram : AzureUpload.commitManyBlobs s id op (s.dataKey id) names =
          AzureUpload.commitRounds s id op (s.dataKey id) 0 names := if_neg hnames
      have hrounds :
          After svc.impl (AzureUpload.commitRounds s id op (s.dataKey id) 0 names) st _ :=
        AzureUpload.after_commitRounds hs hb hfree hdata (by omega) hnames
          (AzureUpload.merging_start hnodup hh.contents)
      obtain ⟨count, hok, -, hcontent, -, hkept⟩ := hrounds
      rw [hprogram]
      refine ⟨_, Prod.ext hok rfl, hcontent, fun key hkey hmem => ?_⟩
      exact hkept key (fun heq => hkey (.inl heq)) (huntouched hkey hmem _)

/-- A finalize within its room turns the parts of the slot into its data. -/
theorem run_finalize (hh : s.Holds svc id st slot) (hroom : s.room slot.parts) :
    ∃ st', (s.finalize id).run svc.impl st = (.ok (), st') ∧ s.Holds svc id st' slot.finalize := by
  obtain ⟨fails, op, heq⟩ := @finalize_eq s id
  have hlisted := run_listParts hs hh
  by_cases hparts : slot.parts = []
  · have hrun : (s.finalize id).run svc.impl st =
        (.ok (), (svc.impl (.put (s.dataKey id) []) st).2) := by
      rw [heq, run_bind_ok hlisted, hparts]
      change (send fails (.put (s.dataKey id) [])).run svc.impl st = _
      rw [send, run_op, hs.put_ok]
      rfl
    have hcontent := hs.put_content (s.dataKey id) [] st
    have hother {kind : KeyKind} (hkind : kind ≠ .data) :
        svc.content (svc.impl (.put (s.dataKey id) []) st).2 (s.key id kind) =
          svc.content st (s.key id kind) := by
      rw [hcontent]
      exact Function.update_of_ne (fun heq => hkind (key_injective heq)) ..
    refine ⟨_, hrun, (hother (by decide)).trans hh.info, fun n => ?_, ?_,
      fun key hstarts hkey => ?_, Nat.zero_le _⟩
    · have hnone := hh.part n
      rw [hparts] at hnone
      exact (hother (fun heq => by cases heq)).trans hnone
    · rw [hcontent, Function.update_self, Slot.finalize, hparts, List.flatten_nil]
    · have hne : key ≠ s.dataKey id := fun heq => not_built_listed hstarts (.inl heq)
      rw [hcontent, Function.update_of_ne hne] at hkey
      exact hh.listed key hstarts hkey
  · let names := (List.range slot.parts.length).map (s.partKey id)
    have hnames : names ≠ [] := by
      simpa [names] using hparts
    have hrun : (s.finalize id).run svc.impl st = (s.assemble id op names).run svc.impl st := by
      rw [heq, run_bind_ok hlisted, if_neg hnames]
    obtain ⟨st', hok, hdata, hkept⟩ := run_assembly hs ha op hh hparts hroom
    have hbuilt : ∀ key ∈ names, ¬ Built s id key := by
      intro key hkey
      obtain ⟨n, -, rfl⟩ := List.mem_map.mp hkey
      exact not_built_partKey n
    have hgone : ∀ key ∈ names, svc.content st' key = none := by
      intro key hkey
      have hremoved := (drains_assembly hs hl ha op hbuilt).removed st () (by rw [hok]) key hkey
        (hbuilt key hkey)
      rwa [hok] at hremoved
    refine ⟨st', hrun.trans hok, ?_, fun n => ?_, hdata, fun key hstarts hkey => ?_, Nat.zero_le _⟩
    · refine (hkept _ ?_ fun hmem => ?_).trans hh.info
      · rintro (heq | ⟨k, heq⟩)
        · cases key_injective heq
        · cases key_injective heq
      · obtain ⟨n, -, heq⟩ := List.mem_map.mp hmem
        cases key_injective heq
    · by_cases hmem : s.partKey id n ∈ names
      · exact hgone _ hmem
      · have hlarge : slot.parts.length ≤ n := by
          by_contra hlt
          exact hmem (List.mem_map.mpr ⟨n, List.mem_range.mpr (Nat.lt_of_not_le hlt), rfl⟩)
        rw [hkept _ (not_built_partKey n) hmem, hh.part n, List.getElem?_eq_none hlarge]
        rfl
    · have hmem : key ∉ names := fun hmem => hkey (hgone key hmem)
      rw [hkept key (not_built_listed hstarts) hmem] at hkey
      exact hh.listed key hstarts hkey

end Service

/-! ## The calls of other uploads -/

section Calls

variable {A : ObjectOp → Prop} {G : (o : ObjectOp) → ObjectSig.Ans o → Prop}

theorem uses_writeChunk (hget : A (.get (s.infoKey j))) (hlist : A (.list (s.partPrefix j)))
    (hpart : ∀ n c, A (.put (s.partKey j n) c)) (hinfo : ∀ json, A (.put (s.infoKey j) json))
    (offset : ℕ) (reader : Reader) : (s.writeChunk j offset reader).Uses A G := by
  apply (uses_readInfo hget).bind
  intro info
  apply (uses_ofExcept _).bind
  intro accepted
  apply (uses_listParts hlist).bind
  intro parts
  apply uses_send (hpart _ _)
  intro _
  exact (uses_writeInfo hinfo _).bind fun _ => trivial

theorem uses_delete (hdelete : ∀ key, A (.delete key)) (hlist : A (.list (s.partPrefix j))) :
    (s.delete j).Uses A G := by
  refine ⟨hdelete _, fun _ _ => ⟨hdelete _, fun _ _ => (uses_listParts hlist).attempt.bind
    fun r => ?_⟩⟩
  cases r with
  | error e => trivial
  | ok parts => exact uses_deleteAll fun key _ => hdelete key

theorem uses_declareLength (hget : A (.get (s.infoKey j)))
    (hinfo : ∀ json, A (.put (s.infoKey j) json))
    (length : ℕ) : (s.declareLength j length).Uses A G := by
  apply (uses_readInfo hget).bind
  intro info
  apply (uses_ofExcept _).bind
  intro _
  exact uses_writeInfo hinfo _

theorem uses_readContent (hget : ∀ key, A (.get key)) : (s.readContent j).Uses A G := by
  apply (uses_readInfo (hget _)).bind
  intro info
  apply (uses_ofExcept _).bind
  intro _
  apply uses_send (hget _)
  intro body
  split
  · trivial
  · exact uses_ofExcept _

end Calls

/-- A call that only gets objects changes nothing. -/
theorem run_of_gets {α : Type} {p : ObjectProg α} (hs : svc.Stores)
    (hp : p.Uses (fun o => ∃ key, o = ObjectOp.get key) fun _ _ => True) :
    (p.run svc.impl st).2 = st := by
  apply hp.run_preserves (I := fun st' => st' = st) (fun _ _ _ => trivial) _ rfl
  rintro _ st' ⟨key, rfl⟩ rfl
  exact hs.get_keeps key st'

/-- An object of the upload. -/
def Of (s : ObjectStore) (j : UploadId) (key : Str) : Prop := ∃ kind, key = s.key j kind

theorem fades_delete {own : Str → Prop} (hs : svc.Stores) (key : Str) :
    Fades svc own (.delete key) := by
  intro st key' _ hnone
  rw [hs.delete_content]
  by_cases heq : key' = key
  · rw [heq, Function.update_self]
  · rw [Function.update_of_ne heq, hnone]

theorem fades_list {own : Str → Prop} (hs : svc.Stores) (p : Str) : Fades svc own (.list p) := by
  intro st key' _ hnone
  rw [hs.list_keeps, hnone]

theorem fades_writeChunk (hs : svc.Stores) (hl : svc.Local) (offset : ℕ) (reader : Reader) :
    (s.writeChunk j offset reader).Uses (Fades svc (Of s j)) fun _ _ => True :=
  uses_writeChunk (fades_get hs _) (fades_list hs _) (fun n _ => fades_own hl rfl ⟨.part n, rfl⟩)
    (fun _ => fades_own hl rfl ⟨.info, rfl⟩) offset reader

theorem fades_declareLength (hs : svc.Stores) (hl : svc.Local) (length : ℕ) :
    (s.declareLength j length).Uses (Fades svc (Of s j)) fun _ _ => True :=
  uses_declareLength (fades_get hs _) (fun _ => fades_own hl rfl ⟨.info, rfl⟩) length

/-- A call leaves the upload alone, and with it all others that are not clear
of it stay away. -/
def Spares (s : ObjectStore) (svc : Service) (id : UploadId) {α : Type} (p : ObjectProg α) : Prop :=
  ∀ st slot, s.Holds svc id st slot → s.Neighbours svc id st →
    s.Holds svc id (p.run svc.impl st).2 slot ∧ s.Neighbours svc id (p.run svc.impl st).2

theorem spares_of_absent {α : Type} {p : ObjectProg α} (listed : Str) (hs : svc.Stores)
    (hl : svc.Local) (hj : Clear id j) (hp : p.Uses (Confined (Beyond s id) listed) Lists)
    (habsent : ∀ st key, ¬ Of s j key → svc.content st key = none →
      svc.content (p.run svc.impl st).2 key = none) : Spares s svc id p := by
  intro st slot hh hst
  refine ⟨hh.of_confined hs hl hp, hst.of_absent hj fun key hkey hnone => ?_⟩
  exact habsent st key (fun ⟨kind, heq⟩ => hkey kind heq) hnone

theorem spares_of_fades {α : Type} {p : ObjectProg α} (listed : Str) (hs : svc.Stores)
    (hl : svc.Local) (hj : Clear id j) (hp : p.Uses (Confined (Beyond s id) listed) Lists)
    (hfades : p.Uses (Fades svc (Of s j)) fun _ _ => True) : Spares s svc id p :=
  spares_of_absent listed hs hl hj hp (Drains.of_uses hfades).absent

theorem not_of_of_built {key : Str} (hkey : ¬ Of s j key) : ¬ Built s j key := by
  rintro (heq | ⟨n, heq⟩)
  · exact hkey ⟨.data, heq⟩
  · exact hkey ⟨.tmp n, heq⟩

section Others

variable (hs : svc.Stores) (hl : svc.Local) (ha : s.Assembles svc)
    (hid : id.Valid) (hj : Clear id j)
  (hne : j ≠ id)

include hs hl hid hj hne

theorem spares_createUpload {info : UploadInfo} (hinfo : info.id = j) :
    Spares s svc id (s.createUpload info) := by
  subst hinfo
  have hown := (hj.owns (s := s) hid hne).key .info
  exact spares_of_fades [] hs hl hj
    (uses_writeInfo (fun _ => .of_one hown rfl fun _ heq => by cases heq) info)
    (uses_writeInfo (fun _ => fades_own hl rfl ⟨.info, rfl⟩) info)

theorem spares_writeChunk (offset : ℕ) (reader : Reader) :
    Spares s svc id (s.writeChunk j offset reader) :=
  spares_of_fades _ hs hl hj ((hj.owns hid hne).confined_writeChunk offset reader)
    (fades_writeChunk hs hl offset reader)

theorem spares_delete : Spares s svc id (s.delete j) :=
  spares_of_fades _ hs hl hj (hj.owns hid hne).confined_delete
    (uses_delete (fades_delete hs) (fades_list hs _))

theorem spares_declareLength (length : ℕ) : Spares s svc id (s.declareLength j length) := by
  have hown := (hj.owns (s := s) hid hne).key .info
  exact spares_of_fades [] hs hl hj
    (uses_declareLength (.of_one hown rfl fun _ heq => by cases heq)
      (fun _ => .of_one hown rfl fun _ heq => by cases heq) length)
    (fades_declareLength hs hl length)

include ha

omit hid hj hne in
theorem absent_finalize {key : Str} (hkey : ¬ Of s j key) (hnone : svc.content st key = none) :
    svc.content ((s.finalize j).run svc.impl st).2 key = none := by
  obtain ⟨fails, op, heq⟩ := @finalize_eq s j
  obtain ⟨names, hanswer, -, hmem⟩ := hs.list_ok (s.partPrefix j) st
  have hlisted : (s.listParts j).run svc.impl st = (.ok (sortedParts names), st) := by
    rw [listParts, request, send, bind_eq, op_bind, run_op, hanswer, hs.list_keeps]
    rfl
  rw [heq, run_bind_ok hlisted]
  split
  · have hput : Drains svc (Of s j) [] (send fails (.put (s.dataKey j) [])) :=
      .of_uses (uses_send_end (fades_own hl rfl ⟨.data, rfl⟩))
    exact hput.absent st key hkey hnone
  · have hsources : ∀ key ∈ sortedParts names, ¬ Built s j key := by
      intro key hkey
      exact not_built_listed ((hmem key).mp (mem_sortedParts.mp hkey).1).2
    exact (drains_assembly hs hl ha op hsources).absent st key (not_of_of_built hkey) hnone

theorem spares_finalize : Spares s svc id (s.finalize j) :=
  spares_of_absent _ hs hl hj (hj.owns hid hne).confined_finalize fun _ _ =>
    absent_finalize hs hl ha

theorem spares_concatenate {partials : List UploadInfo}
    (hpartials : ∀ p ∈ partials, Clear id p.id ∧ p.id ≠ id ∧ p.id ≠ j) :
    Spares s svc id (s.concatenate j partials) := by
  have howns := hj.owns (s := s) hid hne
  have hbeyond : ∀ key ∈ s.sourceKeys partials, Beyond s id key := by
    intro key hkey
    obtain ⟨p, hp, rfl⟩ := List.mem_map.mp hkey
    obtain ⟨hclear, hother, -⟩ := hpartials p hp
    exact (hclear.owns hid hother).key .data
  have hbuilt : ∀ key ∈ s.sourceKeys partials, ¬ Built s j key := by
    intro key hkey
    obtain ⟨p, hp, rfl⟩ := List.mem_map.mp hkey
    obtain ⟨hclear, -, hother⟩ := hpartials p hp
    rintro (heq | ⟨k, heq⟩)
    · exact key_ne hj.valid hclear.valid hother _ _ heq
    · exact key_ne hj.valid hclear.valid hother _ _ heq
  obtain ⟨op, heq⟩ := @concatenate_eq s j partials
  have hinfo := howns.key .info
  apply spares_of_absent [] hs hl hj
  · rw [heq]
    apply (confined_assembly howns hbeyond).bind
    intro _
    exact uses_writeFinalInfo (.of_one hinfo rfl fun _ heq => by cases heq)
      (fun _ => .of_one hinfo rfl fun _ heq => by cases heq) partials
  · intro st key hkey hnone
    rw [heq]
    have hrecord : Drains svc (Of s j) [] (s.writeFinalInfo j partials) :=
      .of_uses (uses_writeFinalInfo (fades_get hs _)
        (fun _ => fades_own hl rfl ⟨.info, rfl⟩) partials)
    have hjoined := (drains_assembly hs hl ha op hbuilt).absent st key (not_of_of_built hkey) hnone
    cases hrun : (s.assemble j op (s.sourceKeys partials)).run svc.impl st with
    | mk r st₁ =>
        rw [hrun] at hjoined
        cases r with
        | error e => rwa [run_bind_error hrun]
        | ok u =>
            rw [run_bind_ok hrun]
            exact hrecord.absent st₁ key hkey hjoined

end Others

/-! ## The keeper -/

/-- Creations and concatenations that only have to do with other uploads, all
of them clear of `id`. -/
def Tolerates (id : UploadId) : StoreOp → Prop
  | .createUpload info => Clear id info.id
  | .concatenate j partials => ∀ p ∈ partials, Clear id p.id ∧ p.id ≠ id ∧ p.id ≠ j
  | _ => True

theorem spares_call (hs : svc.Stores) (hl : svc.Local) (ha : s.Assembles svc) (hid : id.Valid)
    {o : StoreOp} (ho : Tolerates id o) (hhandle : ∀ i ∈ o.handle, Clear id i)
    (hne : o.target ≠ id) :
    Spares s svc id (s.call o) := by
  have hgets {β : Type} {p : ObjectProg β}
      (hp : p.Uses (fun o => ∃ key, o = ObjectOp.get key) fun _ _ => True) : Spares s svc id p := by
    intro st slot hh hst
    rw [run_of_gets hs hp]
    exact ⟨hh, hst⟩
  cases o with
  | createUpload info => exact spares_createUpload hs hl hid ho hne rfl
  | getUpload j => exact hgets ((uses_readInfo ⟨_, rfl⟩).bind fun _ => trivial)
  | getInfo j => exact hgets (uses_readInfo ⟨_, rfl⟩)
  | readContent j => exact hgets (uses_readContent fun _ => ⟨_, rfl⟩)
  | writeChunk j offset reader =>
      exact spares_writeChunk hs hl hid (hhandle j rfl) hne offset reader
  | finalize j => exact spares_finalize hs hl ha hid (hhandle j rfl) hne
  | delete j => exact spares_delete hs hl hid (hhandle j rfl) hne
  | declareLength j length => exact spares_declareLength hs hl hid (hhandle j rfl) hne length
  | concatenate j partials => exact spares_concatenate hs hl ha hid (hhandle j rfl) hne ho

theorem Neighbours.of_own (hst : s.Neighbours svc id st) (hid : id.Valid)
    (habsent : ∀ key, ¬ Of s id key → svc.content st key = none → svc.content st' key = none) :
    s.Neighbours svc id st' :=
  hst.of_absent (clear_self hid) fun key hkey hnone =>
    habsent key (fun ⟨kind, heq⟩ => hkey kind heq) hnone

theorem run_readContent (hs : svc.Stores) {info : UploadInfo} {data : Bytes}
    (hinfo : svc.content st (s.infoKey id) = some (s.codec.encode info))
    (hcomplete : info.isComplete = true) (hdata : svc.content st (s.dataKey id) = some data) :
    (s.readContent id).run svc.impl st = (.ok data, st) := by
  obtain ⟨body, hbody, hwhole, hflat, -⟩ := hs.get_found hdata
  rw [readContent, bind_eq, run_bind_ok (run_readInfo hs hinfo), hcomplete]
  change (Prog.bind (s.request id s.downloadOp (.get (s.dataKey id))) _).run svc.impl st = _
  rw [request, send, op_bind, run_op, hbody, hs.get_keeps, ret_bind]
  have hcollect : s.collect id s.downloadOp "read download".toList body = .ok data := by
    rw [collect, hwhole, hflat]
  split
  · exact congrArg (fun bytes => (Except.ok bytes, st)) hflat
  · rw [hcollect]
    rfl

theorem run_readContent_missing (hs : svc.Stores) {info : UploadInfo}
    (hinfo : svc.content st (s.infoKey id) = some (s.codec.encode info))
    (hcomplete : info.isComplete = true) (hdata : svc.content st (s.dataKey id) = none) :
    ∃ e, ((s.readContent id).run svc.impl st).1 = .error e := by
  obtain ⟨e, hmissing, -⟩ := hs.get_missing hdata
  refine ⟨s.provider.error id.val s.downloadOp e, ?_⟩
  rw [readContent, bind_eq, run_bind_ok (run_readInfo hs hinfo), hcomplete]
  change ((Prog.bind (s.request id s.downloadOp (.get (s.dataKey id))) _).run svc.impl st).1 = _
  rw [request, send, op_bind, run_op, hmissing]
  rfl

/-- The objects hold the chunks in a slot. -/
def keeper (hs : svc.Stores) (hl : svc.Local) (ha : s.Assembles svc) (hid : id.Valid) :
    Keeper (s.interp svc) id where
  accepts := Clear id
  holds c st := s.Holds svc id st c.slot ∧ s.Neighbours svc id st
  tolerates := Tolerates id
  room := s.room
  accepted := clear_self hid
  establishes := by
    intro c st o hc ho
    cases o with
    | createUpload info => exact fun _ => ho
    | getUpload j =>
        intro hok
        apply hc.2
        intro hnone
        obtain ⟨e, herror⟩ := run_readInfo_missing hs hnone
        have hanswer : (s.interp svc (.getUpload j) st).1 = .error e :=
          congrArg Prod.fst (run_bind_error herror)
        rw [hanswer] at hok
        cases hok
    | _ => trivial
  found := by
    intro c st hc
    exact congrArg Prod.fst (run_bind_ok (run_readInfo hs hc.1.info))
  record := by
    intro c st hc
    exact congrArg Prod.fst (run_readInfo hs hc.1.info)
  read := by
    intro c st o hc hreads
    have hgets : (s.call o).Uses (fun o => ∃ key, o = ObjectOp.get key) fun _ _ => True := by
      cases o with
      | getUpload j => exact (uses_readInfo ⟨_, rfl⟩).bind fun _ => trivial
      | getInfo j => exact uses_readInfo ⟨_, rfl⟩
      | readContent j => exact uses_readContent fun _ => ⟨_, rfl⟩
      | _ => cases hreads
    have hsame : (s.interp svc o st).2 = st := run_of_gets hs hgets
    rw [hsame]
    exact hc
  spared := by
    intro c st o hc ho hhandle hne
    exact spares_call hs hl ha hid ho hhandle hne st c.slot hc.1 hc.2
  written := by
    intro c st reader n hc hjoined hok
    obtain ⟨st', hrun, hh⟩ := run_writeChunk hs hc.1 rfl c.info.offset reader
    have hnext : s.interp svc (.writeChunk id c.info.offset reader) st = _ := hrun
    rw [hnext] at hok ⊢
    obtain ⟨buf, hbuf, hslot⟩ := Content.slot_written hjoined hok
    refine ⟨buf, hbuf, fun hroom => ⟨hslot hroom.1.le ▸ hh, ?_⟩⟩
    have habsent :=
      (Drains.of_uses (fades_writeChunk (s := s) (j := id) hs hl c.info.offset reader)).absent st
    rw [hrun] at habsent
    exact hc.2.of_own hid habsent
  refused := by
    intro c st reader e hc herror
    obtain ⟨st', hrun, hh⟩ := run_writeChunk hs hc.1 rfl c.info.offset reader
    have hnext : s.interp svc (.writeChunk id c.info.offset reader) st = _ := hrun
    rw [hnext] at herror ⊢
    have habsent :=
      (Drains.of_uses (fades_writeChunk (s := s) (j := id) hs hl c.info.offset reader)).absent st
    rw [hrun] at habsent
    exact ⟨Content.slot_refused herror ▸ hh, hc.2.of_own hid habsent⟩
  fits := by
    intro c st buf n hc hend
    obtain ⟨st', hrun, -⟩ := run_writeChunk hs hc.1 rfl c.info.offset (.ok buf)
    exact ⟨buf.length, (congrArg Prod.fst hrun).trans (Content.slot_fits hend)⟩
  declared := by
    intro c st hc hnone length
    obtain ⟨st', hrun, hh⟩ := run_declareLength hs hc.1 rfl length
    have hnext : s.interp svc (.declareLength id length) st = _ := hrun
    have habsent := (Drains.of_uses (fades_declareLength (s := s) (j := id) hs hl length)).absent st
    rw [hrun] at habsent
    rw [hnext]
    rw [Content.slot_declared hnone] at hh ⊢
    exact ⟨rfl, hh, hc.2.of_own hid habsent⟩
  joins := by
    intro c st hc hjoined hroom
    have hparts : c.slot.parts = c.chunks := by rw [Content.slot, hjoined]; rfl
    obtain ⟨st', hrun, hh⟩ := run_finalize hs hl ha hc.1 (hparts ▸ hroom)
    have hnext : s.interp svc (.finalize id) st = _ := hrun
    rw [hnext]
    have hslot : c.slot.finalize = c.join.slot := by
      rw [Slot.finalize, hparts]
      rfl
    refine ⟨rfl, hslot ▸ hh, hc.2.of_own hid fun key hkey hnone => ?_⟩
    have habsent := absent_finalize hs hl ha hkey hnone
    rwa [hrun] at habsent
  content := by
    intro c st bytes hc hcomplete hok
    cases hjoined : c.joined with
    | true =>
        have hdata := hc.1.data
        rw [Content.slot, hjoined] at hdata
        have hanswer := congrArg Prod.fst (run_readContent hs hc.1.info hcomplete hdata)
        exact Except.ok.inj (hok.symm.trans hanswer)
    | false =>
        have hdata := hc.1.data
        rw [Content.slot, hjoined] at hdata
        obtain ⟨e, herror⟩ := run_readContent_missing hs hc.1.info hcomplete hdata
        have hanswer : (s.interp svc (.readContent id) st).1 = .error e := herror
        rw [hanswer] at hok
        cases hok
  downloads := by
    intro c st hc hcomplete hjoined
    have hdata := hc.1.data
    rw [Content.slot, hjoined] at hdata
    exact congrArg Prod.fst (run_readContent hs hc.1.info hcomplete hdata)

/-- A new upload: no object of its own, and none that would be listed as its
part. -/
structure Opens (s : ObjectStore) (svc : Service) (id : UploadId) (st : svc.State) : Prop where
  valid : id.Valid
  fresh : ∀ key, key = s.infoKey id ∨ key = s.dataKey id ∨ s.partPrefix id <+: key →
    svc.content st key = none
  neighbours : s.Neighbours svc id st

end ObjectStore

namespace TwoPieces

open Pool ObjectStore

def cloud : ObjectStore := ⟨.gcs, [], .json, slashed_nil⟩

def begun : Bucket := (cloud.interp Bucket.service (.createUpload info) Bucket.empty).2

end TwoPieces

end Fileloft
