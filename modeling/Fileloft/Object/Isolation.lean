import Fileloft.Fs.Fixture
import Fileloft.Object.Bucket
import Fileloft.Object.Slot

/-!
# Two uploads in one bucket

The objects of an upload are told apart by their keys, but its parts are
listed by a prefix that keys of another upload may have.
-/

namespace Fileloft.ObjectStore

open Prog

variable {s : ObjectStore} {svc : Service} {id a b : UploadId} {P : Str → Prop}

/-! ## The calls on one upload -/

/-- Objects among which are those of an upload and all that a listing of its
parts can return. -/
structure Owns (s : ObjectStore) (id : UploadId) (P : Str → Prop) : Prop where
  key : ∀ kind, P (s.key id kind)
  listed : ∀ key, s.partPrefix id <+: key → P key

/-- A listing returns names with its prefix. -/
def Lists : (o : ObjectOp) → ObjectSig.Ans o → Prop
  | .list p, .ok names => ∀ name ∈ names, p <+: name
  | _, _ => True

theorem lists (hs : svc.Stores) (o : ObjectOp) (st : svc.State) : Lists o (svc.impl o st).1 := by
  cases o with
  | list p =>
      obtain ⟨names, hanswer, -, hmem⟩ := hs.list_ok p st
      rw [hanswer]
      exact fun name hname => ((hmem name).mp hname).2
  | _ => exact trivial

theorem returns_listParts :
    (s.listParts id).Returns Lists fun parts => ∀ key ∈ parts, s.partPrefix id <+: key := by
  intro r hr
  cases r with
  | error e => trivial
  | ok names => exact fun key hkey => hr key (mem_sortedParts.mp hkey).1

theorem confined_listParts :
    (s.listParts id).Uses (Confined P (s.partPrefix id)) Lists :=
  uses_listParts ⟨nofun, fun _ h => (ObjectOp.list.inj h).symm⟩

section Confined

variable {dest op : Str} {sources : List Str} {G : (o : ObjectOp) → ObjectSig.Ans o → Prop}
  {p : Str}

theorem confined_deleteAll (hsources : ∀ key ∈ sources, P key) :
    (deleteAll sources).Uses (Confined P p) G :=
  uses_deleteAll fun key hkey => .of_one (hsources key hkey) rfl nofun

theorem confined_assemble {deletes : List Str} (hdest : P dest) (hsources : ∀ key ∈ sources, P key)
    (hdeletes : ∀ key ∈ deletes, P key) :
    (S3Upload.multipartAssembleFromSources s id dest sources deletes).Uses (Confined P p) G := by
  rw [S3Upload.multipartAssembleFromSources]
  split
  · trivial
  · apply uses_send (.of_one hdest rfl nofun)
    intro v
    cases v with
    | none => trivial
    | some uploadId =>
        have hloop : (S3Upload.multipartUploadParts s id dest uploadId sources).Uses
            (Confined P p) G :=
          S3Upload.uses_multipartUploadParts (fun _ _ => .of_one hdest rfl nofun)
            fun key hkey => .of_one (hsources key hkey) rfl nofun
        apply hloop.attempt.bind
        intro r
        cases r with
        | error e => exact ⟨.of_one hdest rfl nofun, fun _ _ => trivial⟩
        | ok completed =>
            simp only
            split
            · exact ⟨.of_one hdest rfl nofun, fun _ _ => trivial⟩
            · apply uses_send (.of_one hdest rfl nofun)
              intro _
              exact confined_deleteAll hdeletes

theorem confined_composeChunk (hdest : P dest) (hsources : ∀ key ∈ sources, P key) :
    (GcsUpload.composeChunk s id dest sources).Uses (Confined P p) G := by
  rw [GcsUpload.composeChunk]
  split
  · trivial
  · apply uses_send_end
    exact ⟨List.forall_mem_cons.mpr ⟨hdest, hsources⟩, nofun⟩

theorem confined_composeBatches (htmp : ∀ i, P (s.tmpKey id i)) (i : ℕ) {batches : List (List Str)}
    (hbatches : ∀ batch ∈ batches, ∀ key ∈ batch, P key) :
    (GcsUpload.composeBatches s id i batches).Uses (Confined P p) G ∧
      (GcsUpload.composeBatches s id i batches).Returns G fun tmps => ∀ key ∈ tmps, P key := by
  induction batches generalizing i with
  | nil => exact ⟨trivial, nofun⟩
  | cons batch batches ih =>
      obtain ⟨hbatch, hrest⟩ := List.forall_mem_cons.mp hbatches
      obtain ⟨huses, hreturns⟩ := ih (i + 1) hrest
      constructor
      · apply (confined_composeChunk (htmp i) hbatch).bind
        intro _
        exact huses.bind fun _ => trivial
      · apply (returns_true (GcsUpload.composeChunk s id (s.tmpKey id i) batch)).bind
        intro _ _
        apply hreturns.bind
        intro tmps htmps
        exact List.forall_mem_cons.mpr ⟨htmp i, htmps⟩

theorem forall_mem_chunks {k : ℕ} (hk : 0 < k) (hsources : ∀ key ∈ sources, P key) :
    ∀ batch ∈ Text.chunks k sources, ∀ key ∈ batch, P key := by
  intro batch hbatch key hkey
  apply hsources
  rw [← Text.flatten_chunks hk sources]
  exact List.mem_flatten_of_mem hbatch hkey

theorem confined_composeAll (htmp : ∀ i, P (s.tmpKey id i)) (hdest : P dest)
    (hsources : ∀ key ∈ sources, P key) :
    (GcsUpload.composeAll s id dest sources).Uses (Confined P p) G := by
  rw [GcsUpload.composeAll]
  split
  · exact confined_composeChunk hdest hsources
  · obtain ⟨huses, hreturns⟩ := @confined_composeBatches s id P G p htmp 0 _
      (forall_mem_chunks (by decide : 0 < GcsUpload.MAX_COMPOSE_SOURCES) hsources)
    apply huses.bind_of_returns hreturns
    intro tmps htmps
    exact confined_composeChunk hdest htmps

theorem confined_commitAndDeleteSources (hdest : P dest) (hsources : ∀ key ∈ sources, P key) :
    (AzureUpload.commitAndDeleteSources s id op dest sources).Uses (Confined P p) G := by
  have hcommit : (AzureUpload.commitBlobNamesToDest s id op dest sources).Uses
      (Confined P p) G := by
    rw [AzureUpload.commitBlobNamesToDest]
    split
    · trivial
    · have hstage : (AzureUpload.stageBlocks s id op dest 0 sources).Uses (Confined P p) G :=
        AzureUpload.uses_stageBlocks (fun _ _ => .of_one hdest rfl nofun) 0
          fun key hkey => .of_one (hsources key hkey) rfl nofun
      apply hstage.bind
      intro blocks
      exact uses_send_end (.of_one hdest rfl nofun)
  apply hcommit.bind
  intro _
  exact confined_deleteAll hsources

theorem confined_commitBatches (htmp : ∀ i, P (s.tmpKey id i)) (counter : ℕ)
    {batches : List (List Str)} (hbatches : ∀ batch ∈ batches, ∀ key ∈ batch, P key) :
    (AzureUpload.commitBatches s id op counter batches).Uses (Confined P p) G := by
  induction batches generalizing counter with
  | nil => trivial
  | cons batch batches ih =>
      obtain ⟨hbatch, hrest⟩ := List.forall_mem_cons.mp hbatches
      exact (confined_commitAndDeleteSources (htmp counter) hbatch).bind fun _ => ih _ hrest

theorem forall_mem_temporaries (htmp : ∀ i, P (s.tmpKey id i)) (counter : ℕ)
    (batches : List (List Str)) :
    ∀ key ∈ (AzureUpload.temporaries s id counter batches).1, P key := by
  induction batches generalizing counter with
  | nil => nofun
  | cons batch batches ih => exact List.forall_mem_cons.mpr ⟨htmp counter, ih _⟩

theorem confined_commitRounds (htmp : ∀ i, P (s.tmpKey id i)) (hdest : P dest) (counter : ℕ)
    (hsources : ∀ key ∈ sources, P key) :
    (AzureUpload.commitRounds s id op dest counter sources).Uses (Confined P p) G := by
  induction hlen : sources.length using Nat.strong_induction_on generalizing counter sources with
  | _ len ih =>
      rw [AzureUpload.commitRounds]
      split
      · next hmany =>
          apply (confined_commitBatches htmp counter
            (forall_mem_chunks (by decide : 0 < AzureUpload.MAX_COMMIT_SOURCES) hsources)).bind
          intro _
          apply ih _ _ _ (forall_mem_temporaries htmp _ _) rfl
          rw [AzureUpload.length_temporaries, Text.length_chunks]
          rw [AzureUpload.MAX_COMMIT_SOURCES] at hmany ⊢
          omega
      · exact confined_commitAndDeleteSources hdest hsources

end Confined

theorem Owns.confined_finalize (ho : Owns s id P) :
    (s.finalize id).Uses (Confined P (s.partPrefix id)) Lists := by
  have hdata : P (s.dataKey id) := ho.key .data
  have htmp (i : ℕ) : P (s.tmpKey id i) := ho.key (.tmp i)
  have hparts {parts : List Str} (hlisted : ∀ key ∈ parts, s.partPrefix id <+: key) :
      ∀ key ∈ parts, P key := fun key hkey => ho.listed key (hlisted key hkey)
  rw [finalize]
  split
  · apply confined_listParts.bind_of_returns returns_listParts
    intro parts hlisted
    split
    · exact uses_send_end (.of_one hdata rfl nofun)
    · exact confined_assemble hdata (hparts hlisted) (hparts hlisted)
  · apply confined_listParts.bind_of_returns returns_listParts
    intro parts hlisted
    split
    · exact uses_send_end (.of_one hdata rfl nofun)
    · exact confined_composeAll htmp hdata (hparts hlisted)
  · apply confined_listParts.bind_of_returns returns_listParts
    intro parts hlisted
    split
    · exact uses_send_end (.of_one hdata rfl nofun)
    · rw [AzureUpload.commitManyBlobs]
      split
      · trivial
      · exact confined_commitRounds htmp hdata 0 (hparts hlisted)

theorem Owns.confined_writeChunk (ho : Owns s id P) (offset : ℕ) (reader : Reader) :
    (s.writeChunk id offset reader).Uses (Confined P (s.partPrefix id)) Lists := by
  have hinfo : P (s.infoKey id) := ho.key .info
  apply (uses_readInfo (.of_one hinfo rfl nofun)).bind
  intro info
  apply (uses_ofExcept _).bind
  intro accepted
  apply confined_listParts.bind
  intro parts
  apply uses_send (.of_one (ho.key (.part _)) rfl nofun)
  intro _
  exact (uses_writeInfo (fun _ => .of_one hinfo rfl nofun) _).bind fun _ => trivial

theorem Owns.confined_delete (ho : Owns s id P) :
    (s.delete id).Uses (Confined P (s.partPrefix id)) Lists := by
  refine ⟨.of_one (ho.key .data) rfl nofun, fun _ _ => ⟨.of_one (ho.key .info) rfl nofun,
    fun _ _ => ?_⟩⟩
  apply confined_listParts.attempt.bind_of_returns returns_listParts.attempt
  intro r hr
  cases r with
  | error e => trivial
  | ok parts => exact confined_deleteAll fun key hkey => ho.listed key (hr parts rfl key hkey)

/-! ## Isolation -/

/-- The operations on one upload that change or assemble it. -/
inductive Acts (id : UploadId) : StoreOp → Prop
  | writeChunk (offset : ℕ) (reader : Reader) : Acts id (.writeChunk id offset reader)
  | finalize : Acts id (.finalize id)
  | delete : Acts id (.delete id)

/-- The buckets that operations of the store lead to. -/
inductive Reaches (s : ObjectStore) (svc : Service) : svc.State → Prop
  | empty : Reaches s svc svc.empty
  | step {st : svc.State} (o : StoreOp) : Reaches s svc st → Reaches s svc (s.interp svc o st).2

/-- No operation on `a` names an object of `b` in a service call or is told of
one by a listing. -/
def Isolated (s : ObjectStore) (svc : Service) (a b : UploadId) : Prop :=
  ∀ st, Reaches s svc st → ∀ o, Acts a o → ∀ c ∈ (s.call o).trace svc.impl st, ∀ kind,
    ¬ Involves (s.key b kind) c

theorem confined_call (ho : Owns s id P) {o : StoreOp} (hacts : Acts id o) :
    (s.call o).Uses (Confined P (s.partPrefix id)) Lists := by
  cases hacts with
  | writeChunk offset reader => exact ho.confined_writeChunk offset reader
  | finalize => exact ho.confined_finalize
  | delete => exact ho.confined_delete

/-- What ends with an underscore in a numbered suffix is the first one or the
whole token. -/
theorem underscore_of_prefix {r token d : Str} (htoken : token ∈ tokens)
    (hdigits : ∀ c ∈ d, c.isDigit = true) (hstarts : r ++ ['_'] <+: token ++ d) :
    r = [] ∨ r ++ ['_'] = token := by
  have hend {k : ℕ} (hk : token.length ≤ k) : (token ++ d)[k]? ≠ some '_' := by
    intro hmem
    rw [List.getElem?_append_right hk] at hmem
    cases hdigits _ (List.mem_of_getElem? hmem)
  have htake : r ++ ['_'] = (token ++ d).take (r.length + 1) := by
    have hlength := List.prefix_iff_eq_take.mp hstarts
    rwa [List.length_append, List.length_singleton] at hlength
  have hlast : (token ++ d)[r.length]? = some '_' := by
    have hget : (r ++ ['_'])[r.length]? = some '_' := List.getElem?_concat_length
    rwa [htake, List.getElem?_take_of_lt (Nat.lt_succ_self _)] at hget
  by_cases hr : r.length < token.length
  · rw [List.getElem?_append_left hr] at hlast
    rw [List.take_append_of_le_length hr] at htake
    simp only [tokens, List.mem_cons, List.not_mem_nil, or_false] at htoken
    generalize hlen : r.length = k at hr hlast htake
    rcases htoken with rfl | rfl
    · simp at hr
      interval_cases k <;> simp_all
    · simp at hr
      interval_cases k <;> simp_all
  · exact absurd hlast (hend (Nat.le_of_not_lt hr))

/-- Some key of `b` starts with the part prefix of `a` exactly when `b` and an
underscore do. -/
theorem exists_partPrefix_iff (hab : a ≠ b) :
    (∃ kind, s.partPrefix a <+: s.key b kind) ↔
      a.val ++ "_part_".toList <+: b.val ++ ['_'] := by
  have hval : a.val ≠ b.val := by
    intro heq
    apply hab
    cases a
    cases b
    exact congrArg _ heq
  simp only [partPrefix, key, UploadId.key, List.prefix_append_right_inj]
  constructor
  · rintro ⟨kind, rest, heq⟩
    rcases List.append_eq_append_iff.mp heq with ⟨tail, hb, -⟩ | ⟨r, hstarts, hsuffix⟩
    · rw [hb, List.append_assoc]
      exact List.prefix_append _ _
    rcases List.eq_nil_or_concat r with rfl | ⟨r, c, rfl⟩
    · rw [hstarts, List.append_nil]
      exact List.prefix_append _ _
    -- the prefix ends inside the suffix of the key, with an underscore
    rw [List.concat_eq_append] at hstarts hsuffix
    have hsplit : a.val ++ "_part".toList ++ ['_'] = b.val ++ r ++ [c] := by
      rw [List.append_assoc, List.append_assoc]
      exact hstarts
    obtain ⟨hhead, hlast⟩ := List.append_inj' hsplit rfl
    obtain rfl : '_' = c := List.singleton_inj.mp hlast
    have hunderscore : r ++ ['_'] <+: kind.suffix := ⟨rest, hsuffix.symm⟩
    have hdigits (n : ℕ) : ∀ d ∈ Text.decimal n, d.isDigit = true := fun _ hd =>
      Text.isDigit_of_mem_decimal hd
    have hmem : '_' ∈ kind.suffix := hunderscore.subset (List.mem_append_right _ (by decide))
    have hstart (hr : r = []) : a.val ++ "_part_".toList <+: b.val ++ ['_'] := by
      rw [hstarts, hr, List.nil_append]
    cases kind with
    | data => cases hmem
    | info => exact absurd hmem (by decide)
    | part n =>
        rcases underscore_of_prefix (by decide) (hdigits n) hunderscore with hr | htoken
        · exact hstart hr
        · obtain rfl : r = "_part".toList := @List.append_cancel_right _ _ ['_'] _ htoken
          exact absurd (List.append_cancel_right hhead) hval
    | tmp n =>
        rcases underscore_of_prefix (by decide) (hdigits n) hunderscore with hr | htoken
        · exact hstart hr
        · obtain rfl : r = "_tmp".toList := @List.append_cancel_right _ _ ['_'] _ htoken
          have hlast := congrArg List.getLast? hhead
          rw [List.getLast?_append, List.getLast?_append] at hlast
          cases hlast
  · intro hstarts
    refine ⟨.part 0, hstarts.trans ?_⟩
    rw [KeyKind.suffix_part, List.prefix_append_right_inj]
    exact List.prefix_append_of_prefix (by decide)

/-- An object that a listing can return is not of another upload. -/
theorem isolated_of_not_prefix (hs : svc.Stores) (ha : a.Valid) (hb : b.Valid) (hab : a ≠ b)
    (hnot : ¬ a.val ++ "_part_".toList <+: b.val ++ ['_']) : Isolated s svc a b := by
  have howns : Owns s a fun key => ∀ kind, key ≠ s.key b kind := by
    constructor
    · intro k kind heq
      rw [key, key, List.append_right_inj] at heq
      exact hab (UploadId.key_injective ha hb heq).1
    · rintro _ hstarts kind rfl
      exact hnot ((exists_partPrefix_iff hab).mp ⟨kind, hstarts⟩)
  rintro st - o hacts ⟨call, answer⟩ hc kind hinvolves
  obtain ⟨hconfined, hlists⟩ :=
    (confined_call howns hacts).of_mem_trace (fun o st => lists hs o st) hc
  cases call with
  | list p =>
      obtain rfl := hconfined.list p rfl
      cases answer with
      | error e => cases hinvolves
      | ok names =>
          apply hnot
          apply (exists_partPrefix_iff hab).mp
          exact ⟨kind, hlists _ hinvolves⟩
  | _ => exact hconfined.keys _ hinvolves kind rfl

/-- A bucket with both uploads, and a part of the second one. -/
theorem exists_reaches_part (hs : svc.Stores) (ha : a.Valid) (hb : b.Valid) (hab : a ≠ b) :
    ∃ st, Reaches s svc st ∧ svc.content st (s.infoKey a) ≠ none ∧
      svc.content st (s.partKey b 0) ≠ none := by
  have hkey {k l : KeyKind} : s.key b k ≠ s.key a l := by
    intro heq
    rw [key, key, List.append_right_inj] at heq
    exact hab (UploadId.key_injective hb ha heq).1.symm
  obtain ⟨st₁, hcreate, hh₁⟩ := @run_createUpload s svc svc.empty hs (.new b none)
    (holds_empty fun key _ => svc.content_empty key)
  obtain ⟨st₂, hwrite, hh₂⟩ := run_writeChunk hs hh₁ rfl 0 (.ok [])
  obtain ⟨st₃, hother, hcontent⟩ := @run_writeInfo s svc a st₂ hs (.new a none)
  have hst₁ : (s.interp svc (.createUpload (.new b none)) svc.empty).2 = st₁ :=
    congrArg Prod.snd hcreate
  have hst₂ : (s.interp svc (.writeChunk b 0 (.ok [])) st₁).2 = st₂ := congrArg Prod.snd hwrite
  have hst₃ : (s.interp svc (.createUpload (.new a none)) st₂).2 = st₃ := congrArg Prod.snd hother
  refine ⟨st₃, ?_, ?_, ?_⟩
  · rw [← hst₃, ← hst₂, ← hst₁]
    exact .step _ (.step _ (.step _ .empty))
  · rw [hcontent, Function.update_self]
    exact Option.some_ne_none _
  · have hpart : svc.content st₂ (s.partKey b 0) = some [] := hh₂.part 0
    have hne : s.partKey b 0 ≠ s.infoKey a := hkey
    rw [hcontent, Function.update_of_ne hne, hpart]
    exact Option.some_ne_none _

/-- A removal is told of every object that starts with the part prefix. -/
theorem involves_of_delete (hs : svc.Stores) {key : Str} {st : svc.State}
    (hfound : svc.content st key ≠ none) (hdata : key ≠ s.dataKey a) (hinfo : key ≠ s.infoKey a)
    (hstarts : s.partPrefix a <+: key) :
    ∃ c ∈ (s.delete a).trace svc.impl st, Involves key c := by
  let st₁ := (svc.impl (.delete (s.dataKey a)) st).2
  let st₂ := (svc.impl (.delete (s.infoKey a)) st₁).2
  have hstill : svc.content st₂ key ≠ none := by
    rw [hs.delete_content, Function.update_of_ne hinfo, hs.delete_content,
      Function.update_of_ne hdata]
    exact hfound
  obtain ⟨names, hanswer, -, hmem⟩ := hs.list_ok (s.partPrefix a) st₂
  refine ⟨⟨.list (s.partPrefix a), .ok names⟩, ?_, (hmem key).mpr ⟨hstill, hstarts⟩⟩
  apply List.mem_cons_of_mem
  apply List.mem_cons_of_mem
  change _ ∈ Prog.trace svc.impl ((s.listParts a).attempt.bind _) st₂
  rw [trace_bind_ok (run_attempt svc.impl (s.listParts a) st₂), trace_attempt]
  apply List.mem_append_left
  rw [← hanswer]
  exact List.mem_cons_self

/-- The operations on one upload leave the objects of another alone exactly
when its id, with an underscore, does not continue the part prefix. -/
theorem isolated_iff (hs : svc.Stores) (ha : a.Valid) (hb : b.Valid) (hab : a ≠ b) :
    Isolated s svc a b ↔ ¬ a.val ++ "_part_".toList <+: b.val ++ ['_'] := by
  refine ⟨fun hisolated hstarts => ?_, isolated_of_not_prefix hs ha hb hab⟩
  obtain ⟨st, hreaches, -, hpart⟩ := @exists_reaches_part s svc a b hs ha hb hab
  have hkey {k : KeyKind} : s.partKey b 0 ≠ s.key a k := by
    intro heq
    rw [partKey, key, key, List.append_right_inj] at heq
    exact hab (UploadId.key_injective hb ha heq).1.symm
  have hlisted : s.partPrefix a <+: s.partKey b 0 := by
    rw [partPrefix, partKey, key, UploadId.key, List.prefix_append_right_inj]
    apply hstarts.trans
    rw [KeyKind.suffix_part, List.prefix_append_right_inj]
    exact List.prefix_append_of_prefix (by decide)
  obtain ⟨c, hc, hinvolves⟩ := involves_of_delete hs hpart hkey hkey hlisted
  exact hisolated st hreaches (.delete a) .delete c hc (.part 0) hinvolves

namespace TwoChapters

def store : ObjectStore := ⟨.s3, [], .json, slashed_nil⟩

def chapter : UploadId := ⟨"chapter".toList⟩

def partTwo : UploadId := ⟨"chapter_part_two".toList⟩

def notebook : UploadId := ⟨"notebook".toList⟩

theorem valid : chapter.Valid ∧ partTwo.Valid ∧ notebook.Valid := by decide +kernel

/-- Both uploads, neither with content. -/
def created : Bucket :=
  (store.interp Bucket.service (.createUpload (.new chapter none))
    (store.interp Bucket.service (.createUpload (.new partTwo none)) Bucket.empty).2).2

theorem reaches_created : Reaches store Bucket.service created := .step _ (.step _ .empty)

end TwoChapters

open TwoChapters in
theorem isolated_iff_notes :
    Isolated store Bucket.service chapter notebook ↔
      ¬ chapter.val ++ "_part_".toList <+: notebook.val ++ ['_'] :=
  isolated_iff Bucket.stores valid.1 valid.2.2 (by decide)

open TwoChapters in
/-- The removal of one upload removes the record of the other. -/
theorem delete_chapter_removes_record :
    chapter.Valid ∧ partTwo.Valid ∧ chapter ≠ partTwo ∧ Reaches store Bucket.service created ∧
      (created.content (store.infoKey partTwo)).isSome = true ∧
      (store.interp Bucket.service (.delete chapter) created).1 = .ok () ∧
      (store.interp Bucket.service (.delete chapter) created).2.content
        (store.infoKey partTwo) = none ∧
      ¬ Isolated store Bucket.service chapter partTwo := by
  have hrecord : (created.content (store.infoKey partTwo)).isSome = true := by decide +kernel
  have hgone : (store.interp Bucket.service (.delete chapter) created).2.content
      (store.infoKey partTwo) = none := by
    decide +kernel
  have hcalls : ((store.call (.delete chapter)).trace Bucket.service.impl created).any
      (fun c => decide (store.infoKey partTwo ∈ c.1.keys)) = true := by
    decide +kernel
  refine ⟨valid.1, valid.2.1, by decide, reaches_created, hrecord, by decide +kernel, hgone,
    fun hisolated => ?_⟩
  obtain ⟨⟨o, r⟩, hc, hkeys⟩ := List.any_eq_true.mp hcalls
  have hkeys : store.infoKey partTwo ∈ o.keys := of_decide_eq_true hkeys
  apply hisolated created reaches_created (.delete chapter) .delete _ hc .info
  cases o with
  | list p => cases hkeys
  | _ => exact hkeys

end Fileloft.ObjectStore
