import Fileloft.Object.Multipart
import Fileloft.Object.Slot

/-!
# Committing many blobs in Azure

Rounds of batches replace the sources by temporaries until one commit can
join them. The joined bytes stay the same from round to round.
-/

namespace Fileloft.AzureUpload

open ObjectStore Prog

/-- The blob that a call commits a block list to. -/
def commitment : (o : ObjectOp) × ObjectSig.Ans o → Option Str
  | ⟨.putBlockList key _, _⟩ => some key
  | _ => none

/-- The blobs that some calls commit. -/
def committed (l : Calls ObjectSig) : List Str := l.filterMap commitment

theorem committed_append {l l' : Calls ObjectSig} :
    committed (l ++ l') = committed l ++ committed l' := List.filterMap_append

variable {s : ObjectStore} {svc : Service} {id : UploadId} {op : Str} {st st' : svc.State}
  {staged : svc.State → Str → Bytes → Option Bytes} {dest : Str} {data : Bytes}

theorem blockIdForIndex_injective {i j : ℕ} (hi : i < 256) (hj : j < 256)
    (heq : blockIdForIndex i = blockIdForIndex j) : i = j := by
  have hlast := congrArg List.getLast? heq
  simp only [blockIdForIndex, List.map_cons, List.map_nil, List.getLast?_cons_cons,
    List.getLast?_singleton, Option.some.injEq] at hlast
  have hbyte := congrArg UInt8.toNat hlast
  simpa [Nat.mod_eq_of_lt hi, Nat.mod_eq_of_lt hj] using hbyte

/-- The sources are staged under the ids of their indices. -/
theorem after_stageBlocks (hs : svc.Stores) (hb : svc.Blocks staged) {i : ℕ} {srcs : List Str}
    {cs : List Bytes} (hsmall : i + srcs.length ≤ 256) (hcs : svc.contents st srcs = some cs) :
    After svc.impl (stageBlocks s id op dest i srcs) st fun r st' l =>
      r = .ok ((List.range' i srcs.length).map blockIdForIndex) ∧
        svc.content st' = svc.content st ∧ committed l = [] ∧
        ((List.range' i srcs.length).map blockIdForIndex).mapM (staged st' dest) = some cs ∧
        ∀ j < i, staged st' dest (blockIdForIndex j) = staged st dest (blockIdForIndex j) := by
  induction srcs generalizing i st cs with
  | nil =>
      rw [Service.contents, List.mapM_nil] at hcs
      obtain rfl := Option.some.inj hcs
      exact ⟨rfl, rfl, rfl, rfl, fun _ _ => rfl⟩
  | cons src srcs ih =>
      obtain ⟨c, cs', hc, hcs', rfl⟩ := Text.mapM_cons_eq_some.mp hcs
      obtain ⟨body, hbody, hwhole, rfl, -⟩ := hs.get_found hc
      rw [List.length_cons] at hsmall
      apply after_send
      · intro v hv
        rw [hbody] at hv
        cases hv
        rw [hs.get_keeps]
        have hcollect : s.collect id op [] body = .ok body.reads.flatten := by
          rw [collect, hwhole]
        rw [hcollect, ofExcept_ok, bind_eq, ret_bind]
        apply after_send
        · intro v _
          generalize hst : (svc.impl (.putBlock dest (blockIdForIndex i) body.reads.flatten) st).2 =
            st₁
          have hcontent : svc.content st₁ = svc.content st := hst ▸ hb.block_content _ _ _ _
          have hstaged := hb.block_staged dest (blockIdForIndex i) body.reads.flatten st
          rw [hst] at hstaged
          have hcs₁ : svc.contents st₁ srcs = some cs' := by
            rw [Service.contents, hcontent]
            exact hcs'
          apply After.bind (ih (i := i + 1) (by omega) hcs₁)
          · rintro ids st₂ l ⟨hids, hcontent₂, hl, hlist, hbefore⟩
            apply After.ret
            have hids' := Except.ok.inj hids
            refine ⟨?_, hcontent₂.trans hcontent, ?_, ?_, ?_⟩
            · rw [hids', List.length_cons, List.range'_succ, List.map_cons]
            · rw [List.append_nil]
              exact hl
            · rw [List.length_cons, List.range'_succ, List.map_cons, Text.mapM_cons_eq_some]
              refine ⟨_, _, ?_, hlist, rfl⟩
              rw [hbefore i (Nat.lt_succ_self i), hstaged, Function.update_self]
            · intro j hj
              have hne : blockIdForIndex j ≠ blockIdForIndex i := fun heq => by
                have hji := blockIdForIndex_injective (by omega) (by omega) heq
                omega
              rw [hbefore j (by omega), hstaged, Function.update_of_ne hne]
          · rintro e st₂ l ⟨he, -⟩
            cases he
        · intro e he
          rw [hb.block_ok] at he
          cases he
      · intro e he
        rw [hbody] at he
        cases he

/-- One commit joins its sources. -/
theorem after_commitBlobNamesToDest (hs : svc.Stores) (hb : svc.Blocks staged) {srcs : List Str}
    {cs : List Bytes} (hne : srcs ≠ []) (hfew : srcs.length ≤ MAX_COMMIT_SOURCES)
    (hcs : svc.contents st srcs = some cs) :
    After svc.impl (commitBlobNamesToDest s id op dest srcs) st fun r st' l =>
      r = .ok () ∧ committed l = [dest] ∧
        svc.content st' = Function.update (svc.content st) dest (some cs.flatten) := by
  have hsmall : 0 + srcs.length ≤ 256 := by
    rw [MAX_COMMIT_SOURCES] at hfew
    omega
  rw [commitBlobNamesToDest, if_neg hne]
  apply After.bind (after_stageBlocks hs hb hsmall hcs)
  · rintro ids st₁ l ⟨hids, hcontent, hl, hlist, -⟩
    cases hids
    obtain ⟨hanswer, hlisted⟩ := hb.list_ok hlist
    apply After.op
    rw [hanswer]
    refine ⟨rfl, ?_, ?_⟩
    · rw [committed_append, hl]
      rfl
    · rw [← hcontent]
      exact hlisted
  · rintro e st₁ l ⟨he, -⟩
    cases he

/-- One commit joins its sources and removes them. -/
theorem after_commitAndDeleteSources (hs : svc.Stores) (hb : svc.Blocks staged) {srcs : List Str}
    {cs : List Bytes} (hne : srcs ≠ []) (hfew : srcs.length ≤ MAX_COMMIT_SOURCES)
    (hcs : svc.contents st srcs = some cs) :
    After svc.impl (commitAndDeleteSources s id op dest srcs) st fun r st' l =>
      r = .ok () ∧ committed l = [dest] ∧ svc.content st' = fun key =>
        if key ∈ srcs then none
        else Function.update (svc.content st) dest (some cs.flatten) key := by
  apply After.bind (after_commitBlobNamesToDest hs hb hne hfew hcs)
  · rintro _ st₁ l ⟨-, hl, hcontent⟩
    have hrest : After svc.impl (deleteAll srcs) st₁ fun r st' l =>
        (r = .ok () ∧ ∀ c ∈ l, ∃ key, c.1 = .delete key) ∧
          svc.content st' = fun key => if key ∈ srcs then none else svc.content st₁ key := by
      obtain ⟨st', hrun, hremoved⟩ := @run_deleteAll svc st₁ hs srcs
      refine (after_deleteAll srcs).and ?_
      change svc.content ((deleteAll srcs).run svc.impl st₁).2 = _
      rw [hrun, hremoved]
    apply hrest.mono
    rintro r st' l' ⟨⟨hr, hl'⟩, hremoved⟩
    have hnone : committed l' = [] := filterMap_removals (fun _ _ => rfl) hl'
    refine ⟨hr, ?_, ?_⟩
    · rw [committed_append, hl, hnone, List.append_nil]
    · rw [hremoved, hcontent]
  · rintro e st₁ l ⟨he, -⟩
    cases he

/-- The sources, and the temporaries below a counter. -/
def Touched (s : ObjectStore) (id : UploadId) (sources : List Str) (counter : ℕ) (key : Str) :
    Prop :=
  key ∈ sources ∨ ∃ k < counter, key = s.tmpKey id k

/-- Some rounds on, `srcs` hold the bytes that the sources held. What was
consumed is gone, and no other blob has changed. -/
structure Merging (s : ObjectStore) (svc : Service) (id : UploadId) (objects : Str → Option Bytes)
    (sources : List Str) (data : Bytes) (counter : ℕ) (srcs : List Str) (st : svc.State) :
    Prop where
  joined : ∃ cs, svc.contents st srcs = some cs ∧ cs.flatten = data
  nodup : srcs.Nodup
  touched : ∀ key ∈ srcs, Touched s id sources counter key
  gone : ∀ key, Touched s id sources counter key → key ∉ srcs → svc.content st key = none
  kept : ∀ key, ¬ Touched s id sources counter key → svc.content st key = objects key

variable {objects : Str → Option Bytes} {sources srcs pre batch post : List Str} {counter : ℕ}

theorem tmpKey_injective {m n : ℕ} (heq : s.tmpKey id m = s.tmpKey id n) : m = n :=
  KeyKind.tmp.inj (key_injective heq)

theorem touched_succ {key : Str} : Touched s id sources (counter + 1) key ↔
    Touched s id sources counter key ∨ key = s.tmpKey id counter := by
  rw [Touched, Touched, or_assoc]
  apply or_congr_right
  constructor
  · rintro ⟨k, hk, rfl⟩
    rcases Nat.lt_or_eq_of_le (Nat.le_of_lt_succ hk) with hlt | rfl
    · exact .inl ⟨k, hlt, rfl⟩
    · exact .inr rfl
  · rintro (⟨k, hk, rfl⟩ | rfl)
    · exact ⟨k, Nat.lt_succ_of_lt hk, rfl⟩
    · exact ⟨counter, Nat.lt_succ_self _, rfl⟩

/-- No temporary has been a source. -/
theorem not_touched_tmpKey (hfree : ∀ key ∈ sources, ∀ k, key ≠ s.tmpKey id k) :
    ¬ Touched s id sources counter (s.tmpKey id counter) := by
  rintro (hsource | ⟨k, hk, heq⟩)
  · exact hfree _ hsource counter rfl
  · have hk' := tmpKey_injective heq
    omega

/-- One batch becomes the next temporary. -/
theorem Merging.commit (hfree : ∀ key ∈ sources, ∀ k, key ≠ s.tmpKey id k)
    (hmerging : Merging s svc id objects sources data counter (pre ++ (batch ++ post)) st)
    {cs : List Bytes} (hcs : svc.contents st batch = some cs)
    (hcontent : svc.content st' = fun key => if key ∈ batch then none
      else Function.update (svc.content st) (s.tmpKey id counter) (some cs.flatten) key) :
    Merging s svc id objects sources data (counter + 1)
      (pre ++ s.tmpKey id counter :: post) st' := by
  obtain ⟨⟨all, hall, hdata⟩, hnodup, htouched, hgone, hkept⟩ := hmerging
  have hfresh : ¬ Touched s id sources counter (s.tmpKey id counter) := not_touched_tmpKey hfree
  have hother {key : Str} (hkey : key ∈ pre ∨ key ∈ post) : key ∉ batch ∧
      key ≠ s.tmpKey id counter := by
    constructor
    · intro hbatch
      rw [List.nodup_append, List.nodup_append] at hnodup
      rcases hkey with hpre | hpost
      · exact hnodup.2.2 key hpre key (List.mem_append_left _ hbatch) rfl
      · exact hnodup.2.1.2.2 key hbatch key hpost rfl
    · rintro rfl
      apply hfresh
      apply htouched
      rw [List.mem_append, List.mem_append]
      tauto
  have hsame {keys : List Str} (hkeys : ∀ key ∈ keys, key ∈ pre ∨ key ∈ post) :
      keys.mapM (svc.content st') = keys.mapM (svc.content st) := by
    apply Text.mapM_congr
    intro key hkey
    obtain ⟨hbatch, hne⟩ := hother (hkeys key hkey)
    rw [hcontent]
    exact (if_neg hbatch).trans (Function.update_of_ne hne ..)
  have hnew : svc.content st' (s.tmpKey id counter) = some cs.flatten := by
    have hbatch : s.tmpKey id counter ∉ batch := by
      intro hmem
      apply hfresh
      apply htouched
      exact List.mem_append_right _ (List.mem_append_left _ hmem)
    rw [hcontent]
    exact (if_neg hbatch).trans (Function.update_self ..)
  refine ⟨?_, ?_, ?_, ?_, ?_⟩
  · obtain ⟨as, bs, has, hbs, rfl⟩ := Text.mapM_append_eq_some.mp hall
    obtain ⟨cs', ds, hcs', hds, rfl⟩ := Text.mapM_append_eq_some.mp hbs
    obtain rfl : cs = cs' := Option.some.inj (hcs.symm.trans hcs')
    refine ⟨as ++ cs.flatten :: ds, ?_, ?_⟩
    · refine Text.mapM_append_eq_some.mpr ⟨as, _, ?_, Text.mapM_cons_eq_some.mpr
        ⟨_, ds, hnew, ?_, rfl⟩, rfl⟩
      · rw [hsame fun key hkey => .inl hkey, has]
      · rw [hsame fun key hkey => .inr hkey, hds]
    · rw [← hdata]
      simp only [List.flatten_append, List.flatten_cons]
  · rw [List.nodup_append, List.nodup_append] at hnodup
    rw [List.nodup_append, List.nodup_cons]
    refine ⟨hnodup.1, ⟨fun hmem => (hother (.inr hmem)).2 rfl, hnodup.2.1.2.1⟩, ?_⟩
    intro a ha b hb
    rcases List.mem_cons.mp hb with rfl | hb
    · exact (hother (.inl ha)).2
    · exact hnodup.2.2 a ha b (List.mem_append_right _ hb)
  · intro key hkey
    rw [touched_succ]
    rw [List.mem_append, List.mem_cons] at hkey
    rcases hkey with hpre | rfl | hpost
    · exact .inl (htouched key (List.mem_append_left _ hpre))
    · exact .inr rfl
    · exact .inl (htouched key (List.mem_append_right _ (List.mem_append_right _ hpost)))
  · intro key hkey hnot
    rw [List.mem_append, List.mem_cons, not_or, not_or] at hnot
    obtain ⟨hpre, hne, hpost⟩ := hnot
    rw [touched_succ, or_iff_left hne] at hkey
    rw [hcontent]
    by_cases hbatch : key ∈ batch
    · exact if_pos hbatch
    · refine (if_neg hbatch).trans ((Function.update_of_ne hne ..).trans (hgone key hkey ?_))
      rw [List.mem_append, List.mem_append]
      tauto
  · intro key hkey
    rw [touched_succ, not_or] at hkey
    have hbatch : key ∉ batch := fun hmem =>
      hkey.1 (htouched key (List.mem_append_right _ (List.mem_append_left _ hmem)))
    rw [hcontent]
    exact (if_neg hbatch).trans ((Function.update_of_ne hkey.2 ..).trans (hkept key hkey.1))

/-- The temporaries of a range of numbers. -/
def tmpKeys (s : ObjectStore) (id : UploadId) (first count : ℕ) : List Str :=
  (List.range' first count).map (s.tmpKey id)

theorem tmpKeys_succ (first count : ℕ) :
    tmpKeys s id first (count + 1) = s.tmpKey id first :: tmpKeys s id (first + 1) count := by
  rw [tmpKeys, List.range'_succ, List.map_cons, tmpKeys]

theorem tmpKeys_append (first m n : ℕ) :
    tmpKeys s id first m ++ tmpKeys s id (first + m) n = tmpKeys s id first (m + n) := by
  rw [tmpKeys, tmpKeys, ← List.map_append, List.range'_append_1, tmpKeys]

/-- Below its last value the counter does not saturate. -/
theorem temporaries_eq {batches : List (List Str)}
    (hsmall : counter + batches.length < FileStore.U32_BOUND) :
    temporaries s id counter batches =
      (tmpKeys s id counter batches.length, counter + batches.length) := by
  induction batches generalizing counter with
  | nil => rfl
  | cons batch batches ih =>
      rw [List.length_cons] at hsmall
      have hnext : saturatingAdd counter 1 = counter + 1 := Nat.min_eq_left (by omega)
      rw [temporaries, hnext, ih (by omega), List.length_cons, tmpKeys_succ]
      have hlast : counter + 1 + batches.length = counter + (batches.length + 1) := by omega
      rw [← hlast]

section Rounds

variable (hs : svc.Stores) (hb : svc.Blocks staged)
  (hfree : ∀ key ∈ sources, ∀ k, key ≠ s.tmpKey id k)

include hs hb hfree

theorem after_commitBatches {batches : List (List Str)}
    (hbatches : ∀ batch ∈ batches, batch ≠ [] ∧ batch.length ≤ MAX_COMMIT_SOURCES)
    (hsmall : counter + batches.length < FileStore.U32_BOUND)
    (hmerging : Merging s svc id objects sources data counter (pre ++ batches.flatten) st) :
    After svc.impl (commitBatches s id op counter batches) st fun r st' l =>
      r = .ok () ∧ committed l = tmpKeys s id counter batches.length ∧
        Merging s svc id objects sources data (counter + batches.length)
          (pre ++ tmpKeys s id counter batches.length) st' := by
  induction batches generalizing counter pre st with
  | nil => exact ⟨rfl, rfl, hmerging⟩
  | cons batch batches ih =>
      rw [List.length_cons] at hsmall
      obtain ⟨⟨hne, hfew⟩, hrest⟩ := List.forall_mem_cons.mp hbatches
      rw [List.flatten_cons] at hmerging
      obtain ⟨cs, hall, -⟩ := hmerging.joined
      obtain ⟨-, bs, -, hbs, -⟩ := Text.mapM_append_eq_some.mp hall
      obtain ⟨c, -, hc, -, -⟩ := Text.mapM_append_eq_some.mp hbs
      apply After.bind (after_commitAndDeleteSources hs hb hne hfew hc)
      · rintro _ st₁ l ⟨-, hl, hcontent⟩
        have hnext : saturatingAdd counter 1 = counter + 1 := Nat.min_eq_left (by omega)
        have hmerging₁ := hmerging.commit hfree hc hcontent
        rw [List.append_cons] at hmerging₁
        rw [hnext]
        apply (ih hrest (by omega) hmerging₁).mono
        rintro r st' l' ⟨hr, hl', hmerging'⟩
        rw [List.length_cons, tmpKeys_succ]
        refine ⟨hr, ?_, ?_⟩
        · rw [committed_append, hl, hl', List.singleton_append]
        · rw [List.append_cons, ← Nat.add_assoc, Nat.add_right_comm]
          exact hmerging'
      · rintro e st₁ l ⟨he, -⟩
        cases he

/-- The rounds end with the joined bytes in the destination. -/
theorem after_commitRounds (hdest : ∀ n, ¬ Touched s id sources n dest)
    (hsmall : counter + srcs.length ≤ FileStore.U32_BOUND) (hne : srcs ≠ [])
    (hmerging : Merging s svc id objects sources data counter srcs st) :
    After svc.impl (commitRounds s id op dest counter srcs) st fun r st' l =>
      ∃ count, r = .ok () ∧ committed l = tmpKeys s id counter count ++ [dest] ∧
        svc.content st' dest = some data ∧
        (∀ key, key ≠ dest → Touched s id sources (counter + count) key →
          svc.content st' key = none) ∧
        ∀ key, key ≠ dest → ¬ Touched s id sources (counter + count) key →
          svc.content st' key = objects key := by
  induction hlen : srcs.length using Nat.strong_induction_on generalizing counter srcs st with
  | _ len ih =>
      rw [commitRounds]
      split
      · next hmany =>
          have hbatches : ∀ batch ∈ Text.chunks MAX_COMMIT_SOURCES srcs,
              batch ≠ [] ∧ batch.length ≤ MAX_COMMIT_SOURCES := fun batch hbatch =>
            ⟨Text.ne_nil_of_mem_chunks (by decide) hbatch, Text.length_le_of_mem_chunks hbatch⟩
          have hcount := Text.length_chunks MAX_COMMIT_SOURCES srcs
          rw [MAX_COMMIT_SOURCES] at hmany
          -- the batches and the temporaries before them are fewer than the sources
          have hless : 2 * (Text.chunks MAX_COMMIT_SOURCES srcs).length ≤ srcs.length := by
            rw [hcount, MAX_COMMIT_SOURCES]
            omega
          have hpos : 0 < (Text.chunks MAX_COMMIT_SOURCES srcs).length := by
            rw [hcount, MAX_COMMIT_SOURCES]
            omega
          generalize hchunks : Text.chunks MAX_COMMIT_SOURCES srcs = batches at *
          have hflatten : batches.flatten = srcs := by
            rw [← hchunks]
            exact Text.flatten_chunks (by decide) srcs
          rw [← hflatten, ← List.nil_append batches.flatten] at hmerging
          apply After.bind (after_commitBatches hs hb hfree hbatches (by omega) hmerging)
          · rintro _ st₁ l ⟨-, hl, hmerging₁⟩
            rw [List.nil_append] at hmerging₁
            rw [temporaries_eq (by omega)]
            have hlength : (tmpKeys s id counter batches.length).length = batches.length := by
              rw [tmpKeys, List.length_map, List.length_range']
            have hnext := ih _ (by omega) (by omega) (by
              rw [← List.length_pos_iff, hlength]
              exact hpos) hmerging₁ hlength
            apply hnext.mono
            rintro r st' l' ⟨count, hr, hl', hrest⟩
            refine ⟨batches.length + count, hr, ?_, ?_⟩
            · rw [committed_append, hl, hl', ← List.append_assoc, tmpKeys_append]
            · rw [← Nat.add_assoc]
              exact hrest
          · rintro e st₁ l ⟨he, -⟩
            cases he
      · next hfew =>
          obtain ⟨cs, hcs, hdata⟩ := hmerging.joined
          apply (after_commitAndDeleteSources hs hb hne (Nat.le_of_not_lt hfew) hcs).mono
          rintro r st' l ⟨hr, hl, hcontent⟩
          have hnot : dest ∉ srcs := fun hmem => hdest _ (hmerging.touched dest hmem)
          refine ⟨0, hr, hl, ?_, fun key hne htouched => ?_, fun key hne hkey => ?_⟩
          · rw [hcontent]
            exact (if_neg hnot).trans ((Function.update_self ..).trans (congrArg some hdata))
          · rw [hcontent]
            by_cases hmem : key ∈ srcs
            · exact if_pos hmem
            · refine (if_neg hmem).trans ((Function.update_of_ne hne ..).trans ?_)
              exact hmerging.gone key htouched hmem
          · have hmem : key ∉ srcs := fun hmem => hkey (hmerging.touched key hmem)
            rw [hcontent]
            refine (if_neg hmem).trans ((Function.update_of_ne hne ..).trans ?_)
            exact hmerging.kept key hkey

end Rounds

/-- At most 32 blocks make a blob. -/
def FewBlocks : ObjectOp → Prop
  | .putBlockList _ blocks => blocks.length ≤ MAX_COMMIT_SOURCES
  | _ => True

section FewBlocks

variable {G : (o : ObjectOp) → ObjectSig.Ans o → Prop}

theorem stageBlocks_length (i : ℕ) (srcs : List Str) :
    (stageBlocks s id op dest i srcs).Returns G fun blocks => blocks.length = srcs.length := by
  induction srcs generalizing i with
  | nil => exact rfl
  | cons src srcs ih =>
      apply returns_send
      intro body
      have hcollect : (Prog.ofExcept (s.collect id op [] body) : ObjectProg Bytes).Returns G
        fun _ => True := returns_true _
      apply hcollect.bind
      intro data _
      apply returns_send
      intro _
      apply (ih (i + 1)).bind
      intro blocks hblocks
      exact congrArg Nat.succ hblocks

theorem few_commitAndDeleteSources {srcs : List Str} (hfew : srcs.length ≤ MAX_COMMIT_SOURCES) :
    (commitAndDeleteSources s id op dest srcs).Uses FewBlocks G := by
  have hcommit : (commitBlobNamesToDest s id op dest srcs).Uses FewBlocks G := by
    rw [commitBlobNamesToDest]
    split
    · trivial
    · have hstage : (stageBlocks s id op dest 0 srcs).Uses FewBlocks G :=
        uses_stageBlocks (fun _ _ => trivial) 0 fun _ _ => trivial
      apply hstage.bind_of_returns (stageBlocks_length 0 srcs)
      intro blocks hblocks
      refine ⟨hblocks.trans_le hfew, fun r _ => ?_⟩
      cases r <;> trivial
  apply hcommit.bind
  rintro -
  exact uses_deleteAll fun _ _ => trivial

theorem few_commitBatches {batches : List (List Str)}
    (hbatches : ∀ batch ∈ batches, batch.length ≤ MAX_COMMIT_SOURCES) (counter : ℕ) :
    (commitBatches s id op counter batches).Uses FewBlocks G := by
  induction batches generalizing counter with
  | nil => trivial
  | cons batch batches ih =>
      obtain ⟨hbatch, hrest⟩ := List.forall_mem_cons.mp hbatches
      exact (few_commitAndDeleteSources hbatch).bind fun _ => ih hrest _

theorem few_commitRounds (counter : ℕ) (srcs : List Str) :
    (commitRounds s id op dest counter srcs).Uses FewBlocks G := by
  induction hlen : srcs.length using Nat.strong_induction_on generalizing counter srcs with
  | _ len ih =>
      rw [commitRounds]
      split
      · next hmany =>
          apply (few_commitBatches (fun _ => Text.length_le_of_mem_chunks) counter).bind
          rintro -
          apply ih _ _ _ _ rfl
          rw [length_temporaries, Text.length_chunks]
          rw [MAX_COMMIT_SOURCES] at hmany ⊢
          omega
      · next hfew => exact few_commitAndDeleteSources (Nat.le_of_not_lt hfew)

end FewBlocks

theorem merging_start {cs : List Bytes} (hnodup : sources.Nodup)
    (hcs : svc.contents st sources = some cs) :
    Merging s svc id (svc.content st) sources cs.flatten 0 sources st where
  joined := ⟨cs, hcs, rfl⟩
  nodup := hnodup
  touched key hkey := .inl hkey
  gone key hkey hnot := by
    rcases hkey with hsource | ⟨k, hk, -⟩
    · exact absurd hsource hnot
    · exact absurd hk (Nat.not_lt_zero k)
  kept key _ := rfl

/-- With no failing call, any number of blobs that the temporaries can be
numbered for are joined in order, by commits of at most 32 blocks. The
sources and the temporaries are gone, and no other blob has changed. -/
theorem commit_many_blobs_joins (hs : svc.Stores) (hb : svc.Blocks staged) {cs : List Bytes}
    (hne : sources ≠ []) (hcount : sources.length < FileStore.U32_BOUND) (hnodup : sources.Nodup)
    (hcs : svc.contents st sources = some cs) (hdest : dest ∉ sources)
    (hfree : ∀ key ∈ sources, ∀ k, key ≠ s.tmpKey id k) (hdata : ∀ k, dest ≠ s.tmpKey id k) :
    let program := commitManyBlobs s id op dest sources
    let calls := program.trace svc.impl st
    let st' := (program.run svc.impl st).2
    (program.run svc.impl st).1 = .ok () ∧ svc.content st' dest = some cs.flatten ∧
      (∀ c ∈ calls, FewBlocks c.1) ∧ (∀ key ∈ sources, svc.content st' key = none) ∧
      (∀ key ∈ committed calls, key ≠ dest →
        (∃ k, key = s.tmpKey id k) ∧ svc.content st' key = none) ∧
      ∀ key, key ≠ dest → key ∉ sources → key ∉ committed calls →
        svc.content st' key = svc.content st key := by
  intro program calls st'
  have hprogram : program = commitRounds s id op dest 0 sources := if_neg hne
  have hnot (n : ℕ) : ¬ Touched s id sources n dest := by
    rintro (hsource | ⟨k, -, heq⟩)
    · exact hdest hsource
    · exact hdata k heq
  have hrounds : After svc.impl program st _ := hprogram ▸
    after_commitRounds hs hb hfree hnot (by omega) hne (merging_start hnodup hcs)
  obtain ⟨count, hok, hcommitted, hjoined, hgone, hkept⟩ := hrounds
  have hfew : After svc.impl program st fun _ _ l => ∀ c ∈ l, FewBlocks c.1 :=
    hprogram ▸ After.of_uses (few_commitRounds 0 sources)
  rw [Nat.zero_add] at hgone hkept
  have hmem (key : Str) : key ∈ committed calls ↔ (∃ k < count, key = s.tmpKey id k) ∨
      key = dest := by
    rw [hcommitted, List.mem_append, List.mem_singleton, tmpKeys, List.mem_map]
    simp only [List.mem_range'_1, Nat.zero_le, Nat.zero_add, true_and, eq_comm]
  refine ⟨hok, hjoined, hfew, ?_, ?_, ?_⟩
  · intro key hkey
    exact hgone key (fun heq => hdest (heq ▸ hkey)) (.inl hkey)
  · intro key hkey hne
    obtain ⟨k, hk, rfl⟩ := ((hmem key).mp hkey).resolve_right hne
    exact ⟨⟨k, rfl⟩, hgone _ hne (.inr ⟨k, hk, rfl⟩)⟩
  · intro key hne hsource hkey
    apply hkept key hne
    rintro (hmem' | htmp)
    · exact hsource hmem'
    · exact hkey ((hmem key).mpr (.inl htmp))

namespace TwoRounds

def bucket : ObjectStore := ⟨.azure, [], .json, slashed_nil⟩

def upload : UploadId := ⟨"u".toList⟩

/-- More sources than one block list of the first round takes. -/
def blobs : List Str := (List.range 33).map fun n => 'a' :: Text.decimal n

def before : Bucket.service.State := blobs.foldl (fun b key => b.put key [1]) Bucket.empty

theorem head_blobs : ∀ key ∈ blobs, key.head? = some 'a' := by decide +kernel

end TwoRounds

open TwoRounds in
theorem commit_many_blobs_joins_batched :
    let program := commitManyBlobs bucket upload "finalize".toList "u".toList TwoRounds.blobs
    let st' := (program.run Bucket.service.impl before).2
    (program.run Bucket.service.impl before).1 = .ok () ∧
      Bucket.service.content st' "u".toList = some (List.replicate 33 ([1] : Bytes)).flatten ∧
      ∀ key ∈ TwoRounds.blobs, Bucket.service.content st' key = none := by
  intro program st'
  have htmp (k : ℕ) : (bucket.tmpKey upload k).head? = some 'u' := rfl
  have hfree : ∀ key ∈ TwoRounds.blobs, ∀ k, key ≠ bucket.tmpKey upload k := by
    rintro key hkey k rfl
    have hhead := (htmp k).symm.trans (head_blobs _ hkey)
    exact absurd hhead (by decide)
  have hdata (k : ℕ) : "u".toList ≠ bucket.tmpKey upload k := by
    intro heq
    have hlength := congrArg List.length heq
    simp [tmpKey, key, UploadId.key, upload, KeyKind.suffix_tmp] at hlength
    omega
  obtain ⟨hok, hjoined, -, hgone, -⟩ := @commit_many_blobs_joins bucket Bucket.service upload
    "finalize".toList before Bucket.staged "u".toList TwoRounds.blobs Bucket.stores
    Bucket.blocks_staged (List.replicate 33 [1]) (List.cons_ne_nil _ _) (by decide)
    (by decide +kernel) (by decide +kernel) (by decide +kernel) hfree hdata
  exact ⟨hok, hjoined, hgone⟩

end Fileloft.AzureUpload
