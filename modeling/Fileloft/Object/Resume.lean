import Fileloft.Effect.Fault
import Fileloft.Object.Compose
import Fileloft.Object.Isolation

/-!
# A finalize after a failed one

A call that fails ends a finalize, and by then the parts of whole batches may
be gone into temporaries. The next finalize lists what is left.
-/

namespace Fileloft

open ObjectStore AzureUpload Prog

variable {s : ObjectStore} {svc : Service} {id : UploadId} {st st' : svc.State} {op : Str}
  {objects : Str → Option Bytes} {sources pre batch post : List Str} {dest : Str} {e : ServiceError}

/-- The service, of which one call is refused. -/
def Service.refusing (svc : Service) (e : ServiceError) : Interp ObjectSig (svc.State × Option ℕ) :=
  failingAt svc.impl fun _ => .error e

/-- A program that is over before the refused call runs as ever. -/
theorem after_performed {α : Type} {p : ObjectProg α} {Q : Except TusError α → svc.State → Prop}
    {count n : ℕ} (hp : After svc.impl p st fun r st' l => Q r st' ∧ l.length = count)
    (hle : count ≤ n) :
    After (svc.refusing e) p (st, some n) fun r after _ => Q r after.1 ∧
      after.2 = some (n - count) := by
  obtain ⟨hQ, rfl⟩ := hp
  have hrun := @run_failingAt_of_le _ _ _ _ svc.impl (fun _ => .error e) p st n hle
  change Q (p.run (svc.refusing e) (st, some n)).1 (p.run (svc.refusing e) (st, some n)).2.1 ∧ _
  rw [Service.refusing, hrun]
  exact ⟨hQ, rfl⟩

/-- So does one that starts after it. -/
theorem after_recovered {α : Type} {p : ObjectProg α} {Q : Except TusError α → svc.State → Prop}
    (hp : After svc.impl p st fun r st' _ => Q r st') :
    After (svc.refusing e) p (st, none) fun r after _ => Q r after.1 ∧ after.2 = none := by
  change Q (p.run (svc.refusing e) (st, none)).1 (p.run (svc.refusing e) (st, none)).2.1 ∧ _
  rw [Service.refusing, run_failingAt_none]
  exact ⟨hp, rfl⟩

/-- A refused call changes no object either. -/
theorem refusing_local (hl : svc.Local) {o : ObjectOp} {key : Str} {after : svc.State × Option ℕ}
    (hkey : key ∉ o.keys) :
    svc.content (svc.refusing e o after).2.1 key = svc.content after.1 key := by
  obtain ⟨st, left⟩ := after
  rcases left with - | - | n
  · exact hl o key st hkey
  · rfl
  · exact hl o key st hkey

/-- The data and the temporaries of an upload. -/
def Own (s : ObjectStore) (id : UploadId) (key : Str) : Prop :=
  key = s.dataKey id ∨ ∃ k, key = s.tmpKey id k

/-- The first `count` sources are gone. Other objects of the bucket are as they
were, up to the data and the temporaries. -/
structure Consumed (s : ObjectStore) (svc : Service) (id : UploadId) (objects : Str → Option Bytes)
    (sources : List Str) (count : ℕ) (st : svc.State) : Prop where
  gone : ∀ key ∈ sources.take count, svc.content st key = none
  kept : ∀ key, key ∉ sources.take count → ¬ Own s id key → svc.content st key = objects key

theorem length_trace_send {σ : Type} {h : Interp ObjectSig σ} {st : σ}
    {fails : ServiceError → TusError} {o : ObjectOp} : ((send fails o).trace h st).length = 1 := by
  rw [send, trace_op, List.length_cons]
  cases (h o st).1 <;> rfl

theorem length_trace_listParts {σ : Type} {h : Interp ObjectSig σ} {st : σ} :
    ((s.listParts id).trace h st).length = 1 := by
  rw [listParts, request, send, bind_eq, op_bind, trace_op, List.length_cons]
  cases (h (.list (s.partPrefix id)) st).1 <;> rfl

namespace Consumed

theorem start : Consumed s svc id (svc.content st) sources 0 st where
  gone key hkey := by
    rw [List.take_zero] at hkey
    cases hkey
  kept _ _ _ := rfl

theorem congr {count : ℕ} (hconsumed : Consumed s svc id objects sources count st)
    (hcontent : svc.content st' = svc.content st) :
    Consumed s svc id objects sources count st' where
  gone key hkey := by
    rw [hcontent]
    exact hconsumed.gone key hkey
  kept key hkey hown := by
    rw [hcontent]
    exact hconsumed.kept key hkey hown

theorem of_take {m n : ℕ} (hconsumed : Consumed s svc id objects sources m st)
    (htake : sources.take m = sources.take n) : Consumed s svc id objects sources n st where
  gone := by
    rw [← htake]
    exact hconsumed.gone
  kept := by
    rw [← htake]
    exact hconsumed.kept

/-- One batch goes into a temporary. -/
theorem commit (hsources : sources = pre ++ (batch ++ post))
    (hforeign : ∀ key ∈ sources, ¬ Own s id key)
    (hconsumed : Consumed s svc id objects sources pre.length st) {k : ℕ} {c : Bytes}
    (hcontent : svc.content st' = fun key => if key ∈ batch then none
      else Function.update (svc.content st) (s.tmpKey id k) (some c) key) :
    Consumed s svc id objects sources (pre.length + batch.length) st' := by
  have hbefore : sources.take pre.length = pre := by
    rw [hsources, List.take_left]
  have hafter : sources.take (pre.length + batch.length) = pre ++ batch := by
    rw [hsources, ← List.append_assoc, ← List.length_append, List.take_left]
  obtain ⟨hgone, hkept⟩ := hconsumed
  rw [hbefore] at hgone hkept
  constructor
  · intro key hkey
    rw [hafter] at hkey
    rw [hcontent]
    by_cases hbatch : key ∈ batch
    · exact if_pos hbatch
    · have hpre := (List.mem_append.mp hkey).resolve_right hbatch
      have hne : key ≠ s.tmpKey id k := by
        rintro rfl
        apply hforeign _ _ (.inr ⟨k, rfl⟩)
        rw [hsources]
        exact List.mem_append_left _ hpre
      exact (if_neg hbatch).trans ((Function.update_of_ne hne ..).trans (hgone key hpre))
  · intro key hkey hown
    rw [hafter, List.mem_append, not_or] at hkey
    have hne : key ≠ s.tmpKey id k := fun heq => hown (.inr ⟨k, heq⟩)
    rw [hcontent]
    exact (if_neg hkey.2).trans ((Function.update_of_ne hne ..).trans (hkept key hkey.1 hown))

/-- The next batch still has its contents. -/
theorem contents (hsources : sources = pre ++ (batch ++ post)) (hnodup : sources.Nodup)
    (hforeign : ∀ key ∈ sources, ¬ Own s id key)
    (hconsumed : Consumed s svc id objects sources pre.length st)
    {all : List Bytes} (hall : sources.mapM objects = some all) :
    ∃ cs, svc.contents st batch = some cs := by
  rw [hsources] at hall
  obtain ⟨-, bs, -, hbs, -⟩ := Text.mapM_append_eq_some.mp hall
  obtain ⟨cs, -, hcs, -, -⟩ := Text.mapM_append_eq_some.mp hbs
  refine ⟨cs, ?_⟩
  rw [← hcs]
  apply Text.mapM_congr
  intro key hkey
  apply hconsumed.kept key
  · rw [hsources, List.take_left]
    rw [hsources] at hnodup
    intro hpre
    exact (List.nodup_append.mp hnodup).2.2 key hpre key (List.mem_append_left _ hkey) rfl
  · apply hforeign
    rw [hsources]
    exact List.mem_append_right _ (List.mem_append_left _ hkey)

end Consumed

/-! ## GCS -/

namespace GcsUpload

/-- The error of a refused request. -/
def composeError (s : ObjectStore) (id : UploadId) (e : ServiceError) : TusError :=
  s.provider.error id.val "compose".toList e

theorem composeChunk_refused (hne : batch ≠ []) :
    (composeChunk s id dest batch).run (svc.refusing e) (st, some 0) =
      (.error (composeError s id e), st, none) := by
  rw [composeChunk, if_neg hne]
  rfl

theorem length_trace_composeChunk (hne : batch ≠ []) :
    ((composeChunk s id dest batch).trace svc.impl st).length = 1 := by
  rw [composeChunk, if_neg hne]
  exact length_trace_send

theorem composeChunk_performed (hc : svc.Composes) {cs : List Bytes} {n : ℕ} (hne : batch ≠ [])
    (hfew : batch.length ≤ MAX_COMPOSE_SOURCES) (hdest : dest ∉ batch)
    (hcs : svc.contents st batch = some cs) :
    ∃ st', (composeChunk s id dest batch).run (svc.refusing e) (st, some (n + 1)) =
        (.ok (), st', some n) ∧
      svc.content st' = fun key => if key ∈ batch then none
        else Function.update (svc.content st) dest (some cs.flatten) key := by
  obtain ⟨hok, -, hcontent⟩ := @after_composeChunk s svc id st dest batch hc cs hne hfew hdest hcs
  refine ⟨_, ?_, hcontent⟩
  have hlength := @length_trace_composeChunk s svc id st batch dest hne
  have hle : ((composeChunk s id dest batch).trace svc.impl st).length ≤ n + 1 := by omega
  rw [Service.refusing, run_failingAt_of_le hle, hok, hlength, Nat.add_sub_cancel]

section Failing

variable (hc : svc.Composes) (hnodup : sources.Nodup)
  (hforeign : ∀ key ∈ sources, ¬ Own s id key) {all : List Bytes}
  (hall : sources.mapM objects = some all)

include hc hnodup hforeign hall

/-- A request that fails among the batches leaves the batches before it
consumed. -/
theorem composeBatches_failing {batches : List (List Str)} (i n : ℕ)
    (hbatches : ∀ batch ∈ batches, batch ≠ [] ∧ batch.length ≤ MAX_COMPOSE_SOURCES)
    (hsources : sources = pre ++ batches.flatten)
    (hconsumed : Consumed s svc id objects sources pre.length st) :
    ∃ r st', (composeBatches s id i batches).run (svc.refusing e) (st, some n) = (r, st') ∧
      Consumed s svc id objects sources (pre.length + (batches.take n).flatten.length) st'.1 ∧
      (n < batches.length → ∃ err, r = .error err) ∧
      (batches.length ≤ n → r = .ok (tmpKeys s id i batches.length) ∧
        st'.2 = some (n - batches.length)) := by
  induction batches generalizing i n pre st with
  | nil =>
      refine ⟨_, _, rfl, ?_, fun hlt => absurd hlt (Nat.not_lt_zero n), fun _ => ⟨rfl, rfl⟩⟩
      rw [List.take_nil, List.flatten_nil, List.length_nil]
      exact hconsumed
  | cons batch batches ih =>
      obtain ⟨⟨hne, hfew⟩, hrest⟩ := List.forall_mem_cons.mp hbatches
      rw [List.flatten_cons] at hsources
      cases n with
      | zero =>
          refine ⟨_, _, run_bind_error (composeChunk_refused hne), ?_, fun _ => ⟨_, rfl⟩,
            fun hle => ?_⟩
          · rw [List.take_zero, List.flatten_nil, List.length_nil]
            exact hconsumed
          · rw [List.length_cons] at hle
            omega
      | succ n =>
          obtain ⟨cs, hcs⟩ := hconsumed.contents hsources hnodup hforeign hall
          have hdest : s.tmpKey id i ∉ batch := by
            intro hmem
            apply hforeign _ _ (.inr ⟨i, rfl⟩)
            rw [hsources]
            exact List.mem_append_right _ (List.mem_append_left _ hmem)
          obtain ⟨st₁, hrun, hcontent⟩ :=
            @composeChunk_performed s svc id st batch _ e hc cs n hne hfew hdest hcs
          have hconsumed₁ := hconsumed.commit hsources hforeign hcontent
          rw [← List.length_append] at hconsumed₁
          obtain ⟨r, st₂, hrun₂, hconsumed₂, hfails, hpasses⟩ :=
            ih (i + 1) n hrest (by rw [hsources, List.append_assoc]) hconsumed₁
          have hcount : pre.length + ((batch :: batches).take (n + 1)).flatten.length =
              (pre ++ batch).length + (batches.take n).flatten.length := by
            rw [List.take_succ_cons, List.flatten_cons, List.length_append, List.length_append,
              Nat.add_assoc]
          rw [hcount, List.length_cons, tmpKeys_succ, Nat.add_sub_add_right]
          rcases Nat.lt_or_ge n batches.length with hlt | hge
          · obtain ⟨err, rfl⟩ := hfails hlt
            refine ⟨.error err, st₂, (run_bind_ok hrun).trans (run_bind_error hrun₂), hconsumed₂,
              fun _ => ⟨err, rfl⟩, fun hle => ?_⟩
            omega
          · obtain ⟨rfl, hcount₂⟩ := hpasses hge
            refine ⟨_, st₂, (run_bind_ok hrun).trans (run_bind_ok hrun₂), hconsumed₂,
              fun hlt => ?_, fun _ => ⟨rfl, hcount₂⟩⟩
            omega

end Failing

/-- A request that the service itself refuses has no effect either. -/
theorem composeChunk_error (hc : svc.Composes) {err : TusError} (hdest : dest ∉ batch)
    (hrun : (composeChunk s id dest batch).run svc.impl st = (.error err, st')) :
    svc.content st' = svc.content st := by
  by_cases hne : batch = []
  · rw [composeChunk, if_pos hne] at hrun
    cases hrun
  · rw [composeChunk, if_neg hne, request, send, run_op] at hrun
    have hstate : (svc.impl (.compose dest batch true) st).2 = st' := by
      refine Eq.trans ?_ (congrArg Prod.snd hrun)
      cases (svc.impl (.compose dest batch true) st).1 <;> rfl
    rw [← hstate]
    rcases Nat.lt_or_ge Service.COMPOSE_LIMIT batch.length with hmany | hfew
    · obtain ⟨-, -, hcontent⟩ := @Service.Composes.compose_many svc hc dest batch true st hmany
      exact hcontent
    · cases hcs : svc.contents st batch with
      | none =>
          obtain ⟨-, -, hcontent⟩ := @Service.Composes.compose_missing svc hc dest batch true st hcs
          exact hcontent
      | some cs =>
          obtain ⟨hok, -⟩ :=
            @Service.Composes.compose_ok svc hc dest batch true cs st hne hfew hdest hcs
          rw [hok] at hrun
          cases hrun

/-- However a request fails, it has no effect. -/
theorem composeChunk_failing (hc : svc.Composes) {n : ℕ} {err : TusError}
    {after : svc.State × Option ℕ} (hdest : dest ∉ batch)
    (hrun : (composeChunk s id dest batch).run (svc.refusing e) (st, some n) =
      (.error err, after)) : svc.content after.1 = svc.content st := by
  by_cases hne : batch = []
  · rw [composeChunk, if_pos hne] at hrun
    cases hrun
  · cases n with
    | zero =>
        rw [composeChunk_refused hne] at hrun
        obtain rfl := (Prod.mk.inj hrun).2
        rfl
    | succ n =>
        have hle : ((composeChunk s id dest batch).trace svc.impl st).length ≤ n + 1 := by
          rw [length_trace_composeChunk hne]
          omega
        rw [Service.refusing, run_failingAt_of_le hle] at hrun
        obtain ⟨herror, rfl⟩ := Prod.mk.inj hrun
        exact composeChunk_error hc hdest (Prod.ext herror rfl)

/-- An assembly that fails leaves whole batches consumed, or nothing if it has
one batch only. -/
theorem composeAll_failing (hc : svc.Composes) (hnodup : sources.Nodup)
    (hforeign : ∀ key ∈ sources, ¬ Own s id key) {all : List Bytes}
    (hall : svc.contents st sources = some all) {n : ℕ} {err : TusError}
    {after : svc.State × Option ℕ}
    (hrun : (composeAll s id (s.dataKey id) sources).run (svc.refusing e) (st, some n) =
      (.error err, after)) :
    Consumed s svc id (svc.content st) sources
      (if sources.length ≤ MAX_COMPOSE_SOURCES then 0 else MAX_COMPOSE_SOURCES * n) after.1 := by
  have hdest : s.dataKey id ∉ sources := fun hmem => hforeign _ hmem (.inl rfl)
  rw [composeAll] at hrun
  split at hrun
  · next hfew =>
      rw [if_pos hfew]
      exact Consumed.start.congr (composeChunk_failing hc hdest hrun)
  · next hmany =>
      have hbatches : ∀ batch ∈ Text.chunks MAX_COMPOSE_SOURCES sources,
          batch ≠ [] ∧ batch.length ≤ MAX_COMPOSE_SOURCES := fun batch hbatch =>
        ⟨Text.ne_nil_of_mem_chunks (by decide) hbatch, Text.length_le_of_mem_chunks hbatch⟩
      have hflatten : (Text.chunks MAX_COMPOSE_SOURCES sources).flatten = sources :=
        Text.flatten_chunks (by decide) sources
      obtain ⟨r, st₁, hfirst, hconsumed, hfails, hpasses⟩ :=
        @composeBatches_failing s svc id st (svc.content st) sources [] e hc hnodup
          hforeign all hall _ 0 n hbatches (by rw [hflatten, List.nil_append]) .start
      rw [Text.flatten_take_chunks (by decide), List.length_nil, Nat.zero_add] at hconsumed
      have hwhole : Consumed s svc id (svc.content st) sources (MAX_COMPOSE_SOURCES * n) st₁.1 :=
        hconsumed.of_take (by rw [List.length_take, ← List.take_eq_take_min])
      rw [if_neg hmany]
      rcases Nat.lt_or_ge n (Text.chunks MAX_COMPOSE_SOURCES sources).length with hlt | hge
      · obtain ⟨err', rfl⟩ := hfails hlt
        rw [bind_eq, run_bind_error hfirst] at hrun
        obtain rfl := (Prod.mk.inj hrun).2
        exact hwhole
      · -- the temporaries are there, and the last request fails
        obtain ⟨rfl, hleft⟩ := hpasses hge
        obtain ⟨st₁, left⟩ := st₁
        obtain rfl := hleft
        rw [bind_eq, run_bind_ok hfirst] at hrun
        have hnot : s.dataKey id ∉
            tmpKeys s id 0 (Text.chunks MAX_COMPOSE_SOURCES sources).length := by
          intro hmem
          obtain ⟨k, -, hk⟩ := List.mem_map.mp hmem
          cases key_injective hk
        exact hwhole.congr (composeChunk_failing hc hnot hrun)

end GcsUpload

/-! ## Azure -/

namespace AzureUpload

variable {staged : svc.State → Str → Bytes → Option Bytes}

section Length

variable {σ : Type} {h : Interp ObjectSig σ} {st : σ}

/-- A source is read and staged by two calls. -/
theorem length_stageBlocks (i : ℕ) (srcs : List Str) :
    After h (stageBlocks s id op dest i srcs) st fun r _ l =>
      ∀ ids, r = .ok ids → l.length = 2 * srcs.length := by
  induction srcs generalizing i st with
  | nil => exact fun _ _ => rfl
  | cons src srcs ih =>
      apply after_send
      · intro body _
        cases s.collect id op [] body with
        | error e => exact nofun
        | ok data =>
            apply after_send
            · intro _ _
              apply After.bind (ih (i + 1))
              · intro ids st' l hl
                apply After.ret
                intro _ _
                rw [List.length_cons, List.length_cons, List.append_nil, hl ids rfl,
                  List.length_cons]
                omega
              · exact nofun
            · exact nofun
      · exact nofun

theorem length_commitBlobNamesToDest (hne : batch ≠ []) :
    After h (commitBlobNamesToDest s id op dest batch) st fun r _ l =>
      r = .ok () → l.length = 2 * batch.length + 1 := by
  rw [commitBlobNamesToDest, if_neg hne]
  apply After.bind (length_stageBlocks 0 batch)
  · intro ids st' l hl
    have hone : After h (s.request id op (.putBlockList dest ids)) st' fun _ _ l => l.length = 1 :=
      length_trace_send
    apply hone.mono
    intro r st'' l' hl' _
    rw [List.length_append, hl ids rfl, hl']
  · intro e st' l _ hok
    cases hok

end Length

/-- A call that fails in a staging ends it, and no blob has changed. -/
theorem after_stageBlocks_failing (hs : svc.Stores) (hb : svc.Blocks staged) (i n : ℕ)
    {srcs : List Str} (hn : n < 2 * srcs.length) :
    After (svc.refusing e) (stageBlocks s id op dest i srcs) (st, some n) fun r after _ =>
      (∃ err, r = .error err) ∧ svc.content after.1 = svc.content st := by
  induction srcs generalizing i n st with
  | nil => exact absurd hn (Nat.not_lt_zero n)
  | cons src srcs ih =>
      rw [List.length_cons] at hn
      cases n with
      | zero =>
          apply after_send
          · nofun
          · intro err _
            exact ⟨⟨_, rfl⟩, rfl⟩
      | succ n =>
          have hstate : (svc.refusing e (.get src) (st, some (n + 1))).2 = (st, some n) :=
            Prod.ext (hs.get_keeps src st) rfl
          apply after_send
          · intro body _
            rw [hstate]
            cases s.collect id op [] body with
            | error err => exact ⟨⟨err, rfl⟩, rfl⟩
            | ok data =>
                cases n with
                | zero =>
                    apply after_send
                    · nofun
                    · intro err _
                      exact ⟨⟨_, rfl⟩, rfl⟩
                | succ n =>
                    have hcontent := hb.block_content dest (blockIdForIndex i) data st
                    apply after_send
                    · intro _ _
                      apply After.bind (ih (i + 1) n (by omega))
                      · rintro ids after l ⟨⟨err, herror⟩, -⟩
                        cases herror
                      · rintro err after l ⟨-, hsame⟩
                        exact ⟨⟨err, rfl⟩, hsame.trans hcontent⟩
                    · intro err _
                      exact ⟨⟨_, rfl⟩, hcontent⟩
          · intro err _
            rw [hstate]
            exact ⟨⟨_, rfl⟩, rfl⟩

section Commit

variable (hs : svc.Stores) (hb : svc.Blocks staged) (hne : batch ≠ [])
  (hfew : batch.length ≤ MAX_COMMIT_SOURCES) {cs : List Bytes}
  (hcs : svc.contents st batch = some cs)

include hs hb hne hfew hcs

theorem after_commitBlobNamesToDest_failing {n : ℕ} (hn : n < 2 * batch.length + 1) :
    After (svc.refusing e) (commitBlobNamesToDest s id op dest batch) (st, some n) fun r after _ =>
      (∃ err, r = .error err) ∧ svc.content after.1 = svc.content st := by
  rw [commitBlobNamesToDest, if_neg hne]
  rcases Nat.lt_or_ge n (2 * batch.length) with hlt | hge
  · apply After.bind (after_stageBlocks_failing hs hb 0 n hlt)
    · rintro ids after l ⟨⟨err, herror⟩, -⟩
      cases herror
    · exact fun err after l hafter => ⟨⟨err, rfl⟩, hafter.2⟩
  · have hsmall : 0 + batch.length ≤ 256 := by
      rw [MAX_COMMIT_SOURCES] at hfew
      omega
    have hstage : After svc.impl (stageBlocks s id op dest 0 batch) st fun r st' l =>
        ((∃ ids, r = .ok ids) ∧ svc.content st' = svc.content st) ∧
          l.length = 2 * batch.length := by
      apply ((after_stageBlocks hs hb hsmall hcs).and (length_stageBlocks 0 batch)).mono
      rintro r st' l ⟨⟨rfl, hcontent, -⟩, hlength⟩
      exact ⟨⟨⟨_, rfl⟩, hcontent⟩, hlength _ rfl⟩
    apply After.bind (after_performed hstage hge)
    · rintro ids ⟨st', left⟩ l ⟨⟨-, hcontent⟩, hleft⟩
      obtain rfl : left = some 0 := hleft.trans (congrArg some (by omega))
      exact ⟨⟨_, rfl⟩, hcontent⟩
    · rintro err after l ⟨⟨⟨ids, hids⟩, -⟩, -⟩
      cases hids

theorem after_commitBlobNamesToDest_performed {n : ℕ} (hn : 2 * batch.length + 1 ≤ n) :
    After (svc.refusing e) (commitBlobNamesToDest s id op dest batch) (st, some n) fun r after _ =>
      (r = .ok () ∧
        svc.content after.1 = Function.update (svc.content st) dest (some cs.flatten)) ∧
      after.2 = some (n - (2 * batch.length + 1)) := by
  have hcommit : After svc.impl (commitBlobNamesToDest s id op dest batch) st fun r st' l =>
      (r = .ok () ∧ svc.content st' = Function.update (svc.content st) dest (some cs.flatten)) ∧
        l.length = 2 * batch.length + 1 := by
    apply ((after_commitBlobNamesToDest hs hb hne hfew hcs).and
      (length_commitBlobNamesToDest hne)).mono
    rintro r st' l ⟨⟨hr, -, hcontent⟩, hlength⟩
    exact ⟨⟨hr, hcontent⟩, hlength hr⟩
  exact after_performed hcommit hn

end Commit

/-- A removal that fails is passed over. -/
theorem after_deleteAll_failing (hs : svc.Stores) (keys : List Str) (n : ℕ) :
    After (svc.refusing e) (deleteAll keys) (st, some n) fun r after _ =>
      ∃ removed ⊆ keys, r = .ok () ∧
        (svc.content after.1 = fun k => if k ∈ removed then none else svc.content st k) ∧
        (n < keys.length → after.2 = none) ∧
        (keys.length ≤ n → removed = keys ∧ after.2 = some (n - keys.length)) := by
  induction keys generalizing n st with
  | nil =>
      refine ⟨[], List.Subset.refl _, rfl, ?_, fun hlt => absurd hlt (Nat.not_lt_zero n),
        fun _ => ⟨rfl, rfl⟩⟩
      funext k
      rw [if_neg List.not_mem_nil]
      rfl
  | cons key keys ih =>
      apply After.op
      cases n with
      | zero =>
          obtain ⟨st', hrun, hcontent⟩ := @run_deleteAll svc st hs keys
          have hrest : (deleteAll keys).run (svc.refusing e) (st, none) = (.ok (), st', none) := by
            rw [Service.refusing, run_failingAt_none, hrun]
          change ∃ removed ⊆ key :: keys, ((deleteAll keys).run (svc.refusing e) (st, none)).1 = _ ∧
            _
          refine ⟨keys, List.subset_cons_self .., congrArg Prod.fst hrest, ?_, fun _ => ?_,
            fun hle => ?_⟩
          · rw [← hcontent]
            exact congrArg (fun r : _ × _ × Option ℕ => svc.content r.2.1) hrest
          · exact congrArg (fun r : _ × _ × Option ℕ => r.2.2) hrest
          · rw [List.length_cons] at hle
            omega
      | succ n =>
          apply (@ih (svc.impl (.delete key) st).2 n).mono
          rintro r after l ⟨removed, hsub, hr, hcontent, hlt, hle⟩
          refine ⟨key :: removed, List.cons_subset_cons _ hsub, hr, ?_, fun hfew => ?_,
            fun hmany => ?_⟩
          · rw [hcontent, hs.delete_content]
            funext k
            by_cases hk : k = key
            · subst hk
              simp
            · simp [hk]
          · rw [List.length_cons] at hfew
            exact hlt (by omega)
          · rw [List.length_cons] at hmany ⊢
            obtain ⟨rfl, hleft⟩ := hle (by omega)
            exact ⟨rfl, hleft.trans (congrArg some (by omega))⟩

/-- What a commit ends in under one refused call: it fails and nothing has
changed, or it succeeds, and a source stays if its removal was refused. -/
theorem after_commitAndDeleteSources_failing (hs : svc.Stores) (hb : svc.Blocks staged)
    (hne : batch ≠ []) (hfew : batch.length ≤ MAX_COMMIT_SOURCES) {cs : List Bytes}
    (hcs : svc.contents st batch = some cs) (n : ℕ) :
    After (svc.refusing e) (commitAndDeleteSources s id op dest batch) (st, some n) fun r after _ =>
      ((∃ err, r = .error err) ∧ svc.content after.1 = svc.content st ∧ n < 3 * batch.length + 1) ∨
      ∃ removed ⊆ batch, r = .ok () ∧
        (svc.content after.1 = fun key => if key ∈ removed then none
          else Function.update (svc.content st) dest (some cs.flatten) key) ∧
        ((after.2 = none ∧ n < 3 * batch.length + 1) ∨
          (removed = batch ∧ 3 * batch.length + 1 ≤ n ∧
            after.2 = some (n - (3 * batch.length + 1)))) := by
  rcases Nat.lt_or_ge n (2 * batch.length + 1) with hlt | hge
  · apply After.bind (after_commitBlobNamesToDest_failing hs hb hne hfew hcs hlt)
    · rintro _ after l ⟨⟨err, herror⟩, -⟩
      cases herror
    · rintro err after l ⟨-, hcontent⟩
      exact .inl ⟨⟨err, rfl⟩, hcontent, by omega⟩
  · apply After.bind (after_commitBlobNamesToDest_performed hs hb hne hfew hcs hge)
    · rintro _ ⟨st₁, left⟩ l ⟨⟨-, hcontent⟩, hleft⟩
      obtain rfl := hleft
      apply (after_deleteAll_failing hs batch _).mono
      rintro r after l' ⟨removed, hsub, hr, hremoved, hfewer, hmore⟩
      refine .inr ⟨removed, hsub, hr, ?_, ?_⟩
      · rw [hremoved]
        exact funext fun key => congrArg _ (congrFun hcontent key)
      · rcases Nat.lt_or_ge (n - (2 * batch.length + 1)) batch.length with hlt | hge'
        · exact .inl ⟨hfewer hlt, by omega⟩
        · obtain ⟨hall, hcount⟩ := hmore hge'
          exact .inr ⟨hall, by omega, hcount.trans (congrArg some (by omega))⟩
    · rintro err after l ⟨⟨herror, -⟩, -⟩
      cases herror

/-- Present blobs are to be merged, whatever was there before. -/
theorem merging_present {counter : ℕ} {srcs : List Str} {cs : List Bytes} {rest : List Str}
    (hcs : svc.contents st srcs = some cs) (hnodup : srcs.Nodup)
    (hsrcs : ∀ key, key ∈ srcs ↔ Touched s id rest counter key) :
    Merging s svc id (svc.content st) rest cs.flatten counter srcs st where
  joined := ⟨cs, hcs, rfl⟩
  nodup := hnodup
  touched key hkey := (hsrcs key).mp hkey
  gone key htouched hnot := absurd ((hsrcs key).mpr htouched) hnot
  kept _ _ := rfl

/-- The calls that commit some batches and remove their sources. -/
def cost (batches : List (List Str)) : ℕ := 3 * batches.flatten.length + batches.length

theorem cost_cons (batches : List (List Str)) :
    cost (batch :: batches) = 3 * batch.length + 1 + cost batches := by
  rw [cost, cost, List.flatten_cons, List.length_append, List.length_cons]
  omega

theorem mem_tmpKeys {key : Str} {count : ℕ} :
    key ∈ tmpKeys s id 0 count ↔ ∃ k < count, key = s.tmpKey id k := by
  rw [tmpKeys, List.mem_map]
  simp only [List.mem_range'_1, Nat.zero_le, Nat.zero_add, true_and, eq_comm]

theorem nodup_tmpKeys (first count : ℕ) : (tmpKeys s id first count).Nodup :=
  (List.nodup_range' ..).map fun _ _ => tmpKey_injective

/-- The state between two batches of the first round. -/
structure Between (s : ObjectStore) (svc : Service) (id : UploadId) (objects : Str → Option Bytes)
    (sources pre : List Str) (counter : ℕ) (batches : List (List Str)) (st : svc.State) : Prop where
  split : sources = pre ++ batches.flatten
  consumed : Consumed s svc id objects sources pre.length st
  temporaries : ∀ k < counter, svc.content st (s.tmpKey id k) ≠ none
  cut : ∀ batch ∈ batches, batch ≠ [] ∧ batch.length ≤ MAX_COMMIT_SOURCES
  full : ∀ batch ∈ batches.dropLast, batch.length = MAX_COMMIT_SOURCES
  small : counter + batches.length < FileStore.U32_BOUND

section Failing

variable (hs : svc.Stores) (hb : svc.Blocks staged) (hnodup : sources.Nodup)
  (hforeign : ∀ key ∈ sources, ¬ Own s id key) {all : List Bytes}
  (hall : sources.mapM objects = some all) {counter : ℕ} {batches : List (List Str)}

include hnodup hforeign hall in
/-- With a batch in a temporary, whatever was removed of it, the rest can still
be merged. -/
theorem Between.present
    (hbetween : Between s svc id objects sources pre counter (batch :: batches) st)
    {removed : List Str} (hremoved : removed ⊆ batch) {c : Bytes}
    (hcontent : svc.content st' = fun key => if key ∈ removed then none
      else Function.update (svc.content st) (s.tmpKey id counter) (some c) key) :
    ∃ cs, Merging s svc id (svc.content st') batches.flatten cs (counter + 1)
      (tmpKeys s id 0 (counter + 1) ++ batches.flatten) st' := by
  obtain ⟨hsplit, hconsumed, htemporaries, -, -, -⟩ := hbetween
  rw [List.flatten_cons] at hsplit
  have hbatch {key : Str} (hkey : key ∈ batch) : key ∈ sources := by
    rw [hsplit]
    exact List.mem_append_right _ (List.mem_append_left _ hkey)
  have hrest {key : Str} (hkey : key ∈ batches.flatten) : key ∈ sources := by
    rw [hsplit]
    exact List.mem_append_right _ (List.mem_append_right _ hkey)
  have htmp (k : ℕ) : s.tmpKey id k ∉ removed := fun hmem =>
    hforeign _ (hbatch (hremoved hmem)) (.inr ⟨k, rfl⟩)
  rw [hsplit, List.nodup_append, List.nodup_append] at hnodup
  obtain ⟨-, ⟨-, hnodupRest, hapart⟩, hfront⟩ := hnodup
  have hpresent : ∀ key ∈ tmpKeys s id 0 (counter + 1) ++ batches.flatten,
      svc.content st' key ≠ none := by
    intro key hkey
    rw [hcontent]
    rcases List.mem_append.mp hkey with hkey | hkey
    · obtain ⟨k, hk, rfl⟩ := mem_tmpKeys.mp hkey
      refine ne_of_eq_of_ne (if_neg (htmp k)) ?_
      by_cases heq : k = counter
      · rw [heq, Function.update_self]
        exact Option.some_ne_none c
      · have hne : s.tmpKey id k ≠ s.tmpKey id counter := fun h => heq (tmpKey_injective h)
        rw [Function.update_of_ne hne]
        exact htemporaries k (by omega)
    · have hnot : key ∉ removed := fun hmem => hapart key (hremoved hmem) key hkey rfl
      have hown := hforeign key (hrest hkey)
      have hne : key ≠ s.tmpKey id counter := fun heq => hown (.inr ⟨counter, heq⟩)
      have hpre : key ∉ sources.take pre.length := by
        rw [hsplit, List.take_left]
        exact fun hmem => hfront key hmem key (List.mem_append_right _ hkey) rfl
      refine ne_of_eq_of_ne (if_neg hnot) ?_
      rw [Function.update_of_ne hne, hconsumed.kept key hpre hown]
      exact Text.ne_none_of_mapM hall key (hrest hkey)
  obtain ⟨cs, hcs⟩ := Text.exists_mapM_eq_some hpresent
  refine ⟨cs.flatten, merging_present hcs ?_ fun key => ?_⟩
  · rw [List.nodup_append]
    refine ⟨nodup_tmpKeys .., hnodupRest, fun a ha b hb heq => ?_⟩
    obtain ⟨k, -, rfl⟩ := mem_tmpKeys.mp ha
    exact hforeign b (hrest hb) (.inr ⟨k, heq.symm⟩)
  · rw [List.mem_append, mem_tmpKeys, Touched, or_comm]

include hforeign in
/-- The batch is in its temporary and gone. -/
theorem Between.next (hbetween : Between s svc id objects sources pre counter (batch :: batches) st)
    {c : Bytes}
    (hcontent : svc.content st' = fun key => if key ∈ batch then none
      else Function.update (svc.content st) (s.tmpKey id counter) (some c) key) :
    Between s svc id objects sources (pre ++ batch) (counter + 1) batches st' := by
  obtain ⟨hsplit, hconsumed, htemporaries, hcut, hfull, hsmall⟩ := hbetween
  rw [List.flatten_cons] at hsplit
  rw [List.length_cons] at hsmall
  have htmp (k : ℕ) : s.tmpKey id k ∉ batch := by
    intro hmem
    apply hforeign (s.tmpKey id k) _ (.inr ⟨k, rfl⟩)
    rw [hsplit]
    exact List.mem_append_right _ (List.mem_append_left _ hmem)
  constructor
  · rw [hsplit, List.append_assoc]
  · rw [List.length_append]
    exact hconsumed.commit hsplit hforeign hcontent
  · intro k hk
    rw [hcontent]
    refine ne_of_eq_of_ne (if_neg (htmp k)) ?_
    by_cases heq : k = counter
    · rw [heq, Function.update_self]
      exact Option.some_ne_none c
    · have hne : s.tmpKey id k ≠ s.tmpKey id counter := fun h => heq (tmpKey_injective h)
      rw [Function.update_of_ne hne]
      exact htemporaries k (by omega)
  · exact (List.forall_mem_cons.mp hcut).2
  · intro batch' hbatch'
    apply hfull
    rw [List.dropLast_cons_of_ne_nil (List.ne_nil_of_mem (List.mem_of_mem_dropLast hbatch'))]
    exact List.mem_cons_of_mem _ hbatch'
  · omega

/-- What a round ends in under one refused call. A round that fails has
consumed the batches before. A round in which a removal was refused can be
followed by the next one. -/
def RoundEnds (s : ObjectStore) (svc : Service) (id : UploadId) (objects : Str → Option Bytes)
    (sources pre : List Str) (counter : ℕ) (batches : List (List Str)) (n : ℕ)
    (r : Except TusError Unit) (after : svc.State × Option ℕ) : Prop :=
  ((∃ err, r = .error err) ∧ n < cost batches ∧ Consumed s svc id objects sources
    (pre.length + (batches.take (n / 97)).flatten.length) after.1) ∨
  (r = .ok () ∧ after.2 = none ∧ ∃ objects' rest cs, Merging s svc id objects' rest cs
    (counter + batches.length) (tmpKeys s id 0 (counter + batches.length)) after.1 ∧
    rest ⊆ sources) ∨
  r = .ok () ∧ cost batches ≤ n ∧ Consumed s svc id objects sources sources.length after.1

theorem RoundEnds.cons {n : ℕ} {r : Except TusError Unit} {after : svc.State × Option ℕ}
    (hfull : batches ≠ [] → batch.length = MAX_COMMIT_SOURCES) (hle : 3 * batch.length + 1 ≤ n)
    (hends : RoundEnds s svc id objects sources (pre ++ batch) (counter + 1) batches
      (n - (3 * batch.length + 1)) r after) :
    RoundEnds s svc id objects sources pre counter (batch :: batches) n r after := by
  have hcounter : counter + (batch :: batches).length = counter + 1 + batches.length := by
    rw [List.length_cons]
    omega
  rw [RoundEnds, cost_cons, hcounter]
  rcases hends with ⟨herror, hlt, hconsumed⟩ | hremoved | ⟨hr, hmany, hconsumed⟩
  · have hne : batches ≠ [] := by
      rintro rfl
      exact Nat.not_lt_zero _ hlt
    have hlength := hfull hne
    rw [MAX_COMMIT_SOURCES] at hlength
    have hbefore : n / 97 = (n - (3 * batch.length + 1)) / 97 + 1 := by omega
    refine .inl ⟨herror, by omega, ?_⟩
    rw [hbefore, List.take_succ_cons, List.flatten_cons, List.length_append, ← Nat.add_assoc,
      ← List.length_append]
    exact hconsumed
  · exact .inr (.inl hremoved)
  · exact .inr (.inr ⟨hr, by omega, hconsumed⟩)

include hs hb hnodup hforeign hall

theorem after_commitBatches_failing (n : ℕ)
    (hbetween : Between s svc id objects sources pre counter batches st) :
    After (svc.refusing e) (commitBatches s id op counter batches) (st, some n) fun r after _ =>
      RoundEnds s svc id objects sources pre counter batches n r after := by
  induction batches generalizing counter n pre st with
  | nil =>
      refine .inr (.inr ⟨rfl, Nat.zero_le _, ?_⟩)
      have hsplit := hbetween.split
      rw [List.flatten_nil, List.append_nil] at hsplit
      rw [hsplit]
      have hconsumed := hbetween.consumed
      rw [hsplit] at hconsumed
      exact hconsumed
  | cons batch batches ih =>
      obtain ⟨⟨hne, hfew⟩, hcut⟩ := List.forall_mem_cons.mp hbetween.cut
      have hsmall := hbetween.small
      rw [List.length_cons] at hsmall
      have hsplit := hbetween.split
      rw [List.flatten_cons] at hsplit
      obtain ⟨cs, hcs⟩ := hbetween.consumed.contents hsplit hnodup hforeign hall
      have hnext : saturatingAdd counter 1 = counter + 1 := Nat.min_eq_left (by omega)
      apply After.bind (after_commitAndDeleteSources_failing hs hb hne hfew hcs n)
      · rintro _ ⟨st₁, left⟩ l hends
        rw [hnext]
        rcases hends with ⟨⟨err, herror⟩, -⟩ | ⟨removed, hsub, -, hcontent, hends⟩
        · cases herror
        · rcases hends with ⟨rfl, -⟩ | ⟨rfl, hle, rfl⟩
          · -- the rest of the round is not disturbed any more
            obtain ⟨data, hmerging⟩ := hbetween.present hnodup hforeign hall hsub hcontent
            have hrest : batches.flatten ⊆ sources := by
              intro key hkey
              rw [hsplit]
              exact List.mem_append_right _ (List.mem_append_right _ hkey)
            have hfree : ∀ key ∈ batches.flatten, ∀ k, key ≠ s.tmpKey id k := fun key hkey k heq =>
              hforeign key (hrest hkey) (.inr ⟨k, heq⟩)
            have hlength : counter + 1 + batches.length < FileStore.U32_BOUND := by omega
            have hround : After svc.impl (commitBatches s id op (counter + 1) batches) st₁
                fun r st' _ => r = .ok () ∧ Merging s svc id (svc.content st₁) batches.flatten data
                  (counter + 1 + batches.length)
                  (tmpKeys s id 0 (counter + 1) ++ tmpKeys s id (counter + 1) batches.length)
                    st' := by
              apply (after_commitBatches hs hb hfree hcut hlength hmerging).mono
              rintro r st' l' ⟨hr, -, hmerging'⟩
              exact ⟨hr, hmerging'⟩
            apply (after_recovered hround).mono
            rintro r after l' ⟨⟨hr, hmerging'⟩, hleft⟩
            have hkeys := @tmpKeys_append s id 0 (counter + 1) batches.length
            rw [Nat.zero_add] at hkeys
            rw [hkeys] at hmerging'
            have hcounter : counter + 1 + batches.length = counter + (batch :: batches).length := by
              rw [List.length_cons]
              omega
            rw [hcounter] at hmerging'
            exact .inr (.inl ⟨hr, hleft, _, _, _, hmerging', hrest⟩)
          · apply (ih (n - (3 * removed.length + 1)) (hbetween.next hforeign hcontent)).mono
            intro r after l' hround
            apply hround.cons _ hle
            intro hne'
            apply hbetween.full
            rw [List.dropLast_cons_of_ne_nil hne']
            exact List.mem_cons_self
      · rintro err ⟨st₁, left⟩ l hends
        rcases hends with ⟨-, hcontent, hlt⟩ | ⟨-, -, hok, -⟩
        · rw [MAX_COMMIT_SOURCES] at hfew
          have hfirst : n / 97 = 0 := Nat.div_eq_of_lt (by omega)
          refine .inl ⟨⟨err, rfl⟩, ?_, ?_⟩
          · rw [cost_cons]
            omega
          · rw [hfirst, List.take_zero, List.flatten_nil, List.length_nil, Nat.add_zero]
            exact hbetween.consumed.congr hcontent
        · cases hok

end Failing

/-- The temporaries are merged without the sources. -/
theorem consumed_laterRounds (hl : svc.Local) {count : ℕ} {left : Option ℕ} {counter : ℕ}
    (hforeign : ∀ key ∈ sources, ¬ Own s id key)
    (hconsumed : Consumed s svc id objects sources sources.length st) :
    Consumed s svc id objects sources sources.length ((commitRounds s id op (s.dataKey id) counter
      (tmpKeys s id 0 count)).run (svc.refusing e) (st, left)).2.1 := by
  have htmp (k : ℕ) : Own s id (s.tmpKey id k) := .inr ⟨k, rfl⟩
  have huses : (commitRounds s id op (s.dataKey id) counter (tmpKeys s id 0 count)).Uses
      (Confined (Own s id) []) fun _ _ => True := by
    apply confined_commitRounds htmp (.inl rfl)
    intro key hkey
    obtain ⟨k, -, rfl⟩ := mem_tmpKeys.mp hkey
    exact htmp k
  have hkept : ∀ key, ¬ Own s id key → svc.content ((commitRounds s id op (s.dataKey id) counter
      (tmpKeys s id 0 count)).run (svc.refusing e) (st, left)).2.1 key = svc.content st key := by
    intro key hkey
    apply huses.run_preserves (h := svc.refusing e)
      (I := fun after : svc.State × Option ℕ => svc.content after.1 key = svc.content st key)
      (fun _ _ _ => trivial) _ rfl
    intro o after ho hsame
    rw [refusing_local hl fun hmem => hkey (ho.keys key hmem)]
    exact hsame
  constructor
  · intro key hkey
    rw [List.take_length] at hkey
    rw [hkept key (hforeign key hkey)]
    apply hconsumed.gone
    rw [List.take_length]
    exact hkey
  · intro key hkey hown
    rw [hkept key hown]
    exact hconsumed.kept key hkey hown

section Rounds

variable (hs : svc.Stores) (hb : svc.Blocks staged) (hl : svc.Local) (hnodup : sources.Nodup)
  (hforeign : ∀ key ∈ sources, ¬ Own s id key) {all : List Bytes}
  (hall : svc.contents st sources = some all) (hne : sources ≠ [])
  (hmany : sources.length ≤ FileStore.U32_BOUND) {n : ℕ} {err : TusError}
  {after : svc.State × Option ℕ}

include hs hb hl hnodup hforeign hall hne hmany

/-- A commit of many blobs that fails has consumed whole batches, all blobs if
it fails after the first round, or nothing if one commit is enough. -/
theorem commitRounds_failing
    (hrun : (commitRounds s id op (s.dataKey id) 0 sources).run (svc.refusing e) (st, some n) =
      (.error err, after)) :
    Consumed s svc id (svc.content st) sources
      (if sources.length ≤ MAX_COMMIT_SOURCES then 0
        else if n < cost (Text.chunks MAX_COMMIT_SOURCES sources) then MAX_COMMIT_SOURCES * (n / 97)
        else sources.length) after.1 := by
  rw [commitRounds] at hrun
  split at hrun
  · next hlt =>
      have hcount := Text.length_chunks MAX_COMMIT_SOURCES sources
      rw [MAX_COMMIT_SOURCES] at hlt
      have hless : 2 * (Text.chunks MAX_COMMIT_SOURCES sources).length ≤ sources.length := by
        rw [hcount, MAX_COMMIT_SOURCES]
        omega
      have hflatten : (Text.chunks MAX_COMMIT_SOURCES sources).flatten = sources :=
        Text.flatten_chunks (by decide) sources
      have hbetween : Between s svc id (svc.content st) sources [] 0
          (Text.chunks MAX_COMMIT_SOURCES sources) st := by
        refine ⟨?_, .start, fun k hk => absurd hk (Nat.not_lt_zero k), fun batch hbatch => ?_,
          fun batch => Text.length_of_mem_dropLast_chunks (by decide), by omega⟩
        · rw [hflatten, List.nil_append]
        · exact ⟨Text.ne_nil_of_mem_chunks (by decide) hbatch, Text.length_le_of_mem_chunks hbatch⟩
      have hround : After (svc.refusing e) (commitBatches s id op 0
          (Text.chunks MAX_COMMIT_SOURCES sources)) (st, some n) fun r after _ =>
            RoundEnds s svc id (svc.content st) sources [] 0
              (Text.chunks MAX_COMMIT_SOURCES sources) n r after :=
        after_commitBatches_failing hs hb hnodup hforeign hall n hbetween
      rw [if_neg (by rw [MAX_COMMIT_SOURCES]; omega)]
      rcases hfirst : (commitBatches s id op 0 (Text.chunks MAX_COMMIT_SOURCES sources)).run
        (svc.refusing e) (st, some n) with ⟨err' | _, st₁, left⟩
      · rw [bind_eq, run_bind_error hfirst] at hrun
        obtain rfl := (Prod.mk.inj hrun).2
        rw [After, hfirst] at hround
        rcases hround with ⟨-, hfew, hconsumed⟩ | ⟨hok, -⟩ | ⟨hok, -⟩
        · rw [if_pos hfew]
          rw [Text.flatten_take_chunks (by decide), List.length_nil, Nat.zero_add] at hconsumed
          exact hconsumed.of_take (by rw [List.length_take, ← List.take_eq_take_min])
        · cases hok
        · cases hok
      · rw [bind_eq, run_bind_ok hfirst, temporaries_eq (by omega), Nat.zero_add] at hrun
        rw [After, hfirst] at hround
        rcases hround with ⟨⟨_, herror⟩, -⟩ | ⟨-, hleft, objects', rest, cs, hmerging, hrest⟩ |
          ⟨-, hcost, hconsumed⟩
        · cases herror
        · -- the next rounds cannot fail
          obtain rfl : left = none := hleft
          have hfree : ∀ key ∈ rest, ∀ k, key ≠ s.tmpKey id k := fun key hkey k heq =>
            hforeign key (hrest hkey) (.inr ⟨k, heq⟩)
          have hdest (m : ℕ) : ¬ Touched s id rest m (s.dataKey id) := by
            rintro (hmem | ⟨k, -, heq⟩)
            · exact hforeign _ (hrest hmem) (.inl rfl)
            · cases key_injective heq
          have hlength : (tmpKeys s id 0 (Text.chunks MAX_COMMIT_SOURCES sources).length).length =
              (Text.chunks MAX_COMMIT_SOURCES sources).length := by
            rw [tmpKeys, List.length_map, List.length_range']
          have hpos : 0 < (Text.chunks MAX_COMMIT_SOURCES sources).length := by
            rw [hcount, MAX_COMMIT_SOURCES]
            omega
          have hnext : tmpKeys s id 0 (Text.chunks MAX_COMMIT_SOURCES sources).length ≠ [] := by
            rw [← List.length_pos_iff, hlength]
            exact hpos
          rw [Nat.zero_add] at hmerging
          obtain ⟨-, hok, -⟩ :=
            @after_commitRounds s svc id op st₁ staged (s.dataKey id) cs objects'
            rest _ _ hs hb hfree hdest (by rw [hlength]; omega) hnext hmerging
          rw [Service.refusing, run_failingAt_none] at hrun
          cases hok.symm.trans (Prod.mk.inj hrun).1
        · rw [if_neg (Nat.not_lt.mpr hcost)]
          have hlater := @consumed_laterRounds s svc id st₁ op (svc.content st) sources e hl
            (Text.chunks MAX_COMMIT_SOURCES sources).length left
            (Text.chunks MAX_COMMIT_SOURCES sources).length hforeign hconsumed
          rw [hrun] at hlater
          exact hlater
  · next hfew =>
      rw [if_pos (Nat.le_of_not_lt hfew)]
      have hends := @after_commitAndDeleteSources_failing s svc id st op sources (s.dataKey id) e
        staged hs hb hne (Nat.le_of_not_lt hfew) all hall n
      rw [After, hrun] at hends
      rcases hends with ⟨-, hcontent, -⟩ | ⟨-, -, hok, -⟩
      · exact Consumed.start.congr hcontent
      · cases hok

end Rounds

end AzureUpload

/-! ## Calling finalize again -/

/-- How many of the first of `n` parts are gone after a finalize whose call
with number `k` was refused. The call with number 0 is the listing. -/
def Provider.lost : Provider → ℕ → ℕ → ℕ
  | .s3, _, _ => 0
  | .gcs, n, k =>
    if n ≤ GcsUpload.MAX_COMPOSE_SOURCES then 0 else GcsUpload.MAX_COMPOSE_SOURCES * (k - 1)
  | .azure, n, k =>
    if n ≤ AzureUpload.MAX_COMMIT_SOURCES then 0
    -- a batch is committed by 97 calls: two to stage each blob, one for the list, one to
    -- delete each
    else if k - 1 < 3 * n + (n + 31) / 32 then AzureUpload.MAX_COMMIT_SOURCES * ((k - 1) / 97)
    else n

namespace ObjectStore

/-- The parts of an upload are the ones with these numbers. -/
structure HasParts (s : ObjectStore) (svc : Service) (id : UploadId) (st : svc.State)
    (numbers : List ℕ) (cs : List Bytes) : Prop where
  sorted : numbers.Pairwise (· < ·)
  bound : ∀ n ∈ numbers, n < FileStore.U32_BOUND
  present : svc.contents st (numbers.map (s.partKey id)) = some cs
  listed : ∀ key, s.partPrefix id <+: key → svc.content st key ≠ none →
    ∃ n ∈ numbers, key = s.partKey id n

theorem Holds.hasParts {slot : Slot} (hh : s.Holds svc id st slot) :
    s.HasParts svc id st (List.range slot.parts.length) slot.parts where
  sorted := List.pairwise_lt_range
  bound n hn := (List.mem_range.mp hn).trans_le hh.few
  present := hh.contents
  listed key hprefix hkey := by
    obtain ⟨n, rfl⟩ := hh.listed key hprefix hkey
    rw [hh.part, Ne, List.getElem?_eq_none_iff, Nat.not_le] at hkey
    exact ⟨n, List.mem_range.mpr hkey, rfl⟩

namespace HasParts

variable {numbers : List ℕ} {cs : List Bytes} (hparts : s.HasParts svc id st numbers cs)

include hparts

theorem length_eq : cs.length = numbers.length := by
  have hpresent := Text.mapM_eq_some_iff.mp hparts.present
  rw [← hpresent.length_eq, List.length_map]

theorem few : (numbers.map (s.partKey id)).length ≤ FileStore.U32_BOUND := by
  rw [List.length_map]
  have hnodup : numbers.Nodup := hparts.sorted.imp fun hlt => Nat.ne_of_lt hlt
  have hsub : numbers ⊆ List.range FileStore.U32_BOUND := fun n hn =>
    List.mem_range.mpr (hparts.bound n hn)
  have hle := (List.subperm_of_subset hnodup hsub).length_le
  rw [List.length_range] at hle
  exact hle

theorem nodup : (numbers.map (s.partKey id)).Nodup := by
  have hnumbers : numbers.Nodup := hparts.sorted.imp fun hlt => Nat.ne_of_lt hlt
  exact hnumbers.map fun _ _ heq => KeyKind.part.inj (key_injective heq)

omit hparts in
theorem foreign : ∀ key ∈ numbers.map (s.partKey id), ¬ Own s id key := by
  rintro key hkey (heq | ⟨k, heq⟩)
  · obtain ⟨n, -, rfl⟩ := List.mem_map.mp hkey
    cases key_injective heq
  · obtain ⟨n, -, rfl⟩ := List.mem_map.mp hkey
    cases key_injective heq

theorem run_listParts (hs : svc.Stores) :
    (s.listParts id).run svc.impl st = (.ok (numbers.map (s.partKey id)), st) := by
  apply run_listParts_of_numbers hs hparts.sorted hparts.bound
  · intro key hprefix hkey
    obtain ⟨n, -, rfl⟩ := hparts.listed key hprefix hkey
    exact ⟨n, rfl⟩
  · intro n
    constructor
    · intro hn
      obtain ⟨m, hm, heq⟩ := hparts.listed _ ((partPrefix_key _).mpr ⟨n, rfl⟩) hn
      rw [KeyKind.part.inj (key_injective heq)]
      exact hm
    · intro hn
      exact Text.ne_none_of_mapM hparts.present _ (List.mem_map_of_mem hn)

theorem run_listParts_performed (hs : svc.Stores) (n : ℕ) :
    (s.listParts id).run (svc.refusing e) (st, some (n + 1)) =
      (.ok (numbers.map (s.partKey id)), st, some n) := by
  have hlength := @length_trace_listParts s id _ svc.impl st
  have hle : ((s.listParts id).trace svc.impl st).length ≤ n + 1 := by omega
  rw [Service.refusing, run_failingAt_of_le hle, hparts.run_listParts hs, hlength,
    Nat.add_sub_cancel]

/-- What is left of the parts when the first ones are gone. -/
theorem rest {count : ℕ} (hconsumed : Consumed s svc id (svc.content st)
    (numbers.map (s.partKey id)) count st') :
    s.HasParts svc id st' (numbers.drop count) (cs.drop count) := by
  have hnodup := hparts.nodup
  obtain ⟨hsorted, hbound, hpresent, hlisted⟩ := hparts
  have hkept : ∀ key ∈ (numbers.map (s.partKey id)).drop count,
      svc.content st' key = svc.content st key := by
    intro key hkey
    apply hconsumed.kept key _ (foreign key (List.mem_of_mem_drop hkey))
    exact fun htake => List.disjoint_take_drop hnodup le_rfl htake hkey
  refine ⟨hsorted.drop, fun n hn => hbound n (List.mem_of_mem_drop hn), ?_, ?_⟩
  · rw [Service.contents, List.map_drop, Text.mapM_congr hkept, Text.mapM_eq_some_iff]
    exact List.forall₂_drop count (Text.mapM_eq_some_iff.mp hpresent)
  · intro key hprefix hkey
    have hown : ¬ Own s id key := by
      rintro (rfl | ⟨k, rfl⟩)
      · obtain ⟨n, hn⟩ := (partPrefix_key _).mp hprefix
        cases hn
      · obtain ⟨n, hn⟩ := (partPrefix_key _).mp hprefix
        cases hn
    have hnot : key ∉ (numbers.map (s.partKey id)).take count := fun hmem =>
      hkey (hconsumed.gone key hmem)
    rw [hconsumed.kept key hnot hown] at hkey
    obtain ⟨n, hn, rfl⟩ := hlisted key hprefix hkey
    refine ⟨n, ?_, rfl⟩
    rw [← List.take_append_drop count numbers, List.mem_append] at hn
    refine hn.resolve_left fun htake => hnot ?_
    rw [← List.map_take]
    exact List.mem_map_of_mem htake

/-! What a finalize makes of the parts it lists. -/

variable {fails : ServiceError → TusError} {assemble : List Str → ObjectProg Unit} {f : ℕ → ℕ}

/-- A finalize that fails at a call after the listing has consumed what its
assembly has. -/
theorem consumed_finalize (hs : svc.Stores) (hzero : f 0 = 0)
    (hassemble : numbers ≠ [] → ∀ n err after,
      (assemble (numbers.map (s.partKey id))).run (svc.refusing e) (st, some n) =
        (.error err, after) →
      Consumed s svc id (svc.content st) (numbers.map (s.partKey id)) (f n) after.1)
    {k : ℕ} {err : TusError} {after : svc.State × Option ℕ}
    (hrun : ((s.listParts id).bind fun parts =>
      if parts = [] then send fails (.put (s.dataKey id) []) else assemble parts).run
        (svc.refusing e) (st, some k) = (.error err, after)) :
    Consumed s svc id (svc.content st) (numbers.map (s.partKey id)) (f (k - 1)) after.1 := by
  cases k with
  | zero =>
      have hlisting : (s.listParts id).run (svc.refusing e) (st, some 0) =
        (.error (s.provider.error id.val "list parts".toList e), st, none) := rfl
      rw [run_bind_error hlisting] at hrun
      obtain rfl := (Prod.mk.inj hrun).2
      rw [Nat.zero_sub, hzero]
      exact .start
  | succ n =>
      rw [run_bind_ok (hparts.run_listParts_performed hs n)] at hrun
      rw [Nat.add_sub_cancel]
      split at hrun
      · next hnil =>
          -- only the empty object was to be written
          have hput : (send fails (.put (s.dataKey id) [])).run (svc.refusing e) (st, some n) =
              (.error err, after) := hrun
          rw [hnil]
          cases n with
          | zero =>
              obtain rfl : (st, none) = after := (Prod.mk.inj hput).2
              exact Consumed.start.of_take (by rw [List.take_nil, List.take_nil])
          | succ n =>
              have hle :
                  ((send fails (.put (s.dataKey id) [])).trace svc.impl st).length ≤ n + 1 := by
                rw [length_trace_send]
                omega
              rw [Service.refusing, run_failingAt_of_le hle, send, run_op, hs.put_ok] at hput
              cases (Prod.mk.inj hput).1
      · next hne =>
          apply hassemble _ n err after hrun
          rintro rfl
          exact hne rfl

/-- A finalize that succeeds joins the parts. -/
theorem joins_finalize (hs : svc.Stores)
    (hassemble : numbers ≠ [] → ∀ st',
      (assemble (numbers.map (s.partKey id))).run svc.impl st = (.ok (), st') →
      svc.content st' (s.dataKey id) = some cs.flatten)
    (hrun : ((s.listParts id).bind fun parts =>
      if parts = [] then send fails (.put (s.dataKey id) []) else assemble parts).run svc.impl st =
        (.ok (), st')) : svc.content st' (s.dataKey id) = some cs.flatten := by
  rw [run_bind_ok (hparts.run_listParts hs)] at hrun
  split at hrun
  · next hnil =>
      have hlength := hparts.length_eq
      rw [List.map_eq_nil_iff] at hnil
      rw [hnil, List.length_nil, List.length_eq_zero_iff] at hlength
      have hstate : (svc.impl (.put (s.dataKey id) []) st).2 = st' := by
        rw [send, run_op, hs.put_ok] at hrun
        exact (Prod.mk.inj hrun).2
      rw [← hstate, hs.put_content, Function.update_self, hlength, List.flatten_nil]
  · next hne =>
      apply hassemble _ st' hrun
      rintro rfl
      exact hne rfl

omit hparts in
/-- No part is one of the other objects. -/
theorem not_touched {n : ℕ} :
    ¬ Touched s id (numbers.map (s.partKey id)) n (s.dataKey id) := by
  rintro (hmem | ⟨k, -, heq⟩)
  · exact foreign _ hmem (.inl rfl)
  · cases key_injective heq

end HasParts

section Retry

variable {staged : svc.State → Str → Bytes → Option Bytes} {numbers : List ℕ} {cs : List Bytes}
  (hs : svc.Stores) (hl : svc.Local) (hc : s.provider = .gcs → svc.Composes)
  (hb : s.provider = .azure → svc.Blocks staged) (hprovider : s.provider ≠ .s3)
  (hparts : s.HasParts svc id st numbers cs)

include hs hl hc hb hprovider hparts

theorem finalize_consumes {k : ℕ} {err : TusError} {after : svc.State × Option ℕ}
    (hrun : (s.finalize id).run (svc.refusing e) (st, some k) = (.error err, after)) :
    Consumed s svc id (svc.content st) (numbers.map (s.partKey id))
      (s.provider.lost numbers.length k) after.1 := by
  have hforeign := @HasParts.foreign s id numbers
  have hlength : (numbers.map (s.partKey id)).length = numbers.length := List.length_map ..
  rw [finalize] at hrun
  split at hrun
  · next h => exact absurd h hprovider
  · next hgcs =>
      rw [hgcs]
      apply hparts.consumed_finalize (f := fun n =>
        if numbers.length ≤ GcsUpload.MAX_COMPOSE_SOURCES then 0
        else GcsUpload.MAX_COMPOSE_SOURCES * n) hs (ite_self 0) _ hrun
      intro _ n err after hassemble
      have hconsumed := GcsUpload.composeAll_failing (hc hgcs) hparts.nodup hforeign hparts.present
        hassemble
      rw [hlength] at hconsumed
      exact hconsumed
  · next hazure =>
      rw [hazure]
      apply hparts.consumed_finalize (f := fun n =>
        if numbers.length ≤ AzureUpload.MAX_COMMIT_SOURCES then 0
        else if n < 3 * numbers.length + (numbers.length + 31) / 32 then
          AzureUpload.MAX_COMMIT_SOURCES * (n / 97)
        else numbers.length) hs _ _ hrun
      · split
        · rfl
        · next hmany =>
            rw [AzureUpload.MAX_COMMIT_SOURCES] at hmany
            exact if_pos (by omega)
      · intro hne n err after hassemble
        have hsome : numbers.map (s.partKey id) ≠ [] :=
          fun hnil => hne (List.map_eq_nil_iff.mp hnil)
        rw [AzureUpload.commitManyBlobs, if_neg hsome] at hassemble
        have hconsumed := AzureUpload.commitRounds_failing hs (hb hazure) hl hparts.nodup hforeign
          hparts.present hsome hparts.few hassemble
        have hcost : AzureUpload.cost (Text.chunks AzureUpload.MAX_COMMIT_SOURCES
            (numbers.map (s.partKey id))) = 3 * numbers.length + (numbers.length + 31) / 32 := by
          rw [AzureUpload.cost, Text.flatten_chunks (by decide), Text.length_chunks, hlength]
          rfl
        rw [hlength, hcost] at hconsumed
        exact hconsumed

omit hl in
theorem finalize_joins {st' : svc.State} (hrun : (s.finalize id).run svc.impl st = (.ok (), st')) :
    svc.content st' (s.dataKey id) = some cs.flatten := by
  have hforeign := @HasParts.foreign s id numbers
  have hmerging := @merging_start s svc id st _ _ hparts.nodup hparts.present
  have hfree : ∀ key ∈ numbers.map (s.partKey id), ∀ k, key ≠ s.tmpKey id k :=
    fun key hkey k heq => hforeign key hkey (.inr ⟨k, heq⟩)
  have hdest (n : ℕ) : ¬ Touched s id (numbers.map (s.partKey id)) n (s.dataKey id) :=
    HasParts.not_touched
  rw [finalize] at hrun
  split at hrun
  · next h => exact absurd h hprovider
  · next hgcs =>
      apply hparts.joins_finalize hs _ hrun
      intro hne st' hassemble
      have hsome : numbers.map (s.partKey id) ≠ [] := fun hnil => hne (List.map_eq_nil_iff.mp hnil)
      obtain ⟨hfew, hmany⟩ := GcsUpload.after_composeAll (hc hgcs) hfree hsome hdest hmerging
      rw [hassemble] at hfew hmany
      rcases Nat.lt_or_ge (GcsUpload.MAX_COMPOSE_SOURCES * GcsUpload.MAX_COMPOSE_SOURCES)
        (numbers.map (s.partKey id)).length with hlt | hle
      · obtain ⟨⟨err, herror⟩, -⟩ := hmany hlt
        cases herror
      · exact (hfew hle).2.2.1
  · next hazure =>
      apply hparts.joins_finalize hs _ hrun
      intro hne st' hassemble
      have hsome : numbers.map (s.partKey id) ≠ [] := fun hnil => hne (List.map_eq_nil_iff.mp hnil)
      have hfew := hparts.few
      rw [AzureUpload.commitManyBlobs, if_neg hsome] at hassemble
      obtain ⟨-, -, -, hjoined, -⟩ := @AzureUpload.after_commitRounds s svc id
        "finalize".toList st staged _ _ _ _ _ _ hs (hb hazure) hfree hdest (by omega) hsome hmerging
      rw [hassemble] at hjoined
      exact hjoined

/-- After a finalize with one refused call, the next one that succeeds joins
all parts exactly when the parts that are gone were empty. -/
theorem finalize_again_joins_iff {k : ℕ} {err : TusError} {st₁ st₂ : svc.State} {left : Option ℕ}
    (hfail : (s.finalize id).run (svc.refusing e) (st, some k) = (.error err, st₁, left))
    (hagain : (s.finalize id).run svc.impl st₁ = (.ok (), st₂)) :
    svc.content st₂ (s.dataKey id) = some cs.flatten ↔
      ∀ part ∈ cs.take (s.provider.lost numbers.length k), part = [] := by
  have hconsumed := finalize_consumes hs hl hc hb hprovider hparts hfail
  have hrest := hparts.rest hconsumed
  have hsplit : cs.flatten = (cs.take (s.provider.lost numbers.length k)).flatten ++
      (cs.drop (s.provider.lost numbers.length k)).flatten := by
    rw [← List.flatten_append, List.take_append_drop]
  rw [finalize_joins hs hc hb hprovider hrest hagain, Option.some_inj, hsplit,
    List.self_eq_append_left, List.flatten_eq_nil_iff]

end Retry

end ObjectStore

namespace GcsUpload.ManyParts

def outage : ServiceError := ⟨false, "unavailable".toList⟩

/-- Of 33 parts the request for the second batch is refused, and the next
finalize finds the last part only. -/
theorem interrupted : ∃ st st₁ st₂ err left,
    S3Upload.Fills store Bucket.service upload (begun 33) (List.replicate 33 [0]) st ∧
    store.HasParts Bucket.service upload st (List.range 33) (List.replicate 33 [0]) ∧
    (store.finalize upload).run (Bucket.service.refusing outage) (st, some 2) =
      (.error err, st₁, left) ∧
    store.HasParts Bucket.service upload st₁ [32] [[0]] ∧
    (store.finalize upload).run Bucket.service.impl st₁ = (.ok (), st₂) := by
  obtain ⟨st, slot, hfills, hh, hslot⟩ := filled 33 (by decide) (by decide)
  have hparts := hh.hasParts
  rw [hslot, List.length_replicate] at hparts
  obtain ⟨err, ⟨st₁, left⟩, hfail⟩ : ∃ err after,
      (store.finalize upload).run (Bucket.service.refusing outage) (st, some 2) =
        (.error err, after) := by
    have hbatches : ∀ batch ∈ Text.chunks MAX_COMPOSE_SOURCES
        ((List.range 33).map (store.partKey upload)),
        batch ≠ [] ∧ batch.length ≤ MAX_COMPOSE_SOURCES := fun batch hbatch =>
      ⟨Text.ne_nil_of_mem_chunks (by decide) hbatch, Text.length_le_of_mem_chunks hbatch⟩
    have hflatten := @Text.flatten_chunks _ MAX_COMPOSE_SOURCES (by decide)
      ((List.range 33).map (store.partKey upload))
    obtain ⟨r, after, hrun, -, hfails, -⟩ := composeBatches_failing (e := outage) Bucket.composes
      hparts.nodup HasParts.foreign hparts.present 0 1 hbatches
      (by rw [hflatten, List.nil_append]) .start
    obtain ⟨err, rfl⟩ := hfails (by decide)
    refine ⟨err, after, ?_⟩
    exact (run_bind_ok (hparts.run_listParts_performed Bucket.stores 1)).trans (run_bind_error hrun)
  have hconsumed := finalize_consumes Bucket.stores Bucket.local_impl (fun _ => Bucket.composes)
    (fun _ => Bucket.blocks_staged) (by decide) hparts hfail
  have hrest : store.HasParts Bucket.service upload st₁ [32] [[0]] := hparts.rest hconsumed
  have hfree : ∀ key ∈ [32].map (store.partKey upload), ∀ k, key ≠ store.tmpKey upload k :=
    fun key hkey k heq => HasParts.foreign key hkey (.inr ⟨k, heq⟩)
  obtain ⟨hfew, -⟩ := after_composeAll Bucket.composes hfree (List.cons_ne_nil _ _)
    (fun _ => HasParts.not_touched) (merging_start hrest.nodup hrest.present)
  obtain ⟨hok, -⟩ := hfew (by decide)
  refine ⟨st, st₁, ((store.finalize upload).run Bucket.service.impl st₁).2, err, left,
    hfills, hparts, hfail, hrest, Prod.ext ?_ rfl⟩
  exact (congrArg Prod.fst (run_bind_ok (hrest.run_listParts Bucket.stores))).trans hok

end GcsUpload.ManyParts

open GcsUpload.ManyParts in
theorem ObjectStore.finalize_again_joins_iff_many : ∃ st st₁ st₂ : Bucket, ∃ err left,
    (store.finalize upload).run (Bucket.service.refusing outage) (st, some 2) =
      (.error err, st₁, left) ∧
    (Bucket.service.content st₂ (store.dataKey upload) =
        some (List.replicate 33 ([0] : Bytes)).flatten ↔
      ∀ part ∈ (List.replicate 33 ([0] : Bytes)).take 32, part = []) := by
  obtain ⟨st, st₁, st₂, err, left, -, hparts, hfail, -, hagain⟩ := interrupted
  exact ⟨st, st₁, st₂, err, left, hfail, @ObjectStore.finalize_again_joins_iff store Bucket.service
    upload st outage Bucket.staged _ _ Bucket.stores Bucket.local_impl (fun _ => Bucket.composes)
    (fun _ => Bucket.blocks_staged) (by decide) hparts 2 err st₁ st₂ left hfail hagain⟩

open GcsUpload.ManyParts in
/-- The first 32 of 33 bytes are lost. -/
theorem GcsUpload.finalize_again_loses_parts : ∃ st st₁ st₂ : Bucket, ∃ err left,
    S3Upload.Fills store Bucket.service upload (begun 33) (List.replicate 33 [0]) st ∧
    (store.finalize upload).run (Bucket.service.refusing outage) (st, some 2) =
      (.error err, st₁, left) ∧
    (store.finalize upload).run Bucket.service.impl st₁ = (.ok (), st₂) ∧
    Bucket.service.content st₂ (store.dataKey upload) = some [0] ∧
    (List.replicate 33 ([0] : Bytes)).flatten ≠ [0] := by
  obtain ⟨st, st₁, st₂, err, left, hfills, -, hfail, hrest, hagain⟩ := interrupted
  refine ⟨st, st₁, st₂, err, left, hfills, hfail, hagain, ?_, by decide⟩
  exact finalize_joins Bucket.stores (fun _ => Bucket.composes) (fun _ => Bucket.blocks_staged)
    (by decide) hrest hagain

end Fileloft
