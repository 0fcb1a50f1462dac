import Fileloft.Object.Service
import Fileloft.Text.Collect
import Fileloft.Text.Decimal
import Mathlib.Data.List.AList

/-!
# A bucket

One service that obeys all laws: a finite map of objects, with the blocks
and the parts that are not committed yet.
-/

namespace Fileloft

structure Bucket where
  objects : AList fun _ : Str => Bytes
  blocks : AList fun _ : Str × Bytes => Bytes
  parts : AList fun _ : Str × ℕ => Bytes
  /-- The number of the next multipart upload. -/
  next : ℕ

namespace Bucket

def empty : Bucket := ⟨∅, ∅, ∅, 0⟩

variable (b : Bucket)

def content (key : Str) : Option Bytes := b.objects.lookup key

def put (key : Str) (c : Bytes) : Bucket := { b with objects := b.objects.insert key c }

def remove (key : Str) : Bucket := { b with objects := b.objects.erase key }

def removeAll : List Str → Bucket → Bucket
  | [], b => b
  | key :: keys, b => removeAll keys (b.remove key)

/-- A body comes in one read. -/
def body (c : Bytes) : Body := ⟨if c = [] then [] else [c], none⟩

def missing : ServiceError := ⟨true, "not found".toList⟩

def refused : ServiceError := ⟨false, "invalid argument".toList⟩

def compose (dest : Str) (sources : List Str) (deleteSources : Bool) :
    Except ServiceError Unit × Bucket :=
  if sources.length ≤ Service.COMPOSE_LIMIT then
    match sources.mapM b.content with
    | some cs =>
      (.ok (), (if deleteSources then removeAll sources b else b).put dest cs.flatten)
    | none => (.error missing, b)
  else (.error refused, b)

def impl : Interp ObjectSig Bucket
  | .get key, b =>
    (match b.content key with
      | some c => .ok (body c)
      | none => .error missing, b)
  | .put key c, b => (.ok (), b.put key c)
  | .delete key, b => (.ok (), b.remove key)
  | .list keyPrefix, b => (.ok (b.objects.keys.filter fun key => keyPrefix.isPrefixOf key), b)
  | .compose dest sources deleteSources, b => b.compose dest sources deleteSources
  | .putBlock key block c, b => (.ok (), { b with blocks := b.blocks.insert (key, block) c })
  | .putBlockList key blocks, b =>
    match blocks.mapM fun block => b.blocks.lookup (key, block) with
    | some cs => (.ok (), b.put key cs.flatten)
    | none => (.error refused, b)
  | .createMultipart _, b => (.ok (some (Text.decimal b.next)), { b with next := b.next + 1 })
  | .uploadPart _ uploadId number c, b =>
    (.ok (some uploadId), { b with parts := b.parts.insert (uploadId, number) c })
  | .completeMultipart key uploadId parts, b =>
    match parts.mapM fun part => b.parts.lookup (uploadId, part.2) with
    | some cs => (.ok (), b.put key cs.flatten)
    | none => (.error refused, b)
  | .abortMultipart _ _, b => (.ok (), b)

def service : Service where
  State := Bucket
  empty := empty
  impl := impl
  content := content
  content_empty _ := rfl

theorem content_put (key : Str) (c : Bytes) :
    (b.put key c).content = Function.update b.content key (some c) := by
  funext key'
  by_cases heq : key' = key
  · subst heq
    rw [Function.update_self]
    exact AList.lookup_insert ..
  · rw [Function.update_of_ne heq]
    exact AList.lookup_insert_ne heq

theorem content_remove (key : Str) :
    (b.remove key).content = Function.update b.content key none := by
  funext key'
  by_cases heq : key' = key
  · subst heq
    rw [Function.update_self]
    exact AList.lookup_erase ..
  · rw [Function.update_of_ne heq]
    exact AList.lookup_erase_ne heq

theorem content_removeAll (keys : List Str) (b : Bucket) (key : Str) :
    (removeAll keys b).content key = if key ∈ keys then none else b.content key := by
  induction keys generalizing b with
  | nil => rfl
  | cons k keys ih =>
      rw [removeAll, ih, content_remove]
      by_cases heq : key = k
      · simp [heq]
      · simp [heq]

theorem compose_ok {b : Bucket} {dest : Str} {sources : List Str} {deleteSources : Bool}
    {cs : List Bytes} (hfew : sources.length ≤ Service.COMPOSE_LIMIT)
    (hcs : sources.mapM b.content = some cs) :
    (b.compose dest sources deleteSources).1 = .ok () ∧
      (b.compose dest sources deleteSources).2.content =
        Service.composed dest sources deleteSources cs.flatten b.content := by
  have hrun : b.compose dest sources deleteSources =
      (.ok (), (if deleteSources then removeAll sources b else b).put dest cs.flatten) := by
    rw [compose, if_pos hfew, hcs]
  rw [hrun]
  refine ⟨rfl, ?_⟩
  funext key
  rw [content_put, Service.composed]
  by_cases heq : key = dest
  · rw [heq, Function.update_self, if_pos rfl]
  · rw [Function.update_of_ne heq, if_neg heq]
    cases deleteSources with
    | false => simp
    | true =>
        rw [if_pos rfl, content_removeAll]
        simp only [true_and]

theorem compose_error {b : Bucket} {dest : Str} {sources : List Str} {deleteSources : Bool}
    (hbad : Service.COMPOSE_LIMIT < sources.length ∨ sources.mapM b.content = none) :
    ∃ e, b.compose dest sources deleteSources = (.error e, b) := by
  unfold compose
  split
  · next hfew =>
      rcases hbad with hmany | hnone
      · omega
      · exact ⟨missing, by rw [hnone]⟩
  · exact ⟨refused, rfl⟩

theorem putBlockList_ok {b : Bucket} {key : Str} {blocks : List Bytes} {cs : List Bytes}
    (hcs : blocks.mapM (fun block => b.blocks.lookup (key, block)) = some cs) :
    impl (.putBlockList key blocks) b = (.ok (), b.put key cs.flatten) := by
  rw [impl, hcs]

theorem stores : service.Stores where
  get_found {key c st} hfound := by
    refine ⟨body c, by simp only [service, impl] at hfound ⊢; rw [hfound], rfl, ?_, ?_⟩
    · unfold body
      by_cases hc : c = [] <;> simp [hc]
    · intro read hread
      simp only [body] at hread
      split at hread
      · cases hread
      · next hc => exact List.mem_singleton.mp hread ▸ hc
  get_missing {key st} hmissing := by
    refine ⟨missing, ?_, rfl⟩
    simp only [service, impl] at hmissing ⊢
    rw [hmissing]
  get_keeps key st := rfl
  put_ok key c st := rfl
  put_content key c st := content_put st key c
  delete_content key st := content_remove st key
  list_ok keyPrefix st := by
    refine ⟨_, rfl, st.objects.nodupKeys.filter _, fun name => ?_⟩
    rw [List.mem_filter, List.isPrefixOf_iff_prefix]
    refine and_congr_left fun _ => ?_
    rw [← AList.mem_keys, ← AList.lookup_isSome]
    exact Option.isSome_iff_ne_none
  list_keeps keyPrefix st := rfl

theorem composes : service.Composes where
  compose_ok _ hfew _ hcs := compose_ok hfew hcs
  compose_missing {dest sources deleteSources st} hnone := by
    obtain ⟨e, hrun⟩ := @compose_error st dest sources deleteSources (.inr hnone)
    exact ⟨e, congrArg Prod.fst hrun,
      congrArg (fun r : Except ServiceError Unit × Bucket => r.2.content) hrun⟩
  compose_many {dest sources deleteSources st} hmany := by
    obtain ⟨e, hrun⟩ := @compose_error st dest sources deleteSources (.inl hmany)
    exact ⟨e, congrArg Prod.fst hrun,
      congrArg (fun r : Except ServiceError Unit × Bucket => r.2.content) hrun⟩

theorem local_impl : service.Local := by
  have hput {b : Bucket} {key dest : Str} {c : Bytes} (hne : key ≠ dest) :
      (b.put dest c).content key = b.content key := by
    rw [content_put, Function.update_of_ne hne]
  intro o key st hkey
  change (impl o st).2.content key = st.content key
  cases o with
  | get _ | list _ | putBlock _ _ _ | createMultipart _ | uploadPart _ _ _ _ => rfl
  | abortMultipart _ _ => rfl
  | put dest c => exact hput fun heq => hkey (List.mem_singleton.mpr heq)
  | delete dest =>
      have hne : key ≠ dest := fun heq => hkey (List.mem_singleton.mpr heq)
      exact (congrFun (content_remove st dest) key).trans (Function.update_of_ne hne ..)
  | putBlockList dest blocks =>
      simp only [impl]
      split
      · exact hput fun heq => hkey (List.mem_singleton.mpr heq)
      · rfl
  | completeMultipart dest uploadId parts =>
      simp only [impl]
      split
      · exact hput fun heq => hkey (List.mem_singleton.mpr heq)
      · rfl
  | compose dest sources deleteSources =>
      obtain ⟨hdest, hsources⟩ := List.ne_and_not_mem_of_not_mem_cons hkey
      simp only [impl, compose]
      split
      · split
        · cases deleteSources with
          | false => exact hput hdest
          | true => exact (hput hdest).trans ((content_removeAll ..).trans (if_neg hsources))
        · rfl
      · rfl

/-- The block that is kept aside for an object. -/
def staged (b : Bucket) (key : Str) (block : Bytes) : Option Bytes := b.blocks.lookup (key, block)

theorem blocks_staged : service.Blocks staged where
  block_ok key block c st := rfl
  block_content key block c st := rfl
  block_staged key block c st := by
    funext block'
    by_cases heq : block' = block
    · subst heq
      rw [Function.update_self]
      exact AList.lookup_insert ..
    · rw [Function.update_of_ne heq]
      exact AList.lookup_insert_ne fun hpair => heq (Prod.mk.inj hpair).2
  list_ok {key blocks cs st} hcs := by
    have hrun := @putBlockList_ok st key blocks cs hcs
    refine ⟨congrArg Prod.fst hrun, ?_⟩
    exact (congrArg (fun r : Except ServiceError Unit × Bucket => r.2.content) hrun).trans
      (content_put st key cs.flatten)

/-- The parts of a multipart upload. The entity tag is the upload id. -/
def kept (b : Bucket) (_ uploadId : Str) : Option (ℕ → Option (Str × Bytes)) :=
  some fun number => (b.parts.lookup (uploadId, number)).map fun c => (uploadId, c)

theorem completeMultipart_ok {b : Bucket} {key uploadId : Str} {parts : List (Str × ℕ)}
    {cs : List Bytes}
    (hcs : parts.mapM (fun part => b.parts.lookup (uploadId, part.2)) = some cs) :
    impl (.completeMultipart key uploadId parts) b = (.ok (), b.put key cs.flatten) := by
  rw [impl, hcs]

/-- A part that is picked by its tag and number is the one of that number. -/
theorem lookup_of_picked {f : ℕ → Option Bytes} {tag : Str} {p : Str × ℕ} {c : Bytes}
    (hpicked : Service.picked (fun number => (f number).map fun c => (tag, c)) p = some c) :
    f p.2 = some c := by
  rw [Service.picked, Option.bind_map, Option.bind_eq_some_iff] at hpicked
  obtain ⟨c', hc', hpicked⟩ := hpicked
  rw [hc']
  exact (Option.ite_none_right_eq_some.mp hpicked).2

theorem multipart : service.Multipart kept where
  create_ok key st := ⟨Text.decimal st.next, rfl, rfl⟩
  create_content key st := rfl
  part_ok {key uploadId parts number st} c hparts _ _ := by
    refine ⟨uploadId, rfl, congrArg some ?_⟩
    obtain rfl := Option.some.inj hparts
    funext number'
    change ((st.parts.insert (uploadId, number) c).lookup (uploadId, number')).map _ = _
    by_cases heq : number' = number
    · rw [heq, AList.lookup_insert, Function.update_self, Option.map_some]
    · have hne : (uploadId, number') ≠ (uploadId, number) := fun hpair =>
        heq (Prod.mk.inj hpair).2
      rw [AList.lookup_insert_ne hne, Function.update_of_ne heq]
  part_content key uploadId number c st := rfl
  complete_ok {key uploadId parts listed cs st} hparts _ _ hcs _ := by
    obtain rfl := Option.some.inj hparts
    have hlookup : listed.mapM (fun p => st.parts.lookup (uploadId, p.2)) = some cs := by
      rw [Text.mapM_eq_some_iff] at hcs ⊢
      exact hcs.imp fun _ _ hpicked =>
        lookup_of_picked (f := fun number => st.parts.lookup (uploadId, number)) hpicked
    have hrun := @completeMultipart_ok st key uploadId listed cs hlookup
    refine ⟨congrArg Prod.fst hrun, ?_⟩
    exact (congrArg (fun r : Except ServiceError Unit × Bucket => r.2.content) hrun).trans
      (content_put st key cs.flatten)
  abort_ok key uploadId st := rfl
  abort_content key uploadId st := rfl

end Bucket

end Fileloft
