import Fileloft.Effect.After
import Fileloft.Fs.Fixture
import Fileloft.Object.Bucket
import Fileloft.Object.Store

/-!
# The parts of an assembly

The bytes of the sources go out in blocks of the least part size, however
their bodies are cut into reads.
-/

namespace Fileloft.ObjectStore

variable {σ β : Type} {h : Interp ObjectSig σ} {st : σ} {fails : ServiceError → TusError}

/-- A call whose failure ends the program. -/
theorem after_send {o : ObjectOp} {f : o.Val → ObjectProg β} {Q : Prog.Post ObjectSig TusError β σ}
    (hok : ∀ v, (h o st).1 = .ok v →
      Prog.After h (f v) (h o st).2 fun r st' l => Q r st' (⟨o, .ok v⟩ :: l))
    (herror : ∀ e, (h o st).1 = .error e → Q (.error (fails e)) (h o st).2 [⟨o, .error e⟩]) :
    Prog.After h ((send fails o).bind f) st Q := by
  apply Prog.After.op
  cases hanswer : (h o st).1 with
  | ok v => exact hok v hanswer
  | error e => exact herror e hanswer

end Fileloft.ObjectStore

namespace Fileloft.S3Upload

open ObjectStore Prog

def isPart : ObjectOp → Bool
  | .uploadPart .. => true
  | _ => false

/-- The parts that some calls send. -/
def sends (l : Calls ObjectSig) : List ObjectOp := (l.map Sigma.fst).filter isPart

/-- The entity tag and the number of a part that was taken. -/
def ack : ((o : ObjectOp) × ObjectSig.Ans o) → Option (Str × ℕ)
  | ⟨.uploadPart _ _ number _, .ok (some etag)⟩ => some (etag, number)
  | _ => none

def acks (l : Calls ObjectSig) : List (Str × ℕ) := l.filterMap ack

/-- Sending the blocks under successive numbers. -/
def numbered (dest uploadId : Str) (first : ℕ) (blocks : List Bytes) : List ObjectOp :=
  (blocks.zipIdx first).map fun block => .uploadPart dest uploadId block.2 block.1

/-- The parts that some data is sent in. -/
def blocksOf (data : Bytes) : List Bytes :=
  if data = [] then [[]] else Text.chunks MIN_MULTIPART_PART data

variable {l l' : Calls ObjectSig}

theorem sends_append : sends (l ++ l') = sends l ++ sends l' := by
  rw [sends, List.map_append, List.filter_append, sends, sends]

theorem acks_append : acks (l ++ l') = acks l ++ acks l' := List.filterMap_append

theorem numbered_append (dest uploadId : Str) (first : ℕ) (blocks blocks' : List Bytes) :
    numbered dest uploadId first (blocks ++ blocks') =
      numbered dest uploadId first blocks ++
        numbered dest uploadId (first + blocks.length) blocks' := by
  rw [numbered, List.zipIdx_append, List.map_append, numbered, numbered]

theorem min_pos : 0 < MIN_MULTIPART_PART := by decide

variable {svc : Service} {kept : svc.State → Str → Str → Option (ℕ → Option (Str × Bytes))}
  {s : ObjectStore} {id : UploadId} {dest uploadId : Str} {objects : Str → Option Bytes}
  {st st' st'' : svc.State} {a a' a'' : Assembly} {done blocks blocks' : List Bytes}
  {data data' : Bytes}

/-- The blocks `done` have become the first parts, and no object changed. -/
structure Sent (kept : svc.State → Str → Str → Option (ℕ → Option (Str × Bytes)))
    (dest uploadId : Str) (objects : Str → Option Bytes) (st : svc.State) (a : Assembly)
    (done : List Bytes) : Prop where
  content : svc.content st = objects
  parts : ∃ parts, kept st dest uploadId = some parts ∧
    a.completed.mapM (Service.picked parts) = some done
  numbers : a.completed.map Prod.snd = List.range' 1 done.length
  next : a.partNumber = done.length + 1
  few : done.length ≤ MAX_MULTIPART_PARTS

/-- The calls `l` sent `blocks` and led from `a` to `a'`. -/
structure Sends (kept : svc.State → Str → Str → Option (ℕ → Option (Str × Bytes)))
    (dest uploadId : Str) (objects : Str → Option Bytes) (done : List Bytes) (a : Assembly)
    (blocks : List Bytes) (a' : Assembly) (st' : svc.State) (l : Calls ObjectSig) : Prop where
  sent : Sent kept dest uploadId objects st' a' (done ++ blocks)
  sends : sends l = numbered dest uploadId (done.length + 1) blocks
  acks : a'.completed = a.completed ++ acks l

theorem Sends.refl (hsent : Sent kept dest uploadId objects st a done) :
    Sends kept dest uploadId objects done a [] a st [] where
  sent := by rwa [List.append_nil]
  sends := rfl
  acks := (List.append_nil _).symm

theorem Sends.trans (hfirst : Sends kept dest uploadId objects done a blocks a' st' l)
    (hnext : Sends kept dest uploadId objects (done ++ blocks) a' blocks' a'' st'' l') :
    Sends kept dest uploadId objects done a (blocks ++ blocks') a'' st'' (l ++ l') where
  sent := by
    rw [← List.append_assoc]
    exact hnext.sent
  sends := by
    rw [sends_append, hfirst.sends, hnext.sends, numbered_append, List.length_append]
    congr 2
    omega
  acks := by rw [acks_append, hnext.acks, hfirst.acks, List.append_assoc]

/-- More bytes are there than the remaining parts may hold. -/
structure Full (dest uploadId : Str) (done : List Bytes) (data : Bytes) (blocks : List Bytes)
    (l : Calls ObjectSig) : Prop where
  cut : ∃ rest, rest ≠ [] ∧ Text.Cut MIN_MULTIPART_PART data blocks rest
  limit : done.length + blocks.length = MAX_MULTIPART_PARTS
  sends : sends l = numbered dest uploadId (done.length + 1) blocks

/-- From `a` on the bytes `data` came in. Full blocks were sent and less than
one is left, or the parts ran out. -/
def Feeds (kept : svc.State → Str → Str → Option (ℕ → Option (Str × Bytes)))
    (dest uploadId : Str) (objects : Str → Option Bytes) (done : List Bytes) (a : Assembly)
    (data : Bytes) : Post ObjectSig TusError Assembly svc.State
  | .ok a', st', l => ∃ blocks, Text.Cut MIN_MULTIPART_PART (a.buffer ++ data) blocks a'.buffer ∧
      a'.buffer.length < MIN_MULTIPART_PART ∧
      Sends kept dest uploadId objects done a blocks a' st' l
  | .error _, _, l => ∃ blocks, Full dest uploadId done (a.buffer ++ data) blocks l

/-- After blocks from the front of the bytes, more bytes come in. -/
theorem Feeds.trans {r : Except TusError Assembly}
    (hcut : Text.Cut MIN_MULTIPART_PART (a.buffer ++ data) blocks a'.buffer)
    (hsends : Sends kept dest uploadId objects done a blocks a' st' l)
    (hnext : Feeds kept dest uploadId objects (done ++ blocks) a' data' r st'' l') :
    Feeds kept dest uploadId objects done a (data ++ data') r st'' (l ++ l') := by
  cases r with
  | ok a'' =>
      obtain ⟨blocks', hcut', hshort, hsends'⟩ := hnext
      refine ⟨blocks ++ blocks', ?_, hshort, hsends.trans hsends'⟩
      rw [← List.append_assoc]
      exact hcut.append hcut'
  | error e =>
      obtain ⟨blocks', ⟨rest, hrest, hcut'⟩, hlimit, hsent⟩ := hnext
      refine ⟨blocks ++ blocks', ⟨rest, hrest, ?_⟩, ?_, ?_⟩
      · rw [← List.append_assoc]
        exact hcut.append hcut'
      · rw [List.length_append] at hlimit ⊢
        omega
      · rw [sends_append, hsends.sends, hsent, numbered_append, List.length_append]
        congr 2
        omega

/-- Once the parts ran out, further bytes do not matter. -/
theorem Feeds.extend {e : TusError}
    (hfeeds : Feeds kept dest uploadId objects done a data (.error e) st' l) (data' : Bytes) :
    Feeds kept dest uploadId objects done a (data ++ data') (.error e) st' l := by
  obtain ⟨blocks, ⟨rest, hrest, hcut⟩, hlimit, hsent⟩ := hfeeds
  refine ⟨blocks, ⟨rest ++ data', ?_, ?_⟩, hlimit, hsent⟩
  · intro hnil
    exact hrest (List.append_eq_nil_iff.mp hnil).1
  · rw [← List.append_assoc]
    exact hcut.extend data'

/-- A call that sends no part, before the rest. -/
theorem Feeds.cons {r : Except TusError Assembly} {c : (o : ObjectOp) × ObjectSig.Ans o}
    (hpart : sends [c] = []) (hack : acks [c] = [])
    (hfeeds : Feeds kept dest uploadId objects done a data r st' l) :
    Feeds kept dest uploadId objects done a data r st' (c :: l) := by
  have hsends : sends (c :: l) = sends l := by
    rw [← List.singleton_append, sends_append, hpart, List.nil_append]
  have hacks : acks (c :: l) = acks l := by
    rw [← List.singleton_append, acks_append, hack, List.nil_append]
  cases r with
  | ok a' =>
      obtain ⟨blocks, hcut, hshort, hsent, hsends', hacks'⟩ := hfeeds
      exact ⟨blocks, hcut, hshort, hsent, hsends.trans hsends', hacks ▸ hacks'⟩
  | error e =>
      obtain ⟨blocks, hcut, hlimit, hsends'⟩ := hfeeds
      exact ⟨blocks, hcut, hlimit, hsends.trans hsends'⟩

theorem Sent.withBuffer (hsent : Sent kept dest uploadId objects st a done) (buffer : Bytes) :
    Sent kept dest uploadId objects st ⟨buffer, a.completed, a.partNumber⟩ done :=
  ⟨hsent.content, hsent.parts, hsent.numbers, hsent.next, hsent.few⟩

theorem Sends.withBuffer (hsends : Sends kept dest uploadId objects done a blocks a' st' l)
    (buffer : Bytes) :
    Sends kept dest uploadId objects done a blocks ⟨buffer, a'.completed, a'.partNumber⟩ st' l :=
  ⟨hsends.sent.withBuffer buffer, hsends.sends, hsends.acks⟩

/-- One more part was taken. -/
theorem Sent.add {parts : ℕ → Option (Str × Bytes)} {etag : Str} {part : Bytes}
    (hsent : Sent kept dest uploadId objects st a done)
    (hparts : kept st dest uploadId = some parts) (hlt : done.length < MAX_MULTIPART_PARTS)
    (hcontent : svc.content st' = svc.content st)
    (hkept : kept st' dest uploadId =
      some (Function.update parts a.partNumber (some (etag, part)))) :
    Sent kept dest uploadId objects st'
      ⟨a.buffer, a.completed ++ [(etag, a.partNumber)], a.partNumber + 1⟩ (done ++ [part]) where
  content := hcontent.trans hsent.content
  parts := by
    obtain ⟨parts', hparts', hpicked⟩ := hsent.parts
    obtain rfl : parts = parts' := Option.some.inj (hparts.symm.trans hparts')
    refine ⟨_, hkept, Text.mapM_append_eq_some.mpr ⟨done, [part], ?_, ?_, rfl⟩⟩
    · rw [← hpicked]
      apply Text.mapM_congr
      intro p hp
      -- the number of an earlier part is smaller
      have hnumber : p.2 ∈ List.range' 1 done.length := by
        rw [← hsent.numbers]
        exact List.mem_map_of_mem hp
      have hne : p.2 ≠ a.partNumber := by
        rw [List.mem_range'_1] at hnumber
        rw [hsent.next]
        omega
      rw [Service.picked, Service.picked, Function.update_of_ne hne]
    · rw [Text.mapM_cons_eq_some]
      refine ⟨part, [], ?_, rfl, rfl⟩
      rw [Service.picked, Function.update_self, Option.bind_some, if_pos rfl]
  numbers := by
    rw [List.map_append, hsent.numbers, List.length_append, List.range'_append_1.symm]
    simp only [hsent.next, List.map_cons, List.map_nil, List.length_singleton, List.range'_one]
    rw [Nat.add_comm]
  next := by rw [List.length_append, List.length_singleton, hsent.next]
  few := by
    rw [List.length_append, List.length_singleton]
    exact hlt

section Loops

variable (hm : svc.Multipart kept)

include hm

/-- One part goes out while there is a number for it. -/
theorem after_uploadOnePart (hsent : Sent kept dest uploadId objects st a done) (part : Bytes) :
    After svc.impl (uploadOnePart s id dest uploadId part a) st fun r st' l =>
      (done.length < MAX_MULTIPART_PARTS → ∃ a', r = .ok a' ∧ a'.buffer = a.buffer ∧
        Sends kept dest uploadId objects done a [part] a' st' l) ∧
      (done.length = MAX_MULTIPART_PARTS → (∃ e, r = .error e) ∧ l = []) := by
  obtain ⟨parts, hparts, -⟩ := hsent.parts
  have hfew := hsent.few
  have hnext := hsent.next
  rw [uploadOnePart]
  split
  · apply After.fail
    exact ⟨fun hlt => by omega, fun _ => ⟨⟨_, rfl⟩, rfl⟩⟩
  · have hlimit : MAX_MULTIPART_PARTS = Service.MAX_PART_NUMBER := rfl
    obtain ⟨etag, hanswer, hkept⟩ :=
      @Service.Multipart.part_ok _ _ hm dest uploadId parts a.partNumber st part hparts
        (by omega) (by omega)
    apply after_send
    · intro v hv
      rw [hanswer] at hv
      cases hv
      apply After.ret
      refine ⟨fun hlt => ⟨_, rfl, rfl, ?_, ?_, rfl⟩, fun hmax => by omega⟩
      · exact hsent.add hparts hlt (hm.part_content _ _ _ _ _) hkept
      · rw [hnext]
        rfl
    · intro e he
      rw [hanswer] at he
      cases he

/-- Full blocks go out. With more to come less than one stays. -/
theorem after_drain (hsent : Sent kept dest uploadId objects st a done) {more : Bool}
    (hmore : more = false → a.buffer.length < MIN_MULTIPART_PART) :
    After svc.impl (drain s id dest uploadId more a) st
      (Feeds kept dest uploadId objects done a []) := by
  induction hlen : a.buffer.length using Nat.strong_induction_on generalizing st a done with
  | _ len ih =>
      rw [drain]
      split
      · next hfull =>
          have hlong := hfull.1
          have htrue : more = false → False := fun hfalse => by
            have hshort := hmore hfalse
            omega
          have hcut : Text.Cut MIN_MULTIPART_PART (a.buffer ++ [])
              [a.buffer.take MIN_MULTIPART_PART] (a.buffer.drop MIN_MULTIPART_PART) := by
            rw [List.append_nil]
            exact .cons hlong (.none _ _)
          apply After.bind (after_uploadOnePart hm hsent _)
          · intro sent st' l hstep
            rcases Nat.lt_or_ge done.length MAX_MULTIPART_PARTS with hlt | hge
            · obtain ⟨sent', heq, -, hsends⟩ := hstep.1 hlt
              cases heq
              have hsends' := hsends.withBuffer (a.buffer.drop MIN_MULTIPART_PART)
              have hrest := ih _ (by
                rw [List.length_drop]
                have hpos := min_pos
                omega) hsends'.sent (fun hfalse => (htrue hfalse).elim) rfl
              exact hrest.mono fun r st'' l' hfeeds => Feeds.trans hcut hsends' hfeeds
            · obtain ⟨⟨e, heq⟩, -⟩ := hstep.2 (Nat.le_antisymm hsent.few hge)
              cases heq
          · intro e st' l hstep
            rcases Nat.lt_or_ge done.length MAX_MULTIPART_PARTS with hlt | hge
            · obtain ⟨a', heq, -⟩ := hstep.1 hlt
              cases heq
            · have hmax := Nat.le_antisymm hsent.few hge
              obtain ⟨-, rfl⟩ := hstep.2 hmax
              refine ⟨[], ⟨a.buffer ++ [], ?_, .none _ _⟩, hmax, rfl⟩
              rw [List.append_nil]
              intro hnil
              rw [hnil, List.length_nil] at hlong
              have hpos := min_pos
              omega
      · next hless =>
          apply After.ret
          refine ⟨[], ?_, ?_, Sends.refl hsent⟩
          · rw [List.append_nil]
            exact .none _ _
          · by_contra hlong
            apply hless
            refine ⟨Nat.le_of_not_lt hlong, ?_⟩
            rintro ⟨-, hfalse⟩
            exact hlong (hmore hfalse)

/-- All reads of a source come in, wherever they are cut. -/
theorem after_readSource {reads : List Bytes} (more : Bool) (hreads : ∀ read ∈ reads, read ≠ [])
    (hsent : Sent kept dest uploadId objects st a done)
    (hshort : a.buffer.length < MIN_MULTIPART_PART) :
    After svc.impl (readSource s id dest uploadId more none reads a) st
      (Feeds kept dest uploadId objects done a reads.flatten) := by
  induction reads generalizing st a done with
  | nil => exact after_drain hm hsent fun _ => hshort
  | cons read reads ih =>
      rw [readSource, if_neg (hreads read List.mem_cons_self)]
      have hmore : true = false → (a.buffer ++ read).length < MIN_MULTIPART_PART := nofun
      apply After.bind (after_drain hm (hsent.withBuffer (a.buffer ++ read)) hmore)
      · rintro a' st' l ⟨blocks, hcut, hshort', hsent', hsends, hacks⟩
        rw [List.append_nil] at hcut
        have hrest := ih (fun r hr => hreads r (List.mem_cons_of_mem _ hr)) hsent' hshort'
        exact hrest.mono fun r st'' l' hfeeds =>
          Feeds.trans hcut ⟨hsent', hsends, hacks⟩ hfeeds
      · intro e st' l hfull
        have hfull' : Feeds kept dest uploadId objects done a read (.error e) st' l := by
          obtain ⟨blocks, hcut⟩ := hfull
          rw [List.append_nil] at hcut
          exact ⟨blocks, hcut⟩
        exact hfull'.extend _

theorem after_readSources (hs : svc.Stores) {keys : List Str} {cs : List Bytes}
    (hcs : keys.mapM objects = some cs) (hsent : Sent kept dest uploadId objects st a done)
    (hshort : a.buffer.length < MIN_MULTIPART_PART) :
    After svc.impl (readSources s id dest uploadId keys a) st
      (Feeds kept dest uploadId objects done a cs.flatten) := by
  induction keys generalizing st a done cs with
  | nil =>
      rw [List.mapM_nil] at hcs
      obtain rfl := Option.some.inj hcs
      apply After.ret
      refine ⟨[], ?_, hshort, Sends.refl hsent⟩
      rw [List.flatten_nil, List.append_nil]
      exact .none _ _
  | cons key keys ih =>
      obtain ⟨c, cs', hc, hcs', rfl⟩ := Text.mapM_cons_eq_some.mp hcs
      have hfound : svc.content st key = some c := by rw [hsent.content, hc]
      obtain ⟨body, hbody, hwhole, rfl, hreads⟩ := hs.get_found hfound
      apply after_send
      · intro v hv
        rw [hbody] at hv
        cases hv
        rw [hs.get_keeps, hwhole]
        have hcall {r : Except TusError Assembly} {a data l} {st' : svc.State} :
            Feeds kept dest uploadId objects done a data r st' l →
              Feeds kept dest uploadId objects done a data r st' (⟨.get key, .ok body⟩ :: l) :=
          Feeds.cons rfl rfl
        apply After.bind (after_readSource hm _ hreads hsent hshort)
        · rintro a' st' l ⟨blocks, hcut, hshort', hsends⟩
          have hrest := ih hcs' hsends.sent hshort'
          exact hrest.mono fun r st'' l' hfeeds => hcall (Feeds.trans hcut hsends hfeeds)
        · intro e st' l hfull
          exact hcall (Feeds.extend hfull _)
      · intro e he
        rw [hbody] at he
        cases he

end Loops

/-- The bytes went out as the blocks they are made of, or as many of these as
there may be parts. -/
def Assembled (kept : svc.State → Str → Str → Option (ℕ → Option (Str × Bytes)))
    (dest uploadId : Str) (objects : Str → Option Bytes) (data : Bytes) :
    Post ObjectSig TusError (List (Str × ℕ)) svc.State
  | .ok completed, st', l => ∃ a', a'.completed = completed ∧
      Sends kept dest uploadId objects [] .start (blocksOf data) a' st' l
  | .error _, _, l => MAX_MULTIPART_PARTS < (blocksOf data).length ∧
      sends l = numbered dest uploadId 1 ((blocksOf data).take MAX_MULTIPART_PARTS)

/-- The last part goes out after full blocks. -/
theorem after_lastPart (hm : svc.Multipart kept) {part : Bytes}
    (hsends : Sends kept dest uploadId objects [] .start blocks a st l)
    (hblocks : blocksOf data = blocks ++ [part]) :
    After svc.impl ((uploadOnePart s id dest uploadId part a).bind fun a => .ret a.completed) st
      fun r st' l' => Assembled kept dest uploadId objects data r st' (l ++ l') := by
  have hlength : (blocksOf data).length = blocks.length + 1 := by
    rw [hblocks, List.length_append, List.length_singleton]
  have hfew : blocks.length ≤ MAX_MULTIPART_PARTS := hsends.sent.few
  apply After.bind (after_uploadOnePart hm hsends.sent part)
  · intro sent st' l' hstep
    apply After.ret
    rcases Nat.lt_or_ge blocks.length MAX_MULTIPART_PARTS with hlt | hge
    · obtain ⟨sent', heq, -, hsends'⟩ := hstep.1 hlt
      cases heq
      refine ⟨sent, rfl, ?_⟩
      rw [hblocks, List.append_nil]
      exact hsends.trans hsends'
    · obtain ⟨⟨e, heq⟩, -⟩ := hstep.2 (Nat.le_antisymm hfew hge)
      cases heq
  · intro e st' l' hstep
    rcases Nat.lt_or_ge blocks.length MAX_MULTIPART_PARTS with hlt | hge
    · obtain ⟨a', heq, -⟩ := hstep.1 hlt
      cases heq
    · have hmax := Nat.le_antisymm hfew hge
      obtain ⟨-, rfl⟩ := hstep.2 hmax
      refine ⟨by omega, ?_⟩
      rw [hblocks, ← hmax, List.take_left, List.append_nil]
      exact hsends.sends

theorem sent_start {parts : ℕ → Option (Str × Bytes)} (hopen : kept st dest uploadId = some parts) :
    Sent kept dest uploadId (svc.content st) st .start [] where
  content := rfl
  parts := ⟨parts, hopen, rfl⟩
  numbers := rfl
  next := rfl
  few := Nat.zero_le _

theorem after_multipartUploadParts (hs : svc.Stores) (hm : svc.Multipart kept) {sources : List Str}
    {cs : List Bytes} (hcs : svc.contents st sources = some cs)
    (hopen : (kept st dest uploadId).isSome) :
    After svc.impl (multipartUploadParts s id dest uploadId sources) st
      (Assembled kept dest uploadId (svc.content st) cs.flatten) := by
  obtain ⟨parts, hparts⟩ := Option.isSome_iff_exists.mp hopen
  apply After.bind (after_readSources hm hs hcs (sent_start hparts) min_pos)
  · rintro a st' l ⟨blocks, hcut, hshort, hsends⟩
    rw [show Assembly.start.buffer = [] from rfl, List.nil_append] at hcut
    have hchunks := hcut.chunks min_pos
    have hnone : a.completed = [] ↔ blocks = [] := by
      have hlength := congrArg List.length hsends.sent.numbers
      rw [List.length_map, List.length_range', List.nil_append] at hlength
      rw [← List.length_eq_zero_iff, ← List.length_eq_zero_iff, hlength]
    split
    · next hempty =>
        obtain ⟨hbuffer, hcompleted⟩ := hempty
        obtain rfl := hnone.mp hcompleted
        have hdata : cs.flatten = [] := by rw [hcut.eq, hbuffer, List.flatten_nil, List.nil_append]
        apply after_lastPart hm hsends
        rw [hdata]
        rfl
    · next hnonempty =>
        have hdata : cs.flatten ≠ [] := by
          intro hnil
          rw [hcut.eq, List.append_eq_nil_iff] at hnil
          apply hnonempty
          refine ⟨hnil.2, hnone.mpr ?_⟩
          by_contra hne
          obtain ⟨block, hblock⟩ := List.exists_mem_of_ne_nil _ hne
          have hlength := hcut.length block hblock
          rw [List.flatten_eq_nil_iff.mp hnil.1 block hblock, List.length_nil] at hlength
          have hpos := min_pos
          omega
        have hblocks : blocksOf cs.flatten = blocks ++ Text.chunks MIN_MULTIPART_PART a.buffer := by
          rw [blocksOf, if_neg hdata, hchunks]
        split
        · next hbuffer =>
            apply after_lastPart hm hsends
            rw [hblocks, Text.chunks_eq_singleton min_pos hbuffer hshort.le]
        · next hbuffer =>
            apply After.ret
            refine ⟨a, rfl, ?_⟩
            rw [hblocks, not_not.mp hbuffer, Text.chunks_nil min_pos, List.append_nil,
              List.append_nil]
            exact hsends
  · rintro e st' l ⟨blocks, ⟨rest, hrest, hcut⟩, hlimit, hsends⟩
    rw [show Assembly.start.buffer = [] from rfl, List.nil_append] at hcut
    have hdata : cs.flatten ≠ [] := by
      rw [hcut.eq]
      intro hnil
      exact hrest (List.append_eq_nil_iff.mp hnil).2
    have hblocks : blocksOf cs.flatten = blocks ++ Text.chunks MIN_MULTIPART_PART rest := by
      rw [blocksOf, if_neg hdata, hcut.chunks min_pos]
    rw [List.length_nil, Nat.zero_add] at hlimit
    rw [Assembled, hblocks]
    refine ⟨?_, ?_⟩
    · rw [Text.chunks_eq_cons min_pos hrest, List.length_append, List.length_cons]
      omega
    · rw [← hlimit, List.take_left]
      exact hsends

/-- With no failing call, the sources go out as the blocks their bytes are
made of, numbered from one, and the completed list has these parts. Of more
blocks than there may be parts only so many go out, and the call fails. -/
theorem multipart_upload_parts_blocks (hs : svc.Stores) (hm : svc.Multipart kept)
    {sources : List Str} {cs : List Bytes} (hcs : svc.contents st sources = some cs)
    (hopen : (kept st dest uploadId).isSome) :
    let program := multipartUploadParts s id dest uploadId sources
    let calls := program.trace svc.impl st
    let blocks := blocksOf cs.flatten
    (blocks.length ≤ MAX_MULTIPART_PARTS →
      (program.run svc.impl st).1 = .ok (acks calls) ∧
        sends calls = numbered dest uploadId 1 blocks ∧
        (acks calls).map Prod.snd = List.range' 1 blocks.length) ∧
    (MAX_MULTIPART_PARTS < blocks.length →
      (∃ e, (program.run svc.impl st).1 = .error e) ∧
        sends calls = numbered dest uploadId 1 (blocks.take MAX_MULTIPART_PARTS)) := by
  intro program calls blocks
  have hafter : Assembled kept dest uploadId (svc.content st) cs.flatten
      (program.run svc.impl st).1 (program.run svc.impl st).2 calls :=
    after_multipartUploadParts hs hm hcs hopen
  cases hrun : (program.run svc.impl st).1 with
  | ok completed =>
      rw [hrun] at hafter
      obtain ⟨a, rfl, hsends⟩ := hafter
      have hacks : a.completed = acks calls := hsends.acks
      have hfew : blocks.length ≤ MAX_MULTIPART_PARTS := hsends.sent.few
      refine ⟨fun _ => ⟨congrArg Except.ok hacks, hsends.sends, ?_⟩, fun hmany => by omega⟩
      rw [← hacks]
      exact hsends.sent.numbers
  | error e =>
      rw [hrun] at hafter
      obtain ⟨hmany, hsends⟩ := hafter
      exact ⟨fun hfew => absurd hfew (Nat.not_le_of_lt hmany), fun _ => ⟨⟨e, rfl⟩, hsends⟩⟩

namespace TwoSources

def bucket : ObjectStore := ⟨.s3, [], .json, slashed_nil⟩

def upload : UploadId := ⟨"u".toList⟩

def sources : List Str := ["a".toList, "b".toList]

/-- Two bytes and one byte. -/
def before : Bucket.service.State := (Bucket.empty.put "a".toList [1, 2]).put "b".toList [3]

end TwoSources

open TwoSources in
theorem multipart_upload_parts_blocks_two :
    let program := multipartUploadParts bucket upload "u".toList "0".toList sources
    let calls := program.trace Bucket.service.impl before
    (program.run Bucket.service.impl before).1 = .ok (acks calls) ∧
      sends calls = [.uploadPart "u".toList "0".toList 1 [1, 2, 3]] := by
  intro program calls
  have hcs : Bucket.service.contents before sources = some [[1, 2], [3]] := by decide +kernel
  have hblocks : blocksOf [[1, 2], [3]].flatten = [[1, 2, 3]] :=
    Text.chunks_eq_singleton min_pos (List.cons_ne_nil _ _) (by decide)
  obtain ⟨hfew, -⟩ := @multipart_upload_parts_blocks Bucket.service Bucket.kept bucket upload
    "u".toList "0".toList before Bucket.stores Bucket.multipart sources _ hcs rfl
  rw [hblocks] at hfew
  obtain ⟨hresult, hsends, -⟩ := hfew (by decide)
  exact ⟨hresult, hsends⟩

end Fileloft.S3Upload
