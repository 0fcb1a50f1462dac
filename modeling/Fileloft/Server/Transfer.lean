import Fileloft.Server.Ending
import Fileloft.Server.Fresh
import Fileloft.Server.Patch

/-!
# Sending a file in pieces

Clients send pieces of one file, again and again, until the server has all
of it. Whatever is lost on the way or sent twice, the upload stays a
beginning of the file.
-/

namespace Fileloft

open Handler Pool

/-- What a store keeps of one upload. -/
structure Content where
  info : UploadInfo
  chunks : List Bytes
  joined : Bool
  measured : info.offset = chunks.flatten.length

namespace Content

variable (c : Content)

def append (buf : Bytes) : Content where
  info := { c.info with offset := c.info.offset + buf.length }
  chunks := c.chunks ++ [buf]
  joined := c.joined
  measured := by simp [c.measured]

def declare (length : ℕ) : Content :=
  { c with info := { c.info with size := some length, sizeIsDeferred := false } }

def join : Content := { c with joined := true }

end Content

/-- A store that keeps the chunks of the upload `id`. Some stores only work
for the ids they accept, some do not tolerate every call on other uploads,
and some run out of room for chunks. -/
structure Keeper {σ : Type} (impl : Interp StoreSig σ) (id : UploadId) where
  accepts : UploadId → Prop
  holds : Content → σ → Prop
  tolerates : StoreOp → Prop
  room : List Bytes → Prop
  accepted : accepts id
  establishes : ∀ {c s o}, holds c s → tolerates o → Establishes accepts (.store o) (impl o s).1
  found : ∀ {c s}, holds c s → (impl (.getUpload id) s).1 = .ok ()
  record : ∀ {c s}, holds c s → (impl (.getInfo id) s).1 = .ok c.info
  read : ∀ {c s o}, holds c s → Reads id o → holds c (impl o s).2
  spared : ∀ {c s o}, holds c s → tolerates o → (∀ i ∈ o.handle, accepts i) → o.target ≠ id →
    holds c (impl o s).2
  written : ∀ {c s reader n}, holds c s → c.joined = false →
    (impl (.writeChunk id c.info.offset reader) s).1 = .ok n →
      ∃ buf, reader = .ok buf ∧ (room (c.chunks ++ [buf]) →
        holds (c.append buf) (impl (.writeChunk id c.info.offset reader) s).2)
  refused : ∀ {c s reader e}, holds c s →
    (impl (.writeChunk id c.info.offset reader) s).1 = .error e →
      holds c (impl (.writeChunk id c.info.offset reader) s).2
  fits : ∀ {c s buf n}, holds c s → chunkEnd c.info c.info.offset buf.length = .ok n →
    ∃ m, (impl (.writeChunk id c.info.offset (.ok buf)) s).1 = .ok m
  declared : ∀ {c s}, holds c s → c.info.size = none → ∀ length,
    (impl (.declareLength id length) s).1 = .ok () ∧
      holds (c.declare length) (impl (.declareLength id length) s).2
  joins : ∀ {c s}, holds c s → c.joined = false → room c.chunks →
    (impl (.finalize id) s).1 = .ok () ∧ holds c.join (impl (.finalize id) s).2
  content : ∀ {c s bytes}, holds c s → c.info.isComplete = true →
    (impl (.readContent id) s).1 = .ok bytes → bytes = c.chunks.flatten
  downloads : ∀ {c s}, holds c s → c.info.isComplete = true → c.joined = true →
    (impl (.readContent id) s).1 = .ok c.chunks.flatten

namespace Transfer

variable {σ γ α : Type} {impl : Interp StoreSig σ} {id : UploadId} {h : TusHandler}
  {obs : Observer σ γ}

/-- The upload that was opened with the record `first` is a beginning of the
file. -/
structure Begins (file : Bytes) (first : UploadInfo) (c : Content) : Prop where
  bytes : c.chunks.flatten <+: file
  same : ∃ offset size sizeIsDeferred, c.info = { first with offset, size, sizeIsDeferred }
  sized : c.info.size = some file.length ∨ c.info.size = none ∧ c.info.sizeIsDeferred = true
  whole : c.joined = true → c.info.isComplete = true

variable {file : Bytes} {first : UploadInfo} {c : Content}

theorem Begins.eq_take (hc : Begins file first c) : c.chunks.flatten = file.take c.info.offset := by
  rw [c.measured]
  exact List.prefix_iff_eq_take.mp hc.bytes

theorem Begins.offset_of_complete (hc : Begins file first c)
    (hcomplete : c.info.isComplete = true) :
    c.info.offset = file.length := by
  have hsize := UploadInfo.isComplete_iff.mp hcomplete
  rcases hc.sized with hsized | ⟨hnone, -⟩
  · exact Option.some.inj (hsize.symm.trans hsized)
  · rw [hnone] at hsize
    cases hsize

/-- A complete upload is the file. -/
theorem Begins.eq_file (hc : Begins file first c) (hcomplete : c.info.isComplete = true) :
    c.chunks.flatten = file := by
  rw [hc.eq_take, hc.offset_of_complete hcomplete, List.take_length]

theorem Begins.not_joined (hc : Begins file first c) (hoffset : c.info.offset < file.length) :
    c.joined = false := by
  cases hjoined : c.joined with
  | false => rfl
  | true =>
      have hwhole := hc.offset_of_complete (hc.whole hjoined)
      omega

theorem Begins.append (hc : Begins file first c)
    {buf : Bytes} (hbuf : buf <+: file.drop c.info.offset)
    (hoffset : c.info.offset < file.length) : Begins file first (c.append buf) := by
  obtain ⟨offset, size, sizeIsDeferred, hsame⟩ := hc.same
  refine ⟨?_, ⟨c.info.offset + buf.length, size, sizeIsDeferred, ?_⟩, hc.sized, fun hjoined => ?_⟩
  · have hflatten : (c.append buf).chunks.flatten = c.chunks.flatten ++ buf := by
      simp [Content.append]
    rw [hflatten, hc.eq_take]
    obtain ⟨rest, hrest⟩ := hbuf
    refine ⟨rest, ?_⟩
    rw [List.append_assoc, hrest, List.take_append_drop]
  · simp only [Content.append, hsame]
  · rw [Content.append, hc.not_joined hoffset] at hjoined
    cases hjoined

theorem Begins.declare (hc : Begins file first c) (hnone : c.info.size = none) :
    Begins file first (c.declare file.length) := by
  obtain ⟨offset, size, sizeIsDeferred, hsame⟩ := hc.same
  refine ⟨hc.bytes, ⟨offset, some file.length, false, ?_⟩, .inl rfl, fun hjoined => ?_⟩
  · simp only [Content.declare, hsame]
  · have hcomplete := UploadInfo.isComplete_iff.mp (hc.whole hjoined)
    rw [hnone] at hcomplete
    cases hcomplete

theorem Begins.join (hc : Begins file first c) (hcomplete : c.info.isComplete = true) :
    Begins file first c.join := ⟨hc.bytes, hc.same, hc.sized, fun _ => hcomplete⟩

/-! ## The clients -/

/-- A PATCH offers bytes of the file where it says that they are. -/
structure Offers (file : Bytes) (q : TusRequest) : Prop where
  inside : ∀ n, parseUploadOffset q.headers = .ok n → n < file.length
  piece : ∀ n buf, parseUploadOffset q.headers = .ok n → q.body = some (.ok buf) →
    buf <+: file.drop n
  length : ∀ n, parseUploadLength q.headers = .ok (some n) → n = file.length

variable (K : Keeper impl id)

/-- Nobody opens the upload again or removes it, the calls on other uploads
are tolerated, and there is room for the next chunk. -/
structure Allows (o : StoreOp) (s : Shared σ γ) : Prop where
  kept : ¬ Renews id o ∧ o ≠ .delete id
  tolerated : K.tolerates o
  room : ∀ offset buf, o = .writeChunk id offset (.ok buf) →
    ∀ c, K.holds c s.store → K.room (c.chunks ++ [buf])

/-- The clients that send the file, among others. -/
structure Sends (file : Bytes) (c : Clients σ γ) (m : ClientMove) : Prop where
  start : ∀ t q, m = .start t q → q.method = .patch → requestId q = .ok id → Offers file q
  step : ∀ t env q o k, m = .step t env → c.threads t = .running q (.op (.store o) k) →
    Allows K o c.shared

/-- At least `n` bytes are stored. -/
def Stored (n : ℕ) (s : Shared σ γ) : Prop := ∃ c, K.holds c s.store ∧ n ≤ c.info.offset

def discipline (file : Bytes) (first : UploadInfo) : Discipline HandlerSig ℕ (Shared σ γ) where
  rely t s s' := SameLocks t s s' ∧ (Held t id s → ∀ c, K.holds c s.store → K.holds c s'.store) ∧
    ∀ n, Stored K n s → Stored K n s'
  inv s := ∃ c, K.holds c s.store ∧ Begins file first c
  allowed _ o s := ∀ so, o = .store so → Allows K so s
  refl _ _ := ⟨fun _ => Iff.rfl, fun _ _ hs => hs, fun _ hs => hs⟩
  trans h h' := ⟨h.1.trans h'.1, fun hheld c hc => h'.2.1 ((h.1 id).mpr hheld) c (h.2.1 hheld c hc),
    fun n hn => h'.2.2 n (h.2.2 n hn)⟩

variable {K} {t : ℕ} {s s' : Shared σ γ} {A E : Shared σ γ → Prop}

theorem stable_held {i : UploadId} : Stable (discipline (γ := γ) K file first) t (Held t i) :=
  fun _ _ hrely hs => (hrely.1 i).mpr hs

/-- The client has the lock of the upload, and this is what is stored. -/
def Has (K : Keeper impl id) (t : ℕ) (c : Content) (s : Shared σ γ) : Prop :=
  Held t id s ∧ K.holds c s.store

theorem stable_has : Stable (discipline (γ := γ) K file first) t (Has K t c) :=
  fun s s' hrely hs => ⟨stable_held s s' hrely hs.1, hrely.2.1 hs.1 c hs.2⟩

theorem stable_stored {n : ℕ} : Stable (discipline (γ := γ) K file first) t (Stored K n) :=
  fun _ _ hrely hs => hrely.2.2 n hs

theorem stable_true : Stable (discipline (γ := γ) K file first) t fun _ => True :=
  fun _ _ _ _ => trivial

theorem info_eq {c c' : Content} {st : σ} (hc : K.holds c st) (hc' : K.holds c' st) :
    c.info = c'.info := Except.ok.inj ((K.record hc).symm.trans (K.record hc'))

/-! ### Moves -/

/-- A move that leaves the store alone. -/
theorem keeps_of_store (hinv : (discipline K file first).inv s) (hstore : s'.store = s.store)
    (hlocks : ∀ t', t' ≠ t → SameLocks t' s s') : Keeps (discipline K file first) t s s' := by
  have hstored (n : ℕ) (hn : Stored K n s) : Stored K n s' := by
    rw [Stored, hstore]
    exact hn
  refine ⟨?_, fun t' ht => ⟨hlocks t' ht, fun _ c hc => ?_, hstored⟩⟩
  · obtain ⟨c, hc, hbegins⟩ := hinv
    exact ⟨c, hstore ▸ hc, hbegins⟩
  · rw [hstore]
    exact hc

theorem keeps_granted {i : UploadId} (hinv : (discipline K file first).inv s)
    (hfree : s.holder i = none) :
    Keeps (discipline K file first) t s (s.granted obs t i) :=
  keeps_of_store hinv rfl fun _ ht => sameLocks_granted ht hfree

theorem keeps_released {i : UploadId} (hinv : (discipline K file first).inv s)
    (hheld : Held t i s) :
    Keeps (discipline K file first) t s (s.released i) :=
  keeps_of_store hinv rfl fun _ ht => sameLocks_released ht hheld

/-- A call that leaves the upload alone. -/
theorem called_spared {o : StoreOp} (hinv : (discipline K file first).inv s)
    (hsame : ∀ c, K.holds c s.store → K.holds c (impl o s.store).2) :
    Keeps (discipline K file first) t s (s.called impl obs t o) ∧
      (discipline K file first).rely t s (s.called impl obs t o) := by
  have hrely (t' : ℕ) : (discipline K file first).rely t' s (s.called impl obs t o) := by
    refine ⟨fun _ => Iff.rfl, fun _ => hsame, fun n hn => ?_⟩
    obtain ⟨c, hc, hle⟩ := hn
    exact ⟨c, hsame c hc, hle⟩
  obtain ⟨c, hc, hbegins⟩ := hinv
  exact ⟨⟨⟨c, hsame c hc, hbegins⟩, fun t' _ => hrely t'⟩, hrely t⟩

/-- A call that changes the upload, by the client that has its lock. -/
theorem keeps_changed {o : StoreOp} {c' : Content} (hs : Has K t c s)
    (hc' : K.holds c' (s.called impl obs t o).store) (hbegins : Begins file first c')
    (hle : c.info.offset ≤ c'.info.offset) :
    Keeps (discipline K file first) t s (s.called impl obs t o) := by
  refine ⟨⟨c', hc', hbegins⟩, fun t' ht => ⟨fun _ => Iff.rfl, fun hheld => ?_, fun n hn => ?_⟩⟩
  · exact absurd (Option.some.inj (hheld.symm.trans hs.1)) ht
  · obtain ⟨c₁, hc₁, hn⟩ := hn
    rw [info_eq hc₁ hs.2] at hn
    exact ⟨c', hc', hn.trans hle⟩

/-! ### Other requests -/

/-- A call that only reads the upload, or one that is not allowed on it. -/
def Bystands (id : UploadId) (o : StoreOp) : Prop :=
  o.target = id → Reads id o ∨ Renews id o ∨ o = .delete id

theorem bystands_of_ne {o : StoreOp} (hne : o.target ≠ id) : Bystands id o :=
    fun heq => absurd heq hne

theorem reads_of_allows {o : StoreOp} (ho : Bystands id o) (hallows : Allows K o s)
    (htarget : o.target = id) : Reads id o := by
  rcases ho htarget with hreads | hrenews | hdelete
  · exact hreads
  · exact absurd hrenews hallows.kept.1
  · exact absurd hdelete hallows.kept.2

theorem bystands_of_reads {i : UploadId} {o : StoreOp} (ho : Reads i o) : Bystands id o := by
  intro htarget
  have hi : i = o.target := by
    cases o with
    | getUpload _ | getInfo _ | readContent _ => exact ho.symm
    | _ => cases ho
  rw [hi.trans htarget] at ho
  exact .inl ho

theorem bystands_of_deletes {i : UploadId} {o : StoreOp} (ho : Deletes i o) : Bystands id o := by
  cases o with
  | getUpload j => exact fun htarget => .inl htarget
  | getInfo j => exact fun htarget => .inl htarget
  | delete j => exact fun htarget => .inr (.inr (congrArg StoreOp.delete htarget))
  | _ => cases ho

theorem bystands_of_appends {i : UploadId} {o : StoreOp} (ho : Appends i o) (hne : i ≠ id) :
    Bystands id o := by
  apply bystands_of_ne
  cases o with
  | getUpload _ | getInfo _ | declareLength _ _ | writeChunk _ _ _ | finalize _ => exact ho ▸ hne
  | _ => cases ho

theorem bystands_of_fills {i : UploadId} {o : StoreOp} (ho : Fills i o) (hne : i ≠ id) :
    Bystands id o := by
  cases o with
  | getUpload j => exact fun htarget => .inl htarget
  | getInfo j => exact fun htarget => .inl htarget
  | delete j => exact fun htarget => .inr (.inr (congrArg StoreOp.delete htarget))
  | concatenate _ _ | writeChunk _ _ _ | finalize _ => exact bystands_of_ne (ho ▸ hne)
  | _ => cases ho

/-- A request that stands by keeps the discipline, whatever it does with the
locks. -/
theorem triple_bystands {p : Handler α} {held : Option UploadId}
    (hlocks : p.Locks handlerLocking held) (hp : Makes (Bystands id) K.accepts p) :
    Triple (clients h impl obs) (discipline K file first) t (fun s => ∀ i ∈ held, Held t i s) p
      (fun _ _ => True) fun _ => True := by
  induction p generalizing held with
  | ret a => exact .ret fun _ _ _ => trivial
  | fail e => exact .fail fun _ _ _ => trivial
  | op o k ih =>
      obtain ⟨ho, hk⟩ := hp
      have hheld : Stable (discipline (γ := γ) K file first) t fun s => ∀ i ∈ held, Held t i s :=
        fun s s' hrely hs i hi => stable_held s s' hrely (hs i hi)
      have hsilent (hlocks : ∀ r, (k r).Locks handlerLocking held)
          (hestablishes : ∀ r, Establishes K.accepts o r)
          (hact : ∀ env s r s', act impl obs env t o s = some (r, s') →
            s'.store = s.store ∧ s'.holder = s.holder) :
          Triple (clients h impl obs) (discipline K file first) t (fun s => ∀ i ∈ held, Held t i s)
            (.op o k) (fun _ _ => True) fun _ => True := by
        apply Triple.op (C := fun _ s => ∀ i ∈ held, Held t i s) hheld
        · intro s env r s' hinv _ hs hr
          obtain ⟨hstore, hholder⟩ := hact env s r s' hr
          have hsame (t' : ℕ) : SameLocks t' s s' := fun i => by rw [hholder]
          exact ⟨keeps_of_store hinv hstore fun t' _ => hsame t', fun i hi =>
            (hsame t i).mpr (hs i hi)⟩
        · exact fun r => ih r (hlocks r) (hk r (hestablishes r))
      cases o with
      | store o =>
          have hrest := (Prog.locks_other rfl).mp hlocks
          apply Triple.op (C := fun r s => Establishes K.accepts (.store o) r ∧
            ∀ i ∈ held, Held t i s)
            hheld
          · intro s env r s' hinv hallowed hs hr
            obtain ⟨rfl, rfl⟩ := Prod.mk.inj (Option.some.inj hr)
            have hallows := hallowed o rfl
            have hsame (c : Content) (hc : K.holds c s.store) : K.holds c (impl o s.store).2 := by
              by_cases htarget : o.target = id
              · exact K.read hc (reads_of_allows ho.1 hallows htarget)
              · exact K.spared hc hallows.tolerated ho.2 htarget
            obtain ⟨hkeeps, hrely⟩ := @called_spared _ _ impl id obs file first K t s o hinv hsame
            obtain ⟨c, hc, -⟩ := hinv
            exact ⟨hkeeps, K.establishes hc hallows.tolerated, hheld s _ hrely hs⟩
          · intro r
            apply Triple.fact
            exact fun hr => ih r (hrest r) (hk r hr)
      | acquire i =>
          obtain ⟨rfl, hrest⟩ := (Prog.locks_acquire (i := i) rfl).mp hlocks
          apply Triple.op (C := fun (r : Except TusError Unit) s => r = .ok () → Held t i s) hheld
          · intro s env r s' hinv _ _ hr
            obtain ⟨-, ⟨rfl, hfree, rfl⟩ | ⟨e, rfl, rfl⟩⟩ := act_acquire impl hr
            · exact ⟨keeps_granted hinv hfree, fun _ => held_granted obs t i s⟩
            · exact ⟨keeps_of_store hinv rfl fun _ _ _ => Iff.rfl, fun heq => by cases heq⟩
          · intro r
            cases r with
            | ok u =>
                apply (ih (.ok u) ((hrest _).1 rfl) (hk _ trivial)).pre
                rintro s - hs j ⟨⟩
                exact hs rfl
            | error e =>
                apply (ih (.error e) ((hrest _).2 fun heq => by cases heq) (hk _ trivial)).pre
                exact fun _ _ _ _ hj => by cases hj
      | release i =>
          obtain ⟨rfl, hrest⟩ := (Prog.locks_release (i := i) rfl).mp hlocks
          apply Triple.op (C := fun _ _ => True) hheld
          · intro s env r s' hinv _ hs hr
            obtain ⟨rfl, rfl⟩ := Prod.mk.inj (Option.some.inj hr)
            exact ⟨keeps_released hinv (hs i rfl), trivial⟩
          · intro r
            apply (ih r (hrest r) (hk r trivial)).pre
            exact fun _ _ _ _ hj => by cases hj
      | _ =>
          apply hsilent ((Prog.locks_other rfl).mp hlocks) fun _ => trivial
          rintro env s r s' ⟨⟩
          exact ⟨rfl, rfl⟩

/-! ### The clients of the upload -/

/-- A call that reads the upload, and what its answer says. -/
theorem triple_read {o : StoreOp} {C : o.Val → Shared σ γ → Prop} (ho : Reads id o)
    (hA : Stable (discipline K file first) t A) (hC : ∀ a, Stable (discipline K file first) t (C a))
    (hE : ∀ s, A s → E s)
    (hanswer : ∀ s c a, K.holds c s.store → Begins file first c → A s →
      (impl o s.store).1 = .ok a → C a s) :
    Triple (clients h impl obs) (discipline K file first) t A (store o) C E := by
  apply triple_store hA
  intro s hinv _ hs
  obtain ⟨hkeeps, hrely⟩ := @called_spared _ _ impl id obs file first K t s o hinv
    fun _ hc => K.read hc ho
  obtain ⟨c, hc, hbegins⟩ := hinv
  refine ⟨hkeeps, fun a ha => ?_, fun e _ => hE _ (hA _ _ hrely hs)⟩
  exact hC a _ _ hrely (hanswer s c a hc hbegins hs ha)

theorem triple_found (hA : Stable (discipline K file first) t A) (hE : ∀ s, A s → E s) :
    Triple (clients h impl obs) (discipline K file first) t A (getUpload id) (fun _ => A) E :=
  triple_read (o := .getUpload id) rfl hA (fun _ => hA) hE fun _ _ _ _ _ hs _ => hs

theorem stable_fact {F : Prop} (hA : Stable (discipline (γ := γ) K file first) t A) :
    Stable (discipline K file first) t fun s => F ∧ A s :=
  fun s s' hrely hs => ⟨hs.1, hA s s' hrely hs.2⟩

/-- The record, read under the lock. -/
theorem triple_record :
    Triple (clients h impl obs) (discipline K file first) t (Has K t c) (getInfo id)
      (fun info s => info = c.info ∧ Has K t c s) (Held t id) := by
  apply triple_read (o := .getInfo id) rfl stable_has (fun _ => stable_fact stable_has)
    fun _ hs => hs.1
  intro s c' info _ _ hs hinfo
  exact ⟨Except.ok.inj (hinfo.symm.trans (K.record hs.2)), hs⟩

/-- What is known of the upload when its lock is taken. -/
theorem has_of_held (hinv : (discipline K file first).inv s) (hs : Held t id s) :
    ∃ c, Begins file first c ∧ Has K t c s := by
  obtain ⟨c, hc, hbegins⟩ := hinv
  exact ⟨c, hbegins, hs, hc⟩

/-- Work on what is found under the lock. -/
theorem triple_locked {p : Handler α} {B : α → Shared σ γ → Prop} (hlocker : h.hasLocker = true)
    (hB : ∀ a, Stable (discipline K file first) t (B a))
    (hrelease : ∀ a s, B a s → B a (s.released id))
    (hp : ∀ c, Begins file first c → Triple (clients h impl obs) (discipline K file first) t
      (Has K t c) p (fun a s => Held t id s ∧ B a s) (Held t id)) :
    Triple (clients h impl obs) (discipline K file first) t (fun _ => True) (withLock h id p) B
      fun _ => True := by
  have hwork : Triple (clients h impl obs) (discipline K file first) t (Held t id) p
      (fun a s => Held t id s ∧ B a s) (Held t id) := by
    intro s hinv hs
    obtain ⟨c, hbegins, hhas⟩ := has_of_held hinv hs
    exact hp c hbegins s hinv hhas
  refine triple_withLock hlocker stable_true ?_ ?_ hwork ?_ stable_held ?_
  · exact fun s hinv _ => ⟨keeps_of_store hinv rfl fun _ _ _ => Iff.rfl, trivial⟩
  · exact fun s hinv _ hfree => ⟨keeps_granted hinv hfree, held_granted obs t id s⟩
  · exact fun a s s' hrely hs => ⟨stable_held s s' hrely hs.1, hB a s s' hrely hs.2⟩
  · intro r s hinv hs
    cases r with
    | ok a => exact ⟨keeps_released hinv hs.1, hrelease a s hs.2⟩
    | error e => exact ⟨keeps_released hinv hs, trivial⟩

/-- The answer tells an offset up to which the file is stored. -/
def Tells (K : Keeper impl id) (resp : TusResponse) (s : Shared σ γ) : Prop :=
  ∃ n, HeaderMap.get resp.headers .uploadOffset = some (u64Header n) ∧ Stored K n s

theorem stable_tells {resp : TusResponse} :
    Stable (discipline (γ := γ) K file first) t (Tells K resp) := by
  intro s s' hrely hs
  obtain ⟨n, hresp, hn⟩ := hs
  exact ⟨n, hresp, stable_stored s s' hrely hn⟩

theorem triple_head {q : TusRequest} (hid : requestId q = .ok id) :
    Triple (clients h impl obs) (discipline K file first) t (fun _ => True) (Head.handle h q)
      (Tells K) fun _ => True := by
  unfold Head.handle
  apply (triple_check fun _ _ _ => trivial).bind
  intro _
  apply Triple.fact
  intro _
  rw [hid]
  apply (triple_found stable_true fun _ _ => trivial).bind
  intro _
  have hrecord : Triple (clients h impl obs) (discipline K file first) t
      (fun _ => True) (getInfo id) (fun info => Stored K info.offset) fun _ => True := by
    apply triple_read (o := .getInfo id) rfl stable_true (fun _ => stable_stored) fun _ _ => trivial
    intro s c info hc _ _ hinfo
    obtain rfl := Except.ok.inj (hinfo.symm.trans (K.record hc))
    exact ⟨c, hc, le_refl _⟩
  apply hrecord.bind
  intro info
  apply (triple_checkExpiry stable_stored fun _ _ _ => trivial).bind
  intro _
  exact .ret fun s _ hs => ⟨info.offset, Head.get_uploadOffset h info, hs⟩

theorem triple_get {q : TusRequest} (hlocker : h.hasLocker = true) (hid : requestId q = .ok id) :
    Triple (clients h impl obs) (discipline K file first) t (fun _ => True) (Get.handle h q)
      (fun resp _ => resp.body = .reader file) fun _ => True := by
  unfold Get.handle
  apply (triple_ensure fun _ _ _ => trivial).bind
  intro _
  apply Triple.fact
  intro _
  rw [hid]
  apply triple_locked hlocker (fun _ _ _ _ hs => hs) fun _ _ hs => hs
  intro c hbegins
  apply (triple_found stable_has fun _ hs => hs.1).bind
  intro _
  apply triple_record.bind
  intro info
  apply Triple.fact
  rintro rfl
  apply (triple_checkExpiry stable_has fun _ _ hs => hs.1).bind
  intro _
  apply (triple_ensure fun _ _ hs => hs.1).bind
  intro _
  apply Triple.fact
  intro hcomplete
  have hcontent : Triple (clients h impl obs) (discipline K file first) t (Has K t c)
      (readContent id) (fun bytes s => bytes = file ∧ Has K t c s) (Held t id) := by
    apply triple_read (o := .readContent id) rfl stable_has (fun _ => stable_fact stable_has)
      fun _ hs => hs.1
    intro s _ bytes _ _ hs hbytes
    exact ⟨(K.content hs.2 hcomplete hbytes).trans (hbegins.eq_file hcomplete), hs⟩
  apply hcontent.bind
  intro bytes
  apply Triple.fact
  rintro rfl
  exact .ret fun _ _ hs => ⟨hs.1, rfl⟩

/-! ### Sending a piece -/

/-- The upload is as it was, or has the piece in addition. -/
theorem triple_write {reader : Reader} (hbegins : Begins file first c)
    (hoffset : c.info.offset < file.length)
    (hreader : ∀ buf, reader = .ok buf → buf <+: file.drop c.info.offset) :
    Triple (clients h impl obs) (discipline K file first) t (Has K t c)
      (writeChunk id c.info.offset reader)
      (fun _ s => ∃ buf, (buf <+: file.drop c.info.offset ∧ K.room (c.chunks ++ [buf])) ∧
        Has K t (c.append buf) s) (Held t id) := by
  apply triple_store (o := .writeChunk id c.info.offset reader) stable_has
  intro s hinv hallowed hs
  cases hans : (impl (.writeChunk id c.info.offset reader) s.store).1 with
  | ok n =>
      obtain ⟨buf, rfl, hnext⟩ := K.written hs.2 (hbegins.not_joined hoffset) hans
      have hroom := (hallowed _ rfl).room _ _ rfl c hs.2
      have hpiece := hreader buf rfl
      refine ⟨keeps_changed hs (hnext hroom) (hbegins.append hpiece hoffset) (Nat.le_add_right _ _),
        ?_, ?_⟩
      · exact fun _ _ => ⟨buf, ⟨hpiece, hroom⟩, hs.1, hnext hroom⟩
      · exact fun _ _ => hs.1
  | error e =>
      refine ⟨keeps_changed hs (K.refused hs.2 hans) hbegins (le_refl _), ?_, fun _ _ => hs.1⟩
      exact fun a ha => by cases ha

theorem triple_declare (hbegins : Begins file first c) (hnone : c.info.size = none) :
    Triple (clients h impl obs) (discipline K file first) t (Has K t c)
      (declareLength id file.length) (fun _ => Has K t (c.declare file.length)) (Held t id) := by
  apply triple_store (o := .declareLength id file.length) stable_has
  intro s hinv _ hs
  have hnext := (K.declared hs.2 hnone file.length).2
  exact ⟨keeps_changed hs hnext (hbegins.declare hnone) (le_refl _), fun _ _ => ⟨hs.1, hnext⟩,
    fun _ _ => hs.1⟩

theorem triple_finish (hbegins : Begins file first c) (hjoined : c.joined = false)
    (hroom : K.room c.chunks) :
    Triple (clients h impl obs) (discipline K file first) t (Has K t c) (Patch.finish h id)
      (fun resp s => Held t id s ∧ Tells K resp s) (Held t id) := by
  unfold Patch.finish
  apply triple_record.bind
  intro info
  apply Triple.fact
  rintro rfl
  apply (triple_emit stable_has).bind
  intro _
  have hstored : Stable (discipline (γ := γ) K file first) t
      fun s => Held t id s ∧ Stored K c.info.offset s :=
    fun s s' hrely hs => ⟨stable_held s s' hrely hs.1, stable_stored s s' hrely hs.2⟩
  have hcompleting : Triple (clients h impl obs) (discipline K file first) t (Has K t c)
      (finishIfComplete h id c.info) (fun _ s => Held t id s ∧ Stored K c.info.offset s)
      (Held t id) := by
    unfold finishIfComplete
    split
    · next hcomplete =>
        apply (triple_preFinish stable_has fun _ _ hs => hs.1).bind
        intro _
        have hjoin : Triple (clients h impl obs) (discipline K file first) t (Has K t c)
            (finalize id) (fun _ s => Held t id s ∧ Stored K c.info.offset s) (Held t id) := by
          apply triple_store (o := .finalize id) stable_has
          intro s hinv _ hs
          have hnext := (K.joins hs.2 hjoined hroom).2
          exact ⟨keeps_changed hs hnext (hbegins.join hcomplete) (le_refl _),
            fun _ _ => ⟨hs.1, c.join, hnext, le_refl _⟩, fun _ _ => hs.1⟩
        apply hjoin.bind
        intro _
        exact triple_emit hstored
    · exact .ret fun s _ hs => ⟨hs.1, c, hs.2, le_refl _⟩
  apply hcompleting.bind
  intro _
  exact .ret fun s _ hs => ⟨hs.1, c.info.offset, Patch.get_uploadOffset h c.info, hs.2⟩

/-- A PATCH that offers a piece of the file. -/
theorem triple_patch {q : TusRequest} (hlocker : h.hasLocker = true) (hid : requestId q = .ok id)
    (hoffers : Offers file q) :
    Triple (clients h impl obs) (discipline K file first) t (fun _ => True) (Patch.handle h q)
      (Tells K) fun _ => True := by
  unfold Patch.handle
  apply (triple_check fun _ _ _ => trivial).bind
  rintro ⟨offset, i⟩
  apply Triple.fact
  intro hparse
  obtain rfl := Except.ok.inj ((Patch.requestId_of_parse hparse).symm.trans hid)
  have hheader := Patch.offset_of_parse hparse
  apply triple_locked hlocker (fun _ => stable_tells) fun _ _ hs => hs
  intro c hbegins
  unfold Patch.locked
  apply (triple_found stable_has fun _ hs => hs.1).bind
  intro _
  apply triple_record.bind
  intro info
  apply Triple.fact
  rintro rfl
  apply (triple_ensure fun _ _ hs => hs.1).bind
  intro _
  apply Triple.fact
  intro _
  apply (triple_ensure fun _ _ hs => hs.1).bind
  intro _
  apply Triple.fact
  intro hoffset
  obtain rfl := eq_of_beq hoffset
  have hinside := hoffers.inside _ hheader
  apply (triple_checkExpiry stable_has fun _ _ hs => hs.1).bind
  intro _
  apply (triple_check fun _ _ hs => hs.1).bind
  intro declared
  apply Triple.fact
  intro hdeclared
  have hchunk {c : Content} (hbegins : Begins file first c) (hinside : c.info.offset < file.length)
      (hheader : parseUploadOffset q.headers = .ok c.info.offset) :
      Triple (clients h impl obs) (discipline K file first) t (Has K t c)
        ((check (Patch.chunkReader h q)).bind fun reader =>
          (writeChunk i c.info.offset reader).bind fun _ => Patch.finish h i)
        (fun resp s => Held t i s ∧ Tells K resp s) (Held t i) := by
    apply (triple_check fun _ _ hs => hs.1).bind
    intro reader
    apply Triple.fact
    intro hreader
    apply (triple_write hbegins hinside _).bind
    · intro _ s hinv hs
      obtain ⟨buf, ⟨hpiece, hroom⟩, hhas⟩ := hs
      exact triple_finish (hbegins.append hpiece hinside) (hbegins.not_joined hinside)
        hroom s hinv hhas
    · rintro buf rfl
      exact hoffers.piece _ buf hheader (Patch.body_of_chunkReader hreader)
  cases declared with
  | some length =>
      obtain ⟨hnone, -⟩ := Patch.declaredLength_eq_some hdeclared
      obtain rfl := hoffers.length length (Patch.length_of_declared hdeclared)
      apply (triple_declare hbegins hnone).bind
      intro _
      exact hchunk (hbegins.declare hnone) hinside hheader
  | none => exact hchunk hbegins hinside hheader

/-! ### All clients -/

/-- What a client learns of the upload from an answer stays true. -/
structure Answered (K : Keeper impl id) (file : Bytes) (q : TusRequest) (resp : TusResponse)
    (s : Shared σ γ) : Prop where
  acknowledged : requestId q = .ok id → q.method = .head ∨ q.method = .patch → resp.status = 204 →
    Tells K resp s
  downloaded : requestId q = .ok id → q.method = .get → resp.status = 200 → resp.body = .reader file

theorem stable_answered {q : TusRequest} {resp : TusResponse} :
    Stable (discipline (γ := γ) K file first) t (Answered K file q resp) :=
  fun s s' hrely hs =>
    ⟨fun hid hmethod hstatus => stable_tells s s' hrely (hs.acknowledged hid hmethod hstatus),
    hs.downloaded⟩

theorem answered_other {q : TusRequest} {resp : TusResponse}
    (hother : requestId q = .ok id → q.method ≠ .head ∧ q.method ≠ .patch ∧ q.method ≠ .get) :
    Answered K file q resp s where
  acknowledged hid hmethod _ := by
    obtain ⟨hhead, hpatch, -⟩ := hother hid
    exact (hmethod.elim hhead hpatch).elim
  downloaded hid hmethod _ := absurd hmethod (hother hid).2.2

theorem answered_error {q : TusRequest} (e : TusError) :
    Answered K file q (h.errorResponse e) s where
  acknowledged _ _ hstatus := by
    have herror := h.errorResponse_status e
    omega
  downloaded _ _ hstatus := by
    have herror := h.errorResponse_status e
    omega

/-- A creation opens another upload. -/
theorem triple_post {q : TusRequest} :
    Triple (clients h impl obs) (discipline K file first) t (fun _ => True) (Post.handle h q)
      (fun _ _ => True) fun _ => True := by
  unfold Post.handle
  apply (triple_check fun _ _ _ => trivial).bind
  intro p
  apply (triple_newUuid (stable_fact stable_true)).bind
  intro uuid
  apply (triple_check fun _ _ _ => trivial).bind
  intro info
  apply (triple_expiry (stable_fact (stable_fact stable_true)) fun _ _ _ => trivial).bind
  intro expiresAt
  apply (triple_preCreate (stable_fact (stable_fact stable_true)) fun _ _ _ => trivial).bind
  intro info
  have hcreate : Triple (clients h impl obs) (discipline K file first) t (fun _ => True)
      (createUpload info) (fun _ _ => info.id ≠ id ∧ K.accepts info.id) fun _ => True := by
    apply triple_store (o := .createUpload info) stable_true
    intro s hinv hallowed _
    have hne : info.id ≠ id := (hallowed _ rfl).kept.1
    have htolerated := (hallowed _ rfl).tolerated
    obtain ⟨hkeeps, -⟩ := @called_spared _ _ impl id obs file first K t s (.createUpload info) hinv
      fun _ hc => K.spared hc htolerated (fun _ hi => by cases hi) hne
    obtain ⟨c, hc, -⟩ := hinv
    exact ⟨hkeeps, fun u hok => ⟨hne, K.establishes hc htolerated hok⟩, fun _ _ => trivial⟩
  apply (hcreate.pre fun _ _ _ => trivial).bind
  intro _ s hinv hs
  have hlocks : (Post.fill h q p info).Locks handlerLocking none :=
    Prog.locks_of_uses Post.uses_fill
  have hmakes : Makes (Bystands id) K.accepts (Post.fill h q p info) :=
    (Post.makes_fill hs.2).mono fun _ ho => bystands_of_fills ho hs.1
  exact triple_bystands hlocks hmakes s hinv fun _ hi => by cases hi

theorem triple_aside {q : TusRequest} {p : Handler TusResponse} (hlocks : TakesOne p)
    (hp : Makes (Bystands id) K.accepts p)
    (hother : requestId q = .ok id → q.method ≠ .head ∧ q.method ≠ .patch ∧ q.method ≠ .get) :
    Triple (clients h impl obs) (discipline K file first) t (fun _ => True) p (Answered K file q)
      fun _ => True :=
  (triple_bystands hlocks hp).conseq (fun _ _ _ _ hi => by cases hi)
    (fun _ _ _ => answered_other hother) fun _ hs => hs

theorem triple_request {q : TusRequest} (hlocker : h.hasLocker = true)
    (hoffers : q.method = .patch → requestId q = .ok id → Offers file q) :
    Triple (clients h impl obs) (discipline K file first) t (fun _ => True) (h.handle q)
      (Answered K file q) fun _ => True := by
  refine triple_handle (E := fun _ => True) ?_ fun e _ _ => answered_error e
  unfold TusHandler.dispatch
  by_cases hid : requestId q = .ok id
  · cases hmethod : q.method with
    | options =>
        exact triple_aside (Prog.locks_of_uses (uses_check _ |>.bind fun _ => trivial))
          Options.makes (by simp [hmethod])
    | other _ => exact .fail fun _ _ _ => trivial
    | post =>
        apply triple_post.conseq (fun _ _ hs => hs) _ fun _ hs => hs
        exact fun _ _ _ => answered_other (by simp [hmethod])
    | delete =>
        exact triple_aside Delete.takesOne (Delete.makes fun _ _ _ => bystands_of_deletes)
          (by simp [hmethod])
    | head =>
        apply (triple_head hid).conseq (fun _ _ hs => hs) _ fun _ hs => hs
        exact fun _ _ hs => ⟨fun _ _ _ => hs, fun _ hget => by simp [hmethod] at hget⟩
    | patch =>
        apply (triple_patch hlocker hid (hoffers hmethod hid)).conseq (fun _ _ hs => hs) _
          fun _ hs => hs
        exact fun _ _ hs => ⟨fun _ _ _ => hs, fun _ hget => by simp [hmethod] at hget⟩
    | get =>
        apply (triple_get hlocker hid).conseq (fun _ _ hs => hs) _ fun _ hs => hs
        exact fun _ _ hs => ⟨fun _ hput => by simp [hmethod] at hput, fun _ _ _ => hs⟩
  · have hother : requestId q = .ok id → q.method ≠ .head ∧ q.method ≠ .patch ∧ q.method ≠ .get :=
      fun heq => absurd heq hid
    cases hmethod : q.method with
    | options =>
        exact triple_aside (Prog.locks_of_uses (uses_check _ |>.bind fun _ => trivial))
          Options.makes hother
    | other _ => exact .fail fun _ _ _ => trivial
    | post =>
        apply triple_post.conseq (fun _ _ hs => hs) _ fun _ hs => hs
        exact fun _ _ _ => answered_other hother
    | delete =>
        exact triple_aside Delete.takesOne (Delete.makes fun _ _ _ => bystands_of_deletes) hother
    | head => exact triple_aside Head.takesOne (Head.makes fun _ _ _ => bystands_of_reads) hother
    | get => exact triple_aside Get.takesOne (Get.makes fun _ _ _ => bystands_of_reads) hother
    | patch =>
        refine triple_aside Patch.takesOne (Patch.makes fun offset i hparse o ho => ?_) hother
        apply bystands_of_appends ho
        rintro rfl
        exact hid (Patch.requestId_of_parse hparse)

/-- What the clients have between them: a beginning of the file that no
answer overstates. -/
structure Delivers (K : Keeper impl id) (file : Bytes) (first : UploadInfo) (c : Clients σ γ) :
    Prop where
  stored : ∃ u, K.holds u c.shared.store ∧ Begins file first u
  answered : ∀ t q resp, c.threads t = .done q (.ok resp) → Answered K file q resp c.shared

/-! ## Resuming -/

section Resuming

variable {β : Type} {env : Env} {A : σ → Prop}

/-- Where `A` holds, a request that is served alone returns with `B`. -/
def Yields (impl : Interp StoreSig σ) (env : Env) (A : σ → Prop) (p : Handler α)
    (B : α → σ → Prop) : Prop :=
  ∀ w : World σ, A w.store → ∃ a w', p.run (handlerInterp impl env) w = (.ok a, w') ∧ B a w'.store

theorem Yields.ret {a : α} {B : α → σ → Prop} (h : ∀ s, A s → B a s) :
    Yields impl env A (.ret a) B := fun w hw => ⟨a, w, rfl, h w.store hw⟩

theorem Yields.bind {p : Handler α} {f : α → Handler β} {B : α → σ → Prop} {C : β → σ → Prop}
    (hp : Yields impl env A p B) (hf : ∀ a, Yields impl env (B a) (f a) C) :
    Yields impl env A (p.bind f) C := by
  intro w hw
  obtain ⟨a, w₁, hrun, hB⟩ := hp w hw
  obtain ⟨b, w₂, hrest, hC⟩ := hf a w₁ hB
  exact ⟨b, w₂, (Prog.run_bind_ok hrun).trans hrest, hC⟩

/-- A request whose handler returns is answered by what it returns. -/
theorem Yields.serve {q : TusRequest} {p : Handler TusResponse} {B : TusResponse → σ → Prop}
    (hp : Yields impl env A p B) (hq : h.dispatch q = p) {w : World σ} (hw : A w.store) :
    ∃ resp w', serve h impl env q w = (some resp, w') ∧ B resp w'.store := by
  obtain ⟨resp, w', hrun, hB⟩ := hp w hw
  refine ⟨resp, w', ?_, hB⟩
  rw [serve_eq, hq, hrun]
  rfl

/-- A PATCH with all of the file from the stored offset on. It declares the
length, within the maximum, where the record has none. -/
structure Completes (h : TusHandler) (file : Bytes) (id : UploadId) (info : UploadInfo)
    (q : TusRequest) : Prop where
  method : q.method = .patch
  parsed : Patch.parseRequest q = .ok (info.offset, id)
  body : Patch.chunkReader h q = .ok (.ok (file.drop info.offset))
  length : info.size = none → parseUploadLength q.headers = .ok (some file.length)
  allowed : info.size = none → h.config.maxSize = 0 ∨ file.length ≤ h.config.maxSize

theorem Begins.expiresAt (hc : Begins file first c) : c.info.expiresAt = first.expiresAt := by
  obtain ⟨_, _, _, hsame⟩ := hc.same
  rw [hsame]

theorem Begins.isFinal (hc : Begins file first c) : c.info.isFinal = first.isFinal := by
  obtain ⟨_, _, _, hsame⟩ := hc.same
  rw [hsame]

end Resuming

end Transfer

open Transfer

end Fileloft
