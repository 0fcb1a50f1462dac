import Fileloft.Server.Noting

/-!
# Chunks and their checksums

The bytes a request stores are those of the chunks that the store accepts.
A store that also records them goes through the same stages, so what a
request has stored can be read off the stages.
-/

namespace Fileloft

variable {σ : Type}

/-- The stream of a chunk that the store accepted. -/
def chunkOf : (o : StoreOp) → Except TusError o.Val → List Reader
  | .writeChunk _ _ reader, .ok _ => [reader]
  | _, _ => []

/-- The stream behind one operation of a handler. -/
def chunksOf : (o : HandlerOp) → HandlerOp.Ans o → List Reader
  | .store o, answer => chunkOf o answer
  | _, _ => []

/-- The streams that the store accepted, in order. -/
def chunks (t : List ((o : HandlerSig.Op) × HandlerSig.Ans o)) : List Reader :=
  t.flatMap fun e => chunksOf e.1 e.2

section Noting

variable {impl : Interp StoreSig σ} {env : Env}

theorem chunks_eq (t : List ((o : HandlerSig.Op) × HandlerSig.Ans o)) :
    chunks t = notes chunkOf t := by
  unfold chunks notes
  congr 1

theorem chunkOf_reads (hreads : PureReads impl) : PureReads (noting chunkOf impl) :=
  noting_reads hreads fun _ => ⟨fun _ => rfl, fun _ => rfl⟩

/-- Only an accepted chunk is recorded. -/
theorem noting_chunkOf_snd {o : StoreOp} (ho : ∀ id offset reader, o ≠ .writeChunk id offset reader)
    (s : σ × List Reader) : (noting chunkOf impl o s).2.2 = s.2 := by
  cases o with
  | writeChunk id offset reader => exact absurd rfl (ho id offset reader)
  | _ => exact noting_snd (fun _ => rfl) s

theorem noting_writeChunk {id : UploadId} {offset n : ℕ} {reader : Reader}
    {s s' : σ × List Reader}
    (h : noting chunkOf impl (.writeChunk id offset reader) s = (.ok n, s')) :
    s'.2 = s.2 ++ [reader] := by
  obtain ⟨hanswer, rfl⟩ := Prod.mk.inj h
  simp [hanswer, chunkOf]

end Noting

section Stages

variable {impl : Interp StoreSig σ} {h : TusHandler} {env : Env} {req : TusRequest}

theorem completing_chunks {id : UploadId} {info : UploadInfo} {s : σ × List Reader} :
    (completing (noting chunkOf impl) h env id info s).2.2 = s.2 :=
  completing_notes fun _ _ => rfl

/-- The stages of a PATCH accept one chunk, the one the checks let through. -/
theorem Patch.filling_chunks {id : UploadId} {offset : ℕ} {size : Option ℕ} {newInfo : UploadInfo}
    {s s' : σ × List Reader}
    (hfilling : Patch.filling (noting chunkOf impl) h req id offset size s = (.ok newInfo, s')) :
    ∃ reader, chunkReader h req = .ok reader ∧ s'.2 = s.2 ++ [reader] := by
  unfold Patch.filling at hfilling
  obtain ⟨_, s₁, hdeclare, hrest⟩ := andThen_eq_ok.mp hfilling
  have hsame : s₁.2 = s.2 := by
    cases size with
    | none =>
        obtain ⟨-, rfl⟩ := Prod.mk.inj hdeclare
        rfl
    | some declaredSize =>
        have hsnd := congrArg (fun r => r.2.2) hdeclare
        rw [← hsnd]
        exact noting_chunkOf_snd (by simp) s
  obtain ⟨n, s₂, hwrite, hget⟩ := andThen_eq_ok.mp hrest
  obtain ⟨-, rfl⟩ := Prod.mk.inj hget
  cases hreader : chunkReader h req with
  | error e => simp [hreader] at hwrite
  | ok reader =>
      simp only [hreader] at hwrite
      exact ⟨reader, rfl, by rw [noting_writeChunk hwrite, hsame]⟩

/-- A PATCH that is answered has stored the chunk the checks let through. -/
theorem Patch.chunks_of_ok (hreads : PureReads impl) {w w' : World σ} {resp : TusResponse}
    (hrun : (Patch.handle h req).run (handlerInterp impl env) w = (.ok resp, w')) :
    ∃ reader, chunkReader h req = .ok reader ∧
      chunks ((Patch.handle h req).trace (handlerInterp impl env) w) = [reader] := by
  have hrecord := @run_noting _ _ chunkOf impl env _ (Patch.handle h req) w []
  rw [hrun, Patch.run_handle (chunkOf_reads hreads)] at hrecord
  rcases hadm : admission (noting chunkOf impl) h env req (w.store, []) with e | ⟨id, info, size⟩
  · simp [hadm] at hrecord
  simp only [hadm, run_accept_filling (chunkOf_reads hreads)] at hrecord
  rcases hfilling : Patch.filling (noting chunkOf impl) h req id info.offset size (w.store, []) with
    ⟨e | newInfo, s⟩
  · simp [hfilling] at hrecord
  obtain ⟨reader, hreader, hs⟩ := Patch.filling_chunks hfilling
  refine ⟨reader, hreader, ?_⟩
  simp only [hfilling, check_ok, Prog.ret_bind] at hrecord
  obtain ⟨l, haccepted, -⟩ := @run_accepted _ (noting chunkOf impl) h env id newInfo ⟨s, w.log⟩
  rw [haccepted] at hrecord
  have hstore := congrArg (fun r => r.2.store.2) hrecord
  simp only [List.nil_append, completing_chunks, hs] at hstore
  rw [chunks_eq]
  exact hstore.symm

theorem Post.joining_chunks {p : Post.Parsed} {info : UploadInfo} {s : σ × List Reader} :
    (Post.joining (noting chunkOf impl) h p info s).2.2 = s.2 := by
  unfold Post.joining
  split
  · cases Post.fetched (noting chunkOf impl) s info.partialUploads with
    | error e => rfl
    | ok infos => exact noting_chunkOf_snd (by simp) s
  · rfl

/-- The stage that writes the body accepts it, if there is one. -/
theorem Post.writing_chunks {id : UploadId} {n : ℕ} {s s' : σ × List Reader}
    (hwriting : Post.writing (noting chunkOf impl) h req id s = (.ok n, s')) :
    s'.2 = s.2 ++ (Post.uploadBody h req).toList := by
  unfold Post.writing at hwriting
  cases hbody : Post.uploadBody h req with
  | none =>
      simp only [hbody] at hwriting
      obtain ⟨-, rfl⟩ := Prod.mk.inj hwriting
      simp
  | some body =>
      simp only [hbody] at hwriting
      exact noting_writeChunk hwriting

theorem Post.tidying_chunks {p : Post.Parsed} {id : UploadId} {finalInfo : UploadInfo}
    {s : σ × List Reader} :
    (Post.tidying (noting chunkOf impl) h env p id finalInfo s).2.2 = s.2 :=
  Post.tidying_notes fun _ _ => rfl

/-- The stages of a creation accept its body, if it has one. -/
theorem Post.filling_chunks {p : Post.Parsed} {info finalInfo : UploadInfo}
    {s s' : σ × List Reader}
    (hfilling : Post.filling (noting chunkOf impl) h env req p info s = (.ok finalInfo, s')) :
    s'.2 = s.2 ++ (Post.uploadBody h req).toList := by
  unfold Post.filling at hfilling
  obtain ⟨_, s₁, hjoining, hrest⟩ := andThen_eq_ok.mp hfilling
  obtain ⟨n, s₂, hwriting, hrest⟩ := andThen_eq_ok.mp hrest
  obtain ⟨info', s₃, hchecking, htidying⟩ := andThen_eq_ok.mp hrest
  have hjoined : s₁.2 = s.2 := by
    rw [← @Post.joining_chunks _ impl h p info s, hjoining]
  have hchecked : s₃ = s₂ := (Prod.mk.inj hchecking).2.symm
  have htidied : s'.2 = s₃.2 := by
    rw [← @Post.tidying_chunks _ impl h env p info.id info' s₃, htidying]
  rw [htidied, hchecked, Post.writing_chunks hwriting, hjoined]

/-- A creation that is answered has stored its body, if it has one. -/
theorem Post.chunks_of_ok (hreads : PureReads impl) {w w' : World σ} {resp : TusResponse}
    (hrun : (Post.handle h req).run (handlerInterp impl env) w = (.ok resp, w')) :
    chunks ((Post.handle h req).trace (handlerInterp impl env) w) =
      (Post.uploadBody h req).toList := by
  have hrecord := @run_noting _ _ chunkOf impl env _ (Post.handle h req) w []
  rw [hrun, Post.run_handle] at hrecord
  rcases hprepare : Post.prepare h env req with e | ⟨p, info⟩
  · simp [hprepare] at hrecord
  simp only [hprepare, Post.create, Prog.bind_eq, run_createUpload_bind] at hrecord
  have hcreated : (noting chunkOf impl (.createUpload info) (w.store, [])).2.2 = [] :=
    noting_chunkOf_snd (by simp) _
  rcases hcreate : noting chunkOf impl (.createUpload info) (w.store, []) with ⟨e | _, s⟩
  · simp [hcreate] at hrecord
  rw [hcreate] at hcreated
  simp only [hcreate, check_ok, Prog.ret_bind] at hrecord
  obtain ⟨l, hfill⟩ :=
    @Post.run_fill _ (noting chunkOf impl) h env req (chunkOf_reads hreads) p info ⟨s, w.log⟩
  rw [hfill] at hrecord
  rcases hfilling : Post.filling (noting chunkOf impl) h env req p info s with ⟨e | finalInfo, s'⟩
  · simp [hfilling] at hrecord
  have hs := Post.filling_chunks hfilling
  simp only [hfilling, check_ok, Prog.ret_bind] at hrecord
  obtain ⟨m, hfinish, -⟩ := @Post.run_finish _ (noting chunkOf impl) h env req info.id finalInfo
    ⟨s', w.log ++ l⟩
  rw [hfinish] at hrecord
  have hstore := congrArg (fun r => r.2.store.2) hrecord
  simp only [List.nil_append, Post.finishing_snd, completing_chunks, hs] at hstore
  rw [chunks_eq, ← hstore, show s.2 = [] from hcreated, List.nil_append]

end Stages

/-! ## The checksum of a request -/

/-- The header names an algorithm and a digest, and the request has stored
one chunk, whose bytes have that digest. -/
def Verified (h : TusHandler) (req : TusRequest) (stored : List Reader) : Prop :=
  ∃ text algorithm expected buf, HeaderMap.getStr req.headers .uploadChecksum = some text ∧
    parseChecksumHeader h.lib text = .ok (algorithm, expected) ∧ stored = [.ok buf] ∧
    h.lib.digest algorithm buf = expected

/-- The law of a request with a checksum: a success has stored what the
header promises. -/
def ChecksumHolds (h : TusHandler) (impl : Interp StoreSig σ) (env : Env) (req : TusRequest)
    (w : World σ) : Prop :=
  ∀ resp, (serve h impl env req w).1 = some resp → resp.status < 300 →
    Verified h req (chunks ((h.handle req).trace (handlerInterp impl env) w))

/-- The request carries a checksum together with an upload body. -/
structure Carries (h : TusHandler) (req : TusRequest) : Prop where
  enabled : h.config.extensions.checksum = true
  header : HeaderMap.containsKey req.headers .uploadChecksum = true
  body : req.method = .patch ∧ req.body ≠ none ∨ req.method = .post ∧ Post.uploadBody h req ≠ none

/-- What the handlers do not check: that the header of a PATCH has a text at
all, and anything about the header of a creation. -/
def Covered (h : TusHandler) (req : TusRequest) : Prop :=
  (req.method = .patch → (HeaderMap.getStr req.headers .uploadChecksum).isSome = true) ∧
    (req.method = .post → Verified h req (Post.uploadBody h req).toList)

section Checksum

variable {impl : Interp StoreSig σ} {h : TusHandler} {env : Env} {req : TusRequest} {w : World σ}

/-- A chunk that passed with a readable header has the digest it promises. -/
theorem Patch.verified_of_chunkReader {reader : Reader} {text : Str}
    (htext : HeaderMap.getStr req.headers .uploadChecksum = some text)
    (hreader : chunkReader h req = .ok reader) : Verified h req [reader] := by
  have hkey : HeaderMap.containsKey req.headers .uploadChecksum = true := by
    rw [HeaderMap.getStr] at htext
    obtain ⟨v, hv, -⟩ := Option.bind_eq_some_iff.mp htext
    rw [HeaderMap.containsKey, hv]
    rfl
  simp only [chunkReader, bind_eq_ok] at hreader
  obtain ⟨sum, hsum, hreader⟩ := hreader
  simp only [checksum, hkey, if_true, htext, bind_eq_ok] at hsum
  obtain ⟨_, -, ⟨algorithm, expected⟩, hparse, hsum⟩ := hsum
  obtain rfl := Except.ok.inj hsum
  cases hbody : req.body with
  | none => simp [hbody, throw, throwThe, MonadExceptOf.throw] at hreader
  | some body =>
      simp only [hbody, bind_eq_ok] at hreader
      obtain ⟨buf, hverified, hreader⟩ := hreader
      obtain rfl := Except.ok.inj hreader
      refine ⟨text, algorithm, expected, buf, htext, hparse, rfl, ?_⟩
      unfold verified at hverified
      cases body with
      | error e => cases hverified
      | ok bytes =>
          simp only at hverified
          split at hverified
          · next hdigest => exact Except.ok.inj hverified ▸ hdigest
          · cases hverified

/-- A request that is covered keeps the law, over any store. -/
theorem Covered.checksumHolds (hreads : PureReads impl)
    (hcarries : Carries h req) (hcovered : Covered h req) : ChecksumHolds h impl env req w := by
  intro resp hresp hstatus
  have hrun := run_dispatch_of_status hresp (hstatus.trans (by decide))
  rw [trace_handle]
  rcases hcarries.body with ⟨hmethod, -⟩ | ⟨hmethod, -⟩
  · rw [TusHandler.dispatch, hmethod] at hrun ⊢
    obtain ⟨text, htext⟩ := Option.isSome_iff_exists.mp (hcovered.1 hmethod)
    obtain ⟨reader, hreader, hchunks⟩ := Patch.chunks_of_ok hreads hrun
    exact hchunks ▸ Patch.verified_of_chunkReader htext hreader
  · rw [TusHandler.dispatch, hmethod] at hrun ⊢
    exact (Post.chunks_of_ok hreads hrun).symm ▸ hcovered.2 hmethod

end Checksum

end Fileloft
