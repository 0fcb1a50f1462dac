import Fileloft.Adapters.Actix
import Fileloft.Core.Metadata
import Fileloft.Handler.Patch

/-!
# Reading through a hasher

A `ChecksumReader` polls another reader and hashes what each poll has filled
in. Whatever the polls return and whatever the buffers hold, the bytes hashed
are the bytes delivered.
-/

namespace Fileloft

open Actix (Answer)

/-- A destination buffer, which may already hold bytes. -/
structure ReadBuf where
  capacity : ℕ
  filled : Bytes
  fits : filled.length ≤ capacity

/-- A reader keeps what a buffer holds, and adds to it only when it is ready. -/
structure AsyncRead (σ : Type) where
  pollRead : σ → ReadBuf → Answer × ReadBuf × σ
  grows : ∀ s buf, buf.filled <+: (pollRead s buf).2.1.filled
  idle : ∀ s buf, (pollRead s buf).1 ≠ .ready → (pollRead s buf).2.1.filled = buf.filled

/-- Updates one after another hash what they have together. -/
structure Hasher (lib : Crates) where
  State : Type
  makeHasher : ChecksumAlgorithm → State
  update : State → Bytes → State
  finalize : State → Bytes
  finalize_updates : ∀ algorithm (updates : List Bytes),
    finalize (updates.foldl update (makeHasher algorithm)) = lib.digest algorithm updates.flatten

structure ChecksumReader {lib : Crates} (hasher : Hasher lib) (σ : Type) where
  inner : σ
  hasher : hasher.State
  expected : Bytes

variable {lib : Crates} {H : Hasher lib} {σ : Type} {A : AsyncRead σ} {s s' : σ} {bytes : Bytes}
  {buf : ReadBuf}

namespace ChecksumReader

def new (H : Hasher lib) (inner : σ) (algorithm : ChecksumAlgorithm) (expected : Bytes) :
    ChecksumReader H σ where
  inner := inner
  hasher := H.makeHasher algorithm
  expected := expected

def verify (me : ChecksumReader H σ) : Except TusError Unit :=
  if H.finalize me.hasher = me.expected then .ok () else .error .checksumMismatch

/-- `poll_read`: only a ready poll has bytes to hash. -/
def pollRead (A : AsyncRead σ) (me : ChecksumReader H σ) (buf : ReadBuf) :
    Answer × ReadBuf × ChecksumReader H σ :=
  let before := buf.filled.length
  let (result, buf, inner) := A.pollRead me.inner buf
  match result with
  | .ready =>
    let filled := buf.filled.drop before
    if filled ≠ [] then (result, buf, { me with inner, hasher := H.update me.hasher filled })
    else (result, buf, { me with inner })
  | _ => (result, buf, { me with inner })

end ChecksumReader

/-! ## Delivered bytes -/

namespace AsyncRead

/-- The bytes that one poll puts into a buffer. -/
def delivered (A : AsyncRead σ) (s : σ) (buf : ReadBuf) : Bytes :=
  (A.pollRead s buf).2.1.filled.drop buf.filled.length

/-- Some polls, each with a buffer of its own, and the bytes they deliver. -/
inductive Polls (A : AsyncRead σ) (s : σ) : σ → Bytes → Prop
  | none : Polls A s s []
  | poll {s' : σ} {bytes : Bytes} (buf : ReadBuf) (hpolls : Polls A s s' bytes) :
      Polls A s (A.pollRead s' buf).2.2 (bytes ++ A.delivered s' buf)

theorem delivered_of_idle (hidle : (A.pollRead s buf).1 ≠ .ready) : A.delivered s buf = [] := by
  rw [delivered, A.idle s buf hidle, List.drop_length]

end AsyncRead

namespace ChecksumReader

variable {me me' : ChecksumReader H σ}

/-- What a poll leaves of the inner reader and of the hasher. -/
theorem pollRead_spec : (me.pollRead A buf).1 = (A.pollRead me.inner buf).1 ∧
    (me.pollRead A buf).2.1 = (A.pollRead me.inner buf).2.1 ∧
    (me.pollRead A buf).2.2 = { me with
      inner := (A.pollRead me.inner buf).2.2
      hasher := if A.delivered me.inner buf = [] then me.hasher
        else H.update me.hasher (A.delivered me.inner buf) } := by
  have hidle := @AsyncRead.delivered_of_idle σ A me.inner buf
  have hdelivered : (A.pollRead me.inner buf).2.1.filled.drop buf.filled.length =
    A.delivered me.inner buf := rfl
  rcases hpoll : A.pollRead me.inner buf with ⟨result, buf', inner⟩
  rw [hpoll] at hidle hdelivered
  cases result with
  | ready =>
      by_cases hnone : A.delivered me.inner buf = []
      · simp [pollRead, hpoll, hdelivered, hnone]
      · simp [pollRead, hpoll, hdelivered, hnone]
  | pending => simp [pollRead, hpoll, hidle]
  | failed e => simp [pollRead, hpoll, hidle]

/-- A checksum reader is a reader again. -/
def wrapped (H : Hasher lib) (A : AsyncRead σ) : AsyncRead (ChecksumReader H σ) where
  pollRead me buf := me.pollRead A buf
  grows me buf := by
    rw [pollRead_spec.2.1]
    exact A.grows me.inner buf
  idle me buf hidle := by
    rw [pollRead_spec.1] at hidle
    rw [pollRead_spec.2.1]
    exact A.idle me.inner buf hidle

/-- The updates so far, together the bytes delivered. -/
structure Hashed (me : ChecksumReader H σ) (algorithm : ChecksumAlgorithm)
    (expected bytes : Bytes) :
    Prop where
  fed : ∃ updates : List Bytes,
    me.hasher = updates.foldl H.update (H.makeHasher algorithm) ∧ updates.flatten = bytes
  expected_eq : me.expected = expected

variable {algorithm : ChecksumAlgorithm} {expected : Bytes} {inner : σ}

/-- One poll feeds what it delivers. -/
theorem Hashed.poll (hhashed : me.Hashed algorithm expected bytes) (buf : ReadBuf) :
    (me.pollRead A buf).2.2.Hashed algorithm expected
      (bytes ++ (wrapped H A).delivered me buf) := by
  obtain ⟨⟨updates, hhasher, hbytes⟩, hexpected⟩ := hhashed
  obtain ⟨-, hbuf, hme⟩ := @pollRead_spec lib H σ A buf me
  have hdelivered : (wrapped H A).delivered me buf = A.delivered me.inner buf :=
    congrArg (fun b : ReadBuf => b.filled.drop buf.filled.length) hbuf
  rw [hdelivered, hme]
  refine ⟨?_, hexpected⟩
  by_cases hnone : A.delivered me.inner buf = []
  · refine ⟨updates, ?_, ?_⟩
    · rw [if_pos hnone, hhasher]
    · rw [hnone, List.append_nil, hbytes]
  · refine ⟨updates ++ [A.delivered me.inner buf], ?_, ?_⟩
    · rw [if_neg hnone, hhasher, List.foldl_append, List.foldl_cons, List.foldl_nil]
    · rw [List.flatten_append, hbytes, List.flatten_singleton]

theorem hashed_of_polls
    (hpolls : (wrapped H A).Polls (.new H inner algorithm expected) me bytes) :
    me.Hashed algorithm expected bytes := by
  induction hpolls with
  | none => exact ⟨⟨[], rfl, rfl⟩, rfl⟩
  | poll buf _ ih => exact ih.poll buf

theorem Hashed.verify_eq (hhashed : me.Hashed algorithm expected bytes) : me.verify =
    if lib.digest algorithm bytes = expected then .ok () else .error .checksumMismatch := by
  obtain ⟨⟨updates, hhasher, hbytes⟩, hexpected⟩ := hhashed
  rw [verify, hhasher, H.finalize_updates, hbytes, hexpected]

/-- Whatever the polls return, the bytes delivered are the bytes hashed, and
`verify` accepts exactly their digest. -/
theorem verify_delivered_iff
    (hpolls : (wrapped H A).Polls (.new H inner algorithm expected) me bytes) :
    (∃ updates : List Bytes,
      me.hasher = updates.foldl H.update (H.makeHasher algorithm) ∧ updates.flatten = bytes) ∧
    (me.verify = .ok () ↔ lib.digest algorithm bytes = expected) := by
  have hhashed := hashed_of_polls hpolls
  refine ⟨hhashed.fed, ?_⟩
  rw [hhashed.verify_eq]
  split
  · next heq => exact iff_of_true rfl heq
  · next hne => exact iff_of_false nofun hne

end ChecksumReader

/-! ## Reading to the end -/

/-- `read_to_end`: poll until a buffer with room gets nothing, or a poll fails. -/
inductive AsyncRead.ReadsToEnd (A : AsyncRead σ) (s : σ) : σ → Reader → Prop
  | eof {s' : σ} {bytes : Bytes} (buf : ReadBuf) (hpolls : A.Polls s s' bytes)
      (hroom : buf.filled.length < buf.capacity) (hready : (A.pollRead s' buf).1 = .ready)
      (hnone : A.delivered s' buf = []) : ReadsToEnd A s (A.pollRead s' buf).2.2 (.ok bytes)
  | failed {s' : σ} {bytes : Bytes} {e : IoError} (buf : ReadBuf) (hpolls : A.Polls s s' bytes)
      (hfailed : (A.pollRead s' buf).1 = .failed e) :
      ReadsToEnd A s (A.pollRead s' buf).2.2 (.error e)

namespace ChecksumReader

variable {me : ChecksumReader H σ} {algorithm : ChecksumAlgorithm} {expected : Bytes} {inner : σ}
  {body : Reader}

/-- Reading a chunk to its end and then verifying it accepts what comparing
the digest of the whole chunk accepts. -/
theorem verified_eq
    (hread : (wrapped H A).ReadsToEnd (.new H inner algorithm expected) me body) :
    (body.mapError TusError.io).bind (fun buf => me.verify.map fun _ => buf) =
      Patch.verified lib algorithm expected body := by
  cases hread with
  | failed buf hpolls hfailed => rfl
  | @eof me' bytes buf hpolls hroom hready hnone =>
      have hhashed := hashed_of_polls (.poll buf hpolls)
      rw [hnone, List.append_nil] at hhashed
      change (verify _).map _ = _
      rw [hhashed.verify_eq, Patch.verified]
      split
      · rfl
      · rfl

end ChecksumReader

/-! ## The body of an Actix request -/

namespace Actix.ChannelReader

/-- A poll stays within the room and fills nothing in unless it is ready. -/
structure Fits (capacity : ℕ) (p : Polled) : Prop where
  length : p.filled.length ≤ capacity
  idle : p.answer ≠ .ready → p.filled = []

theorem fits_fill (capacity : ℕ) (rx : List Recv) (current : Bytes) :
    Fits capacity (fill capacity rx current) where
  length := by
    rw [fill]
    split
    · exact Nat.zero_le _
    · exact (List.length_take_le _ _).trans (Nat.min_le_right _ _)
  idle hidle := by
    rw [fill] at hidle
    split at hidle
    · exact absurd rfl hidle
    · exact absurd rfl hidle

theorem fits_pollRead (capacity : ℕ) (r : ChannelReader) : Fits capacity (r.pollRead capacity) := by
  have hreceive (rx : List Recv) : Fits capacity (receive capacity rx) := by
    induction rx with
    | nil => exact ⟨Nat.zero_le _, fun _ => rfl⟩
    | cons x rx ih =>
        rcases x with (e | chunk) | _
        · exact ⟨Nat.zero_le _, fun _ => rfl⟩
        · rw [receive]
          split
          · exact ih
          · exact fits_fill ..
        · exact ⟨Nat.zero_le _, fun _ => rfl⟩
  rw [pollRead]
  split
  · exact fits_fill ..
  · exact hreceive _

theorem fits_append (r : ChannelReader) (buf : ReadBuf) :
    (buf.filled ++ (r.pollRead (buf.capacity - buf.filled.length)).filled).length ≤
      buf.capacity := by
  have hlength := (fits_pollRead (buf.capacity - buf.filled.length) r).length
  have hbuf := buf.fits
  rw [List.length_append]
  omega

/-- The buffer of a poll is what is left of the destination. -/
def asyncRead : AsyncRead ChannelReader where
  pollRead r buf :=
    let polled := r.pollRead (buf.capacity - buf.filled.length)
    (polled.answer, ⟨buf.capacity, buf.filled ++ polled.filled, fits_append r buf⟩, polled.reader)
  grows r buf := List.prefix_append _ _
  idle r buf hidle := by
    have hnone := (fits_pollRead (buf.capacity - buf.filled.length) r).idle hidle
    change buf.filled ++ _ = _
    rw [hnone, List.append_nil]

end Actix.ChannelReader

/-- A hasher that keeps what it is fed until the end. -/
def Hasher.keeping (lib : Crates) : Hasher lib where
  State := ChecksumAlgorithm × Bytes
  makeHasher algorithm := (algorithm, [])
  update state b := (state.1, state.2 ++ b)
  finalize state := lib.digest state.1 state.2
  finalize_updates algorithm updates := by
    have hfold (b : Bytes) : updates.foldl (fun state b => (state.1, state.2 ++ b)) (algorithm, b) =
        (algorithm, b ++ updates.flatten) := by
      induction updates generalizing b with
      | nil => rw [List.foldl_nil, List.flatten_nil, List.append_nil]
      | cons u updates ih => rw [List.foldl_cons, ih, List.flatten_cons, List.append_assoc]
    rw [hfold, List.nil_append]

namespace ChecksumReader.ThreePolls

/-- The digest of `a`, which is `[97]`, is the expected one. -/
def start : ChecksumReader (Hasher.keeping .fixed) Actix.ChannelReader :=
  .new _ (.new [.pending, .item (.ok [97])]) .sha1
    [0x86, 0xf7, 0xe4, 0x37, 0xfa, 0xa5, 0xa7, 0xfc, 0xe1, 0x5d, 0x1d, 0xdc, 0xb9, 0xea, 0xea,
      0xea, 0x37, 0x76, 0x67, 0xb8]

def reader : AsyncRead (ChecksumReader (Hasher.keeping .fixed) Actix.ChannelReader) :=
  wrapped _ Actix.ChannelReader.asyncRead

def partly : ReadBuf := ⟨3, [9], by decide⟩

def empty : ReadBuf := ⟨8, [], by decide⟩

/-- A poll that waits, the byte beside the one there, and the end. -/
def polled : ChecksumReader (Hasher.keeping .fixed) Actix.ChannelReader :=
  (reader.pollRead (reader.pollRead (reader.pollRead start empty).2.2 partly).2.2 empty).2.2

end ChecksumReader.ThreePolls

open ChecksumReader.ThreePolls in
theorem ChecksumReader.verify_delivered_iff_three :
    (∃ updates : List Bytes, polled.hasher =
        updates.foldl (Hasher.keeping .fixed).update ((Hasher.keeping .fixed).makeHasher .sha1) ∧
      updates.flatten = [97]) ∧
    (polled.verify = .ok () ↔ Crates.fixed.digest .sha1 [97] = start.expected) :=
  @verify_delivered_iff .fixed (.keeping .fixed) _ Actix.ChannelReader.asyncRead [97] polled
    .sha1 start.expected _ (.poll empty (.poll partly (.poll empty .none)))

end Fileloft
