import Fileloft.Fs.Fixture
import Fileloft.Fs.Refine
import Fileloft.Fs.Calls
import Fileloft.Memory.Store
import Fileloft.Server.Apart
import Fileloft.Server.Ending
import Fileloft.Server.Fixture

/-!
# Uploads that do not share

In the memory store and in the file store an upload is a part of its own.
The file store is taken at whole store calls.
-/

namespace Fileloft

open Handler Pool

namespace MemoryStore

theorem local_interp : Local interp (fun _ => True) (fun _ => True) fun i st => st i where
  keeps _ _ _ _ := trivial
  own o s u _ _ _ hjoins hpart := by
    cases o with
    | createUpload info =>
        simp only [StoreOp.target] at hpart ⊢
        simp only [interp, MemoryStore.createUpload, Function.update_self, and_self]
    | getUpload id =>
        simp only [StoreOp.target] at hpart ⊢
        simp only [interp, MemoryStore.getUpload, hpart, and_self]
    | getInfo id =>
        simp only [StoreOp.target] at hpart ⊢
        simp only [interp, MemoryStore.getInfo, hpart, and_self]
    | finalize id => exact ⟨rfl, hpart⟩
    | readContent id =>
        simp only [StoreOp.target] at hpart ⊢
        simp only [interp, MemoryStore.readContent, hpart, and_self]
    | concatenate id partials => exact absurd rfl (hjoins id partials)
    | writeChunk id offset reader =>
        simp only [StoreOp.target] at hpart ⊢
        simp only [interp, MemoryStore.writeChunk, hpart]
        cases reader with
        | error e => exact ⟨rfl, hpart⟩
        | ok buf =>
            cases hentry : s id with
            | none => simp [hpart, hentry]
            | some entry =>
                cases hend : chunkEnd entry.info offset buf.length <;> simp [hend, hpart, hentry]
    | delete id =>
        simp only [StoreOp.target] at hpart ⊢
        simp only [interp, MemoryStore.delete, hpart]
        cases hentry : s id <;> simp [hpart, hentry]
    | declareLength id length =>
        simp only [StoreOp.target] at hpart ⊢
        simp only [interp, MemoryStore.declareLength, hpart]
        cases hentry : s id with
        | none => simp [hpart, hentry]
        | some entry =>
            by_cases hsize : entry.info.size.isSome
            · simp [hsize, hpart, hentry]
            · simp [hsize]
  other o s i _ _ _ hne := interp_of_ne hne.symm s

/-- Over the memory store, clients of one upload do not notice those of the
others. -/
theorem memory_clients_apart {γ : Type} {h : TusHandler} {obs : Observer MemoryStore γ}
    {on : ℕ → UploadId}
    {st : MemoryStore} {notes : γ} {ms : List ClientMove} {c : Clients MemoryStore γ}
    (hc : Run (clients h interp obs) (Minds on) (opened st notes) ms c) (t' : ℕ) :
    ∃ d, Run (clients h interp obs) (fun _ _ => True) (opened st notes)
        (ms.filter fun m => on m.thread = on t') d ∧
      (∀ t, on t = on t' → d.threads t = c.threads t) ∧
      d.shared.store (on t') = c.shared.store (on t') := by
  obtain ⟨d, hrun, hthreads, hstore, -⟩ := project_clients local_interp (fun _ => trivial) trivial
    (fun _ => rfl) hc t'
  exact ⟨d, hrun, hthreads, hstore⟩

end MemoryStore

namespace Slots

theorem local_interp : Local interp (fun _ => True) UploadId.Valid fun i t => t i where
  keeps _ _ _ _ := trivial
  own o s u _ _ _ hjoins hpart := by
    cases o with
    | createUpload info =>
        simp only [StoreOp.target] at hpart ⊢
        simp only [interp, Slots.createUpload]
        cases info.id.validate <;> simp [hpart]
    | getUpload id =>
        simp only [StoreOp.target] at hpart ⊢
        simp only [interp, Slots.getUpload, hpart, and_self]
    | concatenate id partials => exact absurd rfl (hjoins id partials)
    | _ =>
        simp only [StoreOp.target] at hpart ⊢
        simp only [interp, hpart, Function.update_self, and_self]
  other o s i _ _ _ hne := interp_of_ne hne.symm s

end Slots

namespace FileStore

variable (s : FileStore)

/-- The files of an upload. -/
def filesOf (i : UploadId) (d : Disk) (kind : KeyKind) : Option Bytes := d.content (s.path i kind)

variable {s}

theorem Keeps.filesOf_eq {d : Disk} {t : Slots} (hd : s.Keeps d t) {i : UploadId} (hi : i.Valid) :
    s.filesOf i d = s.file (t i) := funext (hd.file i hi)

theorem local_interp (order : Listing) :
    Local (s.interp order) (fun d => ∃ t, s.Keeps d t) UploadId.Valid s.filesOf where
  keeps o d hd htarget := by
    obtain ⟨t, ht⟩ := hd
    exact ⟨_, (ht.call o (StoreOp.forall_handle htarget) order).2⟩
  own o d e hd he htarget hjoins hpart := by
    obtain ⟨t, ht⟩ := hd
    obtain ⟨u, hu⟩ := he
    obtain ⟨hanswer, hnext⟩ := ht.call o (StoreOp.forall_handle htarget) order
    obtain ⟨hanswer', hnext'⟩ := hu.call o (StoreOp.forall_handle htarget) order
    have hslot : u o.target = t o.target := by
      apply file_injective
      rw [← hu.filesOf_eq htarget, ← ht.filesOf_eq htarget, hpart]
    obtain ⟨hsame, hslot'⟩ := Slots.local_interp.own o t u trivial trivial htarget hjoins hslot
    refine ⟨hanswer'.trans (hsame.trans hanswer.symm), ?_⟩
    rw [hnext'.filesOf_eq htarget, hnext.filesOf_eq htarget, hslot']
  other o d i hd htarget hi hne := by
    obtain ⟨t, ht⟩ := hd
    obtain ⟨-, hnext⟩ := ht.call o (StoreOp.forall_handle htarget) order
    rw [hnext.filesOf_eq hi, ht.filesOf_eq hi, Slots.interp_of_ne hne.symm]

/-- Over the file store, clients of one upload do not notice those of the
others. -/
theorem file_clients_apart {γ : Type} {h : TusHandler} {order : Listing} {obs : Observer Disk γ}
    {on : ℕ → UploadId} {d₀ : Disk} {t₀ : Slots} {notes : γ} {ms : List ClientMove}
    {c : Clients Disk γ} (hd₀ : s.Keeps d₀ t₀) (hon : ∀ t, (on t).Valid)
    (hc : Run (clients h (s.interp order) obs) (Minds on) (opened d₀ notes) ms c) (t' : ℕ) :
    ∃ d, Run (clients h (s.interp order) obs) (fun _ _ => True) (opened d₀ notes)
        (ms.filter fun m => on m.thread = on t') d ∧
      (∀ t, on t = on t' → d.threads t = c.threads t) ∧
      ∀ kind, d.shared.store.content (s.path (on t') kind) =
        c.shared.store.content (s.path (on t') kind) := by
  obtain ⟨d, hrun, hthreads, hstore, -⟩ := project_clients (local_interp order) hon ⟨t₀, hd₀⟩
    (fun _ => rfl) hc t'
  exact ⟨d, hrun, hthreads, congrFun hstore⟩

/-- The disk keeps the slots, and the same locks are taken. -/
structure Carries (s : FileStore) (u : Shared Slots Unit) (v : Shared Disk Unit) : Prop where
  store : s.Keeps v.store u.store
  holder : v.holder = u.holder

theorem simulates_slots {h : TusHandler} (order : Listing) {on : ℕ → UploadId}
    (hon : ∀ t, (on t).Valid) :
    Simulates (clients h Slots.interp .blind) (clients h (s.interp order) .blind) s.Carries
      fun t => On (on t) where
  program := rfl
  enter _ _ _ _ hs := ⟨hs.store, hs.holder⟩
  leave _ _ _ _ _ hs := ⟨hs.store, hs.holder⟩
  act env t o u v r u' hs ho hact := by
    cases o with
    | store o =>
        obtain ⟨rfl, rfl⟩ := Prod.mk.inj (Option.some.inj hact)
        obtain ⟨hanswer, hnext⟩ :=
          hs.store.call o (StoreOp.forall_handle (ho.1.symm ▸ hon t)) order
        refine ⟨v.called (s.interp order) .blind t o, ?_, hnext, hs.holder⟩
        exact congrArg (fun r => some (r, v.called (s.interp order) .blind t o)) hanswer
    | acquire j =>
        change ∃ v', act (s.interp order) .blind env t (.acquire j) v = some (r, v') ∧ _
        obtain ⟨henv, ⟨rfl, hfree, rfl⟩ | ⟨e, rfl, rfl⟩⟩ := act_acquire Slots.interp hact
        · simp only [act, henv, hs.holder, if_pos hfree]
          refine ⟨_, rfl, hs.store, ?_⟩
          exact congrArg (fun holder => Function.update holder j (some t)) hs.holder
        · simp only [act, henv]
          exact ⟨_, rfl, hs.store, hs.holder⟩
    | release j =>
        obtain ⟨rfl, rfl⟩ := Prod.mk.inj (Option.some.inj hact)
        refine ⟨_, rfl, hs.store, ?_⟩
        exact congrArg (fun holder => Function.update holder j none) hs.holder
    | _ =>
        obtain ⟨rfl, rfl⟩ := Prod.mk.inj (Option.some.inj hact)
        exact ⟨_, rfl, hs.store, hs.holder⟩

/-- What the clients do over the slots, they do over the disk that keeps them. -/
theorem run_of_slots {h : TusHandler} {order : Listing} {on : ℕ → UploadId} {d₀ : Disk}
    {t₀ : Slots} {ms : List ClientMove} {c : Clients Slots Unit} (hd₀ : s.Keeps d₀ t₀)
    (hon : ∀ t, (on t).Valid)
    (hc : Run (clients h Slots.interp .blind) (Minds on) (opened t₀ ()) ms c) :
    ∃ d, Run (clients h (s.interp order) .blind) (Minds on) (opened d₀ ()) ms d ∧
      d.threads = c.threads ∧ s.Keeps d.shared.store c.shared.store := by
  have hidle : (opened d₀ () : Clients Disk Unit).threads =
      (opened t₀ () : Clients Slots Unit).threads := rfl
  obtain ⟨d, hrun, hthreads, hcarries⟩ := (simulates_slots order hon).run
    (fun _ _ hreach => minding_of_minds (fun _ => rfl) hreach)
    (fun _ _ _ hsame => minds_congr hsame) hidle ⟨hd₀, rfl⟩ hc
  exact ⟨d, hrun, hthreads, hcarries.store⟩

end FileStore

namespace TwoUploads

def handler : TusHandler := ⟨{}, true, .fixed⟩

/-- The upload of a client. -/
def upload (t : ℕ) : UploadId := if t = 2 ∨ t = 4 then ⟨Uuid.b.text⟩ else ⟨Uuid.a.text⟩

def post : TusRequest :=
  .ofTexts .post none [(.tusResumable, "1.0.0"), (.uploadLength, "1")] none

def patch (t : ℕ) : TusRequest where
  method := .patch
  uploadId := some (upload t).val
  headers := [(.tusResumable, .fromStatic "1.0.0".toList),
    (.contentType, .fromStatic "application/offset+octet-stream".toList),
    (.uploadOffset, .fromStatic "0".toList)]
  body := some (.ok [97])

def step (t : ℕ) : ClientMove := .step t (.permissive (if t = 2 then .b else .a))

/-- Two clients create an upload each, step by step in turn. -/
def creations : List ClientMove :=
  [.start 1 post, .start 2 post] ++ (List.replicate 3 [step 1, step 2]).flatten ++
    [.finish 1, .finish 2]

/-- Two others send a byte to each upload in the same way. -/
def run : List ClientMove :=
  creations ++ [.start 3 (patch 3), .start 4 (patch 4)] ++
    (List.replicate 7 [step 3, step 4]).flatten ++ [.finish 3, .finish 4]

/-- Whether a move may be part of the run. -/
def admits {σ : Type} (c : Clients σ Unit) : ClientMove → Bool
  | .start t q =>
    match requestId q with
    | .ok i => i == upload t
    | .error _ => true
  | .step t _ =>
    match c.threads t with
    | .running _ (.op (.store o) _) =>
      match o with
      | .concatenate _ _ => false
      | o => o.target == upload t
    | .running _ (.op (.acquire i) _) | .running _ (.op (.release i) _) => i == upload t
    | _ => true
  | .finish _ => true

theorem minds_of_admits {σ : Type} {c : Clients σ Unit} {m : ClientMove} (hm : admits c m = true) :
    Minds upload c m := by
  constructor
  · rintro t q i rfl - hi
    simpa [admits, hi] using hm
  · rintro t env q o k rfl hrunning -
    simp only [admits, hrunning] at hm
    cases o with
    | store o =>
        cases o with
        | concatenate _ _ => cases hm
        | _ => exact ⟨by simpa using hm, fun _ _ heq => by cases heq⟩
    | acquire i | release i => exact eq_of_beq hm
    | _ => trivial

def status {σ : Type} (c : Clients σ Unit) (t : ℕ) : Option ℕ :=
  match c.threads t with
  | .done _ (.ok resp) => some resp.status
  | _ => none

def order : Listing := ⟨List.reverse, List.reverse_perm⟩

theorem memory_evaluated : (checked (clients handler MemoryStore.interp .blind) admits run
    (opened (fun _ => none) ())).map (fun c => [1, 2, 3, 4].map (status c)) =
      some [some 201, some 201, some 204, some 204] := by
  decide +kernel

theorem slots_evaluated : (checked (clients handler Slots.interp .blind) admits run
    (opened Slots.empty ())).map (fun c => [1, 2, 3, 4].map (status c)) =
      some [some 201, some 201, some 204, some 204] := by
  decide +kernel

theorem upload_valid (t : ℕ) : (upload t).Valid := by
  rw [upload]
  split <;> exact UploadId.valid_new _

end TwoUploads

open TwoUploads in
theorem memory_clients_apart_two : ∃ c d,
    checked (clients handler MemoryStore.interp .blind) admits run
      (opened (fun _ => none) ()) = some c ∧
      Run (clients handler MemoryStore.interp .blind) (fun _ _ => True) (opened (fun _ => none) ())
        (run.filter fun m => upload m.thread = upload 3) d ∧
      d.threads 3 = c.threads 3 ∧ d.shared.store (upload 3) = c.shared.store (upload 3) := by
  obtain ⟨c, hc, -⟩ := Option.map_eq_some_iff.mp memory_evaluated
  have hrun := run_of_checked (fun _ _ => minds_of_admits) .nil hc
  obtain ⟨d, hd, hthreads, hstore⟩ := MemoryStore.memory_clients_apart hrun 3
  exact ⟨c, d, hc, hd, hthreads 3 rfl, hstore⟩

open TwoUploads in
theorem file_clients_apart_two : ∃ c d,
    Run (clients handler (FileStore.uploads.interp order) .blind) (Minds upload)
        (opened Disk.empty ()) run c ∧
      [1, 2, 3, 4].map (status c) = [some 201, some 201, some 204, some 204] ∧
      Run (clients handler (FileStore.uploads.interp order) .blind) (fun _ _ => True)
        (opened Disk.empty ()) (run.filter fun m => upload m.thread = upload 3) d ∧
      d.threads 3 = c.threads 3 := by
  obtain ⟨u, hu, hstatuses⟩ := Option.map_eq_some_iff.mp slots_evaluated
  obtain ⟨c, hrun, hthreads, -⟩ := FileStore.run_of_slots FileStore.keeps_empty upload_valid
    (run_of_checked (fun _ _ => minds_of_admits) .nil hu)
  have hstatus : status c = status u := by
    funext t
    simp only [status, hthreads]
  obtain ⟨d, hd, hsame, -⟩ :=
    FileStore.file_clients_apart FileStore.keeps_empty upload_valid hrun 3
  exact ⟨c, d, hrun, hstatus ▸ hstatuses, hd, hsame 3 rfl⟩

end Fileloft
