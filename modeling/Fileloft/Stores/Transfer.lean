import Fileloft.Fs.Fixture
import Fileloft.Fs.Serve
import Fileloft.Memory.Store
import Fileloft.Server.Fixture
import Fileloft.Server.Transfer

/-!
# The stores keep what is sent

The memory store and the file store both keep the chunks of an upload, so a
file can be sent to either of them in pieces. The file store is taken at
whole store calls.
-/

namespace Fileloft

open Handler Pool

/-- A store that answers as another one keeps what that one keeps. -/
def Keeper.lift {σ τ : Type} {impl : Interp StoreSig σ} {impl' : Interp StoreSig τ} {id : UploadId}
    (K : Keeper impl' id) (R : σ → τ → Prop)
    (hR : ∀ s t o, R s t → (∀ i ∈ o.handle, K.accepts i) →
      (impl o s).1 = (impl' o t).1 ∧ R (impl o s).2 (impl' o t).2) : Keeper impl id where
  accepts := K.accepts
  holds c s := ∃ t, R s t ∧ K.holds c t
  tolerates := K.tolerates
  room := K.room
  accepted := K.accepted
  establishes := by
    rintro c s o ⟨t, hst, hc⟩ ho
    have hlaw := K.establishes hc ho
    cases o with
    | createUpload info =>
        rwa [← (hR s t (.createUpload info) hst fun i hi => by cases hi).1] at hlaw
    | getUpload i =>
        rwa [← (hR s t (.getUpload i) hst fun i hi => by cases hi).1] at hlaw
    | _ => trivial
  found := by
    rintro c s ⟨t, hst, hc⟩
    exact (hR s t (.getUpload id) hst (StoreOp.forall_handle K.accepted)).1.trans (K.found hc)
  record := by
    rintro c s ⟨t, hst, hc⟩
    exact (hR s t (.getInfo id) hst (StoreOp.forall_handle K.accepted)).1.trans (K.record hc)
  read := by
    rintro c s o ⟨t, hst, hc⟩ hreads
    have htarget : o.target = id := by
      cases o with
      | getUpload _ | getInfo _ | readContent _ => exact hreads
      | _ => cases hreads
    exact ⟨_, (hR s t o hst (StoreOp.forall_handle (htarget ▸ K.accepted))).2, K.read hc hreads⟩
  spared := by
    rintro c s o ⟨t, hst, hc⟩ htolerated ho hne
    exact ⟨_, (hR s t o hst ho).2, K.spared hc htolerated ho hne⟩
  written := by
    rintro c s reader n ⟨t, hst, hc⟩ hjoined hok
    obtain ⟨hanswer, hnext⟩ := hR s t (.writeChunk id c.info.offset reader) hst
      (StoreOp.forall_handle K.accepted)
    obtain ⟨buf, hbuf, hholds⟩ := K.written hc hjoined (hanswer.symm.trans hok)
    exact ⟨buf, hbuf, fun hroom => ⟨_, hnext, hholds hroom⟩⟩
  refused := by
    rintro c s reader e ⟨t, hst, hc⟩ herror
    obtain ⟨hanswer, hnext⟩ := hR s t (.writeChunk id c.info.offset reader) hst
      (StoreOp.forall_handle K.accepted)
    exact ⟨_, hnext, K.refused hc (hanswer.symm.trans herror)⟩
  fits := by
    rintro c s buf n ⟨t, hst, hc⟩ hend
    obtain ⟨m, hok⟩ := K.fits hc hend
    have hanswer := (hR s t (.writeChunk id c.info.offset (.ok buf)) hst
      (StoreOp.forall_handle K.accepted)).1
    exact ⟨m, hanswer.trans hok⟩
  declared := by
    rintro c s ⟨t, hst, hc⟩ hnone length
    obtain ⟨hanswer, hnext⟩ :=
      hR s t (.declareLength id length) hst (StoreOp.forall_handle K.accepted)
    obtain ⟨hok, hholds⟩ := K.declared hc hnone length
    exact ⟨hanswer.trans hok, _, hnext, hholds⟩
  joins := by
    rintro c s ⟨t, hst, hc⟩ hjoined hroom
    obtain ⟨hanswer, hnext⟩ := hR s t (.finalize id) hst (StoreOp.forall_handle K.accepted)
    obtain ⟨hok, hholds⟩ := K.joins hc hjoined hroom
    exact ⟨hanswer.trans hok, _, hnext, hholds⟩
  content := by
    rintro c s bytes ⟨t, hst, hc⟩ hcomplete hok
    have hanswer := (hR s t (.readContent id) hst (StoreOp.forall_handle K.accepted)).1
    exact K.content hc hcomplete (hanswer.symm.trans hok)
  downloads := by
    rintro c s ⟨t, hst, hc⟩ hcomplete hjoined
    have hanswer := (hR s t (.readContent id) hst (StoreOp.forall_handle K.accepted)).1
    exact hanswer.trans (K.downloads hc hcomplete hjoined)

namespace MemoryStore

/-- The buffer of an upload is all of its chunks. -/
def keeper (id : UploadId) : Keeper interp id where
  accepts _ := True
  holds c st := st id = some ⟨c.info, c.chunks.flatten⟩
  tolerates _ := True
  room _ := True
  accepted := trivial
  establishes := by
    intro c st o _ _
    cases o with
    | createUpload _ | getUpload _ => exact fun _ => trivial
    | _ => trivial
  found := by
    intro c st hc
    simp [interp, getUpload, hc]
  record := by
    intro c st hc
    simp [interp, getInfo, hc]
  read := by
    intro c st o hc hreads
    cases o with
    | getUpload _ | getInfo _ | readContent _ => exact hc
    | _ => cases hreads
  spared := by
    intro c st o hc _ _ hne
    exact (interp_of_ne hne st).trans hc
  written := by
    intro c st reader n hc _ hok
    cases reader with
    | error e => simp [interp, writeChunk] at hok
    | ok buf =>
        refine ⟨buf, rfl, fun _ => ?_⟩
        simp only [interp, writeChunk, hc] at hok ⊢
        cases hend : chunkEnd c.info c.info.offset buf.length with
        | error e => simp [hend] at hok
        | ok finish =>
            obtain ⟨rfl, -, -⟩ := chunkEnd_eq_ok.mp hend
            have hdata : writeAt c.chunks.flatten c.info.offset buf = c.chunks.flatten ++ buf := by
              rw [c.measured, writeAt_end]
            simp [Content.append, hdata]
  refused := by
    intro c st reader e hc herror
    cases reader with
    | error e => exact hc
    | ok buf =>
        simp only [interp, writeChunk, hc] at herror ⊢
        cases hend : chunkEnd c.info c.info.offset buf.length with
        | error e => exact hc
        | ok finish => simp [hend] at herror
  fits := by
    intro c st buf n hc hend
    exact ⟨buf.length, by simp [interp, writeChunk, hc, hend]⟩
  declared := by
    intro c st hc hnone length
    simp [interp, declareLength, hc, hnone, Content.declare]
  joins := by
    intro c st hc _ _
    exact ⟨rfl, hc⟩
  content := by
    intro c st bytes hc hcomplete hok
    simpa [interp, readContent, hc, hcomplete, eq_comm] using hok
  downloads := by
    intro c st hc hcomplete _
    simp [interp, readContent, hc, hcomplete]

end MemoryStore

namespace Content

variable {c : Content}

/-- The chunks of an upload are its parts, until they are joined. -/
def slot (c : Content) : Slot where
  info := some c.info
  parts := if c.joined then [] else c.chunks
  data := if c.joined then some c.chunks.flatten else none

theorem slot_written {reader : Reader} {n : ℕ} (hjoined : c.joined = false)
    (hok : (c.slot.writeChunk c.info.offset reader).1 = .ok n) :
    ∃ buf, reader = .ok buf ∧ ((c.chunks ++ [buf]).length ≤ FileStore.U32_BOUND →
      (c.slot.writeChunk c.info.offset reader).2 = (c.append buf).slot) := by
  cases reader with
  | error e =>
      simp [Slot.writeChunk, Slot.record, slot, FileStore.acceptChunk,
        FileStore.readToEnd, guardWith, bind, Except.bind] at hok
  | ok buf =>
      refine ⟨buf, rfl, fun hroom => ?_⟩
      obtain ⟨info, hinfo, -, -, hslot⟩ := Slot.writeChunk_ok hok
      obtain rfl : c.info = info := Option.some.inj hinfo
      have hfew : c.chunks.length < FileStore.U32_BOUND := by
        rw [List.length_append] at hroom
        exact hroom
      rw [hslot]
      simp [slot, Slot.storeChunk, Slot.addPart, hjoined, hfew, append]

theorem slot_refused {offset : ℕ} {reader : Reader} {e : TusError}
    (herror : (c.slot.writeChunk offset reader).1 = .error e) :
    (c.slot.writeChunk offset reader).2 = c.slot := by
  simp only [Slot.writeChunk, Slot.record, slot] at herror ⊢
  cases haccept : FileStore.acceptChunk c.info offset reader with
  | error e => rfl
  | ok r => simp [haccept] at herror

theorem slot_fits {buf : Bytes} {n : ℕ} (hend : chunkEnd c.info c.info.offset buf.length = .ok n) :
    (c.slot.writeChunk c.info.offset (.ok buf)).1 = .ok buf.length := by
  simp [Slot.writeChunk, Slot.record, slot, FileStore.acceptChunk, FileStore.readToEnd,
    guardWith, hend, bind, Except.bind, pure, Except.pure]

theorem slot_declared (hnone : c.info.size = none) (length : ℕ) :
    c.slot.declareLength length = (.ok (), (c.declare length).slot) := by
  simp only [Slot.declareLength, slot, hnone]
  rfl

end Content

namespace Slots

def keeper {id : UploadId} (hid : id.Valid) : Keeper interp id where
  accepts := UploadId.Valid
  holds c t := t id = c.slot
  tolerates _ := True
  room chunks := chunks.length ≤ FileStore.U32_BOUND
  accepted := hid
  establishes := fun _ _ => establishes_interp _ _
  found := by
    intro c t hc
    have hvalid : id.validate = .ok () := hid
    simp [interp, getUpload, hvalid, hc, Content.slot]
  record := by
    intro c t hc
    simp [interp, Slot.record, hc, Content.slot]
  read := by
    intro c t o hc hreads
    cases o with
    | getUpload _ | getInfo _ | readContent _ => exact hc
    | _ => cases hreads
  spared := by
    intro c t o hc _ _ hne
    exact (interp_of_ne hne t).trans hc
  written := by
    intro c t reader n hc hjoined hok
    simp only [interp, hc] at hok ⊢
    obtain ⟨buf, hbuf, hslot⟩ := Content.slot_written hjoined hok
    exact ⟨buf, hbuf, fun hroom => (Function.update_self ..).trans (hslot hroom)⟩
  refused := by
    intro c t reader e hc herror
    simp only [interp, hc] at herror ⊢
    exact (Function.update_self ..).trans (Content.slot_refused herror)
  fits := by
    intro c t buf n hc hend
    simp only [interp, hc]
    exact ⟨buf.length, Content.slot_fits hend⟩
  declared := by
    intro c t hc hnone length
    simp only [interp, hc, Content.slot_declared hnone, Function.update_self, and_self]
  joins := by
    intro c t hc hjoined _
    refine ⟨rfl, ?_⟩
    change Function.update t id _ id = _
    simp [Slot.finalize, hc, hjoined, Content.slot, Content.join]
  content := by
    intro c t bytes hc hcomplete hok
    simp only [interp, Slot.readContent, Slot.record, hc, Content.slot, hcomplete, if_true] at hok
    cases hjoined : c.joined with
    | false => simp [hjoined] at hok
    | true => simpa [hjoined, eq_comm] using hok
  downloads := by
    intro c t hc hcomplete hjoined
    simp [interp, Slot.readContent, Slot.record, hc, Content.slot, hcomplete, hjoined]

end Slots

namespace FileStore

/-- A disk keeps the slots, in whatever order its directory is listed. -/
def keeper (s : FileStore) (order : Listing) {id : UploadId} (hid : id.Valid) :
    Keeper (s.interp order) id :=
  (Slots.keeper hid).lift s.Keeps fun _ _ o hd ho => hd.call o ho order

end FileStore

/-! ## Two bytes in two pieces -/

namespace TwoPieces

def handler : TusHandler := ⟨{ enableDownload := true }, true, .fixed⟩

def file : Bytes := [97, 98]

def info : UploadInfo := .new ⟨"a".toList⟩ (some 2)

def store : MemoryStore := Function.update (fun _ => none) info.id (some ⟨info, []⟩)

def unsent : Content := ⟨info, [], false, rfl⟩

def patch (offset : String) (piece : Bytes) : TusRequest :=
  .ofTexts .patch (some "a") [(.tusResumable, "1.0.0"),
    (.contentType, "application/offset+octet-stream"), (.uploadOffset, offset)] (some piece)

def head : TusRequest := .ofTexts .head (some "a") [(.tusResumable, "1.0.0")] none

def get : TusRequest := .ofTexts .get (some "a") [] none

def steps (t n : ℕ) : List ClientMove := List.replicate n (.step t (.permissive .a))

/-- Client 1 sends a byte, client 2 sends both bytes from the start when the
first is already there, and client 3 asks. -/
def run : List ClientMove :=
  .start 1 (patch "0" [97]) :: .start 2 (patch "0" file) :: steps 1 6 ++ .finish 1 :: steps 2 4 ++
    .finish 2 :: .start 3 head :: steps 3 2 ++ [.finish 3]

/-- The other byte. -/
def rest : TusRequest := patch "1" [98]

/-- A call that is not a creation, a concatenation or a removal. -/
def plain : StoreOp → Bool
  | .createUpload _ | .concatenate _ _ | .delete _ => false
  | _ => true

/-- Whether a move may be part of the run. -/
def admits {σ : Type} (c : Clients σ Unit) : ClientMove → Bool
  | .start _ q =>
    (match parseUploadLength q.headers with
      | .ok (some _) => false
      | _ => true) &&
    match parseUploadOffset q.headers with
    | .ok n => n < file.length && match q.body with
      | some (.ok buf) => buf.isPrefixOf (file.drop n)
      | _ => true
    | .error _ => true
  | .step t _ =>
    match c.threads t with
    | .running _ (.op (.store o) _) => plain o
    | _ => true
  | .finish _ => true

def status {σ : Type} (c : Clients σ Unit) (t : ℕ) : Option ℕ :=
  match c.threads t with
  | .done _ (.ok resp) => some resp.status
  | _ => none

/-- What the record of the upload says of its length. -/
def progress {σ : Type} (impl : Interp StoreSig σ) (c : Clients σ Unit) : Option (ℕ × Option ℕ) :=
  (impl (.getInfo info.id) c.shared.store).1.toOption.map fun info => (info.offset, info.size)

theorem evaluated : (checked (clients handler MemoryStore.interp .blind) admits run
    (opened store ())).map (fun c => ([1, 2, 3].map (status c), progress MemoryStore.interp c)) =
      some ([some 204, some 409, some 204], some (1, some 2)) := by
  decide +kernel

theorem kept : (MemoryStore.keeper info.id).holds unsent store := Function.update_self ..

end TwoPieces

end Fileloft
