import Fileloft.Server.Serial
import Fileloft.Stores.Apart

/-!
# Requests to the memory store, one after another
-/

namespace Fileloft

open Handler Pool

/-- Over the memory store, requests that work under locks are answered, and
leave the uploads whose locks are free, as if they had come one after
another. -/
theorem MemoryStore.memory_requests_serial
    {γ : Type} {h : TusHandler} {obs : Observer MemoryStore γ}
    {on : ℕ → UploadId} {st : MemoryStore} {notes : γ} {ms : List ClientMove}
    {c : Clients MemoryStore γ} (hlocker : h.hasLocker = true)
    (hc : Run (clients h interp obs) (InTurn h on) (opened st notes) ms c) :
    ∃ order d, order.Nodup ∧
      Run (clients h interp obs) (fun _ _ => True) (opened st notes) (order.flatMap (own ms c)) d ∧
      (∀ t q r, c.threads t = .done q r → t ∈ order ∧ d.threads t = .done q r) ∧
      (∀ t, c.shared.holder (on t) = none → d.shared.store (on t) = c.shared.store (on t)) ∧
      ∀ ms₁ ms₂ t t' q, ms = ms₁ ++ ms₂ → .finish t ∈ ms₁ → .start t' q ∈ ms₂ → t' ∈ order →
        [t, t'].Sublist order :=
  serial_clients local_interp (fun _ => trivial) hlocker trivial hc

namespace TwoInTurn

def handler : TusHandler := ⟨{}, true, .fixed⟩

def upload : UploadId := ⟨Uuid.a.text⟩

def store : MemoryStore := Function.update (fun _ => none) upload (some ⟨.new upload (some 2), []⟩)

/-- The byte at offset `t`. -/
def chunk (t : ℕ) : TusRequest :=
  .ofTexts .patch (some (String.ofList upload.val))
    [(.tusResumable, "1.0.0"), (.contentType, "application/offset+octet-stream"),
      (.uploadOffset, if t = 0 then "0" else "1")] (some [97])

def step (t : ℕ) : ClientMove := .step t (.permissive .a)

/-- The second client comes while the first is at work, and ends before it. -/
def run : List ClientMove :=
  [.start 0 (chunk 0), step 0, .start 1 (chunk 1)] ++ List.replicate 5 (step 0) ++
    List.replicate 7 (step 1) ++ [.finish 1, .finish 0]

/-- Whether a move may be part of the run. -/
def admits (_ : Clients MemoryStore Unit) : ClientMove → Bool
  | .start _ q =>
    match q.method, requestId q with
    | .patch, .ok i => i == upload
    | _, _ => false
  | _ => true

theorem inTurn_of_admits {c : Clients MemoryStore Unit} {m : ClientMove} (hm : admits c m = true) :
    InTurn handler (fun _ => upload) c m := by
  rintro t q rfl
  rw [admits] at hm
  split at hm
  · next i hmethod hi =>
      refine ⟨⟨?_, ?_, ?_⟩, fun j hj => ?_⟩
      · rw [hmethod]
        exact fun heq => by cases heq
      · rw [hmethod]
        exact fun heq => by cases heq
      · rw [hmethod]
        exact fun heq => by cases heq
      · obtain rfl := Except.ok.inj (hi.symm.trans hj)
        exact eq_of_beq hm
  · cases hm

def status (c : Clients MemoryStore Unit) (t : ℕ) : Option ℕ :=
  match c.threads t with
  | .done _ (.ok resp) => some resp.status
  | _ => none

theorem evaluated : (checked (clients handler MemoryStore.interp .blind) admits run
    (opened store ())).map (fun c => ([0, 1].map (status c), c.shared.holder upload)) =
      some ([some 204, some 204], none) := by
  decide +kernel

end TwoInTurn

open TwoInTurn in
theorem MemoryStore.memory_requests_serial_two : ∃ c, ∃ order : List ℕ, ∃ d,
    checked (clients handler MemoryStore.interp .blind) admits run (opened store ()) = some c ∧
      Run (clients handler MemoryStore.interp .blind) (fun _ _ => True) (opened store ())
        (order.flatMap (own run c)) d ∧
      d.shared.store upload = c.shared.store upload := by
  obtain ⟨c, hc, hlast⟩ := Option.map_eq_some_iff.mp evaluated
  have hrun := run_of_checked (fun _ _ => inTurn_of_admits) .nil hc
  obtain ⟨order, d, -, hserial, -, hfree, -⟩ := MemoryStore.memory_requests_serial rfl hrun
  exact ⟨c, order, d, hc, hserial, hfree 0 (congrArg Prod.snd hlast)⟩

end Fileloft
