import Fileloft.Core.Error
import Mathlib.Data.List.Basic

/-!
# The body of an Actix request

The payload arrives through a channel, chunk by chunk, and is read through
`poll_read` into buffers of any size. What is left of a chunk waits for the
next read.
-/

namespace Fileloft.Actix

/-- What a poll of the channel meets: an item, or none yet. -/
inductive Recv where
  | item (r : Except IoError Bytes)
  | pending

/-- A poll of the reader: not ready, ready, or failed. -/
inductive Answer where
  | pending
  | ready
  | failed (e : IoError)
  deriving DecidableEq

/-- The polls of the channel to come, after which it is closed, and the chunk
being read. -/
structure ChannelReader where
  rx : List Recv
  current : Option Bytes

/-- What a poll answers, what it puts into the buffer, and the reader after it. -/
structure Polled where
  answer : Answer
  filled : Bytes
  reader : ChannelReader

namespace ChannelReader

def new (rx : List Recv) : ChannelReader := ⟨rx, none⟩

/-- Fill the buffer from the current chunk. -/
def fill (capacity : ℕ) (rx : List Recv) (current : Bytes) : Polled :=
  let n := min current.length capacity
  if n = 0 then ⟨.ready, [], ⟨rx, some current⟩⟩
  else
    ⟨.ready, current.take n, ⟨rx, if current.drop n = [] then none else some (current.drop n)⟩⟩

/-- The loop without a current chunk: poll the channel until it has one. -/
def receive (capacity : ℕ) : List Recv → Polled
  | [] => ⟨.ready, [], ⟨[], none⟩⟩
  | .pending :: rx => ⟨.pending, [], ⟨rx, none⟩⟩
  | .item (.error e) :: rx => ⟨.failed e, [], ⟨rx, none⟩⟩
  | .item (.ok bytes) :: rx => if bytes = [] then receive capacity rx else fill capacity rx bytes

def pollRead (capacity : ℕ) (r : ChannelReader) : Polled :=
  match r.current with
  | some current => fill capacity r.rx current
  | none => receive capacity r.rx

/-- What is delivered by polls with these capacities, and the reader after them. -/
def polls : List ℕ → ChannelReader → Bytes × ChannelReader
  | [], r => ([], r)
  | capacity :: caps, r =>
    let polled := pollRead capacity r
    let (delivered, r) := polls caps polled.reader
    (polled.filled ++ delivered, r)

/-! ## What is delivered -/

/-- The bytes of the chunks, in order. -/
def bytes : List Recv → Bytes
  | [] => []
  | .item (.ok chunk) :: rx => chunk ++ bytes rx
  | _ :: rx => bytes rx

theorem bytes_append (xs ys : List Recv) : bytes (xs ++ ys) = bytes xs ++ bytes ys := by
  induction xs with
  | nil => rfl
  | cons x xs ih =>
      rcases x with (e | chunk) | _
      · exact ih
      · rw [List.cons_append, bytes, bytes, ih, List.append_assoc]
      · exact ih

/-- After some polls of the channel the chunks received are those delivered
and the current one, which is not empty. -/
structure Inv (script : List Recv) (delivered : Bytes) (r : ChannelReader) : Prop where
  received : ∃ polled, script = polled ++ r.rx ∧ bytes polled = delivered ++ r.current.getD []
  current : ∀ c ∈ r.current, c ≠ []

/-- What one poll may answer. -/
structure Delivers (script : List Recv) (delivered : Bytes) (capacity : ℕ) (p : Polled) : Prop where
  inv : Inv script (delivered ++ p.filled) p.reader
  ended : p.answer = .ready → p.filled = [] → 0 < capacity →
    p.reader.rx = [] ∧ delivered = bytes script
  failed : ∀ e, p.answer = .failed e → p.filled = [] ∧
    ∃ polled, script = polled ++ .item (.error e) :: p.reader.rx ∧ delivered = bytes polled

section Polls

variable {script : List Recv} {delivered : Bytes} {capacity : ℕ}

theorem delivers_fill {polled rx : List Recv} {current : Bytes} (hscript : script = polled ++ rx)
    (hbytes : bytes polled = delivered ++ current) (hne : current ≠ []) :
    Delivers script delivered capacity (fill capacity rx current) := by
  have hpos := List.length_pos_of_ne_nil hne
  unfold fill
  simp only
  split
  · next hzero =>
      refine ⟨⟨⟨polled, hscript, by simpa using hbytes⟩, ?_⟩, ?_, nofun⟩
      · rintro c ⟨⟩
        exact hne
      · intro _ _ hcapacity
        omega
  · next hn =>
      refine ⟨⟨⟨polled, hscript, ?_⟩, ?_⟩, ?_, nofun⟩
      · rw [hbytes, List.append_assoc]
        congr 1
        split
        · next hdrop =>
            have hparts := List.take_append_drop (min current.length capacity) current
            rw [hdrop] at hparts
            exact hparts.symm
        · exact (List.take_append_drop _ _).symm
      · intro c hc
        split at hc
        · cases hc
        · next hdrop =>
            obtain rfl := Option.some.inj hc
            exact hdrop
      · intro _ hnil
        have hlen := congrArg List.length hnil
        rw [List.length_take, List.length_nil] at hlen
        omega

theorem delivers_receive {polled rx : List Recv} (hscript : script = polled ++ rx)
    (hbytes : bytes polled = delivered) :
    Delivers script delivered capacity (receive capacity rx) := by
  induction rx generalizing polled with
  | nil =>
      refine ⟨⟨⟨polled, hscript, by simp [receive, hbytes]⟩, nofun⟩, ?_, nofun⟩
      intro _ _ _
      rw [hscript, List.append_nil]
      exact ⟨rfl, hbytes.symm⟩
  | cons x rx ih =>
      have hpolled : script = (polled ++ [x]) ++ rx := by simpa using hscript
      rcases x with (e | chunk) | _
      · refine ⟨⟨⟨_, hpolled, by simp [receive, bytes_append, bytes, hbytes]⟩, nofun⟩, nofun, ?_⟩
        rintro _ ⟨⟩
        exact ⟨rfl, polled, hscript, hbytes.symm⟩
      · have hchunk : bytes (polled ++ [.item (.ok chunk)]) = delivered ++ chunk := by
          simp [bytes_append, bytes, hbytes]
        rw [receive]
        split
        · next hempty =>
            apply ih hpolled
            rw [hchunk, hempty, List.append_nil]
        · next hne => exact delivers_fill hpolled hchunk hne
      · exact ⟨⟨⟨_, hpolled, by simp [receive, bytes_append, bytes, hbytes]⟩, nofun⟩, nofun, nofun⟩

theorem Inv.pollRead {r : ChannelReader} (hr : Inv script delivered r) :
    Delivers script delivered capacity (r.pollRead capacity) := by
  obtain ⟨⟨polled, hscript, hbytes⟩, hcurrent⟩ := hr
  unfold ChannelReader.pollRead
  split
  · next current hsome =>
      rw [hsome] at hbytes
      exact delivers_fill hscript hbytes (hcurrent current hsome)
  · next hnone =>
      rw [hnone] at hbytes
      exact delivers_receive hscript (by simpa using hbytes)

theorem Inv.polls {r : ChannelReader} (hr : Inv script delivered r) (caps : List ℕ) :
    Inv script (delivered ++ (polls caps r).1) (polls caps r).2 := by
  induction caps generalizing delivered r with
  | nil => simpa [ChannelReader.polls] using hr
  | cons capacity caps ih =>
      have hread : Delivers script delivered capacity (r.pollRead capacity) := hr.pollRead
      have hrest := ih hread.inv
      simpa [ChannelReader.polls, List.append_assoc] using hrest

theorem inv_new (script : List Recv) : Inv script [] (new script) :=
  ⟨⟨[], rfl, rfl⟩, nofun⟩

end Polls

/-- What polls of a new reader deliver. -/
def delivered (script : List Recv) (caps : List ℕ) : Bytes := (polls caps (new script)).1

/-- The poll that follows them. -/
def following (script : List Recv) (caps : List ℕ) (capacity : ℕ) : Polled :=
  (polls caps (new script)).2.pollRead capacity

theorem delivers_following (script : List Recv) (caps : List ℕ) (capacity : ℕ) :
    Delivers script (delivered script caps) capacity (following script caps capacity) :=
  ((inv_new script).polls caps).pollRead

/-- After any polls, one more delivers the next bytes of the chunks, says that
there is nothing left only when the channel is closed and all of them are
delivered, and fails only when those before the failure are. -/
theorem delivers_in_order (script : List Recv) (caps : List ℕ) (capacity : ℕ) :
    delivered script caps ++ (following script caps capacity).filled <+: bytes script ∧
    ((following script caps capacity).answer = .ready →
      (following script caps capacity).filled = [] → 0 < capacity →
        (following script caps capacity).reader.rx = [] ∧
          delivered script caps = bytes script) ∧
    ∀ e, (following script caps capacity).answer = .failed e →
      (following script caps capacity).filled = [] ∧
        ∃ polled, script = polled ++ .item (.error e) ::
          (following script caps capacity).reader.rx ∧
          delivered script caps = bytes polled := by
  have hpoll := delivers_following script caps capacity
  refine ⟨?_, hpoll.ended, hpoll.failed⟩
  obtain ⟨polled, hscript, hbytes⟩ := hpoll.inv.received
  have hall := congrArg bytes hscript
  rw [bytes_append, hbytes] at hall
  rw [hall]
  exact (List.prefix_append _ _).trans (List.prefix_append _ _)

example : delivered [.item (.ok []), .item (.ok [1, 2, 3]), .pending, .item (.ok [4])]
    [2, 2, 0, 5, 5] = [1, 2, 3, 4] := by decide

end ChannelReader

end Fileloft.Actix
