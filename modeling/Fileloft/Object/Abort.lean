import Fileloft.Object.Multipart
import Fileloft.Object.Slot

/-!
# How an assembly ends

Whatever service calls fail, an assembly completes or aborts its multipart
upload, unless the completion itself is refused.
-/

namespace Fileloft.S3Upload

open ObjectStore Prog

abbrev Call : Type := (o : ObjectOp) × ObjectSig.Ans o

/-- The multipart upload that a call creates. -/
def creation : Call → Option (Str × Str)
  | ⟨.createMultipart dest, .ok (some uploadId)⟩ => some (dest, uploadId)
  | _ => none

def completion : Call → Option (Str × Str)
  | ⟨.completeMultipart dest uploadId _, .ok _⟩ => some (dest, uploadId)
  | _ => none

/-- The one whose completion is refused. -/
def refusal : Call → Option (Str × Str)
  | ⟨.completeMultipart dest uploadId _, .error _⟩ => some (dest, uploadId)
  | _ => none

def abortion : Call → Option (Str × Str)
  | ⟨.abortMultipart dest uploadId, .ok _⟩ => some (dest, uploadId)
  | _ => none

/-- The object that a call asks to remove. -/
def removal : Call → Option Str
  | ⟨.delete key, _⟩ => some key
  | _ => none

def created (l : Calls ObjectSig) : List (Str × Str) := l.filterMap creation

def completed (l : Calls ObjectSig) : List (Str × Str) := l.filterMap completion

def refused (l : Calls ObjectSig) : List (Str × Str) := l.filterMap refusal

def aborted (l : Calls ObjectSig) : List (Str × Str) := l.filterMap abortion

def deleted (l : Calls ObjectSig) : List Str := l.filterMap removal

/-- No multipart upload stays open, it is completed with the result `Ok`
only, and nothing is removed without it. -/
structure Settled (result : Except TusError Unit) (l : Calls ObjectSig) : Prop where
  closed : ∀ u ∈ created l, u ∈ completed l ∨ u ∈ aborted l
  completed : ∀ u ∈ created l, (u ∈ completed l ↔ result = .ok ())
  deleted : deleted l ≠ [] → result = .ok ()

/-- The calls of the part loop. -/
def Streams : ObjectOp → Prop
  | .get _ | .uploadPart .. => True
  | _ => False

variable {σ : Type} {h : Interp ObjectSig σ} {st : σ} {s : ObjectStore} {id : UploadId}
  {dest uploadId : Str} {a : Assembly} {l : Calls ObjectSig}

/-- The part loop neither opens nor closes a multipart upload. -/
structure Quiet (l : Calls ObjectSig) : Prop where
  created : created l = []
  completed : completed l = []
  refused : refused l = []
  aborted : aborted l = []
  deleted : deleted l = []

theorem Quiet.of_streams (hl : ∀ c ∈ l, Streams c.1) : Quiet l := by
  induction l with
  | nil => exact ⟨rfl, rfl, rfl, rfl, rfl⟩
  | cons c l ih =>
      obtain ⟨h₁, h₂, h₃, h₄, h₅⟩ := ih fun c' hc' => hl c' (List.mem_cons_of_mem _ hc')
      have hc := hl c List.mem_cons_self
      rcases c with ⟨o, r⟩
      cases o with
      | get key => exact ⟨h₁, h₂, h₃, h₄, h₅⟩
      | uploadPart key uploadId number content => exact ⟨h₁, h₂, h₃, h₄, h₅⟩
      | _ => cases hc

/-- What comes after the part loop decides how the upload ends. -/
structure Ended (result : Except TusError Unit) (dest uploadId : Str) (tail : Calls ObjectSig) :
    Prop where
  closed : (dest, uploadId) ∈ completed tail ∨ (dest, uploadId) ∈ aborted tail
  completed : (dest, uploadId) ∈ completed tail ↔ result = .ok ()
  deleted : deleted tail ≠ [] → result = .ok ()

variable {tail : Calls ObjectSig} {result : Except TusError Unit}

/-- The part loop is passed over. -/
theorem filterMap_loop {α : Type} {f : Call → Option α} {c : Call} (hc : f c = none)
    (hl : l.filterMap f = []) : (c :: (l ++ tail)).filterMap f = tail.filterMap f := by
  rw [List.filterMap_cons_none hc, List.filterMap_append, hl, List.nil_append]

theorem settled_iff_ended (hl : Quiet l) (htail : created tail = []) :
    Settled result (⟨.createMultipart dest, .ok (some uploadId)⟩ :: (l ++ tail)) ↔
      Ended result dest uploadId tail := by
  have hcreated : created (⟨.createMultipart dest, .ok (some uploadId)⟩ :: (l ++ tail)) =
      [(dest, uploadId)] := by
    have hl' : l.filterMap creation = [] := hl.created
    have htail' : tail.filterMap creation = [] := htail
    have hfirst : creation ⟨.createMultipart dest, .ok (some uploadId)⟩ =
      some (dest, uploadId) := rfl
    rw [created, List.filterMap_cons_some hfirst, List.filterMap_append, hl', htail',
      List.append_nil]
  have hcompleted : completed (⟨.createMultipart dest, .ok (some uploadId)⟩ :: (l ++ tail)) =
      completed tail := filterMap_loop rfl hl.completed
  have haborted : aborted (⟨.createMultipart dest, .ok (some uploadId)⟩ :: (l ++ tail)) =
      aborted tail := filterMap_loop rfl hl.aborted
  have hdeleted : deleted (⟨.createMultipart dest, .ok (some uploadId)⟩ :: (l ++ tail)) =
      deleted tail := filterMap_loop rfl hl.deleted
  constructor
  · rintro ⟨hclosed, hdone, hremoved⟩
    rw [hcreated, List.forall_mem_singleton, hcompleted] at hclosed hdone
    rw [haborted] at hclosed
    rw [hdeleted] at hremoved
    exact ⟨hclosed, hdone, hremoved⟩
  · rintro ⟨hclosed, hdone, hremoved⟩
    refine ⟨?_, ?_, ?_⟩
    · rw [hcreated, List.forall_mem_singleton, hcompleted, haborted]
      exact hclosed
    · rw [hcreated, List.forall_mem_singleton, hcompleted]
      exact hdone
    · rw [hdeleted]
      exact hremoved

/-- An upload whose parts fail is aborted. -/
theorem after_abort (habort : ∀ dest uploadId st, (h (.abortMultipart dest uploadId) st).1 = .ok ())
    (e : TusError) :
    After h ((bestEffort (.abortMultipart dest uploadId)).bind fun _ =>
        (.fail e : ObjectProg Unit)) st
      fun r _ l => created l = [] ∧ (Ended r dest uploadId l ↔ refused l = []) := by
  apply After.op
  apply After.fail
  rw [habort]
  refine ⟨rfl, iff_of_true ⟨.inr List.mem_cons_self, ?_, ?_⟩ rfl⟩
  · exact iff_of_false (fun hmem => nomatch hmem) (fun hok => nomatch hok)
  · exact fun hne => absurd rfl hne

/-- A completion ends the upload, unless it is refused. -/
theorem after_complete (parts : List (Str × ℕ)) (deleteAfterOk : List Str) :
    After h ((s.request id "complete multipart".toList
        (.completeMultipart dest uploadId parts)).bind fun _ => deleteAll deleteAfterOk) st
      fun r _ l => created l = [] ∧ (Ended r dest uploadId l ↔ refused l = []) := by
  apply after_send
  · intro v _
    apply (after_deleteAll deleteAfterOk).mono
    rintro r st' l ⟨rfl, hl⟩
    have hcreated : created l = [] := filterMap_removals (fun _ _ => rfl) hl
    have hrefused : refused l = [] := filterMap_removals (fun _ _ => rfl) hl
    refine ⟨hcreated, iff_of_true ⟨.inl List.mem_cons_self, ?_, fun _ => rfl⟩ hrefused⟩
    exact iff_of_true List.mem_cons_self rfl
  · intro e _
    refine ⟨rfl, iff_of_false ?_ (List.cons_ne_nil _ _)⟩
    rintro ⟨hclosed | hclosed, -, -⟩
    · cases hclosed
    · cases hclosed

/-- Whatever calls fail, apart from an abort, the multipart upload is settled
exactly when its completion is not refused. -/
theorem multipart_settled_iff
    (habort : ∀ dest uploadId st, (h (.abortMultipart dest uploadId) st).1 = .ok ())
    (sources deleteAfterOk : List Str) :
    let program := multipartAssembleFromSources s id dest sources deleteAfterOk
    let calls := program.trace h st
    Settled (program.run h st).1 calls ↔ refused calls = [] := by
  intro program calls
  change After h program st fun r _ l => (Settled r l ↔ refused l = [])
  have hnone (r : Except TusError Unit) {l : Calls ObjectSig} (hcreated : created l = [])
      (hdeleted : deleted l = []) : Settled r l := by
    refine ⟨?_, ?_, fun hne => absurd hdeleted hne⟩
    · rw [hcreated]
      exact nofun
    · rw [hcreated]
      exact nofun
  by_cases hsources : sources = []
  · have hempty : program = .ret () := if_pos hsources
    rw [hempty]
    exact After.ret (iff_of_true (hnone _ rfl rfl) rfl)
  have hprogram : program = _ := if_neg hsources
  rw [hprogram]
  apply after_send
  · intro v _
    cases v with
    | none =>
        apply After.fail
        exact iff_of_true (hnone _ rfl rfl) rfl
    | some uploadId =>
        have hloop : (multipartUploadParts s id dest uploadId sources).Uses Streams
            fun _ _ => True :=
          uses_multipartUploadParts (fun _ _ => trivial) fun _ _ => trivial
        apply After.bind_attempt (After.of_uses hloop)
        intro r st' l hl
        have hquiet := Quiet.of_streams hl
        have hend {r' : Except TusError Unit} {tail : Calls ObjectSig}
            (htail : created tail = [] ∧ (Ended r' dest uploadId tail ↔ refused tail = [])) :
            Settled r' (⟨.createMultipart dest, .ok (some uploadId)⟩ :: (l ++ tail)) ↔
              refused (⟨.createMultipart dest, .ok (some uploadId)⟩ :: (l ++ tail)) = [] := by
          rw [settled_iff_ended hquiet htail.1, htail.2, refused, refused,
            filterMap_loop rfl hquiet.refused]
        cases r with
        | error e => exact (after_abort habort e).mono fun _ _ _ htail => hend htail
        | ok parts =>
            change After h (if parts = [] then _ else _) st' _
            split
            · exact (after_abort habort _).mono fun _ _ _ htail => hend htail
            · exact (after_complete parts deleteAfterOk).mono fun _ _ _ htail => hend htail
  · intro e _
    exact iff_of_true (hnone _ rfl rfl) rfl

namespace RefusedCompletion

open TwoSources

/-- A bucket that refuses every completion. -/
def handler : Interp ObjectSig Bucket
  | .completeMultipart _ _ _, b => (.error Bucket.refused, b)
  | o, b => Bucket.impl o b

theorem abort_ok (dest uploadId : Str) (b : Bucket) :
    (handler (.abortMultipart dest uploadId) b).1 = .ok () := rfl

def program : ObjectProg Unit :=
  multipartAssembleFromSources bucket upload "u".toList sources sources

end RefusedCompletion

open TwoSources RefusedCompletion in
theorem multipart_settled_iff_two :
    Settled (program.run handler before).1 (program.trace handler before) ↔
      refused (program.trace handler before) = [] :=
  multipart_settled_iff abort_ok sources sources

open TwoSources RefusedCompletion in
/-- The completion is refused after both sources went out. The multipart upload
is neither completed nor aborted. -/
theorem refused_completion_stays_open :
    sources ≠ [] ∧ created (program.trace handler before) = [("u".toList, "0".toList)] ∧
      ("u".toList, "0".toList) ∉ completed (program.trace handler before) ∧
      aborted (program.trace handler before) = [] ∧
      ¬ Settled (program.run handler before).1 (program.trace handler before) := by
  have hcalls : created (program.trace handler before) = [("u".toList, "0".toList)] ∧
      completed (program.trace handler before) = [] ∧
      aborted (program.trace handler before) = [] := by decide +kernel
  obtain ⟨hcreated, hcompleted, haborted⟩ := hcalls
  refine ⟨List.cons_ne_nil _ _, hcreated, ?_, haborted, ?_⟩
  · rw [hcompleted]
    exact List.not_mem_nil
  · intro hsettled
    have hclosed := hsettled.closed ("u".toList, "0".toList)
    rw [hcreated, hcompleted, haborted] at hclosed
    rcases hclosed (List.mem_singleton_self _) with hmem | hmem
    · cases hmem
    · cases hmem

end Fileloft.S3Upload
