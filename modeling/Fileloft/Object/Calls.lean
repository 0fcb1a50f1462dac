import Fileloft.Effect.Prog
import Fileloft.Object.Store

/-!
# The service calls of an operation

What an operation of an object store can call, whatever the service answers.
-/

namespace Fileloft

open Prog

variable {A : ObjectOp → Prop} {G : (o : ObjectOp) → ObjectSig.Ans o → Prop}

namespace ObjectStore

section Send

variable {β : Type} {fails : ServiceError → TusError} {o : ObjectOp} {f : o.Val → ObjectProg β}

theorem uses_send (ho : A o) (hf : ∀ v, (f v).Uses A G) : ((send fails o).bind f).Uses A G := by
  refine ⟨ho, fun r _ => ?_⟩
  cases r with
  | ok v => exact hf v
  | error e => trivial

theorem uses_send_end (ho : A o) : (send fails o).Uses A G := by
  refine ⟨ho, fun r _ => ?_⟩
  cases r <;> trivial

theorem returns_send {Q : β → Prop} (hf : ∀ v, (f v).Returns G Q) :
    ((send fails o).bind f).Returns G Q := by
  intro r _
  cases r with
  | ok v => exact hf v
  | error e => trivial

end Send

theorem uses_bestEffort {o : ObjectOp} (ho : A o) : (bestEffort o).Uses A G :=
  ⟨ho, fun _ _ => trivial⟩

variable {s : ObjectStore} {id : UploadId}

theorem uses_writeInfo (hput : ∀ json, A (.put (s.infoKey id) json)) (info : UploadInfo) :
    (s.writeInfo id info).Uses A G := by
  have hvec : (s.toVec info).Uses A G := by
    rw [toVec]
    split <;> trivial
  exact hvec.bind fun json => uses_send_end (hput json)

theorem uses_readInfo (hget : A (.get (s.infoKey id))) : (s.readInfo id).Uses A G := by
  apply uses_send hget
  intro body
  apply (uses_ofExcept _).bind
  intro buf
  split <;> trivial

theorem uses_listParts (hlist : A (.list (s.partPrefix id))) : (s.listParts id).Uses A G :=
  uses_send hlist fun _ => trivial

theorem uses_writeFinalInfo (hget : A (.get (s.infoKey id)))
    (hput : ∀ json, A (.put (s.infoKey id) json)) (partials : List UploadInfo) :
    (s.writeFinalInfo id partials).Uses A G :=
  (uses_readInfo hget).bind fun _ => uses_writeInfo hput _

theorem uses_deleteAll {keys : List Str} (hdelete : ∀ key ∈ keys, A (.delete key)) :
    (deleteAll keys).Uses A G := by
  induction keys with
  | nil => trivial
  | cons key keys ih =>
      obtain ⟨hkey, hkeys⟩ := List.forall_mem_cons.mp hdelete
      exact ⟨hkey, fun _ _ => ih hkeys⟩

end ObjectStore

namespace S3Upload

open ObjectStore

variable {s : ObjectStore} {id : UploadId} {dest uploadId : Str}
  (hpart : ∀ number part, A (.uploadPart dest uploadId number part))

include hpart

theorem uses_uploadOnePart (part : Bytes) (a : Assembly) :
    (uploadOnePart s id dest uploadId part a).Uses A G := by
  rw [uploadOnePart]
  split
  · trivial
  · apply uses_send (hpart a.partNumber part)
    intro v
    cases v <;> trivial

theorem uses_drain (more : Bool) (a : Assembly) : (drain s id dest uploadId more a).Uses A G := by
  induction hlen : a.buffer.length using Nat.strong_induction_on generalizing a with
  | _ len ih =>
      rw [drain]
      split
      · next hfull =>
          apply (uses_uploadOnePart hpart _ a).bind
          intro sent
          apply ih _ _ _ rfl
          rw [List.length_drop]
          simp only [MIN_MULTIPART_PART] at hfull ⊢
          omega
      · trivial

theorem uses_readSource (more : Bool) (broken : Option Str) (reads : List Bytes) (a : Assembly) :
    (readSource s id dest uploadId more broken reads a).Uses A G := by
  induction reads generalizing a with
  | nil =>
      cases broken with
      | some e => trivial
      | none => exact uses_drain hpart more a
  | cons read reads ih =>
      rw [readSource]
      split
      · exact uses_drain hpart more a
      · exact (uses_drain hpart true _).bind ih

theorem uses_readSources {keys : List Str} (hget : ∀ key ∈ keys, A (.get key)) (a : Assembly) :
    (readSources s id dest uploadId keys a).Uses A G := by
  induction keys generalizing a with
  | nil => trivial
  | cons key keys ih =>
      obtain ⟨hkey, hkeys⟩ := List.forall_mem_cons.mp hget
      apply uses_send hkey
      intro body
      exact (uses_readSource hpart _ _ _ _).bind (ih hkeys)

theorem uses_multipartUploadParts {sources : List Str} (hget : ∀ key ∈ sources, A (.get key)) :
    (multipartUploadParts s id dest uploadId sources).Uses A G := by
  apply (uses_readSources hpart hget .start).bind
  intro a
  split
  · exact (uses_uploadOnePart hpart [] a).bind fun _ => trivial
  · split
    · exact (uses_uploadOnePart hpart _ a).bind fun _ => trivial
    · trivial

end S3Upload

namespace AzureUpload

open ObjectStore

variable {s : ObjectStore} {id : UploadId} {op dest : Str}

theorem uses_stageBlocks (hblock : ∀ block content, A (.putBlock dest block content)) (i : ℕ)
    {srcs : List Str} (hget : ∀ key ∈ srcs, A (.get key)) :
    (stageBlocks s id op dest i srcs).Uses A G := by
  induction srcs generalizing i with
  | nil => trivial
  | cons src srcs ih =>
      obtain ⟨hsrc, hsrcs⟩ := List.forall_mem_cons.mp hget
      apply uses_send hsrc
      intro body
      apply (uses_ofExcept _).bind
      intro data
      apply uses_send (hblock (blockIdForIndex i) data)
      intro _
      exact (ih (i + 1) hsrcs).bind fun _ => trivial

end AzureUpload

/-! ## Calls about some objects -/

/-- A call that names only such objects, and lists by one prefix. -/
structure Confined (P : Str → Prop) (p : Str) (o : ObjectOp) : Prop where
  keys : ∀ key ∈ o.keys, P key
  list : ∀ p', o = .list p' → p' = p

variable {P : Str → Prop} {p : Str}

theorem Confined.of_one {key : Str} (hkey : P key) {o : ObjectOp} (hkeys : o.keys = [key])
    (hlist : ∀ p', o ≠ .list p') : Confined P p o where
  keys := by
    rw [hkeys]
    exact List.forall_mem_singleton.mpr hkey
  list p' h := absurd h (hlist p')

end Fileloft
