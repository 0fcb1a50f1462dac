import Fileloft.Core.Info
import Fileloft.Effect.Prog
import Mathlib.Data.List.Infix
import Mathlib.Logic.Function.Basic

/-!
# Object services

The calls the three object stores make to their services. A service is a
state and an answer to each call. What the stores rely on is stated as laws
over the objects that a state holds.
-/

namespace Fileloft

/-- A failed call: whether it says that the object is missing, and its text. -/
structure ServiceError where
  notFound : Bool
  text : Str
  deriving DecidableEq, Repr

/-- The body of a download: its successive reads, and the error that breaks
it off after them, if any. -/
structure Body where
  reads : List Bytes
  broken : Option Str
  deriving DecidableEq, Repr

inductive ObjectOp where
  | get (key : Str)
  | put (key : Str) (content : Bytes)
  | delete (key : Str)
  /-- All pages of one listing. -/
  | list (keyPrefix : Str)
  | compose (dest : Str) (sources : List Str) (deleteSources : Bool)
  | putBlock (key : Str) (block content : Bytes)
  | putBlockList (key : Str) (blocks : List Bytes)
  | createMultipart (key : Str)
  | uploadPart (key uploadId : Str) (number : ℕ) (content : Bytes)
  | completeMultipart (key uploadId : Str) (parts : List (Str × ℕ))
  | abortMultipart (key uploadId : Str)
  deriving DecidableEq, Repr

namespace ObjectOp

/-- What a call returns. An upload id and an entity tag may be missing. -/
abbrev Val : ObjectOp → Type
  | get _ => Body
  | list _ => List Str
  | createMultipart _ => Option Str
  | uploadPart _ _ _ _ => Option Str
  | _ => Unit

/-- The objects a call names. -/
def keys : ObjectOp → List Str
  | get key | put key _ | delete key | putBlock key _ _ | putBlockList key _ => [key]
  | createMultipart key | uploadPart key _ _ _ => [key]
  | completeMultipart key _ _ | abortMultipart key _ => [key]
  | list _ => []
  | compose dest sources _ => dest :: sources

end ObjectOp

abbrev ObjectSig : Sig where
  Op := ObjectOp
  Ans o := Except ServiceError o.Val

/-- A call and its answer have to do with an object: one names it, or the
other lists it. -/
def Involves (key : Str) : ((o : ObjectOp) × ObjectSig.Ans o) → Prop
  | ⟨.list _, .ok names⟩ => key ∈ names
  | ⟨o, _⟩ => key ∈ o.keys

structure Service where
  State : Type
  empty : State
  impl : Interp ObjectSig State
  content : State → Str → Option Bytes
  content_empty : ∀ key, content empty key = none

namespace Service

/-- Reading, writing, removing and listing objects. -/
structure Stores (svc : Service) : Prop where
  get_found : ∀ {key c st}, svc.content st key = some c →
    ∃ body, (svc.impl (.get key) st).1 = .ok body ∧ body.broken = none ∧ body.reads.flatten = c ∧
      ∀ read ∈ body.reads, read ≠ []
  get_missing : ∀ {key st}, svc.content st key = none →
    ∃ e, (svc.impl (.get key) st).1 = .error e ∧ e.notFound = true
  get_keeps : ∀ key st, (svc.impl (.get key) st).2 = st
  put_ok : ∀ key c st, (svc.impl (.put key c) st).1 = .ok ()
  put_content : ∀ key c st,
    svc.content (svc.impl (.put key c) st).2 = Function.update (svc.content st) key (some c)
  delete_content : ∀ key st,
    svc.content (svc.impl (.delete key) st).2 = Function.update (svc.content st) key none
  list_ok : ∀ keyPrefix st, ∃ names, (svc.impl (.list keyPrefix) st).1 = .ok names ∧
    names.Nodup ∧ ∀ name, name ∈ names ↔ svc.content st name ≠ none ∧ keyPrefix <+: name
  list_keeps : ∀ keyPrefix st, (svc.impl (.list keyPrefix) st).2 = st

/-- A call changes no object that it does not name. -/
def Local (svc : Service) : Prop :=
  ∀ o key st, key ∉ o.keys → svc.content (svc.impl o st).2 key = svc.content st key

/-- How many sources the service composes at once. -/
def COMPOSE_LIMIT : ℕ := 32

/-- The contents of some objects, when all of them exist. -/
def contents (svc : Service) (st : svc.State) (keys : List Str) : Option (List Bytes) :=
  keys.mapM (svc.content st)

/-- The objects after a composition. -/
def composed (dest : Str) (sources : List Str) (deleteSources : Bool) (joined : Bytes)
    (objects : Str → Option Bytes) : Str → Option Bytes := fun key =>
  if key = dest then some joined
  else if deleteSources = true ∧ key ∈ sources then none
  else objects key

/-- Composition joins its sources in order and refuses more than 32. -/
structure Composes (svc : Service) : Prop where
  compose_ok : ∀ {dest sources deleteSources cs st}, sources ≠ [] →
    sources.length ≤ COMPOSE_LIMIT → dest ∉ sources →
    svc.contents st sources = some cs →
    (svc.impl (.compose dest sources deleteSources) st).1 = .ok () ∧
      svc.content (svc.impl (.compose dest sources deleteSources) st).2 =
        composed dest sources deleteSources cs.flatten (svc.content st)
  compose_missing : ∀ {dest sources deleteSources st}, svc.contents st sources = none →
    ∃ e, (svc.impl (.compose dest sources deleteSources) st).1 = .error e ∧
      svc.content (svc.impl (.compose dest sources deleteSources) st).2 = svc.content st
  compose_many : ∀ {dest sources deleteSources st}, COMPOSE_LIMIT < sources.length →
    ∃ e, (svc.impl (.compose dest sources deleteSources) st).1 = .error e ∧
      svc.content (svc.impl (.compose dest sources deleteSources) st).2 = svc.content st

/-- Blocks are kept aside for an object until a list of them makes it. -/
structure Blocks (svc : Service) (staged : svc.State → Str → Bytes → Option Bytes) : Prop where
  block_ok : ∀ key block c st, (svc.impl (.putBlock key block c) st).1 = .ok ()
  block_content : ∀ key block c st,
    svc.content (svc.impl (.putBlock key block c) st).2 = svc.content st
  block_staged : ∀ key block c st,
    staged (svc.impl (.putBlock key block c) st).2 key =
      Function.update (staged st key) block (some c)
  list_ok : ∀ {key blocks cs st}, blocks.mapM (staged st key) = some cs →
    (svc.impl (.putBlockList key blocks) st).1 = .ok () ∧
      svc.content (svc.impl (.putBlockList key blocks) st).2 =
        Function.update (svc.content st) key (some cs.flatten)

/-- The least size of a part that is not the last one. -/
def MIN_PART : ℕ := 5 * 1024 * 1024

/-- The greatest number of a part. -/
def MAX_PART_NUMBER : ℕ := 10000

/-- The content of the part that a completion names by its tag and number. -/
def picked (parts : ℕ → Option (Str × Bytes)) (part : Str × ℕ) : Option Bytes :=
  (parts part.2).bind fun p => if p.1 = part.1 then some p.2 else none

/-- Parts are kept aside, each with its entity tag, for an open multipart
upload until a list of them makes the object. -/
structure Multipart (svc : Service)
    (kept : svc.State → Str → Str → Option (ℕ → Option (Str × Bytes))) : Prop where
  create_ok : ∀ key st, ∃ uploadId, (svc.impl (.createMultipart key) st).1 = .ok (some uploadId) ∧
    (kept (svc.impl (.createMultipart key) st).2 key uploadId).isSome
  create_content : ∀ key st,
    svc.content (svc.impl (.createMultipart key) st).2 = svc.content st
  part_ok : ∀ {key uploadId parts number st} (c), kept st key uploadId = some parts →
    1 ≤ number → number ≤ MAX_PART_NUMBER →
    ∃ etag, (svc.impl (.uploadPart key uploadId number c) st).1 = .ok (some etag) ∧
      kept (svc.impl (.uploadPart key uploadId number c) st).2 key uploadId =
        some (Function.update parts number (some (etag, c)))
  part_content : ∀ key uploadId number c st,
    svc.content (svc.impl (.uploadPart key uploadId number c) st).2 = svc.content st
  complete_ok : ∀ {key uploadId parts listed cs st}, kept st key uploadId = some parts →
    listed ≠ [] → (listed.map Prod.snd).Pairwise (· < ·) →
    listed.mapM (picked parts) = some cs → (∀ c ∈ cs.dropLast, MIN_PART ≤ c.length) →
    (svc.impl (.completeMultipart key uploadId listed) st).1 = .ok () ∧
      svc.content (svc.impl (.completeMultipart key uploadId listed) st).2 =
        Function.update (svc.content st) key (some cs.flatten)
  abort_ok : ∀ key uploadId st, (svc.impl (.abortMultipart key uploadId) st).1 = .ok ()
  abort_content : ∀ key uploadId st,
    svc.content (svc.impl (.abortMultipart key uploadId) st).2 = svc.content st

end Service

end Fileloft
