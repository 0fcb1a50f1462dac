import Fileloft.Core.Key
import Fileloft.Server.Run
import Fileloft.Fs.Disk

/-!
# The file store

The store that keeps each upload as a metadata file, one file for each chunk
and, once finalized, one data file. Each call is a program of file
operations.
-/

namespace Fileloft

/-- `serde_json` on upload records: what is written reads back. -/
structure InfoCodec where
  toVec : UploadInfo → Except Str Bytes
  fromSlice : Bytes → Except Str UploadInfo
  roundTrip : ∀ info, ∃ b, toVec info = .ok b ∧ fromSlice b = .ok info

/-- The root is a non-empty path, and the prefix of all keys is empty or
ends with a slash. -/
structure FileStore where
  root : Path
  keyPrefix : Str
  codec : InfoCodec
  rooted : root ≠ []
  slashed : keyPrefix = [] ∨ keyPrefix.getLast? = some '/'

abbrev FsProg (α : Type) : Type := Prog FsSig TusError α

namespace FsProg

/-- `map_err(TusError::Io)?`. -/
def io (o : FsOp) : FsProg o.Val :=
  Prog.op (S := FsSig) o fun
    | .ok v => .ret v
    | .error e => .fail (.io e)

def read (p : Path) : FsProg Bytes := io (.read p)

def write (p : Path) (content : Bytes) : FsProg Unit := io (.write p content)

def tryExists (p : Path) : FsProg Bool := io (.tryExists p)

def createDirAll (p : Path) : FsProg Unit := io (.createDirAll p)

def readDir (p : Path) : FsProg (List Str) := io (.readDir p)

def openTruncate (p : Path) : FsProg Unit := io (.openTruncate p)

def openRead (p : Path) : FsProg Unit := io (.openRead p)

def copy (src dst : Path) : FsProg Unit := io (.copy src dst)

def flush (p : Path) : FsProg Unit := io (.flush p)

def removeFileIgnoreNotFound (p : Path) : FsProg Unit :=
  Prog.op (S := FsSig) (.removeFile p) fun
    | .ok _ => .ret ()
    | .error .notFound => .ret ()
    | .error e => .fail (.io e)

end FsProg

/-- `Path::parent`. -/
def parent (p : Path) : Option Path := if p = [] then none else some p.dropLast

/-- `if let Some(parent) = path.parent() { create_dir_all(parent) }`. -/
def createParent (p : Path) : FsProg Unit :=
  match parent p with
  | some dir => FsProg.createDirAll dir
  | none => .ret ()

namespace FileStore

open FsProg

def withPrefix (root : Path) (keyPrefix : Str) (codec : InfoCodec) (rooted : root ≠ []) :
    FileStore where
  root := root
  keyPrefix := if keyPrefix ≠ [] ∧ keyPrefix.getLast? ≠ some '/' then keyPrefix ++ ['/']
    else keyPrefix
  codec := codec
  rooted := rooted
  slashed := by
    split
    · simp
    · next h =>
        by_cases hnil : keyPrefix = []
        · exact .inl hnil
        · exact .inr (by simpa [hnil] using h)

variable (s : FileStore) (id : UploadId)

def keyToPath (key : Str) : Path := s.root ++ (key.splitOn '/').filter fun seg => seg ≠ []

/-- The path of one object of an upload. -/
def path (kind : KeyKind) : Path := s.keyToPath (s.keyPrefix ++ id.key kind)

def infoPath : Path := s.path id .info

def dataPath : Path := s.path id .data

def partPath (index : ℕ) : Path := s.path id (.part index)

def readInfo : FsProg UploadInfo := do
  let bytes ← read (s.infoPath id)
  match s.codec.fromSlice bytes with
  | .ok info => return info
  | .error e => .fail (.internal e)

def toVec (info : UploadInfo) : FsProg Bytes :=
  match s.codec.toVec info with
  | .ok json => .ret json
  | .error e => .fail (.internal e)

def writeInfo (info : UploadInfo) : FsProg Unit := do
  let json ← s.toVec info
  write (s.infoPath id) json

/-- The number of values of a `u32`. -/
def U32_BOUND : ℕ := 2 ^ 32

/-- The index a directory entry has as a part of `id`. -/
def partIndex (name : Str) : Option ℕ :=
  match Text.strip (id.val ++ "_part_".toList) name with
  | some rest => Text.parseUInt U32_BOUND rest
  | none => none

/-- The parts among the entries of a directory, by their index. -/
def sortedParts (dir : Path) (names : List Str) : List Path :=
  let indexed := names.filterMap fun name =>
    (partIndex id name).map fun idx => (idx, dir ++ [name])
  (indexed.mergeSort fun a b => a.1 ≤ b.1).map Prod.snd

def listPartPathsSorted : FsProg (List Path) :=
  match parent (s.infoPath id) with
  | none => .ret []
  | some dir => do
    if ← tryExists dir then do
      let names ← readDir dir
      return sortedParts id dir names
    else return []

def createUpload (info : UploadInfo) : FsProg Unit := do
  Prog.ofExcept info.id.validate
  createParent (s.infoPath info.id)
  let json ← s.toVec info
  write (s.infoPath info.id) json

def getUpload : FsProg Unit := do
  Prog.ofExcept id.validate
  if ← tryExists (s.infoPath id) then return () else .fail (.notFound id.val)

/-- `read_to_end` on the body. -/
def readToEnd : Reader → Except TusError Bytes
  | .ok buf => .ok buf
  | .error e => .error (.io e)

/-- The checks of a chunk: its bytes, and the offset after it. -/
def acceptChunk (info : UploadInfo) (offset : ℕ) (reader : Reader) :
    Except TusError (Bytes × ℕ) := do
  guardWith (info.offset == offset) (.offsetMismatch info.offset offset)
  let buf ← readToEnd reader
  let endOffset ← chunkEnd info offset buf.length
  return (buf, endOffset)

/-- The two writes of an accepted chunk: a new part, then the record. -/
def storeChunk (info : UploadInfo) (buf : Bytes) (endOffset : ℕ) : FsProg ℕ := do
  let parts ← s.listPartPathsSorted id
  let partPath := s.partPath id (parts.length % U32_BOUND)
  createParent partPath
  write partPath buf
  s.writeInfo id { info with offset := endOffset }
  return buf.length

def writeChunk (offset : ℕ) (reader : Reader) : FsProg ℕ := do
  let info ← s.readInfo id
  let (buf, endOffset) ← Prog.ofExcept (acceptChunk info offset reader)
  s.storeChunk id info buf endOffset

/-- Copy each source to the end of the open destination. -/
def copyAll (dst : Path) : List Path → FsProg Unit
  | [] => .ret ()
  | src :: srcs => do
    openRead src
    copy src dst
    copyAll dst srcs

def removeAll : List Path → FsProg Unit
  | [] => .ret ()
  | p :: ps => do
    removeFileIgnoreNotFound p
    removeAll ps

def finalize : FsProg Unit := do
  let parts ← s.listPartPathsSorted id
  let dest := s.dataPath id
  createParent dest
  if parts = [] then
    write dest []
  else do
    openTruncate dest
    copyAll dest parts
    flush dest
    removeAll parts

def delete : FsProg Unit := do
  removeFileIgnoreNotFound (s.dataPath id)
  removeFileIgnoreNotFound (s.infoPath id)
  let parts ← s.listPartPathsSorted id
  removeAll parts

def declareLength (length : ℕ) : FsProg Unit := do
  let info ← s.readInfo id
  Prog.ofExcept (refuseIf info.size.isSome .uploadLengthAlreadySet)
  s.writeInfo id { info with size := some length, sizeIsDeferred := false }

def readContent : FsProg Bytes := do
  let info ← s.readInfo id
  Prog.ofExcept (guardWith info.isComplete .uploadNotReadyForDownload)
  let path := s.dataPath id
  if ← tryExists path then read path else .fail .uploadNotReadyForDownload

/-- Copy the data file of each partial, whose stored id is checked again. -/
def copyPartials (dst : Path) : List UploadInfo → FsProg Unit
  | [] => .ret ()
  | info :: infos => do
    Prog.ofExcept info.id.validate
    let src := s.dataPath info.id
    openRead src
    copy src dst
    copyPartials dst infos

def concatenate (partials : List UploadInfo) : FsProg Unit := do
  let dest := s.dataPath id
  createParent dest
  openTruncate dest
  s.copyPartials dest partials
  flush dest
  let total := wrappingSum (partials.filterMap UploadInfo.size)
  let info ← s.readInfo id
  s.writeInfo id { info with size := some total, offset := total, isFinal := true }

def call : (o : StoreOp) → FsProg o.Val
  | .createUpload info => s.createUpload info
  | .getUpload id => s.getUpload id
  | .writeChunk id offset reader => s.writeChunk id offset reader
  | .getInfo id => s.readInfo id
  | .finalize id => s.finalize id
  | .delete id => s.delete id
  | .declareLength id length => s.declareLength id length
  | .concatenate id partials => s.concatenate id partials
  | .readContent id => s.readContent id

/-- The store as an interpretation of the store calls, without I/O failures
beyond those of the directory state. -/
def interp (order : Listing) : Interp StoreSig Disk :=
    fun o d => (s.call o).run (Disk.interp order) d

/-- The store over a directory tree that starts empty. -/
abbrev backend : Backend where
  State := Disk
  empty := Disk.empty
  Choice := Listing
  impl := s.interp

end FileStore

end Fileloft
