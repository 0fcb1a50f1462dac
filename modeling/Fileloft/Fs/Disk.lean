import Fileloft.Core.Error
import Fileloft.Effect.Prog
import Mathlib.Data.List.AList
import Mathlib.Data.List.Infix

/-!
# Files and directories

A path is its list of components. A disk holds the contents of its files and
the directories that exist, and answers one operation at a time. The order
in which a directory is listed is not fixed.
-/

namespace Fileloft

abbrev Path := List Str

inductive FsOp where
  | read (p : Path)
  | write (p : Path) (content : Bytes)
  | tryExists (p : Path)
  | createDirAll (p : Path)
  | readDir (p : Path)
  | removeFile (p : Path)
  /-- Open for writing, with `create` and `truncate`. -/
  | openTruncate (p : Path)
  | openRead (p : Path)
  /-- Read the first file to its end and write that at the end of the second. -/
  | copy (src dst : Path)
  | flush (p : Path)
  deriving DecidableEq, Repr

abbrev FsOp.Val : FsOp → Type
  | read _ => Bytes
  | tryExists _ => Bool
  | readDir _ => List Str
  | _ => Unit

abbrev FsSig : Sig where
  Op := FsOp
  Ans o := Except IoError o.Val

/-- The order of the entries of one directory listing. -/
abbrev Listing := { order : List Str → List Str // ∀ names, (order names).Perm names }

instance : Inhabited Listing := ⟨fun names => names, .refl⟩

structure Disk where
  files : AList fun _ : Path => Bytes
  dirs : List Path

namespace Disk

variable (d : Disk)

def empty : Disk := ⟨∅, []⟩

def content (p : Path) : Option Bytes := d.files.lookup p

/-- The empty path is the working directory. -/
def isDir (p : Path) : Bool := p = [] || p ∈ d.dirs

/-- The name of `p`, when it lies directly in `dir`. -/
def nameIn (dir p : Path) : Option Str := if p.dropLast = dir then p.getLast? else none

def names (dir : Path) : List Str := (d.files.keys ++ d.dirs).filterMap (nameIn dir)

def put (p : Path) (content : Bytes) : Disk := { d with files := d.files.insert p content }

def write (p : Path) (content : Bytes) : Except IoError Unit × Disk :=
  if d.isDir p then (.error .other, d)
  else if d.isDir p.dropLast then (.ok (), d.put p content)
  else (.error .notFound, d)

/-- The non-empty paths from the root to `p`. -/
def ancestors (p : Path) : List Path := p.inits.filter fun q => q ≠ []

def createDirAll (p : Path) : Except IoError Unit × Disk :=
  if (ancestors p).any fun q => q ∈ d.files then (.error .other, d)
  else (.ok (), { d with dirs := (ancestors p).filter (· ∉ d.dirs) ++ d.dirs })

def removeFile (p : Path) : Except IoError Unit × Disk :=
  if p ∈ d.files then (.ok (), { d with files := d.files.erase p })
  else if d.isDir p then (.error .other, d)
  else (.error .notFound, d)

/-- Nothing is seen of bytes written to a file that was unlinked. -/
def copy (src dst : Path) : Disk :=
  match d.content src, d.content dst with
  | some new, some old => d.put dst (old ++ new)
  | _, _ => d

def read (p : Path) : Except IoError Bytes :=
  match d.content p with
  | some content => .ok content
  | none => .error (if d.isDir p then .other else .notFound)

def interp (order : Listing) : Interp FsSig Disk
  | .read p, d => (d.read p, d)
  | .write p content, d => d.write p content
  | .tryExists p, d => (.ok (p ∈ d.dirs || p ∈ d.files), d)
  | .createDirAll p, d => d.createDirAll p
  | .readDir p, d => (if p ∈ d.dirs then .ok (order.1 (d.names p)) else .error .notFound, d)
  | .removeFile p, d => d.removeFile p
  | .openTruncate p, d => d.write p []
  | .openRead p, d => ((d.read p).map fun _ => (), d)
  | .copy src dst, d => (.ok (), d.copy src dst)
  | .flush _, d => (.ok (), d)

end Disk

end Fileloft
