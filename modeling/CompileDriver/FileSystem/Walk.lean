import CompileDriver.FileSystem.Basic
import CompileDriver.Failure
import CompileDriver.Path.Basic

/-! # Following paths through a file system

A path leads from a starting directory, piece by piece, to a directory, a file, or a name that
is still free in a directory. The requests of the operating system that name a path are
decided by where it leads.
-/

namespace CompileDriver

inductive Target where
  | directory (l : Location)
  | file (l : Location) (f : File)
  /-- A name that does not exist, in the directory that would hold it. -/
  | free (l : Location) (name : String)
deriving DecidableEq

inductive PathStatus where
  | directory
  | file (executable : Bool)
deriving DecidableEq

/-- The names in a path from the root; `..` goes back by one. -/
def Path.location (p : Path) : Location :=
  p.components.foldl (fun l c => match c with
    | .name s => l ++ [s]
    | .parent => l.dropLast
    | _ => l) []

namespace FileSystem

/-- The longest name that a directory can hold, in bytes. -/
def longestName : Nat := 255

/-- The longest path that a request can carry, in bytes. -/
def longestPath : Nat := 4095

/-- What the directory `l` holds under `name`. -/
def lookUp (fs : FileSystem) (l : Location) (name : String) : Target :=
  match fs.node? (l ++ [name]) with
  | some .directory => .directory (l ++ [name])
  | some (.file f) => .file (l ++ [name]) f
  | none => .free l name

/-- Where the pieces of a path lead from `t`. -/
def follow (fs : FileSystem) : Target → List String → Except IoError Target
  | t, [] => .ok t
  | .file .., _ :: _ => .error .notADirectory
  | .free .., _ :: _ => .error .notFound
  | .directory l, p :: ps =>
    if p = "" ∨ p = "." then follow fs (.directory l) ps
    else if p = ".." then follow fs (.directory l.dropLast) ps
    else if longestName < p.utf8ByteSize then .error .nameTooLong
    else follow fs (fs.lookUp l p) ps

/-- Refuse a path that no request can carry. -/
def checkPath (p : Path) : Except IoError Unit :=
  if p.text.toList.contains '\x00' then .error .nulInName
  else if p.text = "" then .error .notFound
  else if longestPath < p.text.utf8ByteSize then .error .nameTooLong
  else .ok ()

/-- The pieces that are followed for `p`. -/
def steps (p : Path) : List String := Path.piecesOf p.text.toList

/-- The directory in which `p` starts, when requests are made from the directory `cwd`. -/
def startOf (cwd : Location) (p : Path) : Location := if p.isAbsolute then [] else cwd

/-- Where `p` leads from the directory `cwd`. -/
def find (fs : FileSystem) (cwd : Location) (p : Path) : Except IoError Target := do
  checkPath p
  fs.follow (.directory (startOf cwd p)) (steps p)

def withoutLastSlashes (ps : List String) : List String := (ps.reverse.dropWhile (· == "")).reverse

def makeDirectory (fs : FileSystem) (cwd : Location) (p : Path) : Except IoError FileSystem := do
  checkPath p
  match ← fs.follow (.directory (startOf cwd p)) (withoutLastSlashes (steps p)) with
  | .directory _ | .file .. => .error .alreadyExists
  | .free l name => .ok (fs.put (l ++ [name]) .directory)

/-- Open `p` for writing: a new file is made, and an old one loses its contents. -/
def create (fs : FileSystem) (cwd : Location) (p : Path) : Except IoError FileSystem := do
  checkPath p
  if p.endsInSlash then
    match ← fs.follow (.directory (startOf cwd p)) (withoutLastSlashes (steps p)).dropLast with
    | .directory _ => .error .isADirectory
    | .file .. => .error .notADirectory
    | .free .. => .error .notFound
  else
    match ← fs.follow (.directory (startOf cwd p)) (steps p) with
    | .directory _ => .error .isADirectory
    | .file l f => .ok (fs.put l (.file { f with contents := .empty }))
    | .free l name => .ok (fs.put (l ++ [name]) (.file ⟨.empty, false⟩))

def write (fs : FileSystem) (cwd : Location) (p : Path) (data : ByteArray) :
    Except IoError FileSystem := do
  match ← fs.find cwd p with
  | .directory _ => .error .isADirectory
  | .file l f => .ok (fs.put l (.file { f with contents := data }))
  | .free .. => .error .notFound

def read (fs : FileSystem) (cwd : Location) (p : Path) : Except IoError ByteArray := do
  match ← fs.find cwd p with
  | .directory _ => .error .isADirectory
  | .file _ f => .ok f.contents
  | .free .. => .error .notFound

def status (fs : FileSystem) (cwd : Location) (p : Path) : Except IoError PathStatus := do
  match ← fs.find cwd p with
  | .directory _ => .ok .directory
  | .file _ f => .ok (.file f.executable)
  | .free .. => .error .notFound

def list (fs : FileSystem) (cwd : Location) (p : Path) :
    Except IoError (List (String × Bool)) := do
  match ← fs.find cwd p with
  | .directory l => .ok (fs.entries l)
  | .file .. => .error .notADirectory
  | .free .. => .error .notFound

end FileSystem

end CompileDriver
