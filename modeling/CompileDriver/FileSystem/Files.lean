import CompileDriver.Failure
import CompileDriver.Host.Procedure

/-! # Directories and text files

Making a directory with all directories above it, and reading and writing whole text files.
Another procedure may make the same directories at the same time: a directory that turns out
to exist is as good as one that was made.
-/

namespace CompileDriver

inductive WriteFailure where
  | directory (p : Path) (e : IoError)
  | file (p : Path) (e : IoError)
deriving DecidableEq, Repr

def WriteFailure.chain : WriteFailure → Chain
  | directory p e => [.text ("failed to create directory: " ++ p.text), .io e]
  | file p e => [.text ("failed to write file: " ++ p.text), .io e]

structure ReadFailure where
  path : Path
  cause : IoError
deriving DecidableEq, Repr

def ReadFailure.chain (f : ReadFailure) : Chain :=
  [.text ("failed to read file: " ++ f.path.text), .io f.cause]

namespace Procedure

/-- The outcome of making `p` after a failure: a directory that exists is good enough. -/
def acceptDirectory (p : Path) (e : IoError) : Procedure (Except IoError Unit) :=
  (isDirectory p).bind fun found => done (if found then .ok () else .error e)

/-- Make the directory `p`. If a directory above it is missing, go on with `whenMissing`. -/
def makeDirectoryOr (p : Path) (whenMissing : Procedure (Except IoError Unit)) :
    Procedure (Except IoError Unit) :=
  call (.makeDirectory p) fun
    | .ok () => done (.ok ())
    | .error .notFound => whenMissing
    | .error e => acceptDirectory p e

/-- Make the directory `p`, where `above` are its parents from the nearest on. Only if one of
those is missing are they made first, and then `p` is tried again. -/
def createDirectories (p : Path) : List Path → Procedure (Except IoError Unit)
  | [] => if p.text = "" then done (.ok ()) else makeDirectoryOr p (done (.error .notFound))
  | q :: above =>
    if p.text = "" then done (.ok ())
    else makeDirectoryOr p <| (createDirectories q above).andThen fun () =>
      makeDirectoryOr p (acceptDirectory p .notFound)

def ensureDirectory (p : Path) : Procedure (Except IoError Unit) :=
  (isDirectory p).bind fun found =>
    if found then done (.ok ()) else createDirectories p p.parents

def writeFile (p : Path) (data : ByteArray) : Procedure (Except IoError Unit) :=
  call (.create p) fun
    | .ok () => call (.write p data) done
    | .error e => done (.error e)

def writeText (p : Path) (s : String) : Procedure (Except WriteFailure Unit) :=
  let write := (writeFile p s.toUTF8).mapError (WriteFailure.file p)
  match p.parent? with
  | some d => ((ensureDirectory d).mapError (WriteFailure.directory d)).andThen fun () => write
  | none => write

def readFile (p : Path) : Procedure (Except IoError String) :=
  call (.read p) fun
    | .ok data => done <| match Text.decode? data with
      | some s => .ok s
      | none => .error .notText
    | .error e => done (.error e)

def readText (p : Path) : Procedure (Except ReadFailure String) :=
  (readFile p).mapError (ReadFailure.mk p)

end Procedure

end CompileDriver
