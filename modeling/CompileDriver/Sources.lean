import CompileDriver.Failure
import CompileDriver.Glob.Walk

/-! # Source lists

The sources of a request are given by paths and patterns. A path stands for itself, whether it
exists or not; a pattern stands for the regular files that match it, in increasing order. Each
source counts once.
-/

namespace CompileDriver

structure GlobFailure where
  entry : String
  error : Glob.PatternError
deriving DecidableEq, Repr

def GlobFailure.chain (f : GlobFailure) : Chain :=
  [.text ("invalid glob pattern: " ++ f.entry), .text f.error.message]

namespace Sources

open Procedure

def isPattern (entry : String) : Bool := entry.toList.any fun c => c == '*' || c == '?' || c == '['

def regularFiles : List Glob.Finding → Procedure (List Path)
  | [] => done []
  | .found p :: fs =>
    (isFile p).bind fun keep => (regularFiles fs).bind fun ps =>
      done (if keep then p :: ps else ps)
  | .unreadable p e :: fs =>
    call (.warn ("glob error: attempting to read `" ++ p.text ++ "` resulted in an error: " ++
      e.message)) fun () => regularFiles fs

def sorted (ps : List Path) : List Path := ps.mergeSort Path.le

def expandEntry (base : Path) (entry : String) : Procedure (Except GlobFailure (List Path)) :=
  if isPattern entry then
    match Glob.findings (base / entry) with
    | .error e => done (.error ⟨entry, e⟩)
    | .ok findings => findings.bind fun fs => (regularFiles fs).bind fun ps => done (.ok (sorted ps))
  else done (.ok [base / entry])

/-- The paths that entries stand for, with repetitions. -/
def expandEntries (base : Path) : List String → Procedure (Except GlobFailure (List Path))
  | [] => done (.ok [])
  | entry :: entries =>
    (expandEntry base entry).andThen fun ps =>
      (expandEntries base entries).andThen fun qs => done (.ok (ps ++ qs))

/-- The first occurrence of each path. -/
def distinct : List Path → List Path
  | [] => []
  | p :: ps => p :: (distinct ps).filter (!p.same ·)

/-- The sources that entries stand for, seen from `base`. -/
def expand (base : Path) (entries : List String) : Procedure (Except GlobFailure (List Path)) :=
  (expandEntries base entries).andThen fun ps => done (.ok (distinct ps))

end Sources

end CompileDriver
