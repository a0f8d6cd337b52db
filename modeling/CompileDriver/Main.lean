import CompileDriver.CommandLine.Run
import CompileDriver.Script.Machine

/-! # The program

The calls of procedures are carried out on the files of the computer. No process is started: a
command runs if it is a utility or a script for the shell, which sees its working directory, the
programs that may be meant, and the files that the arguments name.
-/

namespace CompileDriver.Program

def errorOf : IO.Error → IoError
  | .noFileOrDirectory .. | .noSuchThing .. => .notFound
  | .alreadyExists .. => .alreadyExists
  | .inappropriateType _ _ details =>
    if details.toLower = "is a directory" then .isADirectory else .notADirectory
  | .invalidArgument .. => .nulInName
  | _ => .permissionDenied

def attempt {α : Type} (act : IO α) : IO (Except IoError α) := do
  try
    return .ok (← act)
  catch e =>
    return .error (errorOf e)

def status (p : Path) : IO PathStatus := do
  let place ← IO.FS.realPath p.text
  match (← place.metadata).type with
  | .dir => return .directory
  | _ => return .file true

def list (p : Path) : IO (List (String × Bool)) := do
  let place ← IO.FS.realPath p.text
  (← place.readDir).toList.mapM fun entry => do
    return (entry.fileName, ← entry.path.isDir)

/-- Add what lies at a path to a file system. -/
def copyIn (cwd : Path) (fs : FileSystem) (p : Path) : IO FileSystem := do
  let p := Path.absolute cwd p
  let fs := fs.putDirectories p.location.dropLast
  match ← attempt (status p) with
  | .ok .directory => return fs.putDirectories p.location
  | .ok (.file executable) =>
    match ← attempt (IO.FS.readBinFile p.text) with
    | .ok contents => return fs.put p.location (.file ⟨contents, executable⟩)
    | .error _ => return fs
  | .error _ => return fs

/-- Write what is in a file system and was not in the one before. -/
def copyOut (before after : FileSystem) : IO Unit :=
  (after.below []).forM fun (l, node) => do
    if before.node? l ≠ some node then
      match node with
      | .directory => IO.FS.createDir (Script.Shell.pathOf l)
      | .file f => IO.FS.writeBinFile (Script.Shell.pathOf l) f.contents

/-- Run a command on the utilities and the files that concern it. -/
def spawn (env : Environment) (c : Command) : IO (Except IoError Output) := do
  let directory := (c.directory.map (Path.absolute env.workingDirectory)).getD env.workingDirectory
  let programs := if c.program.text.toList.contains '/' then [c.program]
    else Executable.candidates env c.program
  let places := directory :: programs ++ c.arguments.map Path.mk
  let before ← (places.filter (·.text ≠ "")).foldlM (copyIn directory) Script.Utility.files
  let (r, after) := (Script.Machine.host ⟨env.searchPath⟩ directory.location).spawn c before
  copyOut before after
  return r

def answer (env : Environment) (log : IO.Ref (List LogEntry)) : (c : Call) → IO c.Answer
  | .status p => attempt (status p)
  | .makeDirectory p => attempt (IO.FS.createDir p.text)
  | .create p => attempt (IO.FS.writeBinFile p.text .empty)
  | .write p data => attempt (IO.FS.writeBinFile p.text data)
  | .read p => attempt (IO.FS.readBinFile p.text)
  | .list p => attempt (list p)
  | .spawn c => spawn env c
  | .record e => log.modify (· ++ [e])
  | .recorded => log.get
  | .warn m => IO.eprintln (" WARN " ++ m)
  | .say s => IO.eprintln s

def perform {α : Type} (env : Environment) (log : IO.Ref (List LogEntry)) : Procedure α → IO α
  | .done a => return a
  | .call c next => do
    let r ← answer env log c
    perform env log (next r)

def environment : IO Environment := do
  let home := (← IO.getEnv "HOME").getD "/"
  let searchPath := (← IO.getEnv "PATH").getD "/usr/bin:/bin"
  return { workingDirectory := ⟨(← IO.currentDir).toString⟩, home := ⟨home⟩, searchPath,
           compiler := ← IO.getEnv "CC" }

end CompileDriver.Program

open CompileDriver in
def main (args : List String) : IO UInt32 := do
  let env ← Program.environment
  let o ← Program.perform env (← IO.mkRef []) (CommandLine.run env args)
  IO.print o.stdout
  return o.code.toUInt32
