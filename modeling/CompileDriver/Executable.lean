import CompileDriver.Host.Procedure

/-! # Finding executables

A name with a directory in it is looked for there, seen from the working directory. Any other
name is looked for in the directories of the search path, in their order.
-/

namespace CompileDriver

/-! ## Environments

What a run of the program is told by its surroundings.
-/

structure Environment where
  workingDirectory : Path
  /-- The home directory of the user. -/
  home : Path
  /-- The directories in which programs are looked for, between colons. -/
  searchPath : String := "/usr/bin:/bin"
  /-- The C compiler that the user prefers. -/
  compiler : Option String := none
deriving DecidableEq, Repr

/-! ## Finding executables -/

namespace Executable

open Procedure

def isExecutable (p : Path) : Procedure Bool :=
  call (.status p) fun r => done <| match r with
    | .ok (.file executable) => executable
    | _ => false

def firstExecutable : List Path → Procedure (Option Path)
  | [] => done none
  | p :: ps => (isExecutable p).bind fun found => if found then done (some p) else firstExecutable ps

/-- A directory of the search path, where `~` at the start stands for the home directory. -/
def expandHome (home p : Path) : Path :=
  match p.components with
  | .name "~" :: cs => Path.absolute.place cs home
  | _ => p

def candidates (env : Environment) (name : Path) : List Path :=
  if 1 < name.components.length then
    if name.isAbsolute then [name]
    else [Path.absolute.place (name.components.dropWhile (· == .here)) env.workingDirectory]
  else
    (Text.pieces ':' env.searchPath.toList).map fun d =>
      (expandHome env.home ⟨String.ofList d⟩).join name

def find? (env : Environment) (name : Path) : Procedure (Option Path) :=
  firstExecutable (candidates env name)

def findAny? (env : Environment) : List Path → Procedure (Option Path)
  | [] => done none
  | name :: names => (find? env name).bind fun
    | some p => done (some p)
    | none => findAny? env names

/-- The names of C compilers, the most preferred first. -/
def compilerNames : List Path := [⟨"cc"⟩, ⟨"gcc"⟩, ⟨"clang"⟩, ⟨"cl"⟩]

/-- A C compiler: the one that the user prefers if it can be found, else a common one. -/
def findCompiler? (env : Environment) : Procedure (Option Path) :=
  findAny? env ((env.compiler.map Path.mk).toList ++ compilerNames)

end Executable

end CompileDriver
