import CompileDriver.Toolchain.Family

/-! # Invocations

An invocation is one run of the compiler for one source, which may use the precompiled header.
-/

namespace CompileDriver

/-! ## Use of the precompiled header

A source can use the precompiled header only if it includes that header before any other. A
source that includes it later is compiled without it, and the user is warned.
-/

namespace PrecompiledHeader

/-- What is decided for one source: arguments to add, and a warning. -/
structure Decision where
  arguments : List String := []
  warning : Option String := none
deriving DecidableEq, Repr

def tooLateMessage (header : String) (source : Path) : String :=
  "The source file " ++ source.displayName ++ " includes the header " ++ header ++
    " but it is not the first declared header, so the pre-compiled header will not be used."

def decide (cwd : Path) (family : Family) (s : Spec) (source : Path) : Decision :=
  match s.precompiledHeader, s.directivesOf? source with
  | some header, some headers =>
    if headers.head? = some header then ⟨family.headerArguments cwd s, none⟩
    else if header ∈ headers then ⟨[], some (tooLateMessage header source)⟩
    else {}
  | _, _ => {}

end PrecompiledHeader

/-! ## Invocations -/

structure Invocation where
  /-- What the run is called in messages. -/
  name : String
  workingDirectory : Path
  /-- All arguments, without the compiler itself. -/
  arguments : List String
  source : Path
  output : Path
deriving DecidableEq, Repr

namespace Invocation

/-- The invocation for one source: shared arguments, arguments for the precompiled header, the
source, and the output. -/
def make (cwd : Path) (family : Family) (workingDirectory : Path) (shared header : List String)
    (source output : Path) : Invocation :=
  let source := Path.absolute cwd source
  { name := "compiling " ++ source.displayName
    workingDirectory
    arguments := shared ++ header ++ [source.text] ++ family.outputArguments output
    source
    output }

end Invocation

end CompileDriver
