import CompileDriver.OptionsFile
import CompileDriver.Spec

/-! # Toolchain families

A family stands for the compilers that take the same arguments. It is named by the user, or
inferred from the name of the compiler.
-/

namespace CompileDriver

inductive Family where
  | gcc
  | clang
  | appleClang
  | msvc
deriving DecidableEq, Repr

namespace Family

def name : Family → String
  | gcc => "gcc"
  | clang => "clang"
  | appleClang => "apple-clang"
  | msvc => "msvc"

/-- The text with its Latin capitals made small. No other character has a small form that
occurs in the name of a family. -/
def lowercase (s : String) : String := String.ofList (s.toList.map Char.toLower)

def ofName? (s : String) : Option Family :=
  match lowercase s with
  | "gcc" => some gcc
  | "clang" => some clang
  | "apple-clang" | "appleclang" => some appleClang
  | "msvc" | "cl" => some msvc
  | _ => none

def unknownMessage (s : String) : String :=
  "unknown toolchain family '" ++ s ++
    "'; expected 'gcc', 'clang', 'apple-clang', or 'msvc'"

def occursIn (word : List Char) : List Char → Bool
  | [] => word.isEmpty
  | c :: s => word.isPrefixOf (c :: s) || occursIn word s

/-- The family of a compiler, judged by its file name without the ending. -/
def ofCompiler (compiler : Path) : Family :=
  let stem := lowercase (compiler.stem?.getD "")
  if stem = "cl" ∨ stem = "clang-cl" then msvc
  else if occursIn "clang".toList stem.toList then clang
  else gcc

/-! ## Arguments of compilers

How each family is told what to do: the arguments that all sources of a specification share,
those that name the output, those that make it use a precompiled header, and the ending of
object files.
-/

def defineArgument (flag : String) : String × Option String → String
  | (name, some value) => flag ++ name ++ "=" ++ value
  | (name, none) => flag ++ name

def sharedArguments : Family → Spec → List String
  | msvc, s =>
    ["/nologo", "/c", match s.language with | .c => "/TC" | .cxx => "/TP"] ++
      s.macros.map (defineArgument "/D") ++
      (s.includeRoots ++ s.systemIncludeRoots).map (fun d => "/I" ++ d.text) ++
      s.arguments
  | _, s =>
    ["-c", "-x", s.language.compilerName] ++
      s.macros.map (defineArgument "-D") ++
      s.includeRoots.map (fun d => "-I" ++ d.text) ++
      s.systemIncludeRoots.flatMap (fun d => ["-isystem", d.text]) ++
      s.arguments

def outputArguments : Family → Path → List String
  | msvc, p => ["/Fo" ++ p.text]
  | _, p => ["-o", p.text]

/-- The arguments that make a source use the precompiled header, seen from `cwd`. -/
def headerArguments (cwd : Path) : Family → Spec → List String
  | msvc, s =>
    match s.precompiledHeader with
    | none => []
    | some header =>
      ["/Yu" ++ header] ++ (s.precompiledFile.map fun p => "/Fp" ++ p.text).toList ++
        ["/FI" ++ (s.prefixHeader.map Path.text).getD header]
  | _, s =>
    match s.prefixHeader, s.precompiledHeader with
    | some p, _ => ["-include", (Path.absolute cwd p).text]
    | none, some header => ["-include", header]
    | none, none => []

def objectSuffix : Family → String
  | msvc => ".obj"
  | _ => ".o"

def quoting : Family → Quoting
  | msvc => .windows
  | _ => .gcc

end Family

end CompileDriver
