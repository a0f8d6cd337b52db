import CompileDriver.FileSystem.Files

/-! # Options files

A long list of arguments is written to a file, one argument a line, and the compiler is given a
reference to that file instead.
-/

namespace CompileDriver

/-! ## Quoting of arguments

How one argument is written in an options file. An argument that its reader would take apart
or change is put between double quotes; all others stand as they are.
-/

inductive Quoting where
  /-- A backslash makes the next character literal. -/
  | gcc
  /-- Backslashes are literal unless a double quote follows them. -/
  | windows
deriving DecidableEq, Repr

namespace Quoting

/-- A backslash before each double quote and each backslash. -/
def escape : List Char → List Char
  | [] => []
  | c :: s => if c = '"' ∨ c = '\\' then '\\' :: c :: escape s else c :: escape s

/-- Double the backslashes that come before a double quote or the end, and put one more before
each double quote; `n` backslashes have just been read. -/
def escapeRuns : Nat → List Char → List Char
  | n, [] => List.replicate (2 * n) '\\'
  | n, c :: s =>
    if c = '\\' then escapeRuns (n + 1) s
    else if c = '"' then List.replicate (2 * n + 1) '\\' ++ '"' :: escapeRuns 0 s
    else List.replicate n '\\' ++ c :: escapeRuns 0 s

def isSpecial : Quoting → Char → Bool
  | gcc, c => Text.isBlank c || c == '"' || c == '\'' || c == '\\'
  | windows, c => Text.isBlank c || c == '"'

def escaped : Quoting → List Char → List Char
  | gcc => escape
  | windows => escapeRuns 0

/-- An argument as it stands in an options file. -/
def quoteChars (q : Quoting) (arg : List Char) : List Char :=
  if arg = [] ∨ arg.any q.isSpecial then '"' :: q.escaped arg ++ ['"'] else arg

def quote (q : Quoting) (arg : String) : String := String.ofList (q.quoteChars arg.toList)

end Quoting

/-! ## Options files -/

namespace OptionsFile

def fileName : String := "options.txt"

/-- The arguments, each quoted and on a line of its own. -/
def contents (q : Quoting) (args : List String) : String :=
  String.join (args.map fun a => q.quote a ++ "\n")

/-- Where the options file of a request lies, seen from `cwd`. -/
def location (cwd tempDir : Path) : Path := Path.absolute cwd (tempDir / fileName)

def reference (p : Path) : String := "@" ++ p.text

/-- Write the options file into `tempDir`, making that directory; its location is returned. -/
def write (cwd : Path) (q : Quoting) (args : List String) (tempDir : Path) :
    Procedure (Except IoError Path) :=
  let p := location cwd tempDir
  (Procedure.createDirectories tempDir tempDir.parents).andThen fun () =>
    (Procedure.writeFile p (contents q args).toUTF8).andThen fun () => .done (.ok p)

end OptionsFile

end CompileDriver
