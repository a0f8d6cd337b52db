import CompileDriver.FileSystem.Files
import CompileDriver.Invocation

/-! # Compilation databases

A compilation database is a JSON file that tells other programs how each source of a batch is
compiled.
-/

namespace CompileDriver

/-! ## Lists of records as JSON

Records whose fields are texts or lists of texts, written as JSON over several lines, with two
spaces for each level.
-/

namespace Json

inductive Field where
  | text (s : String)
  | texts (l : List String)
deriving DecidableEq, Repr

/-- Fields with their names, in the order in which they are written. -/
abbrev Record := List (String × Field)

def hexDigit (n : Nat) : Char := "0123456789abcdef".toList.getD n '0'

def escapeChar (c : Char) : List Char :=
  match c with
  | '"' => ['\\', '"']
  | '\\' => ['\\', '\\']
  | '\n' => ['\\', 'n']
  | '\r' => ['\\', 'r']
  | '\t' => ['\\', 't']
  | c =>
    if c.toNat = 0x08 then ['\\', 'b']
    else if c.toNat = 0x0C then ['\\', 'f']
    else if c.toNat < 0x20 then
      ['\\', 'u', '0', '0', hexDigit (c.toNat / 16), hexDigit (c.toNat % 16)]
    else [c]

def quote (s : String) : String := "\"" ++ String.ofList (s.toList.flatMap escapeChar) ++ "\""

def indent (level : Nat) : String := String.ofList (List.replicate (2 * level) ' ')

/-- Items between two brackets, each on a line of its own; without items there is one line. -/
def block (opening closing : String) (level : Nat) (items : List String) : String :=
  if items = [] then opening ++ closing
  else
    opening ++ "\n" ++
      String.intercalate ",\n" (items.map (indent (level + 1) ++ ·)) ++
      "\n" ++ indent level ++ closing

def Field.render (level : Nat) : Field → String
  | text s => quote s
  | texts l => block "[" "]" level (l.map quote)

def renderRecord (level : Nat) (r : Record) : String :=
  block "\x7b" "\x7d" level (r.map fun f => quote f.1 ++ ": " ++ f.2.render (level + 1))

def render (rs : List Record) : String := block "[" "]" 0 (rs.map (renderRecord 1))

end Json

/-! ## Compilation databases -/

structure CompileCommand where
  directory : String
  file : String
  arguments : List String
  output : String
deriving DecidableEq, Repr

namespace CompileCommand

def ofInvocation (compiler : Path) (i : Invocation) : CompileCommand where
  directory := i.workingDirectory.text
  file := i.source.text
  arguments := compiler.text :: i.arguments
  output := i.output.text

def record (c : CompileCommand) : Json.Record :=
  [("directory", .text c.directory), ("file", .text c.file), ("arguments", .texts c.arguments),
    ("output", .text c.output)]

end CompileCommand

/-- An invocation as a record, as plans are printed. -/
def Invocation.record (i : Invocation) : Json.Record :=
  [("name", .text i.name), ("working_dir", .text i.workingDirectory.text),
    ("args", .texts i.arguments), ("source", .text i.source.text), ("output", .text i.output.text)]

namespace CompilationDatabase

def contents (compiler : Path) (batch : List Invocation) : String :=
  Json.render (batch.map fun i => (CompileCommand.ofInvocation compiler i).record)

def write (p compiler : Path) (batch : List Invocation) : Procedure (Except WriteFailure Unit) :=
  Procedure.writeText p (contents compiler batch)

end CompilationDatabase

end CompileDriver
