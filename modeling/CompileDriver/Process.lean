import CompileDriver.Path.Basic

/-! # Commands and their output

A command is an executable with its arguments and the directory it runs in. What it leaves
behind is an exit status and two streams of bytes.
-/

namespace CompileDriver

structure Command where
  program : Path
  arguments : List String
  directory : Option Path
deriving DecidableEq

/-- What a finished process leaves behind. A process that a signal ended has no exit code. -/
structure Output where
  code : Option Nat
  stdout : ByteArray
  stderr : ByteArray

def Command.display (c : Command) : String :=
  String.intercalate " " (c.program.text :: c.arguments)

namespace Output

def isSuccess (o : Output) : Bool := o.code == some 0

/-- Standard output followed by standard error, which starts on a line of its own. -/
def combine (stdout stderr : ByteArray) : String :=
  let out := Text.decodeLossy stdout
  let err := Text.decodeLossy stderr
  if out ≠ "" ∧ err ≠ "" ∧ out.toList.getLast? ≠ some '\n' then out ++ "\n" ++ err
  else out ++ err

def text (o : Output) : String := combine o.stdout o.stderr

/-- The first line that is not blank, without the blank characters around it. -/
def firstLine? (s : String) : Option String :=
  ((Text.lines s.toList).find? fun l => !l.all Text.isBlank).map
    fun l => String.ofList (Text.trim l)

/-- How a failed process ended, with the first line it printed. -/
def failureMessage (o : Output) : String :=
  let status := match o.code with
    | some n => "compiler exited with status " ++ n.repr
    | none => "compiler terminated by signal"
  match firstLine? o.text with
  | some line => status ++ " (" ++ line ++ ")"
  | none => status

end Output

/-! ## The operation log

Every compiler run of a request leaves one entry in its log. The log is printed as one block
per entry, in the order of the entries.
-/

structure LogEntry where
  description : String
  output : String
  succeeded : Bool
deriving DecidableEq, Repr

/-- The block of an entry: a line with the outcome, the output if there is any, a blank line. -/
def LogEntry.render (e : LogEntry) : String :=
  let status := if e.succeeded then "successful" else "failed"
  let output := String.ofList (Text.trimEnd e.output.toList)
  e.description ++ " " ++ status ++ ".\n" ++ (if output = "" then "" else output ++ "\n") ++ "\n"

namespace OperationLog

def render (log : List LogEntry) : String := String.join (log.map LogEntry.render)

def failureCount (log : List LogEntry) : Nat := log.countP (!·.succeeded)

end OperationLog

end CompileDriver
