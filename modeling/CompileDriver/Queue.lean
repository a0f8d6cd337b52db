import CompileDriver.CompilationDatabase

/-! # Queues

A queue runs a batch of invocations to its end and reports all failures together.
-/

namespace CompileDriver

structure InvocationFailure where
  name : String
  message : String
deriving DecidableEq, Repr

structure QueueFailure where
  /-- The size of the batch. -/
  total : Nat
  failures : List InvocationFailure
  /-- Where the whole output of the compiler can be read. -/
  logLocation : Option Path := none
deriving DecidableEq, Repr

def InvocationFailure.line (f : InvocationFailure) : String :=
  "\n  " ++ f.name ++ ": " ++ String.ofList (Text.trimEnd f.message.toList)

def QueueFailure.message (f : QueueFailure) : String :=
  f.failures.length.repr ++ " of " ++ f.total.repr ++ " compiler invocation(s) failed" ++
    String.join (f.failures.map InvocationFailure.line) ++
    match f.logLocation with
    | some p => "\nsee the complete log at: " ++ p.text
    | none => ""

/-- Something that runs batches, with states of type `σ`. -/
structure Queue (σ : Type) where
  setLogLocation : Path → σ → σ
  runAll : List Invocation → σ → Procedure (Except QueueFailure Unit × σ)

/-! ## Queues that run a compiler

Each invocation of a batch is run once, and its outcome is added to the operation log. Whatever
order the runs finish in, failures are reported in the order of the batch.
-/

structure ParallelQueue where
  compiler : Path
  /-- How many runs there may be at a time; without a number the machine decides. -/
  jobs : Option Nat := none
  /-- Print each command. -/
  verbose : Bool := false
  logLocation : Option Path := none
  /-- Where to write the compilation database of each batch. -/
  database : Option Path := none

namespace ParallelQueue

open Procedure

/-- A limit of no runs at a time is no limit. -/
def withJobs (q : ParallelQueue) (jobs : Option Nat) : ParallelQueue :=
  { q with jobs := jobs.filter (0 < ·) }

/-- At most how many runs there are at a time, on a machine that decides for `cores` of them. -/
def limit (q : ParallelQueue) (cores : Nat) : Nat := q.jobs.getD cores

def command (q : ParallelQueue) (i : Invocation) : Command where
  program := q.compiler
  arguments := i.arguments
  directory := some i.workingDirectory

def spawnFailure (program : Path) (e : IoError) : Chain :=
  [.text ("failed to spawn `" ++ program.text ++ "`"), .io e]

/-- What the log says about an invocation, and its failure if it failed. -/
def outcome (q : ParallelQueue) (i : Invocation) :
    Except IoError Output → LogEntry × Option InvocationFailure
  | .ok o =>
    if o.isSuccess then (⟨i.name, o.text, true⟩, none)
    else (⟨i.name, o.text, false⟩, some ⟨i.name, o.failureMessage⟩)
  | .error e =>
    let message := (spawnFailure q.compiler e).message
    (⟨i.name, message, false⟩, some ⟨i.name, message⟩)

def runOne (q : ParallelQueue) (i : Invocation) : Procedure (Option InvocationFailure) :=
  let run := call (.spawn (q.command i)) fun r =>
    call (.record (q.outcome i r).1) fun () => done (q.outcome i r).2
  if q.verbose then call (.say ("     Running `" ++ (q.command i).display ++ "`")) fun () => run
  else run

/-- Run invocations and collect the failures, in the order of the invocations. Here each run ends
before the next one begins, as if there were one worker; with more of them, runs overlap. -/
def runBatch (q : ParallelQueue) : List Invocation → Procedure (List InvocationFailure)
  | [] => done []
  | i :: is =>
    (q.runOne i).bind fun f => (runBatch q is).bind fun fs => done (f.toList ++ fs)

/-- Write the database, if there is to be one. A failure is only a warning. -/
def writeDatabase (q : ParallelQueue) (batch : List Invocation) : Procedure Unit :=
  match q.database with
  | none => done ()
  | some p =>
    (CompilationDatabase.write p q.compiler batch).bind fun
      | .ok () => done ()
      | .error e => ask (.warn ("failed to write " ++ p.text ++ ": " ++ e.chain.message))

/-- Run a batch. An empty batch needs nothing, not even a database. -/
def runAll (q : ParallelQueue) (batch : List Invocation) :
    Procedure (Except QueueFailure Unit) :=
  if batch = [] then done (.ok ())
  else
    (q.writeDatabase batch).bind fun () =>
      (q.runBatch batch).bind fun
        | [] => done (.ok ())
        | fs => done (.error ⟨batch.length, fs, q.logLocation⟩)

def queue : Queue ParallelQueue where
  setLogLocation p q := { q with logLocation := some p }
  runAll batch q := (q.runAll batch).bind fun r => done (r, q)

end ParallelQueue

end CompileDriver
