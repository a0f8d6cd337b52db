import CompileDriver.CommandLine.Arguments
import CompileDriver.Executable
import CompileDriver.Plan
import CompileDriver.Queue
import CompileDriver.Request.Spec
import CompileDriver.Toolchain.Config

/-! # Running a command line

A run loads the request, chooses the compiler and its family, and then either compiles or prints
the plan. Results go to the standard output, everything else to the error stream.
-/

namespace CompileDriver.CommandLine

open Procedure

/-- How a run ends. -/
structure Outcome where
  code : Nat
  stdout : String := ""
deriving DecidableEq, Repr

structure Prepared where
  /-- The directory of the request. -/
  base : Path
  compiler : Path
  family : Family
  options : Options
  spec : Spec

def chooseCompiler (env : Environment) (a : Arguments) (config : ToolchainConfig) :
    Procedure (Except Chain Path) :=
  match a.compiler <|> config.compiler with
  | some p => done (.ok p)
  | none => (Executable.findCompiler? env).bind fun
    | some p => done (.ok p)
    | none => done (.error [.text "no C compiler found; pass --compiler or set CC"])

/-- The family: from the arguments, the configuration, or inferred from the compiler. -/
def chooseFamily (a : Arguments) (config : ToolchainConfig) (compiler : Path) :
    Except Chain Family :=
  match a.family <|> config.family with
  | none => .ok (Family.ofCompiler compiler)
  | some name =>
    match Family.ofName? name with
    | some f => .ok f
    | none => .error [.text (Family.unknownMessage name)]

def specOf (env : Environment) (p base : Path) (r : Request) : Procedure (Except Chain Spec) :=
  (r.toSpec env.workingDirectory base).mapError fun f =>
    .text ("invalid compile request: " ++ p.text) :: f.chain

/-- Load the request and choose the tools. -/
def prepare (env : Environment) (a : Arguments) : Procedure (Except Chain Prepared) :=
  let p := Path.absolute env.workingDirectory a.request
  match p.parent? with
  | none => done (.error [.text ("invalid request path: " ++ p.text)])
  | some base =>
    ((Request.load p).mapError RequestFailure.chain).andThen fun r =>
      (ToolchainConfig.loadMerged (some (ToolchainConfig.userPath env.home))
        (ToolchainConfig.projectPath base)).bind fun config =>
          (chooseCompiler env a config).andThen fun compiler =>
            (done (chooseFamily a config compiler)).andThen fun family =>
              (specOf env p base r).andThen fun spec =>
                let options : Options :=
                  { commandFile := a.commandFile || r.commandFile, pathLimit := r.pathLimit }
                done (.ok { base, compiler, family, options, spec })

def databasePath (base : Path) : Path := base / "compile_commands.json"

def queueFor (a : Arguments) (p : Prepared) : ParallelQueue :=
  let queue : ParallelQueue :=
    { compiler := p.compiler
      verbose := a.verbose
      database := if a.emitDatabase then some (databasePath p.base) else none }
  queue.withJobs a.jobs

/-- Write the operation log, if anything ran. A failure is only a warning. -/
def saveLog (p : Path) : Procedure Unit :=
  call .recorded fun (log : List LogEntry) =>
    if log = [] then done ()
    else
      (writeText p (OperationLog.render log)).bind fun
        | .ok () => done ()
        | .error e => ask (.warn ("failed to write operation log: " ++ e.chain.message))

def summary (s : Spec) (didWork : Bool) : String :=
  if didWork then "    Finished " ++ s.sources.length.repr ++ " file(s)"
  else "    Nothing to compile"

/-- Compile a request. The log is written even if an invocation failed. -/
def compile (env : Environment) (a : Arguments) : Procedure (Except Chain String) :=
  (prepare env a).andThen fun p =>
    (Plan.execute env.workingDirectory p.family p.options p.spec ParallelQueue.queue
      (queueFor a p)).bind fun (r, _) =>
        (saveLog p.spec.logLocation).bind fun () =>
          match r with
          | .ok didWork => call (.say (summary p.spec didWork)) fun () => done (.ok "")
          | .error f => done (.error f.chain)

def plan (env : Environment) (a : Arguments) : Procedure (Except Chain String) :=
  (prepare env a).andThen fun p =>
    ((Plan.make env.workingDirectory p.family p.options p.spec).mapError PlanFailure.chain).andThen
      fun is => done (.ok (Json.render (is.map Invocation.record) ++ "\n"))

def versionText : String := "harbour-compile 0.1.0\n"

def usage : String :=
  "Usage: harbour-compile [--verbose] <compile|plan> [--request <PATH>] [--compiler <PATH>]\n" ++
  "    [--family <NAME>] [--command-file] [--jobs <N>] [--emit-compile-commands]"

/-- A run that ends with an explanation if it fails. -/
def conclude (p : Procedure (Except Chain String)) : Procedure Outcome :=
  p.bind fun
    | .ok stdout => done ⟨0, stdout⟩
    | .error c => call (.say ("error: " ++ c.message)) fun () => done ⟨1, ""⟩

def run (env : Environment) (args : List String) : Procedure Outcome :=
  match Arguments.parse args with
  | .error .version => done ⟨0, versionText⟩
  | .error .help => done ⟨0, usage ++ "\n"⟩
  | .error .misuse => call (.say usage) fun () => done ⟨2, ""⟩
  | .ok a =>
    conclude <| match a.action with
      | .compile => compile env a
      | .plan => plan env a

end CompileDriver.CommandLine
