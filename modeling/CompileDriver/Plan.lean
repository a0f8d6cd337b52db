import CompileDriver.ObjectPath
import CompileDriver.OptionsFile
import CompileDriver.Invocation
import CompileDriver.Queue
import CompileDriver.Spec

/-! # Plans

The plan for a specification is the list of its invocations, one for each source. Planning makes
the directories for the object files, and the options file if there is to be one. Only a
complete plan is given to a queue.
-/

namespace CompileDriver

structure Options where
  /-- Pass the shared arguments through an options file. -/
  commandFile : Bool := false
  /-- The number of characters that the path of an object file may have. -/
  pathLimit : Option Nat := none
  transform : Option Transform := none

/-- Why there is no plan. -/
inductive PlanFailure where
  | optionsFile (p : Path) (e : IoError)
  | pathTooLong (p : Path) (limit : Nat)
  | directory (p : Path) (e : IoError)
deriving DecidableEq, Repr

namespace PlanFailure

def ofObject : ObjectFailure → PlanFailure
  | .tooLong p n => pathTooLong p n
  | .directory p e => directory p e

def message : PlanFailure → String
  | optionsFile p _ => "failed to write options file: " ++ p.text
  | pathTooLong p n =>
    "cannot create file, path length exceeds the operating system limit of " ++ n.repr ++
      " characters: " ++ p.text
  | directory p _ => "failed to create directory: " ++ p.text

def cause? : PlanFailure → Option IoError
  | optionsFile _ e | directory _ e => some e
  | pathTooLong .. => none

def chain (f : PlanFailure) : Chain := .text f.message :: (f.cause?.map Cause.io).toList

end PlanFailure

/-- Why a specification was not compiled. -/
inductive CompileFailure where
  | plan (f : PlanFailure)
  | execution (f : QueueFailure)
deriving DecidableEq, Repr

namespace CompileFailure

/-- Whether the failure came before any invocation ran. -/
def isFatalBeforeQueue : CompileFailure → Bool
  | plan _ => true
  | execution _ => false

def chain : CompileFailure → Chain
  | plan f => f.chain
  | execution f => [.text f.message]

end CompileFailure

namespace Plan

open Procedure

/-- The shared arguments after the caller's change. -/
def sharedArguments (family : Family) (options : Options) (s : Spec) : List String :=
  (options.transform.getD id) (family.sharedArguments s)

/-- The shared arguments as each invocation gets them: themselves, or a reference to the options
file that has been written. -/
def assemble (cwd : Path) (family : Family) (options : Options) (s : Spec) :
    Procedure (Except PlanFailure (List String)) :=
  let args := sharedArguments family options s
  if options.commandFile then
    let failure := PlanFailure.optionsFile (OptionsFile.location cwd s.tempDirectory)
    ((OptionsFile.write cwd family.quoting args s.tempDirectory).mapError failure).andThen
      fun p => done (.ok [OptionsFile.reference p])
  else done (.ok args)

def objectOf (family : Family) (s : Spec) (source : Path) : Path :=
  ObjectPath.of s.objectDirectory source family.objectSuffix s.sourceRoot

def warnMaybe : Option String → Procedure Unit
  | some m => ask (.warn m)
  | none => done ()

def invocation (cwd : Path) (family : Family) (options : Options) (s : Spec)
    (shared : List String) (source : Path) : Procedure (Except PlanFailure Invocation) :=
  let decision := PrecompiledHeader.decide cwd family s source
  (warnMaybe decision.warning).bind fun () =>
    ((ObjectPath.prepare cwd options.pathLimit s.objectDirectory source family.objectSuffix
      s.sourceRoot).mapError PlanFailure.ofObject).andThen fun output =>
        done (.ok (Invocation.make cwd family s.objectDirectory shared decision.arguments
          source output))

/-- The invocations for sources, one after the other, up to the first failure. -/
def invocations (cwd : Path) (family : Family) (options : Options) (s : Spec)
    (shared : List String) : List Path → Procedure (Except PlanFailure (List Invocation))
  | [] => done (.ok [])
  | source :: sources =>
    (invocation cwd family options s shared source).andThen fun i =>
      (invocations cwd family options s shared sources).andThen fun is => done (.ok (i :: is))

def make (cwd : Path) (family : Family) (options : Options) (s : Spec) :
    Procedure (Except PlanFailure (List Invocation)) :=
  (assemble cwd family options s).andThen fun shared =>
    invocations cwd family options s shared s.sources

/-- Plan a specification and give the plan to a queue. Returns whether there was any source. -/
def execute {σ : Type} (cwd : Path) (family : Family) (options : Options) (s : Spec)
    (queue : Queue σ) (state : σ) : Procedure (Except CompileFailure Bool × σ) :=
  (make cwd family options s).bind fun
    | .error e => done (.error (.plan e), state)
    | .ok is =>
      (queue.runAll is (queue.setLogLocation s.logLocation state)).bind fun
        | (.ok (), state) => done (.ok !s.sources.isEmpty, state)
        | (.error f, state) => done (.error (.execution f), state)

end Plan

end CompileDriver
