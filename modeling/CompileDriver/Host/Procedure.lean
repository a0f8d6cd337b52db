import CompileDriver.FileSystem.Walk
import CompileDriver.Process

/-! # Procedures

A procedure is a computation that makes calls to its host, one at a time, and goes on with the
answers. It does nothing by itself: the same procedure runs on a host in memory, on the machine,
or step by step between the calls of others.
-/

namespace CompileDriver

/-- What a procedure can ask of its host. -/
inductive Call where
  | status (p : Path)
  | makeDirectory (p : Path)
  /-- Open a file for writing, empty. -/
  | create (p : Path)
  /-- Write the contents of a file that has been opened. -/
  | write (p : Path) (data : ByteArray)
  | read (p : Path)
  /-- The names in a directory, each with whether it is a directory. -/
  | list (p : Path)
  /-- Run a command to its end. -/
  | spawn (c : Command)
  /-- Add an entry to the operation log. -/
  | record (e : LogEntry)
  /-- The entries of the operation log so far. -/
  | recorded
  /-- Log a warning. -/
  | warn (message : String)
  /-- Print a line for the user. -/
  | say (line : String)

def Call.Answer : Call → Type
  | status _ => Except IoError PathStatus
  | makeDirectory _ => Except IoError Unit
  | create _ => Except IoError Unit
  | write .. => Except IoError Unit
  | read _ => Except IoError ByteArray
  | list _ => Except IoError (List (String × Bool))
  | spawn _ => Except IoError Output
  | record _ => Unit
  | recorded => List LogEntry
  | warn _ => Unit
  | say _ => Unit

inductive Procedure (α : Type) where
  | done (a : α)
  | call (c : Call) (next : c.Answer → Procedure α)

namespace Procedure

variable {α β γ : Type}

def bind : Procedure α → (α → Procedure β) → Procedure β
  | done a, f => f a
  | call c next, f => call c fun r => bind (next r) f

instance : Monad Procedure where
  pure := done
  bind := bind

theorem bind_assoc (p : Procedure α) (f : α → Procedure β) (g : β → Procedure γ) :
    (p.bind f).bind g = p.bind fun a => (f a).bind g := by
  induction p with
  | done a => rfl
  | call c next ih => exact congrArg (call c) (funext ih)

def ask (c : Call) : Procedure c.Answer := call c done

def isDirectory (p : Path) : Procedure Bool :=
  call (.status p) fun r => done <| match r with
    | .ok .directory => true
    | _ => false

def isFile (p : Path) : Procedure Bool :=
  call (.status p) fun r => done <| match r with
    | .ok (.file _) => true
    | _ => false

def pathExists (p : Path) : Procedure Bool :=
  call (.status p) fun r => done <| match r with
    | .ok _ => true
    | .error _ => false

/-- Go on with the value of `p` unless it failed. -/
def andThen {ε : Type} (p : Procedure (Except ε α)) (f : α → Procedure (Except ε β)) :
    Procedure (Except ε β) :=
  p.bind fun
    | .ok a => f a
    | .error e => done (.error e)

/-- The same procedure with another name for its failure. -/
def mapError {ε δ : Type} (f : ε → δ) (p : Procedure (Except ε α)) : Procedure (Except δ α) :=
  p.bind fun r => done (r.mapError f)

end Procedure

end CompileDriver
