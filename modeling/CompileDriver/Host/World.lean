import CompileDriver.Host.Procedure

/-! # Hosts in memory

A world is what procedures can see and change: the files, the operation log and what has been
told to the user. A host answers their calls from a world.
-/

namespace CompileDriver

inductive Notice where
  | warning (message : String)
  | line (text : String)
deriving DecidableEq, Repr

structure World where
  files : FileSystem
  log : List LogEntry := []
  notices : List Notice := []

/-- What stays the same while procedures run: the working directory, and what a command does. -/
structure Host where
  directory : Location
  spawn : Command → FileSystem → Except IoError Output × FileSystem

namespace World

def update (w : World) : Except IoError FileSystem → Except IoError Unit × World
  | .ok fs => (.ok (), { w with files := fs })
  | .error e => (.error e, w)

def warnings (w : World) : List String :=
  w.notices.filterMap fun
    | .warning m => some m
    | .line _ => none

end World

namespace Host

def answer (h : Host) : (c : Call) → World → c.Answer × World
  | .status p, w => (w.files.status h.directory p, w)
  | .makeDirectory p, w => w.update (w.files.makeDirectory h.directory p)
  | .create p, w => w.update (w.files.create h.directory p)
  | .write p data, w => w.update (w.files.write h.directory p data)
  | .read p, w => (w.files.read h.directory p, w)
  | .list p, w => (w.files.list h.directory p, w)
  | .spawn c, w =>
    let (r, fs) := h.spawn c w.files
    (r, { w with files := fs })
  | .record e, w => ((), { w with log := w.log ++ [e] })
  | .recorded, w => (w.log, w)
  | .warn m, w => ((), { w with notices := w.notices ++ [.warning m] })
  | .say s, w => ((), { w with notices := w.notices ++ [.line s] })

end Host

namespace Procedure

variable {α β : Type}

def run (h : Host) : Procedure α → World → α × World
  | done a, w => (a, w)
  | call c next, w => run h (next (h.answer c w).1) (h.answer c w).2

@[simp] theorem run_done (h : Host) (a : α) (w : World) : (done a).run h w = (a, w) := rfl

theorem run_bind (h : Host) (p : Procedure α) (f : α → Procedure β) (w : World) :
    (p.bind f).run h w = (f (p.run h w).1).run h (p.run h w).2 := by
  induction p generalizing w with
  | done a => rfl
  | call c next ih => exact ih _ _

end Procedure

end CompileDriver
