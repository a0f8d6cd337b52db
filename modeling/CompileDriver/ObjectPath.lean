import CompileDriver.FileSystem.Files

/-! # Object files

The object directory repeats the tree of the sources: the object of `src/net/socket.c` lies in
`src/net` below the object directory. A step upwards becomes a directory named `__`.
-/

namespace CompileDriver

/-- What the characters of a path stand for. The system names files by bytes: those that are UTF-8
are spelled by their text, and any others can be spelled by a character for each byte. -/
inductive Spelling where
  | text
  | bytes

namespace Spelling

/-- One character for each byte. -/
def spell (data : List UInt8) : String := String.ofList (data.map fun b => Char.ofNat b.toNat)

def encode : Spelling → String → ByteArray
  | text, name => name.toUTF8
  | bytes, name => ⟨(name.toList.map fun c => UInt8.ofNat c.toNat).toArray⟩

def ofText : Spelling → String → String
  | text, s => s
  | bytes, s => spell s.toUTF8.data.toList

end Spelling

def Path.ofBytes (data : ByteArray) : Path := ⟨Spelling.spell data.data.toList⟩

inductive ObjectFailure where
  | tooLong (p : Path) (limit : Nat)
  | directory (p : Path) (e : IoError)
deriving DecidableEq, Repr

namespace ObjectPath

/-- The directory name for a component of a source path, if it has one. -/
def directoryName? : Component → Option String
  | .root | .here => none
  | .parent => some "__"
  | .name s => some s

/-- The components of `source` below `root`, or all of them if it does not lie there. -/
def mirrored (source : Path) (root : Option Path) : List Component :=
  (root.bind source.below?).getD source.components

/-- The object file of `source` below the directory `objects`, where all paths are spelled in the
same way. What is not UTF-8 in the stem of the source is lost. -/
def ofSpelled (σ : Spelling) (objects source : Path) (suffix : String) (root : Option Path) :
    Path :=
  let place := ((mirrored source root).filterMap directoryName?).foldl (· / ·) objects
  let stem := Text.decodeLossy (σ.encode (source.stem?.getD ""))
  place.withFileName (σ.ofText (stem ++ suffix))

/-- The object file of `source` below the directory `objects`, for paths that are text. -/
def of (objects source : Path) (suffix : String) (root : Option Path) : Path :=
  ofSpelled .text objects source suffix root

/-- Refuse a path whose absolute form has more characters than the limit, if there is one. -/
def checkLength (cwd : Path) (limit : Option Nat) (p : Path) : Except ObjectFailure Unit :=
  match limit with
  | none => .ok ()
  | some n =>
    let full := Path.absolute cwd p
    if n < full.text.length then .error (.tooLong full n) else .ok ()

/-- The object file of `source`, whose directory is made. A path that is too long is refused
before anything is made. -/
def prepare (cwd : Path) (limit : Option Nat) (objects source : Path) (suffix : String)
    (root : Option Path) : Procedure (Except ObjectFailure Path) :=
  let output := of objects source suffix root
  match checkLength cwd limit output with
  | .error e => .done (.error e)
  | .ok () =>
    match output.parent? with
    | none => .done (.ok output)
    | some d =>
      ((Procedure.ensureDirectory d).mapError (ObjectFailure.directory d)).andThen fun () =>
        .done (.ok output)

end ObjectPath

end CompileDriver
