import CompileDriver.Host.World
import CompileDriver.Script.Shell

/-! # Machines

A machine starts programs: the utilities that are installed on it, and scripts for them. A
program without a slash in its name is looked for in the directories of the search path.
-/

namespace CompileDriver.Script

inductive Utility where
  | true
  | false
  | echo
  | pwd
  | sh
  | cat
deriving DecidableEq, Repr

namespace Utility

def name : Utility → String
  | true => "true"
  | false => "false"
  | echo => "echo"
  | pwd => "pwd"
  | sh => "sh"
  | cat => "cat"

def all : List Utility := [true, false, echo, pwd, sh, cat]

def directories : List Location := [["usr", "bin"], ["bin"]]

def installedAt? (l : Location) : Option Utility :=
  all.find? fun u => directories.any fun d => d ++ [u.name] = l

def files : FileSystem :=
  let place (fs : FileSystem) (d : Location) : FileSystem :=
    all.foldl (fun fs u => fs.put (d ++ [u.name]) (.file ⟨.empty, Bool.true⟩)) (fs.put d .directory)
  directories.foldl place (FileSystem.empty.put ["usr"] .directory)

def succeed (stdout : ByteArray) : Output := ⟨some 0, stdout, .empty⟩

def refuseOption (u : Utility) (c : Char) : Output where
  code := some 1
  stdout := .empty
  stderr := (u.name ++ ": invalid option -- '" ++ String.singleton c ++ "'\nTry '" ++ u.name ++
    " --help' for more information.\n").toUTF8

/-- The first letter of the options among arguments that is not allowed. -/
def badOption? (allowed : String) (args : List String) : Option Char :=
  (args.takeWhile (· ≠ "--")).findSome? fun a =>
    match a.toList with
    | '-' :: '-' :: _ => none
    | '-' :: cs => cs.find? fun c => !allowed.toList.contains c
    | _ => none

def concatenate (fs : FileSystem) (directory : Location) (input : ByteArray) :
    List String → Output → Output
  | [], o => o
  | p :: ps, o =>
    let o := match if p = "-" then .ok input else fs.read directory ⟨p⟩ with
      | .ok data => { o with stdout := o.stdout ++ data }
      | .error e =>
        let reason := String.ofList (e.message.toList.takeWhile (· ≠ '('))
        { o with
          code := some 1
          stderr := o.stderr ++ ("cat: " ++ p ++ ": " ++
            String.ofList (Text.trimEnd reason.toList) ++ "\n").toUTF8 }
    concatenate fs directory input ps o

/-- What a new shell is told to do: a script, and the shell that runs it. -/
def shellTask (directory : Location) (fs : FileSystem) (args : List String) :
    Except Output (String × Shell) :=
  let isOption (a : String) : Bool := a.toList.head? == some '-' && a ≠ "-"
  let options := args.takeWhile isOption
  let operands := args.dropWhile isOption
  let shell (name : String) (args : List String) : Shell :=
    { files := fs, directory, name, arguments := args }
  let refuse (message : String) : Output := ⟨some 2, .empty, ("sh: 0: " ++ message ++ "\n").toUTF8⟩
  if options.any (·.toList.contains 'c') then
    match operands with
    | [] => .error (refuse "-c requires an argument")
    | script :: operands => .ok (script, shell (operands.headD "sh") operands.tail)
  else
    match operands with
    | [] => .ok ("", shell "sh" [])
    | p :: operands =>
      match fs.read directory ⟨p⟩ with
      | .ok data => .ok (Text.decodeLossy data, shell p operands)
      | .error _ => .error (refuse ("cannot open " ++ p ++ ": No such file"))

def run (spawn : Spawn) (directory : Location) (args : List String) (fs : FileSystem) :
    Utility → Output × FileSystem
  | true => (succeed .empty, fs)
  | false => (⟨some 1, .empty, .empty⟩, fs)
  | echo => (succeed (Echo.asProgram args), fs)
  | pwd =>
    match badOption? "LP" args with
    | some c => (pwd.refuseOption c, fs)
    | none => (succeed (Shell.pathOf directory ++ "\n").toUTF8, fs)
  | cat =>
    match badOption? "u" args with
    | some c => (cat.refuseOption c, fs)
    | none => (concatenate fs directory .empty (args.filter (· ≠ "-u")) (succeed .empty), fs)
  | sh =>
    match shellTask directory fs args with
    | .ok (script, shell) => shell.runScript spawn script
    | .error o => (o, fs)

end Utility

structure Image where
  utility : Utility
  arguments : List String

/-- The interpreter of a script and its argument, from the first line after `#!`. -/
def interpreter? (contents : ByteArray) : Option (Path × Option String) :=
  match (Text.decodeLossy contents).toList with
  | '#' :: '!' :: s =>
    let isGap (c : Char) : Bool := c == ' ' || c == '\t'
    let line := ((s.takeWhile (· ≠ '\n')).dropWhile isGap).reverse.dropWhile isGap |>.reverse
    let program := line.takeWhile fun c => !isGap c
    let argument := (line.drop program.length).dropWhile isGap
    if program = [] then none
    else some (⟨String.ofList program⟩,
      if argument = [] then none else some (String.ofList argument))
  | _ => none

/-- What runs when the file at `p` is executed. At most `n` scripts may interpret one another. -/
def load (fs : FileSystem) (cwd : Location) : (n : Nat) → Path → List String → Except IoError Image
  | 0, _, _ => .error .badExecutable
  | n + 1, p, args => do
    match ← fs.find cwd p with
    | .directory _ => .error .permissionDenied
    | .free .. => .error .notFound
    | .file l f =>
      if !f.executable then .error .permissionDenied
      else
        match Utility.installedAt? l, interpreter? f.contents with
        | some u, _ => .ok ⟨u, args⟩
        | none, some (i, argument) => load fs cwd n i (argument.toList ++ p.text :: args)
        | none, none => .error .badExecutable

structure Machine where
  /-- The directories of the search path, between colons. -/
  searchPath : String := "/usr/bin:/bin"

namespace Machine

def interpreterLimit : Nat := 5

/-- Look for a program in directories. A program that may not be run is passed over, but told of
in the end; so is the last reason for not finding any. -/
def search (fs : FileSystem) (cwd : Location) (name : String) (args : List String) :
    List String → (denied : Bool) → (reason : IoError) → Except IoError Image
  | [], denied, reason => .error (if denied then .permissionDenied else reason)
  | d :: ds, denied, reason =>
    match load fs cwd interpreterLimit (if d = "" then ⟨name⟩ else Path.mk (d ++ "/" ++ name)) args with
    | .ok image => .ok image
    | .error .permissionDenied => search fs cwd name args ds true reason
    | .error .notFound => search fs cwd name args ds denied .notFound
    | .error .notADirectory => search fs cwd name args ds denied .notADirectory
    | .error e => .error e

def hasNul (s : String) : Bool := s.toList.contains '\x00'

/-- What runs for a command, and where. -/
def prepare (m : Machine) (cwd : Location) (c : Command) (fs : FileSystem) :
    Except IoError (Image × Location) := do
  if (c.program.text :: c.arguments ++ (c.directory.map Path.text).toList).any hasNul then
    .error .nulInCommand
  else
    let cwd ← match c.directory with
      | none => .ok cwd
      | some d =>
        match ← fs.find cwd d with
        | .directory l => .ok l
        | .file .. => .error .notADirectory
        | .free .. => .error .notFound
    if c.program.text = "" then .error .notFound
    else if c.program.text.toList.contains '/' then
      .ok (← load fs cwd interpreterLimit c.program c.arguments, cwd)
    else
      let directories := (Text.pieces ':' m.searchPath.toList).map String.ofList
      .ok (← search fs cwd c.program.text c.arguments directories false .notFound, cwd)

/-- Run a command to its end. Programs may start programs, at most `n` deep. -/
def spawn (m : Machine) : (n : Nat) → Spawn
  | 0, _, _, fs => (.error .notFound, fs)
  | n + 1, cwd, c, fs =>
    match m.prepare cwd c fs with
    | .error e => (.error e, fs)
    | .ok (image, directory) =>
      let (o, fs) := image.utility.run (m.spawn n) directory image.arguments fs
      (.ok o, fs)

def depth : Nat := 20

/-- The machine as a host of procedures, which run in the directory `cwd`. -/
def host (m : Machine) (cwd : Location) : Host where
  directory := cwd
  spawn c fs := m.spawn depth cwd c fs

end Machine

end CompileDriver.Script
