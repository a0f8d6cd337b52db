import CompileDriver.Glob.Pattern
import CompileDriver.Process
import CompileDriver.Script.Statement
import CompileDriver.Script.Utility

/-! # Running scripts

A shell runs statements and changes its files, its parameters and what has been written. Words
are split into fields; file names are not expanded. A shell that has ended does nothing more.
-/

namespace CompileDriver.Script

inductive Sink where
  | stdout
  | stderr
  | nowhere
  | file (l : Location)
deriving DecidableEq

inductive Ending where
  | exit (code : Nat)
  | signal
deriving DecidableEq

structure Shell where
  files : FileSystem
  directory : Location
  /-- What the shell calls itself. -/
  name : String
  arguments : List String
  assignments : List (String × String) := []
  input : ByteArray := .empty
  outputSink : Sink := .stdout
  errorSink : Sink := .stderr
  stdout : ByteArray := .empty
  stderr : ByteArray := .empty
  /-- The exit status of the last command. -/
  status : Nat := 0
  ending : Option Ending := none

abbrev Spawn := Location → Command → FileSystem → Except IoError Output × FileSystem

namespace Shell

/-- The number that stands for the shell itself. -/
def ownNumber : String := "2"

def sink (s : Shell) (stream : Nat) : Sink :=
  if stream = 1 then s.outputSink else if stream = 2 then s.errorSink else .nowhere

def setSink (s : Shell) (stream : Nat) (k : Sink) : Shell :=
  if stream = 1 then { s with outputSink := k }
  else if stream = 2 then { s with errorSink := k }
  else s

def write (s : Shell) (stream : Nat) (data : ByteArray) : Shell :=
  match s.sink stream with
  | .stdout => { s with stdout := s.stdout ++ data }
  | .stderr => { s with stderr := s.stderr ++ data }
  | .nowhere => s
  | .file l =>
    match s.files.node? l with
    | some (.file f) =>
      { s with files := s.files.put l (.file { f with contents := f.contents ++ data }) }
    | _ => s

def finish (s : Shell) (status : Nat) : Shell := { s with status }

def fail (s : Shell) (status : Nat) (message : String) : Shell :=
  (s.write 2 (s.name ++ ": " ++ message ++ "\n").toUTF8).finish status

def stop (s : Shell) (e : Ending) : Shell := { s with ending := some e }

/-! ## Parameters and words -/

/-- The value of a parameter; a parameter that is not set is empty. -/
def value (s : Shell) (parameter : String) : String :=
  match parameter with
  | "#" => s.arguments.length.repr
  | "?" => s.status.repr
  | "$" => ownNumber
  | "@" | "*" => String.intercalate " " s.arguments
  | p =>
    match Text.natural? p.toList with
    | some 0 => s.name
    | some (n + 1) => s.arguments.getD n ""
    | none => (s.assignments.lookup p).getD ""

def assign (s : Shell) (name value : String) : Shell :=
  { s with assignments := (name, value) :: s.assignments }

/-- Fields that are put together: those that are complete, and the one that may go on. -/
structure Fields where
  complete : List String := []
  last : Option String := none

namespace Fields

def add (f : Fields) (text : String) : Fields := { f with last := some (f.last.getD "" ++ text) }

def close (f : Fields) : Fields := { complete := f.complete ++ f.last.toList }

def addSplit (f : Fields) (text : String) : Fields :=
  text.toList.foldl (fun f c =>
    if c = ' ' ∨ c = '\t' ∨ c = '\n' then f.close else f.add (String.singleton c)) f

def addApart (f : Fields) : List String → (addOne : Fields → String → Fields) → Fields
  | [], _ => f
  | [a], addOne => addOne f a
  | a :: as, addOne => addApart (addOne f a).close as addOne

def all (f : Fields) : List String := f.close.complete

end Fields

def addPiece (s : Shell) (f : Fields) : Piece → Fields
  | .char c _ => f.add (String.singleton c)
  | .quotes => f.add ""
  | .parameter "@" true => f.addApart s.arguments Fields.add
  | .parameter "@" false | .parameter "*" false => f.addApart s.arguments Fields.addSplit
  | .parameter p true => f.add (s.value p)
  | .parameter p false => f.addSplit (s.value p)

def fields (s : Shell) (w : Word) : List String :=
  let w := if w.contains (.parameter "@" true) then w.filter (· ≠ .quotes) else w
  (w.foldl s.addPiece {}).all

/-- The characters of a word, each with whether it is quoted. -/
def characters (s : Shell) (w : Word) : List (Char × Bool) :=
  w.flatMap fun
    | .char c isQuoted => [(c, isQuoted)]
    | .quotes => []
    | .parameter p isQuoted => (s.value p).toList.map (·, isQuoted)

def text (s : Shell) (w : Word) : String := String.ofList ((s.characters w).map Prod.fst)

/-- The tokens of a pattern, of which `skip` characters belong to the token before. -/
def patternFrom : (skip : Nat) → List (Char × Bool) → List Glob.Token
  | _, [] => []
  | skip + 1, _ :: cs => patternFrom skip cs
  | 0, (c, isQuoted) :: cs =>
    if isQuoted then .char c :: patternFrom 0 cs
    else if c = '*' then .anyText :: patternFrom 0 cs
    else if c = '?' then .anyChar :: patternFrom 0 cs
    else if c = '[' then
      match Glob.readClass (cs.map Prod.fst) with
      | some (t, taken) => t :: patternFrom taken cs
      | none => .char c :: patternFrom 0 cs
    else .char c :: patternFrom 0 cs

def hasForm (s : Shell) (text : String) (form : Word) : Bool :=
  Glob.tokensMatch (patternFrom 0 (s.characters form)) text.toList

/-! ## Simple commands -/

/-- A name and the word that is assigned to it. -/
def assignment? (w : Word) : Option (String × Word) :=
  let name := w.takeWhile fun p => match p with
    | .char c false => isNameChar c
    | _ => false
  match plain? name, w.drop name.length with
  | some name, .char '=' false :: value =>
    if (name.toList.head?.map isNameStart).getD false then some (name, value) else none
  | _, _ => none

/-- Assign what the words at the start say; the other words are left. -/
def assignAll (s : Shell) : List Word → Shell × List Word
  | [] => (s, [])
  | w :: ws =>
    match assignment? w with
    | some (name, value) => assignAll (s.assign name (s.text value)) ws
    | none => (s, w :: ws)

def pathStatus (s : Shell) (p : String) : Option PathStatus :=
  (s.files.status s.directory ⟨p⟩).toOption

def exit (s : Shell) : List String → Shell
  | [] => s.stop (.exit s.status)
  | code :: _ =>
    match Text.natural? code.toList with
    | some n => s.stop (.exit (n % 256))
    | none => (s.fail 2 ("exit: Illegal number: " ++ code)).stop (.exit 2)

def shift (s : Shell) (args : List String) : Shell :=
  match Text.natural? (args.headD "1").toList with
  | some n =>
    if n ≤ s.arguments.length then { s with arguments := s.arguments.drop n, status := 0 }
    else (s.fail 2 "shift: can't shift that many").stop (.exit 2)
  | none => (s.fail 2 ("shift: Illegal number: " ++ args.headD "")).stop (.exit 2)

/-- Whether the arguments of `kill` name a signal that ends a process. Signal 0 only asks. -/
def endsProcess : List String → Bool
  | ["-s", signal, _] => signal ≠ "0"
  | [signal, _] => signal ≠ "-0"
  | _ => true

/-- Send a signal to the shell; there is no other process. -/
def kill (s : Shell) (args : List String) : Shell :=
  if args.getLast? = some ownNumber then
    if endsProcess args then s.stop .signal else s.finish 0
  else s.fail 1 "kill: No such process"

def pathOf (l : Location) : String := "/" ++ String.intercalate "/" l

def changeDirectory (s : Shell) (p : String) : Shell :=
  match s.files.find s.directory ⟨p⟩ with
  | .ok (.directory l) => { s with directory := l, status := 0 }
  | _ => s.fail 2 ("cd: can't cd to " ++ p)

def runProgram (spawn : Spawn) (s : Shell) (name : String) (args : List String) : Shell :=
  match spawn s.directory ⟨⟨name⟩, args, none⟩ s.files with
  | (.ok o, files) =>
    ((({ s with files }).write 1 o.stdout).write 2 o.stderr).finish (o.code.getD 137)
  | (.error .notFound, _) => s.fail 127 (name ++ ": not found")
  | (.error .notADirectory, _) => s.fail 127 (name ++ ": not found")
  | (.error _, _) => s.fail 126 (name ++ ": Permission denied")

/-- Commands whose failure ends the shell. -/
def isSpecial (name : String) : Bool := [":", "exit", "shift"].contains name

def command (spawn : Spawn) (s : Shell) (fields : List String) : Shell :=
  match fields with
  | [] | ":" :: _ | "true" :: _ => s.finish 0
  | "false" :: _ => s.finish 1
  | "echo" :: args => (s.write 1 (Echo.inShell args)).finish 0
  | "printf" :: format :: args => (s.write 1 (Printf.run format args)).finish 0
  | "printf" :: _ => s.fail 2 "printf: usage: printf format [arg ...]"
  | "test" :: args => s.finish (Test.statusOf (Test.holds? s.pathStatus args))
  | "[" :: args =>
    if args.getLast? = some "]" then
      s.finish (Test.statusOf (Test.holds? s.pathStatus args.dropLast))
    else s.fail 2 "[: missing ]"
  | "exit" :: args => s.exit args
  | "shift" :: args => s.shift args
  | "kill" :: args => s.kill args
  | "pwd" :: _ => (s.write 1 (pathOf s.directory ++ "\n").toUTF8).finish 0
  | "cd" :: args => s.changeDirectory (args.headD "")
  | "exec" :: name :: args =>
    let s := s.runProgram spawn name args
    s.stop (.exit s.status)
  | name :: args => s.runProgram spawn name args

/-! ## Redirections -/

def nullDevice : String := "/dev/null"

def redirect (s : Shell) (r : Redirection) : Except IoError Shell :=
  let target := s.text r.target
  match r.direction with
  | .copy => .ok (s.setSink r.stream (((Text.natural? target.toList).map s.sink).getD .nowhere))
  | .input =>
    if target = nullDevice then .ok { s with input := .empty }
    else do
      let input ← s.files.read s.directory ⟨target⟩
      .ok { s with input }
  | .output =>
    if target = nullDevice then .ok (s.setSink r.stream .nowhere)
    else do
      let files ← s.files.create s.directory ⟨target⟩
      opened { s with files } target
  | .append =>
    if target = nullDevice then .ok (s.setSink r.stream .nowhere)
    else
      match s.files.read s.directory ⟨target⟩ with
      | .ok _ => opened s target
      | .error _ => do
        let files ← s.files.create s.directory ⟨target⟩
        opened { s with files } target
where
  /-- The shell that writes to a file. -/
  opened (s : Shell) (target : String) : Except IoError Shell := do
    match ← s.files.find s.directory ⟨target⟩ with
    | .file l _ => .ok (s.setSink r.stream (.file l))
    | _ => .error .notFound

def withStreamsOf (s t : Shell) : Shell :=
  { s with outputSink := t.outputSink, errorSink := t.errorSink, input := t.input }

def openFailure (e : IoError) : String :=
  match e with
  | .notFound => "Directory nonexistent"
  | .notADirectory => "Not a directory"
  | .isADirectory => "Is a directory"
  | .permissionDenied => "Permission denied"
  | .nameTooLong => "File name too long"
  | _ => "Input/output error"

/-- Whether a statement is a command whose failure ends the shell. -/
def isSpecialStatement : Statement → Bool
  | .simple (w :: _) => (plain? w).any isSpecial
  | .redirected body _ => isSpecialStatement body
  | _ => false

def redirectionFailed (s : Shell) (body : Statement) (r : Redirection) (e : IoError) : Shell :=
  let s := s.fail 2 ("cannot create " ++ s.text r.target ++ ": " ++ openFailure e)
  if isSpecialStatement body then s.stop (.exit 2) else s

/-! ## Statements -/

/-- The shell after a subshell, of which the files and what it has written remain. -/
def afterSubshell (s inner : Shell) : Shell :=
  { s with
    files := inner.files
    stdout := inner.stdout
    stderr := inner.stderr
    status := match inner.ending with
      | some (.exit code) => code
      | _ => inner.status
    ending := if inner.ending = some .signal then some .signal else none }

/-- Run a statement. A shell that has not come to an end after `n` steps is killed. -/
def run (spawn : Spawn) : (n : Nat) → Statement → Shell → Shell
  | 0, _, s => s.stop .signal
  | n + 1, statement, s =>
    if s.ending.isSome then s
    else
      match statement with
      | .skip => s.finish 0
      | .simple words =>
        let (s, words) := s.assignAll words
        s.command spawn (words.flatMap s.fields)
      | .first a b => run spawn n b (run spawn n a s)
      | .both a b =>
        let s := run spawn n a s
        if s.status = 0 then run spawn n b s else s
      | .either a b =>
        let s := run spawn n a s
        if s.status = 0 then s else run spawn n b s
      | .negate a =>
        let s := run spawn n a s
        s.finish (if s.status = 0 then 1 else 0)
      | .forEach name words body =>
        (words.flatMap s.fields).foldl (fun s v => run spawn n body (s.assign name v)) (s.finish 0)
      | .loop condition body =>
        let t := run spawn n condition s
        if t.status = 0 then run spawn n (.loop condition body) (run spawn n body t)
        else t.finish s.status
      | .branch condition yes no =>
        let s := run spawn n condition s
        if s.status = 0 then run spawn n yes s else run spawn n no s
      | .choose subject forms body others =>
        if forms.any (s.hasForm (s.text subject)) then run spawn n body s
        else run spawn n others s
      | .subshell body => s.afterSubshell (run spawn n body s)
      | .redirected body r =>
        match s.redirect r with
        | .ok t => (run spawn n body t).withStreamsOf s
        | .error e => s.redirectionFailed body r e

def patience : Nat := 100000

def output (s : Shell) : Output where
  code := match s.ending with
    | some (.exit code) => some code
    | some .signal => none
    | none => some s.status
  stdout := s.stdout
  stderr := s.stderr

def runScript (spawn : Spawn) (script : String) (s : Shell) : Output × FileSystem :=
  match parse? script with
  | some statement =>
    let s := s.run spawn patience statement
    (s.output, s.files)
  | none =>
    let s := s.fail 2 "Syntax error"
    (s.output, s.files)

end Shell

end CompileDriver.Script
