import CompileDriver.Request.Basic
import CompileDriver.Text.Basic

/-! # Command line arguments

Arguments are read from left to right: first options for all commands, then the command, then
its options. An option is given once at most, with a long name or a letter. A value stands behind
the letter or an equals sign, or is the next argument, which then does not start with a dash.
-/

namespace CompileDriver.CommandLine

inductive Action where
  | compile
  | plan
deriving DecidableEq, Repr

inductive Key where
  | help
  | version
  | verbose
  | request
  | compiler
  | family
  | commandFile
  | jobs
  | emitDatabase
deriving DecidableEq, Repr

/-- What a run is asked to do. -/
structure Arguments where
  action : Action
  verbose : Bool
  request : Path
  compiler : Option Path
  family : Option String
  commandFile : Bool
  jobs : Option Nat
  emitDatabase : Bool
deriving DecidableEq, Repr

inductive Stop where
  | help
  | version
  /-- Arguments that cannot be understood. -/
  | misuse
deriving DecidableEq, Repr

namespace Action

def ofName? : String → Option Action
  | "compile" => some compile
  | "plan" => some plan
  | _ => none

def keys : Action → List Key
  | compile => [.help, .verbose, .request, .compiler, .family, .commandFile, .jobs, .emitDatabase]
  | plan => [.help, .verbose, .request, .compiler, .family, .commandFile]

end Action

namespace Key

def longName : Key → String
  | help => "help"
  | version => "version"
  | verbose => "verbose"
  | request => "request"
  | compiler => "compiler"
  | family => "family"
  | commandFile => "command-file"
  | jobs => "jobs"
  | emitDatabase => "emit-compile-commands"

def letter? : Key → Option Char
  | help => some 'h'
  | version => some 'V'
  | verbose => some 'v'
  | request => some 'r'
  | jobs => some 'j'
  | _ => none

def takesValue : Key → Bool
  | request | compiler | family | jobs => true
  | _ => false

def common : List Key := [.help, .version, .verbose]

end Key

/-- Numbers of jobs are less than this. -/
def numberBound : Nat := 18446744073709551616

/-- The number that decimal digits spell, behind a plus sign or not. -/
def number? (s : String) : Option Nat :=
  let digits := match s.toList with
    | '+' :: cs => cs
    | cs => cs
  (Text.natural? digits).filter (· < numberBound)

/-- Whether a value will do for an option. A path is not empty. -/
def Key.accepts : Key → String → Bool
  | request, v | compiler, v => v ≠ ""
  | jobs, v => (number? v).isSome
  | _, _ => true

abbrev Given := List (Key × String)

def give (k : Key) (value : String) (g : Given) : Except Stop Given :=
  match k with
  | .help => .error .help
  | .version => .error .version
  | k => if g.any (·.1 == k) || !k.accepts value then .error .misuse else .ok (g ++ [(k, value)])

inductive Form where
  | long (name : String) (value : Option String)
  | letters (cs : List Char)
  /-- Two dashes, after which there are no options. -/
  | dashes
  | plain
deriving DecidableEq, Repr

def form (arg : String) : Form :=
  match arg.toList with
  | ['-', '-'] => .dashes
  | '-' :: '-' :: s =>
    match Text.cutAt '=' s with
    | some (name, value) => .long (String.ofList name) (some (String.ofList value))
    | none => .long (String.ofList s) none
  | '-' :: c :: s => .letters (c :: s)
  | _ => .plain

/-- Give the options of several letters. The last may be one that still needs its value. -/
def giveLetters (keys : List Key) : List Char → Given → Except Stop (Given × Option Key)
  | [], g => .ok (g, none)
  | c :: cs, g =>
    match keys.find? fun k => k.letter? == some c with
    | none => .error .misuse
    | some k =>
      if k.takesValue then
        match cs with
        | [] => .ok (g, some k)
        | '=' :: cs => (give k (String.ofList cs) g).map (·, none)
        | cs => (give k (String.ofList cs) g).map (·, none)
      else (give k "" g).bind (giveLetters keys cs)

def giveLong (keys : List Key) (name : String) (value : Option String) (g : Given) :
    Except Stop (Given × Option Key) :=
  match keys.find? fun k => k.longName == name, value with
  | none, _ => .error .misuse
  | some k, some v => if k.takesValue then (give k v g).map (·, none) else .error .misuse
  | some k, none => if k.takesValue then .ok (g, some k) else (give k "" g).map (·, none)

/-- Give the options that an argument stands for; none if it stands for no option. -/
def giveArgument (keys : List Key) (arg : String) (g : Given) :
    Option (Except Stop (Given × Option Key)) :=
  match form arg with
  | .long name value => some (giveLong keys name value g)
  | .letters cs => some (giveLetters keys cs g)
  | .dashes | .plain => none

/-- Read options up to the first argument that is none, from which on all are left. -/
def readOptions (keys : List Key) : List String → Given → Except Stop (Given × List String)
  | [], g => .ok (g, [])
  | arg :: args, g =>
    match giveArgument keys arg g with
    | none => .ok (g, arg :: args)
    | some (.error e) => .error e
    | some (.ok (g, none)) => readOptions keys args g
    | some (.ok (g, some k)) =>
      match args with
      | [] => .error .misuse
      | value :: args =>
        if form value = .plain then (give k value g).bind (readOptions keys args)
        else .error .misuse

namespace Given

def value? (g : Given) (k : Key) : Option String := g.lookup k

def has (g : Given) (k : Key) : Bool := (g.value? k).isSome

/-- What the options of a command mean. -/
def arguments (g : Given) (action : Action) (verbose : Bool) : Arguments where
  action
  verbose := verbose || g.has .verbose
  request := ⟨(g.value? .request).getD Request.fileName⟩
  compiler := (g.value? .compiler).map Path.mk
  family := g.value? .family
  commandFile := g.has .commandFile
  jobs := (g.value? .jobs).bind number?
  emitDatabase := g.has .emitDatabase

end Given

def Arguments.parse (args : List String) : Except Stop Arguments := do
  match ← readOptions Key.common args [] with
  | (_, []) => .error .misuse
  | (before, name :: args) =>
    match Action.ofName? name with
    | none => .error (if name = "help" then .help else .misuse)
    | some action =>
      match ← readOptions action.keys args [] with
      | (g, []) | (g, ["--"]) => .ok (g.arguments action (before.has .verbose))
      | _ => .error .misuse

end CompileDriver.CommandLine
