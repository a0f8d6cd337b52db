import CompileDriver.FileSystem.Files
import CompileDriver.Toml.Document

/-! # Toolchain configuration

The compiler and its family can be set in a configuration file, one for the user and one for a
project. What the project sets counts more.
-/

namespace CompileDriver

structure ToolchainConfig where
  family : Option String := none
  compiler : Option Path := none
deriving DecidableEq, Repr

inductive ConfigFailure where
  | read (p : Path) (e : IoError)
  | parse (p : Path)
deriving DecidableEq, Repr

def ConfigFailure.chain : ConfigFailure → Chain
  | read p e => [.text ("failed to read toolchain config: " ++ p.text), .io e]
  | parse p => [.text ("failed to parse toolchain config: " ++ p.text), .toml]

namespace ToolchainConfig

open Procedure
open Toml (Value)

def pathOf? (v : Value) : Option Path := v.string?.map Path.mk

def item? {α : Type} (items : List Value) (i : Nat) (read : Value → Option α) :
    Option (Option α) :=
  match items[i]? with
  | none => some none
  | some v => (read v).map some

/-- The settings in a value: a table, or a list of the family and the compiler. -/
def ofValue? : Value → Option ToolchainConfig
  | .table _ entries => do
    let es : Toml.Entries := entries
    some ⟨← es.setting? "family" Value.string?, ← es.setting? "compiler" pathOf?⟩
  | .array _ items => do
    some ⟨← item? items 0 Value.string?, ← item? items 1 pathOf?⟩
  | _ => none

def parse? (text : String) : Option ToolchainConfig := do
  (← Toml.parse? text).setting "toolchain" ofValue? {}

def load (p : Path) : Procedure (Except ConfigFailure ToolchainConfig) :=
  ((readFile p).mapError (ConfigFailure.read p)).andThen fun text =>
    done <| match parse? text with
      | some c => .ok c
      | none => .error (.parse p)

/-- The configuration in a file, if there is one. A file that cannot be used is only a warning. -/
def loadOrDefault (p : Path) : Procedure ToolchainConfig :=
  (pathExists p).bind fun found =>
    if found then
      (load p).bind fun
        | .ok c => done c
        | .error e =>
          call (.warn ("Failed to load toolchain config from " ++ p.text ++ ": " ++
            e.chain.message)) fun () => done {}
    else done {}

def merge (c other : ToolchainConfig) : ToolchainConfig where
  family := other.family <|> c.family
  compiler := other.compiler <|> c.compiler

def loadMerged (user : Option Path) (project : Path) : Procedure ToolchainConfig :=
  (match user with
    | some p => loadOrDefault p
    | none => done {}).bind fun c =>
      (loadOrDefault project).bind fun other => done (merge (merge {} c) other)

def userDirectory (home : Path) : Path := home / ".harbour"

def userPath (home : Path) : Path := userDirectory home / "toolchain.toml"

def projectPath (project : Path) : Path := project / ".harbour" / "toolchain.toml"

end ToolchainConfig

end CompileDriver
