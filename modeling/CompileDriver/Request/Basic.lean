import CompileDriver.FileSystem.Files
import CompileDriver.Spec
import CompileDriver.Toml.Document

/-! # Compile requests

A request describes in TOML what is to be compiled and how. Paths in it are relative to the
directory of the request.
-/

namespace CompileDriver

structure Request where
  /-- Source files and patterns. -/
  sources : List String := []
  objectDirectory : Path := ⟨"build/obj"⟩
  tempDirectory : Path := ⟨"build/tmp"⟩
  language : Language := .c
  /-- Macros, each with its value after an equals sign. -/
  defines : List String := []
  includeDirectories : List Path := []
  systemIncludeDirectories : List Path := []
  arguments : List String := []
  precompiledHeader : Option String := none
  prefixHeader : Option Path := none
  precompiledFile : Option Path := none
  commandFile : Bool := false
  logFile : Option Path := none
  sourceRoot : Option Path := none
  pathLimit : Option Nat := none
  /-- The headers that sources include, by source, in the order of the keys. -/
  includes : List (String × List String) := []
deriving DecidableEq, Repr

inductive RequestFailure where
  | read (p : Path) (e : IoError)
  | parse (p : Path)
deriving DecidableEq, Repr

def RequestFailure.chain : RequestFailure → Chain
  | read p e => [.text ("failed to read compile request: " ++ p.text), .io e]
  | parse p => [.text ("failed to parse compile request: " ++ p.text), .toml]

namespace Request

def fileName : String := "Compile.toml"

def languageOf? : String → Option Language
  | "c" => some .c
  | "cxx" => some .cxx
  | _ => none

open Toml (Value)

def pathOf? (v : Value) : Option Path := v.string?.map Path.mk

def pathsOf? (v : Value) : Option (List Path) := v.strings?.map (·.map Path.mk)

/-- The request in a table. Keys without a meaning are left alone. -/
def ofEntries? (es : Toml.Entries) : Option Request := do
  some
    { sources := ← es.setting "sources" Value.strings? []
      objectDirectory := ← es.setting "object_dir" pathOf? ⟨"build/obj"⟩
      tempDirectory := ← es.setting "temp_dir" pathOf? ⟨"build/tmp"⟩
      language := ← es.setting "language" (·.choice?.bind languageOf?) .c
      defines := ← es.setting "defines" Value.strings? []
      includeDirectories := ← es.setting "include_dirs" pathsOf? []
      systemIncludeDirectories := ← es.setting "system_include_dirs" pathsOf? []
      arguments := ← es.setting "args" Value.strings? []
      precompiledHeader := ← es.setting? "precompiled_header" Value.string?
      prefixHeader := ← es.setting? "prefix_header" pathOf?
      precompiledFile := ← es.setting? "pch_file" pathOf?
      commandFile := ← es.setting "command_file" Value.boolean? false
      logFile := ← es.setting? "log_file" pathOf?
      sourceRoot := ← es.setting? "source_root" pathOf?
      pathLimit := ← es.setting? "path_limit" Value.natural?
      includes := ← es.setting "includes"
        (fun v => v.stringLists?.map (·.mergeSort fun a b => a.1 ≤ b.1)) [] }

def parse? (text : String) : Option Request := (Toml.parse? text).bind ofEntries?

def load (p : Path) : Procedure (Except RequestFailure Request) :=
  ((Procedure.readFile p).mapError (RequestFailure.read p)).andThen fun text =>
    .done <| match parse? text with
      | some r => .ok r
      | none => .error (.parse p)

/-- Where the operation log of a request is written, seen from `base`. -/
def logLocation (r : Request) (base : Path) : Path :=
  match r.logFile with
  | some p => base.join p
  | none => base.join r.tempDirectory / "output.txt"

end Request

end CompileDriver
