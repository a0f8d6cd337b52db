import CompileDriver.Include
import CompileDriver.Request.Basic
import CompileDriver.Sources

/-! # Specifications from requests

A request becomes a specification by placing its paths below its directory, finding its sources,
and finding out which headers each source includes: from the request if that says so, otherwise
from the text of the source.
-/

namespace CompileDriver

inductive SpecFailure where
  | sources (f : GlobFailure)
  | scan (source : Path) (f : ReadFailure)
deriving DecidableEq, Repr

def SpecFailure.chain : SpecFailure → Chain
  | sources f => f.chain
  | scan source f => .text ("failed to scan include directives of " ++ source.text) :: f.chain

namespace Request

open Procedure

/-- A macro and its value, which an equals sign separates. -/
def macroOf (define : String) : String × Option String :=
  match Text.cutAt '=' define.toList with
  | some (name, value) => (String.ofList name, some (String.ofList value))
  | none => (define, none)

/-- The headers that the request declares for a source. If several of its keys are the same
path, the last of them counts. -/
def declared? (r : Request) (base source : Path) : Option (List String) :=
  (r.includes.reverse.find? fun e => (base / e.1).same source).map (·.2)

def directivesOf (r : Request) (base source : Path) :
    Procedure (Except SpecFailure (List String)) :=
  match r.declared? base source with
  | some headers => done (.ok headers)
  | none => (Include.scanFile source).mapError (SpecFailure.scan source)

def emptySpec (r : Request) (base : Path) : Spec where
  objectDirectory := base.join r.objectDirectory
  tempDirectory := base.join r.tempDirectory
  sourceRoot := some ((r.sourceRoot.map base.join).getD base)
  language := r.language
  macros := r.defines.map macroOf
  includeRoots := r.includeDirectories.map base.join
  systemIncludeRoots := r.systemIncludeDirectories.map base.join
  arguments := r.arguments
  precompiledHeader := r.precompiledHeader
  prefixHeader := r.prefixHeader.map base.join
  precompiledFile := r.precompiledFile.map base.join
  logLocation := r.logLocation base

def addSources (r : Request) (base : Path) : List Path → Spec → Procedure (Except SpecFailure Spec)
  | [], s => done (.ok s)
  | source :: sources, s =>
    (r.directivesOf base source).andThen fun headers =>
      addSources r base sources (s.withSource source headers)

def toSpec (r : Request) (cwd base : Path) : Procedure (Except SpecFailure Spec) :=
  let base := Path.absolute cwd base
  ((Sources.expand base r.sources).mapError SpecFailure.sources).andThen fun sources =>
    r.addSources base sources (r.emptySpec base)

end Request

end CompileDriver
