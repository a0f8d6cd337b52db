import CompileDriver.Path.Basic

/-! # Compile specifications

A specification is one batch of sources that are compiled under shared options into one
object directory.
-/

namespace CompileDriver

inductive Language where
  | c
  | cxx
deriving DecidableEq, Repr

def Language.compilerName : Language → String
  | c => "c"
  | cxx => "c++"

structure Spec where
  /-- The sources, in the order in which they were declared. -/
  sources : List Path := []
  objectDirectory : Path
  tempDirectory : Path
  /-- The directory whose tree the object directory repeats. -/
  sourceRoot : Option Path := none
  language : Language := .c
  /-- Preprocessor macros with their values. -/
  macros : List (String × Option String) := []
  includeRoots : List Path := []
  systemIncludeRoots : List Path := []
  arguments : List String := []
  /-- The header that the precompiled header was built from, as sources include it. -/
  precompiledHeader : Option String := none
  /-- The header that is included first into sources that use the precompiled header. -/
  prefixHeader : Option Path := none
  /-- The precompiled header itself, for compilers that have to be told. -/
  precompiledFile : Option Path := none
  /-- The headers that sources include, in order; a later entry for a source comes first. -/
  directives : List (Path × List String) := []
  logLocation : Path
deriving DecidableEq, Repr

namespace Spec

def withSource (s : Spec) (source : Path) (headers : List String) : Spec :=
  { s with
    sources := s.sources ++ [source]
    directives := (source, headers) :: s.directives }

/-- The headers that a source includes; sources are told apart by their components. -/
def directivesOf? (s : Spec) (source : Path) : Option (List String) :=
  (s.directives.find? fun d => d.1.same source).map (·.2)

end Spec

/-! ## Changes to the shared arguments

A caller may change the arguments that all sources share before they are used: any function
from argument lists to argument lists.
-/

abbrev Transform := List String → List String

namespace Transform

def append (extra : List String) : Transform := fun args => args ++ extra

def remove (unwanted : List String) : Transform := fun args => args.filter (!unwanted.contains ·)

def andThen (f g : Transform) : Transform := g ∘ f

end Transform

end CompileDriver
