import CompileDriver.Proofs.Path.Parents
import CompileDriver.Toolchain.Family

/-! # Paths in arguments

The arguments for a compiler are texts of the caller and paths behind flags. Where all paths of a
specification are absolute, so are those in the arguments.
-/

namespace CompileDriver

structure Spec.IsAbsolute (s : Spec) : Prop where
  sources : ∀ p ∈ s.sources, p.isAbsolute = true
  objectDirectory : s.objectDirectory.isAbsolute = true
  tempDirectory : s.tempDirectory.isAbsolute = true
  logLocation : s.logLocation.isAbsolute = true
  sourceRoot : ∀ p ∈ s.sourceRoot, p.isAbsolute = true
  includeRoots : ∀ p ∈ s.includeRoots, p.isAbsolute = true
  systemIncludeRoots : ∀ p ∈ s.systemIncludeRoots, p.isAbsolute = true
  prefixHeader : ∀ p ∈ s.prefixHeader, p.isAbsolute = true
  precompiledFile : ∀ p ∈ s.precompiledFile, p.isAbsolute = true

/-- An argument as it is put together: a text of the caller, or a path behind a flag. -/
inductive BuiltArgument where
  | text (s : String)
  | path (flag : String) (p : Path)

namespace BuiltArgument

def render : BuiltArgument → String
  | text s => s
  | path flag p => flag ++ p.text

def IsAbsolute : BuiltArgument → Prop
  | text _ => True
  | path _ p => p.isAbsolute = true

@[simp] theorem isAbsolute_text (s : String) : (text s).IsAbsolute := trivial

@[simp] theorem isAbsolute_path (flag : String) (p : Path) :
    (path flag p).IsAbsolute ↔ p.isAbsolute = true :=
  Iff.rfl

end BuiltArgument

namespace Family

open BuiltArgument

def builtShared : Family → Spec → List BuiltArgument
  | msvc, s =>
    [text "/nologo", text "/c", match s.language with | .c => text "/TC" | .cxx => text "/TP"] ++
      s.macros.map (fun m => text (defineArgument "/D" m)) ++
      (s.includeRoots ++ s.systemIncludeRoots).map (path "/I") ++
      s.arguments.map text
  | _, s =>
    [text "-c", text "-x", text s.language.compilerName] ++
      s.macros.map (fun m => text (defineArgument "-D" m)) ++
      s.includeRoots.map (path "-I") ++
      s.systemIncludeRoots.flatMap (fun d => [text "-isystem", path "" d]) ++
      s.arguments.map text

def builtHeader (cwd : Path) : Family → Spec → List BuiltArgument
  | msvc, s =>
    match s.precompiledHeader with
    | none => []
    | some header =>
      [text ("/Yu" ++ header)] ++ (s.precompiledFile.map (path "/Fp")).toList ++
        [(s.prefixHeader.map (path "/FI")).getD (text ("/FI" ++ header))]
  | _, s =>
    match s.prefixHeader, s.precompiledHeader with
    | some p, _ => [text "-include", path "" (Path.absolute cwd p)]
    | none, some header => [text "-include", text header]
    | none, none => []

def builtOutput : Family → Path → List BuiltArgument
  | msvc, p => [path "/Fo" p]
  | _, p => [text "-o", path "" p]

variable {family : Family} {s : Spec} {cwd : Path}

theorem render_builtShared : (family.builtShared s).map render = family.sharedArguments s := by
  cases family
  case msvc =>
    cases hlanguage : s.language <;>
      simp [builtShared, sharedArguments, render, hlanguage, Function.comp_def]
  all_goals
    simp [builtShared, sharedArguments, render, List.map_flatMap, Function.comp_def]

theorem render_builtHeader :
    (family.builtHeader cwd s).map render = family.headerArguments cwd s := by
  cases family
  case msvc =>
    cases hheader : s.precompiledHeader <;> cases hprefix : s.prefixHeader <;>
      cases hfile : s.precompiledFile <;>
        simp [builtHeader, headerArguments, render, hheader, hprefix, hfile]
  all_goals
    cases hheader : s.precompiledHeader <;> cases hprefix : s.prefixHeader <;>
      simp [builtHeader, headerArguments, render, hheader, hprefix]

theorem render_builtOutput (p : Path) :
    (family.builtOutput p).map render = family.outputArguments p := by
  cases family <;> simp [builtOutput, outputArguments, render]

/-! ## Absolute paths -/

theorem isAbsolute_map_text {α : Type} (f : α → String) (xs : List α) :
    ∀ a ∈ xs.map fun x => text (f x), a.IsAbsolute := by
  simp

theorem isAbsolute_map_path (flag : String) {ps : List Path}
    (hps : ∀ p ∈ ps, p.isAbsolute = true) : ∀ a ∈ ps.map (path flag), a.IsAbsolute := by
  simpa using hps

theorem isAbsolute_builtShared (family : Family) (hs : s.IsAbsolute) :
    ∀ a ∈ family.builtShared s, a.IsAbsolute := by
  have hinclude := isAbsolute_map_path "-I" hs.includeRoots
  have hsystem : ∀ a ∈ s.systemIncludeRoots.flatMap fun d => [text "-isystem", path "" d],
      a.IsAbsolute := by
    intro a ha
    obtain ⟨d, hd, ha⟩ := List.mem_flatMap.1 ha
    rcases List.mem_cons.1 ha with rfl | ha
    · exact isAbsolute_text _
    · rw [List.mem_singleton.1 ha]
      exact hs.systemIncludeRoots d hd
  cases family
  case msvc =>
    have hroots := isAbsolute_map_path "/I"
      (List.forall_mem_append.2 ⟨hs.includeRoots, hs.systemIncludeRoots⟩)
    simp only [builtShared, List.forall_mem_append]
    refine ⟨⟨⟨?_, isAbsolute_map_text _ _⟩, hroots⟩, isAbsolute_map_text _ _⟩
    cases s.language <;> simp
  all_goals
    simp only [builtShared, List.forall_mem_append]
    refine ⟨⟨⟨⟨?_, isAbsolute_map_text _ _⟩, hinclude⟩, hsystem⟩, isAbsolute_map_text _ _⟩
    simp

theorem isAbsolute_builtHeader (family : Family) (hs : s.IsAbsolute) (cwd : Path) :
    ∀ a ∈ family.builtHeader cwd s, a.IsAbsolute := by
  cases family
  case msvc =>
    cases hheader : s.precompiledHeader with
    | none => simp [builtHeader, hheader]
    | some header =>
      simp only [builtHeader, hheader, List.forall_mem_append]
      refine ⟨⟨by simp, ?_⟩, ?_⟩
      · simpa using hs.precompiledFile
      · cases hprefix : s.prefixHeader with
        | none => simp
        | some p => simpa using hs.prefixHeader p hprefix
  all_goals
    cases hprefix : s.prefixHeader with
    | none => cases hheader : s.precompiledHeader <;> simp [builtHeader, hprefix, hheader]
    | some p =>
      have hp := Path.isAbsolute_absolute (hs.prefixHeader p hprefix) cwd
      simp [builtHeader, hprefix, hp]

theorem isAbsolute_builtOutput (family : Family) {p : Path} (hp : p.isAbsolute = true) :
    ∀ a ∈ family.builtOutput p, a.IsAbsolute := by
  cases family <;> simpa [builtOutput] using hp

end Family

end CompileDriver
