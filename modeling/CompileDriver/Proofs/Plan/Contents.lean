import CompileDriver.Proofs.Plan.Success
import CompileDriver.Proofs.Path.Components
import Mathlib.Data.List.Forall2

/-! # What plans hold

A plan holds exactly one invocation for each source, in the order of the sources, with the arguments
that belong to that source and to no other. It warns of exactly the sources that include the
precompiled header, but another one first. The headers of a source are looked up by its components.
-/

namespace CompileDriver

namespace Spec

variable {s : Spec} {source : Path} {header : String} {headers : List String}

/-- The entry that counts for `source` lists `headers`: the first whose path has the components of
`source`. -/
def Lists (s : Spec) (source : Path) (headers : List String) : Prop :=
  ∃ before key after, s.directives = before ++ (key, headers) :: after ∧
    key.components = source.components ∧ ∀ d ∈ before, d.1.components ≠ source.components

theorem directivesOf?_eq_some_iff :
    s.directivesOf? source = some headers ↔ s.Lists source headers := by
  rw [directivesOf?, Option.map_eq_some_iff]
  constructor
  · rintro ⟨⟨key, headers⟩, hfind, rfl⟩
    obtain ⟨hkey, before, after, hsplit, hbefore⟩ := List.find?_eq_some_iff_append.1 hfind
    refine ⟨before, key, after, hsplit, Path.same_iff.1 hkey, fun d hd hsame => ?_⟩
    have hne := hbefore d hd
    rw [Path.same_iff.2 hsame] at hne
    cases hne
  · rintro ⟨before, key, after, hsplit, hkey, hbefore⟩
    refine ⟨(key, headers), List.find?_eq_some_iff_append.2 ⟨?_, before, after, hsplit, ?_⟩, rfl⟩
    · exact Path.same_iff.2 hkey
    · intro d hd
      simpa [Path.same] using hbefore d hd

theorem directivesOf?_eq_of_same {p q : Path} (h : p.same q = true) :
    s.directivesOf? p = s.directivesOf? q := by
  have hsame : (fun d : Path × List String => d.1.same p) = fun d => d.1.same q := by
    funext d
    rw [Path.same, Path.same, Path.same_iff.1 h]
  rw [directivesOf?, directivesOf?, hsame]

/-- The first header that `source` includes is the precompiled one. -/
def UsesHeader (s : Spec) (source : Path) : Prop :=
  ∃ header headers, s.precompiledHeader = some header ∧ s.Lists source headers ∧
    headers.head? = some header

/-- `source` includes `header`, but another one first. -/
def IncludesLate (s : Spec) (header : String) (source : Path) : Prop :=
  ∃ headers, s.Lists source headers ∧ header ∈ headers ∧ headers.head? ≠ some header

instance : DecidablePred (s.IncludesLate header) := fun source =>
  decidable_of_iff
    (∃ headers ∈ s.directivesOf? source, header ∈ headers ∧ headers.head? ≠ some header)
    (by simp only [Option.mem_def, directivesOf?_eq_some_iff, IncludesLate])

end Spec

namespace PrecompiledHeader

variable {cwd : Path} {family : Family} {s : Spec} {source : Path} {header : String}

theorem decide_of_usesHeader (h : s.UsesHeader source) :
    decide cwd family s source = ⟨family.headerArguments cwd s, none⟩ := by
  obtain ⟨header, headers, hheader, hlists, hfirst⟩ := h
  rw [decide, hheader, Spec.directivesOf?_eq_some_iff.2 hlists]
  exact if_pos hfirst

theorem decide_of_includesLate (hheader : s.precompiledHeader = some header)
    (h : s.IncludesLate header source) :
    decide cwd family s source = ⟨[], some (tooLateMessage header source)⟩ := by
  obtain ⟨headers, hlists, hmem, hfirst⟩ := h
  rw [decide, hheader, Spec.directivesOf?_eq_some_iff.2 hlists]
  exact (if_neg hfirst).trans (if_pos hmem)

theorem decide_of_precompiledHeader_eq_none (h : s.precompiledHeader = none) :
    decide cwd family s source = {} := by
  rw [decide, h]

theorem decide_of_not (hheader : s.precompiledHeader = some header) (huses : ¬ s.UsesHeader source)
    (hlate : ¬ s.IncludesLate header source) : decide cwd family s source = {} := by
  rw [decide, hheader]
  cases hdirectives : s.directivesOf? source with
  | none => rfl
  | some headers =>
    have hlists := Spec.directivesOf?_eq_some_iff.1 hdirectives
    have hfirst : headers.head? ≠ some header := fun hfirst =>
      huses ⟨header, headers, hheader, hlists, hfirst⟩
    have hmem : header ∉ headers := fun hmem => hlate ⟨headers, hlists, hmem, hfirst⟩
    exact (if_neg hfirst).trans (if_neg hmem)

theorem arguments_of_not_usesHeader (h : ¬ s.UsesHeader source) :
    (decide cwd family s source).arguments = [] := by
  cases hheader : s.precompiledHeader with
  | none => rw [decide_of_precompiledHeader_eq_none hheader]
  | some header =>
    by_cases hlate : s.IncludesLate header source
    · rw [decide_of_includesLate hheader hlate]
    · rw [decide_of_not hheader h hlate]

theorem warning_eq (hheader : s.precompiledHeader = some header) :
    (decide cwd family s source).warning =
      if s.IncludesLate header source then some (tooLateMessage header source) else none := by
  by_cases hlate : s.IncludesLate header source
  · rw [decide_of_includesLate hheader hlate, if_pos hlate]
  · rw [if_neg hlate]
    by_cases huses : s.UsesHeader source
    · rw [decide_of_usesHeader huses]
    · rw [decide_of_not hheader huses hlate]

end PrecompiledHeader

namespace Plan

open Procedure

variable {h : Host} {w w' : World} {cwd : Path} {family : Family} {options : Options} {s : Spec}
  {shared : List String} {is : List Invocation}

/-- What the invocation for the source `p` consists of. -/
structure IsInvocationOf (cwd : Path) (family : Family) (s : Spec) (shared : List String)
    (p : Path) (i : Invocation) : Prop where
  name : i.name = "compiling " ++ ((Path.absolute cwd p).fileName?.getD (Path.absolute cwd p).text)
  workingDirectory : i.workingDirectory = s.objectDirectory
  source : i.source = Path.absolute cwd p
  output : i.output = ObjectPath.of s.objectDirectory p family.objectSuffix s.sourceRoot
  arguments : ∃ header,
    i.arguments = shared ++ header ++ [(Path.absolute cwd p).text] ++
      family.outputArguments i.output ∧
    (s.UsesHeader p → header = family.headerArguments cwd s) ∧ (¬ s.UsesHeader p → header = [])

theorem isInvocationOf_planned (source : Path) :
    IsInvocationOf cwd family s shared source (planned cwd family s shared source) where
  name := rfl
  workingDirectory := rfl
  source := rfl
  output := rfl
  arguments := by
    refine ⟨_, rfl, fun huses => ?_, PrecompiledHeader.arguments_of_not_usesHeader⟩
    rw [PrecompiledHeader.decide_of_usesHeader huses]

/-- The shared arguments as each invocation gets them. -/
def assembled (cwd : Path) (family : Family) (options : Options) (s : Spec) : List String :=
  if options.commandFile then [OptionsFile.reference (OptionsFile.location cwd s.tempDirectory)]
  else sharedArguments family options s

theorem run_assemble_eq_ok (hshared : (assemble cwd family options s).run h w = (.ok shared, w')) :
    shared = assembled cwd family options s ∧ w'.notices = w.notices := by
  have hnotices := callsOnly_assemble.run_notices (h := h) (q := assemble cwd family options s) w
  rw [hshared] at hnotices
  refine ⟨?_, hnotices⟩
  unfold assemble at hshared
  unfold assembled
  dsimp only at hshared
  split at hshared
  · next hfile =>
    obtain ⟨p, v, hwrite, hshared⟩ := run_andThen_eq_ok.1 hshared
    cases hshared
    rw [run_mapError_eq_ok] at hwrite
    rw [if_pos hfile, (OptionsFile.run_write_eq_ok hwrite).1]
  · next hfile =>
    cases hshared
    rw [if_neg hfile]

theorem warnings_append {ms : List String} (hw : w'.notices = w.notices ++ ms.map Notice.warning) :
    w'.warnings = w.warnings ++ ms := by
  rw [World.warnings, hw, List.filterMap_append, World.warnings]
  congr 1
  induction ms with
  | nil => rfl
  | cons m ms ih => simp

theorem filterMap_warning? {header : String} (hheader : s.precompiledHeader = some header)
    (sources : List Path) :
    sources.filterMap (warning? cwd family s) =
      (sources.filter fun source => s.IncludesLate header source).map
        (PrecompiledHeader.tooLateMessage header) := by
  induction sources with
  | nil => rfl
  | cons source sources ih =>
    have hsource : warning? cwd family s source = _ := PrecompiledHeader.warning_eq hheader
    by_cases hlate : s.IncludesLate header source
    · rw [if_pos hlate] at hsource
      rw [List.filterMap_cons_some hsource, List.filter_cons_of_pos (by simpa using hlate), ih]
      rfl
    · rw [if_neg hlate] at hsource
      rw [List.filterMap_cons_none hsource, List.filter_cons_of_neg (by simpa using hlate), ih]

/-- A plan that has been made holds exactly the invocations of the sources, and warns of exactly the
sources that include the precompiled header too late. -/
theorem contents_of_run_make (his : (make cwd family options s).run h w = (.ok is, w')) :
    let shared :=
      if options.commandFile then
        ["@" ++ (Path.absolute cwd (s.tempDirectory / "options.txt")).text]
      else (options.transform.getD id) (family.sharedArguments s)
    ((assemble cwd family options s).run h w).1 = .ok shared ∧
    List.Forall₂ (IsInvocationOf cwd family s shared) s.sources is ∧
    (s.precompiledHeader = none → w'.warnings = w.warnings) ∧
    (∀ header, s.precompiledHeader = some header →
      w'.warnings = w.warnings ++
        (s.sources.filter fun source => s.IncludesLate header source).map
          (PrecompiledHeader.tooLateMessage header)) ∧
    (∀ p q : Path, p.same q = true → s.directivesOf? p = s.directivesOf? q) := by
  intro shared
  obtain ⟨shared', v, hshared, his⟩ := run_andThen_eq_ok.1 his
  obtain ⟨rfl, hnotices⟩ := run_assemble_eq_ok hshared
  obtain ⟨rfl, -, hnotices'⟩ := run_invocations_eq_ok his
  rw [hnotices] at hnotices'
  refine ⟨by rw [hshared]; rfl, ?_, fun hnone => ?_, fun header hheader => ?_,
    fun p q => Spec.directivesOf?_eq_of_same⟩
  · rw [List.forall₂_map_right_iff, List.forall₂_same]
    exact fun source _ => isInvocationOf_planned source
  · have hwarning : warning? cwd family s = fun _ => none := by
      funext source
      rw [warning?, PrecompiledHeader.decide_of_precompiledHeader_eq_none hnone]
    have hwarnings := warnings_append hnotices'
    rw [hwarning] at hwarnings
    simpa using hwarnings
  · have hwarnings := warnings_append hnotices'
    rwa [filterMap_warning? hheader] at hwarnings

/-- A source that is listed twice and includes the header late, and one whose entry is spelled in
another way. -/
theorem contents_of_run_make_mixed :
    let h : Host := ⟨["r"], fun _ fs => (.error .notFound, fs)⟩
    let w : World := { files := FileSystem.empty.putDirectories ["r"] }
    let s : Spec := {
      sources := [⟨"src/a.c"⟩, ⟨"src//b.c"⟩, ⟨"c.c"⟩, ⟨"src/a.c"⟩]
      objectDirectory := ⟨"out"⟩
      tempDirectory := ⟨"tmp"⟩
      precompiledHeader := some "pch.h"
      directives := [(⟨"src/./b.c"⟩, ["pch.h", "x.h"]), (⟨"src/a.c"⟩, ["x.h", "pch.h"])]
      logLocation := ⟨"log"⟩ }
    let late := "The source file a.c includes the header pch.h but it is not the first " ++
      "declared header, so the pre-compiled header will not be used."
    ∃ is w', (make ⟨"/r"⟩ .gcc { commandFile := true } s).run h w = (.ok is, w') ∧
      List.Forall₂ (IsInvocationOf ⟨"/r"⟩ .gcc s ["@/r/tmp/options.txt"]) s.sources is ∧
      is.map (·.arguments) =
        [["@/r/tmp/options.txt", "/r/src/a.c", "-o", "out/src/a.o"],
          ["@/r/tmp/options.txt", "-include", "pch.h", "/r/src/b.c", "-o", "out/src/b.o"],
          ["@/r/tmp/options.txt", "/r/c.c", "-o", "out/c.o"],
          ["@/r/tmp/options.txt", "/r/src/a.c", "-o", "out/src/a.o"]] ∧
      w'.warnings = [late, late] := by
  intro h w s late
  have his := run_eq_ok_of_toOption (h := h) (w := w)
    (p := make ⟨"/r"⟩ .gcc { commandFile := true } s)
    (a := s.sources.map (planned ⟨"/r"⟩ .gcc s ["@/r/tmp/options.txt"])) (by decide +kernel)
  obtain ⟨-, hinvocations, -, hwarnings, -⟩ := contents_of_run_make his
  have hlate : (s.sources.filter fun source => s.IncludesLate "pch.h" source).map
      (PrecompiledHeader.tooLateMessage "pch.h") = [late, late] := by decide +kernel
  have hshared : "@" ++ (Path.absolute ⟨"/r"⟩ (s.tempDirectory / "options.txt")).text =
      "@/r/tmp/options.txt" := by decide +kernel
  refine ⟨_, _, his, ?_, by decide +kernel, (hwarnings "pch.h" rfl).trans ?_⟩
  · rwa [if_pos rfl, hshared] at hinvocations
  · rw [hlate]
    rfl

end Plan

end CompileDriver
