import CompileDriver.Proofs.Plan.Submission
import Mathlib.Data.List.Forall2

/-! # Plans with an options file

A plan that passes the shared arguments through an options file is the plan without that file,
except that every invocation starts with a reference to the file in the place of these arguments.
When the plan is given to a queue, the file holds them.
-/

namespace CompileDriver

open Procedure

/-- Two invocations that differ in how they get the shared arguments: `i` directly, and `j` by a
reference. -/
structure Invocation.SameByReference (shared : List String) (reference : String)
    (i j : Invocation) : Prop where
  name : i.name = j.name
  workingDirectory : i.workingDirectory = j.workingDirectory
  source : i.source = j.source
  output : i.output = j.output
  arguments : ∃ rest, i.arguments = shared ++ rest ∧ j.arguments = reference :: rest

namespace Plan

variable {cwd : Path} {family : Family} {options : Options} {s : Spec}

theorem sameByReference_planned (shared : List String) (reference : String) (source : Path) :
    Invocation.SameByReference shared reference (planned cwd family s shared source)
      (planned cwd family s [reference] source) where
  name := rfl
  workingDirectory := rfl
  source := rfl
  output := rfl
  arguments :=
    ⟨(PrecompiledHeader.decide cwd family s source).arguments ++
        [(Path.absolute cwd source).text] ++ family.outputArguments (objectOf family s source),
      by simp [planned, Invocation.make], by simp [planned, Invocation.make]⟩

theorem warnings_eq {w w' : World} (h : w.notices = w'.notices) : w.warnings = w'.warnings := by
  rw [World.warnings, World.warnings, h]

/-- With and without an options file, a specification has the same plan up to the shared
arguments, and the queue finds these in the file. -/
theorem commandFile_agrees {h : Host} {w w₁ w₂ : World} {is js : List Invocation}
    (hplain : (make cwd family { options with commandFile := false } s).run h w = (.ok is, w₁))
    (hfile : (make cwd family { options with commandFile := true } s).run h w = (.ok js, w₂)) :
    let shared := (options.transform.getD id) (family.sharedArguments s)
    let p := Path.absolute cwd (s.tempDirectory / "options.txt")
    List.Forall₂ (Invocation.SameByReference shared ("@" ++ p.text)) is js ∧
      w₁.warnings = w₂.warnings ∧
      w₂.files.read h.directory p =
        .ok (String.join (shared.map fun a => family.quoting.quote a ++ "\n")).toUTF8 ∧
      ∀ (σ : Type) (queue : Queue σ) (state : σ),
        (execute cwd family { options with commandFile := true } s queue state).run h w =
          (submit s queue js state).run h w₂ := by
  intro shared p
  obtain ⟨rfl, hnotices⟩ := run_make_eq_ok rfl hplain
  obtain ⟨rfl, hnotices', hread⟩ := run_make_commandFile_eq_ok rfl hfile
  refine ⟨?_, warnings_eq (hnotices.trans hnotices'.symm), hread,
    fun σ queue state => run_execute_of_make hfile queue state⟩
  rw [List.forall₂_map_left_iff, List.forall₂_map_right_iff, List.forall₂_same]
  exact fun source _ => sameByReference_planned shared _ source

/-- Two sources, of which one includes the precompiled header too late. -/
theorem commandFile_agrees_two_sources :
    let h : Host := ⟨["r"], fun _ fs => (.error .notFound, fs)⟩
    let w : World := { files := FileSystem.empty.putDirectories ["r"] }
    let options : Options := { transform := some (Transform.append ["/DTEXT=\"a b\"\\"]) }
    let s : Spec := {
      sources := [⟨"src/a.c"⟩, ⟨"../b.c"⟩]
      objectDirectory := ⟨"out"⟩
      tempDirectory := ⟨"tmp/../tmp"⟩
      precompiledHeader := some "pch.h"
      directives := [(⟨"src/a.c"⟩, ["x.h", "pch.h"]), (⟨"../b.c"⟩, ["pch.h"])]
      logLocation := ⟨"log"⟩ }
    ∃ is js w₁ w₂,
      (make ⟨"/r"⟩ .msvc { options with commandFile := false } s).run h w = (.ok is, w₁) ∧
      (make ⟨"/r"⟩ .msvc { options with commandFile := true } s).run h w = (.ok js, w₂) ∧
      is.map (·.arguments) =
        [["/nologo", "/c", "/TC", "/DTEXT=\"a b\"\\", "/r/src/a.c", "/Foout/src/a.obj"],
          ["/nologo", "/c", "/TC", "/DTEXT=\"a b\"\\", "/Yupch.h", "/FIpch.h", "/r/../b.c",
            "/Foout/__/b.obj"]] ∧
      List.Forall₂ (Invocation.SameByReference ["/nologo", "/c", "/TC", "/DTEXT=\"a b\"\\"]
        "@/r/tmp/../tmp/options.txt") is js ∧
      w₁.warnings = w₂.warnings ∧
      w₂.files.read ["r"] ⟨"/r/tmp/../tmp/options.txt"⟩ =
        .ok "/nologo\n/c\n/TC\n\"/DTEXT=\\\"a b\\\"\\\\\"\n".toUTF8 := by
  intro h w options s
  have hplain := run_eq_ok_of_toOption (h := h) (w := w)
    (p := make ⟨"/r"⟩ .msvc { options with commandFile := false } s)
    (a := s.sources.map (planned ⟨"/r"⟩ .msvc s ["/nologo", "/c", "/TC", "/DTEXT=\"a b\"\\"]))
    (by decide +kernel)
  have hfile := run_eq_ok_of_toOption (h := h) (w := w)
    (p := make ⟨"/r"⟩ .msvc { options with commandFile := true } s)
    (a := s.sources.map (planned ⟨"/r"⟩ .msvc s ["@/r/tmp/../tmp/options.txt"]))
    (by decide +kernel)
  obtain ⟨hsame, hwarnings, hread, -⟩ := commandFile_agrees hplain hfile
  have hshared : (options.transform.getD id) (Family.msvc.sharedArguments s) =
      ["/nologo", "/c", "/TC", "/DTEXT=\"a b\"\\"] := by decide +kernel
  have hp : Path.absolute ⟨"/r"⟩ (s.tempDirectory / "options.txt") =
      ⟨"/r/tmp/../tmp/options.txt"⟩ := by decide +kernel
  have htext : String.join (["/nologo", "/c", "/TC", "/DTEXT=\"a b\"\\"].map
      fun a => Family.msvc.quoting.quote a ++ "\n") =
        "/nologo\n/c\n/TC\n\"/DTEXT=\\\"a b\\\"\\\\\"\n" := by decide +kernel
  rw [hshared, hp] at hsame hread
  rw [htext] at hread
  exact ⟨_, _, _, _, hplain, hfile, by decide +kernel, hsame, hwarnings, hread⟩

end Plan

end CompileDriver
